import Techuila.Net.Codecs
import Techuila.Lib.Stores

/-!
# Messages that are stored to a buffer (`06-networking/protocols/protocols.cpp`)

The output is the memory behind a pointer, by 32-bit offset. A writer gives the length that it returns
and its stores in their order.

* `Stored.serializeIcmpEcho`, `Stored.serializeUdpDatagramIpv4`: the writers with their checks.
* `serializeIcmpEcho_stored`, `serializeUdpDatagramIpv4_stored`: a message that they store is that of
  `serializeIcmpEcho` and `serializeUdpDatagramIpv4`.
* `Within`: no store is outside the buffer or behind the message.
* `serializers_within`: a message is so where its length is one of 32 bits, of 16 for a datagram.
-/

namespace Techuila
namespace Net

open Techuila.Dist (Bytes)

abbrev Memory := UInt32 → UInt8

/-- An offset and the byte that is stored there. -/
abbrev Store := UInt32 × UInt8

def storesAt (i : Nat) (bytes : Bytes) : List Store := Stores.storesAt UInt32.ofNat i bytes

/-- The bytes from the pointer on. -/
def written (memory : Memory) (n : UInt32) : Bytes := Stores.load UInt32.ofNat memory n.toNat

namespace Stored

/-- The payload is copied byte by byte to offsets that wrap around. -/
def serializeIcmpEcho (message : IcmpEchoMessage) (payload : Bytes) (memory : Memory)
    (outCapacity : UInt32) : UInt32 × List Store :=
  let totalLength := ICMP_ECHO_HEADER_SIZE + UInt32.ofNat payload.length
  if outCapacity < totalLength then (0, [])
  else
    let stores := storesAt 0 [message.type] ++ storesAt 1 [message.code] ++
      storesAt 2 (writeU16 0) ++ storesAt 4 (writeU16 message.identifier) ++
      storesAt 6 (writeU16 message.sequenceNumber) ++ storesAt 8 payload
    let checksum := internetChecksum (written (Stores.run stores memory) totalLength)
    (totalLength, stores ++ storesAt 2 (writeU16 checksum))

def serializeUdpDatagramIpv4 (header : UdpHeader) (payload : Bytes) (sourceIp destIp : UInt32)
    (memory : Memory) (outCapacity : UInt32) : UInt32 × List Store :=
  let totalLength := UDP_HEADER_SIZE + UInt32.ofNat payload.length
  if outCapacity < totalLength then (0, [])
  else
    let stores := storesAt 0 (writeU16 header.sourcePort) ++
      storesAt 2 (writeU16 header.destPort) ++ storesAt 4 (writeU16 totalLength.toUInt16) ++
      storesAt 6 (writeU16 0) ++ storesAt 8 payload
    let checksum := udpChecksumWithPseudoHeader sourceIp destIp
      (written (Stores.run stores memory) totalLength) totalLength
    let checksum := if checksum = 0 then 0xFFFF else checksum
    (totalLength, stores ++ storesAt 6 (writeU16 checksum))

end Stored

variable {payload front back : Bytes} {memory : Memory} {outCapacity : UInt32}

theorem ofNat_injOn {n : Nat} (h : n ≤ 2 ^ 32) : Set.InjOn UInt32.ofNat (Set.Iio n) := by
  intro i hi j hj he
  have hi : i < n := hi
  have hj : j < n := hj
  have he := congrArg UInt32.toNat he
  rw [UInt32.toNat_ofNat', UInt32.toNat_ofNat'] at he
  omega

/-- All of a message is there where its offsets do not wrap around. -/
theorem written_all {bytes : Bytes} {n : UInt32} (h : n.toNat = bytes.length) :
    written (Stores.run (storesAt 0 bytes) memory) n = bytes := by
  have hlt := n.toNat_lt
  rw [written, storesAt, Stores.load_storesAt _ (ofNat_injOn (by omega)) (by omega), List.take_zero,
    List.nil_append, List.drop_eq_nil_of_le (by rw [Stores.length_load]; omega), List.append_nil]

/-- The checksum takes the place of its zeros. -/
theorem written_patched {n : UInt32} (checksum : UInt16)
    (h : n.toNat = (front ++ writeU16 0 ++ back).length) :
    written (Stores.run (storesAt 0 (front ++ writeU16 0 ++ back) ++
      storesAt front.length (writeU16 checksum)) memory) n =
      front ++ writeU16 checksum ++ back := by
  have hlt := n.toNat_lt
  have hall := @written_all memory _ n h
  have hlen : n.toNat = front.length + 2 + back.length := by
    rw [h]
    simp [Nat.add_assoc]
  have hfront : (front ++ writeU16 0).length = front.length + 2 := by simp
  rw [Stores.run_append, written, storesAt, storesAt,
    Stores.load_storesAt _ (ofNat_injOn (by omega)) (by rw [length_writeU16]; omega),
    ← written, ← storesAt, hall, length_writeU16, List.drop_left' hfront, List.append_assoc front,
    List.take_left' rfl]

theorem storesAt_lt {i : Nat} {bytes : Bytes} {n : UInt32} (h : i + bytes.length ≤ n.toNat) :
    ∀ s ∈ storesAt i bytes, s.1 < n := by
  intro s hs
  obtain ⟨j, -, hlt, he⟩ := Stores.mem_storesAt _ hs
  have hn := n.toNat_lt
  rw [he, UInt32.lt_iff_toNat_lt, UInt32.toNat_ofNat']
  omega

theorem stores_lt {n : UInt32} (checksum : UInt16)
    (h : n.toNat = (front ++ writeU16 0 ++ back).length) :
    ∀ s ∈ storesAt 0 (front ++ writeU16 0 ++ back) ++ storesAt front.length (writeU16 checksum),
      s.1 < n := by
  have hlen : n.toNat = front.length + 2 + back.length := by
    rw [h]
    simp [Nat.add_assoc]
  intro s hs
  rcases List.mem_append.mp hs with hs | hs
  · exact storesAt_lt (by omega) s hs
  · exact storesAt_lt (by rw [length_writeU16]; omega) s hs

/-! ### What is stored is the message -/

/-- The length that is returned is that of the message, and no store is outside it or outside the
buffer. -/
def Within (payload : Bytes) (outCapacity : UInt32) (result : UInt32 × List Store) : Prop :=
  result.1.toNat = 8 + payload.length ∧ ∀ s ∈ result.2, s.1 < outCapacity ∧ s.1 < result.1

theorem Within.of_lt {n : UInt32} {stores : List Store} (hlen : n.toNat = 8 + payload.length)
    (hle : n ≤ outCapacity) (hlt : ∀ s ∈ stores, s.1 < n) :
    Within payload outCapacity (n, stores) :=
  ⟨hlen, fun s hs => ⟨UInt32.lt_of_lt_of_le (hlt s hs) hle, hlt s hs⟩⟩

theorem toNat_total (h : 8 + payload.length < 2 ^ 32) :
    (8 + UInt32.ofNat payload.length).toNat = 8 + payload.length := by
  rw [UInt32.toNat_add, UInt32.toNat_ofNat', show (8 : UInt32).toNat = 8 from rfl]
  omega

theorem serializeIcmpEcho_stored (message : IcmpEchoMessage) (memory : Memory)
    (h : 8 + payload.length < 2 ^ 32)
    (hcapacity : ¬ outCapacity < ICMP_ECHO_HEADER_SIZE + UInt32.ofNat payload.length) :
    ∃ n stores, Stored.serializeIcmpEcho message payload memory outCapacity = (n, stores) ∧
      Within payload outCapacity (n, stores) ∧
      written (Stores.run stores memory) n = serializeIcmpEcho message payload := by
  have hstores : storesAt 0 [message.type] ++ storesAt 1 [message.code] ++
      storesAt 2 (writeU16 0) ++ storesAt 4 (writeU16 message.identifier) ++
      storesAt 6 (writeU16 message.sequenceNumber) ++ storesAt 8 payload =
      storesAt 0 ([message.type, message.code] ++ writeU16 0 ++ (writeU16 message.identifier ++
        writeU16 message.sequenceNumber ++ payload)) := by
    simp only [storesAt, Stores.storesAt_append, length_writeU16, List.append_assoc]
    rfl
  have hlen : (ICMP_ECHO_HEADER_SIZE + UInt32.ofNat payload.length).toNat =
      ([message.type, message.code] ++ writeU16 0 ++ (writeU16 message.identifier ++
        writeU16 message.sequenceNumber ++ payload)).length := by
    rw [ICMP_ECHO_HEADER_SIZE, toNat_total h]
    simp
    omega
  refine ⟨_, _, if_neg hcapacity, .of_lt (toNat_total h) (UInt32.not_lt.mp hcapacity) ?_, ?_⟩
  · rw [hstores]
    exact stores_lt _ hlen
  · rw [hstores, written_all hlen]
    exact written_patched _ hlen

theorem serializeUdpDatagramIpv4_stored (header : UdpHeader) (sourceIp destIp : UInt32)
    (memory : Memory) (h : 8 + payload.length < 2 ^ 32)
    (hcapacity : ¬ outCapacity < UDP_HEADER_SIZE + UInt32.ofNat payload.length) :
    ∃ n stores, Stored.serializeUdpDatagramIpv4 header payload sourceIp destIp memory outCapacity =
        (n, stores) ∧ Within payload outCapacity (n, stores) ∧
      written (Stores.run stores memory) n =
        serializeUdpDatagramIpv4 header payload sourceIp destIp := by
  have hstores (length : UInt16) : storesAt 0 (writeU16 header.sourcePort) ++
      storesAt 2 (writeU16 header.destPort) ++ storesAt 4 (writeU16 length) ++
      storesAt 6 (writeU16 0) ++ storesAt 8 payload =
      storesAt 0 (writeU16 header.sourcePort ++ writeU16 header.destPort ++ writeU16 length ++
        writeU16 0 ++ payload) := by
    simp only [storesAt, Stores.storesAt_append, length_writeU16, List.append_assoc]
  have hlen (length : UInt16) : (UDP_HEADER_SIZE + UInt32.ofNat payload.length).toNat =
      (writeU16 header.sourcePort ++ writeU16 header.destPort ++ writeU16 length ++ writeU16 0 ++
        payload).length := by
    rw [UDP_HEADER_SIZE, toNat_total h]
    simp
    omega
  refine ⟨_, _, if_neg hcapacity, .of_lt (toNat_total h) (UInt32.not_lt.mp hcapacity) ?_, ?_⟩
  · rw [hstores]
    exact stores_lt _ (hlen _)
  · rw [hstores, written_all (hlen _)]
    exact written_patched _ (hlen _)

/-! ### What is refused -/

/-- The length of a datagram is also the one that it says, and that is read from it. -/
def SaysLength (memory : Memory) (result : UInt32 × List Store) : Prop :=
  ∃ udpLength header, udpLength.toNat = result.1.toNat ∧
    readU16At (written (Stores.run result.2 memory) result.1) 4 = some udpLength ∧
    parseUdpHeader (written (Stores.run result.2 memory) result.1) result.1 = some (.ok header) ∧
    header.length = udpLength

theorem icmp_within (message : IcmpEchoMessage) (payload : Bytes) (memory : Memory)
    (outCapacity : UInt32) :
    (Stored.serializeIcmpEcho message payload memory outCapacity = (0, []) ∨
      Within payload outCapacity (Stored.serializeIcmpEcho message payload memory outCapacity)) ↔
    outCapacity < ICMP_ECHO_HEADER_SIZE + UInt32.ofNat payload.length ∨
      8 + payload.length < 2 ^ 32 := by
  by_cases hcapacity : outCapacity < ICMP_ECHO_HEADER_SIZE + UInt32.ofNat payload.length
  · exact iff_of_true (.inl (if_pos hcapacity)) (.inl hcapacity)
  rw [or_iff_right hcapacity]
  constructor
  · rintro (hnone | ⟨hlen, -⟩)
    · rw [Stored.serializeIcmpEcho, if_neg hcapacity] at hnone
      cases congrArg Prod.snd hnone
    · exact hlen ▸ UInt32.toNat_lt _
  · intro h
    obtain ⟨n, stores, he, hwithin, -⟩ := serializeIcmpEcho_stored message memory h hcapacity
    exact .inr (he ▸ hwithin)

theorem udp_within (header : UdpHeader) (payload : Bytes) (sourceIp destIp : UInt32)
    (memory : Memory) (outCapacity : UInt32) :
    (Stored.serializeUdpDatagramIpv4 header payload sourceIp destIp memory outCapacity = (0, []) ∨
      (Within payload outCapacity
          (Stored.serializeUdpDatagramIpv4 header payload sourceIp destIp memory outCapacity) ∧
        SaysLength memory
          (Stored.serializeUdpDatagramIpv4 header payload sourceIp destIp memory outCapacity))) ↔
    outCapacity < UDP_HEADER_SIZE + UInt32.ofNat payload.length ∨
      8 + payload.length < 2 ^ 16 := by
  by_cases hcapacity : outCapacity < UDP_HEADER_SIZE + UInt32.ofNat payload.length
  · exact iff_of_true (.inl (if_pos hcapacity)) (.inl hcapacity)
  rw [or_iff_right hcapacity]
  constructor
  · rintro (hnone | ⟨⟨hlen, -⟩, udpLength, -, hsays, -⟩)
    · rw [Stored.serializeUdpDatagramIpv4, if_neg hcapacity] at hnone
      cases congrArg Prod.snd hnone
    · rw [← hlen, ← hsays]
      exact udpLength.toNat_lt
  · intro h
    obtain ⟨n, stores, he, hwithin, hwritten⟩ := serializeUdpDatagramIpv4_stored header sourceIp
      destIp memory (by omega) hcapacity
    rw [he]
    refine .inr ⟨hwithin, ?_⟩
    have hlength : n.toNat = (serializeUdpDatagramIpv4 header payload sourceIp destIp).length := by
      rw [length_serializeUdpDatagramIpv4]
      exact hwithin.1
    obtain ⟨udpLength, hudp, hparse⟩ :=
      parseUdpHeader_serialize header payload sourceIp destIp (by omega) hlength
    have hread := readU16At_length header payload sourceIp destIp
    refine ⟨udpLength, _, hudp.trans hwithin.1.symm, ?_, hwritten ▸ hparse, rfl⟩
    rw [hwritten, hread]
    refine congrArg some (UInt16.toNat_inj.mp ?_)
    rw [UInt32.toNat_toUInt16, toNat_totalLength (by omega), hudp]
    omega

/-- A message is refused or stored within its buffer where its length is one of 32 bits, a datagram
with its length where that is one of 16 bits, or where the length that is left of it is over the
capacity. -/
theorem serializers_within (payload : Bytes) (memory : Memory) (outCapacity : UInt32) :
    (∀ message,
      (Stored.serializeIcmpEcho message payload memory outCapacity = (0, []) ∨
        Within payload outCapacity
          (Stored.serializeIcmpEcho message payload memory outCapacity)) ↔
      outCapacity < ICMP_ECHO_HEADER_SIZE + UInt32.ofNat payload.length ∨
        8 + payload.length < 2 ^ 32) ∧
    (∀ header sourceIp destIp,
      (Stored.serializeUdpDatagramIpv4 header payload sourceIp destIp memory outCapacity = (0, []) ∨
        (Within payload outCapacity
            (Stored.serializeUdpDatagramIpv4 header payload sourceIp destIp memory outCapacity) ∧
          SaysLength memory
            (Stored.serializeUdpDatagramIpv4 header payload sourceIp destIp memory outCapacity))) ↔
      outCapacity < UDP_HEADER_SIZE + UInt32.ofNat payload.length ∨
        8 + payload.length < 2 ^ 16) :=
  ⟨fun message => icmp_within message payload memory outCapacity,
    fun header sourceIp destIp => udp_within header payload sourceIp destIp memory outCapacity⟩

def zeros (n : Nat) : Bytes := List.replicate n 0

theorem length_zeros (n : Nat) : (zeros n).length = n := List.length_replicate

/-- A payload whose length goes round is stored to a buffer with no room, and one over the 16 bits is
stored with another length. -/
theorem serializers_overrun :
    ¬ (Stored.serializeIcmpEcho ⟨ICMP_TYPE_ECHO_REQUEST, 0, 0, 0⟩ (zeros 4294967288) (fun _ => 0) 0 =
        (0, []) ∨
      Within (zeros 4294967288) 0 (Stored.serializeIcmpEcho ⟨ICMP_TYPE_ECHO_REQUEST, 0, 0, 0⟩
        (zeros 4294967288) (fun _ => 0) 0)) ∧
    ¬ (Stored.serializeUdpDatagramIpv4 ⟨53, 53, 0⟩ (zeros 65528) 0 0 (fun _ => 0) 65536 = (0, []) ∨
      (Within (zeros 65528) 65536
          (Stored.serializeUdpDatagramIpv4 ⟨53, 53, 0⟩ (zeros 65528) 0 0 (fun _ => 0) 65536) ∧
        SaysLength (fun _ => 0)
          (Stored.serializeUdpDatagramIpv4 ⟨53, 53, 0⟩ (zeros 65528) 0 0 (fun _ => 0) 65536))) := by
  rw [icmp_within, udp_within, length_zeros, length_zeros]
  decide

end Net
end Techuila
