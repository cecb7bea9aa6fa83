import Techuila.Net.Parsers

/-!
# Headers that are written and read back (`06-networking/protocols/protocols.cpp`)

* `load_skip`, `load_here`: a field is read behind those before it.
* `patched_modEq`: with the checksum put in the place of its zeros, the words add up to a multiple.
* `serializeUdpDatagramIpv4`: a datagram with its checksum.
-/

namespace Techuila
namespace Net

open Techuila.Dist (Bytes)
open OnesComplement (Folds total)

variable {buffer rest : Bytes} {length : UInt32} {i n : Nat}

/-! ### Fields one behind the other -/

theorem load_skip {skipped : Bytes} (h : skipped.length ≤ i) :
    load (skipped ++ rest) i n = load rest (i - skipped.length) n := by
  unfold load
  rw [List.length_append, List.drop_append, List.drop_eq_nil_of_le h, List.nil_append]
  by_cases hn : i - skipped.length + n ≤ rest.length
  · rw [if_pos hn, if_pos (by omega)]
  · rw [if_neg hn, if_neg (by omega)]

theorem load_here {field : Bytes} (h : field.length = n) : load (field ++ rest) 0 n = some field := by
  rw [load_eq (by rw [List.length_append]; omega), List.drop_zero, List.take_left' h]

theorem load_cons {b : UInt8} (h : 1 ≤ i) : load (b :: rest) i n = load rest (i - 1) n :=
  @load_skip rest i n [b] h

@[simp] theorem length_writeU16 (value : UInt16) : (writeU16 value).length = 2 := length_beBytes ..

@[simp] theorem length_writeU32 (value : UInt32) : (writeU32 value).length = 4 := length_beBytes ..

theorem readU32_writeU32 (value : UInt32) : readU32 (writeU32 value) = value := by
  rw [readU32, List.take_of_length_le (by simp), writeU32, ofBE_beBytes]
  exact UInt32.toNat_inj.mp (by simp)

theorem readU16_writeU16' (value : UInt16) : readU16 (writeU16 value) = value := by
  simpa using readU16_writeU16 value []

theorem readMac_writeMac' (mac : MacAddress) : readMac (writeMac mac) = mac := by
  simpa using readMac_writeMac mac []

theorem ArpOperation.ofCode_code (operation : ArpOperation) :
    ArpOperation.ofCode operation.code = some operation := by
  cases operation <;> rfl

theorem Checked.parseEthernetHeader_serialize (header : EthernetHeader) (rest : Bytes)
    (hlen : length.toNat = (serializeEthernetHeader header ++ rest).length) :
    Checked.parseEthernetHeader (serializeEthernetHeader header ++ rest) length =
      some (.ok header) := by
  have hsize : ¬ length < ETHERNET_HEADER_SIZE := by
    rw [UInt32.lt_iff_toNat_lt, hlen, List.length_append, length_serializeEthernetHeader]
    exact Nat.not_lt.mpr (Nat.le_add_right 14 rest.length)
  rw [parseEthernetHeader, if_neg hsize]
  simp [serializeEthernetHeader, readU16At, readMacAt, load_skip, load_here, length_writeMac,
    readU16_writeU16', readMac_writeMac']

theorem parseArpPacket_serialize (packet : ArpPacket) (rest : Bytes)
    (hlen : length.toNat = (serializeArpPacket packet ++ rest).length) :
    parseArpPacket (serializeArpPacket packet ++ rest) length = some (.ok packet) := by
  have hsize : ¬ length < ARP_PACKET_SIZE := by
    rw [UInt32.lt_iff_toNat_lt, hlen]
    simp [serializeArpPacket, length_writeMac, ARP_PACKET_SIZE]
    omega
  rw [parseArpPacket, if_neg hsize]
  simp [serializeArpPacket, readU16At, readU32At, readMacAt, load_skip, load_here, load_cons,
    length_writeMac, readU16_writeU16', readU32_writeU32, readMac_writeMac',
    List.getElem?_append_right, ArpOperation.ofCode_code]

/-! ### The checksum in its place -/

theorem total_writeU16 (value : UInt16) (rest : Bytes) :
    total (writeU16 value ++ rest) = value.toNat + total rest := by
  have hlt := value.toNat_lt
  rw [writeU16, beBytes, beBytes, beBytes]
  simp only [List.cons_append, List.nil_append, OnesComplement.total_cons_cons,
    UInt8.toNat_ofNat']
  omega

theorem toNat_not (checksum : UInt16) : (~~~checksum).toNat = 65535 - checksum.toNat := by
  rw [← UInt16.toNat_toBitVec, UInt16.toBitVec_not, BitVec.toNat_not, UInt16.toNat_toBitVec]

/-- A checksum makes the sum that it was taken of a multiple. -/
theorem complement_modEq {checksum : UInt16} {s : Nat} (h : Folds 65535 s (~~~checksum).toNat) :
    s + checksum.toNat ≡ 0 [MOD 65535] := by
  have hlt := checksum.toNat_lt
  have hmod := h.modEq
  rw [toNat_not] at hmod
  unfold Nat.ModEq at hmod ⊢
  omega

/-- The checksum in the place of its zeros makes the sum of the words a multiple. -/
theorem patched_modEq {front back : Bytes} {checksum : UInt16} (heven : front.length % 2 = 0)
    (hlen : front.length + back.length ≤ 65547)
    (hsame : checksum.toNat ≡ (internetChecksum (front ++ writeU16 0 ++ back)).toNat
      [MOD 65535]) :
    total (front ++ writeU16 checksum ++ back) ≡ 0 [MOD 65535] := by
  have hfolds := internetChecksum_folds (front ++ writeU16 0 ++ back)
  have hzeros : total (front ++ writeU16 0 ++ back) = total front + total back := by
    rw [List.append_assoc, OnesComplement.total_append heven, total_writeU16]
    simp
  have hfront := OnesComplement.total_le front
  have hback := OnesComplement.total_le back
  rw [hzeros, Nat.mod_eq_of_lt (by omega)] at hfolds
  rw [List.append_assoc, OnesComplement.total_append heven, total_writeU16, Nat.add_left_comm,
    Nat.add_comm]
  exact (hsame.add_left _).trans (complement_modEq hfolds)

theorem wordSum_append {front : Bytes} (heven : front.length % 2 = 0) (back : Bytes)
    (sum : UInt32) : wordSum (front ++ back) sum = wordSum back (wordSum front sum) := by
  refine UInt32.toNat_inj.mp ?_
  rw [toNat_wordSum, toNat_wordSum, toNat_wordSum, OnesComplement.total_append heven,
    Nat.mod_add_mod, Nat.add_assoc]

theorem length_pseudoHeader (sourceIp destIp length : UInt32) :
    (pseudoHeader sourceIp destIp length).length = 12 := by
  simp [pseudoHeader]

/-- The checksum of a datagram is that of the pseudo-header with the datagram behind it. -/
theorem udpChecksumWithPseudoHeader_eq (sourceIp destIp : UInt32) (udpDatagram : Bytes)
    (length : UInt32) : udpChecksumWithPseudoHeader sourceIp destIp udpDatagram length =
      internetChecksum (pseudoHeader sourceIp destIp length ++ udpDatagram) := by
  rw [udpChecksumWithPseudoHeader, internetChecksum,
    wordSum_append (by rw [length_pseudoHeader])]

/-! ### Messages with a checksum -/

/-- The sum of what fits in a packet does not go round. -/
theorem total_lt {bytes : Bytes} (h : bytes.length ≤ 65547) : total bytes < 2 ^ 32 := by
  have hle := OnesComplement.total_le bytes
  omega

theorem parseIpv4Header_serialize (header : Ipv4Header) (rest : Bytes)
    (hlen : length.toNat = (serializeIpv4Header header ++ rest).length)
    (hmin : 20 ≤ header.totalLength.toNat)
    (hfits : header.totalLength.toNat ≤ (serializeIpv4Header header ++ rest).length) :
    parseIpv4Header (serializeIpv4Header header ++ rest) length = some (.ok header) := by
  have hheader : (serializeIpv4Header header).length = 20 := by simp [serializeIpv4Header]
  have hsize : ¬ length.toNat < IPV4_MIN_HEADER_SIZE := by
    rw [hlen, List.length_append, hheader]
    exact Nat.not_lt.mpr (Nat.le_add_right 20 rest.length)
  have hzero : internetChecksum (serializeIpv4Header header) = 0 ∨
      internetChecksum (serializeIpv4Header header) = 0xFFFF := by
    refine (isZero_iff (internetChecksum_folds _)).mpr ?_
    rw [Nat.mod_eq_of_lt (total_lt (by omega))]
    exact patched_modEq (by simp) (by simp) (.refl _)
  have hnot : ¬ (internetChecksum (serializeIpv4Header header) ≠ 0 ∧
      internetChecksum (serializeIpv4Header header) ≠ 0xFFFF) :=
    fun h => hzero.elim h.1 h.2
  have hload : load (serializeIpv4Header header ++ rest) 0 IPV4_MIN_HEADER_SIZE =
      some (serializeIpv4Header header) := load_here hheader
  have hversion : (IPV4_VERSION <<< 4 ||| 5) >>> 4 = IPV4_VERSION := by decide
  have hihl : (IPV4_VERSION <<< 4 ||| 5) &&& 0x0F = 5 := by decide
  have htotal : ¬ (header.totalLength.toNat < IPV4_MIN_HEADER_SIZE ∨
      length < header.totalLength.toUInt32) := by
    rw [UInt32.lt_iff_toNat_lt, UInt16.toNat_toUInt32, IPV4_MIN_HEADER_SIZE]
    omega
  rw [parseIpv4Header, if_neg hsize]
  simp only [hload, Option.bind_eq_bind, Option.bind_some, if_neg hnot]
  simp [serializeIpv4Header, readU16At, readU32At, load_skip, load_here, load_cons,
    readU16_writeU16', readU32_writeU32, List.getElem?_append_right, hversion, hihl, if_neg htotal]

theorem parseIcmpEcho_serialize (message : IcmpEchoMessage) (payload : Bytes)
    (hlen : length.toNat = (serializeIcmpEcho message payload).length) :
    parseIcmpEcho (serializeIcmpEcho message payload) length = some (.ok message) := by
  have hsize : ¬ length < ICMP_ECHO_HEADER_SIZE := by
    rw [UInt32.lt_iff_toNat_lt, hlen]
    simp [serializeIcmpEcho, ICMP_ECHO_HEADER_SIZE]
    omega
  rw [parseIcmpEcho, if_neg hsize]
  simp [serializeIcmpEcho, readU16At, load_skip, load_here, load_cons, readU16_writeU16']

theorem verifyIcmpChecksum_serialize (message : IcmpEchoMessage) (payload : Bytes)
    (hmax : 8 + payload.length ≤ 65535)
    (hlen : length.toNat = (serializeIcmpEcho message payload).length) :
    verifyIcmpChecksum (serializeIcmpEcho message payload) length = some true := by
  have hlength : (serializeIcmpEcho message payload).length = 8 + payload.length := by
    simp [serializeIcmpEcho]
    omega
  have hsize : ¬ length < ICMP_ECHO_HEADER_SIZE := by
    rw [UInt32.lt_iff_toNat_lt, hlen, hlength]
    exact Nat.not_lt.mpr (Nat.le_add_right 8 payload.length)
  obtain ⟨accepted, h, haccepted⟩ := verifyIcmpChecksum_eq (Nat.le_of_eq hlen) hsize
  rw [hlen, List.take_length, Nat.mod_eq_of_lt (total_lt (by omega))] at haccepted
  rw [h, haccepted.mpr (patched_modEq (by simp) (by simp; omega) (.refl _))]

/-- The length and the checksum of a datagram are the writer's own. -/
def serializeUdpDatagramIpv4 (header : UdpHeader) (payload : Bytes) (sourceIp destIp : UInt32) :
    Bytes :=
  let totalLength := UDP_HEADER_SIZE + UInt32.ofNat payload.length
  let front := writeU16 header.sourcePort ++ writeU16 header.destPort ++
    writeU16 totalLength.toUInt16
  let checksum := udpChecksumWithPseudoHeader sourceIp destIp (front ++ writeU16 0 ++ payload)
    totalLength
  let checksum := if checksum = 0 then 0xFFFF else checksum
  front ++ writeU16 checksum ++ payload

theorem length_serializeUdpDatagramIpv4 (header : UdpHeader) (payload : Bytes)
    (sourceIp destIp : UInt32) :
    (serializeUdpDatagramIpv4 header payload sourceIp destIp).length = 8 + payload.length := by
  simp [serializeUdpDatagramIpv4]
  omega

theorem toNat_totalLength {payload : Bytes} (hmax : 8 + payload.length ≤ 65535) :
    (UDP_HEADER_SIZE + UInt32.ofNat payload.length).toNat = 8 + payload.length := by
  rw [UInt32.toNat_add, UInt32.toNat_ofNat', show UDP_HEADER_SIZE.toNat = 8 from rfl]
  omega

/-- The bytes of a checksum that is never the zero that says that there is none. -/
theorem sent_ne_zero (checksum : UInt16) : (if checksum = 0 then 0xFFFF else checksum) ≠ 0 := by
  split
  · decide
  · assumption

theorem sent_modEq (checksum : UInt16) :
    (if checksum = 0 then 0xFFFF else checksum).toNat ≡ checksum.toNat [MOD 65535] := by
  split
  · rename_i h
    rw [h]
    decide
  · rfl

variable (header : UdpHeader) (payload : Bytes) (sourceIp destIp : UInt32)

/-- The length that a datagram says is cut to 16 bits. -/
theorem readU16At_length :
    readU16At (serializeUdpDatagramIpv4 header payload sourceIp destIp) 4 =
      some (UDP_HEADER_SIZE + UInt32.ofNat payload.length).toUInt16 := by
  obtain ⟨udpLength, hcut⟩ : ∃ udpLength,
      udpLength = (UDP_HEADER_SIZE + UInt32.ofNat payload.length).toUInt16 := ⟨_, rfl⟩
  simp only [serializeUdpDatagramIpv4, ← hcut]
  simp [readU16At, load_skip, load_here, readU16_writeU16']

theorem parseUdpHeader_serialize (hmax : 8 + payload.length ≤ 65535)
    (hlen : length.toNat = (serializeUdpDatagramIpv4 header payload sourceIp destIp).length) :
    ∃ udpLength : UInt16, udpLength.toNat = 8 + payload.length ∧
      parseUdpHeader (serializeUdpDatagramIpv4 header payload sourceIp destIp) length =
        some (.ok ⟨header.sourcePort, header.destPort, udpLength⟩) := by
  have hlength := length_serializeUdpDatagramIpv4 header payload sourceIp destIp
  obtain ⟨udpLength, hcut⟩ : ∃ udpLength,
      udpLength = (UDP_HEADER_SIZE + UInt32.ofNat payload.length).toUInt16 := ⟨_, rfl⟩
  have hudp : udpLength.toNat = 8 + payload.length := by
    rw [hcut, UInt32.toNat_toUInt16, toNat_totalLength hmax]
    omega
  have hsize : ¬ length < UDP_HEADER_SIZE := by
    rw [UInt32.lt_iff_toNat_lt, hlen, hlength]
    exact Nat.not_lt.mpr (Nat.le_add_right 8 payload.length)
  have hfits : ¬ (udpLength.toUInt32 < UDP_HEADER_SIZE ∨ length < udpLength.toUInt32) := by
    rw [UInt32.lt_iff_toNat_lt, UInt32.lt_iff_toNat_lt, UInt16.toNat_toUInt32,
      show UDP_HEADER_SIZE.toNat = 8 from rfl]
    omega
  have hread := readU16At_length header payload sourceIp destIp
  rw [← hcut] at hread
  refine ⟨udpLength, hudp, ?_⟩
  rw [parseUdpHeader, if_neg hsize, hread]
  simp only [Option.bind_eq_bind, Option.bind_some, if_neg hfits]
  simp [serializeUdpDatagramIpv4, readU16At, load_skip, load_here, readU16_writeU16']

/-- The parts of a datagram. -/
theorem serializeUdpDatagramIpv4_eq
    (htotal : length = UDP_HEADER_SIZE + UInt32.ofNat payload.length) :
    ∃ front claimed, front.length = 6 ∧ claimed ≠ 0 ∧
      claimed.toNat ≡ (internetChecksum (pseudoHeader sourceIp destIp length ++
        (front ++ writeU16 0 ++ payload))).toNat [MOD 65535] ∧
      serializeUdpDatagramIpv4 header payload sourceIp destIp =
        front ++ writeU16 claimed ++ payload := by
  subst htotal
  refine ⟨_, _, ?_, sent_ne_zero _, ?_, rfl⟩
  · simp
  · rw [← udpChecksumWithPseudoHeader_eq]
    exact sent_modEq _

/-- A claimed checksum is checked against the sum over the pseudo-header and the datagram. -/
theorem verifyUdpChecksumIpv4_eq {udpDatagram : Bytes} {claimed : UInt16}
    (hlen : length.toNat = udpDatagram.length) (hmin : 8 ≤ udpDatagram.length)
    (hmax : udpDatagram.length ≤ 65535) (hclaimed : readU16At udpDatagram 6 = some claimed)
    (hne : claimed ≠ 0) :
    ∃ accepted, verifyUdpChecksumIpv4 sourceIp destIp udpDatagram length = some accepted ∧
      (accepted = true ↔
        total (pseudoHeader sourceIp destIp length ++ udpDatagram) ≡ 0 [MOD 65535]) := by
  have hsize : ¬ length < UDP_HEADER_SIZE := by
    rw [UInt32.lt_iff_toNat_lt, hlen]
    exact Nat.not_lt.mpr hmin
  have hpseudo := length_pseudoHeader sourceIp destIp length
  have hlt : total (pseudoHeader sourceIp destIp length ++ udpDatagram) < 2 ^ 32 :=
    total_lt (by rw [List.length_append]; omega)
  rw [verifyUdpChecksumIpv4, if_neg hsize, hclaimed, load_zero (Nat.le_of_eq hlen)]
  simp only [Option.bind_eq_bind, Option.bind_some, if_neg hne]
  refine ⟨_, rfl, ?_⟩
  rw [Bool.or_eq_true, beq_iff_eq, beq_iff_eq, udpChecksumWithPseudoHeader_eq, hlen,
    List.take_length, isZero_iff (internetChecksum_folds _), Nat.mod_eq_of_lt hlt]

theorem verifyUdpChecksumIpv4_serialize (hmax : 8 + payload.length ≤ 65535)
    (hlen : length.toNat = (serializeUdpDatagramIpv4 header payload sourceIp destIp).length) :
    (∃ claimed, claimed ≠ 0 ∧
      readU16At (serializeUdpDatagramIpv4 header payload sourceIp destIp) 6 = some claimed) ∧
    verifyUdpChecksumIpv4 sourceIp destIp
      (serializeUdpDatagramIpv4 header payload sourceIp destIp) length = some true := by
  have hlength := length_serializeUdpDatagramIpv4 header payload sourceIp destIp
  have htotal : length = UDP_HEADER_SIZE + UInt32.ofNat payload.length :=
    UInt32.toNat_inj.mp (by rw [hlen, hlength, toNat_totalLength hmax])
  obtain ⟨front, claimed, hfront, hne, hsame, heq⟩ :=
    serializeUdpDatagramIpv4_eq header payload sourceIp destIp htotal
  have hpseudo := length_pseudoHeader sourceIp destIp length
  have hclaimed : readU16At (front ++ writeU16 claimed ++ payload) 6 = some claimed := by
    simp [readU16At, load_skip, load_here, hfront, readU16_writeU16']
  rw [heq] at hlen hlength ⊢
  refine ⟨⟨claimed, hne, hclaimed⟩, ?_⟩
  obtain ⟨accepted, h, haccepted⟩ := verifyUdpChecksumIpv4_eq sourceIp destIp hlen (by omega)
    (by omega) hclaimed hne
  rw [h, haccepted.mpr ?_]
  rw [← List.append_assoc, ← List.append_assoc] at hsame ⊢
  exact patched_modEq (by simp [hpseudo, hfront]) (by simp [hpseudo, hfront]; omega) hsame

/-- What a header says comes back when it is read, what a message says about its checksum is
accepted, and no parser trusts a length over that of the buffer. -/
structure Codecs : Prop where
  ethernet : ∀ (header : EthernetHeader) (rest : Bytes) (length : UInt32),
    length.toNat = (serializeEthernetHeader header ++ rest).length →
    Checked.parseEthernetHeader (serializeEthernetHeader header ++ rest) length = some (.ok header)
  arp : ∀ (packet : ArpPacket) (rest : Bytes) (length : UInt32),
    length.toNat = (serializeArpPacket packet ++ rest).length →
    parseArpPacket (serializeArpPacket packet ++ rest) length = some (.ok packet)
  ipv4 : ∀ (header : Ipv4Header) (rest : Bytes) (length : UInt32),
    20 ≤ header.totalLength.toNat →
    length.toNat = (serializeIpv4Header header ++ rest).length →
    header.totalLength.toNat ≤ (serializeIpv4Header header ++ rest).length →
    parseIpv4Header (serializeIpv4Header header ++ rest) length = some (.ok header)
  icmp : ∀ (message : IcmpEchoMessage) (payload : Bytes) (length : UInt32),
    8 + payload.length ≤ 65535 →
    length.toNat = (serializeIcmpEcho message payload).length →
    parseIcmpEcho (serializeIcmpEcho message payload) length = some (.ok message) ∧
      verifyIcmpChecksum (serializeIcmpEcho message payload) length = some true
  udp : ∀ (header : UdpHeader) (payload : Bytes) (sourceIp destIp length : UInt32),
    8 + payload.length ≤ 65535 →
    length.toNat = (serializeUdpDatagramIpv4 header payload sourceIp destIp).length →
    (∃ udpLength : UInt16, udpLength.toNat = 8 + payload.length ∧
      parseUdpHeader (serializeUdpDatagramIpv4 header payload sourceIp destIp) length =
        some (.ok ⟨header.sourcePort, header.destPort, udpLength⟩)) ∧
      (∃ claimed, claimed ≠ 0 ∧
        readU16At (serializeUdpDatagramIpv4 header payload sourceIp destIp) 6 = some claimed) ∧
      verifyUdpChecksumIpv4 sourceIp destIp
        (serializeUdpDatagramIpv4 header payload sourceIp destIp) length = some true
  reads : ReadsInside Checked.parseEthernetHeader ∧ ReadsInside parseArpPacket ∧
    ReadsInside parseIpv4Header ∧ ReadsInside parseIcmpEcho ∧ ReadsInside parseUdpHeader ∧
    ReadsInside verifyIcmpChecksum ∧
    ∀ sourceIp destIp, ReadsInside (verifyUdpChecksumIpv4 sourceIp destIp)
  ipv4Fits : ∀ (buffer : Bytes) (length : UInt32) (header : Ipv4Header),
    parseIpv4Header buffer length = some (.ok header) →
    header.totalLength.toNat ≤ length.toNat
  udpFits : ∀ (buffer : Bytes) (length : UInt32) (header : UdpHeader),
    parseUdpHeader buffer length = some (.ok header) → header.length.toNat ≤ length.toNat

theorem codecs_roundTrip : Codecs where
  ethernet header rest _ hlen := Checked.parseEthernetHeader_serialize header rest hlen
  arp packet rest _ hlen := parseArpPacket_serialize packet rest hlen
  ipv4 header rest _ hmin hlen hfits := parseIpv4Header_serialize header rest hlen hmin hfits
  icmp message payload _ hmax hlen :=
    ⟨parseIcmpEcho_serialize message payload hlen,
      verifyIcmpChecksum_serialize message payload hmax hlen⟩
  udp header payload sourceIp destIp _ hmax hlen :=
    ⟨parseUdpHeader_serialize header payload sourceIp destIp hmax hlen,
      verifyUdpChecksumIpv4_serialize header payload sourceIp destIp hmax hlen⟩
  reads := ⟨Checked.parseEthernetHeader_reads, parseArpPacket_reads, parseIpv4Header_reads,
    parseIcmpEcho_reads, parseUdpHeader_reads, verifyIcmpChecksum_reads,
    verifyUdpChecksumIpv4_reads⟩
  ipv4Fits _ _ _ h := (parseIpv4Header_ok h).1
  udpFits _ _ _ h := (parseUdpHeader_ok h).2

end Net
end Techuila
