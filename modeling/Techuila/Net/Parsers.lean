import Techuila.Net.Checksum

/-!
# Parsers of the wire formats (`06-networking/protocols/protocols.hpp`, `protocols.cpp`)

Every access to the buffer is checked here, `none` where one is outside it.

* `Checked.parseEthernetHeader`, `parseArpPacket`, `parseIpv4Header`, `parseIcmpEcho`,
  `parseUdpHeader`: the header of a packet or why there is none.
* `verifyUdpChecksumIpv4`: the checksum over a pseudo-header and the datagram.
* `ReadsInside`: no access of a parser is outside a buffer of the length that it is told.
-/

namespace Techuila
namespace Net

open Techuila.Dist (Bytes)
open OnesComplement (Folds total)

/-- Why there is no header. -/
inductive ParseError
  | BufferTooSmall
  | UnsupportedVersion
  | HeaderLengthInvalid
  | TotalLengthInvalid
  | UnsupportedHardwareType
  | InvalidHardwareAddressLength
  | InvalidProtocolAddressLength
  | UnsupportedOperation
  | ChecksumMismatch
  deriving DecidableEq

def readU32 (p : Bytes) : UInt32 := UInt32.ofNat (ofBE (p.take 4))

def readU16At (buffer : Bytes) (i : Nat) : Option UInt16 := (load buffer i 2).map readU16

def readU32At (buffer : Bytes) (i : Nat) : Option UInt32 := (load buffer i 4).map readU32

def readMacAt (buffer : Bytes) (i : Nat) : Option MacAddress := (load buffer i 6).map readMac

namespace Checked

def parseEthernetHeader (buffer : Bytes) (length : UInt32) :
    Option (Except ParseError EthernetHeader) :=
  if length < ETHERNET_HEADER_SIZE then some (.error .BufferTooSmall)
  else do
    let destination ← readMacAt buffer 0
    let source ← readMacAt buffer 6
    let etherType ← readU16At buffer 12
    some (.ok ⟨destination, source, etherType⟩)

end Checked

def ARP_PACKET_SIZE : UInt32 := 28

def ArpOperation.ofCode (operation : UInt16) : Option ArpOperation :=
  if operation = ArpOperation.Request.code then some .Request
  else if operation = ArpOperation.Reply.code then some .Reply
  else none

def parseArpPacket (buffer : Bytes) (length : UInt32) :
    Option (Except ParseError ArpPacket) :=
  if length < ARP_PACKET_SIZE then some (.error .BufferTooSmall)
  else do
    let hardwareType ← readU16At buffer 0
    let protocolType ← readU16At buffer 2
    let hardwareAddrLen ← buffer[4]?
    let protocolAddrLen ← buffer[5]?
    let operation ← readU16At buffer 6
    if hardwareType ≠ ARP_HTYPE_ETHERNET then some (.error .UnsupportedHardwareType)
    else if protocolType ≠ ETHERTYPE_IPV4 then some (.error .UnsupportedHardwareType)
    else if hardwareAddrLen ≠ 6 then some (.error .InvalidHardwareAddressLength)
    else if protocolAddrLen ≠ 4 then some (.error .InvalidProtocolAddressLength)
    else
      match ArpOperation.ofCode operation with
      | none => some (.error .UnsupportedOperation)
      | some operation => do
        let senderMac ← readMacAt buffer 8
        let senderIp ← readU32At buffer 14
        let targetMac ← readMacAt buffer 18
        let targetIp ← readU32At buffer 24
        some (.ok ⟨operation, senderMac, senderIp, targetMac, targetIp⟩)

def parseIpv4Header (buffer : Bytes) (length : UInt32) :
    Option (Except ParseError Ipv4Header) :=
  if length.toNat < IPV4_MIN_HEADER_SIZE then some (.error .BufferTooSmall)
  else do
    let versionAndIhl ← buffer[0]?
    let version := versionAndIhl >>> 4
    let ihl := versionAndIhl &&& 0x0F
    if version ≠ IPV4_VERSION then some (.error .UnsupportedVersion)
    else if ihl ≠ 5 then some (.error .HeaderLengthInvalid)
    else do
      let totalLength ← readU16At buffer 2
      if totalLength.toNat < IPV4_MIN_HEADER_SIZE ∨ length < totalLength.toUInt32 then
        some (.error .TotalLengthInvalid)
      else do
        let header ← load buffer 0 IPV4_MIN_HEADER_SIZE
        let verifySum := internetChecksum header
        if verifySum ≠ 0 ∧ verifySum ≠ 0xFFFF then some (.error .ChecksumMismatch)
        else do
          let ttl ← buffer[8]?
          let protocol ← buffer[9]?
          let identification ← readU16At buffer 4
          let flagsAndFragmentOffset ← readU16At buffer 6
          let sourceIp ← readU32At buffer 12
          let destIp ← readU32At buffer 16
          some (.ok ⟨ttl, protocol, identification, flagsAndFragmentOffset, totalLength, sourceIp,
            destIp⟩)

def parseIcmpEcho (buffer : Bytes) (length : UInt32) :
    Option (Except ParseError IcmpEchoMessage) :=
  if length < ICMP_ECHO_HEADER_SIZE then some (.error .BufferTooSmall)
  else do
    let type ← buffer[0]?
    let code ← buffer[1]?
    let identifier ← readU16At buffer 4
    let sequenceNumber ← readU16At buffer 6
    some (.ok ⟨type, code, identifier, sequenceNumber⟩)

def UDP_HEADER_SIZE : UInt32 := 8
def IPV4_PROTO_UDP : UInt8 := 17

structure UdpHeader where
  sourcePort : UInt16
  destPort : UInt16
  length : UInt16

def parseUdpHeader (buffer : Bytes) (length : UInt32) :
    Option (Except ParseError UdpHeader) :=
  if length < UDP_HEADER_SIZE then some (.error .BufferTooSmall)
  else do
    let udpLength ← readU16At buffer 4
    if udpLength.toUInt32 < UDP_HEADER_SIZE ∨ length < udpLength.toUInt32 then
      some (.error .TotalLengthInvalid)
    else do
      let sourcePort ← readU16At buffer 0
      let destPort ← readU16At buffer 2
      some (.ok ⟨sourcePort, destPort, udpLength⟩)

/-- The length of the datagram is cut to its low half. -/
def pseudoHeader (sourceIp destIp : UInt32) (udpDatagramLength : UInt32) : Bytes :=
  writeU32 sourceIp ++ writeU32 destIp ++ [0, IPV4_PROTO_UDP] ++
    writeU16 udpDatagramLength.toUInt16

/-- The words of the datagram are added to those of the pseudo-header. -/
def udpChecksumWithPseudoHeader (sourceIp destIp : UInt32) (udpDatagram : Bytes)
    (udpDatagramLength : UInt32) : UInt16 :=
  (~~~(foldCarries 2 (wordSum udpDatagram
    (wordSum (pseudoHeader sourceIp destIp udpDatagramLength) 0)))).toUInt16

def verifyUdpChecksumIpv4 (sourceIp destIp : UInt32) (udpDatagram : Bytes)
    (udpDatagramLength : UInt32) : Option Bool :=
  if udpDatagramLength < UDP_HEADER_SIZE then some false
  else do
    let claimedChecksum ← readU16At udpDatagram 6
    if claimedChecksum = 0 then some true
    else do
      let bytes ← load udpDatagram 0 udpDatagramLength.toNat
      let computed := udpChecksumWithPseudoHeader sourceIp destIp bytes udpDatagramLength
      some (computed == 0 || computed == 0xFFFF)

/-! ### Accesses inside the buffer -/

variable {buffer : Bytes} {length : UInt32} {i n : Nat}

theorem load_eq (h : i + n ≤ buffer.length) :
    load buffer i n = some ((buffer.drop i).take n) :=
  if_pos h

theorem readU16At_eq (h : i + 2 ≤ buffer.length) :
    readU16At buffer i = some (readU16 ((buffer.drop i).take 2)) := by
  rw [readU16At, load_eq h, Option.map_some]

theorem readU32At_eq (h : i + 4 ≤ buffer.length) :
    readU32At buffer i = some (readU32 ((buffer.drop i).take 4)) := by
  rw [readU32At, load_eq h, Option.map_some]

theorem readMacAt_eq (h : i + 6 ≤ buffer.length) :
    readMacAt buffer i = some (readMac ((buffer.drop i).take 6)) := by
  rw [readMacAt, load_eq h, Option.map_some]

/-- No access is outside a buffer that has the length that is told. -/
def ReadsInside {α : Type} (read : Bytes → UInt32 → Option α) : Prop :=
  ∀ buffer length, length.toNat ≤ buffer.length → ∃ result, read buffer length = some result

/-- The length has room for the header, so the buffer has. -/
theorem le_length {size : UInt32} (h : length.toNat ≤ buffer.length) (hsize : ¬ length < size) :
    size.toNat ≤ buffer.length := by
  rw [UInt32.lt_iff_toNat_lt] at hsize
  omega

theorem Checked.parseEthernetHeader_reads : ReadsInside Checked.parseEthernetHeader := by
  intro buffer length h
  unfold Checked.parseEthernetHeader
  split
  · exact ⟨_, rfl⟩
  · rename_i hsize
    have hle : 14 ≤ buffer.length := le_length h hsize
    rw [readMacAt_eq (by omega), readMacAt_eq (by omega), readU16At_eq (by omega)]
    exact ⟨_, rfl⟩

theorem parseArpPacket_reads : ReadsInside parseArpPacket := by
  intro buffer length h
  unfold parseArpPacket
  split
  · exact ⟨_, rfl⟩
  · rename_i hsize
    have hle : 28 ≤ buffer.length := le_length h hsize
    rw [readU16At_eq (by omega), readU16At_eq (by omega), readU16At_eq (by omega),
      readMacAt_eq (by omega), readMacAt_eq (by omega), readU32At_eq (by omega),
      readU32At_eq (by omega), List.getElem?_eq_getElem (by omega),
      List.getElem?_eq_getElem (by omega)]
    simp only [Option.bind_eq_bind, Option.bind_some]
    split_ifs
    · exact ⟨_, rfl⟩
    · exact ⟨_, rfl⟩
    · exact ⟨_, rfl⟩
    · exact ⟨_, rfl⟩
    · split
      · exact ⟨_, rfl⟩
      · exact ⟨_, rfl⟩

theorem parseIpv4Header_reads : ReadsInside parseIpv4Header := by
  intro buffer length h
  unfold parseIpv4Header
  split
  · exact ⟨_, rfl⟩
  · rename_i hsize
    have hle : 20 ≤ buffer.length := (Nat.le_of_not_lt hsize).trans h
    rw [readU16At_eq (by omega), readU16At_eq (by omega), readU16At_eq (by omega),
      readU32At_eq (by omega), readU32At_eq (by omega),
      load_eq (show 0 + IPV4_MIN_HEADER_SIZE ≤ _ from by rw [IPV4_MIN_HEADER_SIZE]; omega),
      List.getElem?_eq_getElem (by omega), List.getElem?_eq_getElem (by omega),
      List.getElem?_eq_getElem (by omega)]
    simp only [Option.bind_eq_bind, Option.bind_some]
    split_ifs <;> exact ⟨_, rfl⟩

theorem parseIcmpEcho_reads : ReadsInside parseIcmpEcho := by
  intro buffer length h
  unfold parseIcmpEcho
  split
  · exact ⟨_, rfl⟩
  · rename_i hsize
    have hle : 8 ≤ buffer.length := le_length h hsize
    rw [readU16At_eq (by omega), readU16At_eq (by omega), List.getElem?_eq_getElem (by omega),
      List.getElem?_eq_getElem (by omega)]
    exact ⟨_, rfl⟩

theorem parseUdpHeader_reads : ReadsInside parseUdpHeader := by
  intro buffer length h
  unfold parseUdpHeader
  split
  · exact ⟨_, rfl⟩
  · rename_i hsize
    have hle : 8 ≤ buffer.length := le_length h hsize
    rw [readU16At_eq (by omega), readU16At_eq (by omega), readU16At_eq (by omega)]
    simp only [Option.bind_eq_bind, Option.bind_some]
    split_ifs <;> exact ⟨_, rfl⟩

theorem verifyIcmpChecksum_reads : ReadsInside verifyIcmpChecksum := by
  intro buffer length h
  unfold verifyIcmpChecksum
  split
  · exact ⟨_, rfl⟩
  · rw [load_zero h]
    exact ⟨_, rfl⟩

theorem verifyUdpChecksumIpv4_reads (sourceIp destIp : UInt32) :
    ReadsInside (verifyUdpChecksumIpv4 sourceIp destIp) := by
  intro buffer length h
  unfold verifyUdpChecksumIpv4
  split
  · exact ⟨_, rfl⟩
  · rename_i hsize
    have hle : 8 ≤ buffer.length := le_length h hsize
    rw [readU16At_eq (by omega), load_zero h]
    simp only [Option.bind_eq_bind, Option.bind_some]
    split_ifs <;> exact ⟨_, rfl⟩

/-- A check that an accepted buffer has passed. -/
theorem guard_eq_ok {α ε : Type} {c : Prop} [Decidable c] {e : ε} {rest : Option (Except ε α)}
    {a : α} : (if c then some (.error e) else rest) = some (.ok a) ↔ ¬ c ∧ rest = some (.ok a) := by
  by_cases h : c <;> simp [h]

/-- What is known of a header that is accepted. -/
theorem parseIpv4Header_ok {header : Ipv4Header}
    (h : parseIpv4Header buffer length = some (.ok header)) :
    header.totalLength.toNat ≤ length.toNat ∧ 20 ≤ buffer.length ∧
      total (buffer.take 20) ≡ 0 [MOD 65535] := by
  simp only [parseIpv4Header, Option.bind_eq_bind, Option.bind_eq_some_iff, guard_eq_ok,
    Option.some.injEq, Except.ok.injEq] at h
  obtain ⟨-, -, -, -, -, totalLength, -, hfits, bytes, hload, hsum, -, -, -, -, -, -, -, -, -, -, -, -,
    rfl⟩ := h
  obtain ⟨hle, hbytes⟩ := Option.ite_none_right_eq_some.mp hload
  cases hbytes
  rw [List.drop_zero] at hsum
  rw [not_or, UInt32.lt_iff_toNat_lt, UInt16.toNat_toUInt32] at hfits
  have hzero : internetChecksum (buffer.take 20) = 0 ∨ internetChecksum (buffer.take 20) = 0xFFFF :=
    by_contra fun hno => hsum (not_or.mp hno)
  have hmod := (isZero_iff (internetChecksum_folds _)).mp hzero
  have htotal := OnesComplement.total_le (buffer.take 20)
  rw [List.length_take] at htotal
  rw [Nat.mod_eq_of_lt (by omega)] at hmod
  exact ⟨Nat.le_of_not_lt hfits.2, by rwa [Nat.zero_add] at hle, hmod⟩

theorem parseUdpHeader_ok {header : UdpHeader}
    (h : parseUdpHeader buffer length = some (.ok header)) :
    8 ≤ header.length.toNat ∧ header.length.toNat ≤ length.toNat := by
  simp only [parseUdpHeader, Option.bind_eq_bind, Option.bind_eq_some_iff, guard_eq_ok,
    Option.some.injEq, Except.ok.injEq] at h
  obtain ⟨-, udpLength, -, hfits, -, -, -, -, rfl⟩ := h
  rw [not_or, UInt32.lt_iff_toNat_lt, UInt32.lt_iff_toNat_lt, UInt16.toNat_toUInt32] at hfits
  exact ⟨Nat.le_of_not_lt hfits.1, Nat.le_of_not_lt hfits.2⟩

end Net
end Techuila
