import Techuila.Lib.BigEndian
import Techuila.Dist.Serialization

/-!
# Frames and packets (`06-networking/protocols/protocols.hpp`, `protocols.cpp`)

* `parseEthernetHeader`, `serializeEthernetHeader`: the first 14 bytes of a frame.
* `serializeArpPacket`, `serializeIpv4Header`, `serializeIcmpEcho`: what a ping sends. An output
  buffer is the bytes that were written, all of them where it is large enough.
-/

namespace Techuila
namespace Net

open Techuila.Dist (Bytes)

def ETHERNET_HEADER_SIZE : UInt32 := 14
def ETHERTYPE_IPV4 : UInt16 := 0x0800
def ETHERTYPE_ARP : UInt16 := 0x0806

structure MacAddress where
  bytes : Vector UInt8 6
  deriving DecidableEq

def macEquals (a b : MacAddress) : Bool := (List.range 6).all fun i => a.bytes[i]? == b.bytes[i]?

structure EthernetHeader where
  destination : MacAddress
  source : MacAddress
  etherType : UInt16
  deriving DecidableEq

def writeU16 (value : UInt16) : Bytes := beBytes 2 value.toNat

def writeU32 (value : UInt32) : Bytes := beBytes 4 value.toNat

def writeMac (mac : MacAddress) : Bytes := mac.bytes.toList

def readU16 (p : Bytes) : UInt16 := UInt16.ofNat (ofBE (p.take 2))

/-- The bytes are there where the caller has checked the length. -/
def readMac (p : Bytes) : MacAddress := ⟨Vector.ofFn fun i => p.getD i 0⟩

/-- `none` is `ParseError::BufferTooSmall`. -/
def parseEthernetHeader (buffer : Bytes) (length : UInt32) : Option EthernetHeader :=
  if length < ETHERNET_HEADER_SIZE then none
  else
    some ⟨readMac buffer, readMac (buffer.drop 6), readU16 (buffer.drop 12)⟩

def serializeEthernetHeader (header : EthernetHeader) : Bytes :=
  writeMac header.destination ++ writeMac header.source ++ writeU16 header.etherType

theorem macEquals_iff {a b : MacAddress} : macEquals a b = true ↔ a = b := by
  constructor
  · intro h
    have h : ∀ i < 6, a.bytes[i]? = b.bytes[i]? := by simpa [macEquals] using h
    refine congrArg MacAddress.mk (Vector.ext fun i hi => ?_)
    have hi' := h i hi
    rw [Vector.getElem?_eq_getElem hi, Vector.getElem?_eq_getElem hi] at hi'
    exact Option.some.inj hi'
  · rintro rfl
    simp [macEquals]

theorem readMac_writeMac (mac : MacAddress) (rest : Bytes) :
    readMac (writeMac mac ++ rest) = mac := by
  refine congrArg MacAddress.mk (Vector.ext fun i hi => ?_)
  have hlen : i < mac.bytes.toList.length := by simpa using hi
  simp only [writeMac, Vector.getElem_ofFn]
  rw [List.getD_eq_getElem?_getD, List.getElem?_append_left hlen, List.getElem?_eq_getElem hlen]
  simp

theorem length_writeMac (mac : MacAddress) : (writeMac mac).length = 6 := by simp [writeMac]

theorem length_serializeEthernetHeader (header : EthernetHeader) :
    (serializeEthernetHeader header).length = 14 := by
  simp [serializeEthernetHeader, length_writeMac, writeU16]

theorem readU16_writeU16 (value : UInt16) (rest : Bytes) :
    readU16 (writeU16 value ++ rest) = value := by
  have hlen : (writeU16 value).length = 2 := length_beBytes ..
  rw [readU16, List.take_left' hlen, writeU16, ofBE_beBytes]
  exact UInt16.toNat_inj.mp (by simp)

theorem parseEthernetHeader_serialize (header : EthernetHeader) (rest : Bytes) {length : UInt32}
    (h : ¬ length < ETHERNET_HEADER_SIZE) :
    parseEthernetHeader (serializeEthernetHeader header ++ rest) length = some header := by
  have hdest := length_writeMac header.destination
  have hsource := length_writeMac header.source
  have hboth : (writeMac header.destination ++ writeMac header.source).length = 12 := by
    rw [List.length_append, hdest, hsource]
  rw [parseEthernetHeader, if_neg h, serializeEthernetHeader]
  congr
  · rw [List.append_assoc, List.append_assoc, readMac_writeMac]
  · rw [List.append_assoc, List.append_assoc, List.drop_left' hdest, readMac_writeMac]
  · rw [List.append_assoc, List.drop_left' hboth, readU16_writeU16]

def ARP_HTYPE_ETHERNET : UInt16 := 1

inductive ArpOperation
  | Request
  | Reply
  deriving DecidableEq

def ArpOperation.code : ArpOperation → UInt16
  | Request => 1
  | Reply => 2

structure ArpPacket where
  operation : ArpOperation
  senderMac : MacAddress
  senderIp : UInt32
  targetMac : MacAddress
  targetIp : UInt32

def serializeArpPacket (packet : ArpPacket) : Bytes :=
  writeU16 ARP_HTYPE_ETHERNET ++ writeU16 ETHERTYPE_IPV4 ++ [6, 4] ++
    writeU16 packet.operation.code ++ writeMac packet.senderMac ++ writeU32 packet.senderIp ++
    writeMac packet.targetMac ++ writeU32 packet.targetIp

def IPV4_MIN_HEADER_SIZE : Nat := 20
def IPV4_VERSION : UInt8 := 4
def IPV4_PROTO_ICMP : UInt8 := 1

structure Ipv4Header where
  ttl : UInt8
  protocol : UInt8
  identification : UInt16
  flagsAndFragmentOffset : UInt16
  totalLength : UInt16
  sourceIp : UInt32
  destIp : UInt32

def ICMP_TYPE_ECHO_REQUEST : UInt8 := 8

structure IcmpEchoMessage where
  type : UInt8
  code : UInt8
  identifier : UInt16
  sequenceNumber : UInt16

/-- The sum of the 16-bit words, an odd last byte the high one of its word. -/
def wordSum : Bytes → UInt32 → UInt32
  | [], sum => sum
  | [high], sum => sum + (high.toUInt32 <<< 8)
  | high :: low :: data, sum => wordSum data (sum + (high.toUInt32 <<< 8 ||| low.toUInt32))

/-- `while (sum >> 16)`: two rounds fold any sum. -/
def foldCarries : Nat → UInt32 → UInt32
  | 0, sum => sum
  | rounds + 1, sum =>
    if sum >>> 16 = 0 then sum else foldCarries rounds ((sum &&& (0xFFFF : UInt32)) + (sum >>> 16))

def internetChecksum (data : Bytes) : UInt16 := (~~~(foldCarries 2 (wordSum data 0))).toUInt16

/-- The checksum is taken with zeros in its place. -/
def serializeIpv4Header (header : Ipv4Header) : Bytes :=
  let before := [IPV4_VERSION <<< 4 ||| 5, 0] ++ writeU16 header.totalLength ++
    writeU16 header.identification ++ writeU16 header.flagsAndFragmentOffset ++
    [header.ttl, header.protocol]
  let after := writeU32 header.sourceIp ++ writeU32 header.destIp
  before ++ writeU16 (internetChecksum (before ++ writeU16 0 ++ after)) ++ after

def serializeIcmpEcho (message : IcmpEchoMessage) (payload : Bytes) : Bytes :=
  let before := [message.type, message.code]
  let after := writeU16 message.identifier ++ writeU16 message.sequenceNumber ++ payload
  before ++ writeU16 (internetChecksum (before ++ writeU16 0 ++ after)) ++ after

theorem toNat_foldCarry (sum : UInt32) :
    ((sum &&& (0xFFFF : UInt32)) + (sum >>> 16)).toNat = sum.toNat % 65536 + sum.toNat / 65536 := by
  have hlow : (sum &&& (0xFFFF : UInt32)).toNat = sum.toNat % 65536 := by
    rw [UInt32.toNat_and]
    exact Nat.and_two_pow_sub_one_eq_mod sum.toNat 16
  have hhigh : (sum >>> 16).toNat = sum.toNat / 65536 := by
    rw [UInt32.toNat_shiftRight]
    exact Nat.shiftRight_eq_div_pow sum.toNat 16
  have hlt := sum.toNat_lt
  rw [UInt32.toNat_add, hlow, hhigh, Nat.mod_eq_of_lt (by omega)]

/-- No carry is left after two rounds. -/
theorem foldCarries_lt (sum : UInt32) : (foldCarries 2 sum).toNat < 65536 := by
  have hdone : ∀ sum : UInt32, sum >>> 16 = 0 → sum.toNat < 65536 := by
    intro sum h
    have h := congrArg UInt32.toNat h
    rw [UInt32.toNat_shiftRight] at h
    have h : sum.toNat / 65536 = 0 := (Nat.shiftRight_eq_div_pow sum.toNat 16).symm.trans h
    omega
  have hlt := sum.toNat_lt
  have hfirst := toNat_foldCarry sum
  have hsecond := toNat_foldCarry ((sum &&& (0xFFFF : UInt32)) + (sum >>> 16))
  unfold foldCarries
  split
  · exact hdone _ ‹_›
  · unfold foldCarries
    split
    · exact hdone _ ‹_›
    · rw [foldCarries]
      omega

end Net
end Techuila
