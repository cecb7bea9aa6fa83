import Techuila.Net.Codecs

/-!
# One changed byte (`06-networking/protocols/protocols.cpp`)

* `corruption_detected`: a header, a message or a datagram that is accepted is so no more when one of
  its bytes is another one.
-/

namespace Techuila
namespace Net

open Techuila.Dist (Bytes)
open OnesComplement (total)

variable {buffer : Bytes} {length : UInt32} {i : Nat} {old b : UInt8}

/-- Behind an even number of bytes too, a byte counts for something. -/
theorem not_modEq_set (front : Bytes) (heven : front.length % 2 = 0) (hold : buffer[i]? = some old)
    (hne : b ≠ old) (h : total (front ++ buffer) ≡ 0 [MOD 65535]) :
    ¬ total (front ++ buffer.set i b) ≡ 0 [MOD 65535] := by
  rw [OnesComplement.total_append heven] at h ⊢
  intro hset
  exact OnesComplement.total_set_ne hold hne
    (Nat.ModEq.add_left_cancel' (total front) (hset.trans h.symm))

theorem parseIpv4Header_set {header : Ipv4Header} (hlen : length.toNat ≤ buffer.length)
    (h : parseIpv4Header buffer length = some (.ok header)) (hi : i < 20)
    (hold : buffer[i]? = some old) (hne : b ≠ old) :
    ∃ e, parseIpv4Header (buffer.set i b) length = some (.error e) := by
  obtain ⟨result, hresult⟩ := parseIpv4Header_reads (buffer.set i b) length (by simpa using hlen)
  cases result with
  | error e => exact ⟨e, hresult⟩
  | ok header' =>
    obtain ⟨-, -, hset⟩ := parseIpv4Header_ok hresult
    obtain ⟨-, -, hzero⟩ := parseIpv4Header_ok h
    have hold' : (buffer.take 20)[i]? = some old := by rwa [List.getElem?_take_of_lt hi]
    rw [List.take_set] at hset
    exact absurd hset (not_modEq_set [] rfl hold' hne hzero)

theorem verifyIcmpChecksum_set (hlen : length.toNat = buffer.length)
    (hmax : buffer.length ≤ 65535) (h : verifyIcmpChecksum buffer length = some true)
    (hold : buffer[i]? = some old) (hne : b ≠ old) :
    verifyIcmpChecksum (buffer.set i b) length = some false := by
  have hlen' : length.toNat = (buffer.set i b).length := by rw [hlen, List.length_set]
  have hsize : ¬ length < ICMP_ECHO_HEADER_SIZE := by
    intro hsize
    rw [verifyIcmpChecksum, if_pos hsize] at h
    cases h
  obtain ⟨accepted, he, hzero⟩ := verifyIcmpChecksum_eq (Nat.le_of_eq hlen) hsize
  obtain ⟨accepted', he', hset⟩ := verifyIcmpChecksum_eq (Nat.le_of_eq hlen') hsize
  cases he.symm.trans h
  rw [hlen, List.take_length, Nat.mod_eq_of_lt (total_lt (by omega))] at hzero
  rw [hlen', List.take_length, Nat.mod_eq_of_lt (total_lt (by rw [List.length_set]; omega))] at hset
  rw [he', Bool.eq_false_iff.mpr fun ha =>
    not_modEq_set [] rfl hold hne (hzero.mp rfl) (hset.mp ha)]

theorem verifyUdpChecksumIpv4_set {sourceIp destIp : UInt32} {claimed claimed' : UInt16}
    (hlen : length.toNat = buffer.length) (hmax : buffer.length ≤ 65535)
    (hclaimed : readU16At buffer 6 = some claimed) (hnonzero : claimed ≠ 0)
    (h : verifyUdpChecksumIpv4 sourceIp destIp buffer length = some true)
    (hold : buffer[i]? = some old) (hne : b ≠ old)
    (hclaimed' : readU16At (buffer.set i b) 6 = some claimed') (hnonzero' : claimed' ≠ 0) :
    verifyUdpChecksumIpv4 sourceIp destIp (buffer.set i b) length = some false := by
  have hlen' : length.toNat = (buffer.set i b).length := by rw [hlen, List.length_set]
  have hsize : ¬ length < UDP_HEADER_SIZE := by
    intro hsize
    rw [verifyUdpChecksumIpv4, if_pos hsize] at h
    cases h
  have hmin : 8 ≤ buffer.length := le_length (Nat.le_of_eq hlen) hsize
  obtain ⟨accepted, he, hzero⟩ :=
    verifyUdpChecksumIpv4_eq sourceIp destIp hlen hmin hmax hclaimed hnonzero
  obtain ⟨accepted', he', hset⟩ := verifyUdpChecksumIpv4_eq sourceIp destIp hlen' (by omega)
    (by omega) hclaimed' hnonzero'
  cases he.symm.trans h
  have heven : (pseudoHeader sourceIp destIp length).length % 2 = 0 := by
    rw [length_pseudoHeader]
  rw [he', Bool.eq_false_iff.mpr fun ha =>
    not_modEq_set _ heven hold hne (hzero.mp rfl) (hset.mp ha)]

/-- Another byte in the header of an accepted packet, in an accepted message, or in an accepted
datagram with a checksum that keeps one, and there is no acceptance. -/
theorem corruption_detected :
    (∀ buffer (length : UInt32) header, length.toNat ≤ buffer.length →
      parseIpv4Header buffer length = some (.ok header) →
      ∀ i old b, i < 20 → buffer[i]? = some old → b ≠ old →
        ∃ e, parseIpv4Header (buffer.set i b) length = some (.error e)) ∧
    (∀ buffer (length : UInt32), length.toNat = buffer.length → buffer.length ≤ 65535 →
      verifyIcmpChecksum buffer length = some true →
      ∀ i old b, buffer[i]? = some old → b ≠ old →
        verifyIcmpChecksum (buffer.set i b) length = some false) ∧
    (∀ sourceIp destIp buffer (length : UInt32) claimed, length.toNat = buffer.length →
      buffer.length ≤ 65535 → readU16At buffer 6 = some claimed → claimed ≠ 0 →
      verifyUdpChecksumIpv4 sourceIp destIp buffer length = some true →
      ∀ i old b claimed', buffer[i]? = some old → b ≠ old →
        readU16At (buffer.set i b) 6 = some claimed' → claimed' ≠ 0 →
        verifyUdpChecksumIpv4 sourceIp destIp (buffer.set i b) length = some false) :=
  ⟨fun _ _ _ hlen h _ _ _ hi hold hne => parseIpv4Header_set hlen h hi hold hne,
    fun _ _ hlen hmax h _ _ _ hold hne => verifyIcmpChecksum_set hlen hmax h hold hne,
    fun _ _ _ _ _ hlen hmax hclaimed hnonzero h _ _ _ _ hold hne hclaimed' hnonzero' =>
      verifyUdpChecksumIpv4_set hlen hmax hclaimed hnonzero h hold hne hclaimed' hnonzero'⟩

theorem corruption_detected_short :
    (∃ e, parseIpv4Header ((serializeIpv4Header ⟨64, 1, 7, 0, 29, 0x0A000001, 0x0A000002⟩ ++
      shortMessage).set 8 63) 29 = some (.error e)) ∧
    verifyIcmpChecksum (shortMessage.set 8 0x0E) 9 = some false ∧
    verifyUdpChecksumIpv4 0x0A000001 0x0A000002
      ((serializeUdpDatagramIpv4 ⟨53, 53, 0⟩ [0x0D] 0x0A000001 0x0A000002).set 8 0x0E) 9 =
        some false := by
  obtain ⟨hipv4, hicmp, hudp⟩ := corruption_detected
  have hparse := @parseIpv4Header_serialize 29 ⟨64, 1, 7, 0, 29, 0x0A000001, 0x0A000002⟩
    shortMessage rfl (by decide) (by decide)
  obtain ⟨⟨claimed, hne, hclaimed⟩, haccepted⟩ := @verifyUdpChecksumIpv4_serialize 9 ⟨53, 53, 0⟩
    [0x0D] 0x0A000001 0x0A000002 (by decide) rfl
  exact ⟨hipv4 _ 29 _ (by decide) hparse 8 64 63 (by decide) rfl (by decide),
    hicmp shortMessage 9 rfl (by decide) (by decide) 8 0x0D 0x0E rfl (by decide),
    hudp _ _ _ 9 claimed rfl (by decide) hclaimed hne haccepted 8 0x0D 0x0E claimed rfl (by decide)
      hclaimed hne⟩

end Net
end Techuila
