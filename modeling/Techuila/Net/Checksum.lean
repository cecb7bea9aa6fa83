import Techuila.Net.Protocols
import Techuila.Lib.OnesComplement

/-!
# The Internet checksum (`06-networking/protocols/protocols.cpp`)

* `toNat_wordSum`: the accumulator holds the sum of the words modulo `2^32`.
* `internetChecksum_folds`: the complement of the checksum is what the accumulator is folded to.
* `load`: bytes of a buffer, none where one is outside it.
* `internetChecksum_exact`: the checksum is that of RFC 1071 where the words add up to less than
  `2^32`, and nowhere else.
-/

namespace Techuila
namespace Net

open Techuila.Dist (Bytes)
open OnesComplement (Folds total words)

variable {data : Bytes}

theorem toNat_word (high low : UInt8) :
    (high.toUInt32 <<< 8 ||| low.toUInt32).toNat = 256 * high.toNat + low.toNat := by
  have hhigh : high.toNat < 2 ^ 8 := high.toNat_lt
  have hlow : low.toNat < 2 ^ 8 := low.toNat_lt
  rw [UInt32.toNat_or, UInt32.toNat_shiftLeft, UInt8.toNat_toUInt32, UInt8.toNat_toUInt32,
    show UInt32.toNat 8 % 32 = 8 from rfl, Nat.mod_eq_of_lt (by rw [Nat.shiftLeft_eq]; omega),
    ← Nat.shiftLeft_add_eq_or_of_lt hlow, Nat.shiftLeft_eq, Nat.mul_comm]

theorem toNat_wordSum (data : Bytes) (sum : UInt32) :
    (wordSum data sum).toNat = (sum.toNat + total data) % 2 ^ 32 := by
  have hlast (high : UInt8) : high.toUInt32 <<< 8 = high.toUInt32 <<< 8 ||| (0 : UInt8).toUInt32 :=
    (UInt32.or_zero ..).symm
  fun_induction wordSum data sum with
  | case1 sum => simp [Nat.mod_eq_of_lt sum.toNat_lt]
  | case2 sum high =>
    rw [hlast, UInt32.toNat_add, toNat_word, OnesComplement.total_singleton]
    rfl
  | case3 sum high low data ih =>
    rw [ih, UInt32.toNat_add, toNat_word, OnesComplement.total_cons_cons, Nat.mod_add_mod,
      Nat.add_assoc]

theorem foldCarries_folds (sum : UInt32) : Folds 65535 sum.toNat (foldCarries 2 sum).toNat := by
  have hround : ∀ rounds (sum : UInt32), (foldCarries rounds sum).toNat < 65536 →
      Folds 65535 sum.toNat (foldCarries rounds sum).toNat := by
    intro rounds
    induction rounds with
    | zero =>
      intro sum hlt
      exact .refl (Nat.le_of_lt_succ hlt)
    | succ rounds ih =>
      intro sum hlt
      unfold foldCarries at hlt ⊢
      split
      · rw [if_pos ‹_›] at hlt
        exact .refl (Nat.le_of_lt_succ hlt)
      · rw [if_neg ‹_›] at hlt
        have hrest := ih _ hlt
        rw [toNat_foldCarry] at hrest
        exact hrest.of_fold
  exact hround 2 sum (foldCarries_lt sum)

theorem toNat_not_toUInt16 {sum : UInt32} (h : sum.toNat < 65536) :
    (~~~(~~~sum).toUInt16).toNat = sum.toNat := by
  have hsub : (~~~sum).toUInt16 = ~~~sum.toUInt16 := by
    rw [UInt32.toUInt16_not]
  rw [hsub, UInt16.not_not, UInt32.toNat_toUInt16]
  exact Nat.mod_eq_of_lt h

/-- The complement of the checksum is a word for the accumulator. -/
theorem internetChecksum_folds (data : Bytes) :
    Folds 65535 (total data % 2 ^ 32) (~~~internetChecksum data).toNat := by
  have h := foldCarries_folds (wordSum data 0)
  rw [toNat_wordSum] at h
  rw [internetChecksum, toNat_not_toUInt16 (foldCarries_lt _)]
  simpa using h

/-- `n` bytes of a buffer. `none` is a read outside it. -/
def load (buffer : Bytes) (i n : Nat) : Option Bytes :=
  if i + n ≤ buffer.length then some ((buffer.drop i).take n) else none

def ICMP_ECHO_HEADER_SIZE : UInt32 := 8

def verifyIcmpChecksum (buffer : Bytes) (length : UInt32) : Option Bool :=
  if length < ICMP_ECHO_HEADER_SIZE then some false
  else do
    let bytes ← load buffer 0 length.toNat
    let sum := internetChecksum bytes
    return sum == 0 || sum == 0xFFFF

/-- A checksum is one of the zeros where the accumulator is a multiple. -/
theorem isZero_iff {checksum : UInt16} {s : Nat} (h : Folds 65535 s (~~~checksum).toNat) :
    checksum = 0 ∨ checksum = 0xFFFF ↔ s ≡ 0 [MOD 65535] := by
  have hnot : ∀ a b : UInt16, a = b ↔ (~~~a).toNat = (~~~b).toNat := by
    intro a b
    rw [UInt16.toNat_inj, UInt16.not_inj]
  rw [← h.isZero, or_comm, hnot checksum 0, hnot checksum 0xFFFF]
  exact Iff.rfl

theorem load_zero {buffer : Bytes} {n : Nat} (h : n ≤ buffer.length) :
    load buffer 0 n = some (buffer.take n) := by
  rw [load, if_pos (by omega), List.drop_zero]

/-- A message is accepted where the accumulator is a multiple. -/
theorem verifyIcmpChecksum_eq {buffer : Bytes} {length : UInt32}
    (h : length.toNat ≤ buffer.length) (hheader : ¬ length < ICMP_ECHO_HEADER_SIZE) :
    ∃ accepted, verifyIcmpChecksum buffer length = some accepted ∧
      (accepted = true ↔ total (buffer.take length.toNat) % 2 ^ 32 ≡ 0 [MOD 65535]) := by
  rw [verifyIcmpChecksum, if_neg hheader, load_zero h]
  refine ⟨_, rfl, ?_⟩
  rw [Bool.or_eq_true, beq_iff_eq, beq_iff_eq]
  exact isZero_iff (internetChecksum_folds _)

/-- Over `2^32`, the accumulator has lost a one for each time that it went round. -/
theorem not_modEq_of_wrapped {data : Bytes} (hlen : data.length < 2 ^ 32)
    (h : 2 ^ 32 ≤ total data) : ¬ (~~~internetChecksum data).toNat ≡ total data [MOD 65535] := by
  intro hmod
  have hle := OnesComplement.total_le data
  have hacc := (internetChecksum_folds data).modEq.symm.trans hmod
  unfold Nat.ModEq at hacc
  omega

/-- The checksum is the complement of the one's-complement sum of the words: its complement is
congruent to their sum and is zero only for zeros, and a message is accepted just when the sum is a
multiple. -/
theorem internetChecksum_exact (data : Bytes) (hlen : data.length < 2 ^ 32) :
    ((~~~internetChecksum data).toNat = OnesComplement.sum 65535 (words data) ∧
      (~~~internetChecksum data).toNat ≡ total data [MOD 65535] ∧
      ((~~~internetChecksum data).toNat = 0 → ∀ b ∈ data, b = 0) ∧
      (8 ≤ data.length → ∃ accepted,
        verifyIcmpChecksum data (UInt32.ofNat data.length) = some accepted ∧
        (accepted = true ↔ total data ≡ 0 [MOD 65535]))) ↔
    total data < 2 ^ 32 := by
  constructor
  · rintro ⟨-, hmod, -⟩
    by_contra hover
    exact not_modEq_of_wrapped hlen (Nat.le_of_not_lt hover) hmod
  · intro hlt
    have hfolds := internetChecksum_folds data
    rw [Nat.mod_eq_of_lt hlt] at hfolds
    refine ⟨hfolds.unique (OnesComplement.total_folds data), hfolds.modEq, fun h =>
      OnesComplement.total_eq_zero.mp (hfolds.zero.mp h), fun hheader => ?_⟩
    have hlength : (UInt32.ofNat data.length).toNat = data.length :=
      UInt32.toNat_ofNat_of_lt' hlen
    have hnot : ¬ UInt32.ofNat data.length < ICMP_ECHO_HEADER_SIZE := by
      rw [UInt32.lt_iff_toNat_lt, hlength]
      exact Nat.not_lt.mpr hheader
    obtain ⟨accepted, h, haccepted⟩ := verifyIcmpChecksum_eq (Nat.le_of_eq hlength) hnot
    rw [hlength, List.take_length, Nat.mod_eq_of_lt hlt] at haccepted
    exact ⟨accepted, h, haccepted⟩

theorem total_replicate (n : Nat) :
    total (List.replicate (2 * n) (0xFF : UInt8)) = 65535 * n := by
  induction n with
  | zero => rfl
  | succ n ih =>
    rw [Nat.mul_succ, List.replicate_succ, List.replicate_succ, OnesComplement.total_cons_cons, ih,
      show (255 : UInt8).toNat = 255 from rfl]
    omega

/-- A message of so many all-ones words that the accumulator goes round. -/
def longMessage : Bytes := List.replicate (2 * 65538) 0xFF

theorem internetChecksum_longMessage :
    ¬ (~~~internetChecksum longMessage).toNat ≡ total longMessage [MOD 65535] ∧
      total longMessage ≡ 0 [MOD 65535] ∧ verifyIcmpChecksum longMessage 131076 = some false := by
  have htotal : total longMessage = 65535 * 65538 := total_replicate 65538
  have hlen : longMessage.length = 131076 := List.length_replicate
  refine ⟨not_modEq_of_wrapped (by omega) (by omega), by rw [htotal]; decide, ?_⟩
  obtain ⟨accepted, h, haccepted⟩ :=
    @verifyIcmpChecksum_eq longMessage 131076 (Nat.le_of_eq hlen.symm) (by decide)
  rw [show (131076 : UInt32).toNat = longMessage.length from hlen.symm, List.take_length,
    htotal] at haccepted
  rw [h, Bool.eq_false_iff.mpr (fun ha => absurd (haccepted.mp ha) (by decide))]

/-- An echo request with one byte of payload. -/
def shortMessage : Bytes := [8, 0, 0xEA, 0xFF, 0, 0, 0, 0, 0x0D]

theorem internetChecksum_exact_short :
    ((~~~internetChecksum shortMessage).toNat = OnesComplement.sum 65535 (words shortMessage) ∧
      (~~~internetChecksum shortMessage).toNat ≡ total shortMessage [MOD 65535] ∧
      ((~~~internetChecksum shortMessage).toNat = 0 → ∀ b ∈ shortMessage, b = 0) ∧
      (8 ≤ shortMessage.length → ∃ accepted,
        verifyIcmpChecksum shortMessage (UInt32.ofNat shortMessage.length) = some accepted ∧
        (accepted = true ↔ total shortMessage ≡ 0 [MOD 65535]))) ↔
    total shortMessage < 2 ^ 32 :=
  internetChecksum_exact shortMessage (by decide)

end Net
end Techuila
