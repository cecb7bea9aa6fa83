import Mathlib.Data.List.Basic
import Mathlib.Data.List.Forall2

/-!
# Logs of self-delimiting records

A log is a sequence of symbols. A reader takes one record off its front, or stops at what is not
a whole record. Recovery reads records until the reader stops.

* `recover_frame`, `recover_frames`: whole records at the front are recovered, in order.
* `recover_stop`: nothing is recovered from where the reader stops.
* `recover_take`: a log that was cut off gives its whole records.
-/

namespace Techuila

/-- A reader of records of type `α`: one record and the rest of the log. -/
structure RecordReader (σ α : Type) where
  read : List σ → Option (α × List σ)
  shorter : ∀ {l x rest}, read l = some (x, rest) → rest.length < l.length

namespace RecordReader

variable {σ α : Type} (R : RecordReader σ α)

/-- Every record from the front on, up to the first place where the reader stops. -/
def recover (l : List σ) : List α :=
  match _h : R.read l with
  | none => []
  | some (x, rest) => x :: recover rest
termination_by l.length
decreasing_by exact R.shorter _h

/-- `bs` is a whole record with the content `x`, whatever comes after it. -/
def Frames (x : α) (bs : List σ) : Prop := ∀ rest, R.read (bs ++ rest) = some (x, rest)

variable {R}

theorem recover_stop {l : List σ} (h : R.read l = none) : R.recover l = [] := by
  unfold recover
  split
  · rfl
  · rename_i h'
    rw [h] at h'
    cases h'

theorem recover_frame {x : α} {bs : List σ} (h : R.Frames x bs) (rest : List σ) :
    R.recover (bs ++ rest) = x :: R.recover rest := by
  rw [recover]
  split
  · rename_i h'
    rw [h rest] at h'
    cases h'
  · rename_i h'
    rw [h rest] at h'
    cases h'
    rfl

theorem recover_frames {xs : List α} {bss : List (List σ)} (h : List.Forall₂ R.Frames xs bss)
    (rest : List σ) : R.recover (bss.flatten ++ rest) = xs ++ R.recover rest := by
  induction h with
  | nil => rfl
  | cons hx _ ih =>
    rw [List.flatten_cons, List.append_assoc, recover_frame hx, ih]
    rfl

/-- `bs` is a whole record with the content `x`, and no record when it is cut off. -/
structure Whole (R : RecordReader σ α) (x : α) (bs : List σ) : Prop where
  frames : R.Frames x bs
  torn : ∀ n < bs.length, R.read (bs.take n) = none

/-- The first `n` symbols of a log give the records that end within them. -/
theorem recover_take {xs : List α} {bss : List (List σ)} (h : List.Forall₂ R.Whole xs bss) (n : Nat) :
    ∃ k ≤ xs.length, R.recover (bss.flatten.take n) = xs.take k ∧
      ∀ i < xs.length, i < k ↔ (bss.take (i + 1)).flatten.length ≤ n := by
  induction h generalizing n with
  | nil =>
    refine ⟨0, Nat.le_refl 0, ?_, fun i hi => absurd hi (Nat.not_lt_zero i)⟩
    refine recover_stop ?_
    cases hr : R.read [] with
    | none => simpa using hr
    | some r => exact absurd (R.shorter hr) (Nat.not_lt_zero _)
  | @cons x bs xs bss hx hxs ih =>
    rw [List.flatten_cons, List.take_append]
    by_cases hn : n < bs.length
    · -- The cut is in the first record.
      refine ⟨0, Nat.zero_le _, ?_, fun i _ => ?_⟩
      · rw [Nat.sub_eq_zero_of_le (Nat.le_of_lt hn), List.take_zero, List.append_nil]
        exact recover_stop (hx.torn n hn)
      · rw [List.take_succ_cons, List.flatten_cons, List.length_append]
        omega
    · obtain ⟨k, hk, hrecover, hends⟩ := ih (n - bs.length)
      refine ⟨k + 1, Nat.succ_le_succ hk, ?_, fun i hi => ?_⟩
      · rw [List.take_of_length_le (Nat.not_lt.mp hn), recover_frame hx.frames, hrecover,
          List.take_succ_cons]
      · rw [List.take_succ_cons, List.flatten_cons, List.length_append]
        cases i with
        | zero =>
          rw [List.take_zero, List.flatten_nil, List.length_nil]
          omega
        | succ i =>
          have := hends i (Nat.lt_of_succ_lt_succ hi)
          omega

end RecordReader

end Techuila
