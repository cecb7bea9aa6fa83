import Mathlib.Algebra.GroupWithZero.Nat
import Mathlib.Data.Fin.Basic
import Mathlib.Data.List.Range

/-!
# Round robin

Positions on a ring, and the next one after a given one that satisfies a predicate.

* `next_eq_some`, `next_isSome`: what `next` finds.
* `dist_next_lt`: where it finds another position than a waiting one, it comes closer to that.
-/

namespace Techuila
namespace RoundRobin

variable {n : Nat}

/-- How far ahead of `c` a position is; a whole round for `c` itself. -/
def dist (c i : Fin n) : Nat := if c.val < i.val then i.val - c.val else i.val + n - c.val

theorem dist_pos (c i : Fin n) : 0 < dist c i := by
  have := c.isLt
  unfold dist
  split <;> omega

theorem dist_le (c i : Fin n) : dist c i ≤ n := by
  have := i.isLt
  unfold dist
  split <;> omega

theorem dist_self (c : Fin n) : dist c c = n := by
  unfold dist
  rw [if_neg (Nat.lt_irrefl _)]
  omega

variable [NeZero n]

/-- The position that is `offset` further on. -/
def ahead (c : Fin n) (offset : Nat) : Fin n := Fin.ofNat n (c.val + offset)

/-- The first position after `c`, at last `c` itself, that satisfies the predicate. -/
def next (p : Fin n → Bool) (c : Fin n) : Option (Fin n) :=
  ((List.range' 1 n).map (ahead c)).find? p

theorem ahead_val (c : Fin n) {offset : Nat} (h : offset ≤ n) :
    (ahead c offset).val = if c.val + offset < n then c.val + offset else c.val + offset - n := by
  have hc := c.isLt
  show (c.val + offset) % n = _
  split
  · rename_i hlt
    exact Nat.mod_eq_of_lt hlt
  · rename_i hge
    rw [Nat.mod_eq_sub_mod (not_lt.mp hge)]
    exact Nat.mod_eq_of_lt (by omega)

theorem ahead_dist (c i : Fin n) : ahead c (dist c i) = i := by
  have hc := c.isLt
  have hi := i.isLt
  refine Fin.ext ((ahead_val c (dist_le c i)).trans ?_)
  unfold dist
  split <;> split <;> omega

theorem dist_ahead (c : Fin n) {offset : Nat} (h₀ : 0 < offset) (h : offset ≤ n) :
    dist c (ahead c offset) = offset := by
  have hc := c.isLt
  unfold dist
  rw [ahead_val c h]
  split <;> split at * <;> omega

/-- The position found satisfies the predicate, and none that is closer does. -/
theorem next_eq_some {p : Fin n → Bool} {c j : Fin n} (h : next p c = some j) :
    p j = true ∧ ∀ i, p i = true → dist c j ≤ dist c i := by
  unfold next at h
  rw [List.find?_map, Option.map_eq_some_iff] at h
  obtain ⟨offset, hfind, rfl⟩ := h
  rw [List.find?_range'_eq_some] at hfind
  obtain ⟨hp, hmem, hfirst⟩ := hfind
  obtain ⟨hlo, hhi⟩ := List.mem_range'_1.mp hmem
  refine ⟨hp, fun i hi => ?_⟩
  rw [dist_ahead c (by omega) (by omega)]
  by_contra hlt
  have hnot := hfirst (dist c i) (dist_pos c i) (not_le.mp hlt)
  rw [Function.comp, ahead_dist, hi] at hnot
  cases hnot

theorem next_isSome {p : Fin n → Bool} (c : Fin n) {i : Fin n} (hi : p i = true) :
    ∃ j, next p c = some j := by
  cases h : next p c with
  | some j => exact ⟨j, rfl⟩
  | none =>
    unfold next at h
    rw [List.find?_eq_none] at h
    refine absurd hi (h i (List.mem_map.mpr ⟨dist c i, ?_, ahead_dist c i⟩))
    have h₁ := dist_pos c i
    have h₂ := dist_le c i
    exact List.mem_range'_1.mpr ⟨h₁, by omega⟩

/-- Passing a position that waits is not possible. -/
theorem dist_next_lt {p : Fin n → Bool} {c j i : Fin n} (h : next p c = some j) (hi : p i = true)
    (hne : i ≠ j) : dist j i < dist c i := by
  have hle := (next_eq_some h).2 i hi
  have hval : i.val ≠ j.val := fun he => hne (Fin.ext he)
  have hc := c.isLt
  have hj := j.isLt
  have hi' := i.isLt
  unfold dist at *
  split <;> split at hle <;> split at hle <;> split <;> omega

/-- A position that comes closer to all others that wait is the next one. -/
theorem next_eq_of_dist_lt {p : Fin n → Bool} {c j : Fin n} (hj : p j = true) (hne : j ≠ c)
    (h : ∀ i, i ≠ c → i ≠ j → p i = true → dist j i < dist c i) : next p c = some j := by
  obtain ⟨i, hi⟩ := next_isSome c hj
  obtain ⟨hpi, hfirst⟩ := next_eq_some hi
  have hle := hfirst j hj
  have hval : j.val ≠ c.val := fun he => hne (Fin.ext he)
  have hc := c.isLt
  have hj' := j.isLt
  have hi' := i.isLt
  have hic : i ≠ c := by
    rintro rfl
    rw [dist_self] at hle
    unfold dist at hle
    split at hle <;> omega
  by_cases hij : i = j
  · exact hij ▸ hi
  · have hlt := h i hic hij hpi
    have hval' : i.val ≠ j.val := fun he => hij (Fin.ext he)
    unfold dist at hle hlt
    split at hlt <;> split at hlt <;> split at hle <;> split at hle <;> omega

end RoundRobin

end Techuila
