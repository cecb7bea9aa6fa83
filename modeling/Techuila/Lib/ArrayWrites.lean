import Mathlib.Data.List.Basic

/-!
# Writes to an array that may miss it

A write at an index outside the array is `none`.

* `putAll_some`: consecutive writes inside the array, and what it holds then.
-/

namespace Techuila
namespace ArrayWrites

variable {α : Type} {n : Nat}

def put (v : Vector α n) (i : Nat) (a : α) : Option (Vector α n) :=
  if h : i < n then some (v.set i a) else none

/-- The values at `i` and the indices after it. -/
def putAll (v : Vector α n) (i : Nat) : List α → Option (Vector α n)
  | [] => some v
  | a :: as => do
    let v ← put v i a
    putAll v (i + 1) as

/-- One more value in front of those that go in behind it. -/
theorem splice_cons {l as : List α} {i : Nat} {a : α} (h : i < l.length) :
    (l.set i a).take (i + 1) ++ as ++ (l.set i a).drop (i + 1 + as.length) =
      l.take i ++ (a :: as) ++ l.drop (i + (a :: as).length) := by
  have htake : (l.take i).length = i := List.length_take_of_le (Nat.le_of_lt h)
  have hset : l.set i a = l.take i ++ ([a] ++ l.drop (i + 1)) := by
    rw [List.set_eq_take_append_cons_drop, if_pos h]
    rfl
  have hfirst : (l.take i ++ [a]).length = i + 1 := by
    rw [List.length_append, htake, List.length_singleton]
  rw [hset, ← List.append_assoc, List.take_left' hfirst, ← List.drop_drop, List.drop_left' hfirst,
    List.drop_drop, List.length_cons, Nat.add_right_comm i 1]
  simp [Nat.add_assoc]

theorem putAll_some {v : Vector α n} {i : Nat} {as : List α} (h : i + as.length ≤ n) :
    ∃ v', putAll v i as = some v' ∧
      v'.toList = v.toList.take i ++ as ++ v.toList.drop (i + as.length) := by
  induction as generalizing v i with
  | nil => exact ⟨v, rfl, by simp⟩
  | cons a as ih =>
    rw [List.length_cons] at h
    have hi : i < n := by omega
    have hlen : i < v.toList.length := by simpa using hi
    obtain ⟨v', e, hv'⟩ := ih (v := v.set i a) (i := i + 1) (by omega)
    refine ⟨v', by simp [putAll, put, hi, e], ?_⟩
    rw [hv', Vector.toList_set]
    exact splice_cons hlen

end ArrayWrites
end Techuila
