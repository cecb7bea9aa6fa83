import Mathlib.Logic.Basic

/-!
# Three-way merges

Two tables that both come from a third one, and the table with the changes of both.

* `merge3`: one key. It has no value where both sides have changed the key to different versions.
* `merge3_comm`: the sides have the same role. `eq_of_merge3`: a merge invents nothing.
* `IsMerge`: all keys.
-/

namespace Techuila
namespace ThreeWay

variable {κ α : Type} [DecidableEq α]

/-- The version of the side that has changed, or that of both. A version may be an absence. -/
def merge3 (base ours theirs : α) : Option α :=
  if ours = base then some theirs
  else if theirs = base then some ours
  else if ours = theirs then some ours
  else none

theorem merge3_comm (base ours theirs : α) : merge3 base ours theirs = merge3 base theirs ours := by
  unfold merge3
  by_cases ho : ours = base
  · by_cases ht : theirs = base <;> simp [ho, ht]
  · by_cases ht : theirs = base
    · simp [ho, ht]
    · by_cases he : ours = theirs
      · simp [he]
      · simp [ho, ht, he, Ne.symm he]

theorem merge3_eq_none {base ours theirs : α} :
    merge3 base ours theirs = none ↔ ours ≠ base ∧ theirs ≠ base ∧ ours ≠ theirs := by
  unfold merge3
  split
  · simp_all
  · split
    · simp_all
    · split <;> simp_all

/-- A merge invents nothing. -/
theorem eq_of_merge3 {base ours theirs merged : α} (h : merge3 base ours theirs = some merged) :
    merged = ours ∨ merged = theirs := by
  unfold merge3 at h
  split at h
  · exact .inr (Option.some_inj.mp h).symm
  · split at h
    · exact .inl (Option.some_inj.mp h).symm
    · split at h
      · exact .inl (Option.some_inj.mp h).symm
      · cases h

/-- Every key of `merged` has the merge of the three versions of the key. -/
def IsMerge (base ours theirs merged : κ → α) : Prop :=
  ∀ k, merge3 (base k) (ours k) (theirs k) = some (merged k)

end ThreeWay
end Techuila
