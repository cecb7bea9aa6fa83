import Mathlib.Logic.Function.Basic
import Techuila.Lib.SortedTable

/-!
# Differences of finite maps

The changes that lead from one map to another, by increasing key.

* `change`: what became of one key. `IsDiff o n l`: `l` lists the changes from `o` to `n`.
* `IsDiff.unique`: there is one such list; `IsDiff.patch`: applied to `o` it gives `n`;
  `IsDiff.eq_nil_iff`: it is empty where the maps agree; `IsDiff.swap`: the way back.
-/

namespace Techuila
namespace TableDiff

variable {κ α : Type}

/-- What became of the value of a key. -/
inductive Change (α : Type)
  | added (new : α)
  | removed (old : α)
  | modified (old new : α)
  deriving DecidableEq

namespace Change

/-- The value after the change. -/
def new : Change α → Option α
  | added v => some v
  | removed _ => none
  | modified _ v => some v

def swap : Change α → Change α
  | added v => removed v
  | removed v => added v
  | modified v w => modified w v

end Change

/-- The change from one value to another, where they differ. -/
def change [DecidableEq α] : Option α → Option α → Option (Change α)
  | none, none => none
  | none, some v => some (.added v)
  | some v, none => some (.removed v)
  | some v, some w => if v = w then none else some (.modified v w)

section Change

variable [DecidableEq α] {o n : Option α}

theorem change_eq_none : change o n = none ↔ o = n := by
  cases o <;> cases n <;> simp [change]

theorem new_of_change {c : Change α} (h : change o n = some c) : c.new = n := by
  cases o <;> cases n <;> simp only [change] at h
  · cases h
  · cases h
    rfl
  · cases h
    rfl
  · split at h
    · cases h
    · cases h
      rfl

theorem change_swap (o n : Option α) : change n o = (change o n).map Change.swap := by
  cases o <;> cases n <;> simp only [change, Option.map_none, Option.map_some, Change.swap]
  split
  · rename_i h
    rw [if_pos h.symm]
    rfl
  · rename_i h
    rw [if_neg (Ne.symm h)]
    rfl

end Change

variable [LinearOrder κ]

/-- The changes of a list applied to a map. -/
def patch (m : κ → Option α) (l : List (κ × Change α)) : κ → Option α :=
  l.foldl (fun m e => Function.update m e.1 e.2.new) m

section Patch

variable {l : List (κ × Change α)}

/-- A key that the list does not mention keeps its value. -/
theorem patch_of_notMem {m : κ → Option α} {k : κ} (h : ∀ c, (k, c) ∉ l) : patch m l k = m k := by
  induction l generalizing m with
  | nil => rfl
  | cons e l ih =>
    have hk : k ≠ e.1 := fun hk => h e.2 (hk ▸ List.mem_cons_self)
    rw [patch, List.foldl_cons, ← patch, ih fun c hc => h c (List.mem_cons_of_mem _ hc),
      Function.update_of_ne hk]

theorem patch_of_mem {m : κ → Option α} {k : κ} {c : Change α}
    (hs : l.Pairwise fun a b => a.1 < b.1) (h : (k, c) ∈ l) : patch m l k = c.new := by
  induction l generalizing m with
  | nil => cases h
  | cons e l ih =>
    obtain ⟨he, hs⟩ := List.pairwise_cons.mp hs
    rw [patch, List.foldl_cons, ← patch]
    rcases List.mem_cons.mp h with rfl | h
    · rw [patch_of_notMem fun c' hc' => absurd (he _ hc') (lt_irrefl _), Function.update_self]
    · exact ih hs h

end Patch
variable [DecidableEq α]

/-- `l` lists, by increasing key, what became of the keys between `o` and `n`. -/
def IsDiff (o n : κ → Option α) (l : List (κ × Change α)) : Prop :=
  l.Pairwise (fun a b => a.1 < b.1) ∧ ∀ k c, (k, c) ∈ l ↔ change (o k) (n k) = some c

variable {o n : κ → Option α} {l l' : List (κ × Change α)}

theorem IsDiff.unique (h : IsDiff o n l) (h' : IsDiff o n l') : l = l' := by
  have hnodup : ∀ {l : List (κ × Change α)}, l.Pairwise (fun a b => a.1 < b.1) → l.Nodup :=
    fun hs => hs.imp fun hlt e => absurd (e ▸ hlt) (lt_irrefl _)
  have hperm : l.Perm l' := (List.perm_ext_iff_of_nodup (hnodup h.1) (hnodup h'.1)).mpr fun e => by
    rw [show e = (e.1, e.2) from rfl, h.2, h'.2]
  exact hperm.eq_of_pairwise (fun a b _ _ hab hba => absurd hab (lt_asymm hba)) h.1 h'.1

theorem IsDiff.patch (h : IsDiff o n l) : patch o l = n := by
  funext k
  cases hc : change (o k) (n k) with
  | none =>
    have hk : ∀ c, (k, c) ∉ l := fun c hm => by
      rw [(h.2 k c).mp hm] at hc
      cases hc
    exact (patch_of_notMem hk).trans (change_eq_none.mp hc)
  | some c => exact (patch_of_mem h.1 ((h.2 k c).mpr hc)).trans (new_of_change hc)

theorem IsDiff.eq_nil_iff (h : IsDiff o n l) : l = [] ↔ o = n := by
  constructor
  · rintro rfl
    exact funext fun k => change_eq_none.mp (Option.eq_none_iff_forall_ne_some.mpr fun c hc =>
      absurd ((h.2 k c).mpr hc) List.not_mem_nil)
  · rintro rfl
    refine List.eq_nil_iff_forall_not_mem.mpr fun e he => ?_
    rw [show e = (e.1, e.2) from rfl, h.2, change_eq_none.mpr rfl] at he
    cases he

theorem IsDiff.swap (h : IsDiff o n l) : IsDiff n o (l.map fun e => (e.1, e.2.swap)) := by
  refine ⟨List.pairwise_map.mpr h.1, fun k c => ?_⟩
  rw [change_swap, List.mem_map]
  constructor
  · rintro ⟨⟨k, c⟩, hm, rfl, rfl⟩
    rw [(h.2 k c).mp hm]
    rfl
  · intro hc
    obtain ⟨c', hc', rfl⟩ := Option.map_eq_some_iff.mp hc
    exact ⟨(k, c'), (h.2 k c').mpr hc', rfl⟩

end TableDiff
end Techuila
