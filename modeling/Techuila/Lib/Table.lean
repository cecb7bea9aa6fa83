import Mathlib.Data.List.Nodup

/-!
# Finite tables with one entry a key

A table is a list of entries; the order is the order of iteration, which the operations leave
open. `insert` replaces an entry, so that the keys stay distinct (`Table.Ok`).

* `find_insert`, `find_erase`, `find_insertAll`: what the operations do to a lookup.
* `mem_of_find`, `find_isSome_of_mem`: the lookups and the entries.
-/

namespace Techuila

/-- A table from `κ` to `α`. -/
abbrev Table (κ α : Type) := List (κ × α)

namespace Table

variable {κ α : Type} [DecidableEq κ]

def find (t : Table κ α) (k : κ) : Option α := t.lookup k

def contains (t : Table κ α) (k : κ) : Bool := (t.find k).isSome

def erase (t : Table κ α) (k : κ) : Table κ α := List.filter (fun e => e.1 ≠ k) t

def insert (t : Table κ α) (k : κ) (v : α) : Table κ α := (k, v) :: t.erase k

/-- The keys are distinct. -/
def Ok (t : Table κ α) : Prop := (t.map Prod.fst).Nodup

@[simp] theorem find_nil (k : κ) : find ([] : Table κ α) k = none := rfl

theorem find_cons (e : κ × α) (t : Table κ α) (k : κ) :
    find (e :: t) k = if k = e.1 then some e.2 else find t k := by
  unfold find
  rw [List.lookup_cons]
  by_cases h : k = e.1
  · simp [h]
  · rw [if_neg h, beq_false_of_ne h]

theorem find_erase (t : Table κ α) (k k' : κ) :
    find (t.erase k) k' = if k' = k then none else find t k' := by
  induction t with
  | nil => simp [erase]
  | cons e t ih =>
    rw [erase, List.filter_cons]
    by_cases he : e.1 = k
    · rw [if_neg (by simp [he]), find_cons]
      have ih : find (List.filter (fun e => e.1 ≠ k) t) k' = if k' = k then none else find t k' := ih
      rw [ih]
      by_cases hk : k' = k <;> simp [hk, he]
    · rw [if_pos (by simp [he]), find_cons, find_cons]
      have ih : find (List.filter (fun e => e.1 ≠ k) t) k' = if k' = k then none else find t k' := ih
      rw [ih]
      by_cases hk : k' = k
      · subst hk; simp [Ne.symm he]
      · simp [hk]

theorem find_insert (t : Table κ α) (k : κ) (v : α) (k' : κ) :
    find (t.insert k v) k' = if k' = k then some v else find t k' := by
  rw [insert, find_cons, find_erase]
  by_cases h : k' = k <;> simp [h]

@[simp] theorem find_insert_self (t : Table κ α) (k : κ) (v : α) :
    find (t.insert k v) k = some v := by simp [find_insert]

theorem find_insert_ne (t : Table κ α) {k k' : κ} (v : α) (h : k' ≠ k) :
    find (t.insert k v) k' = find t k' := by simp [find_insert, h]

theorem contains_iff {t : Table κ α} {k : κ} : t.contains k = true ↔ ∃ v, t.find k = some v :=
  Option.isSome_iff_exists

theorem not_contains_iff {t : Table κ α} {k : κ} : t.contains k = false ↔ t.find k = none :=
  Option.isSome_eq_false_iff.trans Option.isNone_iff_eq_none

theorem Ok.erase {t : Table κ α} (h : t.Ok) (k : κ) : (t.erase k).Ok :=
  h.sublist (List.filter_sublist.map _)

theorem not_mem_keys_erase (t : Table κ α) (k : κ) : k ∉ (t.erase k).map Prod.fst := by
  intro h
  obtain ⟨e, he, rfl⟩ := List.mem_map.mp h
  simpa using (List.mem_filter.mp he).2

theorem Ok.insert {t : Table κ α} (h : t.Ok) (k : κ) (v : α) : (t.insert k v).Ok :=
  List.nodup_cons.mpr ⟨not_mem_keys_erase t k, h.erase k⟩

omit [DecidableEq κ] in
theorem Ok.nil : Ok ([] : Table κ α) := List.nodup_nil

theorem mem_of_find {t : Table κ α} {k : κ} {v : α} (h : t.find k = some v) : (k, v) ∈ t := by
  induction t with
  | nil => cases h
  | cons e t ih =>
    rw [find_cons] at h
    split at h
    · rename_i hk
      cases h
      exact hk ▸ List.mem_cons_self
    · exact List.mem_cons_of_mem _ (ih h)

theorem find_isSome_of_mem {t : Table κ α} {k : κ} {v : α} (h : (k, v) ∈ t) :
    ∃ v', t.find k = some v' := by
  induction t with
  | nil => cases h
  | cons e t ih =>
    rw [find_cons]
    by_cases hk : k = e.1
    · exact ⟨e.2, by simp [hk]⟩
    · rcases List.mem_cons.mp h with rfl | h
      · exact absurd rfl hk
      · simpa [hk] using ih h

/-- Nothing is erased where there is nothing. -/
theorem erase_eq_self {t : Table κ α} {k : κ} (h : t.find k = none) : t.erase k = t := by
  refine List.filter_eq_self.mpr fun e he => ?_
  have hne : e.1 ≠ k := by
    rintro rfl
    obtain ⟨v, hv⟩ := find_isSome_of_mem he
    rw [h] at hv
    cases hv
  simpa using hne

/-- An entry of a table after a list of insertions was inserted or there before. -/
theorem find_insertAll {ι : Type} {l : List ι} {key : ι → κ} {val : ι → α} {t : Table κ α} {k : κ}
    {v : α} (h : find (l.foldl (fun t e => t.insert (key e) (val e)) t) k = some v) :
    (∃ e ∈ l, key e = k ∧ val e = v) ∨ t.find k = some v := by
  induction l generalizing t with
  | nil => exact .inr h
  | cons e l ih =>
    rcases ih h with ⟨e', he, hk⟩ | h
    · exact .inl ⟨e', List.mem_cons_of_mem _ he, hk⟩
    · rw [find_insert] at h
      split at h
      · rename_i hk
        cases h
        exact .inl ⟨e, List.mem_cons_self, hk.symm, rfl⟩
      · exact .inr h

theorem mem_insertAll {ι : Type} {l : List ι} {key : ι → κ} {val : ι → α} {t : Table κ α}
    {e : κ × α} (h : e ∈ l.foldl (fun t x => t.insert (key x) (val x)) t) :
    (∃ x ∈ l, key x = e.1 ∧ val x = e.2) ∨ e ∈ t := by
  induction l generalizing t with
  | nil => exact .inr h
  | cons x l ih =>
    rcases ih h with ⟨y, hy, hk⟩ | h
    · exact .inl ⟨y, List.mem_cons_of_mem _ hy, hk⟩
    · rcases List.mem_cons.mp h with rfl | h
      · exact .inl ⟨x, List.mem_cons_self, rfl, rfl⟩
      · exact .inr (List.mem_of_mem_filter h)

/-- What a list of insertions enters, or was there before, is in the table after it. -/
theorem contains_insertAll {ι : Type} {l : List ι} {key : ι → κ} {val : ι → α} {t : Table κ α}
    {k : κ} (h : (∃ e ∈ l, key e = k) ∨ t.contains k = true) :
    contains (l.foldl (fun t e => t.insert (key e) (val e)) t) k = true := by
  induction l generalizing t with
  | nil => exact h.resolve_left fun ⟨_, he, _⟩ => absurd he List.not_mem_nil
  | cons e l ih =>
    refine ih ?_
    have hself : k = key e → (t.insert (key e) (val e)).contains k = true := by
      rintro rfl
      exact contains_iff.mpr ⟨_, find_insert_self _ _ _⟩
    rcases h with ⟨e', he, hk⟩ | h
    · rcases List.mem_cons.mp he with rfl | he
      · exact .inr (hself hk.symm)
      · exact .inl ⟨e', he, hk⟩
    · by_cases hk : k = key e
      · exact .inr (hself hk)
      · rw [contains, find_insert_ne _ _ hk]
        exact .inr h

end Table

end Techuila
