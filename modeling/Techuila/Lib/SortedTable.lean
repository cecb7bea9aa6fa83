import Mathlib.Algebra.GroupWithZero.Nat
import Mathlib.Data.List.Basic
import Mathlib.Data.List.Lex
import Mathlib.Data.List.Nodup
import Mathlib.Order.Lattice

/-!
# Tables in the order of their keys

A table as an ordered map keeps it: its entries by increasing key, with one entry a key. The order
is a field, so two tables with the same entries are equal.

* `find_insert`: what an insertion does to a lookup.
* `ofEntries_entries`: inserting the entries of a table one by one gives the table back.
-/

namespace Techuila

/-- The entries of an ordered map from `κ` to `α`. -/
structure SortedTable (κ α : Type) [LT κ] where
  entries : List (κ × α) := []
  sorted : entries.Pairwise fun a b => a.1 < b.1 := by exact .nil

namespace SortedTable

variable {κ α : Type} [LinearOrder κ]

/-- No entries. -/
def empty : SortedTable κ α := {}

@[ext] theorem ext {s t : SortedTable κ α} (h : s.entries = t.entries) : s = t := by
  cases s
  cases t
  cases h
  rfl

def find (t : SortedTable κ α) (k : κ) : Option α := t.entries.lookup k

/-- An entry put in its place, or over the one with its key. -/
def insertEntry (k : κ) (v : α) : List (κ × α) → List (κ × α)
  | [] => [(k, v)]
  | e :: es =>
    if k < e.1 then (k, v) :: e :: es
    else if k = e.1 then (k, v) :: es
    else e :: insertEntry k v es

theorem mem_insertEntry {k : κ} {v : α} {es : List (κ × α)} {e : κ × α}
    (h : e ∈ insertEntry k v es) : e = (k, v) ∨ e ∈ es := by
  induction es with
  | nil => exact .inl (List.mem_singleton.mp h)
  | cons e' es ih =>
    unfold insertEntry at h
    split at h
    · exact List.mem_cons.mp h
    · split at h
      · exact (List.mem_cons.mp h).imp_right (List.mem_cons_of_mem _)
      · rcases List.mem_cons.mp h with rfl | h
        · exact .inr List.mem_cons_self
        · exact (ih h).imp_right (List.mem_cons_of_mem _)

theorem sorted_insertEntry (k : κ) (v : α) {es : List (κ × α)}
    (h : es.Pairwise fun a b => a.1 < b.1) :
    (insertEntry k v es).Pairwise fun a b => a.1 < b.1 := by
  induction es with
  | nil => exact List.pairwise_singleton _ _
  | cons e es ih =>
    obtain ⟨he, hes⟩ := List.pairwise_cons.mp h
    unfold insertEntry
    split
    · rename_i hlt
      refine List.pairwise_cons.mpr ⟨fun b hb => ?_, h⟩
      rcases List.mem_cons.mp hb with rfl | hb
      · exact hlt
      · exact hlt.trans (he b hb)
    · rename_i hnlt
      split
      · rename_i heq
        exact List.pairwise_cons.mpr ⟨fun b hb => by rw [heq]; exact he b hb, hes⟩
      · rename_i hne
        refine List.pairwise_cons.mpr ⟨fun b hb => ?_, ih hes⟩
        rcases mem_insertEntry hb with rfl | hb
        · exact lt_of_le_of_ne (not_lt.mp hnlt) (Ne.symm hne)
        · exact he b hb

def insert (t : SortedTable κ α) (k : κ) (v : α) : SortedTable κ α :=
  ⟨insertEntry k v t.entries, sorted_insertEntry k v t.sorted⟩

/-- The entries inserted one after the other. -/
def ofEntries (es : List (κ × α)) : SortedTable κ α :=
  es.foldl (fun t e => t.insert e.1 e.2) {}

theorem lookup_cons (e : κ × α) (es : List (κ × α)) (k : κ) :
    (e :: es).lookup k = if k = e.1 then some e.2 else es.lookup k := by
  rw [List.lookup_cons]
  by_cases h : k = e.1
  · simp [h]
  · rw [if_neg h, beq_false_of_ne h]

theorem lookup_insertEntry (k k' : κ) (v : α) {es : List (κ × α)} :
    (insertEntry k v es).lookup k' = if k' = k then some v else es.lookup k' := by
  induction es with
  | nil => exact lookup_cons _ _ _
  | cons e es ih =>
    unfold insertEntry
    split
    · exact lookup_cons _ _ _
    · split
      · rename_i heq
        rw [lookup_cons, lookup_cons, ← heq]
        by_cases h : k' = k
        · rw [if_pos h, if_pos h]
        · rw [if_neg h, if_neg h, if_neg h]
      · rename_i hne
        rw [lookup_cons, lookup_cons, ih]
        by_cases h : k' = k
        · rw [h, if_neg hne, if_pos rfl, if_pos rfl]
        · rw [if_neg h, if_neg h]

theorem find_insert (t : SortedTable κ α) (k k' : κ) (v : α) :
    (t.insert k v).find k' = if k' = k then some v else t.find k' := lookup_insertEntry k k' v

/-- A lookup after insertions under distinct keys. -/
theorem find_foldl_insert {es : List (κ × α)} (h : (es.map Prod.fst).Nodup) (t : SortedTable κ α)
    (k : κ) (v : α) :
    (es.foldl (fun t e => t.insert e.1 e.2) t).find k = some v ↔
      (k, v) ∈ es ∨ (k ∉ es.map Prod.fst ∧ t.find k = some v) := by
  induction es generalizing t with
  | nil => simp
  | cons e es ih =>
    obtain ⟨hne, hes⟩ := List.nodup_cons.mp h
    rw [List.foldl_cons, ih hes, find_insert]
    by_cases hk : k = e.1
    · subst hk
      have hmem : (e.1, v) ∉ es := fun hm => hne (List.mem_map.mpr ⟨_, hm, rfl⟩)
      simp [hmem, hne, Prod.ext_iff, eq_comm]
    · simp [hk, Prod.ext_iff]

/-- A sum over the values after an insertion: the new value counts instead of the one it
replaces. -/
theorem sum_insertEntry (f : α → Nat) (k : κ) (v : α) {es : List (κ × α)}
    (h : es.Pairwise fun a b => a.1 < b.1) :
    ((insertEntry k v es).map (f ·.2)).sum + ((es.lookup k).map f).getD 0 =
      (es.map (f ·.2)).sum + f v := by
  have habsent : ∀ {es : List (κ × α)}, (∀ e ∈ es, k < e.1) → es.lookup k = none := by
    intro es hes
    induction es with
    | nil => rfl
    | cons e es ih =>
      rw [lookup_cons, if_neg (hes e List.mem_cons_self).ne]
      exact ih fun e' he' => hes e' (List.mem_cons_of_mem _ he')
  induction es with
  | nil => simp [insertEntry]
  | cons e es ih =>
    obtain ⟨he, hes⟩ := List.pairwise_cons.mp h
    unfold insertEntry
    split
    · rename_i hlt
      rw [habsent (List.forall_mem_cons.mpr ⟨hlt, fun e' he' => hlt.trans (he e' he')⟩)]
      simp only [List.map_cons, List.sum_cons, Option.map_none, Option.getD_none]
      omega
    · split
      · rename_i heq
        rw [lookup_cons, if_pos heq]
        simp only [List.map_cons, List.sum_cons, Option.map_some, Option.getD_some]
        omega
      · rename_i hne
        have hrest := ih hes
        rw [lookup_cons, if_neg hne]
        simp only [List.map_cons, List.sum_cons]
        omega

theorem sum_insert (f : α → Nat) (t : SortedTable κ α) (k : κ) (v : α) :
    ((t.insert k v).entries.map (f ·.2)).sum + ((t.find k).map f).getD 0 =
      (t.entries.map (f ·.2)).sum + f v := sum_insertEntry f k v t.sorted

/-- An entry beyond the others goes to the end. -/
theorem insertEntry_last {k : κ} (v : α) {es : List (κ × α)} (h : ∀ e ∈ es, e.1 < k) :
    insertEntry k v es = es ++ [(k, v)] := by
  induction es with
  | nil => rfl
  | cons e es ih =>
    have he := h e List.mem_cons_self
    rw [insertEntry, if_neg he.not_gt, if_neg he.ne', ih fun e' h' => h e' (List.mem_cons_of_mem _ h')]
    rfl

theorem entries_foldl_insert {es : List (κ × α)} (h : es.Pairwise fun a b => a.1 < b.1)
    {t : SortedTable κ α} (ht : ∀ a ∈ t.entries, ∀ b ∈ es, a.1 < b.1) :
    (es.foldl (fun t e => t.insert e.1 e.2) t).entries = t.entries ++ es := by
  induction es generalizing t with
  | nil => simp
  | cons e es ih =>
    obtain ⟨he, hes⟩ := List.pairwise_cons.mp h
    have hlast : (t.insert e.1 e.2).entries = t.entries ++ [e] :=
      insertEntry_last e.2 fun a ha => ht a ha e List.mem_cons_self
    rw [List.foldl_cons, ih hes ?_, hlast]
    · simp
    · intro a ha b hb
      rw [hlast] at ha
      rcases List.mem_append.mp ha with ha | ha
      · exact ht a ha b (List.mem_cons_of_mem _ hb)
      · obtain rfl := List.mem_singleton.mp ha
        exact he b hb

theorem ofEntries_entries (t : SortedTable κ α) : ofEntries t.entries = t :=
  ext (entries_foldl_insert t.sorted nofun)

theorem keys_nodup (t : SortedTable κ α) : (t.entries.map Prod.fst).Nodup :=
  t.sorted.map Prod.fst fun _ _ hlt => ne_of_lt hlt

theorem find_eq_some_iff {t : SortedTable κ α} {k : κ} {v : α} :
    t.find k = some v ↔ (k, v) ∈ t.entries := by
  have h := find_foldl_insert t.keys_nodup {} k v
  have he : t.entries.foldl (fun t e => t.insert e.1 e.2) {} = t := ofEntries_entries t
  rw [he] at h
  refine h.trans ⟨fun h => h.resolve_right fun h => ?_, Or.inl⟩
  cases h.2

theorem mem_keys {t : SortedTable κ α} {k : κ} :
    k ∈ t.entries.map Prod.fst ↔ (t.find k).isSome := by
  rw [List.mem_map, Option.isSome_iff_exists]
  constructor
  · rintro ⟨⟨_, v⟩, hm, rfl⟩
    exact ⟨v, find_eq_some_iff.mpr hm⟩
  · rintro ⟨v, hv⟩
    exact ⟨(k, v), find_eq_some_iff.mp hv, rfl⟩

/-- A table is what its lookups find. -/
theorem ext_find {s t : SortedTable κ α} (h : ∀ k, s.find k = t.find k) : s = t := by
  have hnodup : ∀ t : SortedTable κ α, t.entries.Nodup := fun t =>
    List.Nodup.of_map _ t.keys_nodup
  have hperm : s.entries.Perm t.entries :=
    (List.perm_ext_iff_of_nodup (hnodup s) (hnodup t)).mpr fun e => by
      rw [← find_eq_some_iff, h, find_eq_some_iff]
  exact ext (hperm.eq_of_pairwise (fun a b _ _ hab hba => absurd hab (lt_asymm hba)) s.sorted
    t.sorted)

/-! ### Entry lists

The entries of a table inside another structure, where the order is kept apart. -/

/-- The value of a key in a list of entries. -/
def assoc (es : List (κ × α)) (k : κ) : Option α := es.lookup k

/-- The entries without that of a key. -/
def eraseEntry (k : κ) (es : List (κ × α)) : List (κ × α) := es.filter fun e => e.1 ≠ k

theorem assoc_cons (e : κ × α) (es : List (κ × α)) (k : κ) :
    assoc (e :: es) k = if k = e.1 then some e.2 else assoc es k := lookup_cons e es k

theorem assoc_insertEntry (k k' : κ) (v : α) (es : List (κ × α)) :
    assoc (insertEntry k v es) k' = if k' = k then some v else assoc es k' :=
  lookup_insertEntry k k' v

theorem assoc_eraseEntry (k k' : κ) (es : List (κ × α)) :
    assoc (eraseEntry k es) k' = if k' = k then none else assoc es k' := by
  induction es with
  | nil => simp [eraseEntry, assoc]
  | cons e es ih =>
    rw [eraseEntry, List.filter_cons, ← eraseEntry]
    by_cases he : e.1 = k
    · rw [if_neg (by simp [he]), ih, assoc_cons]
      by_cases hk : k' = k <;> simp [hk, he]
    · rw [if_pos (by simp [he]), assoc_cons, assoc_cons, ih]
      by_cases hk : k' = k
      · simp [hk, Ne.symm he]
      · simp [hk]

theorem mem_iff_assoc {es : List (κ × α)} (hs : es.Pairwise fun a b => a.1 < b.1) {k : κ} {v : α} :
    (k, v) ∈ es ↔ assoc es k = some v := (find_eq_some_iff (t := ⟨es, hs⟩)).symm

/-- The table without the entry of a key. -/
def erase (t : SortedTable κ α) (k : κ) : SortedTable κ α :=
  ⟨eraseEntry k t.entries, t.sorted.sublist List.filter_sublist⟩

theorem find_erase (t : SortedTable κ α) (k k' : κ) :
    (t.erase k).find k' = if k' = k then none else t.find k' := assoc_eraseEntry k k' t.entries

/-- What is found among entries that were inserted is one of them. -/
theorem mem_of_find_ofEntries {es : List (κ × α)} {k : κ} {v : α}
    (h : (ofEntries es).find k = some v) : (k, v) ∈ es := by
  have hfold : ∀ (es : List (κ × α)) (t : SortedTable κ α),
      (es.foldl (fun t e => t.insert e.1 e.2) t).find k = some v → (k, v) ∈ es ∨ t.find k = some v := by
    intro es
    induction es with
    | nil => exact fun _ h => .inr h
    | cons e es ih =>
      intro t h
      rcases ih _ h with hm | hf
      · exact .inl (List.mem_cons_of_mem _ hm)
      · rw [find_insert] at hf
        split at hf
        · rename_i hk
          cases hf
          exact .inl (hk ▸ List.mem_cons_self)
        · exact .inr hf
  exact (hfold es {} h).resolve_right nofun

/-- The distinct keys of a list, in order, as an ordered set keeps them. -/
def keySet (ks : List κ) : List κ :=
  (ks.foldl (fun t k => t.insert k ()) ({} : SortedTable κ Unit)).entries.map Prod.fst

theorem sorted_keySet (ks : List κ) : (keySet ks).Pairwise (· < ·) :=
  List.pairwise_map.mpr (SortedTable.sorted _)

theorem mem_keySet {ks : List κ} {k : κ} : k ∈ keySet ks ↔ k ∈ ks := by
  have hfind : ∀ (ks : List κ) (t : SortedTable κ Unit),
      (ks.foldl (fun t k => t.insert k ()) t).find k = some () ↔ k ∈ ks ∨ t.find k = some () := by
    intro ks
    induction ks with
    | nil => simp
    | cons k' ks ih =>
      intro t
      rw [List.foldl_cons, ih, find_insert, List.mem_cons]
      by_cases hk : k = k' <;> simp [hk]
  have h := hfind ks {}
  rw [find_eq_some_iff] at h
  rw [keySet, List.mem_map]
  constructor
  · rintro ⟨⟨k', u⟩, hm, rfl⟩
    refine (h.mp hm).resolve_right fun he => ?_
    cases he
  · exact fun hk => ⟨(k, ()), h.mpr (.inl hk), rfl⟩

end SortedTable

/-- Bytes are ordered by their values, so byte strings are keys in their lexicographic order. -/
instance linearOrderUInt8 : LinearOrder UInt8 :=
  LinearOrder.lift' UInt8.toNat fun _ _ => UInt8.toNat_inj.mp

end Techuila
