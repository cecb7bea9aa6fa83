import Techuila.Lib.TableDiff
import Techuila.Oggit.Trees

/-!
# Differences of trees (`13-developer-ecosystem/oggit/diff.cpp`)

* `diffTrees` walks both trees at once. Its calls nest as deep as the trees, so it has a recursion
  bound like `flattenTree`.
* `emitAll_spec`, `diffName_spec`, `diffRecursive_spec`: each step lists the changes below its path.
* `diffTrees_exact`: on well-formed trees the result lists the differences of the two flattened
  maps, in the sense of `TableDiff.IsDiff`.
-/

namespace Techuila
namespace Oggit

open Techuila.Dist (Bytes ascii)
open TableDiff (Change change IsDiff patch)

inductive DiffStatus
  | added
  | removed
  | modified
  deriving DecidableEq, Repr

structure DiffEntry where
  path : Bytes
  status : DiffStatus
  oldId : ObjectId
  newId : ObjectId
  deriving DecidableEq

/-- The entries that `f` lists for the elements of a list, one after the other. -/
def concatAll {α β : Type} (f : α → Option (List β)) : List α → Option (List β)
  | [] => some []
  | a :: as => do
    let l ← f a
    let ls ← concatAll f as
    some (l ++ ls)

/-- The common loop of `emitAllAdded` and `emitAllRemoved`, with at most `depth` nested calls. -/
def emitAll (store : ObjectStore) (make : Bytes → ObjectId → DiffEntry) :
    Nat → TreeEntry → Bytes → Option (List DiffEntry)
  | 0, _, _ => none
  | depth + 1, entry, path =>
    if !entry.isDirectory then some [make path entry.id]
    else
      match store.loadTree entry.id with
      | none => some []
      | some children =>
        concatAll (fun child => emitAll store make depth child (path ++ SLASH :: child.name)) children

def emitAllAdded (store : ObjectStore) : Nat → TreeEntry → Bytes → Option (List DiffEntry) :=
  emitAll store fun path id => ⟨path, .added, .zero, id⟩

def emitAllRemoved (store : ObjectStore) : Nat → TreeEntry → Bytes → Option (List DiffEntry) :=
  emitAll store fun path id => ⟨path, .removed, id, .zero⟩

/-- `oldByName` and `newByName`: the last entry of a name counts. -/
def byName (entries : List TreeEntry) : @SortedTable Bytes TreeEntry Preorder.toLT :=
  entries.foldl (fun t e => t.insert e.name e) {}

/-- The body of the loop over `allNames`. A name is in one of the two tables at least. -/
def diffName (store : ObjectStore) (depth : Nat)
    (diff : ObjectId → ObjectId → Bytes → Option (List DiffEntry)) (path : Bytes) :
    Option TreeEntry → Option TreeEntry → Option (List DiffEntry)
  | none, none => some []
  | some oldEntry, none => emitAllRemoved store depth oldEntry path
  | none, some newEntry => emitAllAdded store depth newEntry path
  | some oldEntry, some newEntry =>
    if oldEntry.isDirectory ≠ newEntry.isDirectory then do
      let removed ← emitAllRemoved store depth oldEntry path
      let added ← emitAllAdded store depth newEntry path
      some (removed ++ added)
    else if oldEntry.isDirectory then
      if oldEntry.id ≠ newEntry.id then diff oldEntry.id newEntry.id path else some []
    else if oldEntry.id ≠ newEntry.id then some [⟨path, .modified, oldEntry.id, newEntry.id⟩]
    else some []

def diffRecursive (store : ObjectStore) :
    Nat → ObjectId → ObjectId → Bytes → Option (List DiffEntry)
  | 0, _, _, _ => none
  | depth + 1, oldTreeId, newTreeId, dir =>
    match store.loadTree oldTreeId, store.loadTree newTreeId with
    | some oldEntries, some newEntries =>
      let oldByName := byName oldEntries
      let newByName := byName newEntries
      let allNames := SortedTable.keySet
        (oldByName.entries.map Prod.fst ++ newByName.entries.map Prod.fst)
      concatAll (fun name => diffName store depth (diffRecursive store depth) (childPath dir name)
        (oldByName.find name) (newByName.find name)) allNames
    | _, _ => some []

def diffTrees (store : ObjectStore) (depth : Nat) (oldTreeId newTreeId : ObjectId) :
    Option (List DiffEntry) :=
  if oldTreeId = newTreeId then some []
  else (diffRecursive store depth oldTreeId newTreeId []).map
    (List.insertionSort fun a b => a.path ≤ b.path)

/-! ## Entries as changes -/

/-- The entry that reports a change at a path. -/
def DiffEntry.of : Bytes × Change ObjectId → DiffEntry
  | (path, .added new) => ⟨path, .added, .zero, new⟩
  | (path, .removed old) => ⟨path, .removed, old, .zero⟩
  | (path, .modified old new) => ⟨path, .modified, old, new⟩

@[simp] theorem DiffEntry.path_of (e : Bytes × Change ObjectId) : (DiffEntry.of e).path = e.1 := by
  obtain ⟨p, c⟩ := e
  cases c <;> rfl

theorem concatAll_some {α β : Type} {f : α → Option (List β)} {as : List α} {r : List β}
    (h : concatAll f as = some r) :
    ∃ ls, List.Forall₂ (fun a l => f a = some l) as ls ∧ r = ls.flatten := by
  induction as generalizing r with
  | nil =>
    cases h
    exact ⟨[], .nil, rfl⟩
  | cons a as ih =>
    obtain ⟨l, hl, h⟩ := Option.bind_eq_some_iff.mp h
    obtain ⟨r', hr', h⟩ := Option.bind_eq_some_iff.mp h
    obtain ⟨ls, hls, rfl⟩ := ih hr'
    cases h
    exact ⟨l :: ls, .cons hl hls, rfl⟩

/-- Witnesses for the lists of the elements give one for the concatenation. -/
theorem concatAll_map {α β γ : Type} {f : α → Option (List β)} {g : γ → β} {as : List α}
    {P : α → List γ → Prop} (hf : ∀ a ∈ as, ∀ r, f a = some r → ∃ l, P a l ∧ r = l.map g)
    {r : List β} (h : concatAll f as = some r) :
    ∃ ls, List.Forall₂ P as ls ∧ r = ls.flatten.map g := by
  obtain ⟨rs, hrs, rfl⟩ := concatAll_some h
  clear h
  induction hrs with
  | nil => exact ⟨[], .nil, rfl⟩
  | @cons a r as rs ha _ ih =>
    obtain ⟨l, hl, rfl⟩ := hf a List.mem_cons_self r ha
    obtain ⟨ls, hls, hr⟩ := ih fun b hb => hf b (List.mem_cons_of_mem _ hb)
    exact ⟨l :: ls, .cons hl hls, by
      rw [List.flatten_cons, List.flatten_cons, List.map_append, hr]⟩

theorem concatAll_returns {α β : Type} {f : α → Option (List β)} {as : List α}
    (h : ∀ a ∈ as, ∃ l, f a = some l) : ∃ r, concatAll f as = some r := by
  induction as with
  | nil => exact ⟨_, rfl⟩
  | cons a as ih =>
    obtain ⟨l, hl⟩ := h a List.mem_cons_self
    obtain ⟨r, hr⟩ := ih fun b hb => h b (List.mem_cons_of_mem _ hb)
    exact ⟨l ++ r, by simp only [concatAll, hl, hr, Option.bind_eq_bind, Option.bind_some]⟩

/-! ## The changes below a path -/

variable {store : ObjectStore}

/-- What `e`, if it is there, has at a path below it. -/
def below (store : ObjectStore) (e : Option TreeEntry) (rest : List Bytes) : Option ObjectId :=
  e.bind fun e => store.fileBelow e rest

/-- An entry whose subtree, if it has one, is well formed. -/
def EntryOk (store : ObjectStore) (e : TreeEntry) : Prop :=
  e.isDirectory = true → store.WellFormed e.id

theorem EntryOk.plain {e : TreeEntry} (h : EntryOk store e) {rest : List Bytes} {blob : ObjectId}
    (hb : store.fileBelow e rest = some blob) : ∀ s ∈ rest, Plain s :=
  ObjectStore.WellFormed.plainBelow
    (fun _ he => List.mem_singleton.mp he ▸ h) List.mem_cons_self hb

/-- Every file below an entry is reported once. -/
theorem emitAll_spec {make : Bytes → ObjectId → DiffEntry} (depth : Nat) {e : TreeEntry}
    (he : EntryOk store e) {pre : List Bytes} (hne : pre ≠ []) (hpre : ∀ s ∈ pre, Plain s)
    {r : List DiffEntry} (h : emitAll store make depth e (joinPath pre) = some r) :
    ∃ l, Leaves (store.fileBelow e) pre l ∧ r = l.map fun x => make x.1 x.2 := by
  induction depth generalizing e pre r with
  | zero => cases h
  | succ depth ih =>
    unfold emitAll at h
    by_cases hd : e.isDirectory = true
    · rw [if_neg (by simp [hd])] at h
      cases he hd with
      | @mk _ entries hload hn hplain hsub =>
        rw [hload] at h
        have hpath : joinPath pre ≠ [] := joinPath_ne_nil hne hpre
        obtain ⟨ls, hls, hr⟩ := concatAll_map (g := fun x : Bytes × ObjectId => make x.1 x.2)
          (P := fun c l => Leaves (store.fileBelow c) (pre ++ [c.name]) l)
          (fun c hc r hcr => by
            rw [show joinPath pre ++ SLASH :: c.name = joinPath (pre ++ [c.name]) by
              rw [joinPath_concat, childPath, if_neg hpath]] at hcr
            exact ih (hsub c hc) (by simp) (List.forall_mem_append.mpr
              ⟨hpre, List.forall_mem_singleton.mpr (hplain c hc)⟩) hcr) h
        exact ⟨ls.flatten, leaves_directory hd
          (ObjectStore.leaves_of_entries hpre hload hn hplain hsub hls), hr⟩
    · have hf : e.isDirectory = false := by simpa using hd
      rw [if_pos (by simp [hf])] at h
      cases h
      exact ⟨_, leaves_file pre store hf, rfl⟩

theorem emitAllAdded_spec {depth : Nat} {e : TreeEntry} (he : EntryOk store e) {pre : List Bytes}
    (hne : pre ≠ []) (hpre : ∀ s ∈ pre, Plain s) {r : List DiffEntry}
    (h : emitAllAdded store depth e (joinPath pre) = some r) :
    ∃ l, Leaves (fun rest => change none (store.fileBelow e rest)) pre l ∧ r = l.map .of := by
  obtain ⟨l, hl, rfl⟩ := emitAll_spec depth he hne hpre h
  have hf : (fun rest => change none (store.fileBelow e rest)) =
      fun rest => (store.fileBelow e rest).map Change.added := by
    funext rest
    cases store.fileBelow e rest <;> rfl
  exact ⟨_, hf ▸ hl.map Change.added, by rw [List.map_map]; rfl⟩

theorem emitAllRemoved_spec {depth : Nat} {e : TreeEntry} (he : EntryOk store e) {pre : List Bytes}
    (hne : pre ≠ []) (hpre : ∀ s ∈ pre, Plain s) {r : List DiffEntry}
    (h : emitAllRemoved store depth e (joinPath pre) = some r) :
    ∃ l, Leaves (fun rest => change (store.fileBelow e rest) none) pre l ∧ r = l.map .of := by
  obtain ⟨l, hl, rfl⟩ := emitAll_spec depth he hne hpre h
  have hf : (fun rest => change (store.fileBelow e rest) none) =
      fun rest => (store.fileBelow e rest).map Change.removed := by
    funext rest
    cases store.fileBelow e rest <;> rfl
  exact ⟨_, hf ▸ hl.map Change.removed, by rw [List.map_map]; rfl⟩

/-- A file has a value at its own path only, a directory below it only. -/
theorem below_iff {e : TreeEntry} (h : EntryOk store e) {rest : List Bytes} {blob : ObjectId}
    (hb : store.fileBelow e rest = some blob) : rest = [] ↔ e.isDirectory = false := by
  unfold ObjectStore.fileBelow at hb
  split at hb
  · rename_i hd
    simp [((h hd).plain hb).1, hd]
  · rename_i hd
    split at hb
    · rename_i hr
      simp [hr, hd]
    · cases hb

theorem below_disjoint {e e' : TreeEntry} (h : EntryOk store e) (h' : EntryOk store e')
    (hd : e.isDirectory ≠ e'.isDirectory) {rest : List Bytes} {blob : ObjectId}
    (hb : store.fileBelow e rest = some blob) : store.fileBelow e' rest = none := by
  cases hb' : store.fileBelow e' rest with
  | none => rfl
  | some blob' =>
    have hiff := (below_iff h hb).symm.trans (below_iff h' hb')
    refine absurd ?_ hd
    cases hx : e.isDirectory <;> cases hy : e'.isDirectory <;> simp_all

theorem diffName_spec {depth : Nat} {diff : ObjectId → ObjectId → Bytes → Option (List DiffEntry)}
    {pre : List Bytes} (hne : pre ≠ []) (hpre : ∀ s ∈ pre, Plain s) {o n : Option TreeEntry}
    (ho : ∀ e ∈ o, EntryOk store e) (hn : ∀ e ∈ n, EntryOk store e)
    (hdiff : ∀ {a b r}, store.WellFormed a → store.WellFormed b → diff a b (joinPath pre) = some r →
      ∃ l, Leaves (fun path => change (store.fileAt a path) (store.fileAt b path)) pre l ∧
        r = l.map .of) {r : List DiffEntry}
    (h : diffName store depth diff (joinPath pre) o n = some r) :
    ∃ l, Leaves (fun rest => change (below store o rest) (below store n rest)) pre l ∧
      r = l.map .of := by
  cases o with
  | none =>
    cases n with
    | none =>
      cases h
      exact ⟨[], .nil _ fun _ => rfl, rfl⟩
    | some e => exact emitAllAdded_spec (hn e rfl) hne hpre h
  | some e =>
    cases n with
    | none => exact emitAllRemoved_spec (ho e rfl) hne hpre h
    | some e' =>
      have he := ho e rfl
      have he' := hn e' rfl
      simp only [diffName] at h
      split at h
      · rename_i hd
        obtain ⟨removed, hr, h⟩ := Option.bind_eq_some_iff.mp h
        obtain ⟨added, ha, h⟩ := Option.bind_eq_some_iff.mp h
        cases h
        obtain ⟨l₁, hl₁, rfl⟩ := emitAllRemoved_spec he hne hpre hr
        obtain ⟨l₂, hl₂, rfl⟩ := emitAllAdded_spec he' hne hpre ha
        refine ⟨l₁ ++ l₂, .append hpre ?_ ?_ ?_ ?_ hl₁ hl₂, (List.map_append ..).symm⟩
        · intro path c hc
          cases hb : store.fileBelow e path with
          | none => simp [hb, change] at hc
          | some blob => exact he.plain hb
        · intro path c hc
          cases hb : store.fileBelow e' path with
          | none => simp [hb, change] at hc
          | some blob => exact he'.plain hb
        · intro path c hc
          cases hb : store.fileBelow e path with
          | none => simp [hb, change] at hc
          | some blob => simp only [below_disjoint he he' hd hb, change]
        · intro path
          simp only [below, Option.bind_some]
          cases hb : store.fileBelow e path with
          | none => cases store.fileBelow e' path <;> rfl
          | some blob => simp only [below_disjoint he he' hd hb, change, Option.some_or]
      · rename_i hd
        rw [ne_eq, not_not] at hd
        split at h
        · rename_i hdir
          have hb : ∀ rest, below store (some e) rest = store.fileAt e.id rest :=
            fun rest => if_pos hdir
          have hb' : ∀ rest, below store (some e') rest = store.fileAt e'.id rest :=
            fun rest => if_pos (hd ▸ hdir)
          simp only [hb, hb']
          split at h
          · exact hdiff (he hdir) (he' (hd ▸ hdir)) h
          · rename_i hid
            cases h
            exact ⟨[], .nil _ fun rest => TableDiff.change_eq_none.mpr
              (by rw [not_not.mp hid]), rfl⟩
        · rename_i hdir
          have hb : ∀ rest, below store (some e) rest = if rest = [] then some e.id else none :=
            fun rest => if_neg hdir
          have hb' : ∀ rest, below store (some e') rest = if rest = [] then some e'.id else none :=
            fun rest => if_neg (hd ▸ hdir)
          split at h
          · rename_i hid
            cases h
            refine ⟨_, .singleton (b := Change.modified e.id e'.id) pre fun rest => ?_, rfl⟩
            rw [hb, hb']
            split
            · exact if_neg hid
            · rfl
          · rename_i hid
            cases h
            exact ⟨[], .nil _ fun rest => TableDiff.change_eq_none.mpr
              (by rw [hb, hb', not_not.mp hid]), rfl⟩

theorem find_byName {entries : List TreeEntry} (hn : (entries.map (·.name)).Nodup) (name : Bytes)
    (e : TreeEntry) : (byName entries).find name = some e ↔ e ∈ entries ∧ e.name = name := by
  have hkeys : ((entries.map fun e => (e.name, e)).map Prod.fst).Nodup := by
    rw [List.map_map]
    exact hn
  have h := SortedTable.find_foldl_insert hkeys {} name e
  rw [List.foldl_map] at h
  refine h.trans ⟨fun h => ?_, fun ⟨he, hname⟩ => .inl (List.mem_map.mpr ⟨e, he, by rw [hname]⟩)⟩
  rcases h with h | h
  · obtain ⟨e', he', heq⟩ := List.mem_map.mp h
    obtain ⟨hname, rfl⟩ := Prod.mk.inj heq
    exact ⟨he', hname⟩
  · cases h.2

theorem below_find {entries : List TreeEntry} {id : ObjectId}
    (hload : store.loadTree id = some entries) (hn : (entries.map (·.name)).Nodup) (name : Bytes)
    (rest : List Bytes) :
    below store ((byName entries).find name) rest = store.fileAt id (name :: rest) := by
  rw [ObjectStore.fileAt_cons hload]
  have hfind : (byName entries).find name = entries.find? (·.name == name) := by
    refine Option.ext fun e => (find_byName hn name e).trans ⟨?_, fun h => ?_⟩
    · rintro ⟨he, rfl⟩
      exact ObjectStore.find_entry hn he
    · exact ⟨List.mem_of_find?_eq_some h, by simpa using List.find?_some h⟩
  rw [hfind]
  rfl

theorem mem_keys_byName {entries : List TreeEntry} (hn : (entries.map (·.name)).Nodup)
    {name : Bytes} : name ∈ (byName entries).entries.map Prod.fst ↔
      ∃ e, e ∈ entries ∧ e.name = name := by
  rw [List.mem_map]
  constructor
  · rintro ⟨⟨_, e⟩, hm, rfl⟩
    exact ⟨e, (find_byName hn _ e).mp (SortedTable.find_eq_some_iff.mpr hm)⟩
  · rintro ⟨e, he, rfl⟩
    exact ⟨(e.name, e), SortedTable.find_eq_some_iff.mp ((find_byName hn _ e).mpr ⟨he, rfl⟩), rfl⟩

/-- Both trees at once: each path where they differ is reported once. -/
theorem diffRecursive_spec (depth : Nat) {a b : ObjectId} (ha : store.WellFormed a)
    (hb : store.WellFormed b) {pre : List Bytes} (hpre : ∀ s ∈ pre, Plain s) {r : List DiffEntry}
    (h : diffRecursive store depth a b (joinPath pre) = some r) :
    ∃ l, Leaves (fun path => change (store.fileAt a path) (store.fileAt b path)) pre l ∧
      r = l.map .of := by
  induction depth generalizing a b pre r with
  | zero => cases h
  | succ depth ih =>
    have ha' := ha
    have hb' := hb
    cases ha with
    | @mk _ as hla hna hpa hsa =>
    cases hb with
    | @mk _ bs hlb hnb hpb hsb =>
      rw [diffRecursive, hla, hlb] at h
      have hname : ∀ {name}, name ∈ SortedTable.keySet ((byName as).entries.map Prod.fst ++
          (byName bs).entries.map Prod.fst) ↔ ∃ e, (e ∈ as ∨ e ∈ bs) ∧ e.name = name := by
        intro name
        rw [SortedTable.mem_keySet, List.mem_append, mem_keys_byName hna, mem_keys_byName hnb,
          ← exists_or]
        exact exists_congr fun e => or_and_right.symm
      have hplain : ∀ {name}, name ∈ SortedTable.keySet ((byName as).entries.map Prod.fst ++
          (byName bs).entries.map Prod.fst) → Plain name := by
        intro name hm
        obtain ⟨e, he | he, rfl⟩ := hname.mp hm
        · exact hpa e he
        · exact hpb e he
      obtain ⟨ls, hls, hr⟩ := concatAll_map (g := DiffEntry.of)
        (P := fun name l => Leaves (fun rest => change (store.fileAt a (name :: rest))
          (store.fileAt b (name :: rest))) (pre ++ [name]) l)
        (fun name hm r hr => by
          rw [← joinPath_concat] at hr
          have hbelow : ∀ rest, store.fileAt a (name :: rest) =
              below store ((byName as).find name) rest := fun rest => (below_find hla hna ..).symm
          have hbelow' : ∀ rest, store.fileAt b (name :: rest) =
              below store ((byName bs).find name) rest := fun rest => (below_find hlb hnb ..).symm
          have hpre' : ∀ s ∈ pre ++ [name], Plain s :=
            List.forall_mem_append.mpr ⟨hpre, List.forall_mem_singleton.mpr (hplain hm)⟩
          simp only [hbelow, hbelow']
          exact diffName_spec (by simp) hpre'
            (fun e he => hsa e ((find_byName hna _ _).mp he).1)
            (fun e he => hsb e ((find_byName hnb _ _).mp he).1)
            (fun ha hb h => ih ha hb hpre' h) hr) h
      refine ⟨ls.flatten, .branches hpre ((SortedTable.sorted_keySet _).imp ne_of_lt)
        (fun name hm => hplain hm) (fun path c hc => ?_) hls, hr⟩
      cases hfa : store.fileAt a path with
      | some blob =>
        obtain ⟨e, he, rest, rfl, hbelow⟩ := (ObjectStore.fileAt_some hla hna).mp hfa
        exact ⟨e.name, hname.mpr ⟨e, .inl he, rfl⟩, rest, rfl, EntryOk.plain (hsa e he) hbelow⟩
      | none =>
        cases hfb : store.fileAt b path with
        | some blob =>
          obtain ⟨e, he, rest, rfl, hbelow⟩ := (ObjectStore.fileAt_some hlb hnb).mp hfb
          exact ⟨e.name, hname.mpr ⟨e, .inr he, rfl⟩, rest, rfl,
            EntryOk.plain (hsb e he) hbelow⟩
        | none =>
          rw [hfa, hfb] at hc
          cases hc

/-! ## The recursion ends -/

theorem emitAll_returns (make : Bytes → ObjectId → DiffEntry) {e : TreeEntry}
    (he : EntryOk store e) :
    ∃ n, ∀ depth ≥ n, ∀ path, ∃ r, emitAll store make depth e path = some r := by
  by_cases hd : e.isDirectory = true
  · have hwf := he hd
    generalize hid : e.id = id at hwf
    induction hwf generalizing e with
    | @mk id entries hload _ _ hsub ih =>
      have hchildren : ∀ c ∈ entries, ∃ n, ∀ depth ≥ n, ∀ path,
          ∃ r, emitAll store make depth c path = some r := by
        intro c hc
        by_cases hcd : c.isDirectory = true
        · exact ih c hc hcd (fun _ => hsub c hc hcd) hcd rfl
        · refine ⟨1, fun depth hm path => ?_⟩
          obtain ⟨depth, rfl⟩ := Nat.exists_eq_add_of_le hm
          exact ⟨_, by rw [Nat.add_comm 1, emitAll, if_pos (by simpa using hcd)]⟩
      obtain ⟨n, hn⟩ := exists_bound hchildren
      refine ⟨n + 1, fun depth hm path => ?_⟩
      obtain ⟨k, rfl⟩ := Nat.exists_eq_add_of_le hm
      rw [Nat.add_right_comm, emitAll, if_neg (by simp [hd]), hid, hload]
      exact concatAll_returns fun c hc => hn _ (Nat.le_add_right n k) c hc _
  · refine ⟨1, fun depth hm path => ?_⟩
    obtain ⟨depth, rfl⟩ := Nat.exists_eq_add_of_le hm
    exact ⟨_, by rw [Nat.add_comm 1, emitAll, if_pos (by simpa using hd)]⟩

theorem diffRecursive_returns {a b : ObjectId} (ha : store.WellFormed a)
    (hb : store.WellFormed b) :
    ∃ n, ∀ depth ≥ n, ∀ dir, ∃ r, diffRecursive store depth a b dir = some r := by
  induction ha generalizing b with
  | @mk a as hla hna _ hsa ih =>
  cases hb with
  | @mk _ bs hlb hnb _ hsb =>
    have hnames : ∀ name ∈ SortedTable.keySet ((byName as).entries.map Prod.fst ++
        (byName bs).entries.map Prod.fst), ∃ n, ∀ depth ≥ n, ∀ path, ∃ r,
          diffName store depth (diffRecursive store depth) path ((byName as).find name)
            ((byName bs).find name) = some r := by
      intro name _
      have ho : ∀ e ∈ (byName as).find name, e ∈ as := fun e he => ((find_byName hna _ _).mp he).1
      have hn : ∀ e ∈ (byName bs).find name, e ∈ bs := fun e he => ((find_byName hnb _ _).mp he).1
      cases hfa : (byName as).find name with
      | none =>
        cases hfb : (byName bs).find name with
        | none => exact ⟨0, fun _ _ _ => ⟨_, rfl⟩⟩
        | some e' => exact emitAll_returns _ (hsb e' (hn e' hfb))
      | some e =>
        have he := ho e hfa
        obtain ⟨n₁, h₁⟩ := emitAll_returns
          (fun path id => ⟨path, .removed, id, .zero⟩) (hsa e he)
        cases hfb : (byName bs).find name with
        | none => exact ⟨n₁, h₁⟩
        | some e' =>
          have he' := hn e' hfb
          obtain ⟨n₂, h₂⟩ := emitAll_returns
            (fun path id => ⟨path, .added, .zero, id⟩) (hsb e' he')
          obtain ⟨n₃, h₃⟩ : ∃ n, ∀ depth ≥ n, e.isDirectory = true → e'.isDirectory = true →
              ∀ dir, ∃ r, diffRecursive store depth e.id e'.id dir = some r := by
            by_cases hd : e.isDirectory = true ∧ e'.isDirectory = true
            · obtain ⟨n, h⟩ := ih e he hd.1 (hsb e' he' hd.2)
              exact ⟨n, fun depth hm _ _ => h depth hm⟩
            · exact ⟨0, fun _ _ h h' => absurd ⟨h, h'⟩ hd⟩
          refine ⟨max n₁ (max n₂ n₃), fun depth hm path => ?_⟩
          obtain ⟨r₁, hr₁⟩ := h₁ depth (le_of_max_le_left hm) path
          obtain ⟨r₂, hr₂⟩ := h₂ depth (le_of_max_le_left (le_of_max_le_right hm)) path
          have h₃ := h₃ depth (le_of_max_le_right (le_of_max_le_right hm))
          simp only [diffName]
          split
          · exact ⟨r₁ ++ r₂, by
              simp only [emitAllRemoved, emitAllAdded, hr₁, hr₂, Option.bind_eq_bind,
                Option.bind_some]⟩
          · rename_i hd
            rw [ne_eq, not_not] at hd
            split
            · rename_i hdir
              split
              · exact h₃ hdir (hd ▸ hdir) path
              · exact ⟨_, rfl⟩
            · split <;> exact ⟨_, rfl⟩
    obtain ⟨n, hn⟩ := exists_bound hnames
    refine ⟨n + 1, fun depth hm dir => ?_⟩
    obtain ⟨k, rfl⟩ := Nat.exists_eq_add_of_le hm
    rw [Nat.add_right_comm, diffRecursive, hla, hlb]
    exact concatAll_returns fun name hname => hn _ (Nat.le_add_right n k) name hname _

/-! ## The result -/

/-- The sorted leaves of the differences are the difference of the maps. -/
theorem isDiff_of_leaves {a b : ObjectId} {o n : Files} (ho : store.FilesOf a o)
    (hn : store.FilesOf b n) (ha : store.WellFormed a) (hb : store.WellFormed b)
    {l : List (Bytes × Change ObjectId)}
    (hl : Leaves (fun path => change (store.fileAt a path) (store.fileAt b path)) [] l) :
    IsDiff o.find n.find (l.insertionSort fun x y => x.1 ≤ y.1) := by
  have hperm := List.perm_insertionSort (fun x y : Bytes × Change ObjectId => x.1 ≤ y.1) l
  refine ⟨?_, fun p c => hperm.mem_iff.trans ((hl.2 p c).trans ⟨?_, fun hc => ?_⟩)⟩
  · have hnodup : ((l.insertionSort fun x y => x.1 ≤ y.1).map Prod.fst).Nodup :=
      (hperm.map _).nodup_iff.mpr hl.1
    have hle := List.pairwise_insertionSort (fun x y : Bytes × Change ObjectId => x.1 ≤ y.1) l
    exact (hle.and (List.pairwise_map.mp hnodup)).imp fun h => lt_of_le_of_ne h.1 h.2
  · rintro ⟨path, rfl, hc⟩
    dsimp only at hc
    have hplain : ∀ s ∈ path, Plain s := by
      cases hfa : store.fileAt a path with
      | some blob => exact (ha.plain hfa).2
      | none =>
        cases hfb : store.fileAt b path with
        | some blob => exact (hb.plain hfb).2
        | none =>
          rw [hfa, hfb] at hc
          cases hc
    rw [List.nil_append, ho.find_joinPath ha hplain, hn.find_joinPath hb hplain, hc]
  · obtain ⟨path, rfl, hplain⟩ : ∃ path, joinPath path = p ∧ ∀ s ∈ path, Plain s := by
      cases hfo : o.find p with
      | some blob =>
        obtain ⟨path, hj, hf⟩ := (ho p blob).mp hfo
        exact ⟨path, hj, (ha.plain hf).2⟩
      | none =>
        cases hfn : n.find p with
        | some blob =>
          obtain ⟨path, hj, hf⟩ := (hn p blob).mp hfn
          exact ⟨path, hj, (hb.plain hf).2⟩
        | none =>
          rw [hfo, hfn] at hc
          cases hc
    rw [ho.find_joinPath ha hplain, hn.find_joinPath hb hplain] at hc
    exact ⟨path, rfl, hc⟩

/-- What `diffTrees` returns, for any bound under which it returns. -/
theorem diffTrees_spec {a b : ObjectId} {o n : Files} (ho : store.FilesOf a o)
    (hn : store.FilesOf b n) (ha : store.WellFormed a) (hb : store.WellFormed b) {depth : Nat}
    {r : List DiffEntry} (h : diffTrees store depth a b = some r) :
    ∃ l, IsDiff o.find n.find l ∧ r = l.map .of := by
  unfold diffTrees at h
  split at h
  · rename_i hab
    subst hab
    cases h
    obtain rfl := ho.unique hn
    exact ⟨[], ⟨List.Pairwise.nil, fun k c => ⟨fun hm => absurd hm List.not_mem_nil, fun hc => by
      rw [TableDiff.change_eq_none.mpr rfl] at hc
      cases hc⟩⟩, rfl⟩
  · obtain ⟨r', hr', rfl⟩ := Option.map_eq_some_iff.mp h
    obtain ⟨l, hl, rfl⟩ := diffRecursive_spec depth ha hb (List.forall_mem_nil _) hr'
    refine ⟨_, isDiff_of_leaves ho hn ha hb hl, ?_⟩
    exact (List.map_insertionSort _ _ _ _ fun x _ y _ => by
      rw [DiffEntry.path_of, DiffEntry.path_of]).symm

theorem diffTrees_returns {a b : ObjectId} (ha : store.WellFormed a) (hb : store.WellFormed b) :
    ∃ k, ∀ depth ≥ k, ∃ r, diffTrees store depth a b = some r := by
  obtain ⟨k, hk⟩ := diffRecursive_returns ha hb
  refine ⟨k, fun depth hd => ?_⟩
  unfold diffTrees
  split
  · exact ⟨_, rfl⟩
  · obtain ⟨r, hr⟩ := hk depth hd []
    exact ⟨_, congrArg _ hr⟩

/-- Both directions of a diff on well-formed trees, whatever the recursion bound is from some
bound on. -/
theorem diffTrees_exact {a b : ObjectId} (ha : store.WellFormed a) (hb : store.WellFormed b) :
    ∃ o n l, store.Flattens a o ∧ store.Flattens b n ∧ IsDiff o.find n.find l ∧
      (∃ k, ∀ depth ≥ k, diffTrees store depth a b = some (l.map .of) ∧
        diffTrees store depth b a = some ((l.map fun e => (e.1, e.2.swap)).map .of)) ∧
      patch o.find l = n.find ∧ (l = [] ↔ o = n) := by
  obtain ⟨o, hfo, ho⟩ := ha.flattens
  obtain ⟨n, hfn, hn⟩ := hb.flattens
  obtain ⟨k, hk⟩ := diffTrees_returns ha hb
  obtain ⟨k', hk'⟩ := diffTrees_returns hb ha
  obtain ⟨r, hr⟩ := hk k (Nat.le_refl k)
  obtain ⟨l, hl, -⟩ := diffTrees_spec ho hn ha hb hr
  refine ⟨o, n, l, hfo, hfn, hl, ⟨max k k', fun depth hd => ⟨?_, ?_⟩⟩, hl.patch, ?_⟩
  · obtain ⟨r, hr⟩ := hk depth (le_of_max_le_left hd)
    obtain ⟨l', hl', rfl⟩ := diffTrees_spec ho hn ha hb hr
    rw [hr, hl'.unique hl]
  · obtain ⟨r, hr⟩ := hk' depth (le_of_max_le_right hd)
    obtain ⟨l', hl', rfl⟩ := diffTrees_spec hn ho hb ha hr
    rw [hr, hl'.unique hl.swap]
  · rw [hl.eq_nil_iff]
    exact ⟨fun h => SortedTable.ext_find fun p => congrFun h p, fun h => h ▸ rfl⟩

/-- A tree with one file and the empty tree. -/
theorem diffTrees_exact_emptied :
    let file : TreeEntry := ⟨ascii "f", .zero, false⟩
    let one := ({} : ObjectStore).writeObject .tree (serializeTree [file])
    let empty := one.2.writeObject .tree (serializeTree [])
    ∃ o n l, empty.2.Flattens one.1 o ∧ empty.2.Flattens empty.1 n ∧ IsDiff o.find n.find l ∧
      (∃ k, ∀ depth ≥ k, diffTrees empty.2 depth one.1 empty.1 = some (l.map .of) ∧
        diffTrees empty.2 depth empty.1 one.1 = some ((l.map fun e => (e.1, e.2.swap)).map .of)) ∧
      patch o.find l = n.find ∧ (l = [] ↔ o = n) := by
  intro file one empty
  have hone : empty.2.WellFormed one.1 :=
    .mk (show empty.2.loadTree one.1 = some [file] by decide +kernel) (List.nodup_singleton _)
      (List.forall_mem_singleton.mpr ⟨by decide, by decide⟩)
      (List.forall_mem_singleton.mpr fun h => absurd h (by decide))
  have hempty : empty.2.WellFormed empty.1 :=
    .mk (show empty.2.loadTree empty.1 = some [] by decide +kernel) List.nodup_nil (List.forall_mem_nil _)
      (List.forall_mem_nil _)
  exact diffTrees_exact hone hempty

end Oggit
end Techuila
