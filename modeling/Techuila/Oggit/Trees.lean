import Techuila.Oggit.ObjectStore

/-!
# Trees in a store and the files in them (`flattenTree` of `13-developer-ecosystem/oggit/merge.cpp`)

* `joinPath`, `splitPath`: a path as one string and as its segments. Plain segments (not empty,
  without '/') can be told from the string: `splitPath_joinPath`.
* `ObjectStore.WellFormed`: a tree that is readable with all its subtrees, with plain distinct names.
* `ObjectStore.fileAt`: the blob at a path of segments, one tree after the other.
* `Leaves`: a list with one entry for each file below a path. `flattenTree_leaves`: flattening a
  well-formed tree inserts its leaves, so that a lookup in the result is `fileAt`
  (`flattenTree_spec`).
* A tree may be recursive without end, so `flattenTree` has a recursion bound; `none` is a
  recursion beyond it. Well-formed trees have a bound (`flattenTree_returns`).
-/

namespace Techuila
namespace Oggit

open Techuila.Dist (Bytes ascii)

/-! ## Paths -/

/-- '/'. -/
def SLASH : UInt8 := 47

/-- `prefix.empty() ? name : prefix + "/" + name`. -/
def childPath (dir name : Bytes) : Bytes := if dir = [] then name else dir ++ SLASH :: name

/-- The path of `segments` below `dir`. -/
def pathUnder (dir : Bytes) (segments : List Bytes) : Bytes := segments.foldl childPath dir

def joinPath (segments : List Bytes) : Bytes := pathUnder [] segments

/-- The loop of `splitPath`, with the segment that is being read. -/
def splitLoop (current : Bytes) : Bytes → List Bytes
  | [] => if current = [] then [] else [current]
  | c :: path =>
    if c = SLASH then
      if current = [] then splitLoop [] path else current :: splitLoop [] path
    else splitLoop (current ++ [c]) path

def splitPath (path : Bytes) : List Bytes := splitLoop [] path

/-- A segment that stands for itself in a path. -/
def Plain (name : Bytes) : Prop := name ≠ [] ∧ SLASH ∉ name

theorem splitLoop_name {name : Bytes} (h : SLASH ∉ name) (current rest : Bytes) :
    splitLoop current (name ++ rest) = splitLoop (current ++ name) rest := by
  induction name generalizing current with
  | nil => rw [List.append_nil]; rfl
  | cons c name ih =>
    have hc : c ≠ SLASH := fun e => h (e ▸ List.mem_cons_self)
    rw [List.cons_append, splitLoop, if_neg hc, ih fun hm => h (List.mem_cons_of_mem _ hm),
      List.append_assoc]
    rfl

theorem pathUnder_ne_nil {dir : Bytes} {segments : List Bytes} (hd : dir ≠ []) :
    pathUnder dir segments ≠ [] := by
  induction segments generalizing dir with
  | nil => exact hd
  | cons s segments ih => exact ih (by rw [childPath, if_neg hd]; simp)

/-- Below a directory, each segment stands behind a '/'. -/
theorem pathUnder_eq {dir : Bytes} (hd : dir ≠ []) (segments : List Bytes) :
    pathUnder dir segments = dir ++ segments.flatMap fun s => SLASH :: s := by
  induction segments generalizing dir with
  | nil => simp [pathUnder]
  | cons s segments ih =>
    have he : childPath dir s = dir ++ SLASH :: s := if_neg hd
    rw [pathUnder, List.foldl_cons, ← pathUnder, he, ih (by simp), List.flatMap_cons,
      List.append_assoc]

theorem joinPath_cons (s : Bytes) (segments : List Bytes) :
    joinPath (s :: segments) = pathUnder s segments := rfl

theorem joinPath_append (pre segments : List Bytes) :
    joinPath (pre ++ segments) = pathUnder (joinPath pre) segments := List.foldl_append

theorem joinPath_concat (pre : List Bytes) (name : Bytes) :
    joinPath (pre ++ [name]) = childPath (joinPath pre) name := joinPath_append pre [name]

theorem splitLoop_segments {segments : List Bytes} (h : ∀ s ∈ segments, Plain s) {current : Bytes}
    (hc : current ≠ []) :
    splitLoop current (segments.flatMap fun s => SLASH :: s) = current :: segments := by
  induction segments generalizing current with
  | nil => rw [List.flatMap_nil, splitLoop, if_neg hc]
  | cons s segments ih =>
    obtain ⟨hne, hs⟩ := h s List.mem_cons_self
    rw [List.flatMap_cons, List.cons_append, splitLoop, if_pos rfl, if_neg hc, splitLoop_name hs,
      List.nil_append, ih (fun s' hs' => h s' (List.mem_cons_of_mem _ hs')) hne]

theorem splitPath_joinPath {segments : List Bytes} (h : ∀ s ∈ segments, Plain s) :
    splitPath (joinPath segments) = segments := by
  cases segments with
  | nil => rfl
  | cons s segments =>
    obtain ⟨hne, hs⟩ := h s List.mem_cons_self
    rw [joinPath_cons, pathUnder_eq hne, splitPath, splitLoop_name hs, List.nil_append,
      splitLoop_segments (fun s' hs' => h s' (List.mem_cons_of_mem _ hs')) hne]

theorem splitLoop_below {segments : List Bytes} (h : ∀ s ∈ segments, Plain s) {current : Bytes}
    (hc : current ≠ []) (rest : Bytes) :
    splitLoop current ((segments.flatMap fun s => SLASH :: s) ++ SLASH :: rest) =
      current :: segments ++ splitPath rest := by
  induction segments generalizing current with
  | nil =>
    rw [List.flatMap_nil, List.nil_append, splitLoop, if_pos rfl, if_neg hc]
    rfl
  | cons s segments ih =>
    obtain ⟨hne, hs⟩ := h s List.mem_cons_self
    rw [List.flatMap_cons, List.append_assoc, List.cons_append, splitLoop, if_pos rfl, if_neg hc,
      splitLoop_name hs, List.nil_append, ih (fun s' hs' => h s' (List.mem_cons_of_mem _ hs')) hne]
    rfl

/-- The segments of what is behind a path come behind its own. -/
theorem splitPath_below {path : List Bytes} (hne : path ≠ []) (h : ∀ s ∈ path, Plain s)
    (rest : Bytes) : splitPath (joinPath path ++ SLASH :: rest) = path ++ splitPath rest := by
  obtain ⟨s, segments, rfl⟩ := List.exists_cons_of_ne_nil hne
  obtain ⟨hs, hsegments⟩ := List.forall_mem_cons.mp h
  rw [joinPath_cons, pathUnder_eq hs.1, List.append_assoc, splitPath, splitLoop_name hs.2,
    List.nil_append, splitLoop_below hsegments hs.1]

theorem joinPath_ne_nil {path : List Bytes} (hne : path ≠ []) (h : ∀ s ∈ path, Plain s) :
    joinPath path ≠ [] := by
  cases path with
  | nil => exact absurd rfl hne
  | cons s path =>
    rw [joinPath_cons]
    exact pathUnder_ne_nil (h s List.mem_cons_self).1

theorem joinPath_inj {segments segments' : List Bytes} (h : ∀ s ∈ segments, Plain s)
    (h' : ∀ s ∈ segments', Plain s) (e : joinPath segments = joinPath segments') :
    segments = segments' := by
  rw [← splitPath_joinPath h, e, splitPath_joinPath h']

/-! ## Trees in a store -/

namespace ObjectStore

/-- The entries of a tree object. -/
def loadTree (store : ObjectStore) (id : ObjectId) : Option (List TreeEntry) :=
  match store.readObject id with
  | .ok (.tree, content) => parseTree content
  | _ => none

/-- The blob at a path, given by its segments. -/
def fileAt (store : ObjectStore) (id : ObjectId) : List Bytes → Option ObjectId
  | [] => none
  | name :: rest => do
    let entries ← store.loadTree id
    let entry ← entries.find? (·.name == name)
    if entry.isDirectory then fileAt store entry.id rest
    else if rest = [] then some entry.id else none

/-- A readable tree with plain distinct names whose subtrees are well formed. -/
inductive WellFormed (store : ObjectStore) : ObjectId → Prop
  | mk {id : ObjectId} {entries : List TreeEntry} : store.loadTree id = some entries →
      (entries.map (·.name)).Nodup → (∀ e ∈ entries, Plain e.name) →
      (∀ e ∈ entries, e.isDirectory = true → WellFormed store e.id) → WellFormed store id

/-- The blob at a path below an entry. -/
def fileBelow (store : ObjectStore) (entry : TreeEntry) (rest : List Bytes) : Option ObjectId :=
  if entry.isDirectory then store.fileAt entry.id rest
  else if rest = [] then some entry.id else none

theorem fileAt_cons {store : ObjectStore} {id : ObjectId} {entries : List TreeEntry}
    (h : store.loadTree id = some entries) (name : Bytes) (rest : List Bytes) :
    store.fileAt id (name :: rest) =
      (entries.find? (·.name == name)).bind fun e => store.fileBelow e rest := by
  rw [fileAt, h]
  rfl

/-- In a list of entries with distinct names, each entry is found under its name. -/
theorem find_entry {entries : List TreeEntry} (hn : (entries.map (·.name)).Nodup) {e : TreeEntry}
    (he : e ∈ entries) : entries.find? (·.name == e.name) = some e := by
  induction entries with
  | nil => cases he
  | cons e' entries ih =>
    obtain ⟨hne, hn⟩ := List.nodup_cons.mp hn
    rcases List.mem_cons.mp he with rfl | he
    · rw [List.find?_cons_of_pos (by simp)]
    · have hname : e'.name ≠ e.name := fun h => hne (List.mem_map.mpr ⟨e, he, h.symm⟩)
      rw [List.find?_cons_of_neg (by simpa using hname)]
      exact ih hn he

theorem fileAt_some {store : ObjectStore} {id : ObjectId} {entries : List TreeEntry}
    (h : store.loadTree id = some entries) (hn : (entries.map (·.name)).Nodup) {path : List Bytes}
    {blob : ObjectId} :
    store.fileAt id path = some blob ↔
      ∃ e ∈ entries, ∃ rest, path = e.name :: rest ∧ store.fileBelow e rest = some blob := by
  constructor
  · intro hf
    cases path with
    | nil => cases hf
    | cons name rest =>
      rw [fileAt_cons h] at hf
      obtain ⟨e, he, hb⟩ := Option.bind_eq_some_iff.mp hf
      have hname := List.find?_some he
      simp only [beq_iff_eq] at hname
      exact ⟨e, List.mem_of_find?_eq_some he, rest, by rw [hname], hb⟩
  · rintro ⟨e, he, rest, rfl, hb⟩
    rw [fileAt_cons h, find_entry hn he]
    exact hb

/-- The paths of a well-formed tree have plain segments. -/
theorem WellFormed.plain {store : ObjectStore} {id : ObjectId} (h : store.WellFormed id)
    {path : List Bytes} {blob : ObjectId} (hf : store.fileAt id path = some blob) :
    path ≠ [] ∧ ∀ s ∈ path, Plain s := by
  induction h generalizing path with
  | mk hload hn hplain _ ih =>
    obtain ⟨e, he, rest, rfl, hb⟩ := (fileAt_some hload hn).mp hf
    refine ⟨List.cons_ne_nil _ _, List.forall_mem_cons.mpr ⟨hplain e he, ?_⟩⟩
    unfold fileBelow at hb
    split at hb
    · rename_i hd
      exact (ih e he hd hb).2
    · split at hb
      · rename_i hr
        rw [hr]
        exact List.forall_mem_nil _
      · cases hb

end ObjectStore

/-! ## The leaves of a tree -/

/-- `l` has one entry for each path below `pre` that `f` gives a value for. -/
def Leaves {β : Type} (f : List Bytes → Option β) (pre : List Bytes) (l : List (Bytes × β)) : Prop :=
  (l.map Prod.fst).Nodup ∧
    ∀ p b, (p, b) ∈ l ↔ ∃ path, joinPath (pre ++ path) = p ∧ f path = some b

theorem Leaves.nil {β : Type} {f : List Bytes → Option β} (pre : List Bytes)
    (h : ∀ path, f path = none) : Leaves f pre [] :=
  ⟨List.nodup_nil, fun p b => ⟨fun hm => absurd hm List.not_mem_nil, fun ⟨path, _, hf⟩ => by
    rw [h] at hf
    cases hf⟩⟩

/-- A value at the path itself only. -/
theorem Leaves.singleton {β : Type} {f : List Bytes → Option β} (pre : List Bytes) {b : β}
    (h : ∀ path, f path = if path = [] then some b else none) : Leaves f pre [(joinPath pre, b)] := by
  refine ⟨List.nodup_singleton _, fun p b' => ?_⟩
  simp only [List.mem_singleton, Prod.mk.injEq, h]
  constructor
  · rintro ⟨rfl, rfl⟩
    exact ⟨[], by rw [List.append_nil], if_pos rfl⟩
  · rintro ⟨path, hj, hb⟩
    split at hb
    · rename_i hr
      subst hr
      cases hb
      exact ⟨by rw [← hj, List.append_nil], rfl⟩
    · cases hb

theorem Leaves.map {β γ : Type} {f : List Bytes → Option β} {pre : List Bytes}
    {l : List (Bytes × β)} (h : Leaves f pre l) (g : β → γ) :
    Leaves (fun path => (f path).map g) pre (l.map fun x => (x.1, g x.2)) := by
  refine ⟨by rw [List.map_map]; exact h.1, fun p c => ?_⟩
  rw [List.mem_map]
  constructor
  · rintro ⟨⟨p, b⟩, hm, he⟩
    cases he
    obtain ⟨path, hj, hf⟩ := (h.2 p b).mp hm
    exact ⟨path, hj, by simp only [hf, Option.map_some]⟩
  · rintro ⟨path, hj, hf⟩
    obtain ⟨b, hb, rfl⟩ := Option.map_eq_some_iff.mp hf
    exact ⟨(p, b), (h.2 p b).mpr ⟨path, hj, hb⟩, rfl⟩

/-- Two lists of leaves for paths that do not meet. -/
theorem Leaves.append {β : Type} {f f₁ f₂ : List Bytes → Option β} {pre : List Bytes}
    (hpre : ∀ s ∈ pre, Plain s) (hp₁ : ∀ path b, f₁ path = some b → ∀ s ∈ path, Plain s)
    (hp₂ : ∀ path b, f₂ path = some b → ∀ s ∈ path, Plain s)
    (hdisj : ∀ path b, f₁ path = some b → f₂ path = none)
    (hf : ∀ path, f path = (f₁ path).or (f₂ path)) {l₁ l₂ : List (Bytes × β)}
    (h₁ : Leaves f₁ pre l₁) (h₂ : Leaves f₂ pre l₂) : Leaves f pre (l₁ ++ l₂) := by
  refine ⟨?_, fun p b => ?_⟩
  · rw [List.map_append, List.nodup_append]
    refine ⟨h₁.1, h₂.1, fun p hp q hq => ?_⟩
    rintro rfl
    obtain ⟨⟨_, b⟩, hm, rfl⟩ := List.mem_map.mp hp
    obtain ⟨⟨_, b'⟩, hm', rfl⟩ := List.mem_map.mp hq
    obtain ⟨path, hj, hb⟩ := (h₁.2 _ _).mp hm
    obtain ⟨path', hj', hb'⟩ := (h₂.2 _ _).mp hm'
    have he := joinPath_inj (List.forall_mem_append.mpr ⟨hpre, hp₁ _ _ hb⟩)
      (List.forall_mem_append.mpr ⟨hpre, hp₂ _ _ hb'⟩) (hj.trans hj'.symm)
    obtain rfl := List.append_cancel_left he
    rw [hdisj _ _ hb] at hb'
    cases hb'
  · rw [List.mem_append, h₁.2, h₂.2]
    constructor
    · rintro (⟨path, hj, hb⟩ | ⟨path, hj, hb⟩)
      · exact ⟨path, hj, by rw [hf, hb]; rfl⟩
      · refine ⟨path, hj, ?_⟩
        cases h : f₁ path with
        | none => rw [hf, h]; exact hb
        | some b' =>
          rw [hdisj _ _ h] at hb
          cases hb
    · rintro ⟨path, hj, hb⟩
      rw [hf] at hb
      cases h : f₁ path with
      | none =>
        rw [h] at hb
        exact .inr ⟨path, hj, hb⟩
      | some b' =>
        rw [h] at hb
        exact .inl ⟨path, hj, h.trans hb⟩

/-- The leaves below each of the names that paths start with, one name after the other. -/
theorem Leaves.branches {β : Type} {f : List Bytes → Option β} {pre : List Bytes}
    (hpre : ∀ s ∈ pre, Plain s) {names : List Bytes} (hn : names.Nodup)
    (hplain : ∀ name ∈ names, Plain name) (hf : ∀ path b, f path = some b →
      ∃ name ∈ names, ∃ rest, path = name :: rest ∧ ∀ s ∈ rest, Plain s)
    {ls : List (List (Bytes × β))}
    (h : List.Forall₂ (fun name l => Leaves (fun rest => f (name :: rest)) (pre ++ [name]) l)
      names ls) : Leaves f pre ls.flatten := by
  have hpath : ∀ name rest, joinPath (pre ++ [name] ++ rest) = joinPath (pre ++ name :: rest) :=
    fun name rest => by rw [List.append_assoc]; rfl
  have hinj : ∀ {name name' rest rest' b b'}, f (name :: rest) = some b →
      f (name' :: rest') = some b' →
      joinPath (pre ++ name :: rest) = joinPath (pre ++ name' :: rest') → name = name' := by
    intro name name' rest rest' b b' hb hb' hj
    obtain ⟨_, hm, _, he, hr⟩ := hf _ _ hb
    obtain ⟨_, hm', _, he', hr'⟩ := hf _ _ hb'
    obtain ⟨rfl, rfl⟩ := List.cons_eq_cons.mp he
    obtain ⟨rfl, rfl⟩ := List.cons_eq_cons.mp he'
    have heq := joinPath_inj
      (List.forall_mem_append.mpr ⟨hpre, List.forall_mem_cons.mpr ⟨hplain _ hm, hr⟩⟩)
      (List.forall_mem_append.mpr ⟨hpre, List.forall_mem_cons.mpr ⟨hplain _ hm', hr'⟩⟩) hj
    exact (List.cons_eq_cons.mp (List.append_cancel_left heq)).1
  -- the names that the loop has passed: their leaves are collected
  suffices (ls.flatten.map Prod.fst).Nodup ∧ ∀ p b, (p, b) ∈ ls.flatten ↔
      ∃ name ∈ names, ∃ rest, joinPath (pre ++ name :: rest) = p ∧ f (name :: rest) = some b by
    refine ⟨this.1, fun p b => (this.2 p b).trans ⟨?_, ?_⟩⟩
    · rintro ⟨name, _, rest, hj, hb⟩
      exact ⟨_, hj, hb⟩
    · rintro ⟨path, hj, hb⟩
      obtain ⟨name, hm, rest, rfl, _⟩ := hf _ _ hb
      exact ⟨name, hm, rest, hj, hb⟩
  clear hf hplain
  induction h with
  | nil => exact ⟨List.nodup_nil, fun p b => by simp⟩
  | @cons name l names ls hl _ ih =>
    obtain ⟨hne, hn⟩ := List.nodup_cons.mp hn
    obtain ⟨ihn, ihm⟩ := ih hn
    refine ⟨?_, fun p b => ?_⟩
    · rw [List.flatten_cons, List.map_append, List.nodup_append]
      refine ⟨hl.1, ihn, fun p hp q hq => ?_⟩
      rintro rfl
      obtain ⟨⟨_, b⟩, hm, rfl⟩ := List.mem_map.mp hp
      obtain ⟨⟨_, b'⟩, hm', rfl⟩ := List.mem_map.mp hq
      obtain ⟨rest, hj, hb⟩ := (hl.2 _ _).mp hm
      obtain ⟨name', hname', rest', hj', hb'⟩ := (ihm _ _).mp hm'
      obtain rfl := hinj hb hb' ((hpath ..).symm.trans (hj.trans hj'.symm))
      exact hne hname'
    · rw [List.flatten_cons, List.mem_append, hl.2, ihm]
      simp only [hpath, List.exists_mem_cons_iff]

namespace ObjectStore

variable {store : ObjectStore}

theorem WellFormed.plainBelow {entries : List TreeEntry}
    (hsub : ∀ e ∈ entries, e.isDirectory = true → store.WellFormed e.id) {e : TreeEntry}
    (he : e ∈ entries) {rest : List Bytes} {blob : ObjectId}
    (hb : store.fileBelow e rest = some blob) : ∀ s ∈ rest, Plain s := by
  unfold fileBelow at hb
  split at hb
  · rename_i hd
    exact ((hsub e he hd).plain hb).2
  · split at hb
    · rename_i hr
      rw [hr]
      exact List.forall_mem_nil _
    · cases hb

/-- The leaves below the entries of a tree, one entry after the other. -/
theorem leaves_of_entries {id : ObjectId} {pre : List Bytes} (hpre : ∀ s ∈ pre, Plain s)
    {entries : List TreeEntry} (hload : store.loadTree id = some entries)
    (hn : (entries.map (·.name)).Nodup) (hplain : ∀ e ∈ entries, Plain e.name)
    (hsub : ∀ e ∈ entries, e.isDirectory = true → store.WellFormed e.id)
    {ls : List (List (Bytes × ObjectId))}
    (h : List.Forall₂ (fun e l => Leaves (store.fileBelow e) (pre ++ [e.name]) l) entries ls) :
    Leaves (store.fileAt id) pre ls.flatten := by
  have hmem := (List.forall₂_and_left (p := (· ∈ entries)) entries ls).mpr ⟨fun _ he => he, h⟩
  refine .branches hpre hn (List.forall_mem_map.mpr hplain) (fun path blob hf => ?_)
    (List.forall₂_map_left_iff.mpr (hmem.imp fun e l ⟨he, hl⟩ => ?_))
  · obtain ⟨e, he, rest, rfl, hb⟩ := (fileAt_some hload hn).mp hf
    exact ⟨e.name, List.mem_map.mpr ⟨e, he, rfl⟩, rest, rfl, WellFormed.plainBelow hsub he hb⟩
  · have hfun : (fun rest => store.fileAt id (e.name :: rest)) = store.fileBelow e :=
      funext fun rest => by rw [fileAt_cons hload, find_entry hn he]; rfl
    rw [hfun]
    exact hl

end ObjectStore

/-! ## Flattening -/

/-- The files of a tree by path. -/
abbrev Files := @SortedTable Bytes ObjectId Preorder.toLT

/-- The loop of `flattenTree` over the entries of a directory. -/
def flattenEntries (flatten : ObjectId → Bytes → Files → Option (Option Files)) (dir : Bytes) :
    List TreeEntry → Files → Option (Option Files)
  | [], out => some (some out)
  | entry :: entries, out =>
    let path := childPath dir entry.name
    if entry.isDirectory then
      match flatten entry.id path out with
      | some (some out) => flattenEntries flatten dir entries out
      | failed => failed
    else flattenEntries flatten dir entries (out.insert path entry.id)

/-- `flattenTree`, with at most `depth` calls inside each other: `none` beyond that, `some none`
where the source returns false. -/
def flattenTree (store : ObjectStore) : Nat → ObjectId → Bytes → Files → Option (Option Files)
  | 0, _, _, _ => none
  | depth + 1, treeId, dir, out =>
    match store.loadTree treeId with
    | none => some none
    | some entries => flattenEntries (flattenTree store depth) dir entries out

def insertAll (out : Files) (l : List (Bytes × ObjectId)) : Files :=
  l.foldl (fun t e => t.insert e.1 e.2) out

theorem insertAll_append (out : Files) (l l' : List (Bytes × ObjectId)) :
    insertAll out (l ++ l') = insertAll (insertAll out l) l' := List.foldl_append

theorem leaves_file (pre : List Bytes) (store : ObjectStore) {e : TreeEntry}
    (h : e.isDirectory = false) : Leaves (store.fileBelow e) pre [(joinPath pre, e.id)] :=
  .singleton pre fun path => by rw [ObjectStore.fileBelow, h, if_neg Bool.false_ne_true]

theorem leaves_directory {pre : List Bytes} {store : ObjectStore} {e : TreeEntry}
    (h : e.isDirectory = true) {l : List (Bytes × ObjectId)}
    (hl : Leaves (store.fileAt e.id) pre l) : Leaves (store.fileBelow e) pre l := by
  have hf : store.fileBelow e = store.fileAt e.id := funext fun _ => if_pos h
  rw [hf]
  exact hl

/-- Whatever flattening a well-formed tree returns, it is the table with the tree's leaves
inserted. -/
theorem flattenTree_leaves {store : ObjectStore} (depth : Nat) {id : ObjectId}
    (hwf : store.WellFormed id) {pre : List Bytes} (hpre : ∀ s ∈ pre, Plain s) {out : Files}
    {r : Option Files} (h : flattenTree store depth id (joinPath pre) out = some r) :
    ∃ l, Leaves (store.fileAt id) pre l ∧ r = some (insertAll out l) := by
  induction depth generalizing id pre out r with
  | zero => cases h
  | succ depth ih =>
    cases hwf with
    | @mk _ entries hload hn hplain hsub =>
      have hloop : ∀ es : List TreeEntry, (∀ e ∈ es, e ∈ entries) → ∀ out r,
          flattenEntries (flattenTree store depth) (joinPath pre) es out = some r →
          ∃ ls, List.Forall₂ (fun e l => Leaves (store.fileBelow e) (pre ++ [e.name]) l) es ls ∧
            r = some (insertAll out ls.flatten) := by
        intro es
        induction es with
        | nil =>
          intro _ out r h
          cases h
          exact ⟨[], .nil, rfl⟩
        | cons e es ihes =>
          intro hes out r h
          have hmem := hes e List.mem_cons_self
          have hes' : ∀ e' ∈ es, e' ∈ entries := fun e' he' => hes e' (List.mem_cons_of_mem _ he')
          have hpre' : ∀ s ∈ pre ++ [e.name], Plain s :=
            List.forall_mem_append.mpr ⟨hpre, List.forall_mem_singleton.mpr (hplain e hmem)⟩
          simp only [flattenEntries, ← joinPath_concat] at h
          split at h
          · rename_i hd
            cases hf : flattenTree store depth e.id (joinPath (pre ++ [e.name])) out with
            | none =>
              rw [hf] at h
              cases h
            | some r' =>
              obtain ⟨l, hl, rfl⟩ := ih (hsub e hmem hd) hpre' hf
              rw [hf] at h
              obtain ⟨ls, hls, hr⟩ := ihes hes' _ _ h
              exact ⟨l :: ls, .cons (leaves_directory hd hl) hls, by
                rw [hr, List.flatten_cons, insertAll_append]⟩
          · rename_i hd
            obtain ⟨ls, hls, hr⟩ := ihes hes' _ _ h
            exact ⟨_ :: ls, .cons (leaves_file _ store (by simpa using hd)) hls, hr⟩
      rw [flattenTree, hload] at h
      obtain ⟨ls, hls, hr⟩ := hloop entries (fun _ he => he) out r h
      exact ⟨_, ObjectStore.leaves_of_entries hpre hload hn hplain hsub hls, hr⟩

/-- The loop returns where every subtree does, however the table has grown until then. -/
theorem flattenEntries_returns {flatten : ObjectId → Bytes → Files → Option (Option Files)}
    {entries : List TreeEntry} (h : ∀ e ∈ entries, e.isDirectory = true → ∀ path out,
      ∃ r, flatten e.id path out = some r) (dir : Bytes) (out : Files) :
    ∃ r, flattenEntries flatten dir entries out = some r := by
  induction entries generalizing out with
  | nil => exact ⟨_, rfl⟩
  | cons e entries ih =>
    have ih := ih fun e' he' => h e' (List.mem_cons_of_mem _ he')
    unfold flattenEntries
    dsimp only
    split
    · rename_i hd
      obtain ⟨r, hr⟩ := h e List.mem_cons_self hd (childPath dir e.name) out
      rw [hr]
      cases r with
      | none => exact ⟨_, rfl⟩
      | some out => exact ih out
    · exact ih _

/-- A bound for each element of a list gives one for the whole list. -/
theorem exists_bound {α : Type} {P : Nat → α → Prop} {l : List α}
    (h : ∀ a ∈ l, ∃ n, ∀ m ≥ n, P m a) : ∃ n, ∀ m ≥ n, ∀ a ∈ l, P m a := by
  induction l with
  | nil => exact ⟨0, fun _ _ _ ha => absurd ha List.not_mem_nil⟩
  | cons a l ih =>
    obtain ⟨n, hn⟩ := ih fun b hb => h b (List.mem_cons_of_mem _ hb)
    obtain ⟨k, hk⟩ := h a List.mem_cons_self
    refine ⟨max n k, fun m hm => List.forall_mem_cons.mpr
      ⟨hk m (le_of_max_le_right hm), hn m (le_of_max_le_left hm)⟩⟩

theorem flattenTree_returns {store : ObjectStore} {id : ObjectId} (hwf : store.WellFormed id) :
    ∃ n, ∀ depth ≥ n, ∀ dir out, ∃ r, flattenTree store depth id dir out = some r := by
  induction hwf with
  | @mk id entries hload _ _ _ ih =>
    have hsub : ∀ e ∈ entries, ∃ n, ∀ depth ≥ n, e.isDirectory = true → ∀ dir out,
        ∃ r, flattenTree store depth e.id dir out = some r := by
      intro e he
      by_cases hd : e.isDirectory = true
      · obtain ⟨n, hn⟩ := ih e he hd
        exact ⟨n, fun depth hm _ => hn depth hm⟩
      · exact ⟨0, fun _ _ h => absurd h hd⟩
    obtain ⟨n, hn⟩ := exists_bound hsub
    refine ⟨n + 1, fun depth hm dir out => ?_⟩
    obtain ⟨depth, rfl⟩ := Nat.exists_eq_succ_of_ne_zero (Nat.ne_of_gt (Nat.lt_of_lt_of_le
      (Nat.succ_pos n) hm))
    rw [flattenTree, hload]
    exact flattenEntries_returns (hn depth (Nat.le_of_succ_le_succ hm)) dir out

/-- Flattening the tree `id` gives `files`, whatever the bound is from some bound on. -/
def ObjectStore.Flattens (store : ObjectStore) (id : ObjectId) (files : Files) : Prop :=
  ∃ n, ∀ depth ≥ n, flattenTree store depth id [] .empty = some (some files)

theorem ObjectStore.Flattens.unique {store : ObjectStore} {id : ObjectId} {files files' : Files}
    (h : store.Flattens id files) (h' : store.Flattens id files') : files = files' := by
  obtain ⟨n, hn⟩ := h
  obtain ⟨n', hn'⟩ := h'
  have e := (hn _ (Nat.le_max_left n n')).symm.trans (hn' _ (Nat.le_max_right n n'))
  exact Option.some_inj.mp (Option.some_inj.mp e)

/-- `files` are the files of the tree `id`. -/
def ObjectStore.FilesOf (store : ObjectStore) (id : ObjectId) (files : Files) : Prop :=
  ∀ p blob, files.find p = some blob ↔ ∃ path, joinPath path = p ∧ store.fileAt id path = some blob

theorem filesOf_leaves {store : ObjectStore} {id : ObjectId} {l : List (Bytes × ObjectId)}
    (hl : Leaves (store.fileAt id) [] l) : store.FilesOf id (insertAll {} l) := by
  intro p blob
  rw [insertAll, SortedTable.find_foldl_insert hl.1]
  refine Iff.trans ⟨fun h => h.resolve_right fun h => ?_, Or.inl⟩ (hl.2 p blob)
  cases h.2

/-- What flattening a well-formed tree returns are its files. -/
theorem flattenTree_spec {store : ObjectStore} {id : ObjectId} (hwf : store.WellFormed id)
    {depth : Nat} {r : Option Files} (h : flattenTree store depth id [] .empty = some r) :
    ∃ files, r = some files ∧ store.FilesOf id files := by
  obtain ⟨l, hl, rfl⟩ := flattenTree_leaves depth hwf (List.forall_mem_nil _) h
  exact ⟨_, rfl, filesOf_leaves hl⟩

theorem ObjectStore.FilesOf.unique {store : ObjectStore} {id : ObjectId} {files files' : Files}
    (h : store.FilesOf id files) (h' : store.FilesOf id files') : files = files' := by
  refine SortedTable.ext_find fun p => Option.ext fun blob => ?_
  rw [h, h']

/-- A path of plain segments stands for one file. -/
theorem ObjectStore.FilesOf.find_joinPath {store : ObjectStore} {id : ObjectId} {files : Files}
    (h : store.FilesOf id files) (hwf : store.WellFormed id) {path : List Bytes}
    (hplain : ∀ s ∈ path, Plain s) : files.find (joinPath path) = store.fileAt id path := by
  refine Option.ext fun blob => (h _ _).trans ⟨?_, fun hf => ⟨path, rfl, hf⟩⟩
  rintro ⟨path', hj, hf⟩
  rw [← joinPath_inj (hwf.plain hf).2 hplain hj]
  exact hf

theorem ObjectStore.WellFormed.flattens {store : ObjectStore} {id : ObjectId} (hwf : store.WellFormed id) :
    ∃ files, store.Flattens id files ∧ store.FilesOf id files := by
  obtain ⟨n, hn⟩ := flattenTree_returns hwf
  obtain ⟨r, hr⟩ := hn n (Nat.le_refl n) [] .empty
  obtain ⟨files, rfl, hfiles⟩ := flattenTree_spec hwf hr
  refine ⟨files, ⟨n, fun depth hm => ?_⟩, hfiles⟩
  obtain ⟨r', hr'⟩ := hn depth hm [] .empty
  obtain ⟨files', rfl, hfiles'⟩ := flattenTree_spec hwf hr'
  rw [hr', hfiles'.unique hfiles]

end Oggit
end Techuila
