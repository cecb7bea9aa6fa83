import Techuila.Oggit.Merge

/-!
# What a merge returns

* `ObjectStore.FilesOf.apart`: no file of a well-formed tree lies below another one.
* `mergeFiles_merged`: without conflicts, the table that is built is the three-way merge, and no file
  of it lies below another one, so `buildTreeFromPaths` drops none.
* `sorted_foundConflicts`: the conflicts are in order, one a path.
* `mergeCommits_exact`: the result of a merge of two commits neither of which has the other among
  its ancestors.
-/

namespace Techuila
namespace Oggit

open Techuila.Dist (Bytes ascii)
open ThreeWay (merge3 IsMerge)
open TrieNode (NameOk)

/-! ## Files of one tree -/

theorem joinPath_below {path rest : List Bytes} (hne : path ≠ []) (hplain : ∀ s ∈ path, Plain s)
    (hrest : rest ≠ []) : joinPath path ++ [SLASH] <+: joinPath (path ++ rest) := by
  obtain ⟨s, rest, rfl⟩ := List.exists_cons_of_ne_nil hrest
  refine ⟨s ++ rest.flatMap fun s => SLASH :: s, ?_⟩
  rw [joinPath_append, pathUnder_eq (joinPath_ne_nil hne hplain), List.flatMap_cons]
  simp

namespace ObjectStore

variable {store : ObjectStore} {id : ObjectId} {files : Files}

theorem WellFormed.nameOk (h : store.WellFormed id) {path : List Bytes} {blob : ObjectId}
    (hf : store.fileAt id path = some blob) : ∀ s ∈ path, NameOk s := by
  induction h generalizing path with
  | @mk id entries hload hn hplain _ ih =>
    have hlength : ∀ e ∈ entries, e.name.length < 2 ^ 32 := by
      unfold loadTree at hload
      split at hload
      · exact length_parseTree hload
      · cases hload
    obtain ⟨e, he, rest, rfl, hb⟩ := (fileAt_some hload hn).mp hf
    refine List.forall_mem_cons.mpr ⟨⟨hplain e he, hlength e he⟩, ?_⟩
    unfold fileBelow at hb
    split at hb
    · rename_i hd
      exact ih e he hd hb
    · split at hb
      · rename_i hr
        rw [hr]
        exact List.forall_mem_nil _
      · cases hb

/-- A file has no file below it. -/
theorem WellFormed.apart (h : store.WellFormed id) {path rest : List Bytes} {blob blob' : ObjectId}
    (hf : store.fileAt id path = some blob) (hf' : store.fileAt id (path ++ rest) = some blob') :
    rest = [] := by
  induction h generalizing path with
  | @mk id entries hload hn _ _ ih =>
    obtain ⟨e, he, below, rfl, hb⟩ := (fileAt_some hload hn).mp hf
    obtain ⟨e', he', below', heq, hb'⟩ := (fileAt_some hload hn).mp hf'
    obtain ⟨hname, rfl⟩ := List.cons_eq_cons.mp heq
    have hee : some e = some e' := by
      rw [← find_entry hn he, ← find_entry hn he', hname]
    cases hee
    unfold fileBelow at hb hb'
    split at hb
    · rename_i hd
      rw [if_pos hd] at hb'
      exact ih e he hd hb hb'
    · rename_i hd
      rw [if_neg hd] at hb'
      split at hb'
      · rename_i hr
        exact (List.append_eq_nil_iff.mp hr).2
      · cases hb'

/-- No file of the table lies below another one. -/
theorem FilesOf.apart (h : store.FilesOf id files) (hwf : store.WellFormed id)
    {path rest : List Bytes} (hp : ∀ s ∈ path, Plain s) (hr : ∀ s ∈ path ++ rest, Plain s)
    {blob blob' : ObjectId} (hf : files.find (joinPath path) = some blob)
    (hf' : files.find (joinPath (path ++ rest)) = some blob') : rest = [] := by
  rw [h.find_joinPath hwf hp] at hf
  rw [h.find_joinPath hwf hr] at hf'
  exact hwf.apart hf hf'

/-- Every key stands for a path whose names the tree format can hold. -/
theorem FilesOf.path (h : store.FilesOf id files) (hwf : store.WellFormed id) {p : Bytes}
    {blob : ObjectId} (hf : files.find p = some blob) :
    ∃ path, path ≠ [] ∧ joinPath path = p ∧ ∀ s ∈ path, NameOk s := by
  obtain ⟨path, hj, hp⟩ := (h p blob).mp hf
  exact ⟨path, (hwf.plain hp).1, hj, hwf.nameOk hp⟩

end ObjectStore

/-! ## The merged files -/

/-- The table that the loop over all paths fills. -/
def mergedFiles (baseFiles oursFiles theirsFiles : Files) : Files :=
  (mergePaths baseFiles oursFiles theirsFiles (allPaths baseFiles oursFiles theirsFiles)).1

/-- The conflicts that the loop over all paths finds. -/
def foundConflicts (baseFiles oursFiles theirsFiles : Files) : List MergeConflict :=
  (mergePaths baseFiles oursFiles theirsFiles (allPaths baseFiles oursFiles theirsFiles)).2

variable {b o t : Files}

theorem nodup_allPaths (b o t : Files) : (allPaths b o t).Nodup :=
  (SortedTable.sorted_keySet _).imp ne_of_lt

theorem foundConflicts_eq (b o t : Files) :
    foundConflicts b o t = (allPaths b o t).filterMap fun p => (mergePath b o t p).toConflict :=
  (mergePaths_spec b o t (nodup_allPaths b o t)).2

/-- The path of a conflict is the one of the round that reports it. -/
theorem path_of_mergePath {p : Bytes} {c : MergeConflict} (h : mergePath b o t p = .conflict c) :
    c.path = p := by
  rw [mergePath_eq] at h
  split at h
  · cases h
    rfl
  · split at h
    · cases h
      rfl
    · unfold PathMerge.of at h
      split at h
      · cases h
      · cases h
      · cases h
        rfl

theorem mem_foundConflicts {c : MergeConflict} :
    c ∈ foundConflicts b o t ↔ c.path ∈ allPaths b o t ∧ mergePath b o t c.path = .conflict c := by
  rw [foundConflicts_eq, List.mem_filterMap]
  constructor
  · rintro ⟨p, hp, hc⟩
    cases hm : mergePath b o t p with
    | conflict c' =>
      rw [hm] at hc
      cases hc
      rw [path_of_mergePath hm]
      exact ⟨hp, hm⟩
    | file id =>
      rw [hm] at hc
      cases hc
    | absent =>
      rw [hm] at hc
      cases hc
  · rintro ⟨hp, hm⟩
    exact ⟨c.path, hp, by rw [hm]; rfl⟩

/-- Without conflicts every path has the merge of its three versions, and no side has a directory
where the other has a file. -/
theorem no_conflict {p : Bytes} (h : foundConflicts b o t = []) (hp : p ∈ allPaths b o t) :
    (∃ v, merge3 (b.find p) (o.find p) (t.find p) = some v) ∧
      mergePath b o t p = .of p (b.find p) (o.find p) (t.find p) ∧
      ((o.find p).isSome → ¬ otherSideUsesAsDirectory t p = true) ∧
      ((t.find p).isSome → ¬ otherSideUsesAsDirectory o p = true) := by
  have hnot : ∀ c, mergePath b o t p ≠ .conflict c := by
    intro c hc
    have : c ∈ foundConflicts b o t := mem_foundConflicts.mpr
      (by rw [path_of_mergePath hc]; exact ⟨hp, hc⟩)
    rw [h] at this
    cases this
  have hd : ¬ ((o.find p).isSome ∧ otherSideUsesAsDirectory t p = true) := fun hd =>
    hnot _ (by rw [mergePath_eq, if_pos hd])
  have hd' : ¬ ((t.find p).isSome ∧ otherSideUsesAsDirectory o p = true) := fun hd' =>
    hnot _ (by rw [mergePath_eq, if_neg hd, if_pos hd'])
  have heq : mergePath b o t p = .of p (b.find p) (o.find p) (t.find p) := by
    rw [mergePath_eq, if_neg hd, if_neg hd']
  refine ⟨?_, heq, fun ho hu => hd ⟨ho, hu⟩, fun ht hu => hd' ⟨ht, hu⟩⟩
  cases hm : merge3 (b.find p) (o.find p) (t.find p) with
  | some v => exact ⟨v, rfl⟩
  | none => exact absurd (by rw [heq, PathMerge.of, hm]) (hnot _)

theorem mergedFiles_isMerge (h : foundConflicts b o t = []) :
    IsMerge b.find o.find t.find (mergedFiles b o t).find := by
  have hfind := (mergePaths_spec b o t (nodup_allPaths b o t)).1
  intro p
  by_cases hp : p ∈ allPaths b o t
  · obtain ⟨⟨v, hv⟩, heq, -⟩ := no_conflict h hp
    rw [hv, Option.some_inj]
    refine (Option.ext fun id => (hfind p id).trans ?_).symm
    rw [heq, PathMerge.of, hv, and_iff_right hp]
    cases v with
    | none => exact ⟨fun h => (by cases h), fun h => (by cases h)⟩
    | some id' => exact ⟨fun h => by cases h; rfl, fun h => by cases h; rfl⟩
  · have hnone : (mergedFiles b o t).find p = none :=
      Option.eq_none_iff_forall_ne_some.mpr fun id hid => hp ((hfind p id).mp hid).1
    rw [mem_allPaths, not_or, not_or] at hp
    simp only [Option.not_isSome_iff_eq_none] at hp
    rw [hp.1, hp.2.1, hp.2.2, hnone]
    rfl

/-- The tree that is built from the merged files has all of them. -/
theorem mergeFiles_merged {store : ObjectStore} {oid tid : ObjectId}
    (ho : store.FilesOf oid o) (hwo : store.WellFormed oid) (ht : store.FilesOf tid t)
    (hwt : store.WellFormed tid) (h : foundConflicts b o t = [])
    (hs : Storable (trieOf (mergedFiles b o t)).trees) :
    (buildTreeFromPaths store (mergedFiles b o t)).2.Flattens
      (buildTreeFromPaths store (mergedFiles b o t)).1 (mergedFiles b o t) := by
  have hmerge := mergedFiles_isMerge h
  have hside : ∀ {p blob}, (mergedFiles b o t).find p = some blob →
      o.find p = some blob ∨ t.find p = some blob := fun {p blob} hf => by
    rw [← hf]
    exact (ThreeWay.eq_of_merge3 (hmerge p)).imp Eq.symm Eq.symm
  have hall : ∀ {p blob}, o.find p = some blob ∨ t.find p = some blob → p ∈ allPaths b o t := by
    intro p blob hf
    rw [mem_allPaths]
    exact .inr (hf.imp (fun h => by rw [h]; rfl) fun h => by rw [h]; rfl)
  obtain ⟨hwf, hfiles⟩ := buildTreeFromPaths_spec
    (fun p blob hf => (hside hf).elim (ho.path hwo) (ht.path hwt))
    (fun path path' blob blob' hp hp' hf hf' => by
      rintro ⟨rest, rfl⟩
      suffices rest = [] by rw [this, List.append_nil]
      by_contra hne
      have hnil : path ≠ [] := by
        rintro rfl
        rcases hside hf with hf | hf
        · rw [ho.find_joinPath hwo hp] at hf
          cases hf
        · rw [ht.find_joinPath hwt hp] at hf
          cases hf
      have hbelow := joinPath_below hnil hp hne
      rcases hside hf with hfo | hft <;> rcases hside hf' with hfo' | hft'
      · exact hne (ho.apart hwo hp hp' hfo hfo')
      · exact (no_conflict h (hall (.inl hfo))).2.2.1 (by rw [hfo]; rfl)
          ((otherSideUsesAsDirectory_iff t _).mpr ⟨_, _, hft', hbelow⟩)
      · exact (no_conflict h (hall (.inr hft))).2.2.2 (by rw [hft]; rfl)
          ((otherSideUsesAsDirectory_iff o _).mpr ⟨_, _, hfo', hbelow⟩)
      · exact hne (ht.apart hwt hp hp' hft hft')) hs store
  obtain ⟨files, hflat, hfiles'⟩ := hwf.flattens
  rwa [hfiles'.unique hfiles] at hflat

/-! ## Conflicts -/

theorem sorted_foundConflicts (b o t : Files) :
    (foundConflicts b o t).Pairwise fun c c' => c.path < c'.path := by
  rw [foundConflicts_eq]
  refine List.Pairwise.filterMap _ (fun p p' hlt c hc c' hc' => ?_) (SortedTable.sorted_keySet _)
  have hpath : ∀ {p c}, c ∈ (mergePath b o t p).toConflict → c.path = p := by
    intro p c hc
    cases hm : mergePath b o t p with
    | conflict c' =>
      rw [hm] at hc
      cases hc
      exact path_of_mergePath hm
    | file id =>
      rw [hm] at hc
      cases hc
    | absent =>
      rw [hm] at hc
      cases hc
  rw [hpath hc, hpath hc']
  exact hlt

/-- A path that both sides have changed to different versions is in the list. -/
theorem mem_foundConflicts_of_changed {p : Bytes} (ho : o.find p ≠ b.find p)
    (ht : t.find p ≠ b.find p) (hot : o.find p ≠ t.find p) :
    p ∈ (foundConflicts b o t).map (·.path) := by
  have hp : p ∈ allPaths b o t := by
    rw [mem_allPaths]
    by_contra hnone
    simp only [not_or, Option.not_isSome_iff_eq_none] at hnone
    exact hot (by rw [hnone.2.1, hnone.2.2])
  obtain ⟨c, hc⟩ : ∃ c, mergePath b o t p = .conflict c := by
    rw [mergePath_eq, PathMerge.of, ThreeWay.merge3_eq_none.mpr ⟨ho, ht, hot⟩]
    split
    · exact ⟨_, rfl⟩
    · split <;> exact ⟨_, rfl⟩
  refine List.mem_map.mpr ⟨c, mem_foundConflicts.mpr ?_, path_of_mergePath hc⟩
  rw [path_of_mergePath hc]
  exact ⟨hp, hc⟩

theorem insertionSort_foundConflicts (b o t : Files) :
    ((foundConflicts b o t).insertionSort fun c c' => c.path ≤ c'.path) = foundConflicts b o t :=
  List.Pairwise.insertionSort_eq ((sorted_foundConflicts b o t).imp le_of_lt)

/-- `mergeFiles` by the conflicts that are found. -/
theorem mergeFiles_eq (store : ObjectStore) (base : ObjectId) (b o t : Files) :
    mergeFiles store base b o t =
      if foundConflicts b o t ≠ [] then
        ({ outcome := .conflict, mergeBase := some base, conflicts := foundConflicts b o t }, store)
      else
        ({ outcome := .merged, mergeBase := some base
           resultTree := some (buildTreeFromPaths store (mergedFiles b o t)).1 },
          (buildTreeFromPaths store (mergedFiles b o t)).2) := by
  have hsort := insertionSort_foundConflicts b o t
  unfold mergeFiles
  split
  rename_i merged conflicts he
  have hm : mergedFiles b o t = merged := congrArg Prod.fst he
  have hc : foundConflicts b o t = conflicts := congrArg Prod.snd he
  rw [hm, hc]
  rw [hc] at hsort
  simp only [hsort]

/-! ## The result -/

/-- A merge without conflicts: the files of the tree are the merge of the files of the three
commits. -/
def MergedExactly (store' : ObjectStore) (result : MergeResult) (b o t : Files) : Prop :=
  result.outcome = .merged ∧ ∃ merged tree, IsMerge b.find o.find t.find merged.find ∧
    result.resultTree = some tree ∧ (Storable (trieOf merged).trees → store'.Flattens tree merged)

/-- A merge with conflicts: in order, one a path, and with every path that both sides have changed
to different versions. -/
def ConflictsReported (result : MergeResult) (b o t : Files) : Prop :=
  result.outcome = .conflict ∧ result.conflicts ≠ [] ∧
    result.conflicts.Pairwise (fun c c' => c.path < c'.path) ∧
    ∀ p, o.find p ≠ b.find p → t.find p ≠ b.find p → o.find p ≠ t.find p →
      p ∈ result.conflicts.map (·.path)

/-- A merge of two commits with a common ancestor returns the three-way merge of their files, or
what is in its way. -/
theorem mergeCommits_exact {store : ObjectStore} (hcyc : store.Acyclic) {ours theirs : ObjectId}
    {oursCommit theirsCommit : Commit} (ho : readCommitObject store ours = some oursCommit)
    (ht : readCommitObject store theirs = some theirsCommit) (hho : store.HistoryOk ours)
    (hht : store.HistoryOk theirs) (hot : ¬ store.Reaches ours theirs)
    (hto : ¬ store.Reaches theirs ours) :
    ∃ result store', store.Merges ours theirs result store' ∧
      ((∀ c, ¬ (store.Reaches ours c ∧ store.Reaches theirs c)) ∧
          result.error = .noCommonAncestor ∨
        ∃ base, store.IsMergeBase ours theirs base ∧ result.mergeBase = some base ∧
          (readCommitObject store base = none ∧ result.error = .corruptTree ∨
            ∃ baseCommit b o t, readCommitObject store base = some baseCommit ∧
              store.Flattens baseCommit.tree b ∧ store.Flattens oursCommit.tree o ∧
              store.Flattens theirsCommit.tree t ∧ result.error = .none ∧
              (MergedExactly store' result b o t ∨ ConflictsReported result b o t))) := by
  rcases mergeCommits_spec hcyc ho ht with
    ⟨h, _⟩ | ⟨_, h, _⟩ | ⟨_, _, ⟨hnone, hrun⟩ | ⟨base, hbase, hrun⟩⟩
  · exact absurd h hot
  · exact absurd h hto
  · exact ⟨_, _, hrun, .inl ⟨hnone, rfl⟩⟩
  · cases hread : readCommitObject store base with
    | none =>
      obtain ⟨n, hn⟩ := hrun
      refine ⟨{ error := .corruptTree, mergeBase := some base }, store, ⟨n, fun bound hb => ?_⟩,
        .inr ⟨base, hbase, rfl, .inl ⟨hread, rfl⟩⟩⟩
      rw [hn bound hb, mergeFrom, hread]
    | some baseCommit =>
      have hwo := hho ours oursCommit .refl ho
      have hwt := hht theirs theirsCommit .refl ht
      obtain ⟨b, o, t, ⟨hfb, _⟩, ⟨hfo, hfo'⟩, ⟨hft, hft'⟩, hfrom⟩ :=
        mergeFrom_spec hread (hho base baseCommit hbase.left hread) hwo hwt
      obtain ⟨n, hn⟩ := eventually_and hrun hfrom
      refine ⟨(mergeFiles store base b o t).1, (mergeFiles store base b o t).2,
        ⟨n, fun bound hb => ((hn bound hb).1.trans (hn bound hb).2)⟩, .inr ⟨base, hbase, ?_⟩⟩
      rw [mergeFiles_eq]
      split
      · rename_i hc
        exact ⟨rfl, .inr ⟨baseCommit, b, o, t, hread, hfb, hfo, hft, rfl, .inr ⟨rfl, hc,
          sorted_foundConflicts b o t, fun _ => mem_foundConflicts_of_changed⟩⟩⟩
      · rename_i hc
        rw [not_not] at hc
        exact ⟨rfl, .inr ⟨baseCommit, b, o, t, hread, hfb, hfo, hft, rfl, .inl ⟨rfl,
          mergedFiles b o t, _, mergedFiles_isMerge hc, rfl,
          mergeFiles_merged hfo' hwo hft' hwt hc⟩⟩⟩

/-! ## A history with a fork -/

/-- Objects written one after the other. -/
def writeObjects (store : ObjectStore) (objects : List (ObjectType × Bytes)) : ObjectStore :=
  objects.foldl (fun store object => (store.writeObject object.1 object.2).2) store

def objectId (object : ObjectType × Bytes) : ObjectId := hashObject object.1 object.2

theorem files_writeObjects {objects : List (ObjectType × Bytes)} {id : ObjectId}
    (h : id ∉ objects.map objectId) (store : ObjectStore) :
    (writeObjects store objects).files id = store.files id := by
  induction objects generalizing store with
  | nil => rfl
  | cons object objects ih =>
    rw [List.map_cons, List.mem_cons, not_or] at h
    exact (ih h.2 _).trans (Function.update_of_ne h.1 _ _)

/-- Objects with different ids are all read back. -/
theorem readObject_writeObjects {objects : List (ObjectType × Bytes)}
    (h : (objects.map objectId).Nodup) {object : ObjectType × Bytes} (hm : object ∈ objects)
    (hl : object.2.length < 2 ^ 64) (store : ObjectStore) :
    (writeObjects store objects).readObject (objectId object) = .ok object := by
  refine readObject_of_file hl rfl ?_
  induction objects generalizing store with
  | nil => cases hm
  | cons object' objects ih =>
    obtain ⟨hnot, hnodup⟩ := List.nodup_cons.mp h
    rcases List.mem_cons.mp hm with rfl | hm
    · exact (files_writeObjects hnot _).trans (Function.update_self ..)
    · exact ih hnodup hm _

def commitId (commit : Commit) : ObjectId := hashObject .commit (serializeCommit commit)

/-- The entries of a tree with one file. -/
def oneFile (name : Bytes) : List TreeEntry := [⟨name, .zero, false⟩]

def forkBase : Commit := ⟨treeId [], [], [], []⟩

def forkOurs : Commit := ⟨treeId (oneFile (ascii "f")), [commitId forkBase], [], []⟩

def forkTheirs : Commit := ⟨treeId (oneFile (ascii "g")), [commitId forkBase], [], []⟩

def forkObjects : List (ObjectType × Bytes) :=
  ([[], oneFile (ascii "f"), oneFile (ascii "g")].map fun es => (.tree, serializeTree es)) ++
    [forkBase, forkOurs, forkTheirs].map fun commit => (.commit, serializeCommit commit)

/-- A commit without files and two commits on it, each with a file of its own. -/
def forkStore : ObjectStore := writeObjects {} forkObjects

theorem nodup_forkObjects : (forkObjects.map objectId).Nodup := by
  -- the ids differ in their first bytes
  have hheads : ((forkObjects.map objectId).map fun id => id.val.headD 0) =
      [55, 200, 24, 196, 33, 195] := by decide +kernel
  have hnodup : ((forkObjects.map objectId).map fun id => id.val.headD 0).Nodup := by
    rw [hheads]
    decide
  exact .of_map _ hnodup

theorem read_forkObjects (type : ObjectType) (content : Bytes) (hm : (type, content) ∈ forkObjects)
    (hl : content.length < 2 ^ 64) :
    forkStore.readObject (hashObject type content) = .ok (type, content) :=
  readObject_writeObjects nodup_forkObjects hm hl {}

theorem length_sizeU32 (n : Nat) : (sizeU32 n).length = 4 := rfl

theorem length_parents (parents : List ObjectId) :
    (parents.flatMap (·.val)).length = 32 * parents.length := by
  induction parents with
  | nil => rfl
  | cons id ids ih =>
    rw [List.flatMap_cons, List.length_append, ih, id.2, List.length_cons]
    omega

theorem length_serializeCommit (commit : Commit) : (serializeCommit commit).length =
    44 + 32 * commit.parents.length + commit.author.length + commit.message.length := by
  simp only [serializeCommit, stringBytes, List.length_append, length_parents, commit.tree.2,
    length_sizeU32]
  omega

/-- The commits of the fork have no author, no message and one parent at most. -/
theorem read_forkCommit {commit : Commit} (hm : (.commit, serializeCommit commit) ∈ forkObjects)
    (hp : commit.parents.length ≤ 1) (ha : commit.author = []) (hmsg : commit.message = []) :
    readCommitObject forkStore (commitId commit) = some commit := by
  have hl : (serializeCommit commit).length < 2 ^ 64 := by
    rw [length_serializeCommit, ha, hmsg, List.length_nil]
    omega
  rw [readCommitObject, commitId, read_forkObjects _ _ hm hl]
  exact parseCommit_serializeCommit (by omega) (by simp [ha]) (by simp [hmsg])

theorem mem_forkObjects {commit : Commit} (h : commit ∈ [forkBase, forkOurs, forkTheirs]) :
    (.commit, serializeCommit commit) ∈ forkObjects :=
  List.mem_append_right _ (List.mem_map.mpr ⟨commit, h, rfl⟩)

theorem read_forkBase : readCommitObject forkStore (commitId forkBase) = some forkBase :=
  read_forkCommit (mem_forkObjects List.mem_cons_self) (Nat.zero_le 1) rfl rfl

theorem read_forkOurs : readCommitObject forkStore (commitId forkOurs) = some forkOurs :=
  read_forkCommit (mem_forkObjects (List.mem_cons_of_mem _ List.mem_cons_self)) (Nat.le_refl 1) rfl rfl

theorem read_forkTheirs : readCommitObject forkStore (commitId forkTheirs) = some forkTheirs :=
  read_forkCommit (mem_forkObjects (List.mem_cons_of_mem _ (List.mem_cons_of_mem _
    List.mem_cons_self))) (Nat.le_refl 1) rfl rfl

/-- The trees of the fork have one file at most. -/
theorem read_forkTree {entries : List TreeEntry} (h : entries ∈ [[], oneFile (ascii "f"),
    oneFile (ascii "g")]) :
    forkStore.readObject (treeId entries) = .ok (.tree, serializeTree entries) ∧
      parseTree (serializeTree entries) = some entries := by
  have hm : (.tree, serializeTree entries) ∈ forkObjects :=
    List.mem_append_left _ (List.mem_map.mpr ⟨entries, h, rfl⟩)
  have hall : ∀ entries ∈ [[], oneFile (ascii "f"), oneFile (ascii "g")],
      entries.length ≤ 1 ∧ (∀ e ∈ entries, e.name.length ≤ 1) ∧ sortEntries entries = entries ∧
        (serializeTree entries).length ≤ 50 := by
    simp only [List.forall_mem_cons]
    refine ⟨⟨?_, ?_, rfl, ?_⟩, ⟨?_, ?_, rfl, ?_⟩, ⟨?_, ?_, rfl, ?_⟩, List.forall_mem_nil _⟩ <;> decide
  obtain ⟨hl, hnames, hsort, hsize⟩ := hall entries h
  refine ⟨read_forkObjects _ _ hm (by omega), ?_⟩
  refine (parseTree_serializeTree (by omega) fun e he => ?_).trans (congrArg some hsort)
  have := hnames e he
  omega

theorem load_forkTree {entries : List TreeEntry} (h : entries ∈ [[], oneFile (ascii "f"),
    oneFile (ascii "g")]) : forkStore.loadTree (treeId entries) = some entries := by
  obtain ⟨hread, hparse⟩ := read_forkTree h
  rw [ObjectStore.loadTree, hread]
  exact hparse

theorem commitId_inj {commit commit' : Commit}
    (h : readCommitObject forkStore (commitId commit) = some commit)
    (h' : readCommitObject forkStore (commitId commit') = some commit')
    (he : commitId commit = commitId commit') : commit = commit' :=
  Option.some_inj.mp (by rw [← h, he, h'])

theorem forkOurs_ne_forkBase : forkOurs ≠ forkBase := fun h =>
  absurd (congrArg Commit.parents h) (List.cons_ne_nil _ _)

theorem forkTheirs_ne_forkBase : forkTheirs ≠ forkBase := fun h =>
  absurd (congrArg Commit.parents h) (List.cons_ne_nil _ _)

theorem parentsOf_read {store : ObjectStore} {id : ObjectId} {commit : Commit}
    (h : readCommitObject store id = some commit) : parentsOf store id = commit.parents := by
  rw [parentsOf, h]

/-- The base has no parents, and nothing has a parent other than the base. -/
theorem parents_forkStore (id : ObjectId) :
    parentsOf forkStore id = [] ∨
      id ≠ commitId forkBase ∧ parentsOf forkStore id = [commitId forkBase] := by
  by_cases h : id ∈ forkObjects.map objectId
  · obtain ⟨object, hm, rfl⟩ := List.mem_map.mp h
    rcases List.mem_append.mp hm with hm | hm
    · obtain ⟨entries, he, rfl⟩ := List.mem_map.mp hm
      have hread : forkStore.readObject (objectId (.tree, serializeTree entries)) =
          .ok (.tree, serializeTree entries) := (read_forkTree he).1
      left
      rw [parentsOf, readCommitObject, hread]
    · obtain ⟨commit, hc, rfl⟩ := List.mem_map.mp hm
      change parentsOf forkStore (commitId commit) = [] ∨ commitId commit ≠ commitId forkBase ∧
        parentsOf forkStore (commitId commit) = [commitId forkBase]
      have hcases : commit = forkBase ∨ commit = forkOurs ∨ commit = forkTheirs := by
        simpa only [List.mem_cons, List.not_mem_nil, or_false] using hc
      rcases hcases with rfl | rfl | rfl
      · exact .inl (parentsOf_read read_forkBase)
      · exact .inr ⟨fun he => forkOurs_ne_forkBase (commitId_inj read_forkOurs read_forkBase he),
          parentsOf_read read_forkOurs⟩
      · exact .inr ⟨fun he => forkTheirs_ne_forkBase (commitId_inj read_forkTheirs read_forkBase he),
          parentsOf_read read_forkTheirs⟩
  · have hf : forkStore.files id = none := files_writeObjects h {}
    left
    simp only [parentsOf, readCommitObject, ObjectStore.readObject, hf]

theorem acyclic_forkStore : forkStore.Acyclic := by
  intro a h
  obtain ⟨b, hab, _⟩ := Relation.TransGen.head'_iff.mp h
  obtain ⟨c, _, hca⟩ := Relation.TransGen.tail'_iff.mp h
  rcases parents_forkStore c with hc | ⟨_, hc⟩
  · rw [hc] at hca
    cases hca
  · rw [hc, List.mem_singleton] at hca
    subst hca
    rcases parents_forkStore (commitId forkBase) with hb | ⟨hne, _⟩
    · rw [hb] at hab
      cases hab
    · exact hne rfl

theorem reaches_forkStore {a c : ObjectId} (h : forkStore.Reaches a c) :
    c = a ∨ c = commitId forkBase := by
  rcases Relation.ReflTransGen.cases_tail h with he | ⟨b, _, hbc⟩
  · exact .inl he
  · rcases parents_forkStore b with hb | ⟨_, hb⟩
    · rw [hb] at hbc
      cases hbc
    · rw [hb, List.mem_singleton] at hbc
      exact .inr hbc

theorem wellFormed_oneFile {store : ObjectStore} {name : Bytes} (hn : Plain name)
    (h : store.loadTree (treeId (oneFile name)) = some (oneFile name)) :
    store.WellFormed (treeId (oneFile name)) :=
  .mk h (List.nodup_singleton _) (List.forall_mem_singleton.mpr hn)
    (List.forall_mem_singleton.mpr fun h => absurd h Bool.false_ne_true)

theorem wellFormed_forkStore : forkStore.WellFormed forkBase.tree ∧
    forkStore.WellFormed forkOurs.tree ∧ forkStore.WellFormed forkTheirs.tree :=
  ⟨.mk (load_forkTree List.mem_cons_self) List.nodup_nil (List.forall_mem_nil _)
      (List.forall_mem_nil _),
    wellFormed_oneFile ⟨by decide, by decide⟩
      (load_forkTree (List.mem_cons_of_mem _ List.mem_cons_self)),
    wellFormed_oneFile ⟨by decide, by decide⟩
      (load_forkTree (List.mem_cons_of_mem _ (List.mem_cons_of_mem _ List.mem_cons_self)))⟩

theorem historyOk_forkStore {commit : Commit}
    (hread : readCommitObject forkStore (commitId commit) = some commit)
    (htree : forkStore.WellFormed commit.tree) : forkStore.HistoryOk (commitId commit) := by
  intro c commit' hr hc
  rcases reaches_forkStore hr with rfl | rfl
  · rw [hread] at hc
    cases hc
    exact htree
  · rw [read_forkBase] at hc
    cases hc
    exact wellFormed_forkStore.1

theorem not_reaches_forkStore : ¬ forkStore.Reaches (commitId forkOurs) (commitId forkTheirs) ∧
    ¬ forkStore.Reaches (commitId forkTheirs) (commitId forkOurs) := by
  have hbase : commitId forkTheirs ≠ commitId forkBase ∧ commitId forkOurs ≠ commitId forkBase :=
    ⟨fun he => absurd (commitId_inj read_forkTheirs read_forkBase he) forkTheirs_ne_forkBase,
      fun he => absurd (commitId_inj read_forkOurs read_forkBase he) forkOurs_ne_forkBase⟩
  have hne : commitId forkOurs ≠ commitId forkTheirs := by
    intro he
    -- equal commits have one tree, and the trees have different files
    have htree := congrArg Commit.tree (commitId_inj read_forkOurs read_forkTheirs he)
    have hload := load_forkTree
      (List.mem_cons_of_mem _ List.mem_cons_self)
    rw [show treeId (oneFile (ascii "f")) = treeId (oneFile (ascii "g")) from htree, load_forkTree
      (List.mem_cons_of_mem _ (List.mem_cons_of_mem _ List.mem_cons_self))] at hload
    exact absurd hload (by decide)
  exact ⟨fun h => (reaches_forkStore h).elim (fun he => hne he.symm) hbase.1,
    fun h => (reaches_forkStore h).elim hne hbase.2⟩

/-- The merge of the two commits of the fork. -/
theorem mergeCommits_exact_fork :
    ∃ result store', forkStore.Merges (commitId forkOurs) (commitId forkTheirs) result store' ∧
      ((∀ c, ¬ (forkStore.Reaches (commitId forkOurs) c ∧
            forkStore.Reaches (commitId forkTheirs) c)) ∧ result.error = .noCommonAncestor ∨
        ∃ base, forkStore.IsMergeBase (commitId forkOurs) (commitId forkTheirs) base ∧
          result.mergeBase = some base ∧
          (readCommitObject forkStore base = none ∧ result.error = .corruptTree ∨
            ∃ baseCommit b o t, readCommitObject forkStore base = some baseCommit ∧
              forkStore.Flattens baseCommit.tree b ∧ forkStore.Flattens forkOurs.tree o ∧
              forkStore.Flattens forkTheirs.tree t ∧ result.error = .none ∧
              (MergedExactly store' result b o t ∨ ConflictsReported result b o t))) :=
  mergeCommits_exact acyclic_forkStore read_forkOurs read_forkTheirs
    (historyOk_forkStore read_forkOurs wellFormed_forkStore.2.1)
    (historyOk_forkStore read_forkTheirs wellFormed_forkStore.2.2)
    not_reaches_forkStore.1 not_reaches_forkStore.2

end Oggit
end Techuila
