import Mathlib.Data.Set.Finite.List
import Techuila.Lib.BreadthFirst
import Techuila.Lib.ThreeWay
import Techuila.Oggit.TreeBuilder

/-!
# Merging commits (`13-developer-ecosystem/oggit/merge.cpp`)

* `allAncestors`: the search over all parents. `allAncestors_spec`: it finds what `Reaches` says.
* `mergeCommits`: the search and the flattening of a tree have no bound in the source, so the model
  has one for both; `none` is a run beyond it. `Merges` is a run that returns.
* `ObjectStore.IsMergeBase`: the base that is chosen. In an acyclic history there is one whenever
  there is a common ancestor (`exists_isLowest`).
* `mergePath_eq`: the cases for one path are those of a three-way merge, except where one side has a
  file and the other a directory.
-/

namespace Techuila
namespace Oggit

open Techuila.Dist (Bytes ascii)
open ThreeWay (merge3 IsMerge)

inductive MergeOutcome
  | alreadyUpToDate
  | fastForward
  | merged
  | conflict
  deriving DecidableEq, Repr

inductive MergeError
  | none
  | oursCommitUnreadable
  | theirsCommitUnreadable
  | noCommonAncestor
  | corruptTree
  deriving DecidableEq, Repr

inductive MergeConflictKind
  | addAdd
  | modifyModify
  | modifyDelete
  | fileDirectory
  deriving DecidableEq, Repr

structure MergeConflict where
  path : Bytes
  kind : MergeConflictKind
  oursId : ObjectId
  theirsId : ObjectId
  deriving DecidableEq

/-- The ids are `none` where the source leaves them unset. -/
structure MergeResult where
  outcome : MergeOutcome := .conflict
  error : MergeError := .none
  mergeBase : Option ObjectId := none
  resultTree : Option ObjectId := none
  conflicts : List MergeConflict := []
  deriving DecidableEq

/-! ## Ancestors -/

def readCommitObject (store : ObjectStore) (id : ObjectId) : Option Commit :=
  match store.readObject id with
  | .ok (.commit, content) => parseCommit content
  | _ => none

/-- The parents behind which a walk goes on: none of an object that does not read as a commit. -/
def parentsOf (store : ObjectStore) (id : ObjectId) : List ObjectId :=
  match readCommitObject store id with
  | none => []
  | some commit => commit.parents

/-- Distances by hex id. -/
abbrev Depths := @SortedTable Bytes Nat Preorder.toLT

def allAncestors (store : ObjectStore) (bound : Nat) (start : ObjectId) : Option Depths :=
  BreadthFirst.search ObjectId.toHex (parentsOf store) bound
    (BreadthFirst.single ObjectId.toHex start)

/-- `common`: the ancestors of both sides. -/
def commonAncestors (ancestorsOfOurs ancestorsOfTheirs : Depths) : List Bytes :=
  (ancestorsOfOurs.entries.map Prod.fst).filter fun hex => (ancestorsOfTheirs.find hex).isSome

/-- The entries of the table of the candidates' ancestors. Every hex id here parses. -/
def candidateAncestors (store : ObjectStore) (bound : Nat) :
    List Bytes → Option (List (Bytes × Depths))
  | [] => some []
  | hex :: common => do
    let ancestors ← allAncestors store bound ((parseObjectId hex).getD .zero)
    let candidates ← candidateAncestors store bound common
    some ((hex, ancestors) :: candidates)

def dominated (candidates : List (Bytes × Depths)) (candidate : Bytes) : Bool :=
  candidates.any fun (other, ancestors) =>
    other != candidate && (ancestors.find candidate).isSome

def undominated (candidates : List (Bytes × Depths)) : List Bytes :=
  ((candidates.map Prod.fst).filter fun candidate => !dominated candidates candidate).insertionSort
    (· ≤ ·)

/-! ## Files -/

/-- Whether a file lies below `path`: the first key from `path/` on starts with it, if there is one. -/
def otherSideUsesAsDirectory (otherFiles : Files) (path : Bytes) : Bool :=
  let dir := path ++ [SLASH]
  match otherFiles.entries.find? fun e => !decide (e.1 < dir) with
  | none => false
  | some e => dir.isPrefixOf e.1

/-- What a round of the loop over the paths does. -/
inductive PathMerge
  | conflict (c : MergeConflict)
  | file (id : ObjectId)
  | absent
  deriving DecidableEq

/-- The body of the loop over `allPaths`. -/
def mergePath (baseFiles oursFiles theirsFiles : Files) (path : Bytes) : PathMerge :=
  let inBase := (baseFiles.find path).isSome
  let inOurs := (oursFiles.find path).isSome
  let inTheirs := (theirsFiles.find path).isSome
  let baseId := (baseFiles.find path).getD .zero
  let oursId := (oursFiles.find path).getD .zero
  let theirsId := (theirsFiles.find path).getD .zero
  if inOurs && otherSideUsesAsDirectory theirsFiles path then
    .conflict ⟨path, .fileDirectory, oursId, .zero⟩
  else if inTheirs && otherSideUsesAsDirectory oursFiles path then
    .conflict ⟨path, .fileDirectory, .zero, theirsId⟩
  else
    let oursChanged := inOurs != inBase || inOurs && inBase && oursId != baseId
    let theirsChanged := inTheirs != inBase || inTheirs && inBase && theirsId != baseId
    if !oursChanged && !theirsChanged then if inBase then .file baseId else .absent
    else if oursChanged && !theirsChanged then if inOurs then .file oursId else .absent
    else if !oursChanged && theirsChanged then if inTheirs then .file theirsId else .absent
    else if inOurs && inTheirs then
      if oursId = theirsId then .file oursId
      else if !inBase then .conflict ⟨path, .addAdd, oursId, theirsId⟩
      else .conflict ⟨path, .modifyModify, oursId, theirsId⟩
    else if inOurs && !inTheirs then .conflict ⟨path, .modifyDelete, oursId, .zero⟩
    else if !inOurs && inTheirs then .conflict ⟨path, .modifyDelete, .zero, theirsId⟩
    else .absent

/-- What a round does to `mergedFiles` and `conflicts`. -/
def PathMerge.apply (path : Bytes) (acc : Files × List MergeConflict) :
    PathMerge → Files × List MergeConflict
  | conflict c => (acc.1, acc.2 ++ [c])
  | file id => (acc.1.insert path id, acc.2)
  | absent => acc

/-- The loop over `allPaths`, which fills `mergedFiles` and `conflicts`. -/
def mergePaths (baseFiles oursFiles theirsFiles : Files) (paths : List Bytes) :
    Files × List MergeConflict :=
  paths.foldl (fun acc path => (mergePath baseFiles oursFiles theirsFiles path).apply path acc)
    (.empty, [])

def allPaths (baseFiles oursFiles theirsFiles : Files) : List Bytes :=
  SortedTable.keySet (baseFiles.entries.map Prod.fst ++ oursFiles.entries.map Prod.fst ++
    theirsFiles.entries.map Prod.fst)

/-- `mergeCommits` from the loop over the paths on. -/
def mergeFiles (store : ObjectStore) (mergeBaseId : ObjectId)
    (baseFiles oursFiles theirsFiles : Files) : MergeResult × ObjectStore :=
  let (mergedFiles, conflicts) := mergePaths baseFiles oursFiles theirsFiles
    (allPaths baseFiles oursFiles theirsFiles)
  if conflicts ≠ [] then
    ({ outcome := .conflict, mergeBase := some mergeBaseId
       conflicts := conflicts.insertionSort fun a b => a.path ≤ b.path }, store)
  else
    let (resultTree, store) := buildTreeFromPaths store mergedFiles
    ({ outcome := .merged, mergeBase := some mergeBaseId, resultTree := some resultTree }, store)

/-- `mergeCommits` from the choice of the base on. -/
def mergeFrom (store : ObjectStore) (bound : Nat) (mergeBaseId : ObjectId)
    (oursCommitObj theirsCommitObj : Commit) : Option (MergeResult × ObjectStore) :=
  let corrupt : MergeResult × ObjectStore :=
    ({ error := .corruptTree, mergeBase := some mergeBaseId }, store)
  match readCommitObject store mergeBaseId with
  | none => some corrupt
  | some baseCommitObj =>
    match flattenTree store bound baseCommitObj.tree [] .empty with
    | none => none
    | some none => some corrupt
    | some (some baseFiles) =>
      match flattenTree store bound oursCommitObj.tree [] .empty with
      | none => none
      | some none => some corrupt
      | some (some oursFiles) =>
        match flattenTree store bound theirsCommitObj.tree [] .empty with
        | none => none
        | some none => some corrupt
        | some (some theirsFiles) =>
          some (mergeFiles store mergeBaseId baseFiles oursFiles theirsFiles)

/-- `mergeCommits` from the common ancestors on. -/
def mergeCommon (store : ObjectStore) (bound : Nat) (common : List Bytes)
    (oursCommitObj theirsCommitObj : Commit) : Option (MergeResult × ObjectStore) :=
  if common = [] then some ({ error := .noCommonAncestor }, store)
  else
    match candidateAncestors store bound common with
    | none => none
    | some candidates =>
      match undominated candidates with
      -- `front` of an empty vector
      | [] => none
      | hex :: _ =>
        mergeFrom store bound ((parseObjectId hex).getD .zero) oursCommitObj theirsCommitObj

def mergeCommits (store : ObjectStore) (bound : Nat) (oursCommit theirsCommit : ObjectId) :
    Option (MergeResult × ObjectStore) :=
  match readCommitObject store oursCommit with
  | none => some ({ error := .oursCommitUnreadable }, store)
  | some oursCommitObj =>
    match readCommitObject store theirsCommit with
    | none => some ({ error := .theirsCommitUnreadable }, store)
    | some theirsCommitObj =>
      match allAncestors store bound oursCommit with
      | none => none
      | some ancestorsOfOurs =>
        match allAncestors store bound theirsCommit with
        | none => none
        | some ancestorsOfTheirs =>
          if (ancestorsOfOurs.find theirsCommit.toHex).isSome then
            some ({ outcome := .alreadyUpToDate, mergeBase := some theirsCommit }, store)
          else if (ancestorsOfTheirs.find oursCommit.toHex).isSome then
            some ({ outcome := .fastForward, mergeBase := some oursCommit
                    resultTree := some theirsCommitObj.tree }, store)
          else
            mergeCommon store bound (commonAncestors ancestorsOfOurs ancestorsOfTheirs)
              oursCommitObj theirsCommitObj

/-- A merge that returns, whatever the bound is from some bound on. -/
def ObjectStore.Merges (store : ObjectStore) (oursCommit theirsCommit : ObjectId)
    (result : MergeResult) (store' : ObjectStore) : Prop :=
  ∃ n, ∀ bound ≥ n, mergeCommits store bound oursCommit theirsCommit = some (result, store')

/-! ## The ancestors that are found -/

instance finiteObjectId : Finite ObjectId :=
  have : Finite UInt8 := Finite.of_injective UInt8.toFin fun _ _ => UInt8.toFin_inj.mp
  (List.finite_length_eq UInt8 32).to_subtype

/-- Two statements that hold from some bound on hold together from some bound on. -/
theorem eventually_and {P Q : Nat → Prop} (hp : ∃ n, ∀ m ≥ n, P m) (hq : ∃ n, ∀ m ≥ n, Q m) :
    ∃ n, ∀ m ≥ n, P m ∧ Q m := by
  obtain ⟨n, hn⟩ := hp
  obtain ⟨k, hk⟩ := hq
  exact ⟨max n k, fun m hm => ⟨hn m (le_of_max_le_left hm), hk m (le_of_max_le_right hm)⟩⟩

namespace ObjectStore

variable {store : ObjectStore} {a b c : ObjectId}

/-- `b` is `a` or one of its ancestors, over all parents. -/
def Reaches (store : ObjectStore) : ObjectId → ObjectId → Prop :=
  BreadthFirst.Reaches (parentsOf store)

/-- No commit is its own ancestor. -/
def Acyclic (store : ObjectStore) : Prop :=
  ∀ a, ¬ Relation.TransGen (fun a b => b ∈ parentsOf store a) a a

theorem Acyclic.antisymm (h : store.Acyclic) (hab : store.Reaches a b) (hba : store.Reaches b a) :
    a = b := by
  rcases Relation.reflTransGen_iff_eq_or_transGen.mp hab with he | ht
  · exact he.symm
  · exact absurd (ht.trans_left hba) (h a)

/-- A common ancestor that no other common ancestor has among its ancestors. -/
structure IsLowest (store : ObjectStore) (a b c : ObjectId) : Prop where
  left : store.Reaches a c
  right : store.Reaches b c
  lowest : ∀ c', store.Reaches a c' → store.Reaches b c' → store.Reaches c' c → c' = c

/-- The lowest common ancestor with the smallest hex id. -/
structure IsMergeBase (store : ObjectStore) (a b c : ObjectId) : Prop extends
    IsLowest store a b c where
  first : ∀ c', store.IsLowest a b c' → c.toHex ≤ c'.toHex

theorem IsLowest.comm (h : store.IsLowest a b c) : store.IsLowest b a c :=
  ⟨h.right, h.left, fun c' hb ha => h.lowest c' ha hb⟩

theorem IsMergeBase.comm (h : store.IsMergeBase a b c) : store.IsMergeBase b a c :=
  ⟨h.toIsLowest.comm, fun c' hc' => h.first c' hc'.comm⟩

theorem exists_isLowest (h : store.Acyclic) (ha : store.Reaches a c) (hb : store.Reaches b c) :
    ∃ c, store.IsLowest a b c := by
  have : IsTrans ObjectId (Relation.TransGen fun a b => b ∈ parentsOf store a) := inferInstance
  have : Std.Irrefl (Relation.TransGen fun a b => b ∈ parentsOf store a) := ⟨h⟩
  have hwf := Finite.wellFounded_of_trans_of_irrefl
    (Relation.TransGen fun a b => b ∈ parentsOf store a)
  obtain ⟨m, ⟨hma, hmb⟩, hmin⟩ := hwf.has_min {c | store.Reaches a c ∧ store.Reaches b c}
    ⟨c, ha, hb⟩
  refine ⟨m, hma, hmb, fun c' ha' hb' hr => ?_⟩
  rcases Relation.reflTransGen_iff_eq_or_transGen.mp hr with he | ht
  · exact he.symm
  · exact absurd ht (hmin c' ⟨ha', hb'⟩)

end ObjectStore

open ObjectStore (IsLowest IsMergeBase)

theorem toHex_injective : Function.Injective ObjectId.toHex := fun _ _ h => toHex_inj h

/-- The search for the ancestors ends and finds all of them. -/
theorem allAncestors_spec (store : ObjectStore) (a : ObjectId) :
    ∃ depths : Depths, (∃ n, ∀ bound ≥ n, allAncestors store bound a = some depths) ∧
      ∀ hex, (depths.find hex).isSome ↔ ∃ b, ObjectId.toHex b = hex ∧ store.Reaches a b := by
  obtain ⟨depths, hn, hspec⟩ := BreadthFirst.search_single
    toHex_injective a
  exact ⟨depths, hn, fun hex => Option.isSome_iff_ne_none.trans (hspec hex)⟩

/-- The ancestors of `a`, as the search finds them. -/
def AncestorsOf (store : ObjectStore) (a : ObjectId) (depths : Depths) : Prop :=
  ∀ hex, (depths.find hex).isSome ↔ ∃ b, ObjectId.toHex b = hex ∧ store.Reaches a b

theorem AncestorsOf.find {store : ObjectStore} {a b : ObjectId} {depths : Depths}
    (h : AncestorsOf store a depths) : (depths.find b.toHex).isSome ↔ store.Reaches a b := by
  rw [h]
  exact ⟨fun ⟨b', he, hr⟩ => toHex_inj he ▸ hr, fun hr => ⟨b, rfl, hr⟩⟩

theorem mem_commonAncestors {store : ObjectStore} {a b : ObjectId} {ours theirs : Depths}
    (ha : AncestorsOf store a ours) (hb : AncestorsOf store b theirs) {hex : Bytes} :
    hex ∈ commonAncestors ours theirs ↔
      ∃ c, ObjectId.toHex c = hex ∧ store.Reaches a c ∧ store.Reaches b c := by
  rw [commonAncestors, List.mem_filter, SortedTable.mem_keys, ha]
  constructor
  · rintro ⟨⟨c, rfl, hr⟩, hf⟩
    exact ⟨c, rfl, hr, hb.find.mp hf⟩
  · rintro ⟨c, rfl, hra, hrb⟩
    exact ⟨⟨c, rfl, hra⟩, hb.find.mpr hrb⟩

theorem candidateAncestors_spec {store : ObjectStore} {common : List Bytes}
    (h : ∀ hex ∈ common, ∃ c, ObjectId.toHex c = hex) :
    ∃ candidates : List (Bytes × Depths),
      (∃ n, ∀ bound ≥ n, candidateAncestors store bound common = some candidates) ∧
      candidates.map Prod.fst = common ∧
      ∀ x ∈ candidates, ∃ c, ObjectId.toHex c = x.1 ∧ AncestorsOf store c x.2 := by
  induction common with
  | nil => exact ⟨[], ⟨0, fun _ _ => rfl⟩, rfl, List.forall_mem_nil _⟩
  | cons hex common ih =>
    obtain ⟨⟨c, rfl⟩, hcommon⟩ := List.forall_mem_cons.mp h
    obtain ⟨candidates, hn, hkeys, hall⟩ := ih hcommon
    obtain ⟨depths, hd, hspec⟩ := allAncestors_spec store c
    obtain ⟨n, hn⟩ := eventually_and hd hn
    refine ⟨(c.toHex, depths) :: candidates, ⟨n, fun bound hb => ?_⟩, by rw [List.map_cons, hkeys],
      List.forall_mem_cons.mpr ⟨⟨c, rfl, hspec⟩, hall⟩⟩
    obtain ⟨h₁, h₂⟩ := hn bound hb
    rw [candidateAncestors, parseObjectId_toHex, Option.getD_some, h₁, h₂]
    rfl

theorem dominated_iff {store : ObjectStore} {candidates : List (Bytes × Depths)}
    (h : ∀ x ∈ candidates, ∃ c, ObjectId.toHex c = x.1 ∧ AncestorsOf store c x.2) {c : ObjectId} :
    dominated candidates c.toHex = true ↔
      ∃ c', c'.toHex ∈ candidates.map Prod.fst ∧ c' ≠ c ∧ store.Reaches c' c := by
  simp only [dominated, List.any_eq_true, Bool.and_eq_true, bne_iff_ne]
  constructor
  · rintro ⟨x, hx, hne, hf⟩
    obtain ⟨c', hc', hanc⟩ := h x hx
    exact ⟨c', List.mem_map.mpr ⟨x, hx, hc'.symm⟩, fun he => hne (by rw [← hc', he]),
      hanc.find.mp hf⟩
  · rintro ⟨c', hm, hne, hr⟩
    obtain ⟨x, hx, he⟩ := List.mem_map.mp hm
    obtain ⟨c'', hc'', hanc⟩ := h x hx
    obtain rfl := toHex_inj (hc''.trans he)
    exact ⟨x, hx, fun he' => hne (toHex_inj (he.symm.trans he')), hanc.find.mpr hr⟩

/-- The candidates that are left are the lowest common ancestors. -/
theorem mem_undominated {store : ObjectStore} {a b : ObjectId} {candidates : List (Bytes × Depths)}
    (hall : ∀ x ∈ candidates, ∃ c, ObjectId.toHex c = x.1 ∧ AncestorsOf store c x.2)
    (hkeys : ∀ hex, hex ∈ candidates.map Prod.fst ↔
      ∃ c, ObjectId.toHex c = hex ∧ store.Reaches a c ∧ store.Reaches b c) {hex : Bytes} :
    hex ∈ undominated candidates ↔ ∃ c, ObjectId.toHex c = hex ∧ IsLowest store a b c := by
  have hmem : ∀ c, ObjectId.toHex c ∈ candidates.map Prod.fst ↔
      store.Reaches a c ∧ store.Reaches b c := fun c => (hkeys _).trans
    ⟨fun ⟨c', he, hr⟩ => toHex_inj he ▸ hr, fun hr => ⟨c, rfl, hr⟩⟩
  rw [undominated, List.mem_insertionSort, List.mem_filter, hkeys]
  constructor
  · rintro ⟨⟨c, rfl, ha, hb⟩, hd⟩
    refine ⟨c, rfl, ha, hb, fun c' ha' hb' hr => by_contra fun hne => ?_⟩
    rw [(dominated_iff hall).mpr ⟨c', (hmem c').mpr ⟨ha', hb'⟩, hne, hr⟩] at hd
    cases hd
  · rintro ⟨c, rfl, hc⟩
    refine ⟨⟨c, rfl, hc.left, hc.right⟩, ?_⟩
    rw [Bool.not_eq_true', ← Bool.not_eq_true, dominated_iff hall]
    rintro ⟨c', hm, hne, hr⟩
    exact hne (hc.lowest c' ((hmem c').mp hm).1 ((hmem c').mp hm).2 hr)

/-- Where there is a common ancestor, a candidate is left, and the first one left is the base. -/
theorem candidates_spec {store : ObjectStore} (hcyc : store.Acyclic) {a b c : ObjectId}
    {ours theirs : Depths} (ha : AncestorsOf store a ours) (hb : AncestorsOf store b theirs)
    (hca : store.Reaches a c) (hcb : store.Reaches b c) :
    ∃ base candidates rest, IsMergeBase store a b base ∧
      undominated candidates = base.toHex :: rest ∧ ∃ n, ∀ bound ≥ n,
        candidateAncestors store bound (commonAncestors ours theirs) = some candidates := by
  have hmem : ∀ hex, hex ∈ commonAncestors ours theirs ↔
      ∃ c, ObjectId.toHex c = hex ∧ store.Reaches a c ∧ store.Reaches b c :=
    fun _ => mem_commonAncestors ha hb
  obtain ⟨candidates, hn, hkeys, hall⟩ := candidateAncestors_spec fun hex h => by
      obtain ⟨c, he, _⟩ := (hmem hex).mp h
      exact ⟨c, he⟩
  have hundom : ∀ hex, hex ∈ undominated candidates ↔
      ∃ c, ObjectId.toHex c = hex ∧ IsLowest store a b c :=
    fun _ => mem_undominated hall (hkeys ▸ hmem)
  obtain ⟨low, hlow⟩ := ObjectStore.exists_isLowest hcyc hca hcb
  have hsorted : (undominated candidates).Pairwise (· ≤ ·) := List.pairwise_insertionSort _ _
  cases hu : undominated candidates with
  | nil =>
    have := (hundom low.toHex).mpr ⟨low, rfl, hlow⟩
    rw [hu] at this
    cases this
  | cons hex rest =>
    obtain ⟨base, rfl, hbase⟩ := (hundom hex).mp (hu ▸ List.mem_cons_self)
    refine ⟨base, candidates, rest, ⟨hbase, fun c' hc' => ?_⟩, hu, hn⟩
    have hc' := (hundom c'.toHex).mpr ⟨c', rfl, hc'⟩
    rw [hu] at hc' hsorted
    rcases List.mem_cons.mp hc' with he | hm
    · exact he.symm.le
    · exact (List.pairwise_cons.mp hsorted).1 _ hm

/-- The search for a base: none where there is no common ancestor, and the one that `IsMergeBase`
describes where there is one. -/
theorem mergeCommon_spec {store : ObjectStore} (hcyc : store.Acyclic) {a b : ObjectId}
    {ours theirs : Depths} (ha : AncestorsOf store a ours) (hb : AncestorsOf store b theirs)
    (ca cb : Commit) :
    ((∀ c, ¬ (store.Reaches a c ∧ store.Reaches b c)) ∧
      ∀ bound, mergeCommon store bound (commonAncestors ours theirs) ca cb =
        some ({ error := .noCommonAncestor }, store)) ∨
    ∃ base, IsMergeBase store a b base ∧ ∃ n, ∀ bound ≥ n,
      mergeCommon store bound (commonAncestors ours theirs) ca cb =
        mergeFrom store bound base ca cb := by
  by_cases hnil : commonAncestors ours theirs = []
  · refine .inl ⟨fun c hc => ?_, fun bound => if_pos hnil⟩
    have := (mem_commonAncestors ha hb).mpr ⟨c, rfl, hc⟩
    rw [hnil] at this
    cases this
  · obtain ⟨hex, hhex⟩ := List.exists_mem_of_ne_nil _ hnil
    obtain ⟨c, rfl, hca, hcb⟩ := (mem_commonAncestors ha hb).mp hhex
    obtain ⟨base, candidates, rest, hbase, hu, n, hn⟩ := candidates_spec hcyc ha hb hca hcb
    refine .inr ⟨base, hbase, n, fun bound hbound => ?_⟩
    rw [mergeCommon, if_neg hnil, hn bound hbound]
    simp only [hu, parseObjectId_toHex, Option.getD_some]

/-- How far a merge of two readable commits gets before it looks at files. -/
theorem mergeCommits_spec {store : ObjectStore} (hcyc : store.Acyclic) {a b : ObjectId}
    {ca cb : Commit} (ha : readCommitObject store a = some ca)
    (hb : readCommitObject store b = some cb) :
    (store.Reaches a b ∧
      store.Merges a b { outcome := .alreadyUpToDate, mergeBase := some b } store) ∨
    (¬ store.Reaches a b ∧ store.Reaches b a ∧ store.Merges a b
      { outcome := .fastForward, mergeBase := some a, resultTree := some cb.tree } store) ∨
    ¬ store.Reaches a b ∧ ¬ store.Reaches b a ∧
      (((∀ c, ¬ (store.Reaches a c ∧ store.Reaches b c)) ∧
        store.Merges a b { error := .noCommonAncestor } store) ∨
      ∃ base, IsMergeBase store a b base ∧ ∃ n, ∀ bound ≥ n,
        mergeCommits store bound a b = mergeFrom store bound base ca cb) := by
  obtain ⟨ours, hours, hoa⟩ := allAncestors_spec store a
  obtain ⟨theirs, htheirs, hta⟩ := allAncestors_spec store b
  obtain ⟨n, hn⟩ := eventually_and hours htheirs
  have hrun : ∀ bound ≥ n, mergeCommits store bound a b =
      if (ours.find b.toHex).isSome then
        some ({ outcome := .alreadyUpToDate, mergeBase := some b }, store)
      else if (theirs.find a.toHex).isSome then
        some ({ outcome := .fastForward, mergeBase := some a, resultTree := some cb.tree }, store)
      else mergeCommon store bound (commonAncestors ours theirs) ca cb := by
    intro bound hm
    obtain ⟨ho, ht⟩ := hn bound hm
    simp only [mergeCommits, ha, hb, ho, ht]
  by_cases hab : store.Reaches a b
  · refine .inl ⟨hab, n, fun bound hm => ?_⟩
    rw [hrun bound hm, if_pos (AncestorsOf.find hoa |>.mpr hab)]
  · have hab' := mt (AncestorsOf.find hoa).mp hab
    by_cases hba : store.Reaches b a
    · refine .inr (.inl ⟨hab, hba, n, fun bound hm => ?_⟩)
      rw [hrun bound hm, if_neg hab', if_pos (AncestorsOf.find hta |>.mpr hba)]
    · have hba' := mt (AncestorsOf.find hta).mp hba
      refine .inr (.inr ⟨hab, hba, ?_⟩)
      rcases mergeCommon_spec hcyc hoa hta ca cb with ⟨hnone, hc⟩ | ⟨base, hbase, hc⟩
      · refine .inl ⟨hnone, n, fun bound hm => ?_⟩
        rw [hrun bound hm, if_neg hab', if_neg hba', hc]
      · obtain ⟨n', hn'⟩ := hc
        refine .inr ⟨base, hbase, max n n', fun bound hm => ?_⟩
        rw [hrun bound (le_of_max_le_left hm), if_neg hab', if_neg hba',
          hn' bound (le_of_max_le_right hm)]

/-- The trees of the history of `a` are well formed. -/
def ObjectStore.HistoryOk (store : ObjectStore) (a : ObjectId) : Prop :=
  ∀ c commit, store.Reaches a c → readCommitObject store c = some commit →
    store.WellFormed commit.tree

/-- A merge whose base is read goes on with the files of three trees. -/
theorem mergeFrom_spec {store : ObjectStore} {base : ObjectId} {cbase ca cb : Commit}
    (hbase : readCommitObject store base = some cbase) (hwf : store.WellFormed cbase.tree)
    (hwa : store.WellFormed ca.tree) (hwb : store.WellFormed cb.tree) :
    ∃ b o t, (store.Flattens cbase.tree b ∧ store.FilesOf cbase.tree b) ∧
      (store.Flattens ca.tree o ∧ store.FilesOf ca.tree o) ∧
      (store.Flattens cb.tree t ∧ store.FilesOf cb.tree t) ∧
      ∃ n, ∀ bound ≥ n, mergeFrom store bound base ca cb = some (mergeFiles store base b o t) := by
  obtain ⟨b, hfb, hb⟩ := hwf.flattens
  obtain ⟨o, hfo, ho⟩ := hwa.flattens
  obtain ⟨t, hft, ht⟩ := hwb.flattens
  obtain ⟨n, hn⟩ := eventually_and hfb (eventually_and hfo hft)
  refine ⟨b, o, t, ⟨hfb, hb⟩, ⟨hfo, ho⟩, ⟨hft, ht⟩, n, fun bound hm => ?_⟩
  obtain ⟨h₁, h₂, h₃⟩ := hn bound hm
  simp only [mergeFrom, hbase, h₁, h₂, h₃]

/-! ## The merge of one path -/

theorem le_of_cons_le_cons {c d : UInt8} {xs ys : Bytes} (h : c :: xs ≤ d :: ys) :
    c < d ∨ c = d ∧ xs ≤ ys := by
  rcases lt_or_eq_of_le h with h | h
  · exact (List.cons_lt_cons_iff.mp h).imp_right fun h => ⟨h.1, h.2.le⟩
  · obtain ⟨rfl, rfl⟩ := List.cons_eq_cons.mp h
    exact .inr ⟨rfl, le_refl _⟩

theorem le_append (dir s : Bytes) : dir ≤ dir ++ s := by
  induction dir with
  | nil =>
    cases s with
    | nil => exact le_refl _
    | cons => exact le_of_lt List.Lex.nil
  | cons c dir ih => exact List.cons_le_cons c ih

/-- What starts with `dir` stands in one block, from `dir` on. -/
theorem prefix_of_between {dir s x : Bytes} (h₁ : dir ≤ x) (h₂ : x ≤ dir ++ s) : dir <+: x := by
  induction dir generalizing x with
  | nil => exact List.nil_prefix
  | cons c dir ih =>
    cases x with
    | nil => exact absurd h₁ (not_le_of_gt List.Lex.nil)
    | cons d x =>
      rcases le_of_cons_le_cons h₁ with hlt | ⟨rfl, hx⟩ <;>
        rcases le_of_cons_le_cons h₂ with hgt | ⟨he, hy⟩
      · exact absurd hlt (lt_asymm hgt)
      · exact absurd he (ne_of_gt hlt)
      · exact absurd hgt (lt_irrefl _)
      · exact List.cons_prefix_cons.mpr ⟨rfl, ih hx hy⟩

/-- `otherSideUsesAsDirectory` finds a file below the path if there is one. -/
theorem otherSideUsesAsDirectory_iff (otherFiles : Files) (path : Bytes) :
    otherSideUsesAsDirectory otherFiles path = true ↔
      ∃ p blob, otherFiles.find p = some blob ∧ path ++ [SLASH] <+: p := by
  have hsorted := otherFiles.sorted
  simp only [SortedTable.find_eq_some_iff, otherSideUsesAsDirectory]
  generalize otherFiles.entries = es at *
  constructor
  · intro h
    split at h
    · cases h
    · rename_i e he
      exact ⟨e.1, e.2, List.mem_of_find?_eq_some he, List.isPrefixOf_iff_prefix.mp h⟩
  · rintro ⟨p, blob, hm, s, rfl⟩
    induction es with
    | nil => cases hm
    | cons e es ih =>
      obtain ⟨hlt, hsorted⟩ := List.pairwise_cons.mp hsorted
      by_cases he : e.1 < path ++ [SLASH]
      · rw [List.find?_cons_of_neg (by simpa using he)]
        refine ih hsorted ((List.mem_cons.mp hm).resolve_left ?_)
        rintro rfl
        exact absurd he (not_lt_of_ge (le_append _ _))
      · rw [List.find?_cons_of_pos (by simpa using he)]
        refine List.isPrefixOf_iff_prefix.mpr (prefix_of_between (s := s) (not_lt.mp he) ?_)
        rcases List.mem_cons.mp hm with rfl | hm
        · exact le_refl _
        · exact (hlt _ hm).le

/-- What a path without a file and a directory of its name is merged to. -/
def PathMerge.of (path : Bytes) (base ours theirs : Option ObjectId) : PathMerge :=
  match merge3 base ours theirs with
  | some (some id) => .file id
  | some none => .absent
  | none =>
    .conflict ⟨path, if ours.isSome && theirs.isSome then
        if base.isSome then .modifyModify else .addAdd
      else .modifyDelete, ours.getD .zero, theirs.getD .zero⟩

/-- The cases of the loop are a three-way merge behind the two tests for directories. -/
theorem mergePath_eq (baseFiles oursFiles theirsFiles : Files) (path : Bytes) :
    mergePath baseFiles oursFiles theirsFiles path =
      if (oursFiles.find path).isSome ∧ otherSideUsesAsDirectory theirsFiles path = true then
        .conflict ⟨path, .fileDirectory, (oursFiles.find path).getD .zero, .zero⟩
      else if (theirsFiles.find path).isSome ∧ otherSideUsesAsDirectory oursFiles path = true then
        .conflict ⟨path, .fileDirectory, .zero, (theirsFiles.find path).getD .zero⟩
      else .of path (baseFiles.find path) (oursFiles.find path) (theirsFiles.find path) := by
  unfold mergePath
  simp only [Bool.and_eq_true]
  refine if_congr Iff.rfl rfl (if_congr Iff.rfl rfl ?_)
  generalize baseFiles.find path = b
  generalize oursFiles.find path = o
  generalize theirsFiles.find path = t
  -- whether each side has the path, and which of the versions are the same
  cases b with
  | none =>
    cases o with
    | none => cases t <;> simp [PathMerge.of, merge3]
    | some ours =>
      cases t with
      | none => simp [PathMerge.of, merge3]
      | some theirs => by_cases he : ours = theirs <;> simp [PathMerge.of, merge3, he]
  | some base =>
    cases o with
    | none =>
      cases t with
      | none => simp [PathMerge.of, merge3]
      | some theirs => by_cases ht : theirs = base <;> simp [PathMerge.of, merge3, ht]
    | some ours =>
      cases t with
      | none => by_cases ho : ours = base <;> simp [PathMerge.of, merge3, ho]
      | some theirs =>
        by_cases ho : ours = base <;> by_cases ht : theirs = base <;>
          by_cases he : ours = theirs <;> simp [PathMerge.of, merge3, ho, ht, he]

/-- The conflict that a round reports. -/
def PathMerge.toConflict : PathMerge → Option MergeConflict
  | conflict c => some c
  | _ => none

theorem conflicts_foldl (merge : Bytes → PathMerge) (paths : List Bytes)
    (acc : Files × List MergeConflict) :
    (paths.foldl (fun acc path => (merge path).apply path acc) acc).2 =
      acc.2 ++ paths.filterMap fun path => (merge path).toConflict := by
  induction paths generalizing acc with
  | nil => simp
  | cons path paths ih =>
    rw [List.foldl_cons, ih]
    cases h : merge path <;> simp [PathMerge.apply, PathMerge.toConflict, h]

theorem files_foldl (merge : Bytes → PathMerge) {paths : List Bytes} (hp : paths.Nodup)
    {acc : Files × List MergeConflict} (hacc : ∀ path ∈ paths, acc.1.find path = none) (p : Bytes)
    (id : ObjectId) :
    (paths.foldl (fun acc path => (merge path).apply path acc) acc).1.find p = some id ↔
      (p ∈ paths ∧ merge p = .file id) ∨ acc.1.find p = some id := by
  induction paths generalizing acc with
  | nil => simp
  | cons path paths ih =>
    obtain ⟨hnot, hp⟩ := List.nodup_cons.mp hp
    obtain ⟨hpath, hacc⟩ := List.forall_mem_cons.mp hacc
    have hfind : ∀ p, ((merge path).apply path acc).1.find p = some id ↔
        (p = path ∧ merge p = .file id) ∨ acc.1.find p = some id := by
      intro p
      by_cases he : p = path
      · subst he
        cases hm : merge p <;> simp [PathMerge.apply, SortedTable.find_insert, hpath]
      · cases merge path <;> simp [PathMerge.apply, SortedTable.find_insert, he]
    rw [List.foldl_cons, ih hp fun p hm => ?_, hfind, ← or_assoc, List.mem_cons]
    · refine or_congr_left ?_
      rw [or_and_right, or_comm]
    · have hne : p ≠ path := fun he => hnot (he ▸ hm)
      have := hacc p hm
      cases merge path <;> simp [PathMerge.apply, SortedTable.find_insert, hne, this]

/-- What the loop over the paths has collected. -/
theorem mergePaths_spec (baseFiles oursFiles theirsFiles : Files) {paths : List Bytes}
    (hp : paths.Nodup) :
    (∀ p id, (mergePaths baseFiles oursFiles theirsFiles paths).1.find p = some id ↔
      p ∈ paths ∧ mergePath baseFiles oursFiles theirsFiles p = .file id) ∧
    (mergePaths baseFiles oursFiles theirsFiles paths).2 =
      paths.filterMap fun p => (mergePath baseFiles oursFiles theirsFiles p).toConflict :=
  ⟨fun p id => (files_foldl _ hp (fun _ _ => rfl) p id).trans (or_iff_left fun h => by cases h),
    conflicts_foldl _ _ _⟩

theorem mem_allPaths {baseFiles oursFiles theirsFiles : Files} {p : Bytes} :
    p ∈ allPaths baseFiles oursFiles theirsFiles ↔ (baseFiles.find p).isSome ∨
      (oursFiles.find p).isSome ∨ (theirsFiles.find p).isSome := by
  rw [allPaths, SortedTable.mem_keySet, List.mem_append, List.mem_append, SortedTable.mem_keys,
    SortedTable.mem_keys, SortedTable.mem_keys, or_assoc]

end Oggit
end Techuila
