import Techuila.Oggit.Trees

/-!
# Building trees from paths (`13-developer-ecosystem/oggit/tree_builder.cpp`)

* `TrieNode`: the directories that are being built. `TrieNode.Ok`: no name is a file and a directory,
  and no directory is empty.
* `find_insertPath`: a path that clashes with no other is inserted, and nothing else changes.
* `Storable`: the widths of the formats hold, and different trees of one build have different ids.
  `TrieNode.Ok.stored`: then the tree that is written has the files of the trie.
* `buildTreeFromPaths_spec`: paths none of which lies below another are all kept.
-/

namespace Techuila
namespace Oggit

open Techuila.Dist (Bytes ascii)
open SortedTable (insertEntry eraseEntry assoc)

/-- A directory: its files and its directories by name. -/
inductive TrieNode
  | node (files : List (Bytes × ObjectId)) (dirs : List (Bytes × TrieNode))

namespace TrieNode

def files : TrieNode → List (Bytes × ObjectId)
  | node files _ => files

def dirs : TrieNode → List (Bytes × TrieNode)
  | node _ dirs => dirs

def empty : TrieNode := node [] []

/-- A directory wins over a file of its name. The first case is not reached. -/
def insertPath (blob : ObjectId) : List Bytes → TrieNode → TrieNode
  | [], root => root
  | [name], root =>
    if (assoc root.dirs name).isNone then node (insertEntry name blob root.files) root.dirs
    else root
  | dirName :: segments, root =>
    node (eraseEntry dirName root.files)
      (insertEntry dirName (insertPath blob segments ((assoc root.dirs dirName).getD empty))
        root.dirs)

end TrieNode

/-- The entries for the files of a directory. -/
def fileEntries (files : List (Bytes × ObjectId)) : List TreeEntry :=
  files.map fun (name, blob) => ⟨name, blob, false⟩

mutual

def writeTrieAsTree : TrieNode → ObjectStore → ObjectId × ObjectStore
  | .node files dirs, store =>
    let (entries, store) := writeDirs dirs store
    store.writeObject .tree (serializeTree (fileEntries files ++ entries))

/-- The loop of `writeTrieAsTree` over the directories. -/
def writeDirs : List (Bytes × TrieNode) → ObjectStore → List TreeEntry × ObjectStore
  | [], store => ([], store)
  | (name, child) :: dirs, store =>
    let (childTreeId, store) := writeTrieAsTree child store
    let (entries, store) := writeDirs dirs store
    (⟨name, childTreeId, true⟩ :: entries, store)

end

/-- The trie of a table of files. -/
def trieOf (files : Files) : TrieNode :=
  files.entries.foldl (fun root (path, id) =>
    let segments := splitPath path
    if segments = [] then root else root.insertPath id segments) .empty

def buildTreeFromPaths (store : ObjectStore) (files : Files) : ObjectId × ObjectStore :=
  writeTrieAsTree (trieOf files) store

/-! ## The files of a trie -/

namespace TrieNode

@[simp] theorem files_node (files : List (Bytes × ObjectId)) (dirs : List (Bytes × TrieNode)) :
    (node files dirs).files = files := rfl

@[simp] theorem dirs_node (files : List (Bytes × ObjectId)) (dirs : List (Bytes × TrieNode)) :
    (node files dirs).dirs = dirs := rfl

/-- The blob at a path. -/
def find : List Bytes → TrieNode → Option ObjectId
  | [], _ => none
  | [name], root => assoc root.files name
  | name :: rest, root => (assoc root.dirs name).bind (find rest)

theorem find_cons {name : Bytes} {rest : List Bytes} (h : rest ≠ []) (root : TrieNode) :
    find (name :: rest) root = (assoc root.dirs name).bind (find rest) := by
  cases rest with
  | nil => exact absurd rfl h
  | cons => rfl

theorem find_empty (path : List Bytes) : find path empty = none := by
  cases path with
  | nil => rfl
  | cons name rest =>
    cases rest <;> rfl

/-- A name that the tree format can hold and that stands for itself in a path. -/
def NameOk (name : Bytes) : Prop := Plain name ∧ name.length < 2 ^ 32

/-- Names are distinct and in order, and every directory has a file in it. -/
inductive Ok : TrieNode → Prop
  | node {files : List (Bytes × ObjectId)} {dirs : List (Bytes × TrieNode)} :
      files.Pairwise (fun a b => a.1 < b.1) → dirs.Pairwise (fun a b => a.1 < b.1) →
      (∀ f ∈ files, ∀ d ∈ dirs, f.1 ≠ d.1) → (∀ f ∈ files, NameOk f.1) → (∀ d ∈ dirs, NameOk d.1) →
      (∀ d ∈ dirs, Ok d.2) → (∀ d ∈ dirs, ∃ path blob, find path d.2 = some blob) →
      Ok (node files dirs)

theorem Ok.empty : Ok empty := by
  refine .node .nil .nil ?_ ?_ ?_ ?_ ?_ <;> exact fun _ h => absurd h List.not_mem_nil

theorem Ok.find_nonempty {root : TrieNode} (h : Ok root) {name : Bytes} {child : TrieNode}
    (hc : assoc root.dirs name = some child) :
    Ok child ∧ ∃ path blob, find path child = some blob := by
  cases h with
  | node _ hd _ _ _ hok hne =>
    have hm := (SortedTable.mem_iff_assoc hd).mpr hc
    exact ⟨hok _ hm, hne _ hm⟩

/-- The directory that an insertion goes on in. -/
theorem Ok.child {root : TrieNode} (h : Ok root) (name : Bytes) :
    Ok ((assoc root.dirs name).getD .empty) := by
  cases hc : assoc root.dirs name with
  | none => exact .empty
  | some child => exact (h.find_nonempty hc).1

theorem find_child (root : TrieNode) (name : Bytes) (rest : List Bytes) :
    find rest ((assoc root.dirs name).getD .empty) = (assoc root.dirs name).bind (find rest) := by
  cases assoc root.dirs name with
  | none => exact find_empty rest
  | some child => rfl

theorem insertPath_cons (blob : ObjectId) (name : Bytes) {segments : List Bytes}
    (hne : segments ≠ []) (root : TrieNode) : insertPath blob (name :: segments) root =
      node (eraseEntry name root.files) (insertEntry name
        (insertPath blob segments ((assoc root.dirs name).getD empty)) root.dirs) := by
  cases segments with
  | nil => exact absurd rfl hne
  | cons => rfl

/-- A path below which and above which there is no file is inserted; nothing else changes. -/
theorem find_insertPath {blob : ObjectId} {segments : List Bytes} (hne : segments ≠ [])
    {root : TrieNode} (h : Ok root) (hbelow : ∀ rest ≠ [], find (segments ++ rest) root = none)
    (habove : ∀ path rest, rest ≠ [] → path ++ rest = segments → find path root = none)
    (path : List Bytes) :
    find path (insertPath blob segments root) =
      if path = segments then some blob else find path root := by
  induction segments generalizing root path with
  | nil => exact absurd rfl hne
  | cons name segments ih =>
    cases segments with
    | nil =>
      -- no directory has the name: it would have a file below the path
      have hd : assoc root.dirs name = none := by
        cases hc : assoc root.dirs name with
        | none => rfl
        | some child =>
          obtain ⟨_, path, blob, hf⟩ := h.find_nonempty hc
          have hp : path ≠ [] := by
            rintro rfl
            cases hf
          have := hbelow path hp
          rw [List.singleton_append, find_cons hp, hc] at this
          rw [show (some child).bind (find path) = find path child from rfl, hf] at this
          cases this
      rw [insertPath, hd]
      simp only [Option.isNone_none, if_true]
      cases path with
      | nil => simp [find]
      | cons n path =>
        cases path with
        | nil =>
          by_cases hn : n = name <;> simp [find, SortedTable.assoc_insertEntry, hn]
        | cons n' path => simp [find]
    | cons name' segments =>
      have ih := ih (List.cons_ne_nil _ _) (h.child name)
        (fun rest hr => by
          rw [find_child, ← find_cons (by simp)]
          exact hbelow rest hr)
        (fun path rest hr he => by
          rw [find_child]
          by_cases hp : path = []
          · subst hp
            cases assoc root.dirs name <;> rfl
          · rw [← find_cons hp]
            exact habove (name :: path) rest hr (by rw [List.cons_append, he]))
      rw [insertPath_cons blob name (List.cons_ne_nil _ _)]
      cases path with
      | nil => simp [find]
      | cons n path =>
        cases path with
        | nil =>
          by_cases hn : n = name
          · subst hn
            rw [if_neg (by simp), habove [n] (name' :: segments) (by simp) rfl]
            exact (SortedTable.assoc_eraseEntry ..).trans (if_pos rfl)
          · rw [if_neg (by simp [hn])]
            exact (SortedTable.assoc_eraseEntry ..).trans (if_neg hn)
        | cons n' path =>
          rw [find_cons (by simp), find_cons (by simp), dirs_node, SortedTable.assoc_insertEntry]
          by_cases hn : n = name
          · subst hn
            rw [if_pos rfl, Option.bind_some, ih, find_child]
            simp
          · rw [if_neg hn, if_neg (by simp [hn])]

theorem insertPath_nonempty {blob : ObjectId} {segments : List Bytes} (hne : segments ≠ [])
    {root : TrieNode} (h : Ok root) :
    ∃ path b, find path (insertPath blob segments root) = some b := by
  induction segments generalizing root with
  | nil => exact absurd rfl hne
  | cons name segments ih =>
    by_cases hs : segments = []
    · subst hs
      unfold insertPath
      cases hc : assoc root.dirs name with
      | none => exact ⟨[name], blob, (SortedTable.assoc_insertEntry ..).trans (if_pos rfl)⟩
      | some child =>
        obtain ⟨_, path, b, hf⟩ := h.find_nonempty hc
        have hp : path ≠ [] := by
          rintro rfl
          cases hf
        refine ⟨name :: path, b, ?_⟩
        rw [if_neg (by simp), find_cons hp, hc]
        exact hf
    · obtain ⟨path, b, hf⟩ := ih hs (h.child name)
      have hp : path ≠ [] := by
        rintro rfl
        cases hf
      refine ⟨name :: path, b, ?_⟩
      rw [insertPath_cons blob name hs, find_cons hp, dirs_node, SortedTable.assoc_insertEntry,
        if_pos rfl]
      exact hf

theorem Ok.insertPath {blob : ObjectId} {segments : List Bytes} (hne : segments ≠ [])
    (hs : ∀ s ∈ segments, NameOk s) {root : TrieNode} (h : Ok root) :
    Ok (insertPath blob segments root) := by
  induction segments generalizing root with
  | nil => exact absurd rfl hne
  | cons name segments ih =>
    obtain ⟨hname, hs⟩ := List.forall_mem_cons.mp hs
    by_cases hnil : segments = []
    · subst hnil
      unfold TrieNode.insertPath
      split
      · rename_i hnone
        cases h with
        | @node files dirs hfs hds hdisj hfn hdn hdo hdne =>
        have hnot : ∀ d ∈ dirs, name ≠ d.1 := by
          rintro ⟨k, child⟩ hd rfl
          rw [dirs_node, (SortedTable.mem_iff_assoc hds).mp hd] at hnone
          cases hnone
        refine .node (SortedTable.sorted_insertEntry _ _ hfs) hds (fun f hf d hd => ?_)
          (fun f hf => ?_) hdn hdo hdne
        · rcases SortedTable.mem_insertEntry hf with rfl | hf
          · exact hnot d hd
          · exact hdisj f hf d hd
        · rcases SortedTable.mem_insertEntry hf with rfl | hf
          · exact hname
          · exact hfn f hf
      · exact h
    · have hchild := ih hnil hs (h.child name)
      have hchildne := @insertPath_nonempty blob _ hnil _ (h.child name)
      rw [insertPath_cons blob name hnil]
      cases h with
      | @node files dirs hfs hds hdisj hfn hdn hdo hdne =>
      simp only [files_node, dirs_node] at hchild hchildne ⊢
      have hmem : ∀ {d}, d ∈ insertEntry name (TrieNode.insertPath blob segments
          ((assoc dirs name).getD TrieNode.empty)) dirs →
          d = (name, TrieNode.insertPath blob segments ((assoc dirs name).getD TrieNode.empty)) ∨
            d ∈ dirs := fun hd => SortedTable.mem_insertEntry hd
      refine .node (hfs.sublist List.filter_sublist) (SortedTable.sorted_insertEntry _ _ hds)
        (fun f hf d hd => ?_) (fun f hf => hfn f (List.mem_of_mem_filter hf)) (fun d hd => ?_)
        (fun d hd => ?_) (fun d hd => ?_)
      · have hfname : f.1 ≠ name := by simpa using (List.mem_filter.mp hf).2
        rcases hmem hd with rfl | hd
        · exact hfname
        · exact hdisj f (List.mem_of_mem_filter hf) d hd
      · rcases hmem hd with rfl | hd
        · exact hname
        · exact hdn d hd
      · rcases hmem hd with rfl | hd
        · exact hchild
        · exact hdo d hd
      · rcases hmem hd with rfl | hd
        · exact hchildne
        · exact hdne d hd

/-- Neither path lies below the other, and they differ. -/
def Apart (path path' : List Bytes) : Prop := ¬ path <+: path' ∧ ¬ path' <+: path

theorem find_insertAll {l : List (List Bytes × ObjectId)} (hne : ∀ x ∈ l, x.1 ≠ [])
    (hs : ∀ x ∈ l, ∀ s ∈ x.1, NameOk s) (hl : l.Pairwise fun x y => Apart x.1 y.1)
    {root : TrieNode} (h : Ok root)
    (hroot : ∀ path b, find path root = some b → ∀ x ∈ l, Apart path x.1) :
    Ok (l.foldl (fun root x => root.insertPath x.2 x.1) root) ∧
      ∀ path b, find path (l.foldl (fun root x => root.insertPath x.2 x.1) root) = some b ↔
        (path, b) ∈ l ∨ find path root = some b := by
  induction l generalizing root with
  | nil => exact ⟨h, fun path b => by simp⟩
  | cons x l ih =>
    obtain ⟨hx, hl⟩ := List.pairwise_cons.mp hl
    have hxne := hne x List.mem_cons_self
    have hapart := fun path b hf => hroot path b hf x List.mem_cons_self
    have hinsert := @find_insertPath x.2 _ hxne _ h
      (fun rest _ => Option.eq_none_iff_forall_ne_some.mpr fun b hf =>
        (hapart _ b hf).2 (List.prefix_append _ _))
      (fun path rest _ he => Option.eq_none_iff_forall_ne_some.mpr fun b hf =>
        (hapart _ b hf).1 ⟨rest, he⟩)
    obtain ⟨hok, hfind⟩ := ih (fun y hy => hne y (List.mem_cons_of_mem _ hy))
      (fun y hy => hs y (List.mem_cons_of_mem _ hy)) hl
      (h.insertPath hxne (hs x List.mem_cons_self)) (fun path b hf y hy => by
        rw [hinsert] at hf
        split at hf
        · rename_i he
          exact he ▸ hx y hy
        · exact hroot path b hf y (List.mem_cons_of_mem _ hy))
    refine ⟨hok, fun path b => (hfind path b).trans ?_⟩
    rw [hinsert, List.mem_cons, Prod.ext_iff]
    by_cases he : path = x.1
    · have hnone : ∀ b, find path root ≠ some b := fun b hf =>
        (hapart path b hf).1 (he ▸ List.prefix_refl _)
      have hnot : (path, b) ∉ l := fun hm => (hx _ hm).1 (he ▸ List.prefix_refl _)
      rw [if_pos he, Option.some_inj]
      exact ⟨fun h => h.elim (fun hm => absurd hm hnot) fun hb => .inl (.inl ⟨he, hb.symm⟩), fun h =>
        h.elim (fun h => h.elim (fun h => .inr h.2.symm) fun hm => absurd hm hnot)
          fun hf => absurd hf (hnone b)⟩
    · simp [he]

end TrieNode

open TrieNode (NameOk Apart)

/-- The files of a trie that is built from paths none of which lies below another. -/
theorem trieOf_spec {files : Files} (hpath : ∀ p blob, files.find p = some blob →
      ∃ path, path ≠ [] ∧ joinPath path = p ∧ ∀ s ∈ path, NameOk s)
    (hfree : ∀ path path' blob blob', (∀ s ∈ path, Plain s) → (∀ s ∈ path', Plain s) →
      files.find (joinPath path) = some blob → files.find (joinPath path') = some blob' →
      path <+: path' → path = path') :
    (trieOf files).Ok ∧ ∀ path blob, (trieOf files).find path = some blob ↔
      (∀ s ∈ path, Plain s) ∧ files.find (joinPath path) = some blob := by
  have hkey : ∀ e ∈ files.entries, splitPath e.1 ≠ [] ∧ joinPath (splitPath e.1) = e.1 ∧
      ∀ s ∈ splitPath e.1, NameOk s := by
    intro e he
    obtain ⟨path, hne, hj, hs⟩ := hpath e.1 e.2 (SortedTable.find_eq_some_iff.mpr he)
    have hsplit : splitPath e.1 = path := by
      rw [← hj, splitPath_joinPath fun s h => (hs s h).1]
    rw [hsplit]
    exact ⟨hne, hj, hs⟩
  have hfold : trieOf files = (files.entries.map fun e => (splitPath e.1, e.2)).foldl
      (fun root x => root.insertPath x.2 x.1) .empty := by
    rw [List.foldl_map]
    exact List.foldl_ext _ _ _ fun root e he => if_neg (hkey e he).1
  have hplain : ∀ e ∈ files.entries, ∀ s ∈ splitPath e.1, Plain s := fun e he s hs =>
    ((hkey e he).2.2 s hs).1
  have hfind : ∀ e ∈ files.entries, files.find (joinPath (splitPath e.1)) = some e.2 := by
    intro e he
    rw [(hkey e he).2.1]
    exact SortedTable.find_eq_some_iff.mpr he
  have hsub : ∀ e ∈ files.entries, ∀ e' ∈ files.entries, splitPath e.1 <+: splitPath e'.1 →
      e.1 = e'.1 := by
    intro e he e' he' hp
    rw [← (hkey e he).2.1, ← (hkey e' he').2.1, hfree _ _ _ _ (hplain e he) (hplain e' he')
      (hfind e he) (hfind e' he') hp]
  have hapart : (files.entries.map fun e => (splitPath e.1, e.2)).Pairwise
      fun x y => Apart x.1 y.1 := by
    refine List.pairwise_map.mpr (files.sorted.imp_of_mem fun he he' hlt => ⟨fun hp => ?_, fun hp => ?_⟩)
    · exact absurd (hsub _ he _ he' hp) (ne_of_lt hlt)
    · exact absurd (hsub _ he' _ he hp) (ne_of_gt hlt)
  obtain ⟨hok, hf⟩ := TrieNode.find_insertAll
    (List.forall_mem_map.mpr fun e he => (hkey e he).1)
    (List.forall_mem_map.mpr fun e he => (hkey e he).2.2) hapart .empty
    (fun path b h => by rw [TrieNode.find_empty] at h; cases h)
  rw [hfold]
  refine ⟨hok, fun path blob => (hf path blob).trans ?_⟩
  rw [TrieNode.find_empty, List.mem_map]
  constructor
  · rintro (⟨e, he, heq⟩ | h)
    · cases heq
      exact ⟨hplain e he, hfind e he⟩
    · cases h
  · rintro ⟨hp, hb⟩
    refine .inl ⟨(joinPath path, blob), SortedTable.find_eq_some_iff.mp hb, ?_⟩
    rw [splitPath_joinPath hp]

/-! ## The trees that are written -/

def treeId (entries : List TreeEntry) : ObjectId := hashObject .tree (serializeTree entries)

mutual

/-- The id of the tree for a directory. -/
def TrieNode.id : TrieNode → ObjectId
  | .node files dirs => treeId (fileEntries files ++ dirEntries dirs)

/-- The entries for the directories of a directory. -/
def dirEntries : List (Bytes × TrieNode) → List TreeEntry
  | [] => []
  | (name, child) :: dirs => ⟨name, child.id, true⟩ :: dirEntries dirs

end

mutual

/-- The trees that are written for a directory, in their order. -/
def TrieNode.trees : TrieNode → List (List TreeEntry)
  | .node files dirs => treesOf dirs ++ [fileEntries files ++ dirEntries dirs]

def treesOf : List (Bytes × TrieNode) → List (List TreeEntry)
  | [] => []
  | (_, child) :: dirs => child.trees ++ treesOf dirs

end

/-- Trees written one after the other. -/
def writeTrees (store : ObjectStore) (trees : List (List TreeEntry)) : ObjectStore :=
  trees.foldl (fun store entries => (store.writeObject .tree (serializeTree entries)).2) store

theorem writeTrees_append (store : ObjectStore) (trees trees' : List (List TreeEntry)) :
    writeTrees store (trees ++ trees') = writeTrees (writeTrees store trees) trees' :=
  List.foldl_append

mutual

theorem writeTrieAsTree_eq : ∀ (node : TrieNode) (store : ObjectStore),
    writeTrieAsTree node store = (node.id, writeTrees store node.trees)
  | .node files dirs, store => by
    simp only [writeTrieAsTree, writeDirs_eq dirs store, TrieNode.id, TrieNode.trees,
      writeTrees_append]
    rfl

theorem writeDirs_eq : ∀ (dirs : List (Bytes × TrieNode)) (store : ObjectStore),
    writeDirs dirs store = (dirEntries dirs, writeTrees store (treesOf dirs))
  | [], _ => rfl
  | (name, child) :: dirs, store => by
    simp only [writeDirs, writeTrieAsTree_eq child store, writeDirs_eq dirs, dirEntries, treesOf,
      writeTrees_append]

end

/-- The counts and sizes of the trees fit the formats, and no two of them with different bytes have
one digest. -/
structure Storable (trees : List (List TreeEntry)) : Prop where
  count : ∀ entries ∈ trees, entries.length < 2 ^ 32
  size : ∀ entries ∈ trees, (serializeTree entries).length < 2 ^ 64
  ids : ∀ entries ∈ trees, ∀ entries' ∈ trees, treeId entries = treeId entries' →
    serializeTree entries = serializeTree entries'

theorem files_writeTree (store : ObjectStore) (entries : List TreeEntry) (id : ObjectId) :
    (store.writeObject .tree (serializeTree entries)).2.files id =
      if id = treeId entries then
        some (objectHeader .tree (serializeTree entries) ++ serializeTree entries)
      else store.files id := Function.update_apply ..

theorem files_writeTrees {trees : List (List TreeEntry)} (h : Storable trees) (store : ObjectStore)
    {entries : List TreeEntry} (he : entries ∈ trees) :
    (writeTrees store trees).files (treeId entries) =
      some (objectHeader .tree (serializeTree entries) ++ serializeTree entries) := by
  -- the last of the trees with this id was written last, and it has the same bytes
  have hlast : ∀ l : List (List TreeEntry), (∀ es ∈ l, es ∈ trees) → ∀ store,
      entries ∈ l ∨ store.files (treeId entries) =
        some (objectHeader .tree (serializeTree entries) ++ serializeTree entries) →
      (writeTrees store l).files (treeId entries) =
        some (objectHeader .tree (serializeTree entries) ++ serializeTree entries) := by
    intro l
    induction l with
    | nil => exact fun _ _ h => h.resolve_left List.not_mem_nil
    | cons es l ih =>
      intro hl store hor
      refine ih (fun es' hes' => hl es' (List.mem_cons_of_mem _ hes')) _ ?_
      rw [files_writeTree]
      by_cases hid : treeId entries = treeId es
      · rw [if_pos hid, h.ids entries he es (hl es List.mem_cons_self) hid]
        exact .inr rfl
      · rw [if_neg hid]
        refine hor.imp_left fun hm => (List.mem_cons.mp hm).resolve_left ?_
        rintro rfl
        exact hid rfl
  exact hlast trees (fun _ h => h) store (.inl he)

theorem loadTree_writeTrees {trees : List (List TreeEntry)} (h : Storable trees)
    (store : ObjectStore) {entries : List TreeEntry} (he : entries ∈ trees)
    (hnames : ∀ e ∈ entries, e.name.length < 2 ^ 32) :
    (writeTrees store trees).loadTree (treeId entries) = some (sortEntries entries) := by
  have hread := readObject_of_file (h.size entries he) rfl (files_writeTrees h store he)
  rw [ObjectStore.loadTree, treeId, hread]
  exact parseTree_serializeTree (h.count entries he) hnames

theorem mem_dirEntries {dirs : List (Bytes × TrieNode)} {e : TreeEntry} :
    e ∈ dirEntries dirs ↔ ∃ d ∈ dirs, e = ⟨d.1, d.2.id, true⟩ := by
  induction dirs with
  | nil => simp [dirEntries]
  | cons d dirs ih => rw [dirEntries, List.mem_cons, ih, List.exists_mem_cons_iff]

theorem mem_treesOf_iff {dirs : List (Bytes × TrieNode)} {entries : List TreeEntry} :
    entries ∈ treesOf dirs ↔ ∃ d ∈ dirs, entries ∈ d.2.trees := by
  induction dirs with
  | nil => simp [treesOf]
  | cons d dirs ih => rw [treesOf, List.mem_append, ih, List.exists_mem_cons_iff]

theorem map_name_dirEntries (dirs : List (Bytes × TrieNode)) :
    (dirEntries dirs).map (·.name) = dirs.map Prod.fst := by
  induction dirs with
  | nil => rfl
  | cons d dirs ih => rw [dirEntries, List.map_cons, ih, List.map_cons]

namespace TrieNode

theorem find_node {files : List (Bytes × ObjectId)} {dirs : List (Bytes × TrieNode)}
    (hfs : files.Pairwise fun a b => a.1 < b.1) (hds : dirs.Pairwise fun a b => a.1 < b.1)
    {path : List Bytes} {blob : ObjectId} :
    find path (node files dirs) = some blob ↔ (∃ name, path = [name] ∧ (name, blob) ∈ files) ∨
      ∃ d ∈ dirs, ∃ rest, path = d.1 :: rest ∧ find rest d.2 = some blob := by
  constructor
  · intro h
    cases path with
    | nil => cases h
    | cons name rest =>
      by_cases hr : rest = []
      · subst hr
        exact .inl ⟨name, rfl, (SortedTable.mem_iff_assoc hfs).mpr h⟩
      · rw [find_cons hr] at h
        obtain ⟨child, hc, hf⟩ := Option.bind_eq_some_iff.mp h
        exact .inr ⟨(name, child), (SortedTable.mem_iff_assoc hds).mpr hc, rest, rfl, hf⟩
  · rintro (⟨name, rfl, hm⟩ | ⟨⟨name, child⟩, hm, rest, rfl, hf⟩)
    · exact (SortedTable.mem_iff_assoc hfs).mp hm
    · have hr : rest ≠ [] := by
        rintro rfl
        cases hf
      rw [find_cons hr, dirs_node, (SortedTable.mem_iff_assoc hds).mp hm]
      exact hf

/-- The entries of a directory have distinct names. -/
theorem nodup_entries {files : List (Bytes × ObjectId)} {dirs : List (Bytes × TrieNode)}
    (hfs : files.Pairwise fun a b => a.1 < b.1) (hds : dirs.Pairwise fun a b => a.1 < b.1)
    (hdisj : ∀ f ∈ files, ∀ d ∈ dirs, f.1 ≠ d.1) :
    ((fileEntries files ++ dirEntries dirs).map TreeEntry.name).Nodup := by
  rw [List.map_append, List.nodup_append, map_name_dirEntries, fileEntries, List.map_map]
  refine ⟨hfs.map Prod.fst fun _ _ hlt => ne_of_lt hlt,
    hds.map Prod.fst fun _ _ hlt => ne_of_lt hlt, fun p hp q hq => ?_⟩
  obtain ⟨f, hf, rfl⟩ := List.mem_map.mp hp
  obtain ⟨d, hd, rfl⟩ := List.mem_map.mp hq
  exact hdisj f hf d hd

/-- A store that has the trees of a trie has the files of the trie in them. -/
theorem Ok.stored {root : TrieNode} (h : Ok root) {store : ObjectStore}
    (hload : ∀ entries ∈ root.trees, (∀ e ∈ entries, e.name.length < 2 ^ 32) →
      store.loadTree (treeId entries) = some (sortEntries entries)) :
    store.WellFormed root.id ∧ ∀ path, store.fileAt root.id path = find path root := by
  induction h with
  | @node files dirs hfs hds hdisj hfn hdn hdo hdne ih =>
    have hsub : ∀ d ∈ dirs, store.WellFormed d.2.id ∧
        ∀ path, store.fileAt d.2.id path = find path d.2 := fun d hd =>
      ih d hd fun entries he => hload entries (by
        rw [trees]
        exact List.mem_append_left _ (mem_treesOf_iff.mpr ⟨d, hd, he⟩))
    have hmem : ∀ {e : TreeEntry}, e ∈ sortEntries (fileEntries files ++ dirEntries dirs) ↔
        (∃ f ∈ files, e = ⟨f.1, f.2, false⟩) ∨ ∃ d ∈ dirs, e = ⟨d.1, d.2.id, true⟩ := by
      intro e
      rw [sortEntries, List.mem_insertionSort, List.mem_append, mem_dirEntries, fileEntries,
        List.mem_map]
      simp only [eq_comm]
    have hname : ∀ e ∈ sortEntries (fileEntries files ++ dirEntries dirs), NameOk e.name := by
      intro e he
      rcases hmem.mp he with ⟨f, hf, rfl⟩ | ⟨d, hd, rfl⟩
      · exact hfn f hf
      · exact hdn d hd
    have hroot : store.loadTree (TrieNode.node files dirs).id =
        some (sortEntries (fileEntries files ++ dirEntries dirs)) := by
      rw [TrieNode.id]
      refine hload _ (by rw [trees]; exact List.mem_append_right _ List.mem_cons_self) fun e he => ?_
      exact (hname e (List.mem_insertionSort _ |>.mpr he)).2
    have hnodup : ((sortEntries (fileEntries files ++ dirEntries dirs)).map (·.name)).Nodup := by
      exact ((List.perm_insertionSort _ _).map _).nodup_iff.mpr (nodup_entries hfs hds hdisj)
    refine ⟨.mk hroot hnodup (fun e he => (hname e he).1) fun e he hdir => ?_, fun path => ?_⟩
    · rcases hmem.mp he with ⟨f, _, rfl⟩ | ⟨d, hd, rfl⟩
      · cases hdir
      · exact (hsub d hd).1
    · refine Option.ext fun blob => ?_
      rw [ObjectStore.fileAt_some hroot hnodup, find_node hfs hds]
      constructor
      · rintro ⟨e, he, rest, rfl, hb⟩
        rcases hmem.mp he with ⟨f, hf, rfl⟩ | ⟨d, hd, rfl⟩
        · simp only [ObjectStore.fileBelow, Bool.false_eq_true, if_false] at hb
          split at hb
          · rename_i hr
            cases hb
            exact .inl ⟨f.1, by rw [hr], hf⟩
          · cases hb
        · exact .inr ⟨d, hd, rest, rfl, ((hsub d hd).2 rest).symm.trans hb⟩
      · rintro (⟨name, rfl, hm⟩ | ⟨d, hd, rest, rfl, hf⟩)
        · exact ⟨⟨name, blob, false⟩, hmem.mpr (.inl ⟨_, hm, rfl⟩), [], rfl, rfl⟩
        · exact ⟨⟨d.1, d.2.id, true⟩, hmem.mpr (.inr ⟨d, hd, rfl⟩), rest, rfl,
            ((hsub d hd).2 rest).trans hf⟩

end TrieNode

/-- Paths none of which lies below another are all kept when the tree is built, and no others. -/
theorem buildTreeFromPaths_spec {files : Files} (hpath : ∀ p blob, files.find p = some blob →
      ∃ path, path ≠ [] ∧ joinPath path = p ∧ ∀ s ∈ path, NameOk s)
    (hfree : ∀ path path' blob blob', (∀ s ∈ path, Plain s) → (∀ s ∈ path', Plain s) →
      files.find (joinPath path) = some blob → files.find (joinPath path') = some blob' →
      path <+: path' → path = path')
    (hs : Storable (trieOf files).trees) (store : ObjectStore) :
    (buildTreeFromPaths store files).2.WellFormed (buildTreeFromPaths store files).1 ∧
      (buildTreeFromPaths store files).2.FilesOf (buildTreeFromPaths store files).1 files := by
  obtain ⟨hok, hfind⟩ := trieOf_spec hpath hfree
  obtain ⟨hwf, hfile⟩ := hok.stored fun entries he hn => loadTree_writeTrees hs store he hn
  rw [buildTreeFromPaths, writeTrieAsTree_eq]
  refine ⟨hwf, fun p blob => ⟨fun h => ?_, ?_⟩⟩
  · obtain ⟨path, _, hj, hs⟩ := hpath p blob h
    exact ⟨path, hj, (hfile path).trans ((hfind path blob).mpr ⟨fun s h => (hs s h).1, by rw [hj, h]⟩)⟩
  · rintro ⟨path, rfl, hf⟩
    exact ((hfind path blob).mp ((hfile path).symm.trans hf)).2

end Oggit
end Techuila
