import Mathlib.Data.Set.Finite.Lemmas
import Techuila.Oggit.Codecs
import Techuila.Oggit.TreeBuilder

/-!
# What a built tree holds (`13-developer-ecosystem/oggit/tree_builder.cpp`)

Paths may lie below others here. A file loses to a directory of its name, whichever comes first.

* `find_insertPath_iff`: what an insertion does to every lookup.
* `find_insertList`: after insertions in any order, the paths that no other path lies below are left.
* `TrieNode.Ok.ext`: tries with the same files are the same.
* `buildTreeFromPaths_exact`: what is read back from the tree that is written.
-/

namespace Techuila
namespace Oggit

open Techuila.Dist (Bytes ascii)
open SortedTable (insertEntry eraseEntry assoc)

namespace TrieNode

/-- There is a file below the path. -/
def Below (path : List Bytes) (root : TrieNode) : Prop :=
  ∃ rest ≠ [], ∃ blob, find (path ++ rest) root = some blob

theorem find_ne_nil {path : List Bytes} {root : TrieNode} {blob : ObjectId}
    (h : find path root = some blob) : path ≠ [] := by
  rintro rfl
  cases h

theorem below_singleton {root : TrieNode} (h : Ok root) (name : Bytes) :
    Below [name] root ↔ assoc root.dirs name ≠ none := by
  constructor
  · rintro ⟨rest, hr, blob, hf⟩ hnone
    rw [List.singleton_append, find_cons hr, hnone] at hf
    cases hf
  · intro hsome
    obtain ⟨child, hc⟩ := Option.ne_none_iff_exists'.mp hsome
    obtain ⟨-, path, blob, hf⟩ := h.find_nonempty hc
    refine ⟨path, find_ne_nil hf, blob, ?_⟩
    rw [List.singleton_append, find_cons (find_ne_nil hf), hc]
    exact hf

theorem below_cons (root : TrieNode) (name : Bytes) (path : List Bytes) :
    path ≠ [] → (Below (name :: path) root ↔ Below path ((assoc root.dirs name).getD .empty)) := by
  intro hne
  have hfind : ∀ rest, find (name :: path ++ rest) root =
      find (path ++ rest) ((assoc root.dirs name).getD .empty) := by
    intro rest
    rw [List.cons_append, find_cons (List.append_ne_nil_of_left_ne_nil hne _), find_child]
  simp only [Below, hfind]

/-- A name is not both a file and a directory. -/
theorem Ok.no_file {root : TrieNode} (h : Ok root) {name : Bytes}
    (hd : assoc root.dirs name ≠ none) : assoc root.files name = none := by
  cases h with
  | @node files dirs hfs hds hdisj _ _ _ _ =>
    obtain ⟨child, hc⟩ := Option.ne_none_iff_exists'.mp hd
    by_contra hf
    obtain ⟨blob, hb⟩ := Option.ne_none_iff_exists'.mp hf
    exact hdisj _ ((SortedTable.mem_iff_assoc hfs).mpr hb) _ ((SortedTable.mem_iff_assoc hds).mpr hc) rfl

/-- What an insertion does: the file is there unless a file lies below it, the files above it are
gone, and the others stay. -/
theorem find_insertPath_iff {blob : ObjectId} {segments : List Bytes} (hne : segments ≠ [])
    {root : TrieNode} (h : Ok root) (path : List Bytes) (b : ObjectId) :
    find path (insertPath blob segments root) = some b ↔
      path = segments ∧ b = blob ∧ ¬ Below segments root ∨
        ¬ path <+: segments ∧ find path root = some b := by
  induction segments generalizing root path with
  | nil => exact absurd rfl hne
  | cons name segments ih =>
    cases path with
    | nil => simp [find]
    | cons n path =>
      rw [List.cons_prefix_cons, List.cons.injEq]
      by_cases hs : segments = []
      · subst hs
        rw [below_singleton h, insertPath]
        by_cases hd : assoc root.dirs name = none
        · rw [hd]
          simp only [Option.isNone_none, if_true]
          by_cases hp : path = []
          · subst hp
            by_cases hn : n = name <;>
              simp [find, SortedTable.assoc_insertEntry, hn, eq_comm]
          · simp [find_cons hp, hp]
        · have hsome : (assoc root.dirs name).isNone = false := by
            rw [← Bool.not_eq_true, Option.isNone_iff_eq_none]
            exact hd
          rw [hsome, if_neg Bool.false_ne_true]
          by_cases hp : path = []
          · subst hp
            by_cases hn : n = name
            · subst hn
              simp [find, h.no_file hd, hd]
            · simp [hn]
          · simp [hp]
      · rw [insertPath_cons blob name hs, below_cons root name segments hs]
        by_cases hp : path = []
        · subst hp
          by_cases hn : n = name <;>
            simp [find, SortedTable.assoc_eraseEntry, hn, Ne.symm hs]
        · rw [find_cons hp, find_cons hp, dirs_node, SortedTable.assoc_insertEntry]
          by_cases hn : n = name
          · subst hn
            rw [if_pos rfl, Option.bind_some, ih hs (h.child n), find_child]
            simp
          · rw [if_neg hn]
            simp [hn]

/-- Paths with blobs, inserted one after the other. -/
def insertList (l : List (List Bytes × ObjectId)) : TrieNode :=
  l.foldl (fun root x => root.insertPath x.2 x.1) .empty

/-- Among the paths below a path there is a longest one. -/
theorem exists_longest {l : List (List Bytes × ObjectId)} {path : List Bytes}
    (h : ∃ x ∈ l, path <+: x.1 ∧ x.1 ≠ path) :
    ∃ x ∈ l, (path <+: x.1 ∧ x.1 ≠ path) ∧ ∀ y ∈ l, x.1 <+: y.1 → y.1 = x.1 := by
  obtain ⟨x, hx, hbelow⟩ := h
  obtain ⟨y, ⟨hy, hpath, hne⟩, hmax⟩ := Set.exists_max_image
    {x | x ∈ l ∧ path <+: x.1 ∧ x.1 ≠ path} (fun x => x.1.length)
    ((List.finite_toSet l).subset fun _ hx => hx.1) ⟨x, hx, hbelow⟩
  refine ⟨y, hy, ⟨hpath, hne⟩, fun z hz hyz => ?_⟩
  have hzne : z.1 ≠ path := by
    intro e
    exact hne ((hpath.eq_of_length_le (e ▸ hyz.length_le)).symm)
  exact (hyz.eq_of_length_le (hmax z ⟨hz, hpath.trans hyz, hzne⟩)).symm

/-- After insertions in any order, the paths are left that no other path lies below. -/
theorem find_insertList {l : List (List Bytes × ObjectId)} (hne : ∀ x ∈ l, x.1 ≠ [])
    (hs : ∀ x ∈ l, ∀ s ∈ x.1, NameOk s) (hn : (l.map Prod.fst).Nodup) :
    Ok (insertList l) ∧ ∀ path b, find path (insertList l) = some b ↔
      (path, b) ∈ l ∧ ∀ y ∈ l, path <+: y.1 → y.1 = path := by
  induction l using List.reverseRecOn with
  | nil => exact ⟨.empty, fun path b => by simp [insertList, find_empty]⟩
  | append_singleton l x ih =>
    obtain ⟨hnel, hnex⟩ := List.forall_mem_append.mp hne
    obtain ⟨hsl, hsx⟩ := List.forall_mem_append.mp hs
    rw [List.map_append, List.nodup_append] at hn
    obtain ⟨hnl, -, hdisj⟩ := hn
    have hnot : ∀ y ∈ l, y.1 ≠ x.1 := fun y hy => hdisj _ (List.mem_map_of_mem hy) _ (by simp)
    obtain ⟨hok, hfind⟩ := ih hnel hsl hnl
    have hx := hnex x (List.mem_singleton_self x)
    have hstep : insertList (l ++ [x]) = (insertList l).insertPath x.2 x.1 := by
      rw [insertList, List.foldl_append]
      rfl
    have hbelow : Below x.1 (insertList l) ↔ ∃ y ∈ l, x.1 <+: y.1 ∧ y.1 ≠ x.1 := by
      constructor
      · rintro ⟨rest, hr, b, hf⟩
        exact ⟨_, ((hfind _ _).mp hf).1, List.prefix_append _ _, by simp [hr]⟩
      · intro h
        obtain ⟨y, hy, ⟨⟨rest, hrest⟩, hyx⟩, hmax⟩ := exists_longest h
        refine ⟨rest, fun e => hyx (by rw [← hrest, e, List.append_nil]), y.2, ?_⟩
        rw [hrest]
        exact (hfind _ _).mpr ⟨hy, hmax⟩
    rw [hstep]
    refine ⟨hok.insertPath hx (hsx x (List.mem_singleton_self x)), fun path b => ?_⟩
    rw [find_insertPath_iff hx hok, hfind, hbelow]
    constructor
    · rintro (⟨rfl, rfl, hno⟩ | ⟨hpre, hm, hall⟩)
      · refine ⟨by simp, List.forall_mem_append.mpr ⟨fun y hy hp => ?_, by simp⟩⟩
        by_contra hyx
        exact hno ⟨y, hy, hp, hyx⟩
      · exact ⟨List.mem_append_left _ hm, List.forall_mem_append.mpr ⟨hall,
          List.forall_mem_singleton.mpr fun hp => absurd hp hpre⟩⟩
    · rintro ⟨hm, hall⟩
      obtain ⟨hbefore, hlast⟩ := List.forall_mem_append.mp hall
      rcases List.mem_append.mp hm with hm | hm
      · refine .inr ⟨fun hp => ?_, hm, hbefore⟩
        exact hnot _ hm (hlast x (List.mem_singleton_self x) hp).symm
      · obtain rfl := List.mem_singleton.mp hm
        exact .inl ⟨rfl, rfl, fun ⟨y, hy, hp, hyx⟩ => hyx (hbefore y hy hp)⟩

/-- Lists in the order of their names with the same lookups are the same. -/
theorem eq_of_assoc {β : Type} {l l' : List (Bytes × β)} (hl : l.Pairwise fun a b => a.1 < b.1)
    (hl' : l'.Pairwise fun a b => a.1 < b.1) (h : ∀ name, assoc l name = assoc l' name) : l = l' :=
  congrArg SortedTable.entries
    (SortedTable.ext_find (s := ⟨l, hl⟩) (t := ⟨l', hl'⟩) h)

/-- Tries with the same files are the same. -/
theorem Ok.ext {root root' : TrieNode} (h : Ok root) (h' : Ok root')
    (hfind : ∀ path, find path root = find path root') : root = root' := by
  induction h generalizing root' with
  | @node files dirs hfs hds hdisj hfn hdn hdo hdne ih =>
    have hroot : Ok (TrieNode.node files dirs) := .node hfs hds hdisj hfn hdn hdo hdne
    cases h' with
    | @node files' dirs' hfs' hds' hdisj' hfn' hdn' hdo' hdne' =>
      have hroot' : Ok (TrieNode.node files' dirs') := .node hfs' hds' hdisj' hfn' hdn' hdo' hdne'
      have hsome : ∀ name, assoc dirs name ≠ none ↔ assoc dirs' name ≠ none := by
        intro name
        have hiff := (below_singleton hroot name).symm.trans
          (Iff.trans ?_ (below_singleton hroot' name))
        · exact hiff
        · simp only [Below, hfind]
      have hdirs : dirs = dirs' := by
        refine eq_of_assoc hds hds' fun name => ?_
        cases hc : assoc dirs name with
        | none =>
          cases hc' : assoc dirs' name with
          | none => rfl
          | some child' => exact absurd hc ((hsome name).mpr (by simp [hc']))
        | some child =>
          obtain ⟨child', hc'⟩ := Option.ne_none_iff_exists'.mp ((hsome name).mp (by simp [hc]))
          have hm := (SortedTable.mem_iff_assoc hds).mpr hc
          refine (congrArg some (ih _ hm (hdo' _ ((SortedTable.mem_iff_assoc hds').mpr hc'))
            fun path => ?_)).trans hc'.symm
          by_cases hp : path = []
          · rw [hp]
            rfl
          · have hpath := hfind (name :: path)
            rw [find_cons hp, find_cons hp, dirs_node, dirs_node, hc, hc'] at hpath
            exact hpath
      have hfiles : files = files' := eq_of_assoc hfs hfs' fun name => hfind [name]
      rw [hfiles, hdirs]

/-- The entries of each tree that is written for a trie have distinct names. -/
theorem Ok.names_nodup {root : TrieNode} (h : Ok root) :
    ∀ entries ∈ root.trees, (entries.map TreeEntry.name).Nodup := by
  induction h with
  | @node files dirs hfs hds hdisj _ _ _ _ ih =>
    intro entries hm
    rw [trees, List.mem_append, List.mem_singleton] at hm
    rcases hm with hm | rfl
    · obtain ⟨d, hd, he⟩ := mem_treesOf_iff.mp hm
      exact ih d hd entries he
    · exact nodup_entries hfs hds hdisj

end TrieNode

open TrieNode (NameOk insertList find_insertList)

/-- The paths of the table are normalised and not empty. -/
def Normalised (files : Files) : Prop :=
  ∀ p blob, files.find p = some blob → ∃ path ≠ [], joinPath path = p ∧ ∀ s ∈ path, NameOk s

/-- The table has the blob at the path, which is a directory of no other path. -/
def Survives (files : Files) (p : Bytes) (blob : ObjectId) : Prop :=
  files.find p = some blob ∧
    ∀ p' blob', files.find p' = some blob' → ¬ p ++ [SLASH] <+: p'

/-- One path lies below another one just when its string starts with the other and a '/'. -/
theorem joinPath_below_iff {path path' : List Bytes} (hne : path ≠ []) (h : ∀ s ∈ path, Plain s)
    (h' : ∀ s ∈ path', Plain s) :
    joinPath path ++ [SLASH] <+: joinPath path' ↔ path <+: path' ∧ path' ≠ path := by
  constructor
  · rintro ⟨rest, hrest⟩
    have hsplit := splitPath_below hne h rest
    rw [List.append_assoc, List.singleton_append] at hrest
    rw [hrest, splitPath_joinPath h'] at hsplit
    refine ⟨⟨_, hsplit.symm⟩, ?_⟩
    rintro rfl
    have hlength := congrArg List.length hrest
    simp at hlength
  · rintro ⟨⟨rest, rfl⟩, hrest⟩
    have hne' : rest ≠ [] := fun e => hrest (by rw [e, List.append_nil])
    obtain ⟨s, rest, rfl⟩ := List.exists_cons_of_ne_nil hne'
    rw [joinPath_append, pathUnder_eq (joinPath_ne_nil hne h), List.flatMap_cons]
    exact ⟨s ++ rest.flatMap fun s => SLASH :: s, by simp⟩

/-- The files of the trie are the entries of the table that survive. -/
theorem trieOf_survives {files : Files} (hpath : Normalised files) :
    (trieOf files).Ok ∧ ∀ path blob, (trieOf files).find path = some blob ↔
      (∀ s ∈ path, Plain s) ∧ Survives files (joinPath path) blob := by
  have hkey : ∀ e ∈ files.entries, splitPath e.1 ≠ [] ∧ joinPath (splitPath e.1) = e.1 ∧
      ∀ s ∈ splitPath e.1, NameOk s := by
    intro e he
    obtain ⟨path, hne, hj, hs⟩ := hpath e.1 e.2 (SortedTable.find_eq_some_iff.mpr he)
    have hsplit : splitPath e.1 = path := by
      rw [← hj, splitPath_joinPath fun s h => (hs s h).1]
    rw [hsplit]
    exact ⟨hne, hj, hs⟩
  have hplain : ∀ e ∈ files.entries, ∀ s ∈ splitPath e.1, Plain s := fun e he s hs =>
    ((hkey e he).2.2 s hs).1
  have hfold : trieOf files = insertList (files.entries.map fun e => (splitPath e.1, e.2)) := by
    rw [insertList, List.foldl_map]
    exact List.foldl_ext _ _ _ fun root e he => if_neg (hkey e he).1
  have hnodup : ((files.entries.map fun e => (splitPath e.1, e.2)).map Prod.fst).Nodup := by
    rw [List.map_map]
    refine List.pairwise_map.mpr (files.sorted.imp_of_mem fun {e e'} he he' hlt heq => ?_)
    refine ne_of_lt hlt ?_
    rw [← (hkey e he).2.1, ← (hkey e' he').2.1]
    exact congrArg joinPath heq
  obtain ⟨hok, hfind⟩ := find_insertList (List.forall_mem_map.mpr fun e he => (hkey e he).1)
    (List.forall_mem_map.mpr fun e he => (hkey e he).2.2) hnodup
  rw [hfold]
  refine ⟨hok, fun path blob => (hfind path blob).trans ?_⟩
  rw [List.mem_map, List.forall_mem_map]
  have hbelow : ∀ e ∈ files.entries, ∀ e' ∈ files.entries,
      (splitPath e.1 <+: splitPath e'.1 → splitPath e'.1 = splitPath e.1) ↔
        ¬ e.1 ++ [SLASH] <+: e'.1 := by
    intro e he e' he'
    have hiff := joinPath_below_iff (hkey e he).1 (hplain e he) (hplain e' he')
    rw [(hkey e he).2.1, (hkey e' he').2.1] at hiff
    rw [hiff, not_and, not_not]
  constructor
  · rintro ⟨⟨e, he, heq⟩, hall⟩
    cases heq
    refine ⟨hplain e he, ?_, fun p' blob' hf => ?_⟩
    · rw [(hkey e he).2.1]
      exact SortedTable.find_eq_some_iff.mpr he
    · have he' := SortedTable.find_eq_some_iff.mp hf
      rw [(hkey e he).2.1]
      exact (hbelow e he _ he').mp (hall _ he')
  · rintro ⟨hp, hf, hall⟩
    have he := SortedTable.find_eq_some_iff.mp hf
    have hsplit := splitPath_joinPath hp
    refine ⟨⟨_, he, by rw [hsplit]⟩, fun e' he' => ?_⟩
    have hb := (hbelow _ he e' he').mpr (hall e'.1 e'.2 (SortedTable.find_eq_some_iff.mpr he'))
    rwa [hsplit] at hb

/-- What is read back from a tree are the entries of the table that survive; the entries of each tree
that is written are strictly in order; and the id depends on what survives only. -/
theorem buildTreeFromPaths_exact {files : Files} (hpath : Normalised files) (store : ObjectStore) :
    (Storable (trieOf files).trees → ∃ flat,
      (buildTreeFromPaths store files).2.Flattens (buildTreeFromPaths store files).1 flat ∧
        ∀ p blob, flat.find p = some blob ↔ Survives files p blob) ∧
    ((buildTreeFromPaths store files).2 = writeTrees store (trieOf files).trees ∧
      ∀ entries ∈ (trieOf files).trees, (sortEntries entries).Pairwise fun a b => a.name < b.name) ∧
    ∀ files', Normalised files' →
      (∀ p blob, Survives files p blob ↔ Survives files' p blob) → ∀ store',
      (buildTreeFromPaths store' files').1 = (buildTreeFromPaths store files).1 := by
  obtain ⟨hok, hfind⟩ := trieOf_survives hpath
  refine ⟨fun hs => ?_, ⟨?_, fun entries he => sortEntries_strict (hok.names_nodup entries he)⟩,
    fun files' hpath' hsame store' => ?_⟩
  · obtain ⟨hwf, hfile⟩ := hok.stored fun entries he hn => loadTree_writeTrees hs store he hn
    rw [buildTreeFromPaths, writeTrieAsTree_eq]
    obtain ⟨flat, hflat, hof⟩ := hwf.flattens
    refine ⟨flat, hflat, fun p blob => (hof p blob).trans ⟨?_, fun h => ?_⟩⟩
    · rintro ⟨path, rfl, hf⟩
      exact ((hfind path blob).mp ((hfile path).symm.trans hf)).2
    · obtain ⟨path, -, rfl, hs⟩ := hpath p blob h.1
      exact ⟨path, rfl, (hfile path).trans ((hfind path blob).mpr ⟨fun s hm => (hs s hm).1, h⟩)⟩
  · rw [buildTreeFromPaths, writeTrieAsTree_eq]
  · obtain ⟨hok', hfind'⟩ := trieOf_survives hpath'
    rw [buildTreeFromPaths, buildTreeFromPaths, writeTrieAsTree_eq, writeTrieAsTree_eq]
    refine congrArg TrieNode.id (hok'.ext hok fun path => Option.ext fun blob => ?_)
    rw [hfind, hfind', hsame]

/-- A file and a file below its name. -/
def shadowed : Files :=
  (SortedTable.insert .empty (ascii "a") ObjectId.zero).insert (ascii "a/b") ObjectId.zero

/-- The tree of the directory "a". -/
def shadowedChild : List TreeEntry := [⟨ascii "b", .zero, false⟩]

theorem trees_shadowed : (trieOf shadowed).trees =
    [shadowedChild, [⟨ascii "a", treeId shadowedChild, true⟩]] := by
  have h : trieOf shadowed = .node [] [(ascii "a", .node [(ascii "b", .zero)] [])] := by rfl
  rw [h]
  rfl

theorem normalised_shadowed : Normalised shadowed := by
  have hname : NameOk (ascii "a") ∧ NameOk (ascii "b") :=
    ⟨⟨⟨by decide, by decide⟩, by decide⟩, ⟨⟨by decide, by decide⟩, by decide⟩⟩
  intro p blob h
  rw [shadowed, SortedTable.find_insert] at h
  split at h
  · rename_i hp
    exact ⟨[ascii "a", ascii "b"], by simp, hp.symm, by simp [hname]⟩
  · rw [SortedTable.find_insert] at h
    split at h
    · rename_i hp
      exact ⟨[ascii "a"], by simp, hp.symm, by simp [hname]⟩
    · cases h

theorem storable_shadowed : Storable (trieOf shadowed).trees := by
  rw [trees_shadowed]
  refine ⟨?_, ?_, ?_⟩
  · simp [shadowedChild]
  · have hone : ∀ e : TreeEntry, e.name.length = 1 → (serializeTree [e]).length < 2 ^ 64 := by
      intro e he
      simp [serializeTree, sortEntries, entryBytes, stringBytes, sizeU32, e.id.property, he]
    simp only [List.forall_mem_cons]
    exact ⟨hone _ rfl, hone _ rfl, by simp⟩
  · have hne : treeId shadowedChild ≠ treeId [⟨ascii "a", treeId shadowedChild, true⟩] := by
      decide +kernel
    intro entries he entries' he' h
    simp only [List.mem_cons, List.not_mem_nil, or_false] at he he'
    rcases he with rfl | rfl <;> rcases he' with rfl | rfl
    · rfl
    · exact absurd h hne
    · exact absurd h.symm hne
    · rfl

/-- The file "a" is lost, and the file "a/b" is read back. -/
theorem buildTreeFromPaths_exact_shadowed : ∃ flat,
    (buildTreeFromPaths {} shadowed).2.Flattens (buildTreeFromPaths {} shadowed).1 flat ∧
      ∀ p blob, flat.find p = some blob ↔ Survives shadowed p blob :=
  (buildTreeFromPaths_exact normalised_shadowed {}).1 storable_shadowed

end Oggit
end Techuila
