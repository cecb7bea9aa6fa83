import Techuila.Oggit.MergeExact

/-!
# Merging in the other direction

* `mergePath_comm`: with files of well-formed trees, a path is merged to the mirror image of what the
  other direction merges it to. Both directions test ours first, but a side cannot have a file and a
  directory of one name.
* `IsMergeBase.unique`: both directions choose the same base.
* `mergeCommits_symmetric`: the results of both directions mirror each other.
-/

namespace Techuila
namespace Oggit

open Techuila.Dist (Bytes ascii)
open ObjectStore (IsMergeBase)

/-- The conflict as the other side reports it. -/
def MergeConflict.swap (c : MergeConflict) : MergeConflict :=
  ⟨c.path, c.kind, c.theirsId, c.oursId⟩

def PathMerge.swap : PathMerge → PathMerge
  | conflict c => conflict c.swap
  | file id => file id
  | absent => absent

variable {b o t : Files}

theorem PathMerge.of_comm (path : Bytes) (base ours theirs : Option ObjectId) :
    PathMerge.of path base theirs ours = (PathMerge.of path base ours theirs).swap := by
  rw [PathMerge.of, PathMerge.of, ThreeWay.merge3_comm]
  split
  · rfl
  · rfl
  · rw [Bool.and_comm]
    rfl

/-- A well-formed tree does not have a file and files below it. -/
theorem not_usesAsDirectory {store : ObjectStore} {id : ObjectId} {files : Files}
    (h : store.FilesOf id files) (hwf : store.WellFormed id) {p : Bytes}
    (hf : (files.find p).isSome) : ¬ otherSideUsesAsDirectory files p = true := by
  intro hd
  obtain ⟨blob, hblob⟩ := Option.isSome_iff_exists.mp hf
  obtain ⟨p', blob', hf', hbelow⟩ := (otherSideUsesAsDirectory_iff files p).mp hd
  obtain ⟨path, rfl, hpath⟩ := (h p blob).mp hblob
  obtain ⟨path', rfl, hpath'⟩ := (h p' blob').mp hf'
  obtain ⟨rest, hrest⟩ := hbelow
  rw [List.append_assoc, List.singleton_append] at hrest
  obtain ⟨hne, hplain⟩ := hwf.plain hpath
  -- the segments of the longer path are those of the file and more
  have hsplit : path' = path ++ splitPath rest := by
    rw [← splitPath_joinPath (hwf.plain hpath').2, ← hrest, splitPath_below hne hplain]
  rw [hsplit] at hpath'
  rw [hsplit, hwf.apart hpath hpath', List.append_nil] at hrest
  have hlength := congrArg List.length hrest
  rw [List.length_append, List.length_cons] at hlength
  omega

theorem mergePath_comm {store : ObjectStore} {oid : ObjectId} (ho : store.FilesOf oid o)
    (hwo : store.WellFormed oid) (p : Bytes) : mergePath b t o p = (mergePath b o t p).swap := by
  rw [mergePath_eq, mergePath_eq, PathMerge.of_comm]
  by_cases hot : (o.find p).isSome ∧ otherSideUsesAsDirectory t p = true
  · have hto : ¬ ((t.find p).isSome ∧ otherSideUsesAsDirectory o p = true) := fun h =>
      not_usesAsDirectory ho hwo hot.1 h.2
    rw [if_pos hot, if_neg hto, if_pos hot]
    rfl
  · rw [if_neg hot]
    split
    · rfl
    · rfl

theorem allPaths_comm (b o t : Files) : allPaths b t o = allPaths b o t := by
  have hperm : (allPaths b t o).Perm (allPaths b o t) :=
    (List.perm_ext_iff_of_nodup (nodup_allPaths b t o) (nodup_allPaths b o t)).mpr fun p => by
      rw [mem_allPaths, mem_allPaths, or_comm (a := (t.find p).isSome = true)]
  exact hperm.eq_of_pairwise (fun _ _ _ _ h h' => absurd h (lt_asymm h'))
    (SortedTable.sorted_keySet _) (SortedTable.sorted_keySet _)

theorem mergedFiles_comm {store : ObjectStore} {oid : ObjectId} (ho : store.FilesOf oid o)
    (hwo : store.WellFormed oid) : mergedFiles b t o = mergedFiles b o t := by
  refine SortedTable.ext_find fun p => Option.ext fun id => ?_
  refine ((mergePaths_spec b t o (nodup_allPaths b t o)).1 p id).trans
    (Iff.trans ?_ ((mergePaths_spec b o t (nodup_allPaths b o t)).1 p id).symm)
  rw [allPaths_comm, mergePath_comm ho hwo]
  refine and_congr_right fun _ => ?_
  cases mergePath b o t p <;> simp [PathMerge.swap]

theorem foundConflicts_comm {store : ObjectStore} {oid : ObjectId} (ho : store.FilesOf oid o)
    (hwo : store.WellFormed oid) :
    foundConflicts b t o = (foundConflicts b o t).map MergeConflict.swap := by
  rw [foundConflicts_eq, foundConflicts_eq, allPaths_comm, List.map_filterMap]
  refine List.filterMap_congr fun p _ => ?_
  rw [mergePath_comm ho hwo]
  cases mergePath b o t p <;> rfl

namespace ObjectStore

variable {store : ObjectStore} {a b base base' : ObjectId}

theorem IsMergeBase.unique (h : store.IsMergeBase a b base) (h' : store.IsMergeBase a b base') :
    base = base' :=
  toHex_inj (le_antisymm (h.first _ h'.toIsLowest) (h'.first _ h.toIsLowest))

end ObjectStore

/-- The results of the two directions of one merge. -/
structure Mirrored (a b : ObjectId) (result result' : MergeResult) : Prop where
  mergeBase : result.mergeBase = result'.mergeBase
  error : result.error = result'.error
  upToDate : result.outcome = .alreadyUpToDate ↔ result'.outcome = .fastForward ∨ a = b
  upToDate' : result'.outcome = .alreadyUpToDate ↔ result.outcome = .fastForward ∨ a = b
  merged : result.outcome = .merged ↔ result'.outcome = .merged
  resultTree : result.outcome = .merged → result.resultTree = result'.resultTree
  conflict : result.outcome = .conflict ↔ result'.outcome = .conflict
  conflicts : result'.conflicts = result.conflicts.map MergeConflict.swap

/-- Two results that say the same apart from the sides of the conflicts. -/
theorem Mirrored.of_conflicts {a b : ObjectId} (hab : a ≠ b) {result : MergeResult}
    (h : result.outcome = .merged ∨ result.outcome = .conflict) :
    Mirrored a b result { result with conflicts := result.conflicts.map MergeConflict.swap } := by
  have hno : ∀ outcome, outcome = MergeOutcome.merged ∨ outcome = .conflict →
      (outcome = .alreadyUpToDate ↔ outcome = .fastForward ∨ a = b) := by
    rintro _ (rfl | rfl) <;> simp [hab]
  exact ⟨rfl, rfl, hno _ h, hno _ h, Iff.rfl, fun _ => rfl, Iff.rfl, rfl⟩

theorem mergeFiles_comm {store : ObjectStore} {oid : ObjectId} (ho : store.FilesOf oid o)
    (hwo : store.WellFormed oid) (base : ObjectId) : mergeFiles store base b t o =
      ({ (mergeFiles store base b o t).1 with
          conflicts := (mergeFiles store base b o t).1.conflicts.map MergeConflict.swap },
        (mergeFiles store base b o t).2) := by
  rw [mergeFiles_eq, mergeFiles_eq, mergedFiles_comm ho hwo,
    foundConflicts_comm ho hwo]
  by_cases hc : foundConflicts b o t = []
  · simp [hc]
  · simp [hc]

/-- The outcome of `mergeFiles` is one of the last two. -/
theorem outcome_mergeFiles (store : ObjectStore) (base : ObjectId) (b o t : Files) :
    (mergeFiles store base b o t).1.outcome = .merged ∨
      (mergeFiles store base b o t).1.outcome = .conflict := by
  rw [mergeFiles_eq]
  split
  · exact .inr rfl
  · exact .inl rfl

/-- Both directions of a merge return, with results that mirror each other. -/
theorem mergeCommits_symmetric {store : ObjectStore} (hcyc : store.Acyclic) {x y : ObjectId}
    {cx cy : Commit} (hx : readCommitObject store x = some cx)
    (hy : readCommitObject store y = some cy) (hhx : store.HistoryOk x) (hhy : store.HistoryOk y) :
    ∃ result result' store' , store.Merges x y result store' ∧
      store.Merges y x result' store' ∧ Mirrored x y result result' := by
  rcases mergeCommits_spec hcyc hx hy with ⟨hxy, hrun⟩ | ⟨hxy, hyx, hrun⟩ | ⟨hxy, hyx, hcase⟩
  · rcases mergeCommits_spec hcyc hy hx with ⟨hyx, hrun'⟩ | ⟨hyx, _, hrun'⟩ | ⟨_, hnxy, _⟩
    · obtain rfl := hcyc.antisymm hxy hyx
      exact ⟨_, _, _, hrun, hrun', ⟨rfl, rfl, by simp, by simp, by simp, fun _ => rfl, by simp, rfl⟩⟩
    · have hne : x ≠ y := fun he => hyx (he ▸ .refl)
      exact ⟨_, _, _, hrun, hrun', ⟨rfl, rfl, by simp, by simp [hne], by simp, by simp, by simp, rfl⟩⟩
    · exact absurd hxy hnxy
  · have hne : x ≠ y := fun he => hxy (he ▸ .refl)
    rcases mergeCommits_spec hcyc hy hx with ⟨_, hrun'⟩ | ⟨hnyx, _, _⟩ | ⟨hnyx, _, _⟩
    · exact ⟨_, _, _, hrun, hrun', ⟨rfl, rfl, by simp [hne], by simp, by simp, by simp, by simp, rfl⟩⟩
    · exact absurd hyx hnyx
    · exact absurd hyx hnyx
  · have hne : x ≠ y := fun he => hxy (he ▸ .refl)
    rcases mergeCommits_spec hcyc hy hx with ⟨h, _⟩ | ⟨_, h, _⟩ | ⟨_, _, hcase'⟩
    · exact absurd h hyx
    · exact absurd h hxy
    · rcases hcase with ⟨hnone, hrun⟩ | ⟨base, hbase, hrun⟩ <;>
        rcases hcase' with ⟨hnone', hrun'⟩ | ⟨base', hbase', hrun'⟩
      · exact ⟨_, _, _, hrun, hrun', .of_conflicts hne (.inr rfl)⟩
      · exact absurd ⟨hbase'.right, hbase'.left⟩ (hnone base')
      · exact absurd ⟨hbase.right, hbase.left⟩ (hnone' base)
      · obtain rfl := hbase.unique hbase'.comm
        obtain ⟨n, hn⟩ := eventually_and hrun hrun'
        cases hread : readCommitObject store base with
        | none =>
          have hcorrupt : ∀ c c' bound, mergeFrom store bound base c c' =
              some ({ error := .corruptTree, mergeBase := some base }, store) := by
            intro c c' bound
            rw [mergeFrom, hread]
          exact ⟨_, _, _, ⟨n, fun bound hb => (hn bound hb).1.trans (hcorrupt ..)⟩,
            ⟨n, fun bound hb => (hn bound hb).2.trans (hcorrupt ..)⟩, .of_conflicts hne (.inr rfl)⟩
        | some cbase =>
          have hwx := hhx x cx .refl hx
          have hwy := hhy y cy .refl hy
          have hwb := hhx base cbase hbase.left hread
          obtain ⟨b, o, t, ⟨hfb, _⟩, ⟨hfo, ho⟩, ⟨hft, _⟩, hfrom⟩ := mergeFrom_spec hread hwb hwx hwy
          obtain ⟨b', t', o', ⟨hfb', _⟩, ⟨hft', _⟩, ⟨hfo', _⟩, hfrom'⟩ :=
            mergeFrom_spec hread hwb hwy hwx
          obtain rfl := hfb.unique hfb'
          obtain rfl := hfo.unique hfo'
          obtain rfl := hft.unique hft'
          obtain ⟨k, hk⟩ := eventually_and hfrom hfrom'
          have hrun : store.Merges x y (mergeFiles store base b o t).1
              (mergeFiles store base b o t).2 := ⟨max n k, fun bound hb =>
            (hn bound (le_of_max_le_left hb)).1.trans (hk bound (le_of_max_le_right hb)).1⟩
          have hrun' : store.Merges y x _ _ := ⟨max n k, fun bound hb =>
            (hn bound (le_of_max_le_left hb)).2.trans ((hk bound (le_of_max_le_right hb)).2.trans
              (congrArg some (mergeFiles_comm ho hwx base)))⟩
          exact ⟨_, _, _, hrun, hrun', .of_conflicts hne (outcome_mergeFiles store base b o t)⟩

/-- Both directions of the merge of the fork. -/
theorem mergeCommits_symmetric_fork :
    ∃ result result' store', forkStore.Merges (commitId forkOurs) (commitId forkTheirs) result store' ∧
      forkStore.Merges (commitId forkTheirs) (commitId forkOurs) result' store' ∧
      Mirrored (commitId forkOurs) (commitId forkTheirs) result result' :=
  mergeCommits_symmetric acyclic_forkStore read_forkOurs read_forkTheirs
    (historyOk_forkStore read_forkOurs wellFormed_forkStore.2.1)
    (historyOk_forkStore read_forkTheirs wellFormed_forkStore.2.2)

end Oggit
end Techuila
