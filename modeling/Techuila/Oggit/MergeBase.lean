import Techuila.Oggit.MergeSymmetry

/-!
# The merge base (`13-developer-ecosystem/oggit/merge.cpp`)

* `mergeFrom_base`: from the choice of the base on, every result names it.
* `mergeCommits_base`: the base is the lowest common ancestor with the smallest hex id, and the merge
  reports that there is no common ancestor just when there is none.
-/

namespace Techuila
namespace Oggit

open ObjectStore (IsMergeBase)

theorem mergeFiles_base (store : ObjectStore) (base : ObjectId) (baseFiles ours theirs : Files) :
    (mergeFiles store base baseFiles ours theirs).1.mergeBase = some base ∧
      (mergeFiles store base baseFiles ours theirs).1.error = .none := by
  unfold mergeFiles
  dsimp only
  split
  · exact ⟨rfl, rfl⟩
  · exact ⟨rfl, rfl⟩

/-- Every result names the base. -/
theorem mergeFrom_base {store store' : ObjectStore} {bound : Nat} {base : ObjectId} {ca cb : Commit}
    {result : MergeResult} (h : mergeFrom store bound base ca cb = some (result, store')) :
    result.mergeBase = some base ∧ result.error ≠ .noCommonAncestor := by
  unfold mergeFrom at h
  dsimp only at h
  have hcorrupt : ∀ {r : MergeResult × ObjectStore},
      some (({ error := .corruptTree, mergeBase := some base } : MergeResult), store) = some r →
        r.1.mergeBase = some base ∧ r.1.error ≠ .noCommonAncestor := by
    intro r e
    cases e
    exact ⟨rfl, by simp⟩
  split at h
  · exact hcorrupt h
  · split at h
    · cases h
    · exact hcorrupt h
    · split at h
      · cases h
      · exact hcorrupt h
      · split at h
        · cases h
        · exact hcorrupt h
        · have hr : (mergeFiles ..).1 = result := congrArg Prod.fst (Option.some_inj.mp h)
          rw [← hr]
          refine ⟨(mergeFiles_base ..).1, ?_⟩
          rw [(mergeFiles_base ..).2]
          simp

/-- Two runs of one merge give the same result. -/
theorem merges_unique {store store₁ store₂ : ObjectStore} {a b : ObjectId} {r₁ r₂ : MergeResult}
    (h₁ : store.Merges a b r₁ store₁) (h₂ : store.Merges a b r₂ store₂) : r₁ = r₂ := by
  obtain ⟨n, hn⟩ := eventually_and h₁ h₂
  obtain ⟨e₁, e₂⟩ := hn n (Nat.le_refl n)
  exact (Prod.mk.inj (Option.some_inj.mp (e₁.symm.trans e₂))).1

/-- The base of two readable commits of an acyclic history, neither an ancestor of the other. -/
theorem mergeCommits_base {store : ObjectStore} (hcyc : store.Acyclic) {a b : ObjectId}
    {ca cb : Commit} (ha : readCommitObject store a = some ca)
    (hb : readCommitObject store b = some cb) (hab : ¬ store.Reaches a b) (hba : ¬ store.Reaches b a) :
    (∀ result store', store.Merges a b result store' → (result.error = .noCommonAncestor ↔
      ¬ ∃ c, store.Reaches a c ∧ store.Reaches b c)) ∧
    ((¬ ∃ c, store.Reaches a c ∧ store.Reaches b c) →
      store.Merges a b { error := .noCommonAncestor } store) ∧
    ((∃ c, store.Reaches a c ∧ store.Reaches b c) → ∃ base, IsMergeBase store a b base ∧
      (∃ n, ∀ bound ≥ n, mergeCommits store bound a b = mergeFrom store bound base ca cb ∧
        ∃ ours theirs candidates rest, allAncestors store bound a = some ours ∧
          allAncestors store bound b = some theirs ∧
          candidateAncestors store bound (commonAncestors ours theirs) = some candidates ∧
          undominated candidates = base.toHex :: rest) ∧
      ∀ result store', store.Merges a b result store' → result.mergeBase = some base) := by
  rcases mergeCommits_spec hcyc ha hb with ⟨hreach, -⟩ | ⟨-, hreach, -⟩ | ⟨-, -, hcase⟩
  · exact absurd hreach hab
  · exact absurd hreach hba
  rcases hcase with ⟨hnone, hrun⟩ | ⟨base, hbase, hrun⟩
  · have hnot : ¬ ∃ c, store.Reaches a c ∧ store.Reaches b c := fun ⟨c, hc⟩ => hnone c hc
    refine ⟨fun result store' h => ?_, fun _ => hrun, fun h => absurd h hnot⟩
    rw [merges_unique h hrun]
    exact ⟨fun _ => hnot, fun _ => rfl⟩
  · have hcommon : ∃ c, store.Reaches a c ∧ store.Reaches b c := ⟨base, hbase.left, hbase.right⟩
    have hresult : ∀ result store', store.Merges a b result store' →
        result.mergeBase = some base ∧ result.error ≠ .noCommonAncestor := by
      intro result store' h
      obtain ⟨n, hn⟩ := eventually_and h hrun
      obtain ⟨e₁, e₂⟩ := hn n (Nat.le_refl n)
      exact mergeFrom_base (e₂.symm.trans e₁)
    refine ⟨fun result store' h => ?_, fun h => absurd hcommon h, fun _ => ⟨base, hbase, ?_,
      fun result store' h => (hresult result store' h).1⟩⟩
    · exact ⟨fun he => absurd he (hresult result store' h).2, fun hno => absurd hcommon hno⟩
    · obtain ⟨ours, hours, hoa⟩ := allAncestors_spec store a
      obtain ⟨theirs, htheirs, hta⟩ := allAncestors_spec store b
      obtain ⟨base', candidates, rest, hbase', hu, hcandidates⟩ :=
        candidates_spec hcyc hoa hta hbase.left hbase.right
      obtain rfl : base' = base := hbase'.unique hbase
      obtain ⟨n, hn⟩ := eventually_and hrun
        (eventually_and hours (eventually_and htheirs hcandidates))
      refine ⟨n, fun bound hbound => ?_⟩
      obtain ⟨h₁, h₂, h₃, h₄⟩ := hn bound hbound
      exact ⟨h₁, ours, theirs, candidates, rest, h₂, h₃, h₄, hu⟩

/-- The base of the two sides of the fork. -/
theorem mergeCommits_base_fork : ∃ base,
    IsMergeBase forkStore (commitId forkOurs) (commitId forkTheirs) base ∧
      ∀ result store', forkStore.Merges (commitId forkOurs) (commitId forkTheirs) result store' →
        result.mergeBase = some base := by
  have hparents : ∀ {commit : Commit},
      readCommitObject forkStore (commitId commit) = some commit →
      commitId forkBase ∈ commit.parents → forkStore.Reaches (commitId commit) (commitId forkBase) :=
    fun hread hm => .single (by rw [parentsOf_read hread]; exact hm)
  obtain ⟨base, hbase, -, hresult⟩ := (mergeCommits_base acyclic_forkStore read_forkOurs
    read_forkTheirs not_reaches_forkStore.1 not_reaches_forkStore.2).2.2 ⟨commitId forkBase,
      hparents read_forkOurs List.mem_cons_self, hparents read_forkTheirs List.mem_cons_self⟩
  exact ⟨base, hbase, hresult⟩

end Oggit
end Techuila
