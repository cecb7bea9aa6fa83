import Techuila.Dist.Refinement

/-!
# Election safety and the single vote

* `election_safety`: a term has one leader at most, over a whole run.
* `RaftCluster.leaders_unique`: so it has over the simulated network.
* `single_vote`: a node that never steps down in its own term votes once in a term;
  `single_vote_counterexample`: one that does may vote twice.
-/

namespace Techuila
namespace Dist

open Election (Steps)

/-! ## A split vote

Three nodes whose election timeout is one tick. Nodes 0 and 2 start an election of term 1, node 1
votes for node 0, and node 2 steps down for it. -/

namespace Split

def start : World := ⟨fun i => RaftNode.create i (peersOf 3 i) 1 1 1 3, []⟩
def candidate0 : World := start.timer 0
def candidate2 : World := candidate0.timer 2
def granted1 : World := candidate2.serve 1 ⟨0, 1, voteRequestBytes 1 0⟩
def leader0 : World := granted1.respond 0 ⟨1, responsePort 0, voteResponseBytes 1000000 1 true⟩
def follower2 : World := leader0.serve 2 ⟨0, 2, heartbeatBytes 1 0⟩

theorem initial_start : start.Initial 3 := ⟨rfl, fun _ _ => ⟨1, 1, 1, 3, rfl⟩⟩

theorem step_candidate0 : start.Step 3 candidate0 :=
  .timer 0 (by decide) (by decide)

theorem step_candidate2 : candidate0.Step 3 candidate2 :=
  .timer 2 (by decide) (by decide)

theorem step_granted1 : candidate2.Step 3 granted1 :=
  .serve 1 _ (by decide) (by decide) rfl trivial

theorem step_leader0 : granted1.Step 3 leader0 :=
  .respond 0 _ (by decide) (by decide) rfl

theorem step_follower2 : leader0.Step 3 follower2 :=
  .serve 2 _ (by decide) (by decide) rfl trivial

theorem run_leader0 : start.Run 3 leader0 :=
  (((Relation.ReflTransGen.single step_candidate0).tail step_candidate2).tail step_granted1).tail
    step_leader0

end Split

/-! ## Election safety -/

/-- No two nodes are leaders of the same term, at the same or at different times of a run. -/
theorem election_safety {n : Nat} (hn : n ≤ 0x40000000) {w₀ w₁ w₂ : World}
    (h₀ : World.Initial n w₀) (h₁ : World.Run n w₀ w₁) (h₂ : World.Run n w₁ w₂) {a b : NodeId}
    (ha : a.toNat < n) (hb : b.toNat < n) (hla : (w₁.nodes a).currentRole = .leader)
    (hlb : (w₂.nodes b).currentRole = .leader)
    (ht : (w₁.nodes a).currentTerm = (w₂.nodes b).currentTerm) : a = b := by
  obtain ⟨e, -, h⟩ := h₀.tracks.run (F := True) hn (fun _ _ _ _ => trivial) h₁
  exact h.leader_unique hn h₂ ha hb hla hlb ht

theorem election_safety_split : (Split.leader0.nodes 0).currentRole = .leader ∧
    (Split.follower2.nodes 0).currentRole = .leader ∧ (0 : NodeId) = 0 :=
  have h : (Split.leader0.nodes 0).currentRole = .leader := by decide
  have h' : (Split.follower2.nodes 0).currentRole = .leader := by decide
  ⟨h, h', election_safety (n := 3) (by decide) Split.initial_start Split.run_leader0
    (.single Split.step_follower2) (by decide) (by decide) h h' (by decide)⟩

namespace RaftCluster

/-- The nodes of a cluster, each with its own id, over a network without messages. -/
theorem create_refines (n : UInt32) (networkSeed : UInt64) (faults : FaultConfig)
    (timeoutSeed : UInt64) :
    (create n networkSeed faults timeoutSeed).Refines
      ⟨(create n networkSeed faults timeoutSeed).nodes, []⟩ :=
  ⟨rfl, fun _ _ => rfl, fun p hp => by
    simp [create, SimulatedNetwork.create, SimulatedNetwork.packets] at hp⟩

/-- The simulated cluster's leaders of one term are one node, over any sequence of its calls. -/
theorem leaders_unique {n : UInt32} (hn : n.toNat ≤ 0x40000000) {networkSeed : UInt64}
    {faults : FaultConfig} {timeoutSeed : UInt64} {c c' : RaftCluster}
    (h : Relation.ReflTransGen Step (create n networkSeed faults timeoutSeed) c)
    (h' : Relation.ReflTransGen Step c c') {a b : NodeId} (ha : a ∈ c.currentLeaders)
    (hb : b ∈ c'.currentLeaders) (ht : (c.nodes a).currentTerm = (c'.nodes b).currentTerm) :
    a = b := by
  obtain ⟨w, hr, hc, hn₁⟩ := Step.simulates_run h (create_refines n networkSeed faults timeoutSeed)
  obtain ⟨w', hr', hc', hn₂⟩ := Step.simulates_run h' hc
  rw [hn₁] at hr' hn₂
  have hn₁ : c.nodeCount = n.toNat := hn₁
  have hn₂ : c'.nodeCount = n.toNat := hn₂
  have h₀ : World.Initial n.toNat ⟨(create n networkSeed faults timeoutSeed).nodes, []⟩ :=
    ⟨rfl, fun i _ => ⟨_, _, _, _, rfl⟩⟩
  obtain ⟨e, -, he⟩ := h₀.tracks.run (F := True) hn (fun _ _ _ _ => trivial) hr
  obtain ⟨ha, hla⟩ := List.mem_filter.mp ha
  obtain ⟨hb, hlb⟩ := List.mem_filter.mp hb
  have hsize : n.toNat ≤ 2 ^ 32 := n.toNat_lt.le
  rw [hc.nodes] at hla ht
  rw [hc'.nodes] at hlb ht
  exact he.leader_unique hn hr' (hn₁ ▸ mem_ids ha (by rw [hn₁]; exact hsize))
    (hn₂ ▸ mem_ids hb (by rw [hn₂]; exact hsize)) (of_decide_eq_true hla) (of_decide_eq_true hlb) ht

end RaftCluster

/-! ## The single vote -/

/-- The step to `w'` gives the vote of node `v` for term `t` to `a`: the answer to a request
grants it, or the node starts an election and votes for itself. -/
inductive GivesVote (n : Nat) (w : World) (v : NodeId) (t : UInt64) (a : NodeId) : World → Prop
  | grant (p : Packet) : v.toNat < n → p ∈ w.sent → p.receiver = v →
      p.bytes = voteRequestBytes t a → (w.nodes v).grants t a = true →
      GivesVote n w v t a (w.serve v p)
  | own : v.toNat < n → a = v → (w.nodes v).currentTerm < ((w.nodes v).onTick.1).currentTerm →
      t = ((w.nodes v).onTick.1).currentTerm → GivesVote n w v t a (w.timer v)

/-- A delivery that clears no vote of the node's term. -/
def keepsVote (node : RaftNode) (p : Packet) : Prop := node.stepsDownInTerm p = false

/-- The answer to a request for a vote that conflicts with the one on record is a refusal. -/
theorem grants_of_pledged {node : RaftNode} {t : UInt64} {a b : NodeId} (hne : b ≠ a)
    (h : t < node.currentTerm ∨ (t = node.currentTerm ∧ node.votedForThisTerm = some a)) :
    node.grants t b = false := by
  apply RaftNode.grants_eq (s := node.currentTerm)
  have hle : ¬ t > node.currentTerm := by
    rcases h with h | ⟨h, -⟩
    · exact h.not_gt
    · exact fun hgt => hgt.ne' h
  simp only [RaftNode.handleRequestVote, decodeVoteRequest_encode, hle, if_false]
  rw [if_neg]
  rintro ⟨he, hv⟩
  rcases h with h | ⟨-, ha⟩
  · exact h.ne he
  · rcases hv with hv | hv <;> rw [ha] at hv
    · cases hv
    · exact hne (Option.some.inj hv).symm

/-- A step that gives a vote puts it on record. -/
theorem Tracks.givesVote {n : Nat} (hn : n ≤ 0x40000000) {w w' : World} {e : AbstractState}
    (h : Tracks n w e) {v a : NodeId} {t : UInt64} (hg : GivesVote n w v t a w') :
    ∃ e', Steps (members n) False e e' ∧ Tracks n w' e' ∧ (v, t, a) ∈ e'.voted := by
  cases hg with
  | grant p hi hp hr hb hgr =>
    have hk : (w.nodes v).stepsDownInTerm p = true → False := by
      simp [RaftNode.stepsDownInTerm, hb, parse_voteRequest,
        show ascii "RequestVote" ≠ ascii "Heartbeat" by decide]
    obtain ⟨e', hs, hr', hv⟩ := h.refines.serve hn hi hp hr hk
    exact ⟨e', hs, ⟨hr', h.inv.steps hs⟩, hv t a hb hgr⟩
  | own hi ha hlt ht =>
    obtain ⟨e', hs, hr, hv⟩ := h.refines.timer (F := False) hn h.inv hi hlt.le
    exact ⟨e', hs, ⟨hr, h.inv.steps hs⟩, by rw [ha, ht]; exact hv hlt.ne⟩

/-- In a run in which no heartbeat finds an active node in its own term, a node that gave its vote
refuses it to everyone else for the rest of the term. -/
theorem single_vote {n : Nat} (hn : n ≤ 0x40000000) {w₀ w₁ w₁' w₂ : World}
    (h₀ : World.Initial n w₀) (h₁ : World.RunIf keepsVote n w₀ w₁) {v a b : NodeId} {t : UInt64}
    (hg : GivesVote n w₁ v t a w₁') (h₂ : World.RunIf keepsVote n w₁' w₂) (hv : v.toNat < n)
    (hne : b ≠ a) : (w₂.nodes v).grants t b = false := by
  have hok : ∀ node p, keepsVote node p → node.stepsDownInTerm p = true → False :=
    fun node p hk ht => by rw [keepsVote, ht] at hk; cases hk
  obtain ⟨e₁, hs₁, ht₁⟩ := h₀.tracks.run hn hok h₁
  obtain ⟨e₁', hs₁', ht₁', hvoted⟩ := ht₁.givesVote hn hg
  obtain ⟨e₂, hs₂, ht₂⟩ := ht₁'.run hn hok h₂
  have hf : Election.Faithful e₂ :=
    Election.Faithful.steps (s := noVotes) (fun hv => by cases hv) ((hs₁.trans hs₁').trans hs₂)
  have hp := hf (hs₂.voted_mono hvoted)
  rw [Election.State.Pledged, ht₂.refines.ballot hv] at hp
  exact grants_of_pledged hne hp

theorem single_vote_split : (Split.granted1.nodes 2).grants 1 0 = false := by
  refine @single_vote 3 (by decide) Split.start Split.candidate0 Split.candidate2 _
    Split.initial_start ?_ 2 2 0 1 (.own (by decide) rfl (by decide)
    (by decide)) ?_ (by decide) (by decide)
  · exact .single (.timer 0 (by decide) (by decide))
  · exact .single (.serve 1 _ (by decide) (by decide) rfl
      (show _ = false by decide))

/-- Node 2 votes for itself in term 1, steps down for the leader of term 1, and then votes for
node 0 in term 1. -/
theorem single_vote_counterexample : Split.start.Initial 3 ∧ Split.start.Run 3 Split.candidate0 ∧
    GivesVote 3 Split.candidate0 2 1 2 Split.candidate2 ∧
    Split.candidate2.Run 3 Split.follower2 ∧
    (⟨0, 2, voteRequestBytes 1 0⟩ : Packet) ∈ Split.follower2.sent ∧
    (Split.follower2.nodes 2).grants 1 0 = true := by
  refine ⟨Split.initial_start, .single Split.step_candidate0, ?_, ?_, ?_, ?_⟩
  · exact .own (by decide) rfl (by decide) (by decide)
  · exact ((Relation.ReflTransGen.single Split.step_granted1).tail Split.step_leader0).tail
      Split.step_follower2
  · decide
  · decide

end Dist
end Techuila
