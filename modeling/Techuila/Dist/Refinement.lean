import Techuila.Lib.Election
import Techuila.Dist.Cluster

/-!
# The cluster refines the abstract election

* `Refines n w e`: the world `w` of `n` nodes refines the election `e`, with the nodes' ballots as
  they are and every packet accounted for by a vote, an acknowledgement or a leader.
* `Refines.serve`, `Refines.respond`, `Refines.timer`: each step of the world is a sequence of
  abstract steps. A node loses its vote in a term (`Election.Step.stepDown`) only where a heartbeat
  finds it active in its own term (`stepsDownInTerm`).
* `Tracks.run`: so is a run, and the invariant of the election holds in it.
-/

namespace Techuila
namespace Dist

open Election (Role Ballot Moves Steps)

/-! ## The abstract view -/

instance linearOrderUInt64 : LinearOrder UInt64 where
  le_refl := UInt64.le_refl
  le_trans _ _ _ := UInt64.le_trans
  lt_iff_le_not_ge a b := by
    rw [UInt64.not_le]
    exact ⟨fun h => ⟨UInt64.le_of_lt h, h⟩, And.right⟩
  le_antisymm _ _ := UInt64.le_antisymm
  le_total := UInt64.le_total
  toDecidableLE := inferInstance

def RaftRole.toRole : RaftRole → Role
  | .follower => .follower
  | .candidate => .candidate
  | .leader => .leader

namespace RaftNode

def ballot (n : RaftNode) : Ballot NodeId UInt64 :=
  ⟨n.currentRole.toRole, n.currentTerm, n.votedForThisTerm, n.votesReceived⟩

/-- The packet is a heartbeat of the node's own term, and the node is no follower. -/
def stepsDownInTerm (n : RaftNode) (p : Packet) : Bool :=
  n.currentRole != .follower &&
    match parseRequest p.bytes with
    | none => false
    | some request => request.method == ascii "Heartbeat" &&
        match decodeHeartbeat request.payload with
        | none => false
        | some (term, _) => term == n.currentTerm

theorem stepsDownInTerm_heartbeat (n : RaftNode) (s r : NodeId) (t : UInt64) (l : NodeId) :
    n.stepsDownInTerm ⟨s, r, heartbeatBytes t l⟩ =
      (n.currentRole != .follower && t == n.currentTerm) := by
  simp [stepsDownInTerm, parse_heartbeat]

/-- The server answers the candidate's request for a vote with `granted`. -/
def grants (n : RaftNode) (t : UInt64) (c : NodeId) : Bool :=
  match parseResponse (raftServer.handleRequest n (voteRequestBytes t c)).2 with
  | none => false
  | some response => response.ok &&
      match decodeVoteResponse response.payload with
      | none => false
      | some (_, granted) => granted

theorem grants_eq {n : RaftNode} {t s : UInt64} {c : NodeId} {g : Bool}
    (h : (n.handleRequestVote (encodeVoteRequest t c)).2 = encodeVoteResponse s g) :
    n.grants t c = g := by
  have hp := parse_voteResponse (t * 1000000 + c.toUInt64) s g
  rw [voteResponseBytes] at hp
  simp only [grants, handleRequest_vote, h, hp, decodeVoteResponse_encode, Bool.true_and]

end RaftNode

theorem toRole_eq_leader {r : RaftRole} : r.toRole = .leader ↔ r = .leader := by
  cases r <;> simp [RaftRole.toRole]

theorem toRole_eq_candidate {r : RaftRole} : r.toRole = .candidate ↔ r = .candidate := by
  cases r <;> simp [RaftRole.toRole]

theorem toRole_eq_follower {r : RaftRole} : r.toRole = .follower ↔ r = .follower := by
  cases r <;> simp [RaftRole.toRole]

/-! ## Members and ports -/

theorem nodup_nodeIds {n : Nat} (hn : n ≤ 2 ^ 32) : ((List.range n).map UInt32.ofNat).Nodup := by
  refine List.Nodup.map_on (fun a ha b hb e => ?_) List.nodup_range
  rw [List.mem_range] at ha hb
  have e' := congrArg UInt32.toNat e
  rwa [UInt32.toNat_ofNat', UInt32.toNat_ofNat', Nat.mod_eq_of_lt (by omega),
    Nat.mod_eq_of_lt (by omega)] at e'

theorem mem_nodeIds {n : Nat} {i : NodeId} (hi : i.toNat < n) :
    i ∈ (List.range n).map UInt32.ofNat :=
  List.mem_map.mpr ⟨i.toNat, List.mem_range.mpr hi, by simp⟩

/-- The ids of a cluster of `n` nodes. -/
def members (n : Nat) : Finset NodeId := ((List.range n).map UInt32.ofNat).toFinset

theorem mem_members {n : Nat} {i : NodeId} (hi : i.toNat < n) : i ∈ members n :=
  List.mem_toFinset.mpr (mem_nodeIds hi)

theorem card_members {n : Nat} (hn : n ≤ 2 ^ 32) : (members n).card = n := by
  rw [members, List.toFinset_card_of_nodup (nodup_nodeIds hn), List.length_map, List.length_range]

theorem length_peersOf {n : Nat} (hn : n ≤ 2 ^ 32) {i : NodeId} (hi : i.toNat < n) :
    (peersOf n i).length = n - 1 := by
  have e : peersOf n i = ((List.range n).map UInt32.ofNat).erase i := by
    rw [(nodup_nodeIds hn).erase_eq_filter, peersOf]
    congr 1
    funext j
    by_cases h : j = i <;> simp [h]
  rw [e, List.length_erase_of_mem (mem_nodeIds hi), List.length_map, List.length_range]

theorem of_mem_peersOf {n : Nat} (hn : n ≤ 2 ^ 32) {i j : NodeId} (h : j ∈ peersOf n i) :
    j.toNat < n ∧ j ≠ i := by
  obtain ⟨hm, hne⟩ := List.mem_filter.mp h
  obtain ⟨k, hk, rfl⟩ := List.mem_map.mp hm
  rw [List.mem_range] at hk
  refine ⟨?_, by simpa using hne⟩
  rwa [UInt32.toNat_ofNat', Nat.mod_eq_of_lt (Nat.lt_of_lt_of_le hk hn)]

theorem toNat_responsePort {c : NodeId} (hc : c.toNat < 0x40000000) :
    (responsePort c).toNat = c.toNat + 0x40000000 := by
  rw [responsePort, UInt32.toNat_add, Nat.mod_eq_of_lt]
  · rfl
  · show c.toNat + 0x40000000 < 2 ^ 32
    omega

theorem responsePort_inj {c d : NodeId} (hc : c.toNat < 0x40000000) (hd : d.toNat < 0x40000000)
    (h : responsePort c = responsePort d) : c = d := by
  have e := congrArg UInt32.toNat h
  rw [toNat_responsePort hc, toNat_responsePort hd] at e
  exact UInt32.toNat_inj.mp (by omega)

/-! ## The refinement -/

abbrev AbstractState := Election.State NodeId UInt64

/-- Every packet is a request of a member to another one, or a response to a member. -/
inductive Wire (n : Nat) (e : AbstractState) : Packet → Prop
  | vote {c r : NodeId} {t : UInt64} : c.toNat < n → r.toNat < n → r ≠ c →
      Wire n e ⟨c, r, voteRequestBytes t c⟩
  | heartbeat {l r : NodeId} {t : UInt64} : l.toNat < n → r.toNat < n → r ≠ l → (t, l) ∈ e.led →
      Wire n e ⟨l, r, heartbeatBytes t l⟩
  | response {v c : NodeId} {id : RequestId} {t : UInt64} {g : Bool} : v.toNat < n → c.toNat < n →
      (g = true → (v, t, c) ∈ e.voted ∪ e.acked) →
      Wire n e ⟨v, responsePort c, voteResponseBytes id t g⟩

structure Refines (n : Nat) (w : World) (e : AbstractState) : Prop where
  self : ∀ {i : NodeId}, i.toNat < n → (w.nodes i).self = i
  peers : ∀ {i : NodeId}, i.toNat < n → (w.nodes i).peers = peersOf n i
  ballot : ∀ {i : NodeId}, i.toNat < n → e.ballot i = (w.nodes i).ballot
  wire : ∀ p ∈ w.sent, Wire n e p

theorem Wire.mono {n : Nat} {M : Finset NodeId} {F : Prop} {e e' : AbstractState} {p : Packet}
    (h : Wire n e p) (hs : Steps M F e e') : Wire n e' p := by
  cases h with
  | vote hc hr hne => exact .vote hc hr hne
  | heartbeat hl hr hne hled => exact .heartbeat hl hr hne (hs.led_mono hled)
  | response hv hc hg =>
    exact .response hv hc fun g =>
      (hg g).imp (fun h => hs.voted_mono h) (fun h => hs.acked_mono h)

section Simulation

variable {n : Nat} {M : Finset NodeId} {F : Prop} {w : World} {e e' : AbstractState}
  {i : NodeId}

/-- Node `i` makes its abstract steps and sends packets that these account for. -/
theorem Refines.update (h : Refines n w e) (hi : i.toNat < n) {r : RaftNode × List Packet}
    (hc : RaftNode.SameConfig (w.nodes i) r.1) (hm : Moves M F e i r.1.ballot e')
    (hp : ∀ p ∈ r.2, Wire n e' p) : Refines n (w.update i r) e' where
  self {j} hj := by
    by_cases ej : j = i
    · subst ej; rw [World.update_nodes_self]; exact hc.1.trans (h.self hj)
    · rw [World.update_nodes_ne _ _ ej]; exact h.self hj
  peers {j} hj := by
    by_cases ej : j = i
    · subst ej; rw [World.update_nodes_self]; exact hc.2.trans (h.peers hj)
    · rw [World.update_nodes_ne _ _ ej]; exact h.peers hj
  ballot {j} hj := by
    by_cases ej : j = i
    · subst ej; rw [World.update_nodes_self]; exact hm.self
    · rw [World.update_nodes_ne _ _ ej, hm.others j ej]; exact h.ballot hj
  wire p hm' := by
    rcases List.mem_append.mp hm' with hm' | hm'
    · exact (h.wire p hm').mono hm.steps
    · exact hp p hm'

/-- What a node broadcasts goes to other nodes. -/
theorem Refines.broadcast_peer (hn : n ≤ 0x40000000) (h : Refines n w e) (hi : i.toNat < n) {node : RaftNode}
    (hc : RaftNode.SameConfig (w.nodes i) node) {bytes : Bytes} {p : Packet}
    (hp : p ∈ node.broadcast bytes) :
    ∃ r : NodeId, r.toNat < n ∧ r ≠ i ∧ p = ⟨i, r, bytes⟩ := by
  obtain ⟨r, hr, rfl⟩ := List.mem_map.mp hp
  rw [hc.2, h.peers hi] at hr
  obtain ⟨hr, hne⟩ := of_mem_peersOf (by omega) hr
  exact ⟨r, hr, hne, by rw [hc.1, h.self hi]⟩

theorem Refines.heartbeats_wire (hn : n ≤ 0x40000000) (h : Refines n w e) (hi : i.toNat < n) {node : RaftNode}
    (hc : RaftNode.SameConfig (w.nodes i) node) (hl : (node.currentTerm, i) ∈ e'.led) :
    ∀ p ∈ node.sendHeartbeats, Wire n e' p := by
  intro p hp
  obtain ⟨r, hr, hne, rfl⟩ := h.broadcast_peer hn hi hc hp
  have e : node.self = i := hc.1.trans (h.self hi)
  rw [RaftNode.requestId, e]
  exact .heartbeat hi hr hne hl

/-! ### Requests -/

/-- Moving to a later term, where a request carries one. -/
theorem moves_follow {node : RaftNode} (hb : e.ballot i = node.ballot) (t : UInt64) :
    ∃ e', Moves M F e i
      (if t > node.currentTerm then node.becomeFollower t else node).ballot e' := by
  split
  · rename_i ht
    exact ⟨_, .set (.follow i t (by rw [hb]; exact ht)) rfl⟩
  · exact ⟨e, .refl hb⟩

/-- The answer to a vote request is a vote. -/
theorem moves_requestVote {node : RaftNode} (hi : i ∈ M) (hb : e.ballot i = node.ballot)
    (t : UInt64) (c : NodeId) : ∃ e' t' g,
      Moves M F e i (node.handleRequestVote (encodeVoteRequest t c)).1.ballot e' ∧
      (node.handleRequestVote (encodeVoteRequest t c)).2 = encodeVoteResponse t' g ∧
      (g = true → t' = t ∧ (i, t, c) ∈ e'.voted) := by
  obtain ⟨e₁, h₁⟩ := moves_follow (M := M) (F := F) hb t
  generalize hn₁ : (if t > node.currentTerm then node.becomeFollower t else node) = n₁ at h₁
  simp only [RaftNode.handleRequestVote, decodeVoteRequest_encode, hn₁]
  split
  · rename_i hg
    refine ⟨_, t, true, h₁.trans (.set (.grant i c hi ?_) ?_), ?_, fun _ => ⟨rfl, ?_⟩⟩
    · rw [h₁.self]; exact hg.2
    · rw [h₁.self]; rfl
    · rw [hg.1]; rfl
    · rw [h₁.self, hg.1]; exact .inl rfl
  · exact ⟨e₁, _, false, h₁, rfl, fun h => by cases h⟩

/-- The answer to a heartbeat of another node is an acknowledgement. -/
theorem moves_heartbeat {node : RaftNode} (hb : e.ballot i = node.ballot) {t : UInt64} {l : NodeId}
    (hl : (t, l) ∈ e.led) (hne : l ≠ i)
    (hf : node.currentRole ≠ .follower → t = node.currentTerm → F) : ∃ e' t' g,
      Moves M F e i (node.handleHeartbeat (encodeHeartbeat t l)).1.ballot e' ∧
      (node.handleHeartbeat (encodeHeartbeat t l)).2 = encodeVoteResponse t' g ∧
      (g = true → (i, t', l) ∈ e'.acked) := by
  simp only [RaftNode.handleHeartbeat, decodeHeartbeat_encode]
  split
  · exact ⟨e, _, false, .refl hb, rfl, fun h => by cases h⟩
  rename_i hge
  obtain ⟨e₁, h₁⟩ : ∃ e', Moves M F e i (if t > node.currentTerm ∨
      node.currentRole ≠ .follower then node.becomeFollower t else node).ballot e' := by
    split
    · rename_i hc
      by_cases ht : t > node.currentTerm
      · exact ⟨_, .set (.follow i t (by rw [hb]; exact ht)) rfl⟩
      · have et : t = node.currentTerm := le_antisymm (not_lt.mp ht) (not_lt.mp hge)
        have hr := hc.resolve_left ht
        refine ⟨_, .set (.stepDown i l (hf hr et) ?_ hne ?_) ?_⟩
        · rw [hb]; exact fun e => hr (toRole_eq_follower.mp e)
        · rw [hb]; rw [et] at hl; exact hl
        · rw [hb, et]; rfl
    · exact ⟨e, .refl hb⟩
  have ht : (e₁.ballot i).term = t := by
    rw [h₁.self]
    split
    · rfl
    · rename_i hc
      exact le_antisymm (not_lt.mp hge) (not_lt.mp fun h => hc (.inl h))
  refine ⟨_, t, true, h₁.trans ⟨.single (.ack i l ?_), h₁.self, fun _ _ => rfl⟩, ?_, fun _ => ?_⟩
  · rw [ht]; exact h₁.steps.led_mono hl
  · rw [h₁.self] at ht
    rw [encodeHeartbeatAck_eq]
    exact congrArg (encodeVoteResponse · true) ht
  · rw [ht]; exact .inl rfl

/-- A served request is an abstract vote or acknowledgement. -/
theorem Refines.serve (hn : n ≤ 0x40000000) (h : Refines n w e) (hi : i.toNat < n) {p : Packet}
    (hp : p ∈ w.sent) (hr : p.receiver = i)
    (hf : (w.nodes i).stepsDownInTerm p = true → F) :
    ∃ e', Steps (members n) F e e' ∧ Refines n (w.serve i p) e' ∧
      ∀ t c, p.bytes = voteRequestBytes t c → (w.nodes i).grants t c = true →
        (i, t, c) ∈ e'.voted := by
  have hcfg := serveOne_config i (w.nodes i) (p.sender, p.bytes)
  cases h.wire p hp with
  | @vote c r t hc hr' hne =>
    obtain ⟨e', t', g, hm, ha, hg⟩ :=
      moves_requestVote (F := F) (mem_members hi) (h.ballot hi) t c
    have es : serveOne i raftServer (w.nodes i) (c, voteRequestBytes t c) =
        (((w.nodes i).handleRequestVote (encodeVoteRequest t c)).1,
          ⟨i, responsePort c, voteResponseBytes (t * 1000000 + c.toUInt64) t' g⟩) := by
      simp only [serveOne, handleRequest_vote, ha, voteResponseBytes]
    refine ⟨e', hm.steps, ?_, ?_⟩
    · rw [es] at hcfg
      simp only [World.serve, es]
      refine h.update hi hcfg hm fun q hq => ?_
      rw [List.mem_singleton.mp hq]
      exact .response hi hc fun hg' => .inl ((hg hg').1 ▸ (hg hg').2)
    · intro t₁ c₁ hb hgr
      obtain ⟨rfl, rfl⟩ := voteRequestBytes_inj hb
      rw [RaftNode.grants_eq ha] at hgr
      exact (hg hgr).2
  | @heartbeat l r t hl hr' hne hled =>
    obtain rfl : r = i := hr
    obtain ⟨e', t', g, hm, ha, hg⟩ :=
      moves_heartbeat (M := members n) (F := F) (h.ballot hi) hled hne.symm
        fun hrole ht => hf (by
          rw [RaftNode.stepsDownInTerm_heartbeat]
          simp [hrole, ht])
    have es : serveOne r raftServer (w.nodes r) (l, heartbeatBytes t l) =
        (((w.nodes r).handleHeartbeat (encodeHeartbeat t l)).1,
          ⟨r, responsePort l, voteResponseBytes (t * 1000000 + l.toUInt64) t' g⟩) := by
      simp only [serveOne, handleRequest_heartbeat, ha, voteResponseBytes]
    refine ⟨e', hm.steps, ?_, fun t₁ c₁ hb => absurd hb.symm voteRequest_ne_heartbeat⟩
    rw [es] at hcfg
    simp only [World.serve, es]
    refine h.update hi hcfg hm fun q hq => ?_
    rw [List.mem_singleton.mp hq]
    exact .response hi hl fun hg' => .inr (hg hg')
  | @response v c id t g hv hc hg =>
    -- no member is a response port
    have e := congrArg UInt32.toNat hr
    rw [toNat_responsePort (by omega)] at e
    omega

/-! ### Responses -/

/-- Half of the cluster and one more, in the arithmetic of the node. -/
theorem card_lt_of_majority {card : Nat} (hn : n ≤ 0x40000000) (hpos : 0 < n)
    (hc : UInt32.ofNat card ≥ (UInt32.ofNat (n - 1) + 1) / 2 + 1) : n < 2 * card := by
  have h := UInt32.le_iff_toNat_le.mp hc
  simp only [UInt32.toNat_add, UInt32.toNat_div, UInt32.toNat_ofNat', UInt32.reduceToNat] at h
  have := Nat.mod_le card (2 ^ 32)
  omega

/-- Winning makes the node a leader, for the packets of the first heartbeats too. -/
theorem moves_becomeLeader (node : RaftNode) (hb : e.ballot i = node.ballot)
    (hc : node.currentRole = .candidate) (hm : M.card < 2 * node.votesReceived.card) :
    ∃ e', Moves M F e i node.becomeLeader.1.ballot e' ∧ (node.currentTerm, i) ∈ e'.led := by
  refine ⟨_, .set (.win i ?_ ?_) ?_, .inl ?_⟩
  · rw [hb]; exact toRole_eq_candidate.mpr hc
  · rw [hb]; exact hm
  · rw [hb]; rfl
  · rw [hb]; rfl

/-- A handled response is a counted vote, the end of a candidacy, or nothing. -/
theorem Refines.respond (hn : n ≤ 0x40000000) (h : Refines n w e) (hi : i.toNat < n) {p : Packet}
    (hp : p ∈ w.sent) (hr : p.receiver = responsePort i) :
    ∃ e', Steps (members n) F e e' ∧ Refines n (w.respond i p) e' := by
  have hcfg := RaftNode.processResponse_config (w.nodes i) (p.sender, p.bytes)
  have hlt := toNat_responsePort (c := i) (by omega)
  unfold World.respond
  generalize hres : (w.nodes i).processResponse (p.sender, p.bytes) = r at hcfg ⊢
  cases h.wire p hp with
  | @response v c id t g hv hc hg =>
    obtain rfl : c = i := responsePort_inj (by omega) (by omega) hr
    simp only [RaftNode.processResponse, parse_voteResponse, decodeVoteResponse_encode,
      Bool.not_true, Bool.false_eq_true, if_false] at hres
    split at hres
    · rename_i ht
      subst hres
      have hm : Moves (members n) F e c ((w.nodes c).becomeFollower t).ballot _ :=
        .set (.follow c t (by rw [h.ballot hi]; exact ht)) rfl
      exact ⟨_, hm.steps, h.update hi hcfg hm (by simp)⟩
    split at hres
    · rename_i hcond
      obtain ⟨hrole, rfl, hgr⟩ := hcond
      have hcount : Moves (members n) F e c
          { w.nodes c with votesReceived := insert v (w.nodes c).votesReceived }.ballot _ :=
        .set (.count c v (by rw [h.ballot hi]; exact toRole_eq_candidate.mpr hrole)
          (by rw [h.ballot hi]; exact hg hgr)) (by rw [h.ballot hi]; rfl)
      split at hres
      · rename_i hmaj
        subst hres
        rw [h.peers hi, length_peersOf (by omega) hi] at hmaj
        obtain ⟨e', hwin, hled⟩ := moves_becomeLeader (M := members n) (F := F) _
          hcount.self hrole (by
            rw [card_members (by omega)]
            exact card_lt_of_majority hn (by omega) hmaj)
        have hm := hcount.trans hwin
        exact ⟨e', hm.steps, h.update hi hcfg hm (h.heartbeats_wire hn hi ⟨rfl, rfl⟩ hled)⟩
      · subst hres
        exact ⟨_, hcount.steps, h.update hi hcfg hcount (by simp)⟩
    · subst hres
      have hm : Moves (members n) F e c (w.nodes c).ballot e := .refl (h.ballot hi)
      exact ⟨e, .refl, h.update hi hcfg hm (by simp)⟩
  | @vote _ r _ _ hr' _ =>
    obtain rfl : r = responsePort i := hr
    omega
  | @heartbeat _ r _ _ hr' _ _ =>
    obtain rfl : r = responsePort i := hr
    omega

/-! ### Timers -/

theorem lt_add_one_of_le {t : UInt64} (h : t ≤ t + 1) : t < t + 1 := by
  refine lt_of_le_of_ne h fun e => ?_
  have : (1 : UInt64) = 0 := by simpa using e.symm
  cases this

/-- A candidacy is a vote of the node for itself; in a cluster of one it is won at once. -/
theorem moves_startElection (node : RaftNode) (hi : i ∈ M) (hb : e.ballot i = node.ballot)
    (hs : node.self = i) (ht : node.currentTerm < node.currentTerm + 1)
    (hM : node.peers = [] → M.card < 2) :
    ∃ e', Moves M F e i node.startElection.1.ballot e' ∧
      (i, node.currentTerm + 1, i) ∈ e'.voted := by
  have hc : Moves M F e i ⟨.candidate, node.currentTerm + 1, some i, {i}⟩ _ :=
    .set (.campaign i (node.currentTerm + 1) hi (by rw [hb]; exact ht)) rfl
  unfold RaftNode.startElection
  dsimp only
  split
  · rename_i hp
    obtain ⟨e', hw, -⟩ := moves_becomeLeader (M := M) (F := F)
      (RaftNode.resetElectionTimer { node with
        currentTerm := node.currentTerm + 1
        currentRole := .candidate
        votedForThisTerm := some node.self
        votesReceived := {node.self} })
      (by rw [hc.self, hs]; rfl) rfl
      (by
        show M.card < 2 * ({node.self} : Finset NodeId).card
        rw [Finset.card_singleton]
        exact hM (List.isEmpty_iff.mp hp))
    exact ⟨e', hc.trans hw, hw.steps.voted_mono (.inl rfl)⟩
  · exact ⟨_, ⟨hc.steps, by rw [hc.self, hs]; rfl, hc.others⟩, .inl rfl⟩

/-- A candidacy sends requests for the vote of the new term only. -/
theorem mem_startElection {node : RaftNode} {p : Packet} (hp : p ∈ node.startElection.2) :
    p ∈ node.broadcast (voteRequestBytes (node.currentTerm + 1) node.self) := by
  unfold RaftNode.startElection at hp
  dsimp only at hp
  split at hp
  · rename_i he
    have e : node.peers = [] := List.isEmpty_iff.mp he
    simp only [RaftNode.becomeLeader, RaftNode.sendHeartbeats, RaftNode.broadcast,
      RaftNode.resetElectionTimer, RaftNode.randomElectionTimeout, e, List.map_nil,
      List.append_nil, List.not_mem_nil] at hp
  · exact hp

/-- What a timer does: the heartbeats of a leader, a candidacy, or nothing but its countdown. -/
theorem onTick_cases (node : RaftNode) :
    (node.onTick.1.ballot = node.ballot ∧
      (node.onTick.2 = [] ∨ (node.currentRole = .leader ∧ node.onTick.2 = node.sendHeartbeats))) ∨
    (∃ node', node'.ballot = node.ballot ∧ RaftNode.SameConfig node node' ∧
      node.onTick = node'.startElection) := by
  unfold RaftNode.onTick
  split
  · rename_i hl
    dsimp only
    split <;> split
    · exact .inl ⟨rfl, .inr ⟨hl, rfl⟩⟩
    · exact .inl ⟨rfl, .inl rfl⟩
    · exact .inl ⟨rfl, .inr ⟨hl, rfl⟩⟩
    · exact .inl ⟨rfl, .inl rfl⟩
  · by_cases ht : node.ticksUntilElectionTimeout > 0
    · simp only [ht, ↓reduceIte]
      split
      · exact .inr ⟨_, rfl, ⟨rfl, rfl⟩, rfl⟩
      · exact .inl ⟨rfl, .inl rfl⟩
    · simp only [ht, ↓reduceIte]
      split
      · exact .inr ⟨node, rfl, .refl _, rfl⟩
      · exact .inl ⟨rfl, .inl rfl⟩

theorem startElection_term (node : RaftNode) :
    node.startElection.1.currentTerm = node.currentTerm + 1 := by
  unfold RaftNode.startElection
  dsimp only
  split <;> rfl

/-- A timer is a candidacy, the heartbeats of a leader, or nothing. -/
theorem Refines.timer (hn : n ≤ 0x40000000) (h : Refines n w e) (hI : Election.Inv (members n) e)
    (hi : i.toNat < n)
    (hw : (w.nodes i).currentTerm ≤ ((w.nodes i).onTick.1).currentTerm) :
    ∃ e', Steps (members n) F e e' ∧ Refines n (w.timer i) e' ∧
      ((w.nodes i).currentTerm ≠ ((w.nodes i).onTick.1).currentTerm →
        (i, ((w.nodes i).onTick.1).currentTerm, i) ∈ e'.voted) := by
  have hcfg := RaftNode.onTick_config (w.nodes i)
  have hb := h.ballot hi
  rcases onTick_cases (w.nodes i) with ⟨hbal, hsent⟩ | ⟨node, hbal, hc, htick⟩
  · have hm : Moves (members n) F e i (w.nodes i).onTick.1.ballot e :=
      .refl (by rw [hbal]; exact hb)
    refine ⟨e, .refl, h.update hi hcfg hm ?_, fun hne => ?_⟩
    · rcases hsent with hsent | ⟨hl, hsent⟩ <;> rw [hsent]
      · simp
      · refine h.heartbeats_wire hn hi (.refl _) ?_
        have hled := hI.leader (i := i) (by rw [hb]; exact toRole_eq_leader.mpr hl)
        rw [hb] at hled
        exact hled
    · exact absurd (congrArg Ballot.term hbal).symm hne
  · have ht : (w.nodes i).currentTerm = node.currentTerm := (congrArg Ballot.term hbal).symm
    have hs : node.self = i := hc.1.trans (h.self hi)
    rw [World.timer, htick]
    rw [htick, startElection_term, ht] at hw
    obtain ⟨e', hm, hv⟩ := moves_startElection (M := members n) (F := F) node
      (mem_members hi) (by rw [hb, hbal]) hs (lt_add_one_of_le hw) (fun hp => by
        rw [hc.2, h.peers hi] at hp
        have hlen := length_peersOf (by omega) hi
        rw [hp, List.length_nil] at hlen
        rw [card_members (by omega)]
        omega)
    refine ⟨e', hm.steps, ?_, fun _ => ?_⟩
    · refine h.update hi (hc.trans (RaftNode.startElection_config node)) hm fun p hp => ?_
      obtain ⟨r, hr, hne, rfl⟩ := h.broadcast_peer hn hi hc (mem_startElection hp)
      rw [hs]
      exact .vote hi hr hne
    · rw [startElection_term]
      exact hv

end Simulation

/-! ## Steps and runs -/

/-- The world refines an abstract election that its invariant holds of. -/
structure Tracks (n : Nat) (w : World) (e : AbstractState) : Prop where
  refines : Refines n w e
  inv : Election.Inv (members n) e

section Runs

variable {n : Nat} {F : Prop} {ok : RaftNode → Packet → Prop} {w w' : World}
  {e : AbstractState}

/-- A step of the world is a sequence of abstract steps. -/
theorem Tracks.step (hn : n ≤ 0x40000000) (h : Tracks n w e)
    (hok : ∀ node p, ok node p → node.stepsDownInTerm p = true → F)
    (hs : World.StepIf ok n w w') : ∃ e', Steps (members n) F e e' ∧ Tracks n w' e' := by
  have close : (∃ e', Steps (members n) F e e' ∧ Refines n w' e') →
      ∃ e', Steps (members n) F e e' ∧ Tracks n w' e' :=
    fun ⟨e', hs, hr⟩ => ⟨e', hs, hr, h.inv.steps hs⟩
  refine close ?_
  cases hs with
  | serve i p hi hp hr hk =>
    obtain ⟨e', hs, hr, -⟩ := h.refines.serve hn hi hp hr (hok _ _ hk)
    exact ⟨e', hs, hr⟩
  | respond i p hi hp hr => exact h.refines.respond hn hi hp hr
  | timer i hi hw =>
    obtain ⟨e', hs, hr, -⟩ := h.refines.timer (F := F) hn h.inv hi hw
    exact ⟨e', hs, hr⟩
  | retime i ticks rng hi =>
    have hm : Moves (members n) F e i (w.nodes i).ballot e := .refl (h.refines.ballot hi)
    exact ⟨e, .refl, h.refines.update hi ⟨rfl, rfl⟩ hm (by simp)⟩

theorem Tracks.run (hn : n ≤ 0x40000000) (h : Tracks n w e)
    (hok : ∀ node p, ok node p → node.stepsDownInTerm p = true → F)
    (hs : World.RunIf ok n w w') : ∃ e', Steps (members n) F e e' ∧ Tracks n w' e' := by
  induction hs with
  | refl => exact ⟨e, .refl, h⟩
  | tail _ hs ih =>
    obtain ⟨e₁, hr, h₁⟩ := ih
    obtain ⟨e₂, hs, h₂⟩ := h₁.step hn hok hs
    exact ⟨e₂, hr.trans hs, h₂⟩

/-- The election in which nothing happened. -/
def noVotes : AbstractState := ⟨fun _ => ⟨.follower, 0, none, ∅⟩, ∅, ∅, ∅⟩

theorem World.Initial.tracks (h : World.Initial n w) : Tracks n w noVotes where
  refines := by
    refine ⟨fun {i} hi => ?_, fun {i} hi => ?_, fun {i} hi => ?_, fun p hp => ?_⟩
    · obtain ⟨_, _, _, _, e⟩ := h.2 i hi
      rw [e]; rfl
    · obtain ⟨_, _, _, _, e⟩ := h.2 i hi
      rw [e]; rfl
    · obtain ⟨_, _, _, _, e⟩ := h.2 i hi
      rw [e]; rfl
    · rw [h.1] at hp; cases hp
  inv := .init ⟨fun _ => rfl, rfl, rfl, rfl⟩

theorem Tracks.led (h : Tracks n w e) {i : NodeId} (hi : i.toNat < n)
    (hl : (w.nodes i).currentRole = .leader) : ((w.nodes i).currentTerm, i) ∈ e.led := by
  have hled := h.inv.leader (i := i) (by rw [h.refines.ballot hi]; exact toRole_eq_leader.mpr hl)
  rw [h.refines.ballot hi] at hled
  exact hled

/-- A leader and a later one of the same term are the same node. -/
theorem Tracks.leader_unique (hn : n ≤ 0x40000000) (h : Tracks n w e) (hr : World.Run n w w')
    {a b : NodeId} (ha : a.toNat < n) (hb : b.toNat < n)
    (hla : (w.nodes a).currentRole = .leader) (hlb : (w'.nodes b).currentRole = .leader)
    (ht : (w.nodes a).currentTerm = (w'.nodes b).currentTerm) : a = b := by
  obtain ⟨e', hs, h'⟩ := h.run (F := True) hn (fun _ _ _ _ => trivial) hr
  exact h'.inv.led_unique (ht ▸ hs.led_mono (h.led ha hla)) (h'.led hb hlb)

end Runs

end Dist
end Techuila
