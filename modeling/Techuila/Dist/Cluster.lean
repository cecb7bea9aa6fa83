import Mathlib.Logic.Relation
import Techuila.Dist.Raft

/-!
# The cluster and its adversarial network

* `World`: the nodes and every packet ever sent. A step delivers any sent packet to its receiver
  (`serve`, `respond`), fires a timer or changes a timer's state. A packet may be delivered any
  number of times, in any order, at any later time, or never; so a run of `World.Step` is a run of
  the nodes over a network that drops, duplicates, delays, reorders and partitions at will.
* `RaftCluster`: the nodes over the `SimulatedNetwork`, with the calls of `RaftCluster::tick` as
  single steps in any order (`RaftCluster.Step`).
* `RaftCluster.Step.simulates`: each call on the simulated network is a run of `World.Step`;
  `RaftCluster.tick_steps`: so is a whole `RaftCluster::tick`.
-/

namespace Techuila
namespace Dist

/-- The ids `j ≠ i` of a cluster of `n` nodes, ascending. -/
def peersOf (n : Nat) (i : NodeId) : List NodeId :=
  ((List.range n).map UInt32.ofNat).filter fun j => j ≠ i

/-! ## The world -/

structure World where
  nodes : NodeId → RaftNode
  /-- Every packet handed to `network.send` so far. -/
  sent : List Packet

namespace World

/-- Node `i` becomes `r.1` and has sent `r.2`. -/
def update (w : World) (i : NodeId) (r : RaftNode × List Packet) : World :=
  ⟨Function.update w.nodes i r.1, w.sent ++ r.2⟩

@[simp] theorem update_nodes_self (w : World) (i : NodeId) (r : RaftNode × List Packet) :
    (w.update i r).nodes i = r.1 := Function.update_self ..

theorem update_nodes_ne (w : World) {i j : NodeId} (r : RaftNode × List Packet) (h : j ≠ i) :
    (w.update i r).nodes j = w.nodes j := Function.update_of_ne h ..

/-- The server of node `i` handles the request `p`. -/
def serve (w : World) (i : NodeId) (p : Packet) : World :=
  let (n, response) := serveOne i raftServer (w.nodes i) (p.sender, p.bytes)
  w.update i (n, [response])

/-- Node `i` handles the response `p`. -/
def respond (w : World) (i : NodeId) (p : Packet) : World :=
  w.update i ((w.nodes i).processResponse (p.sender, p.bytes))

/-- The timer of node `i` advances. -/
def timer (w : World) (i : NodeId) : World := w.update i (w.nodes i).onTick

/-- The election timeout of node `i` and its generator get arbitrary values. -/
def retime (w : World) (i : NodeId) (ticks : UInt32) (rng : UInt64) : World :=
  w.update i ({ w.nodes i with ticksUntilElectionTimeout := ticks, timeoutRngState := rng }, [])

/-- One step of a cluster of `n` nodes whose requests are delivered only where `ok` allows it. A
timer step does not wrap the term. -/
inductive StepIf (ok : RaftNode → Packet → Prop) (n : Nat) (w : World) : World → Prop
  | serve (i : NodeId) (p : Packet) : i.toNat < n → p ∈ w.sent → p.receiver = i →
      ok (w.nodes i) p → StepIf ok n w (w.serve i p)
  | respond (i : NodeId) (p : Packet) : i.toNat < n → p ∈ w.sent → p.receiver = responsePort i →
      StepIf ok n w (w.respond i p)
  | timer (i : NodeId) : i.toNat < n →
      (w.nodes i).currentTerm ≤ ((w.nodes i).onTick.1).currentTerm → StepIf ok n w (w.timer i)
  | retime (i : NodeId) (ticks : UInt32) (rng : UInt64) : i.toNat < n →
      StepIf ok n w (w.retime i ticks rng)

/-- One step of a cluster of `n` nodes. -/
abbrev Step (n : Nat) : World → World → Prop := StepIf (fun _ _ => True) n

/-- A run of any length with restricted deliveries. -/
abbrev RunIf (ok : RaftNode → Packet → Prop) (n : Nat) : World → World → Prop :=
  Relation.ReflTransGen (StepIf ok n)

/-- A run of any length. -/
abbrev Run (n : Nat) : World → World → Prop := Relation.ReflTransGen (Step n)

/-- A cluster of `n` freshly constructed nodes, with any timeout seeds and bounds. -/
def Initial (n : Nat) (w : World) : Prop :=
  w.sent = [] ∧ ∀ i : NodeId, i.toNat < n → ∃ seed lo hi hb,
    w.nodes i = RaftNode.create i (peersOf n i) seed lo hi hb

end World

/-! ## The cluster over the simulated network -/

structure RaftCluster where
  net : SimulatedNetwork
  nodes : NodeId → RaftNode
  nodeCount : Nat

namespace RaftCluster

/-- The constructor: timeouts of 10 to 20 ticks, a heartbeat every 3. -/
def create (nodeCount : UInt32) (networkSeed : UInt64) (faults : FaultConfig)
    (timeoutSeed : UInt64) : RaftCluster where
  net := SimulatedNetwork.create networkSeed faults
  nodes := fun i => RaftNode.create i (peersOf nodeCount.toNat i)
    (timeoutSeed ^^^ (i.toUInt64 * 0x9E3779B97F4A7C15)) 10 20 3
  nodeCount := nodeCount.toNat

def setNode (c : RaftCluster) (i : NodeId) (n : RaftNode) (net : SimulatedNetwork) :
    RaftCluster :=
  { c with net := net, nodes := Function.update c.nodes i n }

/-- `pumpServer(net, n.id(), n.server())`. -/
def pump (c : RaftCluster) (i : NodeId) : RaftCluster :=
  let (n, net) := pumpServer c.net (c.nodes i).self raftServer (c.nodes i)
  c.setNode i n net

/-- `n.processIncomingResponses(net)`. -/
def processResponses (c : RaftCluster) (i : NodeId) : RaftCluster :=
  let (n, net) := (c.nodes i).processIncomingResponses c.net
  c.setNode i n net

/-- `n.onTick(net)`. -/
def nodeTick (c : RaftCluster) (i : NodeId) : RaftCluster :=
  let (n, sent) := (c.nodes i).onTick
  c.setNode i n (c.net.sendAll sent)

/-- The ids of the nodes, in the order of the vector. -/
def ids (c : RaftCluster) : List NodeId := (List.range c.nodeCount).map UInt32.ofNat

/-- `RaftCluster::tick`. -/
def tick (c : RaftCluster) : RaftCluster :=
  let c := { c with net := c.net.tick }
  let c := c.ids.foldl pump c
  let c := c.ids.foldl processResponses c
  c.ids.foldl nodeTick c

/-- The leaders, in the order of the vector. -/
def currentLeaders (c : RaftCluster) : List NodeId :=
  c.ids.filter fun i => (c.nodes i).currentRole = .leader

/-- One call on the cluster, in any order: a network tick, a partition, its end, or one of the
three per-node calls of `tick`. -/
inductive Step (c : RaftCluster) : RaftCluster → Prop
  | netTick : Step c { c with net := c.net.tick }
  | partition (a b : NodeId) : Step c { c with net := c.net.partition a b }
  | heal (a b : NodeId) : Step c { c with net := c.net.healPartition a b }
  | pump (i : NodeId) : i.toNat < c.nodeCount → Step c (c.pump i)
  | processResponses (i : NodeId) : i.toNat < c.nodeCount → Step c (c.processResponses i)
  | nodeTick (i : NodeId) : i.toNat < c.nodeCount →
      (c.nodes i).currentTerm ≤ ((c.nodes i).onTick.1).currentTerm → Step c (c.nodeTick i)

/-- `c` refines `w`: the same nodes, and every message on its way was sent. -/
structure Refines (c : RaftCluster) (w : World) : Prop where
  nodes : c.nodes = w.nodes
  self : ∀ i : NodeId, i.toNat < c.nodeCount → (c.nodes i).self = i
  packets : ∀ p ∈ c.net.packets, p ∈ w.sent

end RaftCluster

/-! ## A node keeps its id and its peers -/

namespace RaftNode

/-- The node's configuration, which no method changes. -/
def SameConfig (n n' : RaftNode) : Prop := n'.self = n.self ∧ n'.peers = n.peers

theorem SameConfig.refl (n : RaftNode) : SameConfig n n := ⟨rfl, rfl⟩

theorem SameConfig.trans {n n' n'' : RaftNode} (h : SameConfig n n') (h' : SameConfig n' n'') :
    SameConfig n n'' := ⟨h'.1.trans h.1, h'.2.trans h.2⟩

theorem handleRequestVote_config (n : RaftNode) (b : Bytes) :
    SameConfig n (n.handleRequestVote b).1 := by
  unfold handleRequestVote
  split
  · exact .refl n
  · dsimp only
    split <;> split <;> exact ⟨rfl, rfl⟩

theorem handleHeartbeat_config (n : RaftNode) (b : Bytes) :
    SameConfig n (n.handleHeartbeat b).1 := by
  unfold handleHeartbeat
  split
  · exact .refl n
  · split
    · exact .refl n
    · dsimp only
      split <;> exact ⟨rfl, rfl⟩

theorem processResponse_config (n : RaftNode) (msg : NodeId × Bytes) :
    SameConfig n (n.processResponse msg).1 := by
  unfold processResponse
  split
  · exact .refl n
  · split
    · exact .refl n
    · split
      · exact .refl n
      · split
        · exact ⟨rfl, rfl⟩
        · split
          · dsimp only
            split <;> exact ⟨rfl, rfl⟩
          · exact .refl n

theorem startElection_config (n : RaftNode) : SameConfig n n.startElection.1 := by
  unfold startElection
  dsimp only
  split <;> exact ⟨rfl, rfl⟩

theorem onTick_config (n : RaftNode) : SameConfig n n.onTick.1 := by
  unfold onTick
  split
  · dsimp only
    split <;> split <;> exact ⟨rfl, rfl⟩
  · by_cases ht : n.ticksUntilElectionTimeout > 0
    · simp only [ht, ↓reduceIte]
      split
      · exact .trans ⟨rfl, rfl⟩ (startElection_config _)
      · exact ⟨rfl, rfl⟩
    · simp only [ht, ↓reduceIte]
      split
      · exact startElection_config n
      · exact .refl n

end RaftNode

/-- The server changes the node only through its two handlers. -/
theorem serveOne_config (i : NodeId) (n : RaftNode) (msg : NodeId × Bytes) :
    RaftNode.SameConfig n (serveOne i raftServer n msg).1 := by
  unfold serveOne RpcServer.handleRequest
  dsimp only
  split
  · exact .refl n
  · split
    · exact .refl n
    · rename_i handler hh
      simp only [raftServer, RpcServer.registerMethod, List.lookup_cons] at hh
      split at hh
      · cases hh; exact RaftNode.handleHeartbeat_config n _
      · split at hh
        · cases hh; exact RaftNode.handleRequestVote_config n _
        · cases hh

/-! ## The simulated cluster refines the world -/

namespace RaftCluster

open World

/-- A batch of messages handled one by one: a run of the world for each message gives a run for
the batch. -/
theorem batch_run {n : Nat} {i : NodeId} {f : RaftNode → NodeId × Bytes → RaftNode × List Packet}
    {q : NodeId}
    (hf : ∀ (w : World) (m : NodeId × Bytes), (⟨m.1, q, m.2⟩ : Packet) ∈ w.sent →
      World.Step n w (w.update i (f (w.nodes i) m)))
    (msgs : List (NodeId × Bytes)) (w : World) (net : SimulatedNetwork)
    (hm : ∀ m ∈ msgs, (⟨m.1, q, m.2⟩ : Packet) ∈ w.sent) (hp : ∀ p ∈ net.packets, p ∈ w.sent) :
    ∃ w', Run n w w' ∧ w'.nodes = Function.update w.nodes i
        (msgs.foldl (fun (s : RaftNode × SimulatedNetwork) m =>
          ((f s.1 m).1, s.2.sendAll (f s.1 m).2)) (w.nodes i, net)).1 ∧
      ∀ p ∈ (msgs.foldl (fun (s : RaftNode × SimulatedNetwork) m =>
          ((f s.1 m).1, s.2.sendAll (f s.1 m).2)) (w.nodes i, net)).2.packets, p ∈ w'.sent := by
  induction msgs generalizing w net with
  | nil => exact ⟨w, .refl, by simp, hp⟩
  | cons m msgs ih =>
    let w₁ := w.update i (f (w.nodes i) m)
    have hstep : World.Step n w w₁ := hf w m (hm m List.mem_cons_self)
    have hsub : ∀ p ∈ w.sent, p ∈ w₁.sent := fun p h => List.mem_append_left _ h
    obtain ⟨w', hr, hn, hs⟩ := ih w₁ (net.sendAll (f (w.nodes i) m).2)
      (fun m' h => hsub _ (hm m' (List.mem_cons_of_mem _ h)))
      (fun p h => by
        rcases SimulatedNetwork.packets_sendAll _ _ h with h | h
        · exact hsub p (hp p h)
        · exact List.mem_append_right _ h)
    refine ⟨w', .head hstep hr, ?_, ?_⟩
    · rw [hn, List.foldl_cons]
      simp only [w₁, World.update, Function.update_self, Function.update_idem]
    · rw [List.foldl_cons]
      simpa only [w₁, World.update_nodes_self] using hs

variable {c : RaftCluster} {w : World}

theorem Refines.setNode {i : NodeId} {n : RaftNode} {net : SimulatedNetwork} {w' : World}
    (h : c.Refines w) (hc : RaftNode.SameConfig (c.nodes i) n)
    (hn : w'.nodes = Function.update w.nodes i n) (hp : ∀ p ∈ net.packets, p ∈ w'.sent) :
    (c.setNode i n net).Refines w' := by
  refine ⟨by rw [hn, ← h.nodes]; rfl, fun j hj => ?_, hp⟩
  by_cases e : j = i
  · subst e
    simp only [RaftCluster.setNode, Function.update_self]
    exact hc.1.trans (h.self j hj)
  · simp only [RaftCluster.setNode, Function.update_of_ne e]
    exact h.self j hj

theorem foldl_config {f : RaftNode → NodeId × Bytes → RaftNode × List Packet}
    (hf : ∀ n m, RaftNode.SameConfig n (f n m).1) (msgs : List (NodeId × Bytes)) (n : RaftNode)
    (net : SimulatedNetwork) :
    RaftNode.SameConfig n (msgs.foldl (fun (s : RaftNode × SimulatedNetwork) m =>
      ((f s.1 m).1, s.2.sendAll (f s.1 m).2)) (n, net)).1 := by
  induction msgs generalizing n net with
  | nil => exact .refl n
  | cons m msgs ih => exact (hf n m).trans (ih _ _)

/-- Each call on the simulated network is a run of the world. -/
theorem Step.simulates {c' : RaftCluster} (hs : Step c c') (h : c.Refines w) :
    ∃ w', Run c.nodeCount w w' ∧ c'.Refines w' ∧ c'.nodeCount = c.nodeCount := by
  cases hs with
  | netTick =>
    exact ⟨w, .refl, ⟨h.nodes, h.self,
      fun p hp => h.packets p (SimulatedNetwork.packets_tick _ hp)⟩, rfl⟩
  | partition a b =>
    exact ⟨w, .refl, ⟨h.nodes, h.self,
      fun p hp => h.packets p (by rw [← SimulatedNetwork.packets_partition]; exact hp)⟩, rfl⟩
  | heal a b => exact ⟨w, .refl, ⟨h.nodes, h.self, h.packets⟩, rfl⟩
  | pump i hi =>
    let f : RaftNode → NodeId × Bytes → RaftNode × List Packet := fun n m =>
      ((serveOne i raftServer n m).1, [(serveOne i raftServer n m).2])
    obtain ⟨w', hr, hn, hp⟩ := batch_run (n := c.nodeCount) (i := i) (f := f) (q := i)
      (fun w m hm => World.StepIf.serve i ⟨m.1, i, m.2⟩ hi hm rfl trivial)
      (c.net.receiveAll i).1 w (c.net.receiveAll i).2
      (fun m hm => h.packets _ (SimulatedNetwork.mem_receiveAll hm))
      (fun p hp => h.packets _ (SimulatedNetwork.packets_receiveAll _ _ hp))
    have e : pumpServer c.net (c.nodes i).self raftServer (c.nodes i) =
        (c.net.receiveAll i).1.foldl (fun (s : RaftNode × SimulatedNetwork) m =>
          ((f s.1 m).1, s.2.sendAll (f s.1 m).2)) (w.nodes i, (c.net.receiveAll i).2) := by
      rw [h.self i hi, h.nodes]; rfl
    have hc : RaftNode.SameConfig (c.nodes i)
        (pumpServer c.net (c.nodes i).self raftServer (c.nodes i)).1 := by
      rw [e, h.nodes]
      exact foldl_config (fun n m => serveOne_config i n m) _ _ _
    rw [← e] at hn hp
    exact ⟨w', hr, h.setNode hc hn hp, rfl⟩
  | processResponses i hi =>
    obtain ⟨w', hr, hn, hp⟩ := batch_run (n := c.nodeCount) (i := i)
      (f := RaftNode.processResponse) (q := responsePort i)
      (fun w m hm => World.StepIf.respond i ⟨m.1, responsePort i, m.2⟩ hi hm rfl)
      (c.net.receiveAll (responsePort i)).1 w (c.net.receiveAll (responsePort i)).2
      (fun m hm => h.packets _ (SimulatedNetwork.mem_receiveAll hm))
      (fun p hp => h.packets _ (SimulatedNetwork.packets_receiveAll _ _ hp))
    have e : (c.nodes i).processIncomingResponses c.net =
        (c.net.receiveAll (responsePort i)).1.foldl (fun (s : RaftNode × SimulatedNetwork) m =>
          ((s.1.processResponse m).1, s.2.sendAll (s.1.processResponse m).2))
          (w.nodes i, (c.net.receiveAll (responsePort i)).2) := by
      unfold RaftNode.processIncomingResponses
      rw [h.self i hi, h.nodes]
    have hc : RaftNode.SameConfig (c.nodes i) ((c.nodes i).processIncomingResponses c.net).1 := by
      rw [e, h.nodes]
      exact foldl_config RaftNode.processResponse_config _ _ _
    rw [← e] at hn hp
    exact ⟨w', hr, h.setNode hc hn hp, rfl⟩
  | nodeTick i hi hw =>
    rw [h.nodes] at hw
    refine ⟨w.timer i, .single (.timer i hi hw), ?_, rfl⟩
    refine h.setNode (RaftNode.onTick_config _) (by rw [h.nodes]; rfl) (fun p hp => ?_)
    rcases SimulatedNetwork.packets_sendAll _ _ hp with hp | hp
    · exact List.mem_append_left _ (h.packets p hp)
    · rw [h.nodes] at hp; exact List.mem_append_right _ hp

/-- A sequence of calls is a run of the world. -/
theorem Step.simulates_run {c' : RaftCluster} (hs : Relation.ReflTransGen Step c c')
    (h : c.Refines w) : ∃ w', Run c.nodeCount w w' ∧ c'.Refines w' ∧ c'.nodeCount = c.nodeCount := by
  induction hs with
  | refl => exact ⟨w, .refl, h, rfl⟩
  | tail _ hs ih =>
    obtain ⟨w₁, hr₁, h₁, hn₁⟩ := ih
    obtain ⟨w₂, hr₂, h₂, hn₂⟩ := hs.simulates h₁
    rw [hn₁] at hr₂ hn₂
    exact ⟨w₂, hr₁.trans hr₂, h₂, hn₂⟩

theorem foldl_steps {f : RaftCluster → NodeId → RaftCluster} (ids : List NodeId)
    (hf : ∀ (l : List NodeId) (i : NodeId), l ++ [i] <+: ids → Step (l.foldl f c) (f (l.foldl f c) i)) :
    Relation.ReflTransGen Step c (ids.foldl f c) := by
  induction ids using List.reverseRecOn with
  | nil => exact .refl
  | append_singleton ids i ih =>
    rw [List.foldl_append, List.foldl_cons, List.foldl_nil]
    exact (ih fun l j h => hf l j (h.trans (List.prefix_append _ _))).tail
      (hf ids i (List.prefix_refl _))

theorem foldl_nodeCount {f : RaftCluster → NodeId → RaftCluster}
    (hf : ∀ c i, (f c i).nodeCount = c.nodeCount) (ids : List NodeId) :
    (ids.foldl f c).nodeCount = c.nodeCount := by
  induction ids generalizing c with
  | nil => rfl
  | cons i ids ih => exact ih.trans (hf c i)

theorem mem_ids {i : NodeId} (h : i ∈ c.ids) (hn : c.nodeCount ≤ 2 ^ 32) :
    i.toNat < c.nodeCount := by
  obtain ⟨k, hk, rfl⟩ := List.mem_map.mp h
  rw [List.mem_range] at hk
  rw [UInt32.toNat_ofNat', Nat.mod_eq_of_lt (Nat.lt_of_lt_of_le hk hn)]
  exact hk

/-- The state of a `tick` just before its calls of `onTick`. -/
def beforeTimers (c : RaftCluster) : RaftCluster :=
  c.ids.foldl processResponses (c.ids.foldl pump { c with net := c.net.tick })

theorem foldl_pump_nodeCount (c : RaftCluster) (ids : List NodeId) :
    (ids.foldl pump c).nodeCount = c.nodeCount := foldl_nodeCount (f := pump) (fun _ _ => rfl) ids

theorem foldl_processResponses_nodeCount (c : RaftCluster) (ids : List NodeId) :
    (ids.foldl processResponses c).nodeCount = c.nodeCount :=
  foldl_nodeCount (f := processResponses) (fun _ _ => rfl) ids

theorem foldl_nodeTick_nodeCount (c : RaftCluster) (ids : List NodeId) :
    (ids.foldl nodeTick c).nodeCount = c.nodeCount :=
  foldl_nodeCount (f := nodeTick) (fun _ _ => rfl) ids

theorem beforeTimers_nodeCount (c : RaftCluster) : c.beforeTimers.nodeCount = c.nodeCount := by
  rw [beforeTimers, foldl_processResponses_nodeCount, foldl_pump_nodeCount]

/-- `RaftCluster::tick` is a sequence of single calls, as long as no timer wraps a term. -/
theorem tick_steps (hn : c.nodeCount ≤ 2 ^ 32)
    (hw : ∀ (l : List NodeId) (i : NodeId), l ++ [i] <+: c.ids →
      ((l.foldl nodeTick c.beforeTimers).nodes i).currentTerm ≤
        (((l.foldl nodeTick c.beforeTimers).nodes i).onTick.1).currentTerm) :
    Relation.ReflTransGen Step c c.tick := by
  have hmem : ∀ {l : List NodeId} {i : NodeId}, l ++ [i] <+: c.ids → i.toNat < c.nodeCount :=
    fun h => mem_ids (h.subset (List.mem_append_right _ List.mem_cons_self)) hn
  have h₁ : Relation.ReflTransGen Step { c with net := c.net.tick }
      (c.ids.foldl pump { c with net := c.net.tick }) :=
    foldl_steps _ fun l i h => .pump i (by rw [foldl_pump_nodeCount]; exact hmem h)
  have h₂ : Relation.ReflTransGen Step (c.ids.foldl pump { c with net := c.net.tick })
      c.beforeTimers :=
    foldl_steps _ fun l i h => .processResponses i (by
      rw [foldl_processResponses_nodeCount, foldl_pump_nodeCount]; exact hmem h)
  have h₃ : Relation.ReflTransGen Step c.beforeTimers (c.ids.foldl nodeTick c.beforeTimers) :=
    foldl_steps _ fun l i h => .nodeTick i (by
      rw [foldl_nodeTick_nodeCount, beforeTimers_nodeCount]; exact hmem h) (hw l i h)
  have e : c.tick = c.ids.foldl nodeTick c.beforeTimers := by
    have h (f : RaftCluster → NodeId → RaftCluster) (d : RaftCluster)
        (hd : d.nodeCount = c.nodeCount) : d.ids.foldl f d = c.ids.foldl f d := by
      rw [ids, ids, hd]
    calc c.tick
        = let p := c.ids.foldl pump { c with net := c.net.tick }
          let q := p.ids.foldl processResponses p
          q.ids.foldl nodeTick q := rfl
      _ = c.ids.foldl nodeTick c.beforeTimers := by
          dsimp only
          rw [h processResponses _ (foldl_pump_nodeCount { c with net := c.net.tick } _)]
          exact h nodeTick c.beforeTimers (beforeTimers_nodeCount c)
  rw [e]
  exact ((Relation.ReflTransGen.single .netTick).trans h₁).trans (h₂.trans h₃)

end RaftCluster

end Dist
end Techuila
