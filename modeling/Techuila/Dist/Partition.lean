import Mathlib.Data.List.Basic
import Techuila.Dist.Cluster
import Techuila.Dist.RpcCalls

/-!
# A partition of the simulated network (`SimulatedNetwork::partition`)

* `NetCall`: the network's methods. `NetStep`: one of them, or a `pumpServer`, which drains an inbox
  and sends its answers (`NetStep.apply_pumpServer`). What `RpcClient.call` and the steps of a
  `RaftCluster` do to the network is a run of `NetStep`s (`RpcClient.call_steps`,
  `RaftCluster.Step.netSteps`).
* `copies`: how many copies of a packet are in flight or wait in an inbox. `Isolated a b`: no call of
  a run adds a copy of a packet between an address of `a` and an address of `b`.
* The partition table holds the ids as given, so `send` blocks `a` to `b` but not `a` to
  `responsePort b`: `Quiet` excludes those sends. `partition_isolates`: without them the partition
  isolates the two nodes until it is healed, and after that their messages flow.
* `partition_leaks`: a server answers across the partition a request that arrived before it.
-/

namespace Techuila
namespace Dist

/-! ## Runs of network calls -/

/-- A call on the network (`from` and `to` are Lean keywords). -/
inductive NetCall
  | send (sender receiver : NodeId) (message : Bytes)
  | tick
  | receiveAll (node : NodeId)
  | partition (a b : NodeId)
  | healPartition (a b : NodeId)

namespace NetCall

def apply (net : SimulatedNetwork) : NetCall → SimulatedNetwork
  | send s t m => net.send s t m
  | tick => net.tick
  | receiveAll node => (net.receiveAll node).2
  | partition a b => net.partition a b
  | healPartition a b => net.healPartition a b

def run (net : SimulatedNetwork) (calls : List NetCall) : SimulatedNetwork := calls.foldl apply net

def ofPacket (p : Packet) : NetCall := send p.sender p.receiver p.bytes

theorem run_append (net : SimulatedNetwork) (cs cs' : List NetCall) :
    run net (cs ++ cs') = run (run net cs) cs' := List.foldl_append

theorem run_sends (net : SimulatedNetwork) (ps : List Packet) :
    run net (ps.map ofPacket) = net.sendAll ps := List.foldl_map

end NetCall

/-- A network that calls made from a new one. -/
def SimulatedNetwork.Reachable (net : SimulatedNetwork) : Prop :=
  ∃ seed faults calls, net = NetCall.run (.create seed faults) calls

/-- What a server sends for the messages of an inbox. -/
def responses {σ : Type} (serverNode : NodeId) (server : RpcServer σ) :
    σ → List (NodeId × Bytes) → List Packet
  | _, [] => []
  | s, msg :: inbox =>
    let (s, p) := serveOne serverNode server s msg
    p :: responses serverNode server s inbox

/-- A step of the programs that use the network. -/
inductive NetStep (σ : Type)
  | call (c : NetCall)
  | pumpServer (serverNode : NodeId) (server : RpcServer σ) (s : σ)

namespace NetStep

variable {σ : Type}

/-- The calls that a step makes. -/
def calls (net : SimulatedNetwork) : NetStep σ → List NetCall
  | call c => [c]
  | pumpServer serverNode server s => .receiveAll serverNode ::
      (responses serverNode server s (net.inboxes serverNode)).map .ofPacket

def apply (net : SimulatedNetwork) (step : NetStep σ) : SimulatedNetwork :=
  NetCall.run net (step.calls net)

def run (net : SimulatedNetwork) (steps : List (NetStep σ)) : SimulatedNetwork :=
  steps.foldl apply net

theorem run_append (net : SimulatedNetwork) (steps steps' : List (NetStep σ)) :
    run net (steps ++ steps') = run (run net steps) steps' := List.foldl_append

/-- The calls of a run. -/
def trace (net : SimulatedNetwork) : List (NetStep σ) → List NetCall
  | [] => []
  | step :: steps => step.calls net ++ trace (step.apply net) steps

theorem run_eq_trace (net : SimulatedNetwork) (steps : List (NetStep σ)) :
    run net steps = NetCall.run net (trace net steps) := by
  induction steps generalizing net with
  | nil => rfl
  | cons step steps ih => exact (ih _).trans (NetCall.run_append ..).symm

theorem pump_responses (serverNode : NodeId) (server : RpcServer σ) (inbox : List (NodeId × Bytes))
    (net : SimulatedNetwork) (s : σ) :
    (inbox.foldl (fun (s, network) msg =>
      let (s, p) := serveOne serverNode server s msg
      (s, network.send p.sender p.receiver p.bytes)) (s, net)).2 =
      net.sendAll (responses serverNode server s inbox) := by
  induction inbox generalizing net s with
  | nil => rfl
  | cons msg inbox ih => exact ih _ _

theorem apply_pumpServer (serverNode : NodeId) (server : RpcServer σ) (net : SimulatedNetwork)
    (s : σ) :
    (NetStep.pumpServer serverNode server s).apply net =
      (Dist.pumpServer net serverNode server s).2 :=
  (NetCall.run_sends _ _).trans (pump_responses ..).symm

end NetStep

/-! ## The copies of a packet -/

namespace SimulatedNetwork

/-- How many copies of `p` are in flight or wait in an inbox. -/
def copies (net : SimulatedNetwork) (p : Packet) : Nat :=
  (net.inFlight.countP fun msg => (⟨msg.sender, msg.receiver, msg.bytes⟩ : Packet) = p) +
    (net.inboxes p.receiver).count (p.sender, p.bytes)

@[simp] theorem copies_nextUnitDouble (net : SimulatedNetwork) (p : Packet) :
    net.nextUnitDouble.2.copies p = net.copies p := rfl

@[simp] theorem copies_extraDelay (net : SimulatedNetwork) (p : Packet) :
    net.extraDelay.2.copies p = net.copies p := by
  unfold extraDelay; split <;> rfl

theorem copies_enqueue (net : SimulatedNetwork) {s t : NodeId} {m : Bytes} (d : UInt64) {p : Packet}
    (h : p ≠ ⟨s, t, m⟩) : (net.enqueue s t m d).copies p = net.copies p := by
  simp [copies, enqueue, List.countP_append, h.symm]

/-- A send adds copies of its own message only. -/
theorem copies_send (net : SimulatedNetwork) {s t : NodeId} {m : Bytes} {p : Packet}
    (h : p ≠ ⟨s, t, m⟩) : (net.send s t m).copies p = net.copies p := by
  unfold send
  split
  · rfl
  · dsimp only
    split
    · rfl
    · split <;> simp [copies_enqueue _ _ h]

theorem count_deliver (msgs : List InFlightMessage) (inboxes : NodeId → List (NodeId × Bytes))
    (p : Packet) : (msgs.foldl deliver inboxes p.receiver).count (p.sender, p.bytes) =
      (inboxes p.receiver).count (p.sender, p.bytes) +
        msgs.countP fun msg => (⟨msg.sender, msg.receiver, msg.bytes⟩ : Packet) = p := by
  induction msgs generalizing inboxes with
  | nil => rfl
  | cons msg msgs ih =>
    obtain ⟨ps, pr, pb⟩ := p
    rw [List.foldl_cons, ih, List.countP_cons, deliver]
    by_cases e : pr = msg.receiver
    · subst e
      rw [Function.update_self, List.count_append, List.count_singleton]
      simp [Packet.mk.injEq]
      omega
    · have hne : (⟨msg.sender, msg.receiver, msg.bytes⟩ : Packet) ≠ ⟨ps, pr, pb⟩ :=
        fun h => e (Packet.mk.inj h).2.1.symm
      simp [Function.update_of_ne e, hne]

/-- A tick moves copies. -/
theorem copies_tick (net : SimulatedNetwork) (p : Packet) : net.tick.copies p = net.copies p := by
  simp only [copies, tick, count_deliver]
  rw [List.countP_eq_countP_filter_add net.inFlight _ fun msg =>
    decide (msg.deliverAtTick ≤ net.tickCounter + 1)]
  simp only [decide_not]
  omega

theorem copies_receiveAll (net : SimulatedNetwork) (node : NodeId) (p : Packet) :
    (net.receiveAll node).2.copies p ≤ net.copies p := by
  by_cases e : p.receiver = node
  · simp [copies, receiveAll, e]
  · simp [copies, receiveAll, Function.update_of_ne e]

/-! ## The partition table -/

/-- The pair is `a` and `b` in either order. -/
def joins (a b : NodeId) (p : NodeId × NodeId) : Bool :=
  (p.1 == a && p.2 == b) || (p.1 == b && p.2 == a)

theorem joins_comm (a b : NodeId) (p : NodeId × NodeId) : joins a b p = joins b a p :=
  Bool.or_comm ..

theorem isPartitioned_comm (net : SimulatedNetwork) (a b : NodeId) :
    net.isPartitioned a b = net.isPartitioned b a :=
  congrArg net.partitions.any (funext (joins_comm a b))

/-- No pair of nodes stands in the table twice. -/
def Simple (net : SimulatedNetwork) : Prop :=
  net.partitions.Pairwise fun p q => ∀ a b, joins a b p → ¬ joins a b q

theorem joins_joins {a b c d : NodeId} (h : joins c d (a, b)) (p : NodeId × NodeId) :
    joins c d p = joins a b p := by
  simp only [joins, Bool.or_eq_true, Bool.and_eq_true, beq_iff_eq] at h
  rcases h with ⟨rfl, rfl⟩ | ⟨rfl, rfl⟩
  · rfl
  · exact joins_comm ..

theorem Simple.partition {net : SimulatedNetwork} (h : net.Simple) (a b : NodeId) :
    (net.partition a b).Simple := by
  unfold SimulatedNetwork.partition
  split
  · exact h
  · rename_i hn
    refine List.pairwise_append.mpr ⟨h, List.pairwise_singleton .., fun p hp q hq c d hcp hcq => ?_⟩
    obtain rfl := List.mem_singleton.mp hq
    exact hn (List.any_eq_true.mpr ⟨p, hp, (joins_joins hcq p).symm.trans hcp⟩)

theorem Simple.healPartition {net : SimulatedNetwork} (h : net.Simple) (a b : NodeId) :
    (net.healPartition a b).Simple := h.sublist List.eraseP_sublist

/-- Healing removes the only entry of the pair. -/
theorem Simple.isPartitioned_heal {net : SimulatedNetwork} (h : net.Simple) (a b : NodeId) :
    (net.healPartition a b).isPartitioned a b = false := by
  refine List.any_eq_false.mpr fun q hq hqj => ?_
  obtain ⟨p, l₁, l₂, h₁, hp, hl, e⟩ := List.exists_of_eraseP (p := joins a b)
    (List.mem_of_mem_eraseP hq) hqj
  change q ∈ net.partitions.eraseP (joins a b) at hq
  rw [e] at hq
  rcases List.mem_append.mp hq with hq | hq
  · exact h₁ q hq hqj
  · rw [Simple, hl] at h
    exact (List.pairwise_cons.mp (List.pairwise_append.mp h).2.1).1 q hq a b hp hqj

theorem isPartitioned_heal_ne (net : SimulatedNetwork) {a b c d : NodeId}
    (hne : ¬ joins a b (c, d)) (h : net.isPartitioned a b) :
    (net.healPartition c d).isPartitioned a b := by
  obtain ⟨p, hp, hj⟩ := List.any_eq_true.mp h
  refine List.any_eq_true.mpr ⟨p, (List.mem_eraseP_of_neg fun hc => hne ?_).mpr hp, hj⟩
  change joins c d p at hc
  simp only [joins, Bool.or_eq_true, Bool.and_eq_true, beq_iff_eq] at hj hc ⊢
  grind

theorem partitions_send (net : SimulatedNetwork) (s t : NodeId) (m : Bytes) :
    (net.send s t m).partitions = net.partitions := (net.send_same s t m).2

theorem isPartitioned_send (net : SimulatedNetwork) (s t : NodeId) (m : Bytes) (a b : NodeId) :
    (net.send s t m).isPartitioned a b = net.isPartitioned a b := by
  simp only [isPartitioned, partitions_send]

theorem isPartitioned_partition (net : SimulatedNetwork) (a b : NodeId) :
    (net.partition a b).isPartitioned a b := by
  unfold partition
  split
  · assumption
  · exact List.any_eq_true.mpr ⟨(a, b), List.mem_append_right _ List.mem_cons_self, by simp⟩

theorem isPartitioned_partition_of {net : SimulatedNetwork} {a b : NodeId}
    (h : net.isPartitioned a b) (c d : NodeId) : (net.partition c d).isPartitioned a b := by
  unfold partition
  split
  · exact h
  · obtain ⟨p, hp, hj⟩ := List.any_eq_true.mp h
    exact List.any_eq_true.mpr ⟨p, List.mem_append_left _ hp, hj⟩

/-- The message of a send that is neither blocked nor dropped is on its way. -/
theorem packets_of_send {net : SimulatedNetwork} {s t : NodeId} (h : net.isPartitioned s t = false)
    (hd : ¬ net.nextUnitDouble.1 < net.faults.dropProbability) (m : Bytes) :
    ⟨s, t, m⟩ ∈ (net.send s t m).packets := by
  have henq : ∀ (net : SimulatedNetwork) (d : UInt64),
      (⟨s, t, m⟩ : Packet) ∈ (net.enqueue s t m d).packets := fun net d =>
    .inl ⟨_, List.mem_append_right _ List.mem_cons_self⟩
  unfold send
  rw [if_neg (by simp [h])]
  dsimp only
  rw [if_neg (show ¬ _ < net.nextUnitDouble.2.faults.dropProbability from hd)]
  split
  · exact henq _ _
  · exact henq _ _

theorem Reachable.simple {net : SimulatedNetwork} (h : net.Reachable) : net.Simple := by
  obtain ⟨seed, faults, calls, rfl⟩ := h
  suffices ∀ net : SimulatedNetwork, net.Simple → (NetCall.run net calls).Simple from
    this _ List.Pairwise.nil
  induction calls with
  | nil => exact fun _ h => h
  | cons c calls ih =>
    intro net h
    refine ih _ ?_
    cases c with
    | send s t m =>
      simp only [NetCall.apply, Simple, partitions_send]
      exact h
    | tick => exact h
    | receiveAll node => exact h
    | partition a b => exact h.partition a b
    | healPartition a b => exact h.healPartition a b

theorem Reachable.run {net : SimulatedNetwork} (h : net.Reachable) (calls : List NetCall) :
    (NetCall.run net calls).Reachable := by
  obtain ⟨seed, faults, calls₀, rfl⟩ := h
  exact ⟨seed, faults, calls₀ ++ calls, (NetCall.run_append ..).symm⟩

end SimulatedNetwork

/-! ## Two nodes apart -/

section Apart

variable (a b : NodeId)

/-- `p` is a message of one of the two nodes to an address of the other. -/
def Between (p : Packet) : Prop :=
  (p.sender = a ∧ (p.receiver = b ∨ p.receiver = responsePort b)) ∨
    (p.sender = b ∧ (p.receiver = a ∨ p.receiver = responsePort a))

/-- One of the two nodes answers the other. -/
def Answering (sender receiver : NodeId) : Prop :=
  (sender = a ∧ receiver = responsePort b) ∨ (sender = b ∧ receiver = responsePort a)

/-- No call of the run adds a copy of a message between the two nodes. -/
def Isolated : SimulatedNetwork → List NetCall → Prop
  | _, [] => True
  | net, c :: calls =>
    (∀ p, Between a b p → (c.apply net).copies p ≤ net.copies p) ∧ Isolated (c.apply net) calls

/-- The call does not end the partition, and sends no answer to a response channel that is open. -/
def NetCall.Quiet (net : SimulatedNetwork) : NetCall → Prop
  | .send s t _ => Answering a b s t → net.isPartitioned s t
  | .healPartition c d => ¬ SimulatedNetwork.joins a b (c, d)
  | .tick | .receiveAll _ | .partition _ _ => True

def QuietCalls : SimulatedNetwork → List NetCall → Prop
  | _, [] => True
  | net, c :: calls => c.Quiet a b net ∧ QuietCalls (c.apply net) calls

/-- A server is pumped only where no message of the other node waits, or the other's response
channel is partitioned off as well. -/
def NetStep.Quiet {σ : Type} (net : SimulatedNetwork) : NetStep σ → Prop
  | .call c => c.Quiet a b net
  | .pumpServer serverNode _ _ => ∀ msg ∈ net.inboxes serverNode,
      Answering a b serverNode (responsePort msg.1) →
        net.isPartitioned serverNode (responsePort msg.1)

/-- Every step of the run is quiet in its state. -/
def Quiet {σ : Type} : SimulatedNetwork → List (NetStep σ) → Prop
  | _, [] => True
  | net, step :: steps => step.Quiet a b net ∧ Quiet (step.apply net) steps

variable {a b}

theorem NetCall.Quiet.isPartitioned {net : SimulatedNetwork} {c : NetCall} (hc : c.Quiet a b net)
    (h : net.isPartitioned a b) : (c.apply net).isPartitioned a b := by
  cases c with
  | send s t m => exact (net.isPartitioned_send ..).trans h
  | tick => exact h
  | receiveAll node => exact h
  | partition c d => exact SimulatedNetwork.isPartitioned_partition_of h c d
  | healPartition c d => exact net.isPartitioned_heal_ne hc h

theorem NetCall.Quiet.copies_le {net : SimulatedNetwork} {c : NetCall} (hc : c.Quiet a b net)
    (h : net.isPartitioned a b) {p : Packet} (hp : Between a b p) :
    (c.apply net).copies p ≤ net.copies p := by
  cases c with
  | send s t m =>
    by_cases e : p = ⟨s, t, m⟩
    · subst e
      have hblocked : net.isPartitioned s t := by
        rcases hp with ⟨rfl, rfl | hr⟩ | ⟨rfl, rfl | hr⟩
        · exact h
        · exact hc (.inl ⟨rfl, hr⟩)
        · exact (net.isPartitioned_comm _ _).trans h
        · exact hc (.inr ⟨rfl, hr⟩)
      simp only [NetCall.apply, SimulatedNetwork.send, hblocked, if_true, le_refl]
    · exact (net.copies_send e).le
  | tick => exact (net.copies_tick p).le
  | receiveAll node => exact net.copies_receiveAll node p
  | partition c d =>
    change (net.partition c d).copies p ≤ net.copies p
    unfold SimulatedNetwork.partition
    split <;> exact Nat.le_refl _
  | healPartition c d => exact le_refl _

theorem QuietCalls.isolated {net : SimulatedNetwork} {calls : List NetCall}
    (hc : QuietCalls a b net calls) (h : net.isPartitioned a b) :
    Isolated a b net calls ∧ (NetCall.run net calls).isPartitioned a b := by
  induction calls generalizing net with
  | nil => exact ⟨trivial, h⟩
  | cons c calls ih =>
    obtain ⟨hiso, hpart⟩ := ih hc.2 (hc.1.isPartitioned h)
    exact ⟨⟨fun p hp => hc.1.copies_le h hp, hiso⟩, hpart⟩

theorem Isolated.append {net : SimulatedNetwork} {calls calls' : List NetCall}
    (h : Isolated a b net calls) (h' : Isolated a b (NetCall.run net calls) calls') :
    Isolated a b net (calls ++ calls') := by
  induction calls generalizing net with
  | nil => exact h'
  | cons c calls ih => exact ⟨h.1, ih h.2 h'⟩

/-- Over the whole run no copy is added. -/
theorem Isolated.copies_le {net : SimulatedNetwork} {calls : List NetCall}
    (h : Isolated a b net calls) {p : Packet} (hp : Between a b p) :
    (NetCall.run net calls).copies p ≤ net.copies p := by
  induction calls generalizing net with
  | nil => exact Nat.le_refl _
  | cons c calls ih => exact (ih h.2).trans (h.1 p hp)

/-- Sends that are quiet in one network are quiet one after the other. -/
theorem quietCalls_sends {net : SimulatedNetwork} {ps : List Packet}
    (h : ∀ p ∈ ps, (NetCall.ofPacket p).Quiet a b net) :
    QuietCalls a b net (ps.map .ofPacket) := by
  suffices ∀ net' : SimulatedNetwork, net'.partitions = net.partitions →
      QuietCalls a b net' (ps.map .ofPacket) from this net rfl
  induction ps with
  | nil => exact fun _ _ => trivial
  | cons p ps ih =>
    intro net' hp
    refine ⟨fun ha => ?_, ih (fun q hq => h q (List.mem_cons_of_mem _ hq)) _
      ((net'.partitions_send ..).trans hp)⟩
    unfold SimulatedNetwork.isPartitioned
    rw [hp]
    exact h p List.mem_cons_self ha

theorem responses_receiver {σ : Type} {serverNode : NodeId} {server : RpcServer σ} {s : σ}
    {inbox : List (NodeId × Bytes)} {p : Packet} (h : p ∈ responses serverNode server s inbox) :
    p.sender = serverNode ∧ ∃ msg ∈ inbox, p.receiver = responsePort msg.1 := by
  induction inbox generalizing s with
  | nil => cases h
  | cons msg inbox ih =>
    rcases List.mem_cons.mp h with rfl | h
    · exact ⟨rfl, msg, List.mem_cons_self, rfl⟩
    · obtain ⟨hs, msg', hm, hr⟩ := ih h
      exact ⟨hs, msg', List.mem_cons_of_mem _ hm, hr⟩

theorem NetStep.Quiet.calls {σ : Type} {net : SimulatedNetwork} {step : NetStep σ}
    (h : step.Quiet a b net) : QuietCalls a b net (step.calls net) := by
  cases step with
  | call c => exact ⟨h, trivial⟩
  | pumpServer serverNode server s =>
    refine ⟨trivial, quietCalls_sends fun p hp ha => ?_⟩
    obtain ⟨hs, msg, hm, hr⟩ := responses_receiver hp
    rw [hs, hr] at ha ⊢
    exact h msg hm ha

theorem Quiet.isolated {σ : Type} {net : SimulatedNetwork} {steps : List (NetStep σ)}
    (hq : Quiet a b net steps) (h : net.isPartitioned a b) :
    Isolated a b net (NetStep.trace net steps) ∧ (NetStep.run net steps).isPartitioned a b := by
  induction steps generalizing net with
  | nil => exact ⟨trivial, h⟩
  | cons step steps ih =>
    obtain ⟨hiso, hpart⟩ := hq.1.calls.isolated h
    obtain ⟨hiso', hpart'⟩ := ih hq.2 hpart
    exact ⟨hiso.append hiso', hpart'⟩

/-- Between `partition` and `healPartition` a quiet run carries no message from one node to the
other, and after it every message between them is on its way unless the faults drop it. -/
theorem partition_isolates {σ : Type} {net : SimulatedNetwork} (hr : net.Reachable)
    {steps : List (NetStep σ)} (hq : Quiet a b (net.partition a b) steps) :
    Isolated a b (net.partition a b) (NetStep.trace (net.partition a b) steps) ∧
      let healed := (NetStep.run (net.partition a b) steps).healPartition a b
      ∀ s t, (s = a ∧ t = b) ∨ (s = b ∧ t = a) →
        ¬ healed.nextUnitDouble.1 < healed.faults.dropProbability →
        ∀ m, ⟨s, t, m⟩ ∈ (healed.send s t m).packets := by
  obtain ⟨hiso, -⟩ := hq.isolated (net.isPartitioned_partition a b)
  refine ⟨hiso, fun s t hst hd m => SimulatedNetwork.packets_of_send ?_ hd m⟩
  have hreach : (NetStep.run (net.partition a b) steps).Reachable := by
    rw [NetStep.run_eq_trace]
    exact (hr.run [.partition a b]).run _
  have hheal := hreach.simple.isPartitioned_heal a b
  rcases hst with ⟨rfl, rfl⟩ | ⟨rfl, rfl⟩
  · exact hheal
  · exact (SimulatedNetwork.isPartitioned_comm ..).trans hheal

/-- Node 2 answers node 1 across the partition: the request had arrived before it. -/
theorem partition_leaks :
    let server : RpcServer Unit := ⟨[(ascii "echo", fun s payload => (s, payload))]⟩
    let net := NetCall.run (.create 1 {})
      [.send 1 2 (serializeRequest ⟨1, ascii "echo", [7]⟩), .tick, .partition 1 2]
    let steps : List (NetStep Unit) := [.pumpServer 2 server (), .call .tick]
    net.isPartitioned 1 2 ∧ ¬ Isolated 1 2 net (NetStep.trace net steps) ∧
      (NetStep.run net steps).inboxes (responsePort 1) =
        [(2, serializeResponse ⟨1, true, [7], []⟩)] := by
  intro server net steps
  refine ⟨by decide +kernel, fun h => ?_, by decide +kernel⟩
  have hle := h.copies_le (p := ⟨2, responsePort 1, serializeResponse ⟨1, true, [7], []⟩⟩)
    (.inr ⟨rfl, .inr rfl⟩)
  rw [← NetStep.run_eq_trace] at hle
  revert hle
  decide +kernel

/-- A call across the partition, and one after it is healed. -/
theorem partition_isolates_call :
    let net := SimulatedNetwork.create 1 {}
    let steps : List (NetStep Unit) := [.call (.send 1 2 [7]), .call .tick]
    Isolated 1 2 (net.partition 1 2) (NetStep.trace (net.partition 1 2) steps) ∧
      let healed := (NetStep.run (net.partition 1 2) steps).healPartition 1 2
      ∀ s t, (s = 1 ∧ t = 2) ∨ (s = 2 ∧ t = 1) →
        ¬ healed.nextUnitDouble.1 < healed.faults.dropProbability →
        ∀ m, ⟨s, t, m⟩ ∈ (healed.send s t m).packets :=
  partition_isolates ⟨1, {}, [], rfl⟩
    ⟨fun h => absurd h (by rintro (⟨-, h⟩ | ⟨h, -⟩) <;> exact absurd h (by decide)), trivial, trivial⟩

end Apart

/-! ## Clients and Raft nodes make such runs -/

theorem RpcClient.poll_steps {σ : Type} (client : RpcClient) (server : RpcServer σ)
    (id : RequestId) (net : SimulatedNetwork) (s : σ) :
    (client.poll server id net s).2.1 = NetStep.run net
      [.call .tick, .pumpServer client.serverNode server s,
        .call (.receiveAll (responsePort client.self))] := by
  change ((pumpServer net.tick client.serverNode server s).2.receiveAll
    (responsePort client.self)).2 = _
  rw [← NetStep.apply_pumpServer]
  rfl

theorem RpcClient.awaitAnswer_steps {σ : Type} (client : RpcClient) (server : RpcServer σ)
    (id : RequestId) (maxTicks : Nat) (net : SimulatedNetwork) (s : σ) :
    ∃ steps : List (NetStep σ),
      (client.awaitAnswer server id maxTicks net s).2.1 = NetStep.run net steps := by
  induction maxTicks generalizing net s with
  | zero => exact ⟨[], rfl⟩
  | succ n ih =>
    have hp := client.poll_steps server id net s
    unfold RpcClient.awaitAnswer
    generalize client.poll server id net s = r at hp
    obtain ⟨answer, net', s'⟩ := r
    cases answer with
    | some result => exact ⟨_, hp⟩
    | none =>
      obtain ⟨steps, hs⟩ := ih net' s'
      exact ⟨_, hs.trans ((congrArg (NetStep.run · steps) hp).trans (NetStep.run_append ..).symm)⟩

/-- `RpcClient::call` acts on the network by these steps alone. -/
theorem RpcClient.call_steps {σ : Type} (client : RpcClient) (server : RpcServer σ)
    (method payload : Bytes) (maxTicks : UInt32) (net : SimulatedNetwork) (s : σ) :
    ∃ steps : List (NetStep σ),
      (client.call server method payload maxTicks net s).2.2.1 = NetStep.run net steps := by
  obtain ⟨steps, hs⟩ := RpcClient.awaitAnswer_steps
    { client with nextRequestId := client.nextRequestId + 1 } server client.nextRequestId
    maxTicks.toNat (net.send client.self client.serverNode
      (serializeRequest (client.request method payload))) s
  exact ⟨.call (.send client.self client.serverNode
    (serializeRequest (client.request method payload))) :: steps, hs⟩

theorem NetStep.run_sendAll {σ : Type} (net : SimulatedNetwork) (ps : List Packet) :
    NetStep.run net (ps.map fun p => (.call (.ofPacket p) : NetStep σ)) = net.sendAll ps :=
  List.foldl_map

theorem sendAll_append (net : SimulatedNetwork) (ps ps' : List Packet) :
    net.sendAll (ps ++ ps') = (net.sendAll ps).sendAll ps' := List.foldl_append

theorem RaftNode.processResponses_sends (inbox : List (NodeId × Bytes)) (n : RaftNode)
    (net : SimulatedNetwork) :
    ∃ ps, (inbox.foldl (fun (n, network) msg =>
      let (n, sent) := n.processResponse msg
      (n, network.sendAll sent)) (n, net)).2 = net.sendAll ps := by
  induction inbox generalizing n net with
  | nil => exact ⟨[], rfl⟩
  | cons msg inbox ih =>
    obtain ⟨ps, hs⟩ := ih (n.processResponse msg).1 (net.sendAll (n.processResponse msg).2)
    exact ⟨_ ++ ps, hs.trans (sendAll_append ..).symm⟩

/-- So does every step of a Raft cluster. -/
theorem RaftCluster.Step.netSteps {c c' : RaftCluster} (h : RaftCluster.Step c c') :
    ∃ steps : List (NetStep RaftNode), c'.net = NetStep.run c.net steps := by
  cases h with
  | netTick => exact ⟨[.call .tick], rfl⟩
  | partition a b => exact ⟨[.call (.partition a b)], rfl⟩
  | heal a b => exact ⟨[.call (.healPartition a b)], rfl⟩
  | pump i hi =>
    exact ⟨[.pumpServer (c.nodes i).self raftServer (c.nodes i)],
      (NetStep.apply_pumpServer ..).symm⟩
  | processResponses i hi =>
    obtain ⟨ps, hs⟩ := RaftNode.processResponses_sends
      (c.net.receiveAll (responsePort (c.nodes i).self)).1 (c.nodes i)
      (c.net.receiveAll (responsePort (c.nodes i).self)).2
    exact ⟨.call (.receiveAll (responsePort (c.nodes i).self)) :: _,
      hs.trans (NetStep.run_sendAll _ ps).symm⟩
  | nodeTick i hi ht => exact ⟨_, (NetStep.run_sendAll _ _).symm⟩

end Dist
end Techuila
