import Techuila.Netlab.Topology

/-!
# Networks that calls build

* `Reached`: the networks that calls of a kind lead to from the empty one.
* `Ok`: the links go both ways between known nodes, and a switch has learned only links.
* `Ok.deliverFrom`: every delivery ends, and a frame comes to no node twice.
-/

namespace Techuila
namespace Netlab

open Techuila.Dist (Bytes)
open Techuila.Net

/-- A host, or a router with the number of an interface. -/
inductive Endpoint
  | host (id : Bytes)
  | interface (routerId : Bytes) (index : Nat)
  deriving DecidableEq

def Endpoint.node : Endpoint → Bytes
  | host id => id
  | interface routerId _ => routerId

/-- The endpoint is in a result. -/
def DeliveryResult.Received (result : DeliveryResult) : Endpoint → Prop
  | .host id => id ∈ result.receivedByHosts
  | .interface routerId index => ⟨routerId, index⟩ ∈ result.receivedByRouterInterfaces

/-- The nodes of a result. -/
def DeliveryResult.receivers (result : DeliveryResult) : List Bytes :=
  result.receivedByHosts ++ result.receivedByRouterInterfaces.map RouterDelivery.routerId

inductive Call
  | addNode (node : Node)
  | addLink (a b : Bytes)
  | addRouterInterface (routerId neighborId : Bytes) (mac : MacAddress)
      (ipAddress subnetMask : UInt32)
  | sendFrame (originId : Bytes) (packet : Packet)
  | sendFrameFromInterface (originRouterId egressNeighborId : Bytes) (packet : Packet)

namespace Topology

/-- One call. -/
def perform (t : Topology) : Call → Option Topology
  | .addNode node => some (t.addNode node).2
  | .addLink a b => some (t.addLink a b).2
  | .addRouterInterface r n mac ip mask => some (t.addRouterInterface r n mac ip mask).2
  | .sendFrame id packet => (t.sendFrame id packet).map Prod.snd
  | .sendFrameFromInterface r n packet => (t.sendFrameFromInterface r n packet).map Prod.snd

/-- Calls with a property lead from the empty network to it. -/
inductive Reached (P : Topology → Call → Prop) : Topology → Prop
  | empty : Reached P {}
  | step {t t' : Topology} {call : Call} :
      Reached P t → P t call → t.perform call = some t' → Reached P t'

/-- The neighbour that a switch has learned for a MAC. -/
def port (tables : MacTables) (switch macHex : Bytes) : Option Bytes :=
  ((tables.find switch).getD []).find macHex

/-- A switch has learned only links. -/
def PortsOk (t : Topology) (tables : MacTables) : Prop :=
  ∀ c hex q, port tables c hex = some q → q ∈ t.neighbors c

structure Ok (t : Topology) : Prop where
  symm : ∀ a b, b ∈ t.neighbors a → a ∈ t.neighbors b
  known : ∀ a b, b ∈ t.neighbors a → ∃ node, t.nodes.find b = some node
  ports : t.PortsOk t.switchMacTables

theorem port_learn (tables : MacTables) (s m q c hex : Bytes) :
    port (learn tables s m q) c hex = if c = s ∧ hex = m then some q else port tables c hex := by
  rw [port, port, learn, Table.find_insert]
  by_cases hc : c = s
  · rw [if_pos hc, Option.getD_some, Table.find_insert]
    by_cases hm : hex = m
    · rw [if_pos hm, if_pos ⟨hc, hm⟩]
    · rw [if_neg hm, if_neg fun h => hm h.2, hc]
  · rw [if_neg hc, if_neg fun h => hc h.1]

/-- An entry of a table after a frame came to a node. -/
theorem port_learnAt {tables : MacTables} {header : EthernetHeader} {node : Node}
    {p c c' hex q : Bytes} (h : port (learnAt tables header node p c) c' hex = some q) :
    (node.kind = .Switch ∧ c' = c ∧ hex = macToHex header.source ∧ q = p) ∨
      port tables c' hex = some q := by
  unfold learnAt at h
  split at h
  · rename_i hkind
    rw [port_learn] at h
    split at h
    · rename_i hc
      exact .inl ⟨hkind, hc.1, hc.2, (Option.some.inj h).symm⟩
    · exact .inr h
  · exact .inr h

/-- A switch passes a frame on over links. -/
theorem PortsOk.targets {t : Topology} {tables : MacTables} (h : t.PortsOk tables)
    {header : EthernetHeader} {p c target : Bytes} (ht : target ∈ t.targets tables header p c) :
    target ∈ t.neighbors c := by
  unfold Topology.targets at ht
  dsimp only at ht
  split at ht
  · exact List.mem_of_mem_filter ht
  · unfold learnedTargets at ht
    split at ht
    · cases ht
    · split at ht
      · rename_i q hq
        split at ht
        · obtain rfl := List.mem_singleton.mp ht
          exact h c _ _ hq
        · cases ht
      · cases ht

theorem mem_pushes {t : Topology} {tables : MacTables} {header : EthernetHeader} {node : Node}
    {visited : List Bytes} {p c : Bytes} {e : Bytes × Bytes} :
    e ∈ t.pushes tables header node visited p c ↔
      node.kind = .Switch ∧ e.1 = c ∧ e.2 ∈ t.targets tables header p c ∧ e.2 ∉ visited := by
  obtain ⟨a, b⟩ := e
  unfold pushes
  split
  · rename_i hkind
    simp [hkind, List.mem_map, List.mem_filter]
    grind
  · rename_i hkind
    simp
    exact fun h => absurd h hkind

/-! ### A frame on its way -/

/-- What holds of a frame on its way through any network. -/
structure Flight (t : Topology) (origin : Bytes) (tables : MacTables)
    (arrivals queue : List (Bytes × Bytes)) : Prop where
  once : (visitedOf origin arrivals).Nodup
  queued : ∀ e ∈ queue, e.1 ∈ visitedOf origin arrivals ∧ e.2 ∈ t.neighbors e.1
  ports : t.PortsOk tables

theorem Flight.start {t : Topology} (h : t.Ok) {origin : Bytes} {starts : List Bytes}
    (hs : ∀ n ∈ starts, n ∈ t.neighbors origin) :
    t.Flight origin t.switchMacTables [] (starts.map (origin, ·)) where
  once := List.nodup_singleton _
  queued e he := by
    obtain ⟨n, hn, rfl⟩ := List.mem_map.mp he
    exact ⟨List.mem_singleton_self _, hs n hn⟩
  ports := h.ports

theorem Flight.skip {t : Topology} {origin : Bytes} {tables : MacTables}
    {arrivals queue : List (Bytes × Bytes)} {e : Bytes × Bytes}
    (h : t.Flight origin tables arrivals (e :: queue)) : t.Flight origin tables arrivals queue :=
  { h with queued := fun e' he' => h.queued e' (List.mem_cons_of_mem _ he') }

theorem Flight.visit {t : Topology} (hok : t.Ok) {header : EthernetHeader} {origin : Bytes}
    {tables : MacTables} {arrivals queue : List (Bytes × Bytes)} {p c : Bytes} {node : Node}
    (h : t.Flight origin tables arrivals ((p, c) :: queue))
    (hc : c ∉ visitedOf origin arrivals) :
    t.Flight origin (learnAt tables header node p c) ((p, c) :: arrivals) (queue ++ t.pushes
      (learnAt tables header node p c) header node (visitedOf origin ((p, c) :: arrivals)) p c) := by
  have hports : t.PortsOk (learnAt tables header node p c) := by
    intro c' hex q hq
    rcases port_learnAt hq with ⟨-, rfl, -, rfl⟩ | hq
    · exact hok.symm _ _ (h.queued _ List.mem_cons_self).2
    · exact h.ports c' hex q hq
  refine ⟨List.nodup_cons.mpr ⟨hc, h.once⟩, fun e he => ?_, hports⟩
  rcases List.mem_append.mp he with he | he
  · have hq := h.queued e (List.mem_cons_of_mem _ he)
    exact ⟨List.mem_cons_of_mem _ hq.1, hq.2⟩
  · obtain ⟨-, hec, htarget, -⟩ := mem_pushes.mp he
    exact ⟨hec ▸ List.mem_cons_self, hec ▸ hports.targets htarget⟩

theorem Flight.nodup {t : Topology} {origin : Bytes} {tables : MacTables}
    {arrivals : List (Bytes × Bytes)} (h : t.Flight origin tables arrivals [])
    (header : EthernetHeader) : (t.receivedOf header arrivals).receivers.Nodup :=
  nodup_receivedOf (List.nodup_append.mp h.once).1

/-- Every delivery ends, and a frame comes to no node twice. -/
theorem Ok.deliverFrom {t : Topology} (h : t.Ok) {origin : Bytes} {starts : List Bytes}
    (hs : ∀ n ∈ starts, n ∈ t.neighbors origin) (packet : Packet) :
    ∃ result tables, t.deliverFrom origin starts packet =
      some (result, { t with switchMacTables := tables }) ∧ t.PortsOk tables ∧
        result.receivers.Nodup := by
  unfold Topology.deliverFrom
  split
  · exact ⟨{}, t.switchMacTables, rfl, h.ports, List.nodup_nil⟩
  · rename_i header _
    obtain ⟨tables, arrivals, hflight, hloop⟩ := @deliverLoop_rule t header _
      (t.Flight origin) (fun _ _ _ _ hI _ => hI.skip)
      (fun _ _ e _ hI => h.known _ _ (hI.queued e List.mem_cons_self).2)
      (fun _ _ _ _ _ _ hI hc _ => hI.visit h hc) _ _ _ (.start h hs)
    refine ⟨t.receivedOf header arrivals, tables, ?_, hflight.ports, hflight.nodup header⟩
    exact congrArg (Option.map _) hloop

/-- Nothing is sent. -/
theorem Ok.unsent {t : Topology} (h : t.Ok) : ∃ result tables,
    some (({} : DeliveryResult), t) = some (result, { t with switchMacTables := tables }) ∧
      t.PortsOk tables ∧ result.receivers.Nodup :=
  ⟨{}, t.switchMacTables, rfl, h.ports, List.nodup_nil⟩

theorem Ok.sendFrame {t : Topology} (h : t.Ok) (origin : Bytes) (packet : Packet) :
    ∃ result tables, t.sendFrame origin packet =
      some (result, { t with switchMacTables := tables }) ∧ t.PortsOk tables ∧
        result.receivers.Nodup := by
  unfold Topology.sendFrame
  split
  · exact h.unsent
  · split
    · exact h.unsent
    · exact h.deliverFrom (fun _ hn => hn) packet

theorem Ok.sendFrameFromInterface {t : Topology} (h : t.Ok) (origin egress : Bytes)
    (packet : Packet) :
    ∃ result tables, t.sendFrameFromInterface origin egress packet =
      some (result, { t with switchMacTables := tables }) ∧ t.PortsOk tables ∧
        result.receivers.Nodup := by
  unfold Topology.sendFrameFromInterface
  split
  · exact h.unsent
  · split
    · exact h.unsent
    · split
      · exact h.unsent
      · rename_i hlinked
        refine h.deliverFrom (fun n hn => ?_) packet
        obtain rfl := List.mem_singleton.mp hn
        exact not_not.mp hlinked

/-! ### Calls that change a network -/

def host? (t : Topology) (id : Bytes) : Option Node :=
  (t.nodes.find id).filter (·.kind = .Host)

def interface? (t : Topology) (routerId : Bytes) (index : Nat) : Option RouterInterface :=
  ((t.nodes.find routerId).filter (·.kind = .Router)).bind (·.routerInterfaces[index]?)

theorem host?_eq_some {t : Topology} {id : Bytes} {node : Node} :
    t.host? id = some node ↔ t.nodes.find id = some node ∧ node.kind = .Host := by
  rw [host?, Option.filter_eq_some_iff, decide_eq_true_iff]

theorem interface?_eq_some {t : Topology} {r : Bytes} {i : Nat} {interface : RouterInterface} :
    t.interface? r i = some interface ↔ ∃ node, t.nodes.find r = some node ∧
      node.kind = .Router ∧ node.routerInterfaces[i]? = some interface := by
  rw [interface?, Option.bind_eq_some_iff]
  simp only [Option.filter_eq_some_iff, decide_eq_true_iff, and_assoc]

/-- A network with more links, hosts and interfaces. -/
structure Extends (t t' : Topology) : Prop where
  neighbors : ∀ a b, b ∈ t.neighbors a → b ∈ t'.neighbors a
  host : ∀ id node, t.host? id = some node → t'.host? id = some node
  interface : ∀ r i interface, t.interface? r i = some interface →
    t'.interface? r i = some interface

theorem Extends.refl (t : Topology) : t.Extends t :=
  ⟨fun _ _ h => h, fun _ _ h => h, fun _ _ _ h => h⟩

theorem neighbors_addNode (t : Topology) (node : Node) (a : Bytes) :
    (t.addNode node).2.neighbors a = t.neighbors a := by
  unfold addNode
  split
  · rfl
  · rw [neighbors, Table.find_insert]
    by_cases h : a = node.id
    · rw [if_pos h, h]
      rfl
    · rw [if_neg h]
      rfl

theorem find_addNode {t : Topology} {node : Node} {id : Bytes} {node' : Node}
    (h : t.nodes.find id = some node') : (t.addNode node).2.nodes.find id = some node' := by
  unfold addNode
  split
  · exact h
  · rename_i hnew
    rw [Table.find_insert_ne _ _ ?_]
    · exact h
    · rintro rfl
      exact hnew (Table.contains_iff.mpr ⟨_, h⟩)

theorem neighbors_pushNeighbor (t : Topology) (a b x : Bytes) :
    (t.pushNeighbor a b).neighbors x =
      if x = a then t.neighbors a ++ [b] else t.neighbors x := by
  rw [neighbors, pushNeighbor, Table.find_insert]
  split <;> rfl

theorem mem_neighbors_link {t : Topology} {a b x y : Bytes} :
    y ∈ ((t.pushNeighbor a b).pushNeighbor b a).neighbors x ↔
      y ∈ t.neighbors x ∨ (x = a ∧ y = b) ∨ (x = b ∧ y = a) := by
  rw [neighbors_pushNeighbor, neighbors_pushNeighbor, neighbors_pushNeighbor]
  grind

theorem addLink_cases (t : Topology) (a b : Bytes) :
    (t.addLink a b).2 = t ∨ (t.nodes.contains a = true ∧ t.nodes.contains b = true ∧
      (t.addLink a b).2 = (t.pushNeighbor a b).pushNeighbor b a) := by
  unfold addLink
  split
  · exact .inl rfl
  · rename_i hknown
    split
    · exact .inl rfl
    · exact .inr ⟨by simp_all, by simp_all, rfl⟩

theorem addRouterInterface_cases (t : Topology) (r n : Bytes) (mac : MacAddress)
    (ip mask : UInt32) :
    (t.addRouterInterface r n mac ip mask).2 = t ∨
      ∃ node, t.nodes.find r = some node ∧ node.kind = .Router ∧
        n ∉ node.routerInterfaces.map RouterInterface.neighborNodeId ∧
        (t.addRouterInterface r n mac ip mask).2 = { t with nodes := t.nodes.insert r { node with
          routerInterfaces := node.routerInterfaces ++ [⟨n, mac, ip, mask⟩] } } := by
  unfold addRouterInterface
  split
  · exact .inl rfl
  · rename_i node hnode
    split
    · exact .inl rfl
    · rename_i hkind
      split
      · exact .inl rfl
      · split
        · exact .inl rfl
        · rename_i hnew
          exact .inr ⟨node, hnode, not_not.mp hkind, by simpa [List.mem_map] using hnew, rfl⟩

theorem Ok.of_neighbors {t t' : Topology} (h : t.Ok)
    (hneighbors : ∀ a, t'.neighbors a = t.neighbors a)
    (hnodes : ∀ id node, t.nodes.find id = some node → ∃ node', t'.nodes.find id = some node')
    (htables : t'.switchMacTables = t.switchMacTables) : t'.Ok where
  symm a b hb := by
    rw [hneighbors] at hb ⊢
    exact h.symm a b hb
  known a b hb := by
    rw [hneighbors] at hb
    obtain ⟨node, hnode⟩ := h.known a b hb
    exact hnodes b node hnode
  ports c hex q hq := by
    rw [htables] at hq
    rw [hneighbors]
    exact h.ports c hex q hq

theorem Ok.addNode {t : Topology} (h : t.Ok) (node : Node) : (t.addNode node).2.Ok := by
  refine h.of_neighbors (neighbors_addNode t node) (fun id n hn => ⟨n, find_addNode hn⟩) ?_
  unfold Topology.addNode
  split <;> rfl

theorem Extends.addNode (t : Topology) (node : Node) : t.Extends (t.addNode node).2 where
  neighbors a b hb := by rwa [neighbors_addNode]
  host id n hn := by
    rw [host?_eq_some] at hn ⊢
    exact ⟨find_addNode hn.1, hn.2⟩
  interface r i interface hi := by
    rw [interface?_eq_some] at hi ⊢
    obtain ⟨n, hn, hrest⟩ := hi
    exact ⟨n, find_addNode hn, hrest⟩

theorem Ok.addLink {t : Topology} (h : t.Ok) (a b : Bytes) : (t.addLink a b).2.Ok := by
  rcases addLink_cases t a b with he | ⟨ha, hb, he⟩
  · rwa [he]
  · rw [he]
    refine ⟨fun x y hy => ?_, fun x y hy => ?_, fun c hex q hq => ?_⟩
    · rw [mem_neighbors_link] at hy ⊢
      rcases hy with hy | ⟨rfl, rfl⟩ | ⟨rfl, rfl⟩
      · exact .inl (h.symm x y hy)
      · exact .inr (.inr ⟨rfl, rfl⟩)
      · exact .inr (.inl ⟨rfl, rfl⟩)
    · rw [mem_neighbors_link] at hy
      rcases hy with hy | ⟨rfl, rfl⟩ | ⟨rfl, rfl⟩
      · exact h.known x y hy
      · exact Table.contains_iff.mp hb
      · exact Table.contains_iff.mp ha
    · exact mem_neighbors_link.mpr (.inl (h.ports c hex q hq))

theorem Extends.addLink (t : Topology) (a b : Bytes) : t.Extends (t.addLink a b).2 := by
  rcases addLink_cases t a b with he | ⟨-, -, he⟩
  · rw [he]
    exact .refl t
  · rw [he]
    exact ⟨fun x y hy => mem_neighbors_link.mpr (.inl hy), fun _ _ h => h, fun _ _ _ h => h⟩

theorem Ok.addRouterInterface {t : Topology} (h : t.Ok) (r n : Bytes) (mac : MacAddress)
    (ip mask : UInt32) : (t.addRouterInterface r n mac ip mask).2.Ok := by
  rcases addRouterInterface_cases t r n mac ip mask with he | ⟨node, hnode, -, -, he⟩
  · rwa [he]
  · rw [he]
    refine h.of_neighbors (fun _ => rfl) (fun id node' hn => ?_) rfl
    rw [Table.find_insert]
    split
    · exact ⟨_, rfl⟩
    · exact ⟨node', hn⟩

theorem Extends.addRouterInterface (t : Topology) (r n : Bytes) (mac : MacAddress)
    (ip mask : UInt32) : t.Extends (t.addRouterInterface r n mac ip mask).2 := by
  rcases addRouterInterface_cases t r n mac ip mask with he | ⟨node, hnode, hkind, -, he⟩
  · rw [he]
    exact .refl t
  · rw [he]
    refine ⟨fun _ _ hb => hb, fun id node' hn => ?_, fun r' i interface hi => ?_⟩
    · rw [host?_eq_some] at hn ⊢
      refine ⟨(Table.find_insert_ne _ _ ?_).trans hn.1, hn.2⟩
      rintro rfl
      cases hnode.symm.trans hn.1
      cases hkind.symm.trans hn.2
    · rw [interface?_eq_some] at hi ⊢
      obtain ⟨node', hn, hkind', hi⟩ := hi
      by_cases hr : r' = r
      · subst hr
        cases hnode.symm.trans hn
        refine ⟨_, Table.find_insert_self _ _ _, hkind, ?_⟩
        exact (List.getElem?_append_left (List.getElem?_eq_some_iff.mp hi).1).trans hi
      · exact ⟨node', (Table.find_insert_ne _ _ hr).trans hn, hkind', hi⟩

theorem Extends.tables (t : Topology) (tables : MacTables) :
    t.Extends { t with switchMacTables := tables } :=
  ⟨fun _ _ h => h, fun _ _ h => h, fun _ _ _ h => h⟩

/-- Only the tables of the switches differ. -/
def Traffic (t t' : Topology) : Prop := ∃ tables, t' = { t with switchMacTables := tables }

theorem Traffic.refl (t : Topology) : t.Traffic t := ⟨t.switchMacTables, rfl⟩

theorem Traffic.trans {t t' t'' : Topology} (h : t.Traffic t') (h' : t'.Traffic t'') :
    t.Traffic t'' := by
  obtain ⟨tables, rfl⟩ := h
  obtain ⟨tables', rfl⟩ := h'
  exact ⟨tables', rfl⟩

theorem Traffic.extends {t t' : Topology} (h : t.Traffic t') : t.Extends t' := by
  obtain ⟨tables, rfl⟩ := h
  exact .tables t tables

theorem deliverFrom_traffic {t t' : Topology} {origin : Bytes} {starts : List Bytes}
    {packet : Packet} {result : DeliveryResult}
    (h : t.deliverFrom origin starts packet = some (result, t')) : t.Traffic t' := by
  unfold deliverFrom at h
  split at h
  · cases h
    exact .refl t
  · obtain ⟨⟨result', tables⟩, -, he⟩ := Option.map_eq_some_iff.mp h
    cases he
    exact ⟨tables, rfl⟩

theorem sendFrame_traffic {t t' : Topology} {origin : Bytes} {packet : Packet}
    {result : DeliveryResult} (h : t.sendFrame origin packet = some (result, t')) :
    t.Traffic t' := by
  unfold sendFrame at h
  split at h
  · cases h
    exact .refl t
  · split at h
    · cases h
      exact .refl t
    · exact deliverFrom_traffic h

theorem sendFrameFromInterface_traffic {t t' : Topology} {origin egress : Bytes} {packet : Packet}
    {result : DeliveryResult}
    (h : t.sendFrameFromInterface origin egress packet = some (result, t')) : t.Traffic t' := by
  unfold sendFrameFromInterface at h
  split at h
  · cases h
    exact .refl t
  · split at h
    · cases h
      exact .refl t
    · split at h
      · cases h
        exact .refl t
      · exact deliverFrom_traffic h

/-- A call makes a network larger. -/
theorem perform_extends {t t' : Topology} {call : Call} (h : t.perform call = some t') :
    t.Extends t' := by
  cases call with
  | addNode node =>
    cases h
    exact .addNode t node
  | addLink a b =>
    cases h
    exact .addLink t a b
  | addRouterInterface r n mac ip mask =>
    cases h
    exact .addRouterInterface t r n mac ip mask
  | sendFrame id packet =>
    obtain ⟨⟨result, t''⟩, hsend, rfl⟩ := Option.map_eq_some_iff.mp h
    exact (sendFrame_traffic hsend).extends
  | sendFrameFromInterface r n packet =>
    obtain ⟨⟨result, t''⟩, hsend, rfl⟩ := Option.map_eq_some_iff.mp h
    exact (sendFrameFromInterface_traffic hsend).extends

theorem Ok.withTables {t : Topology} (h : t.Ok) {tables : MacTables} (ht : t.PortsOk tables) :
    ({ t with switchMacTables := tables } : Topology).Ok :=
  ⟨h.symm, h.known, ht⟩

/-- Every call ends. -/
theorem Ok.perform {t : Topology} (h : t.Ok) (call : Call) :
    ∃ t', t.perform call = some t' ∧ t'.Ok := by
  cases call with
  | addNode node => exact ⟨_, rfl, h.addNode node⟩
  | addLink a b => exact ⟨_, rfl, h.addLink a b⟩
  | addRouterInterface r n mac ip mask => exact ⟨_, rfl, h.addRouterInterface r n mac ip mask⟩
  | sendFrame id packet =>
    obtain ⟨result, tables, he, hports, -⟩ := h.sendFrame id packet
    exact ⟨_, congrArg (Option.map Prod.snd) he, h.withTables hports⟩
  | sendFrameFromInterface r n packet =>
    obtain ⟨result, tables, he, hports, -⟩ := h.sendFrameFromInterface r n packet
    exact ⟨_, congrArg (Option.map Prod.snd) he, h.withTables hports⟩

theorem Ok.empty : ({} : Topology).Ok :=
  ⟨fun _ _ h => absurd h List.not_mem_nil, fun _ _ h => absurd h List.not_mem_nil,
    fun _ _ _ h => by cases h⟩

theorem Reached.ok {P : Topology → Call → Prop} {t : Topology} (h : Reached P t) : t.Ok := by
  induction h with
  | empty => exact .empty
  | @step t t' call _ _ hp ih =>
    obtain ⟨t'', he, hok⟩ := ih.perform call
    cases he.symm.trans hp
    exact hok

theorem Reached.calls {P : Topology → Call → Prop} {t t' : Topology} {calls : List Call}
    (h : Reached P t) (hcalls : ∀ t, ∀ call ∈ calls, P t call)
    (he : calls.foldlM perform t = some t') : Reached P t' := by
  induction calls generalizing t with
  | nil =>
    cases he
    exact h
  | cons call calls ih =>
    rw [List.foldlM_cons] at he
    obtain ⟨t₁, hp, he⟩ := Option.bind_eq_some_iff.mp he
    exact ih (h.step (hcalls t call List.mem_cons_self) hp)
      (fun t c hc => hcalls t c (List.mem_cons_of_mem _ hc)) he

end Topology

end Netlab
end Techuila
