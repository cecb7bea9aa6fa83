import Mathlib.Combinatorics.SimpleGraph.Star
import Techuila.Lib.Flooding
import Techuila.Netlab.Ports

/-!
# Delivery on a network without loops (`24-network-simulator/netlab/topology.cpp`)

* `Allowed`: hosts and interfaces send with their own MAC.
* `Learned`: a switch has learned only neighbours toward the owner of a MAC. In a history of allowed
  calls this stays so (`Reached.learned`), since it does as links are added.
* `Spread`: a frame on its way through a forest. A neighbour toward a node for which it is meant is
  never left out, so it comes to that node (`Spread.flooded`).
-/

namespace Techuila
namespace Netlab

open Techuila.Dist (Bytes)
open Techuila.Net
open SimpleGraph (fromRel)

namespace Topology

/-- The MAC of a host or an interface. -/
def macOf (t : Topology) : Endpoint → Option MacAddress
  | .host id => (t.host? id).map Node.mac
  | .interface r i => (t.interface? r i).map RouterInterface.mac

/-- A host takes frames from any neighbour, an interface from the one that it faces. -/
def Faces (t : Topology) : Endpoint → Bytes → Prop
  | .host id, _ => ∃ node, t.host? id = some node
  | .interface r i, p => ∃ interface, t.interface? r i = some interface ∧
      interface.neighborNodeId = p

/-- An endpoint sends a frame. -/
def sendFrom (t : Topology) (e : Endpoint) (packet : Packet) :
    Option (DeliveryResult × Topology) :=
  match e with
  | .host id => t.sendFrame id packet
  | .interface r i =>
    match t.interface? r i with
    | some interface => t.sendFrameFromInterface r interface.neighborNodeId packet
    | none => some ({}, t)

/-- A frame that parses has this source. -/
def HasSource (packet : Packet) (mac : MacAddress) : Prop :=
  ∀ header, parseFrameHeader packet = some header → header.source = mac

/-- Frames are sent by hosts and by interfaces of routers, with their own MAC. The neighbour that an
interface faces identifies it. -/
def Allowed (t : Topology) : Call → Prop
  | .addNode node => (node.routerInterfaces.map RouterInterface.neighborNodeId).Nodup
  | .sendFrame id packet => ∃ node, t.host? id = some node ∧ HasSource packet node.mac
  | .sendFrameFromInterface r n packet => ∃ i interface, t.interface? r i = some interface ∧
      interface.neighborNodeId = n ∧ HasSource packet interface.mac
  | _ => True

/-- The links. -/
def graph (t : Topology) : SimpleGraph Bytes := fromRel fun a b => b ∈ t.neighbors a

/-- No loops. -/
structure Forest (t : Topology) : Prop where
  acyclic : t.graph.IsAcyclic
  noSelfLink : ∀ a, a ∉ t.neighbors a

/-- A MAC tells who has it. -/
structure Distinct (t : Topology) : Prop where
  owner : ∀ e e' mac, t.macOf e = some mac → t.macOf e' = some mac → e = e'
  unicast : ∀ e, t.macOf e ≠ some BROADCAST_MAC

def IsSwitch (t : Topology) (c : Bytes) : Prop :=
  ∃ node, t.nodes.find c = some node ∧ node.kind = .Switch

/-- The neighbours to which an endpoint sends. -/
def Starts (t : Topology) (e : Endpoint) (n : Bytes) : Prop :=
  n ∈ t.neighbors e.node ∧ t.Faces e n

/-- A frame may go from an endpoint to another over switches only. -/
def Reaches (t : Topology) (e e' : Endpoint) : Prop :=
  ∃ p, Flooding.Reaches t.graph t.IsSwitch e.node (t.Starts e) p e'.node ∧ t.Faces e' p

theorem Ok.adj {t : Topology} (h : t.Ok) (hforest : t.Forest) {a b : Bytes} :
    t.graph.Adj a b ↔ b ∈ t.neighbors a := by
  rw [graph, SimpleGraph.fromRel_adj]
  constructor
  · rintro ⟨-, hb | ha⟩
    · exact hb
    · exact h.symm b a ha
  · intro hb
    refine ⟨?_, .inl hb⟩
    rintro rfl
    exact hforest.noSelfLink a hb

theorem Extends.graph {t t' : Topology} (h : t.Extends t') : t.graph ≤ t'.graph := by
  intro a b hab
  rw [Topology.graph, SimpleGraph.fromRel_adj] at hab ⊢
  exact ⟨hab.1, hab.2.imp (h.neighbors a b) (h.neighbors b a)⟩

theorem Extends.macOf {t t' : Topology} (h : t.Extends t') {e : Endpoint} {mac : MacAddress}
    (hm : t.macOf e = some mac) : t'.macOf e = some mac := by
  cases e with
  | host id =>
    obtain ⟨node, hnode, rfl⟩ := Option.map_eq_some_iff.mp hm
    exact Option.map_eq_some_iff.mpr ⟨node, h.host id node hnode, rfl⟩
  | interface r i =>
    obtain ⟨interface, hi, rfl⟩ := Option.map_eq_some_iff.mp hm
    exact Option.map_eq_some_iff.mpr ⟨interface, h.interface r i interface hi, rfl⟩

theorem Extends.forest {t t' : Topology} (h : t.Extends t') (hforest : t'.Forest) : t.Forest where
  acyclic := hforest.acyclic.anti h.graph
  noSelfLink a ha := hforest.noSelfLink a (h.neighbors a a ha)

theorem Extends.distinct {t t' : Topology} (h : t.Extends t') (hd : t'.Distinct) : t.Distinct where
  owner e e' mac he he' := hd.owner e e' mac (h.macOf he) (h.macOf he')
  unicast e he := hd.unicast e (h.macOf he)

/-! ### Interfaces -/

/-- The interfaces of a router face different neighbours. -/
def FacesOk (t : Topology) : Prop :=
  ∀ r node, t.nodes.find r = some node →
    (node.routerInterfaces.map RouterInterface.neighborNodeId).Nodup

theorem facing_eq_some {node : Node}
    (h : (node.routerInterfaces.map RouterInterface.neighborNodeId).Nodup) {p : Bytes}
    {interface : RouterInterface} {i : Nat} :
    facing node p = some (interface, i) ↔
      node.routerInterfaces[i]? = some interface ∧ interface.neighborNodeId = p := by
  have hsound : ∀ {interface i}, facing node p = some (interface, i) →
      node.routerInterfaces[i]? = some interface ∧ interface.neighborNodeId = p := fun hf =>
    ⟨List.mem_zipIdx_iff_getElem?.mp (List.mem_of_find?_eq_some hf),
      by simpa using List.find?_some hf⟩
  refine ⟨hsound, fun ⟨hi, hp⟩ => ?_⟩
  have hsome : (facing node p).isSome := List.find?_isSome.mpr
    ⟨(interface, i), List.mem_zipIdx_iff_getElem?.mpr hi, by simpa using hp⟩
  obtain ⟨⟨interface', j⟩, hf⟩ := Option.isSome_iff_exists.mp hsome
  obtain ⟨hj, hp'⟩ := hsound hf
  have hsame : (node.routerInterfaces.map RouterInterface.neighborNodeId)[i]? =
      (node.routerInterfaces.map RouterInterface.neighborNodeId)[j]? := by
    rw [List.getElem?_map, List.getElem?_map, hi, hj, Option.map_some, Option.map_some, hp, hp']
  have hlt : i < (node.routerInterfaces.map RouterInterface.neighborNodeId).length := by
    rw [List.length_map]
    exact (List.getElem?_eq_some_iff.mp hi).1
  obtain rfl := (List.getElem?_inj hlt h).mp hsame
  rw [hf, Option.some.inj (hj.symm.trans hi)]

theorem FacesOk.addNode {t : Topology} (h : t.FacesOk) {node : Node}
    (hn : (node.routerInterfaces.map RouterInterface.neighborNodeId).Nodup) :
    (t.addNode node).2.FacesOk := by
  unfold Topology.addNode
  split
  · exact h
  · intro r node' hr
    rw [Table.find_insert] at hr
    split at hr
    · cases hr
      exact hn
    · exact h r node' hr

theorem FacesOk.addLink {t : Topology} (h : t.FacesOk) (a b : Bytes) :
    (t.addLink a b).2.FacesOk := by
  rcases addLink_cases t a b with he | ⟨-, -, he⟩
  · rwa [he]
  · rw [he]
    exact h

theorem FacesOk.addRouterInterface {t : Topology} (h : t.FacesOk) (r n : Bytes)
    (mac : MacAddress) (ip mask : UInt32) : (t.addRouterInterface r n mac ip mask).2.FacesOk := by
  rcases addRouterInterface_cases t r n mac ip mask with he | ⟨node, hnode, -, hnew, he⟩
  · rwa [he]
  · rw [he]
    intro r' node' hr
    rw [Table.find_insert] at hr
    split at hr
    · cases hr
      rw [List.map_append]
      refine List.nodup_append.mpr ⟨h r node hnode, List.nodup_singleton _, fun a ha b hb hab => ?_⟩
      obtain rfl := List.mem_singleton.mp hb
      exact hnew (hab ▸ ha)
    · exact h r' node' hr

/-! ### What the switches have learned -/

/-- A switch has learned only neighbours toward the owner of a MAC. -/
def Learned (t : Topology) (tables : MacTables) : Prop :=
  ∀ c hex q, port tables c hex = some q → ∃ e mac, t.macOf e = some mac ∧ hex = macToHex mac ∧
    Flooding.Toward t.graph c q e.node

theorem Learned.extends {t t' : Topology} {tables : MacTables} (h : t.Learned tables)
    (hext : t.Extends t') : t'.Learned tables := by
  intro c hex q hq
  obtain ⟨e, mac, hmac, hhex, htoward⟩ := h c hex q hq
  exact ⟨e, mac, hext.macOf hmac, hhex, htoward.mono hext.graph⟩

/-- A neighbour to which the frame must go: one toward a node it is meant for. -/
def Wanted (t : Topology) (header : EthernetHeader) (c d : Bytes) : Prop :=
  header.destination = BROADCAST_MAC ∨ ∃ e, t.macOf e = some header.destination ∧
    Flooding.Toward t.graph c d e.node

/-- A switch passes a frame on to such a neighbour, unless it comes from there. -/
theorem Learned.targets {t : Topology} (hforest : t.Forest) (hdistinct : t.Distinct)
    {tables : MacTables} (h : t.Learned tables) {header : EthernetHeader} {p c d : Bytes}
    (hd : d ∈ t.neighbors c) (hne : d ≠ p) (hw : t.Wanted header c d) :
    d ∈ t.targets tables header p c := by
  unfold Topology.targets
  dsimp only
  split
  · exact List.mem_filter.mpr ⟨hd, by simpa using hne⟩
  · rename_i hlearned
    unfold learnedTargets at hlearned ⊢
    split
    · rename_i hb
      exact absurd (by rw [if_pos hb]; rfl) hlearned
    · rename_i hb
      rw [if_neg hb] at hlearned
      have hunicast : header.destination ≠ BROADCAST_MAC := fun he => hb (macEquals_iff.mpr he)
      obtain ⟨o, ho, htoward⟩ := hw.resolve_left hunicast
      split
      · rename_i q hq
        obtain ⟨e, mac, hmac, hhex, hq⟩ := h c _ q hq
        obtain rfl := macToHex_inj hhex
        obtain rfl := hdistinct.owner e o _ hmac ho
        obtain rfl := hq.unique hforest.acyclic htoward
        rw [if_pos hne]
        exact List.mem_singleton_self _
      · rename_i hnone
        rw [hnone] at hlearned
        exact absurd rfl hlearned

/-! ### A frame on its way -/

theorem mem_visitedOf {origin x : Bytes} {arrivals : List (Bytes × Bytes)} :
    x ∈ visitedOf origin arrivals ↔ x = origin ∨ ∃ p, (p, x) ∈ arrivals := by
  simp [visitedOf, or_comm]

/-- The frame has come to a node, or is on its way to it. -/
def Pending (origin : Bytes) (arrivals queue : List (Bytes × Bytes)) (d : Bytes) : Prop :=
  d ∈ visitedOf origin arrivals ∨ ∃ p, (p, d) ∈ queue

theorem Pending.skip {origin d : Bytes} {arrivals queue : List (Bytes × Bytes)}
    {e : Bytes × Bytes} (hseen : e.2 ∈ visitedOf origin arrivals)
    (h : Pending origin arrivals (e :: queue) d) : Pending origin arrivals queue d := by
  rcases h with h | ⟨p, hp⟩
  · exact .inl h
  · rcases List.mem_cons.mp hp with rfl | hp
    · exact .inl hseen
    · exact .inr ⟨p, hp⟩

theorem Pending.visit {origin d : Bytes} {arrivals queue new : List (Bytes × Bytes)}
    {e : Bytes × Bytes} (h : Pending origin arrivals (e :: queue) d) :
    Pending origin (e :: arrivals) (queue ++ new) d := by
  rcases h with h | ⟨p, hp⟩
  · exact .inl (List.mem_cons_of_mem _ h)
  · rcases List.mem_cons.mp hp with rfl | hp
    · exact .inl List.mem_cons_self
    · exact .inr ⟨p, List.mem_append_left _ hp⟩

/-- What holds of a frame of an endpoint on its way through a forest. -/
structure Spread (t : Topology) (sender : Endpoint) (header : EthernetHeader) (tables : MacTables)
    (arrivals queue : List (Bytes × Bytes)) : Prop where
  flight : t.Flight sender.node tables arrivals queue
  learned : t.Learned tables
  tree : Flooding.Tree t.graph sender.node arrivals
  reaches : ∀ e, e ∈ arrivals ∨ e ∈ queue →
    Flooding.Reaches t.graph t.IsSwitch sender.node (t.Starts sender) e.1 e.2
  first : ∀ n, t.Starts sender n → Pending sender.node arrivals queue n
  next : ∀ p c, (p, c) ∈ arrivals → t.IsSwitch c → ∀ d, t.graph.Adj c d → d ≠ p →
    t.Wanted header c d → Pending sender.node arrivals queue d

variable {t : Topology} {sender : Endpoint} {header : EthernetHeader} {tables : MacTables}
  {arrivals queue : List (Bytes × Bytes)}

theorem Spread.skip {e : Bytes × Bytes}
    (h : t.Spread sender header tables arrivals (e :: queue))
    (hseen : e.2 ∈ visitedOf sender.node arrivals) :
    t.Spread sender header tables arrivals queue where
  flight := h.flight.skip
  learned := h.learned
  tree := h.tree
  reaches e' he' := h.reaches e' (he'.imp_right (List.mem_cons_of_mem _))
  first n hn := (h.first n hn).skip hseen
  next p c hpc hc d hd hne hw := (h.next p c hpc hc d hd hne hw).skip hseen

theorem Spread.visit (hok : t.Ok) (hforest : t.Forest) (hdistinct : t.Distinct)
    (hsource : t.macOf sender = some header.source) {p c : Bytes} {node : Node}
    (h : t.Spread sender header tables arrivals ((p, c) :: queue))
    (hc : c ∉ visitedOf sender.node arrivals) (hnode : t.nodes.find c = some node) :
    t.Spread sender header (learnAt tables header node p c) ((p, c) :: arrivals) (queue ++ t.pushes
      (learnAt tables header node p c) header node
        (visitedOf sender.node ((p, c) :: arrivals)) p c) := by
  obtain ⟨hp, hpc⟩ := h.flight.queued _ List.mem_cons_self
  have hadj : t.graph.Adj c p := ((hok.adj hforest).mpr hpc).symm
  have htree : Flooding.Tree t.graph sender.node ((p, c) :: arrivals) :=
    h.tree.cons (mem_visitedOf.mp hp) (fun hm => hc (mem_visitedOf.mpr hm)) hadj
  have hreaches := h.reaches (p, c) (.inr List.mem_cons_self)
  have hlearned : t.Learned (learnAt tables header node p c) := by
    intro c' hex q hq
    rcases port_learnAt hq with ⟨-, rfl, rfl, rfl⟩ | hq
    · exact ⟨sender, header.source, hsource, rfl, htree.toward List.mem_cons_self⟩
    · exact h.learned c' hex q hq
  refine ⟨h.flight.visit hok hc, hlearned, htree, fun e he => ?_, fun n hn => (h.first n hn).visit,
    fun p' c' hpc' hc' d hd hne hw => ?_⟩
  · rcases he with he | he
    · rcases List.mem_cons.mp he with rfl | he
      · exact hreaches
      · exact h.reaches e (.inl he)
    · rcases List.mem_append.mp he with he | he
      · exact h.reaches e (.inr (List.mem_cons_of_mem _ he))
      · obtain ⟨hkind, hec, htarget, -⟩ := mem_pushes.mp he
        have hlink := (h.flight.visit hok hc).ports.targets htarget
        rw [hec]
        exact hreaches.next ⟨node, hnode, hkind⟩ ((hok.adj hforest).mpr hlink)
  · rcases List.mem_cons.mp hpc' with hnew | hold
    · cases hnew
      obtain ⟨node', hnode', hkind⟩ := hc'
      cases hnode.symm.trans hnode'
      have htarget := hlearned.targets hforest hdistinct ((hok.adj hforest).mp hd) hne hw
      by_cases hseen : d ∈ visitedOf sender.node ((p, c) :: arrivals)
      · exact .inl hseen
      · exact .inr ⟨c, List.mem_append_right _ (mem_pushes.mpr ⟨hkind, rfl, htarget, hseen⟩)⟩
    · exact (h.next p' c' hold hc' d hd hne hw).visit

theorem Spread.flooded (hforest : t.Forest) (h : t.Spread sender header tables arrivals []) :
    Flooding.Flooded t.graph t.IsSwitch sender.node (t.Starts sender) (t.Wanted header) arrivals := by
  have hcome : ∀ {d}, Pending sender.node arrivals [] d →
      d = sender.node ∨ ∃ p, (p, d) ∈ arrivals := fun hd =>
    mem_visitedOf.mp (hd.resolve_right fun ⟨_, hp⟩ => List.not_mem_nil hp)
  refine ⟨fun e he => h.reaches e (.inl he), fun e he => h.tree.toward he, fun n hn => ?_,
    fun p c hpc hc d hd hne hw => hcome (h.next p c hpc hc d hd hne hw)⟩
  refine (hcome (h.first n hn)).resolve_left ?_
  rintro rfl
  exact hforest.noSelfLink _ hn.1

/-- An endpoint sends to the neighbours where its frames start. -/
theorem sendFrom_eq {e : Endpoint} {mac : MacAddress} (he : t.macOf e = some mac)
    (packet : Packet) : ∃ starts, (∀ n, n ∈ starts ↔ t.Starts e n) ∧
      t.sendFrom e packet = t.deliverFrom e.node starts packet := by
  cases e with
  | host id =>
    obtain ⟨node, hnode, -⟩ := Option.map_eq_some_iff.mp he
    obtain ⟨hfind, hkind⟩ := host?_eq_some.mp hnode
    refine ⟨t.neighbors id, fun n => ⟨fun hn => ⟨hn, node, hnode⟩, And.left⟩, ?_⟩
    rw [sendFrom, sendFrame, hfind]
    exact if_neg fun h => h.1 hkind
  | interface r i =>
    obtain ⟨interface, hi, -⟩ := Option.map_eq_some_iff.mp he
    obtain ⟨node, hfind, hkind, -⟩ := interface?_eq_some.mp hi
    have hstarts : ∀ n, t.Starts (.interface r i) n ↔
        n ∈ t.neighbors r ∧ n = interface.neighborNodeId := by
      refine fun n => and_congr_right fun _ => ⟨fun ⟨interface', hi', hn⟩ => ?_, fun hn =>
        ⟨interface, hi, hn.symm⟩⟩
      cases hi.symm.trans hi'
      exact hn.symm
    have hsend : t.sendFrom (.interface r i) packet =
        if interface.neighborNodeId ∉ t.neighbors r then some ({}, t)
        else t.deliverFrom r [interface.neighborNodeId] packet := by
      rw [sendFrom, hi]
      dsimp only
      rw [sendFrameFromInterface, hfind]
      exact if_neg (not_not.mpr hkind)
    by_cases hlinked : interface.neighborNodeId ∈ t.neighbors r
    · refine ⟨[interface.neighborNodeId], fun n => ?_, hsend.trans (if_neg (not_not.mpr hlinked))⟩
      rw [hstarts, List.mem_singleton]
      exact ⟨fun hn => ⟨hn ▸ hlinked, hn⟩, And.right⟩
    · refine ⟨[], fun n => ?_, ?_⟩
      · rw [hstarts]
        exact ⟨fun hn => absurd hn List.not_mem_nil, fun hn => absurd (hn.2 ▸ hn.1) hlinked⟩
      · rw [hsend, if_pos hlinked, deliverFrom]
        split
        · rfl
        · rw [List.map_nil, deliverLoop]
          rfl

theorem not_isSwitch {e : Endpoint} {mac : MacAddress} (he : t.macOf e = some mac) :
    ¬ t.IsSwitch e.node := by
  rintro ⟨node, hnode, hkind⟩
  cases e with
  | host id =>
    obtain ⟨node', hnode', -⟩ := Option.map_eq_some_iff.mp he
    obtain ⟨hfind, hkind'⟩ := host?_eq_some.mp hnode'
    cases hnode.symm.trans hfind
    cases hkind.symm.trans hkind'
  | interface r i =>
    obtain ⟨interface, hi, -⟩ := Option.map_eq_some_iff.mp he
    obtain ⟨node', hfind, hkind', -⟩ := interface?_eq_some.mp hi
    cases hnode.symm.trans hfind
    cases hkind.symm.trans hkind'

/-- An endpoint is in the result where the frame came to it, from a neighbour that it faces. -/
theorem received_iff (hfaces : t.FacesOk) (e : Endpoint) :
    (t.receivedOf header arrivals).Received e ↔
      ∃ p mac, (p, e.node) ∈ arrivals ∧ t.Faces e p ∧ t.macOf e = some mac ∧
        (header.destination = BROADCAST_MAC ∨ mac = header.destination) := by
  cases e with
  | host id =>
    refine mem_receivedByHosts.trans ⟨?_, ?_⟩
    · rintro ⟨p, node, hm, hfind, hkind, ha⟩
      have hnode := host?_eq_some.mpr ⟨hfind, hkind⟩
      exact ⟨p, node.mac, hm, ⟨node, hnode⟩, congrArg (Option.map Node.mac) hnode, accepts_iff.mp ha⟩
    · rintro ⟨p, mac, hm, -, hmac, ha⟩
      obtain ⟨node, hnode, rfl⟩ := Option.map_eq_some_iff.mp hmac
      obtain ⟨hfind, hkind⟩ := host?_eq_some.mp hnode
      exact ⟨p, node, hm, hfind, hkind, accepts_iff.mpr ha⟩
  | interface r i =>
    refine mem_receivedByRouterInterfaces.trans ⟨?_, ?_⟩
    · rintro ⟨p, node, interface, hm, hfind, hkind, hface, ha⟩
      obtain ⟨hi, hp⟩ := (facing_eq_some (hfaces r node hfind)).mp hface
      have hi := interface?_eq_some.mpr ⟨node, hfind, hkind, hi⟩
      exact ⟨p, interface.mac, hm, ⟨interface, hi, hp⟩, congrArg (Option.map RouterInterface.mac) hi,
        accepts_iff.mp ha⟩
    · rintro ⟨p, mac, hm, ⟨interface, hi, hp⟩, hmac, ha⟩
      obtain ⟨node, hfind, hkind, hi'⟩ := interface?_eq_some.mp hi
      cases (congrArg (Option.map RouterInterface.mac) hi).symm.trans hmac
      exact ⟨p, node, interface, hm, hfind, hkind,
        (facing_eq_some (hfaces r node hfind)).mpr ⟨hi', hp⟩, accepts_iff.mpr ha⟩

theorem Faces.macOf {e : Endpoint} {p : Bytes} (h : t.Faces e p) : ∃ mac, t.macOf e = some mac := by
  cases e with
  | host id =>
    obtain ⟨node, hnode⟩ := h
    exact ⟨node.mac, congrArg (Option.map Node.mac) hnode⟩
  | interface r i =>
    obtain ⟨interface, hi, -⟩ := h
    exact ⟨interface.mac, congrArg (Option.map RouterInterface.mac) hi⟩

/-- The endpoint of a node that takes frames from a neighbour is one. -/
theorem Faces.eq {e e' : Endpoint} {p : Bytes} (hfaces : t.FacesOk) (h : t.Faces e p)
    (h' : t.Faces e' p) (hnode : e.node = e'.node) : e = e' := by
  cases e with
  | host id =>
    cases e' with
    | host id' => exact congrArg Endpoint.host hnode
    | interface r i =>
      obtain rfl : id = r := hnode
      obtain ⟨node, hn⟩ := h
      obtain ⟨interface, hi, -⟩ := h'
      obtain ⟨hfind, hkind⟩ := host?_eq_some.mp hn
      obtain ⟨node', hfind', hkind', -⟩ := interface?_eq_some.mp hi
      cases hfind.symm.trans hfind'
      cases hkind.symm.trans hkind'
  | interface r i =>
    obtain ⟨interface, hi, hp⟩ := h
    obtain ⟨node, hfind, hkind, hi⟩ := interface?_eq_some.mp hi
    cases e' with
    | host id =>
      obtain rfl : r = id := hnode
      obtain ⟨node', hn⟩ := h'
      obtain ⟨hfind', hkind'⟩ := host?_eq_some.mp hn
      cases hfind.symm.trans hfind'
      cases hkind.symm.trans hkind'
    | interface r' j =>
      obtain rfl : r = r' := hnode
      obtain ⟨interface', hj, hp'⟩ := h'
      obtain ⟨node', hfind', -, hj⟩ := interface?_eq_some.mp hj
      cases hfind.symm.trans hfind'
      have hf := (facing_eq_some (hfaces r node hfind)).mpr ⟨hi, hp⟩
      have hf' := (facing_eq_some (hfaces r node hfind)).mpr ⟨hj, hp'⟩
      cases hf.symm.trans hf'
      rfl

/-- A network without loops that allowed calls have led to. -/
structure Ready (t : Topology) : Prop where
  ok : t.Ok
  faces : t.FacesOk
  forest : t.Forest
  distinct : t.Distinct
  learned : t.Learned t.switchMacTables

theorem Ready.spread (h : t.Ready) {starts : List Bytes}
    (hstarts : ∀ n, n ∈ starts ↔ t.Starts sender n) :
    t.Spread sender header t.switchMacTables [] (starts.map (sender.node, ·)) where
  flight := .start h.ok fun n hn => ((hstarts n).mp hn).1
  learned := h.learned
  tree e he := absurd he List.not_mem_nil
  reaches e he := by
    obtain ⟨n, hn, rfl⟩ := List.mem_map.mp (he.resolve_left List.not_mem_nil)
    exact .first ((hstarts n).mp hn)
  first n hn := .inr ⟨sender.node, List.mem_map.mpr ⟨n, (hstarts n).mpr hn, rfl⟩⟩
  next p c hpc := absurd hpc List.not_mem_nil

theorem Ready.starts_adj (h : t.Ready) {n : Bytes} (hn : t.Starts sender n) :
    t.graph.Adj sender.node n := (h.ok.adj h.forest).mpr hn.1

/-- An endpoint that may be reached takes the frame, and it is not the sender. -/
theorem Ready.received_iff (h : t.Ready) (hsender : t.macOf sender = some header.source)
    (hs : t.Spread sender header tables arrivals []) (e : Endpoint) :
    (t.receivedOf header arrivals).Received e ↔ e ≠ sender ∧ t.Reaches sender e ∧
      (header.destination = BROADCAST_MAC ∨ t.macOf e = some header.destination) := by
  have hflooded := hs.flooded h.forest
  have horigin := not_isSwitch hsender
  have hnew : ∀ p, (p, sender.node) ∉ arrivals := by
    intro p hp
    have hm : sender.node ∈ arrivals.map Prod.snd := List.mem_map.mpr ⟨_, hp, rfl⟩
    exact (List.nodup_append.mp hs.flight.once).2.2 _ hm _ (List.mem_singleton_self _) rfl
  rw [Topology.received_iff h.faces]
  constructor
  · rintro ⟨p, mac, hm, hface, hmac, hto⟩
    refine ⟨?_, ⟨p, hflooded.sound _ hm, hface⟩, hto.imp_right fun hdest => ?_⟩
    · rintro rfl
      exact hnew p hm
    · rw [hmac, hdest]
  · rintro ⟨hne, ⟨p, hreaches, hface⟩, hto⟩
    obtain ⟨mac, hmac⟩ := hface.macOf
    have hnode : e.node ≠ sender.node := by
      intro he
      have hstart : t.Starts sender p :=
        Flooding.Reaches.start_of_origin h.forest.acyclic horigin (fun n => h.starts_adj)
          (he ▸ hreaches)
      exact hne (hface.eq h.faces hstart.2 he)
    have hwanted : ∀ c q, Flooding.Toward t.graph c q e.node → t.Wanted header c q :=
      fun c q htoward => hto.imp_right fun he => ⟨e, he, htoward⟩
    refine ⟨p, mac, ?_, hface, hmac, hto.imp_right fun he => Option.some.inj (hmac.symm.trans he)⟩
    exact (hflooded.mem_iff h.forest.acyclic horigin (fun n => h.starts_adj) (not_isSwitch hmac)
      hnode hwanted).mpr hreaches

/-- The way between two endpoints may be gone back. -/
theorem Ready.reaches_symm (h : t.Ready) {e e' : Endpoint} (hr : t.Reaches e e') :
    t.Reaches e' e := by
  obtain ⟨p, hp, hface⟩ := hr
  rcases hp.walk with ⟨rfl, hlink, hface'⟩ | ⟨n, ⟨hn, hface'⟩, hadj, w, -, hw⟩
  · exact ⟨e'.node, .first ⟨h.ok.symm _ _ hlink, hface⟩, hface'⟩
  · have hback : Flooding.Reaches t.graph t.IsSwitch e'.node (t.Starts e') e'.node p :=
      .first ⟨(h.ok.adj h.forest).mp hadj.symm, hface⟩
    refine ⟨n, hback.along w.reverse (fun x hx => hw x ?_) ((h.ok.adj h.forest).mpr hn).symm, hface'⟩
    rwa [SimpleGraph.Walk.support_reverse, List.mem_reverse] at hx

/-- What sending a frame does on a network without loops. -/
theorem Ready.sendFrom (h : t.Ready) {e : Endpoint} {mac : MacAddress}
    (he : t.macOf e = some mac) {packet : Packet} (hsource : HasSource packet mac) :
    ∃ result tables, t.sendFrom e packet = some (result, { t with switchMacTables := tables }) ∧
      t.PortsOk tables ∧ t.Learned tables ∧ ∀ header, parseFrameHeader packet = some header →
        result.receivers.Nodup ∧ ∀ e', result.Received e' ↔ e' ≠ e ∧ t.Reaches e e' ∧
          (header.destination = BROADCAST_MAC ∨ t.macOf e' = some header.destination) := by
  obtain ⟨starts, hstarts, hsend⟩ := sendFrom_eq he packet
  rw [hsend, deliverFrom]
  split
  · rename_i hparse
    refine ⟨{}, t.switchMacTables, rfl, h.ok.ports, h.learned, fun header hp => ?_⟩
    cases hparse.symm.trans hp
  · rename_i header hparse
    obtain rfl := hsource header hparse
    obtain ⟨tables, arrivals, hspread, hloop⟩ := @deliverLoop_rule t header _
      (t.Spread e header) (fun _ _ _ _ hI hseen => hI.skip hseen)
      (fun _ _ x _ hI => h.ok.known _ _ (hI.flight.queued x List.mem_cons_self).2)
      (fun _ _ _ _ _ _ hI hc hn => hI.visit h.ok h.forest h.distinct he hc hn)
      _ _ _ (h.spread hstarts)
    refine ⟨t.receivedOf header arrivals, tables, congrArg (Option.map _) hloop,
      hspread.flight.ports, hspread.learned, fun header' hp => ?_⟩
    cases hparse.symm.trans hp
    exact ⟨hspread.flight.nodup header, h.received_iff he hspread⟩

/-! ### Histories -/

theorem Ready.withTables (h : t.Ready) {tables : MacTables} (hports : t.PortsOk tables)
    (hlearned : t.Learned tables) : ({ t with switchMacTables := tables } : Topology).Ready :=
  ⟨h.ok.withTables hports, h.faces, ⟨h.forest.acyclic, h.forest.noSelfLink⟩,
    ⟨h.distinct.owner, h.distinct.unicast⟩, hlearned⟩

/-- What a call that changes the network keeps. -/
theorem Ready.grown {t' : Topology} (h : t.Ready) (hok : t'.Ok) (hext : t.Extends t')
    (hfaces : t'.FacesOk) (htables : t'.switchMacTables = t.switchMacTables)
    (hforest : t'.Forest) (hdistinct : t'.Distinct) : t'.Ready :=
  ⟨hok, hfaces, hforest, hdistinct, htables ▸ h.learned.extends hext⟩

theorem Ready.perform {t' : Topology} {call : Call} (h : t.Ready) (hallowed : t.Allowed call)
    (hp : t.perform call = some t') (hforest : t'.Forest) (hdistinct : t'.Distinct) : t'.Ready := by
  cases call with
  | addNode node =>
    cases hp
    refine h.grown (h.ok.addNode node) (.addNode t node) (h.faces.addNode hallowed) ?_ hforest
      hdistinct
    unfold addNode
    split <;> rfl
  | addLink a b =>
    cases hp
    refine h.grown (h.ok.addLink a b) (.addLink t a b) (h.faces.addLink a b) ?_ hforest hdistinct
    rcases addLink_cases t a b with he | ⟨-, -, he⟩ <;> rw [he]
    rfl
  | addRouterInterface r n mac ip mask =>
    cases hp
    refine h.grown (h.ok.addRouterInterface r n mac ip mask)
      (.addRouterInterface t r n mac ip mask) (h.faces.addRouterInterface r n mac ip mask) ?_
      hforest hdistinct
    rcases addRouterInterface_cases t r n mac ip mask with he | ⟨_, -, -, -, he⟩ <;> rw [he]
  | sendFrame id packet =>
    obtain ⟨node, hnode, hsource⟩ := hallowed
    obtain ⟨result, tables, he, hports, hlearned, -⟩ := h.sendFrom (e := .host id)
      (congrArg (Option.map Node.mac) hnode) hsource
    cases (congrArg (Option.map Prod.snd) he).symm.trans hp
    exact h.withTables hports hlearned
  | sendFrameFromInterface r n packet =>
    obtain ⟨i, interface, hi, rfl, hsource⟩ := hallowed
    obtain ⟨result, tables, he, hports, hlearned, -⟩ := h.sendFrom (e := .interface r i)
      (congrArg (Option.map RouterInterface.mac) hi) hsource
    rw [Topology.sendFrom, hi] at he
    cases (congrArg (Option.map Prod.snd) he).symm.trans hp
    exact h.withTables hports hlearned

theorem Ready.empty (hforest : ({} : Topology).Forest) (hdistinct : ({} : Topology).Distinct) :
    ({} : Topology).Ready :=
  ⟨.empty, (fun _ _ h => by cases h), hforest, hdistinct, (fun _ _ _ h => by cases h)⟩

/-- What the switches have learned after a history of allowed calls. -/
theorem Reached.ready (h : Reached Allowed t) (hforest : t.Forest) (hdistinct : t.Distinct) :
    t.Ready := by
  induction h with
  | empty => exact .empty hforest hdistinct
  | step _ hallowed hp ih =>
    have hext := perform_extends hp
    exact (ih (hext.forest hforest) (hext.distinct hdistinct)).perform hallowed hp hforest hdistinct

end Topology

open Topology

def macEnding (last : UInt8) : MacAddress := ⟨⟨#[0x02, 0, 0, 0, 0, last], rfl⟩⟩

def PC1 : Bytes := Dist.ascii "PC1"
def PC2 : Bytes := Dist.ascii "PC2"
def SW1 : Bytes := Dist.ascii "SW1"

def pc (id : Bytes) (last : UInt8) (ipAddress : UInt32) : Node :=
  { id := id, kind := .Host, mac := macEnding last, ipAddress := ipAddress,
    subnetMask := 0xFFFFFF00 }

/-- The calls that build two hosts at a switch. -/
def labCalls : List Call :=
  [.addNode (pc PC1 1 0xC0A8010A), .addNode (pc PC2 2 0xC0A80114),
    .addNode { id := SW1, kind := .Switch }, .addLink PC1 SW1, .addLink PC2 SW1]

def lab : Topology := (labCalls.foldlM Topology.perform {}).getD {}

theorem lab_reached : Reached Allowed lab := by
  refine Reached.empty.calls (fun t call hcall => ?_) (show labCalls.foldlM perform {} = some lab
    from rfl)
  rw [labCalls] at hcall
  simp only [List.mem_cons, List.not_mem_nil, or_false] at hcall
  rcases hcall with rfl | rfl | rfl | rfl | rfl
  · exact List.nodup_nil
  · exact List.nodup_nil
  · exact List.nodup_nil
  · trivial
  · trivial

theorem lab_neighbors {a b : Bytes} (h : b ∈ lab.neighbors a) :
    (a = SW1 ∧ (b = PC1 ∨ b = PC2)) ∨ (b = SW1 ∧ (a = PC1 ∨ a = PC2)) := by
  have hall : ∀ e ∈ lab.adjacency, ∀ b ∈ e.2,
      (e.1 = SW1 ∧ (b = PC1 ∨ b = PC2)) ∨ (b = SW1 ∧ (e.1 = PC1 ∨ e.1 = PC2)) := by
    decide
  unfold neighbors at h
  cases hf : lab.adjacency.find a with
  | none =>
    rw [hf] at h
    cases h
  | some ns =>
    rw [hf] at h
    exact hall _ (Table.mem_of_find hf) b h

theorem lab_forest : lab.Forest where
  acyclic := by
    refine (SimpleGraph.isAcyclic_starGraph SW1).anti fun a b hab => ?_
    rw [graph, SimpleGraph.fromRel_adj] at hab
    refine SimpleGraph.starGraph_adj.mpr ⟨hab.1, ?_⟩
    rcases hab.2 with h | h <;> rcases lab_neighbors h with h | h
    · exact .inl h.1
    · exact .inr h.1
    · exact .inr h.1
    · exact .inl h.1
  noSelfLink a h := by
    rcases lab_neighbors h with ⟨rfl, h | h⟩ | ⟨rfl, h | h⟩ <;> revert h <;> decide

/-- Where no node is a router, what hosts and interfaces have belongs to hosts. -/
theorem Topology.of_host {t : Topology} (hnone : ∀ e ∈ t.nodes, e.2.kind ≠ .Router) {β : Type}
    {f : Node → β} {g : RouterInterface → β} {of : Endpoint → Option β}
    (hhost : ∀ id, of (.host id) = (t.host? id).map f)
    (hinterface : ∀ r i, of (.interface r i) = (t.interface? r i).map g) {e : Endpoint} {x : β}
    (h : of e = some x) :
    ∃ id node, e = .host id ∧ (id, node) ∈ t.nodes ∧ node.kind = .Host ∧ f node = x := by
  cases e with
  | host id =>
    obtain ⟨node, hnode, hx⟩ := Option.map_eq_some_iff.mp ((hhost id).symm.trans h)
    obtain ⟨hfind, hkind⟩ := host?_eq_some.mp hnode
    exact ⟨id, node, rfl, Table.mem_of_find hfind, hkind, hx⟩
  | interface r i =>
    obtain ⟨interface, hi, -⟩ := Option.map_eq_some_iff.mp ((hinterface r i).symm.trans h)
    obtain ⟨node, hfind, hkind, -⟩ := interface?_eq_some.mp hi
    exact absurd hkind (hnone _ (Table.mem_of_find hfind))

theorem Topology.Distinct.ofHosts {t : Topology} (hnone : ∀ e ∈ t.nodes, e.2.kind ≠ .Router)
    (howner : ∀ e ∈ t.nodes, ∀ e' ∈ t.nodes, e.2.kind = .Host → e'.2.kind = .Host →
      e.2.mac = e'.2.mac → e.1 = e'.1)
    (hunicast : ∀ e ∈ t.nodes, e.2.kind = .Host → e.2.mac ≠ BROADCAST_MAC) : t.Distinct where
  owner e e' mac h h' := by
    obtain ⟨id, node, rfl, hm, hkind, hmac⟩ := of_host hnone (fun _ => rfl) (fun _ _ => rfl) h
    obtain ⟨id', node', rfl, hm', hkind', hmac'⟩ :=
      of_host hnone (fun _ => rfl) (fun _ _ => rfl) h'
    exact congrArg Endpoint.host (howner _ hm _ hm' hkind hkind' (hmac.trans hmac'.symm))
  unicast e h := by
    obtain ⟨id, node, -, hm, hkind, hmac⟩ := of_host hnone (fun _ => rfl) (fun _ _ => rfl) h
    exact hunicast _ hm hkind hmac

theorem lab_distinct : lab.Distinct :=
  .ofHosts (by decide) (by decide) (by decide)

theorem lab_reaches : lab.Reaches (.host PC1) (.host PC2) := by
  have hadj : lab.graph.Adj SW1 PC2 :=
    (lab_reached.ok.adj lab_forest).mpr (show PC2 ∈ lab.neighbors SW1 by decide)
  have hstart : lab.Starts (.host PC1) SW1 :=
    ⟨(show SW1 ∈ lab.neighbors PC1 by decide), _, rfl⟩
  exact ⟨SW1, .next (.first hstart) ⟨_, rfl, rfl⟩ hadj, _, rfl⟩

/-- A frame from one host to the MAC of the other. -/
def labPacket : Packet := buildEthernetFrame (macEnding 1) (macEnding 2) ETHERTYPE_IPV4 []

end Netlab
end Techuila
