import Techuila.Netlab.Ping

/-!
# The segment of a host, on any network

Also where links make loops, where MACs are not unique and whatever the switches have learned.

* `received_faces`: what receives a frame.
* `Ok.sendFrame_segment`: the frames of a host stay on its segment, and those to all come to every
  host there.
-/

namespace Techuila
namespace Netlab

open Techuila.Dist (Bytes)
open Techuila.Net

namespace Topology

variable {t : Topology} {header : EthernetHeader}

theorem facing_sound {node : Node} {p : Bytes} {interface : RouterInterface} {i : Nat}
    (h : facing node p = some (interface, i)) :
    node.routerInterfaces[i]? = some interface ∧ interface.neighborNodeId = p := by
  have hmem := List.mem_of_find?_eq_some h
  have hp := List.find?_some h
  exact ⟨List.mem_zipIdx_iff_getElem?.mp hmem, beq_iff_eq.mp hp⟩

/-- What receives a frame is an endpoint that it came to, with a MAC that the frame is for. -/
theorem received_faces {arrivals : List (Bytes × Bytes)} {e : Endpoint}
    (h : (t.receivedOf header arrivals).Received e) :
    ∃ p mac, (p, e.node) ∈ arrivals ∧ t.Faces e p ∧ t.macOf e = some mac ∧
      (header.destination = BROADCAST_MAC ∨ mac = header.destination) := by
  cases e with
  | host id =>
    obtain ⟨p, node, hm, hfind, hkind, ha⟩ := mem_receivedByHosts.mp h
    have hnode := host?_eq_some.mpr ⟨hfind, hkind⟩
    exact ⟨p, node.mac, hm, ⟨node, hnode⟩, congrArg (Option.map Node.mac) hnode, accepts_iff.mp ha⟩
  | interface r i =>
    obtain ⟨p, node, interface, hm, hfind, hkind, hface, ha⟩ := mem_receivedByRouterInterfaces.mp h
    obtain ⟨hi, hp⟩ := facing_sound hface
    have hi := interface?_eq_some.mpr ⟨node, hfind, hkind, hi⟩
    exact ⟨p, interface.mac, hm, ⟨interface, hi, hp⟩, congrArg (Option.map RouterInterface.mac) hi,
      accepts_iff.mp ha⟩

/-! ### A frame of a host -/

/-- What holds of a frame of a host on its way. -/
structure Flood (t : Topology) (id : Bytes) (header : EthernetHeader) (tables : MacTables)
    (arrivals queue : List (Bytes × Bytes)) : Prop where
  flight : t.Flight id tables arrivals queue
  reaches : ∀ e, e ∈ arrivals ∨ e ∈ queue →
    Flooding.Reaches t.graph t.IsSwitch id (t.Starts (.host id)) e.1 e.2
  first : ∀ n, t.Starts (.host id) n → Pending id arrivals queue n
  next : header.destination = BROADCAST_MAC → ∀ p c, (p, c) ∈ arrivals → t.IsSwitch c →
    ∀ d ∈ t.neighbors c, Pending id arrivals queue d

theorem Flood.skip {id : Bytes} {tables : MacTables} {arrivals queue : List (Bytes × Bytes)}
    {e : Bytes × Bytes} (h : t.Flood id header tables arrivals (e :: queue))
    (hseen : e.2 ∈ visitedOf id arrivals) : t.Flood id header tables arrivals queue where
  flight := h.flight.skip
  reaches e' he' := h.reaches e' (he'.imp_right (List.mem_cons_of_mem _))
  first n hn := (h.first n hn).skip hseen
  next hb p c hpc hc d hd := (h.next hb p c hpc hc d hd).skip hseen

/-- A frame to all goes to every neighbour but the one that it came from. -/
theorem targets_broadcast {tables : MacTables} (hb : header.destination = BROADCAST_MAC)
    {p c d : Bytes} : d ∈ t.targets tables header p c ↔ d ∈ t.neighbors c ∧ d ≠ p := by
  have hbroadcast : isBroadcast header.destination = true := by
    rw [isBroadcast, macEquals_iff, hb]
  simp [targets, learnedTargets, hbroadcast]

theorem Flood.visit (hok : t.Ok) {id : Bytes} {tables : MacTables}
    {arrivals queue : List (Bytes × Bytes)} {p c : Bytes} {node : Node}
    (h : t.Flood id header tables arrivals ((p, c) :: queue))
    (hc : c ∉ visitedOf id arrivals) (hnode : t.nodes.find c = some node) :
    t.Flood id header (learnAt tables header node p c) ((p, c) :: arrivals) (queue ++ t.pushes
      (learnAt tables header node p c) header node (visitedOf id ((p, c) :: arrivals)) p c) := by
  have hflight : t.Flight id (learnAt tables header node p c) ((p, c) :: arrivals) (queue ++
      t.pushes (learnAt tables header node p c) header node
        (visitedOf id ((p, c) :: arrivals)) p c) := h.flight.visit hok hc
  have hreaches := h.reaches (p, c) (.inr List.mem_cons_self)
  have hp := (h.flight.queued _ List.mem_cons_self).1
  refine ⟨hflight, fun e he => ?_, fun n hn => (h.first n hn).visit,
    fun hb p' c' hpc' hc' d hd => ?_⟩
  · rcases he with he | he
    · rcases List.mem_cons.mp he with rfl | he
      · exact hreaches
      · exact h.reaches e (.inl he)
    · rcases List.mem_append.mp he with he | he
      · exact h.reaches e (.inr (List.mem_cons_of_mem _ he))
      · obtain ⟨hkind, hec, htarget, hnew⟩ := mem_pushes.mp he
        have hlink := hflight.ports.targets htarget
        have hadj : t.graph.Adj c e.2 := by
          rw [graph, SimpleGraph.fromRel_adj]
          refine ⟨?_, .inl hlink⟩
          rintro rfl
          exact hnew List.mem_cons_self
        rw [hec]
        exact hreaches.next ⟨node, hnode, hkind⟩ hadj
  · rcases List.mem_cons.mp hpc' with hnew | hold
    · cases hnew
      obtain ⟨node', hnode', hkind⟩ := hc'
      cases hnode.symm.trans hnode'
      by_cases hseen : d ∈ visitedOf id ((p, c) :: arrivals)
      · exact .inl hseen
      · have hne : d ≠ p := by
          rintro rfl
          exact hseen (List.mem_cons_of_mem _ hp)
        have htarget : d ∈ t.targets (learnAt tables header node p c) header p c :=
          (targets_broadcast hb).mpr ⟨hd, hne⟩
        exact .inr ⟨c, List.mem_append_right _ (mem_pushes.mpr ⟨hkind, rfl, htarget, hseen⟩)⟩
    · exact (h.next hb p' c' hold hc' d hd).visit

/-- A frame to all that has come to an end is everywhere on the segment. -/
theorem Flood.complete (hok : t.Ok) {id : Bytes} {tables : MacTables}
    {arrivals : List (Bytes × Bytes)} (h : t.Flood id header tables arrivals [])
    (hb : header.destination = BROADCAST_MAC) (hid : ¬ t.IsSwitch id) {p c : Bytes}
    (hr : Flooding.Reaches t.graph t.IsSwitch id (t.Starts (.host id)) p c) :
    c = id ∨ ∃ p', (p', c) ∈ arrivals := by
  have hcome : ∀ {d}, Pending id arrivals [] d → d = id ∨ ∃ p, (p, d) ∈ arrivals := fun hd =>
    mem_visitedOf.mp (hd.resolve_right fun ⟨_, hp⟩ => List.not_mem_nil hp)
  induction hr with
  | first hn => exact hcome (h.first _ hn)
  | @next p c d _ hc hadj ih =>
    rcases ih with rfl | ⟨p', hp'⟩
    · exact absurd hc hid
    · rw [graph, SimpleGraph.fromRel_adj] at hadj
      exact hcome (h.next hb p' c hp' hc d (hadj.2.elim (fun hd => hd) (hok.symm d c)))

/-- What the frames of a host do on any network. -/
theorem Ok.sendFrame_segment (hok : t.Ok) {id : Bytes} {node : Node}
    (hnode : t.host? id = some node) {packet : Packet} (hparse : parseFrameHeader packet = some header)
    {result : DeliveryResult} {t' : Topology} (h : t.sendFrame id packet = some (result, t')) :
    (∀ e, result.Received e → e ≠ .host id ∧ t.Reaches (.host id) e ∧ ∃ mac, t.macOf e = some mac ∧
      (header.destination = BROADCAST_MAC ∨ mac = header.destination)) ∧
    (header.destination = BROADCAST_MAC → ∀ id', id' ≠ id → t.Reaches (.host id) (.host id') →
      result.Received (.host id')) := by
  obtain ⟨hfind, hkind⟩ := host?_eq_some.mp hnode
  have hid : ¬ t.IsSwitch id := by
    rintro ⟨node', hfind', hkind'⟩
    cases hfind.symm.trans hfind'
    cases hkind.symm.trans hkind'
  have hstart : t.Flood id header t.switchMacTables [] ((t.neighbors id).map (id, ·)) := by
    refine ⟨.start hok fun n hn => hn, fun e he => ?_, fun n hn => ?_, fun _ _ _ hpc => ?_⟩
    · obtain ⟨n, hn, rfl⟩ := List.mem_map.mp (he.resolve_left List.not_mem_nil)
      exact .first ⟨hn, node, hnode⟩
    · exact .inr ⟨id, List.mem_map.mpr ⟨n, hn.1, rfl⟩⟩
    · exact absurd hpc List.not_mem_nil
  obtain ⟨tables, arrivals, hflood, hloop⟩ := @deliverLoop_rule t header id (t.Flood id header)
    (fun _ _ _ _ hI => hI.skip)
    (fun _ _ e _ hI => hok.known _ _ (hI.flight.queued e List.mem_cons_self).2)
    (fun _ _ _ _ _ _ hI hc hn => hI.visit hok hc hn) _ _ _ hstart
  have hresult : result = t.receivedOf header arrivals := by
    rw [Topology.sendFrame, hfind] at h
    dsimp only at h
    rw [if_neg fun hk => hk.1 hkind, Topology.deliverFrom, hparse] at h
    obtain ⟨r, hr, he⟩ := Option.map_eq_some_iff.mp h
    cases hloop.symm.trans hr
    cases he
    rfl
  subst hresult
  refine ⟨fun e he => ?_, fun hb id' hne hreaches => ?_⟩
  · obtain ⟨p, mac, hm, hfaces, hmac, ha⟩ := received_faces he
    refine ⟨?_, ⟨p, hflood.reaches _ (.inl hm), hfaces⟩, mac, hmac, ha⟩
    rintro rfl
    have honce := (List.nodup_append.mp hflood.flight.once).2.2
    exact honce id (List.mem_map.mpr ⟨_, hm, rfl⟩) id List.mem_cons_self rfl
  · obtain ⟨p, hr, node', hnode'⟩ := hreaches
    obtain ⟨p', hp'⟩ := (hflood.complete hok hb hid hr).resolve_left hne
    obtain ⟨hfind', hkind'⟩ := host?_eq_some.mp hnode'
    exact mem_receivedByHosts.mpr ⟨p', node', hp', hfind', hkind', accepts_iff.mpr (.inl hb)⟩

end Topology

end Netlab
end Techuila
