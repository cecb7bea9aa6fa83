import Techuila.Netlab.Segment

/-!
# The mission "Connect Two Networks" (`24-network-simulator/netlab/mission.cpp`)

* `Crosses`: the ping of a mission goes over a router.
* `Bypass`: a host with the address is on the segment of the sender and takes what goes to the next
  hop.
* `mission_crosses`: a mission that succeeds has crossed a router where there is no bypass, and only
  there if MACs are unique.
* `flat_succeeds`: two hosts of different masks at one switch.
-/

namespace Techuila
namespace Netlab

open Techuila.Dist (Bytes ascii)
open Techuila.Net

structure MissionResult where
  success : Bool := false
  reason : Bytes := []
  pingResult : PingResult := {}

/-- The dash of a reason, in UTF-8. -/
def EM_DASH : Bytes := [0xE2, 0x80, 0x94]

namespace Topology

/-- The hosts are looked at before anything is sent. -/
def evaluateConnectTwoNetworksMission (t : Topology) (hostAId hostBId : Bytes) :
    Option (MissionResult × Topology) :=
  match t.host? hostAId, t.host? hostBId with
  | none, _ => some (⟨false, ascii "Host '" ++ hostAId ++ ascii "' does not exist", {}⟩, t)
  | _, none => some (⟨false, ascii "Host '" ++ hostBId ++ ascii "' does not exist", {}⟩, t)
  | some hostA, some hostB =>
    if hostA.ipAddress = 0 then
      some (⟨false, ascii "'" ++ hostAId ++ ascii "' has no IPv4 address configured", {}⟩, t)
    else if hostB.ipAddress = 0 then
      some (⟨false, ascii "'" ++ hostBId ++ ascii "' has no IPv4 address configured", {}⟩, t)
    else if hostA.ipAddress &&& hostA.subnetMask = hostB.ipAddress &&& hostB.subnetMask then
      some (⟨false, ascii "'" ++ hostAId ++ ascii "' and '" ++ hostBId ++
        ascii "' are on the same subnet " ++ EM_DASH ++
        ascii " this mission requires two DIFFERENT networks joined by a router", {}⟩, t)
    else
      (t.sendIcmpEcho hostAId hostB.ipAddress).map fun (pingResult, t) =>
        if !pingResult.delivered then
          (⟨false, ascii "Ping from '" ++ hostAId ++ ascii "' to '" ++ hostBId ++
            ascii "' failed: " ++ pingResult.failureReason, pingResult⟩, t)
        else
          (⟨true, ascii "'" ++ hostAId ++ ascii "' successfully pinged '" ++ hostBId ++
            ascii "' across the router", pingResult⟩, t)

variable {t : Topology}

/-! ### The way of the packet -/

/-- A host has found out the MAC of its next hop, and this is what receives its packet. -/
def FirstHop (t : Topology) (id : Bytes) (fromNode : Node) (ip : UInt32) (delivery : DeliveryResult)
    (t' : Topology) : Prop :=
  ∃ mac timeline t₁,
    t.resolveArp ⟨false, id, [], fromNode.mac, fromNode.ipAddress⟩ (nextHop fromNode ip) [] =
      some (some mac, timeline, t₁) ∧
    t₁.sendFrame id (buildEthernetFrame fromNode.mac mac ETHERTYPE_IPV4
      (buildIcmpEchoIpPacket fromNode.ipAddress ip)) = some (delivery, t')

/-- A host with the address is in a delivery. -/
def ReceivedAt (t : Topology) (delivery : DeliveryResult) (ip : UInt32) : Prop :=
  ∃ id node, id ∈ delivery.receivedByHosts ∧ t.getNode id = some node ∧ node.ipAddress = ip

/-- No host with the address receives the packet on the sender's own segment. A router receives it at
one interface and sends it out of another one, and there a host with the address receives it. -/
def Crosses (t : Topology) (id : Bytes) (fromNode : Node) (ip : UInt32) : Prop :=
  ∃ delivery t₁, t.FirstHop id fromNode ip delivery t₁ ∧ ¬ t₁.ReceivedAt delivery ip ∧
    ∃ rd router interface i, rd ∈ delivery.receivedByRouterInterfaces ∧
      t₁.getNode rd.routerId = some router ∧ router.routerInterfaces[i]? = some interface ∧
      i ≠ rd.interfaceIndex ∧
      ∃ mac timeline timeline' t₂ delivery' t₃,
        t₁.resolveArp ⟨true, rd.routerId, interface.neighborNodeId, interface.mac,
          interface.ipAddress⟩ ip timeline = some (some mac, timeline', t₂) ∧
        t₂.sendFrameFromInterface rd.routerId interface.neighborNodeId (buildEthernetFrame
          interface.mac mac ETHERTYPE_IPV4 (buildIcmpEchoIpPacket fromNode.ipAddress ip)) =
            some (delivery', t₃) ∧
        t₃.ReceivedAt delivery' ip

theorem findHost_isSome {delivery : DeliveryResult} {ip : UInt32} :
    (∃ r, t.findHost delivery ip = some r) ↔ t.ReceivedAt delivery ip := by
  constructor
  · rintro ⟨⟨id, node⟩, h⟩
    exact ⟨id, node, findHost_eq_some h⟩
  · rintro ⟨id, node, hm, hnode, hip⟩
    by_contra hnone
    exact findHost_eq_none (Option.eq_none_iff_forall_not_mem.mpr fun r hr => hnone ⟨r, hr⟩) hm hnode
      hip

/-- A packet that a router delivers leaves by another interface. -/
theorem forward_delivered {rd : RouterDelivery} {router : Node} {ip : UInt32} {bytes : Bytes}
    {timeline : List SimulationEvent} {result : PingResult} {t' : Topology}
    (h : t.forward rd router ip bytes timeline = some (result, t')) (hd : result.delivered = true) :
    ∃ interface i, router.routerInterfaces[i]? = some interface ∧ i ≠ rd.interfaceIndex ∧
      ∃ mac timeline timeline' t₂ delivery' t₃,
        t.resolveArp ⟨true, rd.routerId, interface.neighborNodeId, interface.mac,
          interface.ipAddress⟩ ip timeline = some (some mac, timeline', t₂) ∧
        t₂.sendFrameFromInterface rd.routerId interface.neighborNodeId
          (buildEthernetFrame interface.mac mac ETHERTYPE_IPV4 bytes) = some (delivery', t₃) ∧
        t₃.ReceivedAt delivery' ip := by
  unfold Topology.forward at h
  dsimp only at h
  split at h
  · cases h
    cases hd
  · rename_i interface i hegress
    obtain ⟨⟨found, timeline', t₂⟩, hresolve, h⟩ := Option.bind_eq_some_iff.mp h
    dsimp only at h
    split at h
    · cases h
      cases hd
    · rename_i mac
      obtain ⟨⟨delivery', t₃⟩, hsend, h⟩ := Option.bind_eq_some_iff.mp h
      dsimp only at h
      split at h
      · rename_i hfind
        have hmem := List.mem_zipIdx_iff_getElem?.mp (List.mem_of_find?_eq_some hegress)
        have hne : i ≠ rd.interfaceIndex := by
          have hprop := List.find?_some hegress
          simp only [decide_eq_true_eq] at hprop
          exact hprop.1
        exact ⟨interface, i, hmem, hne, mac, _, timeline', t₂, delivery', t₃, hresolve, hsend,
          findHost_isSome.mp ⟨_, hfind⟩⟩
      · cases h
        cases hd

/-- A ping that is delivered is so on the segment of the sender or over a router. -/
theorem ping_cases {id : Bytes} {fromNode : Node} (hfrom : t.host? id = some fromNode) {ip : UInt32}
    {result : PingResult} {t' : Topology} (h : t.sendIcmpEcho id ip = some (result, t'))
    (hd : result.delivered = true) :
    (∃ delivery t₁, t.FirstHop id fromNode ip delivery t₁ ∧ t₁.ReceivedAt delivery ip) ∨
      t.Crosses id fromNode ip := by
  obtain ⟨hnode, hkind⟩ := host?_eq_some.mp hfrom
  unfold Topology.sendIcmpEcho at h
  rw [getNode, hnode] at h
  dsimp only at h
  rw [if_neg (not_not.mpr hkind)] at h
  split at h
  · cases h
    cases hd
  split at h
  · cases h
    cases hd
  obtain ⟨⟨found, timeline, t₁⟩, hresolve, h⟩ := Option.bind_eq_some_iff.mp h
  dsimp only at h
  split at h
  · cases h
    cases hd
  rename_i mac
  obtain ⟨⟨delivery, t₂⟩, hsend, h⟩ := Option.bind_eq_some_iff.mp h
  have hhop : t.FirstHop id fromNode ip delivery t₂ := ⟨mac, timeline, t₁, hresolve, hsend⟩
  dsimp only at h
  split at h
  · rename_i hfind
    exact .inl ⟨delivery, t₂, hhop, findHost_isSome.mp ⟨_, hfind⟩⟩
  · rename_i hnone
    have hnot : ¬ t₂.ReceivedAt delivery ip := by
      intro hreceived
      obtain ⟨r, hr⟩ := findHost_isSome.mpr hreceived
      cases hnone.symm.trans hr
    split at h
    · rename_i rd router hrouter
      obtain ⟨hm, hrouter⟩ := findRouter_eq_some hrouter
      obtain ⟨interface, i, hi, hne, hrest⟩ := forward_delivered h hd
      exact .inr ⟨delivery, t₂, hhop, hnot, rd, router, interface, i, hm, hrouter, hi, hne, hrest⟩
    · cases h
      cases hd

/-! ### The hosts of the own segment -/

theorem Ok.sends : Sends Topology.Ok where
  host := by
    intro t t' id packet result h hsend
    obtain ⟨_, tables, he, hports, -⟩ := h.sendFrame id packet
    cases he.symm.trans hsend
    exact h.withTables hports
  router := by
    intro t t' r n packet result h hsend
    obtain ⟨_, tables, he, hports, -⟩ := h.sendFrameFromInterface r n packet
    cases he.symm.trans hsend
    exact h.withTables hports

theorem resolveArp_traffic {o : Originator} {ip : UInt32}
    {timeline timeline' : List SimulationEvent} {found : Option MacAddress} {t' : Topology}
    (h : t.resolveArp o ip timeline = some (found, timeline', t')) : t.Traffic t' :=
  Sends.resolveArp ⟨fun ht h => ht.trans (sendFrame_traffic h),
    fun ht h => ht.trans (sendFrameFromInterface_traffic h)⟩ (.refl t) h

/-- A host of the segment answers before an interface does. -/
theorem responder_host {delivery : DeliveryResult} {ip : UInt32} {o : Originator} {id : Bytes}
    (h : t.findResponder delivery ip = some o) (hm : delivery.Received (.host id))
    (hip : t.ipOf (.host id) = some ip) : o.isRouter = false := by
  obtain ⟨node, hnode, hip⟩ := Option.map_eq_some_iff.mp hip
  unfold findResponder at h
  split at h
  · cases h
    rfl
  · rename_i hnone
    exact absurd hip (findHost_eq_none hnone hm (host?_eq_some.mp hnode).1)

/-- The MAC that a host finds out is that of an endpoint of its segment with the address, a host where
there is one. -/
theorem Ok.arp_owner (hok : t.Ok) {id : Bytes} {fromNode : Node} (hfrom : t.host? id = some fromNode)
    {ip : UInt32} {timeline timeline' : List SimulationEvent} {mac : MacAddress} {t' : Topology}
    (h : t.resolveArp ⟨false, id, [], fromNode.mac, fromNode.ipAddress⟩ ip timeline =
      some (some mac, timeline', t')) :
    ∃ e, t.Reaches (.host id) e ∧ t.ipOf e = some ip ∧ t.macOf e = some mac ∧
      ∀ id', id' ≠ id → t.Reaches (.host id) (.host id') → t.ipOf (.host id') = some ip →
        ∃ id'', e = .host id'' := by
  obtain ⟨⟨delivery, t₁⟩, hsend, h⟩ := Option.bind_eq_some_iff.mp h
  dsimp only at h
  split at h
  · cases h
  rename_i responder hresponder
  obtain ⟨⟨reply, t₂⟩, -, h⟩ := Option.bind_eq_some_iff.mp h
  dsimp only at h
  split at h
  · cases h
  cases h
  have hparse := @parseFrameHeader_build fromNode.mac BROADCAST_MAC ETHERTYPE_ARP
    (serializeArpPacket ⟨.Request, fromNode.mac, fromNode.ipAddress, ⟨.replicate 6 0⟩, ip⟩)
    (length_serializeArpPacket _)
  obtain ⟨hsound, hcomplete⟩ := hok.sendFrame_segment hfrom hparse hsend
  obtain ⟨tables, rfl⟩ := sendFrame_traffic hsend
  obtain ⟨e, hreceived, hip, hspeaks⟩ := findResponder_eq_some
    (fun e he => (hsound e he).2.2.imp fun _ hm => hm.1) hresponder
  refine ⟨e, (hsound e hreceived).2.1, hip, hspeaks.macOf, fun id' hne hreaches hip' => ?_⟩
  have hhost := responder_host hresponder (hcomplete rfl id' hne hreaches) hip'
  cases e with
  | host id'' => exact ⟨id'', rfl⟩
  | interface r i => exact absurd (hspeaks.1.symm.trans hhost) (by decide)

/-- A host with the address is on the segment of the sender, with a MAC that an endpoint there has
that owns the address of the next hop. -/
def Bypass (t : Topology) (id : Bytes) (fromNode : Node) (ip : UInt32) : Prop :=
  ∃ e mac id' node, t.Reaches (.host id) e ∧ t.ipOf e = some (nextHop fromNode ip) ∧
    t.macOf e = some mac ∧ id' ≠ id ∧ t.Reaches (.host id) (.host id') ∧
    t.host? id' = some node ∧ node.ipAddress = ip ∧ (node.mac = mac ∨ mac = BROADCAST_MAC)

theorem Ok.bypass_of_direct (hok : t.Ok) {id : Bytes} {fromNode : Node}
    (hfrom : t.host? id = some fromNode) {ip : UInt32} {delivery : DeliveryResult} {t' : Topology}
    (h : t.FirstHop id fromNode ip delivery t') (hreceived : t'.ReceivedAt delivery ip) :
    t.Bypass id fromNode ip := by
  obtain ⟨mac, timeline, t₁, hresolve, hsend⟩ := h
  obtain ⟨id', node, hm, hnode, hip⟩ := hreceived
  obtain ⟨e, hreaches, hown, hmac, -⟩ := hok.arp_owner hfrom hresolve
  have hok₁ := Ok.sends.resolveArp hok hresolve
  obtain ⟨tables, rfl⟩ := resolveArp_traffic hresolve
  have hparse := @parseFrameHeader_build fromNode.mac mac ETHERTYPE_IPV4
    (buildIcmpEchoIpPacket fromNode.ipAddress ip) (length_buildIcmpEchoIpPacket _ _)
  obtain ⟨hne, hreaches', mac', hmac', ha⟩ := (hok₁.sendFrame_segment hfrom hparse hsend).1
    (.host id') hm
  obtain ⟨tables', rfl⟩ := sendFrame_traffic hsend
  obtain ⟨node', hnode', rfl⟩ := Option.map_eq_some_iff.mp hmac'
  cases hnode.symm.trans (host?_eq_some.mp hnode').1
  exact ⟨e, mac, id', node, hreaches, hown, hmac, fun he => hne (congrArg Endpoint.host he),
    hreaches', hnode', hip, ha.symm⟩

/-- With unique MACs, what goes to the next hop comes to no router where a host on the segment has the
address and takes it. -/
theorem Ok.not_crosses (hok : t.Ok) (hdistinct : t.Distinct) {id : Bytes} {fromNode : Node}
    (hfrom : t.host? id = some fromNode) {ip : UInt32} (hbypass : t.Bypass id fromNode ip) :
    ¬ t.Crosses id fromNode ip := by
  rintro ⟨delivery, t₂, ⟨mac, timeline, t₁, hresolve, hsend⟩, -, rd, -, -, -, hm, -⟩
  obtain ⟨e₀, mac₀, id', node, -, hown₀, hmac₀, hne, hreaches, hnode, hip, hsame⟩ := hbypass
  have hnode_mac : t.macOf (.host id') = some node.mac := congrArg (Option.map Node.mac) hnode
  obtain rfl : e₀ = .host id' := by
    rcases hsame with hsame | hsame
    · exact hdistinct.owner _ _ _ hmac₀ (hsame ▸ hnode_mac)
    · exact absurd (hsame ▸ hmac₀) (hdistinct.unicast e₀)
  obtain ⟨e, -, -, hmac, hhost⟩ := hok.arp_owner hfrom hresolve
  obtain ⟨id'', rfl⟩ := hhost id' hne hreaches hown₀
  have hok₁ := Ok.sends.resolveArp hok hresolve
  obtain ⟨tables, rfl⟩ := resolveArp_traffic hresolve
  have hparse := @parseFrameHeader_build fromNode.mac mac ETHERTYPE_IPV4
    (buildIcmpEchoIpPacket fromNode.ipAddress ip) (length_buildIcmpEchoIpPacket _ _)
  obtain ⟨-, -, mac', hmac', ha⟩ := (hok₁.sendFrame_segment hfrom hparse hsend).1
    (.interface rd.routerId rd.interfaceIndex) hm
  have hmac' : t.macOf (.interface rd.routerId rd.interfaceIndex) = some mac' := hmac'
  rcases ha with rfl | rfl
  · exact hdistinct.unicast _ hmac
  · cases hdistinct.owner _ _ _ hmac hmac'

/-- Networks after any calls and pings. -/
inductive Built : Topology → Prop
  | empty : Built {}
  | call {t t' : Topology} {call : Call} : Built t → t.perform call = some t' → Built t'
  | ping {t t' : Topology} {id : Bytes} {ip : UInt32} {result : PingResult} :
      Built t → t.sendIcmpEcho id ip = some (result, t') → Built t'

theorem Reached.built {P : Topology → Call → Prop} (h : Reached P t) : Built t := by
  induction h with
  | empty => exact .empty
  | step _ _ hp ih => exact ih.call hp

theorem Built.ok (h : Built t) : t.Ok := by
  induction h with
  | empty => exact .empty
  | @call t t' call _ hp ih =>
    obtain ⟨t'', he, hok⟩ := ih.perform call
    cases he.symm.trans hp
    exact hok
  | ping _ hp ih => exact Ok.sends.sendIcmpEcho ih hp

/-- A mission that succeeds has delivered its ping. -/
theorem mission_success {hostAId hostBId : Bytes} {result : MissionResult} {t' : Topology}
    (h : t.evaluateConnectTwoNetworksMission hostAId hostBId = some (result, t'))
    (hs : result.success = true) :
    ∃ hostA hostB, t.host? hostAId = some hostA ∧ t.host? hostBId = some hostB ∧
      t.sendIcmpEcho hostAId hostB.ipAddress = some (result.pingResult, t') ∧
      result.pingResult.delivered = true := by
  unfold evaluateConnectTwoNetworksMission at h
  split at h
  · cases h
    cases hs
  · cases h
    cases hs
  · rename_i hostA hostB hA hB
    split at h
    · cases h
      cases hs
    split at h
    · cases h
      cases hs
    split at h
    · cases h
      cases hs
    obtain ⟨⟨pingResult, t₁⟩, hping, he⟩ := Option.map_eq_some_iff.mp h
    dsimp only at he
    split at he
    · cases he
      cases hs
    · rename_i hdelivered
      cases he
      exact ⟨hostA, hostB, hA, hB, hping, by simpa using hdelivered⟩

/-- Hosts on different networks, each by its own mask. -/
theorem mission_of_ping {hostAId hostBId : Bytes} {hostA hostB : Node}
    (hA : t.host? hostAId = some hostA) (hB : t.host? hostBId = some hostB)
    (hA0 : hostA.ipAddress ≠ 0) (hB0 : hostB.ipAddress ≠ 0)
    (hnet : hostA.ipAddress &&& hostA.subnetMask ≠ hostB.ipAddress &&& hostB.subnetMask)
    {pingResult : PingResult} {t' : Topology}
    (hping : t.sendIcmpEcho hostAId hostB.ipAddress = some (pingResult, t'))
    (hd : pingResult.delivered = true) :
    ∃ result, t.evaluateConnectTwoNetworksMission hostAId hostBId = some (result, t') ∧
      result.success = true := by
  unfold evaluateConnectTwoNetworksMission
  rw [hA, hB]
  dsimp only
  rw [if_neg hA0, if_neg hB0, if_neg hnet, hping]
  dsimp only [Option.map_some]
  rw [hd]
  exact ⟨_, rfl, rfl⟩

end Topology

open Topology

/-- The ping of a mission that succeeds has crossed a router where no host with the address of host B
is on the segment of host A and takes what goes to A's next hop. If MACs are unique, only there. -/
theorem mission_crosses (t : Topology) (ht : Built t) (hostAId hostBId : Bytes)
    (result : MissionResult) (t' : Topology)
    (h : t.evaluateConnectTwoNetworksMission hostAId hostBId = some (result, t'))
    (hs : result.success = true) :
    ∃ hostA hostB, t.host? hostAId = some hostA ∧ t.host? hostBId = some hostB ∧
      (¬ t.Bypass hostAId hostA hostB.ipAddress → t.Crosses hostAId hostA hostB.ipAddress) ∧
      (t.Distinct → t.Crosses hostAId hostA hostB.ipAddress →
        ¬ t.Bypass hostAId hostA hostB.ipAddress) := by
  obtain ⟨hostA, hostB, hA, hB, hping, hdelivered⟩ := mission_success h hs
  refine ⟨hostA, hostB, hA, hB, fun hnot => ?_, fun hdistinct hcrosses hbypass =>
    ht.ok.not_crosses hdistinct hA hbypass hcrosses⟩
  rcases ping_cases hA hping hdelivered with ⟨delivery, t₁, hhop, hreceived⟩ | hcrosses
  · exact absurd (ht.ok.bypass_of_direct hA hhop hreceived) hnot
  · exact hcrosses

/-- A host whose mask has the network of the other host too. -/
def flatHost : Node := { pc PC1 1 0x0A00010A with subnetMask := 0xFFFF0000 }

/-- The calls that build the laboratory with masks of different lengths. -/
def flatCalls : List Call :=
  [.addNode flatHost, .addNode (pc PC2 2 0x0A00020A),
    .addNode { id := SW1, kind := .Switch }, .addLink PC1 SW1, .addLink PC2 SW1]

def flat : Topology := (flatCalls.foldlM Topology.perform {}).getD {}

theorem flat_reached : Reached Allowed flat := by
  refine Reached.empty.calls (fun t call hcall => ?_) (show flatCalls.foldlM perform {} = some flat
    from rfl)
  rw [flatCalls] at hcall
  simp only [List.mem_cons, List.not_mem_nil, or_false] at hcall
  rcases hcall with rfl | rfl | rfl | rfl | rfl
  · exact List.nodup_nil
  · exact List.nodup_nil
  · exact List.nodup_nil
  · trivial
  · trivial

theorem flat_forest : flat.Forest :=
  ⟨lab_forest.acyclic, lab_forest.noSelfLink⟩

theorem flat_distinct : flat.Distinct :=
  .ofHosts (by decide) (by decide) (by decide)

theorem flat_distinctIps : flat.DistinctIps :=
  .ofHosts (by decide) (by decide) (by decide)

theorem flat_reaches : flat.Reaches (.host PC1) (.host PC2) := by
  have hadj : flat.graph.Adj SW1 PC2 :=
    (flat_reached.ok.adj flat_forest).mpr (show PC2 ∈ flat.neighbors SW1 by decide)
  have hstart : flat.Starts (.host PC1) SW1 :=
    ⟨(show SW1 ∈ flat.neighbors PC1 by decide), _, rfl⟩
  exact ⟨SW1, .next (.first hstart) ⟨_, rfl, rfl⟩ hadj, _, rfl⟩

theorem flat_answered : flat.Answered PC1 flatHost 0x0A00020A :=
  ⟨by decide, .inl ⟨by decide, PC2, by decide, flat_reaches, rfl⟩⟩

theorem flat_bypass : flat.Bypass PC1 flatHost 0x0A00020A :=
  ⟨.host PC2, macEnding 2, PC2, _, flat_reaches, rfl, rfl, by decide, flat_reaches, rfl, rfl,
    .inl rfl⟩

theorem flat_mission : ∃ result t', flat.evaluateConnectTwoNetworksMission PC1 PC2 =
    some (result, t') ∧ result.success = true := by
  obtain ⟨pingResult, tables, hping, -, hdelivered⟩ :=
    (flat_reached.history.ready flat_forest flat_distinct).sendIcmpEcho PC1 0x0A00020A
  have hdelivered := (hdelivered flat_distinctIps flatHost rfl).mpr flat_answered
  have hA : flat.host? PC1 = some flatHost := rfl
  have hB : flat.host? PC2 = some (pc PC2 2 0x0A00020A) := rfl
  obtain ⟨result, h⟩ := mission_of_ping hA hB (by decide) (by decide) (by decide) hping hdelivered
  exact ⟨result, _, h⟩

/-- The mission succeeds with no router. -/
theorem flat_succeeds : ∃ result t', flat.evaluateConnectTwoNetworksMission PC1 PC2 =
    some (result, t') ∧ result.success = true ∧ flat.host? PC1 = some flatHost ∧
      flat.host? PC2 = some (pc PC2 2 0x0A00020A) ∧ ¬ flat.Crosses PC1 flatHost 0x0A00020A := by
  obtain ⟨result, t', h, hs⟩ := flat_mission
  exact ⟨result, t', h, hs, rfl, rfl,
    flat_reached.built.ok.not_crosses flat_distinct rfl flat_bypass⟩

theorem mission_crosses_flat : ∃ hostA hostB, flat.host? PC1 = some hostA ∧
    flat.host? PC2 = some hostB ∧
    (¬ flat.Bypass PC1 hostA hostB.ipAddress → flat.Crosses PC1 hostA hostB.ipAddress) ∧
    (flat.Distinct → flat.Crosses PC1 hostA hostB.ipAddress →
      ¬ flat.Bypass PC1 hostA hostB.ipAddress) := by
  obtain ⟨result, t', h, hs⟩ := flat_mission
  exact mission_crosses flat flat_reached.built PC1 PC2 result t' h hs

end Netlab
end Techuila
