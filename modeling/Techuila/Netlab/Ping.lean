import Techuila.Netlab.Ip

/-!
# When a ping is delivered (`24-network-simulator/netlab/ip.cpp`)

* `Ready.resolveArp`: a request finds the endpoint that owns an address where frames reach it.
* `Answered`: the configurations in which a ping is delivered.
* `History`: networks after any calls, frames and pings.
-/

namespace Techuila
namespace Netlab

open Techuila.Dist (Bytes)
open Techuila.Net

namespace Topology

variable {t : Topology}

/-- The address of a host or an interface. -/
def ipOf (t : Topology) : Endpoint → Option UInt32
  | .host id => (t.host? id).map Node.ipAddress
  | .interface r i => (t.interface? r i).map RouterInterface.ipAddress

/-- An address tells who has it. -/
structure DistinctIps (t : Topology) : Prop where
  owner : ∀ e e' ip, t.ipOf e = some ip → t.ipOf e' = some ip → e = e'
  nonzero : ∀ e, t.ipOf e ≠ some 0

/-- The originator is an endpoint, with its MAC. -/
def Speaks (t : Topology) (o : Originator) : Endpoint → Prop
  | .host id => o.isRouter = false ∧ o.nodeId = id ∧ t.macOf (.host id) = some o.mac
  | .interface r i => o.isRouter = true ∧ o.nodeId = r ∧ ∃ interface,
      t.interface? r i = some interface ∧ interface.neighborNodeId = o.egressNeighborId ∧
        interface.mac = o.mac

theorem Speaks.macOf {o : Originator} {e : Endpoint} (h : t.Speaks o e) :
    t.macOf e = some o.mac := by
  cases e with
  | host id => exact h.2.2
  | interface r i =>
    obtain ⟨-, -, interface, hi, -, hmac⟩ := h
    rw [Topology.macOf, hi, Option.map_some, hmac]

theorem Speaks.withTables {o : Originator} {e : Endpoint} (h : t.Speaks o e)
    {tables : MacTables} : ({ t with switchMacTables := tables } : Topology).Speaks o e := by
  cases e <;> exact h

theorem Speaks.send {o : Originator} {e : Endpoint} (h : t.Speaks o e) (packet : Packet) :
    t.sendFromOriginator o packet = t.sendFrom e packet := by
  cases e with
  | host id =>
    obtain ⟨hkind, rfl, -⟩ := h
    rw [sendFromOriginator, hkind]
    rfl
  | interface r i =>
    obtain ⟨hkind, rfl, interface, hi, hn, -⟩ := h
    rw [sendFromOriginator, hkind, sendFrom, hi]
    dsimp only
    rw [hn]
    rfl

/-- What an originator's frame does on a network without loops. -/
theorem Ready.send (h : t.Ready) {o : Originator} {e : Endpoint} (hs : t.Speaks o e)
    (destination : MacAddress) (etherType : UInt16) {payload : Bytes}
    (hpayload : payload.length < 2 ^ 16) :
    ∃ result tables, t.sendFromOriginator o
        (buildEthernetFrame o.mac destination etherType payload) =
          some (result, { t with switchMacTables := tables }) ∧
      ({ t with switchMacTables := tables } : Topology).Ready ∧
      ∀ e', result.Received e' ↔ e' ≠ e ∧ t.Reaches e e' ∧
        (destination = BROADCAST_MAC ∨ t.macOf e' = some destination) := by
  have hparse := @parseFrameHeader_build o.mac destination etherType payload hpayload
  have hsource : HasSource (buildEthernetFrame o.mac destination etherType payload) o.mac := by
    intro header hp
    cases hparse.symm.trans hp
    rfl
  obtain ⟨result, tables, hsend, hports, hlearned, hreceived⟩ := h.sendFrom hs.macOf hsource
  exact ⟨result, tables, (hs.send _).trans hsend, h.withTables hports hlearned,
    (hreceived _ hparse).2⟩

/-! ### Who owns an address -/

theorem findHost_eq_some {delivery : DeliveryResult} {ip : UInt32} {id : Bytes} {node : Node}
    (h : t.findHost delivery ip = some (id, node)) :
    id ∈ delivery.receivedByHosts ∧ t.nodes.find id = some node ∧ node.ipAddress = ip := by
  obtain ⟨id', hm, h⟩ := List.exists_of_findSome?_eq_some h
  split at h
  · rename_i node' hnode
    split at h
    · rename_i hip
      cases h
      exact ⟨hm, hnode, hip⟩
    · cases h
  · cases h

theorem findHost_eq_none {delivery : DeliveryResult} {ip : UInt32}
    (h : t.findHost delivery ip = none) {id : Bytes} (hm : id ∈ delivery.receivedByHosts)
    {node : Node} (hnode : t.nodes.find id = some node) : node.ipAddress ≠ ip := by
  intro hip
  have h := List.findSome?_eq_none_iff.mp h id hm
  rw [getNode, hnode] at h
  dsimp only at h
  rw [if_pos hip] at h
  cases h

theorem findInterface_eq_some {delivery : DeliveryResult} {ip : UInt32} {r : Bytes}
    {interface : RouterInterface} (h : t.findInterface delivery ip = some (r, interface)) :
    ∃ i router, ⟨r, i⟩ ∈ delivery.receivedByRouterInterfaces ∧ t.nodes.find r = some router ∧
      router.routerInterfaces[i]? = some interface ∧ interface.ipAddress = ip := by
  obtain ⟨rd, hm, h⟩ := List.exists_of_findSome?_eq_some h
  split at h
  · rename_i router hrouter
    split at h
    · rename_i interface' hi
      split at h
      · rename_i hip
        cases h
        exact ⟨rd.interfaceIndex, router, hm, hrouter, hi, hip⟩
      · cases h
    · cases h
  · cases h

theorem findInterface_eq_none {delivery : DeliveryResult} {ip : UInt32}
    (h : t.findInterface delivery ip = none) {r : Bytes} {i : Nat}
    (hm : ⟨r, i⟩ ∈ delivery.receivedByRouterInterfaces) {interface : RouterInterface}
    (hi : t.interface? r i = some interface) : interface.ipAddress ≠ ip := by
  intro hip
  obtain ⟨router, hrouter, -, hi⟩ := interface?_eq_some.mp hi
  have h := List.findSome?_eq_none_iff.mp h _ hm
  dsimp only at h
  rw [getNode, hrouter] at h
  dsimp only at h
  rw [hi] at h
  dsimp only at h
  rw [if_pos hip] at h
  cases h

/-- Who answers is an endpoint of the delivery that owns the address. -/
theorem findResponder_eq_some {delivery : DeliveryResult} {ip : UInt32} {o : Originator}
    (hconfigured : ∀ e, delivery.Received e → ∃ mac, t.macOf e = some mac)
    (h : t.findResponder delivery ip = some o) :
    ∃ e, delivery.Received e ∧ t.ipOf e = some ip ∧ t.Speaks o e := by
  unfold findResponder at h
  split at h
  · rename_i id node hfind
    cases h
    obtain ⟨hm, hnode, hip⟩ := findHost_eq_some hfind
    obtain ⟨mac, hmac⟩ := hconfigured (.host id) hm
    obtain ⟨node', hnode', rfl⟩ := Option.map_eq_some_iff.mp hmac
    cases hnode.symm.trans (host?_eq_some.mp hnode').1
    exact ⟨.host id, hm, by rw [ipOf, hnode', Option.map_some, hip], rfl, rfl, hmac⟩
  · split at h
    · rename_i r interface hfind
      cases h
      obtain ⟨i, router, hm, hrouter, hi, hip⟩ := findInterface_eq_some hfind
      obtain ⟨mac, hmac⟩ := hconfigured (.interface r i) hm
      obtain ⟨interface', hi', rfl⟩ := Option.map_eq_some_iff.mp hmac
      obtain ⟨router', hrouter', -, hi''⟩ := interface?_eq_some.mp hi'
      cases hrouter.symm.trans hrouter'
      cases hi.symm.trans hi''
      exact ⟨.interface r i, hm, by rw [ipOf, hi', Option.map_some, hip], rfl, rfl, interface, hi',
        rfl, rfl⟩
    · cases h

theorem findResponder_eq_none {delivery : DeliveryResult} {ip : UInt32}
    (h : t.findResponder delivery ip = none) {e : Endpoint} (he : delivery.Received e) :
    t.ipOf e ≠ some ip := by
  unfold findResponder at h
  split at h
  · cases h
  · rename_i hhost
    split at h
    · cases h
    · rename_i hinterface
      intro hip
      cases e with
      | host id =>
        obtain ⟨node, hnode, hip⟩ := Option.map_eq_some_iff.mp hip
        exact findHost_eq_none hhost he (host?_eq_some.mp hnode).1 hip
      | interface r i =>
        obtain ⟨interface, hi, hip⟩ := Option.map_eq_some_iff.mp hip
        exact findInterface_eq_none hinterface he hi hip

theorem Speaks.reached {o : Originator} {e : Endpoint} (h : t.Speaks o e)
    {delivery : DeliveryResult} (he : delivery.Received e) :
    deliveryReachedOriginator delivery o = true := by
  cases e with
  | host id =>
    obtain ⟨hkind, rfl, -⟩ := h
    rw [deliveryReachedOriginator, hkind]
    exact List.any_eq_true.mpr ⟨o.nodeId, he, by simp⟩
  | interface r i =>
    obtain ⟨hkind, rfl, -⟩ := h
    rw [deliveryReachedOriginator, hkind]
    exact List.any_eq_true.mpr ⟨⟨o.nodeId, i⟩, he, by simp⟩

theorem length_serializeArpPacket (packet : ArpPacket) :
    (serializeArpPacket packet).length < 2 ^ 16 := by
  simp [serializeArpPacket, writeU16, writeU32, length_writeMac]

theorem length_buildIcmpEchoIpPacket (sourceIp destIp : UInt32) :
    (buildIcmpEchoIpPacket sourceIp destIp).length < 2 ^ 16 := by
  simp [buildIcmpEchoIpPacket, serializeIpv4Header, serializeIcmpEcho, writeU16, writeU32]

/-- A request finds who owns an address, where frames reach it. -/
theorem Ready.resolveArp (h : t.Ready) {o : Originator} {e : Endpoint} (hs : t.Speaks o e)
    (ip : UInt32) (timeline : List SimulationEvent) :
    ∃ found timeline' tables, t.resolveArp o ip timeline =
        some (found, timeline', { t with switchMacTables := tables }) ∧
      ({ t with switchMacTables := tables } : Topology).Ready ∧
      (∀ mac, found = some mac → ∃ e', e' ≠ e ∧ t.Reaches e e' ∧ t.ipOf e' = some ip ∧
        t.macOf e' = some mac) ∧
      (found = none → ∀ e', e' ≠ e → t.Reaches e e' → t.ipOf e' ≠ some ip) := by
  obtain ⟨delivery, tables, hsend, hready, hreceived⟩ := h.send hs BROADCAST_MAC ETHERTYPE_ARP
    (length_serializeArpPacket ⟨.Request, o.mac, o.ip, ⟨.replicate 6 0⟩, ip⟩)
  have hconfigured : ∀ e', delivery.Received e' → ∃ mac, t.macOf e' = some mac := by
    intro e' he'
    obtain ⟨-, ⟨p, -, hface⟩, -⟩ := (hreceived e').mp he'
    exact hface.macOf
  unfold Topology.resolveArp
  dsimp only
  rw [hsend, Option.bind_some]
  dsimp only
  split
  · rename_i hnone
    refine ⟨none, _, tables, rfl, hready, (fun _ hmac => by cases hmac), fun _ e' hne hreaches => ?_⟩
    exact findResponder_eq_none hnone ((hreceived e').mpr ⟨hne, hreaches, .inl rfl⟩)
  · rename_i responder hfind
    obtain ⟨e', he', hip, hspeaks⟩ := findResponder_eq_some hconfigured hfind
    obtain ⟨hne, hreaches, -⟩ := (hreceived e').mp he'
    obtain ⟨reply, tables', hsend', hready', hreceived'⟩ := hready.send hspeaks o.mac ETHERTYPE_ARP
      (length_serializeArpPacket ⟨.Reply, responder.mac, ip, o.mac, o.ip⟩)
    have hback : reply.Received e :=
      (hreceived' e).mpr ⟨hne.symm, h.reaches_symm hreaches, .inr hs.macOf⟩
    rw [hsend', Option.bind_some]
    dsimp only
    rw [if_neg (by rw [hs.reached hback]; decide)]
    refine ⟨some responder.mac, _, tables', rfl, hready', fun mac hmac => ?_, fun hmac => ?_⟩
    · cases hmac
      exact ⟨e', hne, hreaches, hip, hspeaks.macOf⟩
    · cases hmac

theorem egressInterface_eq_some {router : Node} {j : Nat} {ip : UInt32}
    {interface : RouterInterface} {i : Nat}
    (h : egressInterface router j ip = some (interface, i)) :
    router.routerInterfaces[i]? = some interface :=
  List.mem_zipIdx_iff_getElem?.mp (List.mem_of_find?_eq_some h)

/-- A router delivers a packet where its first other interface for the destination reaches it. -/
theorem Ready.forward (h : t.Ready) {rd : RouterDelivery} {router : Node}
    (hrouter : t.nodes.find rd.routerId = some router) (hkind : router.kind = .Router)
    (ip : UInt32) {bytes : Bytes} (hbytes : bytes.length < 2 ^ 16)
    (timeline : List SimulationEvent) :
    ∃ result tables, t.forward rd router ip bytes timeline =
        some (result, { t with switchMacTables := tables }) ∧
      ({ t with switchMacTables := tables } : Topology).Ready ∧
      (t.DistinctIps → (result.delivered = true ↔ ∃ interface i,
        egressInterface router rd.interfaceIndex ip = some (interface, i) ∧
          ∃ id, t.Reaches (.interface rd.routerId i) (.host id) ∧ t.ipOf (.host id) = some ip)) := by
  unfold Topology.forward
  dsimp only
  split
  · rename_i hnone
    refine ⟨_, t.switchMacTables, rfl, h, fun _ => ⟨(fun hd => by cases hd), ?_⟩⟩
    rintro ⟨_, _, hsome, -⟩
    cases hnone.symm.trans hsome
  · rename_i interface i hegress
    have hi : t.interface? rd.routerId i = some interface :=
      interface?_eq_some.mpr ⟨router, hrouter, hkind, egressInterface_eq_some hegress⟩
    have hspeaks : t.Speaks ⟨true, rd.routerId, interface.neighborNodeId, interface.mac,
        interface.ipAddress⟩ (.interface rd.routerId i) := ⟨rfl, rfl, interface, hi, rfl, rfl⟩
    obtain ⟨found, timeline', tables, hresolve, hready, hsome, hnone⟩ :=
      h.resolveArp hspeaks ip
        (timeline ++ [⟨Dist.ascii "Packet reached router " ++ rd.routerId, []⟩])
    rw [hresolve, Option.bind_some]
    dsimp only
    split
    · refine ⟨_, tables, rfl, hready, fun _ => ⟨(fun hd => by cases hd), ?_⟩⟩
      rintro ⟨_, _, hegress', id, hreaches, hip⟩
      cases hegress.symm.trans hegress'
      exact absurd hip (hnone rfl _ (by rintro ⟨⟩) hreaches)
    · rename_i mac
      obtain ⟨e', hne, hreaches, hip, hmac⟩ := hsome mac rfl
      obtain ⟨delivery, tables', hsend, hready', hreceived⟩ :=
        hready.send (o := ⟨true, rd.routerId, interface.neighborNodeId, interface.mac,
          interface.ipAddress⟩) hspeaks.withTables mac ETHERTYPE_IPV4 hbytes
      have hsend' := (if_pos rfl).symm.trans hsend
      rw [hsend', Option.bind_some]
      dsimp only
      split
      · rename_i id node hfind
        refine ⟨_, tables', rfl, hready', fun _ => ⟨fun _ => ?_, fun _ => rfl⟩⟩
        obtain ⟨hm, hnode, rfl⟩ := findHost_eq_some hfind
        obtain ⟨-, hreaches', -⟩ := (hreceived (.host id)).mp hm
        obtain ⟨node', hnode'⟩ := hreaches'.choose_spec.2
        cases hnode.symm.trans (host?_eq_some.mp hnode').1
        exact ⟨interface, i, hegress, id, hreaches', congrArg (Option.map Node.ipAddress) hnode'⟩
      · rename_i hnofind
        refine ⟨_, tables', rfl, hready', fun hips => ⟨(fun hd => by cases hd), ?_⟩⟩
        rintro ⟨_, _, hegress', id, hreaches', hip'⟩
        cases hegress.symm.trans hegress'
        obtain rfl := hips.owner _ _ _ hip hip'
        obtain ⟨node, hnode, hip'⟩ := Option.map_eq_some_iff.mp hip'
        have hm : delivery.Received (.host id) := (hreceived _).mpr ⟨hne, hreaches, .inr hmac⟩
        exact absurd hip' (findHost_eq_none hnofind hm (host?_eq_some.mp hnode).1)

theorem findRouter_eq_some {delivery : DeliveryResult} {rd : RouterDelivery} {router : Node}
    (h : t.findRouter delivery = some (rd, router)) :
    rd ∈ delivery.receivedByRouterInterfaces ∧ t.nodes.find rd.routerId = some router := by
  obtain ⟨rd', hm, h⟩ := List.exists_of_findSome?_eq_some h
  split at h
  · rename_i router' hrouter
    cases h
    exact ⟨hm, hrouter⟩
  · cases h

theorem findRouter_eq_none {delivery : DeliveryResult} (h : t.findRouter delivery = none)
    {rd : RouterDelivery} (hm : rd ∈ delivery.receivedByRouterInterfaces) :
    t.nodes.find rd.routerId = none := by
  have h := List.findSome?_eq_none_iff.mp h rd hm
  split at h
  · cases h
  · assumption

/-- The configurations in which a ping from a host to an address is delivered. -/
def Answered (t : Topology) (id : Bytes) (fromNode : Node) (ip : UInt32) : Prop :=
  nextHop fromNode ip ≠ 0 ∧
    ((nextHop fromNode ip = ip ∧ ∃ id', id' ≠ id ∧ t.Reaches (.host id) (.host id') ∧
        t.ipOf (.host id') = some ip) ∨
      ∃ r j router interface i, t.Reaches (.host id) (.interface r j) ∧
        t.ipOf (.interface r j) = some (nextHop fromNode ip) ∧
        t.nodes.find r = some router ∧ egressInterface router j ip = some (interface, i) ∧
        ∃ id', t.Reaches (.interface r i) (.host id') ∧ t.ipOf (.host id') = some ip)

/-- The next hop of a ping that is delivered is an endpoint that the host reaches. -/
theorem Answered.hop {id : Bytes} {fromNode : Node} {ip : UInt32} (h : t.Answered id fromNode ip) :
    ∃ e, e ≠ .host id ∧ t.Reaches (.host id) e ∧ t.ipOf e = some (nextHop fromNode ip) := by
  rcases h.2 with ⟨hhop, id', hne, hreaches, hip⟩ | ⟨r, j, router, interface, i, hreaches, hip, -⟩
  · exact ⟨.host id', fun he => hne (Endpoint.host.inj he), hreaches, by rw [hip, hhop]⟩
  · exact ⟨.interface r j, (by rintro ⟨⟩), hreaches, hip⟩

/-- A packet from a host to its next hop. -/
theorem Ready.sendEchoTo (h : t.Ready) {id : Bytes} {fromNode : Node}
    (hfrom : t.host? id = some fromNode) (ip : UInt32) {mac : MacAddress} {e : Endpoint}
    (hne : e ≠ .host id) (hreaches : t.Reaches (.host id) e)
    (hip : t.ipOf e = some (nextHop fromNode ip)) (hmac : t.macOf e = some mac)
    (timeline : List SimulationEvent) :
    ∃ result tables, t.sendEchoTo id fromNode ip mac timeline =
        some (result, { t with switchMacTables := tables }) ∧
      ({ t with switchMacTables := tables } : Topology).Ready ∧
      (t.DistinctIps → (result.delivered = true ↔ t.Answered id fromNode ip)) := by
  have hspeaks : t.Speaks ⟨false, id, [], fromNode.mac, fromNode.ipAddress⟩ (.host id) :=
    ⟨rfl, rfl, congrArg (Option.map Node.mac) hfrom⟩
  have hbytes := length_buildIcmpEchoIpPacket fromNode.ipAddress ip
  obtain ⟨delivery, tables, hsend, hready, hreceived⟩ :=
    h.send (o := ⟨false, id, [], fromNode.mac, fromNode.ipAddress⟩) hspeaks mac ETHERTYPE_IPV4
      hbytes
  -- the frame is to one endpoint, so it is what the delivery holds
  have hall : ∀ e', delivery.Received e' ↔ e' = e := by
    intro e'
    rw [hreceived e']
    constructor
    · rintro ⟨-, -, hb | hm⟩
      · exact absurd (hb ▸ hmac) (h.distinct.unicast e)
      · exact h.distinct.owner _ _ _ hm hmac
    · rintro rfl
      exact ⟨hne, hreaches, .inr hmac⟩
  unfold Topology.sendEchoTo
  dsimp only
  rw [(if_neg Bool.false_ne_true).symm.trans hsend, Option.bind_some]
  dsimp only
  split
  · rename_i id' node hfind
    obtain ⟨hm, hnode, hown⟩ := findHost_eq_some hfind
    obtain rfl := (hall (.host id')).mp hm
    refine ⟨_, tables, rfl, hready, fun hips => ⟨fun _ => ?_, fun _ => rfl⟩⟩
    obtain ⟨node', hnode', hhop⟩ := Option.map_eq_some_iff.mp hip
    cases hnode.symm.trans (host?_eq_some.mp hnode').1
    have hdirect : nextHop fromNode ip = ip := hhop.symm.trans hown
    refine ⟨fun h0 => hips.nonzero _ (hip.trans (congrArg some h0)), .inl ⟨hdirect, id', ?_,
      hreaches, hip.trans (congrArg some hdirect)⟩⟩
    exact fun he => hne (congrArg Endpoint.host he)
  · rename_i hnofind
    have hnohost : ∀ id', e = .host id' → t.ipOf (.host id') ≠ some ip := by
      rintro id' rfl hip'
      obtain ⟨node, hnode, hip'⟩ := Option.map_eq_some_iff.mp hip'
      exact findHost_eq_none hnofind ((hall _).mpr rfl) (host?_eq_some.mp hnode).1 hip'
    have hnofirst : t.DistinctIps → nextHop fromNode ip = ip →
        ∀ id', t.ipOf (.host id') ≠ some ip := by
      intro hips hhop id' hip'
      obtain rfl := hips.owner _ _ _ (hhop ▸ hip) hip'
      exact hnohost id' rfl hip'
    split
    · rename_i rd router hfind
      obtain ⟨hm, hrouter⟩ := findRouter_eq_some hfind
      obtain rfl := (hall (.interface rd.routerId rd.interfaceIndex)).mp hm
      obtain ⟨interface, hi, -⟩ := Option.map_eq_some_iff.mp hip
      obtain ⟨router', hrouter', hkind, -⟩ := interface?_eq_some.mp hi
      cases hrouter.symm.trans hrouter'
      obtain ⟨result, tables', hforward, hready', hdelivered⟩ :=
        hready.forward hrouter hkind ip hbytes (timeline ++ [⟨_, _⟩])
      refine ⟨result, tables', hforward, hready', fun hips => ?_⟩
      rw [hdelivered ⟨hips.owner, hips.nonzero⟩]
      constructor
      · rintro ⟨interface', i, hegress, hrest⟩
        exact ⟨fun h0 => hips.nonzero _ (hip.trans (congrArg some h0)), .inr ⟨rd.routerId,
          rd.interfaceIndex, router, interface', i, hreaches, hip, hrouter, hegress, hrest⟩⟩
      · rintro ⟨-, ⟨hhop, id', -, -, hip'⟩ | ⟨r, j, router', interface', i, -, hip', hrouter',
          hegress, hrest⟩⟩
        · exact absurd hip' (hnofirst hips hhop id')
        · cases hips.owner _ _ _ hip' hip
          cases hrouter.symm.trans hrouter'
          exact ⟨interface', i, hegress, hrest⟩
    · rename_i hnorouter
      refine ⟨_, tables, rfl, hready, fun hips => ⟨(fun hd => by cases hd), ?_⟩⟩
      rintro ⟨-, ⟨hhop, id', -, -, hip'⟩ | ⟨r, j, router', interface', i, -, hip', hrouter', -⟩⟩
      · exact absurd hip' (hnofirst hips hhop id')
      · obtain rfl := hips.owner _ _ _ hip' hip
        have hm : ⟨r, j⟩ ∈ delivery.receivedByRouterInterfaces := (hall (.interface r j)).mpr rfl
        cases (findRouter_eq_none hnorouter hm).symm.trans hrouter'

/-- What a ping does on a network without loops. -/
theorem Ready.sendIcmpEcho (h : t.Ready) (id : Bytes) (ip : UInt32) :
    ∃ result tables, t.sendIcmpEcho id ip =
        some (result, { t with switchMacTables := tables }) ∧
      ({ t with switchMacTables := tables } : Topology).Ready ∧
      (t.DistinctIps → ∀ fromNode, t.host? id = some fromNode →
        (result.delivered = true ↔ t.Answered id fromNode ip)) := by
  unfold Topology.sendIcmpEcho
  split
  · rename_i hnone
    refine ⟨_, t.switchMacTables, rfl, h, fun _ fromNode hfrom => ?_⟩
    cases hnone.symm.trans (host?_eq_some.mp hfrom).1
  · rename_i fromNode hnode
    have hsame : ∀ {node}, t.host? id = some node → node = fromNode := fun hfrom =>
      Option.some.inj ((host?_eq_some.mp hfrom).1.symm.trans hnode)
    split
    · rename_i hkind
      refine ⟨_, t.switchMacTables, rfl, h, fun _ node hfrom => ?_⟩
      obtain rfl := hsame hfrom
      exact absurd (host?_eq_some.mp hfrom).2 hkind
    · rename_i hkind
      have hfrom : t.host? id = some fromNode := host?_eq_some.mpr ⟨hnode, not_not.mp hkind⟩
      split
      · rename_i hzero
        refine ⟨_, t.switchMacTables, rfl, h, fun hips _ _ => ?_⟩
        refine absurd ?_ (hips.nonzero (.host id))
        rw [ipOf, hfrom, Option.map_some, hzero]
      · split
        · rename_i hoff
          refine ⟨_, t.switchMacTables, rfl, h, fun _ node hfrom' => ⟨(fun hd => by cases hd), ?_⟩⟩
          obtain rfl := hsame hfrom'
          exact fun hanswered => absurd hoff.2 hanswered.1
        · have hspeaks : t.Speaks ⟨false, id, [], fromNode.mac, fromNode.ipAddress⟩ (.host id) :=
            ⟨rfl, rfl, congrArg (Option.map Node.mac) hfrom⟩
          obtain ⟨found, timeline, tables, hresolve, hready, hsome, hnone⟩ :=
            h.resolveArp hspeaks (nextHop fromNode ip) []
          dsimp only
          rw [hresolve, Option.bind_some]
          dsimp only
          split
          · refine ⟨_, tables, rfl, hready, fun _ node hfrom' => ⟨(fun hd => by cases hd), ?_⟩⟩
            obtain rfl := hsame hfrom'
            intro hanswered
            obtain ⟨e, hne, hreaches, hip⟩ := hanswered.hop
            exact absurd hip (hnone rfl e hne hreaches)
          · rename_i mac
            obtain ⟨e, hne, hreaches, hip, hmac⟩ := hsome mac rfl
            obtain ⟨result, tables', hsend, hready', hdelivered⟩ :=
              hready.sendEchoTo hfrom ip hne hreaches hip hmac timeline
            refine ⟨result, tables', hsend, hready', fun hips node hfrom' => ?_⟩
            obtain rfl := hsame hfrom'
            exact hdelivered ⟨hips.owner, hips.nonzero⟩

/-! ### Histories -/

/-- A property that frames keep. -/
structure Sends (P : Topology → Prop) : Prop where
  host : ∀ {t t' : Topology} {id : Bytes} {packet : Packet} {result : DeliveryResult},
    P t → t.sendFrame id packet = some (result, t') → P t'
  router : ∀ {t t' : Topology} {r n : Bytes} {packet : Packet} {result : DeliveryResult},
    P t → t.sendFrameFromInterface r n packet = some (result, t') → P t'

namespace Sends

variable {P : Topology → Prop} {t t' : Topology}

theorem originator (hP : Sends P) (ht : P t) {o : Originator} {packet : Packet}
    {result : DeliveryResult} (h : t.sendFromOriginator o packet = some (result, t')) : P t' := by
  unfold sendFromOriginator at h
  split at h
  · exact hP.router ht h
  · exact hP.host ht h

theorem resolveArp (hP : Sends P) (ht : P t) {o : Originator} {ip : UInt32}
    {timeline timeline' : List SimulationEvent} {found : Option MacAddress}
    (h : t.resolveArp o ip timeline = some (found, timeline', t')) : P t' := by
  obtain ⟨⟨delivery, t₁⟩, hsend, h⟩ := Option.bind_eq_some_iff.mp h
  have hfirst := hP.originator ht hsend
  dsimp only at h
  split at h
  · cases h
    exact hfirst
  · obtain ⟨⟨reply, t₂⟩, hsend', h⟩ := Option.bind_eq_some_iff.mp h
    have hboth := hP.originator hfirst hsend'
    dsimp only at h
    split at h <;> cases h <;> exact hboth

theorem forward (hP : Sends P) (ht : P t) {rd : RouterDelivery} {router : Node} {ip : UInt32}
    {bytes : Bytes} {timeline : List SimulationEvent} {result : PingResult}
    (h : t.forward rd router ip bytes timeline = some (result, t')) : P t' := by
  unfold Topology.forward at h
  dsimp only at h
  split at h
  · cases h
    exact ht
  · obtain ⟨⟨found, timeline', t₁⟩, hresolve, h⟩ := Option.bind_eq_some_iff.mp h
    have hfirst := hP.resolveArp ht hresolve
    dsimp only at h
    split at h
    · cases h
      exact hfirst
    · obtain ⟨⟨delivery, t₂⟩, hsend, h⟩ := Option.bind_eq_some_iff.mp h
      have hboth := hP.router hfirst hsend
      dsimp only at h
      split at h <;> cases h <;> exact hboth

theorem sendEchoTo (hP : Sends P) (ht : P t) {id : Bytes} {fromNode : Node} {ip : UInt32}
    {mac : MacAddress} {timeline : List SimulationEvent} {result : PingResult}
    (h : t.sendEchoTo id fromNode ip mac timeline = some (result, t')) : P t' := by
  obtain ⟨⟨delivery, t₁⟩, hsend, h⟩ := Option.bind_eq_some_iff.mp h
  have hfirst := hP.host ht hsend
  dsimp only at h
  split at h
  · cases h
    exact hfirst
  · split at h
    · exact hP.forward hfirst h
    · cases h
      exact hfirst

theorem sendIcmpEcho (hP : Sends P) (ht : P t) {id : Bytes} {ip : UInt32} {result : PingResult}
    (h : t.sendIcmpEcho id ip = some (result, t')) : P t' := by
  unfold Topology.sendIcmpEcho at h
  split at h
  · cases h
    exact ht
  · split at h
    · cases h
      exact ht
    · split at h
      · cases h
        exact ht
      · split at h
        · cases h
          exact ht
        · obtain ⟨⟨found, timeline, t₁⟩, hresolve, h⟩ := Option.bind_eq_some_iff.mp h
          have hfirst := hP.resolveArp ht hresolve
          dsimp only at h
          split at h
          · cases h
            exact hfirst
          · exact hP.sendEchoTo hfirst h

end Sends

/-- A ping changes only what the switches have learned. -/
theorem sendIcmpEcho_traffic {t t' : Topology} {id : Bytes} {ip : UInt32} {result : PingResult}
    (h : t.sendIcmpEcho id ip = some (result, t')) : t.Traffic t' :=
  Sends.sendIcmpEcho ⟨fun ht h => ht.trans (sendFrame_traffic h),
    fun ht h => ht.trans (sendFrameFromInterface_traffic h)⟩ (.refl t) h

/-- Networks after any calls, frames of endpoints and pings. -/
inductive History : Topology → Prop
  | empty : History {}
  | call {t t' : Topology} {call : Call} :
      History t → t.Allowed call → t.perform call = some t' → History t'
  | ping {t t' : Topology} {id : Bytes} {ip : UInt32} {result : PingResult} :
      History t → t.sendIcmpEcho id ip = some (result, t') → History t'

theorem Reached.history (h : Reached Allowed t) : History t := by
  induction h with
  | empty => exact .empty
  | step _ hallowed hp ih => exact ih.call hallowed hp

theorem History.ready (h : History t) (hforest : t.Forest) (hdistinct : t.Distinct) : t.Ready := by
  induction h with
  | empty => exact .empty hforest hdistinct
  | call _ hallowed hp ih =>
    have hext := perform_extends hp
    exact (ih (hext.forest hforest) (hext.distinct hdistinct)).perform hallowed hp hforest hdistinct
  | @ping t t' id ip result _ hp ih =>
    have hext := (sendIcmpEcho_traffic hp).extends
    obtain ⟨result', tables, he, hready, -⟩ :=
      (ih (hext.forest hforest) (hext.distinct hdistinct)).sendIcmpEcho id ip
    cases he.symm.trans hp
    exact hready

end Topology

open Topology

theorem Topology.DistinctIps.ofHosts {t : Topology} (hnone : ∀ e ∈ t.nodes, e.2.kind ≠ .Router)
    (howner : ∀ e ∈ t.nodes, ∀ e' ∈ t.nodes, e.2.kind = .Host → e'.2.kind = .Host →
      e.2.ipAddress = e'.2.ipAddress → e.1 = e'.1)
    (hnonzero : ∀ e ∈ t.nodes, e.2.kind = .Host → e.2.ipAddress ≠ 0) : t.DistinctIps where
  owner e e' ip h h' := by
    obtain ⟨id, node, rfl, hm, hkind, hip⟩ := of_host hnone (fun _ => rfl) (fun _ _ => rfl) h
    obtain ⟨id', node', rfl, hm', hkind', hip'⟩ :=
      of_host hnone (fun _ => rfl) (fun _ _ => rfl) h'
    exact congrArg Endpoint.host (howner _ hm _ hm' hkind hkind' (hip.trans hip'.symm))
  nonzero e h := by
    obtain ⟨id, node, -, hm, hkind, hip⟩ := of_host hnone (fun _ => rfl) (fun _ _ => rfl) h
    exact hnonzero _ hm hkind hip

theorem lab_distinctIps : lab.DistinctIps :=
  .ofHosts (by decide) (by decide) (by decide)

theorem lab_answered : lab.Answered PC1 (pc PC1 1 0xC0A8010A) 0xC0A80114 :=
  ⟨by decide, .inl ⟨by decide, PC2, by decide, lab_reaches, rfl⟩⟩

end Netlab
end Techuila
