import Techuila.Lib.Table
import Techuila.Net.Protocols

/-!
# A simulated network (`24-network-simulator/netlab/node.hpp`, `packet.cpp`, `topology.cpp`)

* `Topology.deliverFrom`: a frame goes from node to node, and the switches learn. `none` is the
  exception of `nodes.at`.
* `Topology.perform`: one call of a program that builds a network and sends frames on it.
* `Topology.deliverLoop_rule`: what each round of the loop keeps holds at its end.
-/

namespace Techuila
namespace Netlab

open Techuila.Dist (Bytes)
open Techuila.Net

inductive NodeKind
  | Host
  | Switch
  | Router
  deriving DecidableEq

structure RouterInterface where
  neighborNodeId : Bytes
  mac : MacAddress
  ipAddress : UInt32 := 0
  subnetMask : UInt32 := 0
  deriving DecidableEq

/-- The addresses are those of a host, the interfaces those of a router. -/
structure Node where
  id : Bytes
  kind : NodeKind
  mac : MacAddress := ⟨.replicate 6 0⟩
  ipAddress : UInt32 := 0
  subnetMask : UInt32 := 0
  defaultGatewayIp : UInt32 := 0
  routerInterfaces : List RouterInterface := []

def BROADCAST_MAC : MacAddress := ⟨.replicate 6 0xFF⟩

def isBroadcast (mac : MacAddress) : Bool := macEquals mac BROADCAST_MAC

structure Packet where
  bytes : Bytes

/-- The header is left out where the length of the frame, as 32 bits, is too small for it. -/
def buildEthernetFrame (source destination : MacAddress) (etherType : UInt16) (payload : Bytes) :
    Packet :=
  if UInt32.ofNat (ETHERNET_HEADER_SIZE.toNat + payload.length) < ETHERNET_HEADER_SIZE then
    ⟨payload ++ List.replicate ETHERNET_HEADER_SIZE.toNat 0⟩
  else ⟨serializeEthernetHeader ⟨destination, source, etherType⟩ ++ payload⟩

def parseFrameHeader (packet : Packet) : Option EthernetHeader :=
  parseEthernetHeader packet.bytes (UInt32.ofNat packet.bytes.length)

theorem parseFrameHeader_build {source destination : MacAddress} {etherType : UInt16}
    {payload : Bytes} (h : payload.length < 2 ^ 16) :
    parseFrameHeader (buildEthernetFrame source destination etherType payload) =
      some ⟨destination, source, etherType⟩ := by
  have hheader : ETHERNET_HEADER_SIZE.toNat = 14 := rfl
  have hsize : ¬ UInt32.ofNat (14 + payload.length) < ETHERNET_HEADER_SIZE := by
    rw [UInt32.lt_iff_toNat_lt, UInt32.toNat_ofNat', Nat.mod_eq_of_lt (by omega), hheader]
    omega
  rw [buildEthernetFrame, hheader, if_neg hsize]
  refine parseEthernetHeader_serialize _ _ ?_
  rwa [List.length_append, length_serializeEthernetHeader]

/-- A digit for each half of a byte. -/
def HEX_DIGITS : Bytes := Dist.ascii "0123456789abcdef"

def macToHex (mac : MacAddress) : Bytes :=
  mac.bytes.toList.flatMap fun b : UInt8 =>
    [HEX_DIGITS.getD (b >>> 4).toNat 0, HEX_DIGITS.getD (b &&& 0x0F).toNat 0]

/-- The byte with these digits. -/
def hexByte (high low : UInt8) : UInt8 :=
  UInt8.ofNat (16 * HEX_DIGITS.idxOf high + HEX_DIGITS.idxOf low)

theorem hexByte_digits (b : UInt8) :
    hexByte (HEX_DIGITS.getD (b >>> 4).toNat 0) (HEX_DIGITS.getD (b &&& 0x0F).toNat 0) = b := by
  have h : ∀ n < 256, hexByte (HEX_DIGITS.getD (UInt8.ofNat n >>> 4).toNat 0)
      (HEX_DIGITS.getD (UInt8.ofNat n &&& 0x0F).toNat 0) = UInt8.ofNat n := by decide +kernel
  simpa using h b.toNat b.toNat_lt

theorem macToHex_inj {a b : MacAddress} (h : macToHex a = macToHex b) : a = b := by
  have hdigits : ∀ xs ys : List UInt8,
      (xs.flatMap fun b : UInt8 =>
        [HEX_DIGITS.getD (b >>> 4).toNat 0, HEX_DIGITS.getD (b &&& 0x0F).toNat 0]) =
      (ys.flatMap fun b : UInt8 =>
        [HEX_DIGITS.getD (b >>> 4).toNat 0, HEX_DIGITS.getD (b &&& 0x0F).toNat 0]) → xs = ys := by
    intro xs
    induction xs with
    | nil =>
      rintro (_ | ⟨y, ys⟩) h
      · rfl
      · cases h
    | cons x xs ih =>
      rintro (_ | ⟨y, ys⟩) h
      · cases h
      · simp only [List.flatMap_cons, List.cons_append, List.nil_append, List.cons.injEq] at h
        rw [← hexByte_digits x, ← hexByte_digits y, h.1, h.2.1, ih ys h.2.2]
  exact congrArg MacAddress.mk (Vector.toList_inj.mp (hdigits _ _ h))

structure RouterDelivery where
  routerId : Bytes
  interfaceIndex : Nat
  deriving DecidableEq

structure DeliveryResult where
  receivedByHosts : List Bytes := []
  receivedByRouterInterfaces : List RouterDelivery := []

/-- The neighbour from which a frame of a MAC came last, by switch and MAC. -/
abbrev MacTables := Table Bytes (Table Bytes Bytes)

structure Topology where
  nodes : Table Bytes Node := []
  adjacency : Table Bytes (List Bytes) := []
  switchMacTables : MacTables := []

namespace Topology

/-- `adjacency[id]`. A node that was added has an entry. -/
def neighbors (t : Topology) (id : Bytes) : List Bytes := (t.adjacency.find id).getD []

def addNode (t : Topology) (node : Node) : Bool × Topology :=
  if t.nodes.contains node.id then (false, t)
  else
    (true, { t with
      nodes := t.nodes.insert node.id node
      adjacency := t.adjacency.insert node.id (t.neighbors node.id) })

def pushNeighbor (t : Topology) (a b : Bytes) : Topology :=
  { t with adjacency := t.adjacency.insert a (t.neighbors a ++ [b]) }

def addLink (t : Topology) (a b : Bytes) : Bool × Topology :=
  if !t.nodes.contains a || !t.nodes.contains b then (false, t)
  else if b ∈ t.neighbors a then (false, t)
  else (true, (t.pushNeighbor a b).pushNeighbor b a)

def hasNode (t : Topology) (id : Bytes) : Bool := t.nodes.contains id

def getNode (t : Topology) (id : Bytes) : Option Node := t.nodes.find id

def addRouterInterface (t : Topology) (routerId neighborId : Bytes) (mac : MacAddress)
    (ipAddress subnetMask : UInt32) : Bool × Topology :=
  match t.nodes.find routerId with
  | none => (false, t)
  | some node =>
    if node.kind ≠ .Router then (false, t)
    else if neighborId ∉ t.neighbors routerId then (false, t)
    else if node.routerInterfaces.any (·.neighborNodeId == neighborId) then (false, t)
    else
      let node := { node with
        routerInterfaces := node.routerInterfaces ++ [⟨neighborId, mac, ipAddress, subnetMask⟩] }
      (true, { t with nodes := t.nodes.insert routerId node })

/-- The frame is for this MAC. -/
def accepts (header : EthernetHeader) (mac : MacAddress) : Bool :=
  isBroadcast header.destination || macToHex mac == macToHex header.destination

/-- The first interface that faces a neighbour, with its index. -/
def facing (node : Node) (neighbor : Bytes) : Option (RouterInterface × Nat) :=
  node.routerInterfaces.zipIdx.find? fun e => e.1.neighborNodeId == neighbor

/-- A host takes a frame for its MAC, a router one for the MAC of the interface it arrives at. -/
def receive (header : EthernetHeader) (node : Node) (arrivedFrom current : Bytes)
    (result : DeliveryResult) : DeliveryResult :=
  match node.kind with
  | .Host =>
    if accepts header node.mac then
      { result with receivedByHosts := result.receivedByHosts ++ [current] }
    else result
  | .Router =>
    match facing node arrivedFrom with
    | some (interface, i) =>
      if accepts header interface.mac then
        { result with
          receivedByRouterInterfaces := result.receivedByRouterInterfaces ++ [⟨current, i⟩] }
      else result
    | none => result
  | .Switch => result

def learn (tables : MacTables) (switch srcMacHex arrivedFrom : Bytes) : MacTables :=
  tables.insert switch (((tables.find switch).getD []).insert srcMacHex arrivedFrom)

/-- The port a switch has learned for the destination of a frame, unless it came from there. -/
def learnedTargets (table : Table Bytes Bytes) (header : EthernetHeader) (arrivedFrom : Bytes) :
    List Bytes :=
  if isBroadcast header.destination then []
  else
    match table.find (macToHex header.destination) with
    | some target => if target ≠ arrivedFrom then [target] else []
    | none => []

/-- The neighbours to which a switch passes a frame on: all others where it has no port. -/
def targets (t : Topology) (tables : MacTables) (header : EthernetHeader)
    (arrivedFrom current : Bytes) : List Bytes :=
  let learned := learnedTargets ((tables.find current).getD []) header arrivedFrom
  if learned.isEmpty then (t.neighbors current).filter (· ≠ arrivedFrom) else learned

/-- What a node that a frame comes to does to the tables of the switches. -/
def learnAt (tables : MacTables) (header : EthernetHeader) (node : Node)
    (arrivedFrom current : Bytes) : MacTables :=
  match node.kind with
  | .Switch => learn tables current (macToHex header.source) arrivedFrom
  | _ => tables

/-- The queue entries of a node that a frame comes to. Only a switch passes it on. -/
def pushes (t : Topology) (tables : MacTables) (header : EthernetHeader) (node : Node)
    (visited : List Bytes) (arrivedFrom current : Bytes) : List (Bytes × Bytes) :=
  match node.kind with
  | .Switch =>
    ((t.targets tables header arrivedFrom current).filter (· ∉ visited)).map (current, ·)
  | _ => []

/-- The known nodes that a frame has not come to. -/
def unvisited (t : Topology) (visited : List Bytes) : List Bytes :=
  (t.nodes.map Prod.fst).filter (· ∉ visited)

theorem unvisited_lt {t : Topology} {visited : List Bytes} {current : Bytes} {node : Node}
    (hnew : current ∉ visited) (hnode : t.nodes.find current = some node) :
    (t.unvisited (current :: visited)).length < (t.unvisited visited).length := by
  have hmem : current ∈ t.unvisited visited :=
    List.mem_filter.mpr ⟨List.mem_map.mpr ⟨_, Table.mem_of_find hnode, rfl⟩, by simpa using hnew⟩
  have hsplit : t.unvisited (current :: visited) =
      (t.unvisited visited).filter (· ≠ current) := by
    rw [unvisited, unvisited, List.filter_filter]
    refine List.filter_congr fun x _ => ?_
    simp
  rw [hsplit]
  exact List.length_filter_lt_length_iff_exists.mpr ⟨current, hmem, by simp⟩

/-- `while (!queue.empty())`. An entry of the queue is a node with the neighbour the frame comes
from. -/
def deliverLoop (t : Topology) (header : EthernetHeader) (tables : MacTables)
    (visited : List Bytes) (queue : List (Bytes × Bytes)) (result : DeliveryResult) :
    Option (DeliveryResult × MacTables) :=
  match queue with
  | [] => some (result, tables)
  | (arrivedFrom, current) :: queue =>
    if _h : current ∈ visited then t.deliverLoop header tables visited queue result
    else
      match _h : t.nodes.find current with
      | none => none
      | some node =>
        t.deliverLoop header (learnAt tables header node arrivedFrom current) (current :: visited)
          (queue ++ t.pushes (learnAt tables header node arrivedFrom current) header node
            (current :: visited) arrivedFrom current)
          (receive header node arrivedFrom current result)
termination_by ((t.unvisited visited).length, queue.length)
decreasing_by
  · exact Prod.Lex.right _ (Nat.lt_succ_self _)
  · exact Prod.Lex.left _ _ (unvisited_lt ‹_› ‹_›)

def deliverFrom (t : Topology) (originId : Bytes) (startNeighbors : List Bytes) (packet : Packet) :
    Option (DeliveryResult × Topology) :=
  match parseFrameHeader packet with
  | none => some ({}, t)
  | some header =>
    (t.deliverLoop header t.switchMacTables [originId] (startNeighbors.map (originId, ·)) {}).map
      fun (result, tables) => (result, { t with switchMacTables := tables })

def sendFrame (t : Topology) (originId : Bytes) (packet : Packet) :
    Option (DeliveryResult × Topology) :=
  match t.nodes.find originId with
  | none => some ({}, t)
  | some node =>
    if node.kind ≠ .Host ∧ node.kind ≠ .Router then some ({}, t)
    else t.deliverFrom originId (t.neighbors originId) packet

def sendFrameFromInterface (t : Topology) (originRouterId egressNeighborId : Bytes)
    (packet : Packet) : Option (DeliveryResult × Topology) :=
  match t.nodes.find originRouterId with
  | none => some ({}, t)
  | some node =>
    if node.kind ≠ .Router then some ({}, t)
    else if egressNeighborId ∉ t.neighbors originRouterId then some ({}, t)
    else t.deliverFrom originRouterId [egressNeighborId] packet

/-- The nodes that a frame has come to, by its arrivals with the last one first. -/
def visitedOf (origin : Bytes) (arrivals : List (Bytes × Bytes)) : List Bytes :=
  arrivals.map Prod.snd ++ [origin]

/-- What the arrivals of a frame give as its result. -/
def receivedOf (t : Topology) (header : EthernetHeader) (arrivals : List (Bytes × Bytes)) :
    DeliveryResult :=
  arrivals.foldr (fun e result =>
    match t.nodes.find e.2 with
    | some node => receive header node e.1 e.2 result
    | none => result) {}

/-- What holds of the tables, of the arrivals and of the queue, and is kept by every round. -/
theorem deliverLoop_rule {t : Topology} {header : EthernetHeader} {origin : Bytes}
    {I : MacTables → List (Bytes × Bytes) → List (Bytes × Bytes) → Prop}
    (hskip : ∀ tables arrivals e queue, I tables arrivals (e :: queue) →
      e.2 ∈ visitedOf origin arrivals → I tables arrivals queue)
    (hknown : ∀ tables arrivals e queue, I tables arrivals (e :: queue) →
      ∃ node, t.nodes.find e.2 = some node)
    (hvisit : ∀ tables arrivals p c queue node, I tables arrivals ((p, c) :: queue) →
      c ∉ visitedOf origin arrivals → t.nodes.find c = some node →
      I (learnAt tables header node p c) ((p, c) :: arrivals) (queue ++ t.pushes
        (learnAt tables header node p c) header node (visitedOf origin ((p, c) :: arrivals)) p c))
    {tables : MacTables} {arrivals queue : List (Bytes × Bytes)} (h : I tables arrivals queue) :
    ∃ tables' arrivals', I tables' arrivals' [] ∧
      t.deliverLoop header tables (visitedOf origin arrivals) queue (t.receivedOf header arrivals) =
        some (t.receivedOf header arrivals', tables') := by
  generalize hvisited : visitedOf origin arrivals = visited
  generalize hresult : t.receivedOf header arrivals = result
  fun_induction t.deliverLoop header tables visited queue result generalizing arrivals with
  | case1 tables visited result => exact ⟨tables, arrivals, h, by rw [hresult]⟩
  | case2 tables visited result p c queue hseen ih =>
    subst hvisited
    exact ih (hskip _ _ _ _ h hseen) rfl hresult
  | case3 tables visited result p c queue hnew hnode =>
    obtain ⟨node, hnode'⟩ := hknown _ _ _ _ h
    cases hnode.symm.trans hnode'
  | case4 tables visited result p c queue hnew node hnode ih =>
    subst hvisited
    refine ih (hvisit _ _ _ _ _ _ h hnew hnode) rfl ?_
    rw [receivedOf, List.foldr_cons, hnode, ← hresult]
    rfl

theorem accepts_iff {header : EthernetHeader} {mac : MacAddress} :
    accepts header mac = true ↔ header.destination = BROADCAST_MAC ∨ mac = header.destination := by
  rw [accepts, Bool.or_eq_true, isBroadcast, macEquals_iff, beq_iff_eq]
  exact or_congr_right ⟨macToHex_inj, congrArg macToHex⟩

/-- What a host receives. -/
def hostDelivery (header : EthernetHeader) (node : Node) (current : Bytes) : Option Bytes :=
  if node.kind = .Host ∧ accepts header node.mac then some current else none

/-- What a router receives. -/
def routerDelivery (header : EthernetHeader) (node : Node) (arrivedFrom current : Bytes) :
    Option RouterDelivery :=
  if node.kind = .Router then
    (facing node arrivedFrom).bind fun e =>
      if accepts header e.1.mac then some ⟨current, e.2⟩ else none
  else none

theorem receive_eq (header : EthernetHeader) (node : Node) (p c : Bytes)
    (result : DeliveryResult) :
    receive header node p c result =
      ⟨result.receivedByHosts ++ (hostDelivery header node c).toList,
        result.receivedByRouterInterfaces ++ (routerDelivery header node p c).toList⟩ := by
  unfold receive hostDelivery routerDelivery
  cases hkind : node.kind with
  | Host => by_cases h : accepts header node.mac = true <;> simp [h]
  | Switch => simp
  | Router =>
    cases hface : facing node p with
    | none => simp
    | some e => by_cases h : accepts header e.1.mac = true <;> simp [h]

def hostReceives (t : Topology) (header : EthernetHeader) (e : Bytes × Bytes) : Option Bytes :=
  (t.nodes.find e.2).bind fun node => hostDelivery header node e.2

def routerReceives (t : Topology) (header : EthernetHeader) (e : Bytes × Bytes) :
    Option RouterDelivery :=
  (t.nodes.find e.2).bind fun node => routerDelivery header node e.1 e.2

theorem hostReceives_eq_some {t : Topology} {header : EthernetHeader} {e : Bytes × Bytes}
    {id : Bytes} : t.hostReceives header e = some id ↔
      id = e.2 ∧ ∃ node, t.nodes.find e.2 = some node ∧ node.kind = .Host ∧
        accepts header node.mac = true := by
  rw [hostReceives, Option.bind_eq_some_iff]
  constructor
  · rintro ⟨node, hnode, h⟩
    unfold hostDelivery at h
    split at h
    · rename_i hc
      cases h
      exact ⟨rfl, node, hnode, hc⟩
    · cases h
  · rintro ⟨rfl, node, hnode, hc⟩
    exact ⟨node, hnode, if_pos hc⟩

theorem routerReceives_eq_some {t : Topology} {header : EthernetHeader} {e : Bytes × Bytes}
    {r : Bytes} {i : Nat} : t.routerReceives header e = some ⟨r, i⟩ ↔
      r = e.2 ∧ ∃ node interface, t.nodes.find e.2 = some node ∧ node.kind = .Router ∧
        facing node e.1 = some (interface, i) ∧ accepts header interface.mac = true := by
  rw [routerReceives, Option.bind_eq_some_iff]
  constructor
  · rintro ⟨node, hnode, h⟩
    unfold routerDelivery at h
    split at h
    · rename_i hkind
      obtain ⟨⟨interface, j⟩, hface, h⟩ := Option.bind_eq_some_iff.mp h
      split at h
      · rename_i ha
        cases h
        exact ⟨rfl, node, interface, hnode, hkind, hface, ha⟩
      · cases h
    · cases h
  · rintro ⟨rfl, node, interface, hnode, hkind, hface, ha⟩
    refine ⟨node, hnode, ?_⟩
    rw [routerDelivery, if_pos hkind, hface, Option.bind_some, if_pos ha]

theorem receivedOf_eq (t : Topology) (header : EthernetHeader) (arrivals : List (Bytes × Bytes)) :
    t.receivedOf header arrivals =
      ⟨arrivals.reverse.filterMap (t.hostReceives header),
        arrivals.reverse.filterMap (t.routerReceives header)⟩ := by
  induction arrivals with
  | nil => rfl
  | cons e arrivals ih =>
    rw [List.reverse_cons, List.filterMap_append, List.filterMap_append, receivedOf,
      List.foldr_cons, ← receivedOf, ih]
    have hlast : ∀ {β : Type} (f : Bytes × Bytes → Option β), [e].filterMap f = (f e).toList := by
      intro β f
      cases h : f e <;> simp [h]
    rw [hlast, hlast, hostReceives, routerReceives]
    cases hnode : t.nodes.find e.2 with
    | none => simp
    | some node => exact receive_eq ..

theorem mem_receivedByHosts {t : Topology} {header : EthernetHeader}
    {arrivals : List (Bytes × Bytes)} {id : Bytes} :
    id ∈ (t.receivedOf header arrivals).receivedByHosts ↔
      ∃ p node, (p, id) ∈ arrivals ∧ t.nodes.find id = some node ∧ node.kind = .Host ∧
        accepts header node.mac = true := by
  simp only [receivedOf_eq, List.mem_filterMap, List.mem_reverse, hostReceives_eq_some]
  constructor
  · rintro ⟨⟨p, c⟩, hm, rfl, node, h⟩
    exact ⟨p, node, hm, h⟩
  · rintro ⟨p, node, hm, h⟩
    exact ⟨(p, id), hm, rfl, node, h⟩

theorem mem_receivedByRouterInterfaces {t : Topology} {header : EthernetHeader}
    {arrivals : List (Bytes × Bytes)} {r : Bytes} {i : Nat} :
    ⟨r, i⟩ ∈ (t.receivedOf header arrivals).receivedByRouterInterfaces ↔
      ∃ p node interface, (p, r) ∈ arrivals ∧ t.nodes.find r = some node ∧ node.kind = .Router ∧
        facing node p = some (interface, i) ∧ accepts header interface.mac = true := by
  simp only [receivedOf_eq, List.mem_filterMap, List.mem_reverse, routerReceives_eq_some]
  constructor
  · rintro ⟨⟨p, c⟩, hm, rfl, node, interface, h⟩
    exact ⟨p, node, interface, hm, h⟩
  · rintro ⟨p, node, interface, hm, h⟩
    exact ⟨(p, r), hm, rfl, node, interface, h⟩

/-- Where a frame comes to each node once, each node receives it once. -/
theorem nodup_receivedOf {t : Topology} {header : EthernetHeader}
    {arrivals : List (Bytes × Bytes)} (h : (arrivals.map Prod.snd).Nodup) :
    ((t.receivedOf header arrivals).receivedByHosts ++
      (t.receivedOf header arrivals).receivedByRouterInterfaces.map
        RouterDelivery.routerId).Nodup := by
  have hrev : arrivals.reverse.Pairwise fun a b => a.2 ≠ b.2 := by
    rw [List.pairwise_reverse]
    exact (List.pairwise_map.mp h).imp Ne.symm
  refine List.nodup_append.mpr ⟨?_, ?_, fun id hhost id' hrouter he => ?_⟩
  · rw [receivedOf_eq]
    refine List.pairwise_filterMap.mpr (hrev.imp fun hne b hb b' hb' => ?_)
    rw [(hostReceives_eq_some.mp hb).1, (hostReceives_eq_some.mp hb').1]
    exact hne
  · rw [receivedOf_eq]
    refine List.pairwise_map.mpr (List.pairwise_filterMap.mpr (hrev.imp fun hne b hb b' hb' => ?_))
    rw [(routerReceives_eq_some.mp hb).1, (routerReceives_eq_some.mp hb').1]
    exact hne
  · obtain ⟨d, hd, rfl⟩ := List.mem_map.mp hrouter
    obtain ⟨_, _, -, hnode, hkind, -⟩ := mem_receivedByHosts.mp hhost
    obtain ⟨_, _, _, -, hnode', hkind', -⟩ := mem_receivedByRouterInterfaces.mp hd
    rw [he, hnode'] at hnode
    cases hnode
    cases hkind.symm.trans hkind'

end Topology

end Netlab
end Techuila
