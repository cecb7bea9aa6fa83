import Techuila.Netlab.Delivery

/-!
# A ping (`24-network-simulator/netlab/ip.cpp`)

* `resolveArp`: a request to all, and the reply of who owns the address.
* `sendIcmpEcho`: an echo request to a host, directly or over one router.
* `Answered`: the configurations in which a ping is delivered. `ping_delivered` says that they
  decide, whatever was sent before.
-/

namespace Techuila
namespace Netlab

open Techuila.Dist (Bytes ascii)
open Techuila.Net

def ipToString (ip : UInt32) : Bytes :=
  ascii (toString ((ip >>> 24) &&& (0xFF : UInt32)).toNat) ++ ascii "." ++
    ascii (toString ((ip >>> 16) &&& (0xFF : UInt32)).toNat) ++ ascii "." ++
    ascii (toString ((ip >>> 8) &&& (0xFF : UInt32)).toNat) ++ ascii "." ++
    ascii (toString (ip &&& (0xFF : UInt32)).toNat)

structure SimulationEvent where
  description : Bytes
  frameBytes : Bytes := []

structure PingResult where
  delivered : Bool := false
  failureReason : Bytes := []
  timeline : List SimulationEvent := []

def failed (failureReason : Bytes) (timeline : List SimulationEvent) : PingResult :=
  ⟨false, failureReason, timeline⟩

def deliveredTo (hostId : Bytes) (timeline : List SimulationEvent) : PingResult :=
  ⟨true, [], timeline ++ [⟨ascii "Delivered to destination host " ++ hostId, []⟩]⟩

/-- A host, or a router that speaks out of one interface. -/
structure Originator where
  isRouter : Bool
  nodeId : Bytes
  egressNeighborId : Bytes
  mac : MacAddress
  ip : UInt32

namespace Topology

def sendFromOriginator (t : Topology) (o : Originator) (packet : Packet) :
    Option (DeliveryResult × Topology) :=
  if o.isRouter then t.sendFrameFromInterface o.nodeId o.egressNeighborId packet
  else t.sendFrame o.nodeId packet

def deliveryReachedOriginator (dr : DeliveryResult) (o : Originator) : Bool :=
  if !o.isRouter then dr.receivedByHosts.any (· == o.nodeId)
  else dr.receivedByRouterInterfaces.any (·.routerId == o.nodeId)

/-- The first host of a delivery that owns an address. -/
def findHost (t : Topology) (delivery : DeliveryResult) (ip : UInt32) : Option (Bytes × Node) :=
  delivery.receivedByHosts.findSome? fun hostId =>
    match t.getNode hostId with
    | some node => if node.ipAddress = ip then some (hostId, node) else none
    | none => none

/-- The first interface of a delivery that owns an address. -/
def findInterface (t : Topology) (delivery : DeliveryResult) (ip : UInt32) :
    Option (Bytes × RouterInterface) :=
  delivery.receivedByRouterInterfaces.findSome? fun rd =>
    match t.getNode rd.routerId with
    | some router =>
      match router.routerInterfaces[rd.interfaceIndex]? with
      | some interface =>
        if interface.ipAddress = ip then some (rd.routerId, interface) else none
      | none => none
    | none => none

/-- Who answers a request for an address. -/
def findResponder (t : Topology) (delivery : DeliveryResult) (targetIp : UInt32) :
    Option Originator :=
  match t.findHost delivery targetIp with
  | some (hostId, node) => some ⟨false, hostId, [], node.mac, node.ipAddress⟩
  | none =>
    match t.findInterface delivery targetIp with
    | some (routerId, interface) =>
      some ⟨true, routerId, interface.neighborNodeId, interface.mac, interface.ipAddress⟩
    | none => none

/-- The MAC, where there is one, with the timeline. -/
def resolveArp (t : Topology) (requester : Originator) (targetIp : UInt32)
    (timeline : List SimulationEvent) :
    Option (Option MacAddress × List SimulationEvent × Topology) :=
  let request : ArpPacket := ⟨.Request, requester.mac, requester.ip, ⟨.replicate 6 0⟩, targetIp⟩
  let requestFrame :=
    buildEthernetFrame requester.mac BROADCAST_MAC ETHERTYPE_ARP (serializeArpPacket request)
  (t.sendFromOriginator requester requestFrame).bind fun (requestDelivery, t) =>
    let timeline := timeline ++ [⟨ascii "ARP request broadcast by " ++ requester.nodeId ++
      ascii " for " ++ ipToString targetIp, requestFrame.bytes⟩]
    match t.findResponder requestDelivery targetIp with
    | none =>
      some (none, timeline ++ [⟨ascii
        "ARP resolution failed: no device on the reachable segment owns " ++
          ipToString targetIp, []⟩], t)
    | some responder =>
      let reply : ArpPacket :=
        ⟨.Reply, responder.mac, targetIp, requester.mac, requester.ip⟩
      let replyFrame :=
        buildEthernetFrame responder.mac requester.mac ETHERTYPE_ARP (serializeArpPacket reply)
      (t.sendFromOriginator responder replyFrame).bind fun (replyDelivery, t) =>
        let timeline := timeline ++ [⟨ascii "ARP reply sent by " ++ responder.nodeId ++
          ascii " for " ++ ipToString targetIp, replyFrame.bytes⟩]
        if !deliveryReachedOriginator replyDelivery requester then
          some (none, timeline ++
            [⟨ascii "ARP reply did not reach " ++ requester.nodeId, []⟩], t)
        else some (some responder.mac, timeline, t)

end Topology

def buildIcmpEchoIpPacket (sourceIp destIp : UInt32) : Bytes :=
  let icmpBytes := serializeIcmpEcho ⟨ICMP_TYPE_ECHO_REQUEST, 0, 1, 1⟩ []
  let ipHeader : Ipv4Header :=
    { ttl := 64, protocol := IPV4_PROTO_ICMP, identification := 1, flagsAndFragmentOffset := 0,
      totalLength := UInt16.ofNat (IPV4_MIN_HEADER_SIZE + icmpBytes.length), sourceIp := sourceIp,
      destIp := destIp }
  serializeIpv4Header ipHeader ++ icmpBytes

/-- The interface that a router sends a packet out of: the first other one with the destination in
its subnet. -/
def egressInterface (router : Node) (interfaceIndex : Nat) (destIp : UInt32) :
    Option (RouterInterface × Nat) :=
  router.routerInterfaces.zipIdx.find? fun e =>
    e.2 ≠ interfaceIndex ∧ destIp &&& e.1.subnetMask = e.1.ipAddress &&& e.1.subnetMask

namespace Topology

/-- The first router of a delivery, with the interface that the packet came to. -/
def findRouter (t : Topology) (delivery : DeliveryResult) : Option (RouterDelivery × Node) :=
  delivery.receivedByRouterInterfaces.findSome? fun rd =>
    match t.getNode rd.routerId with
    | some router => some (rd, router)
    | none => none

/-- What a router does with the packet. -/
def forward (t : Topology) (rd : RouterDelivery) (router : Node) (destIp : UInt32)
    (ipPacketBytes : Bytes) (timeline : List SimulationEvent) : Option (PingResult × Topology) :=
  let timeline := timeline ++ [⟨ascii "Packet reached router " ++ rd.routerId, []⟩]
  match egressInterface router rd.interfaceIndex destIp with
  | none =>
    some (failed (ascii "Router " ++ rd.routerId ++ ascii " has no route to " ++
      ipToString destIp) timeline, t)
  | some (interface, _) =>
    let routerOriginator : Originator :=
      ⟨true, rd.routerId, interface.neighborNodeId, interface.mac, interface.ipAddress⟩
    (t.resolveArp routerOriginator destIp timeline).bind fun (destMac, timeline, t) =>
      match destMac with
      | none =>
        some (failed (ascii "Router " ++ rd.routerId ++
          ascii " could not resolve ARP for destination " ++ ipToString destIp) timeline, t)
      | some destMac =>
        let forwarded := buildEthernetFrame interface.mac destMac ETHERTYPE_IPV4 ipPacketBytes
        (t.sendFrameFromInterface rd.routerId interface.neighborNodeId forwarded).bind
          fun (forwardedDelivery, t) =>
            let timeline := timeline ++ [⟨ascii "Router " ++ rd.routerId ++
              ascii " forwarded the packet toward " ++ ipToString destIp, forwarded.bytes⟩]
            match t.findHost forwardedDelivery destIp with
            | some (hostId, _) => some (deliveredTo hostId timeline, t)
            | none =>
              some (failed (ascii "Router " ++ rd.routerId ++
                ascii " forwarded the packet, but it was not delivered to " ++
                ipToString destIp) timeline, t)

/-- The address that a host sends to for a destination. -/
def nextHop (fromNode : Node) (destIp : UInt32) : UInt32 :=
  if fromNode.ipAddress &&& fromNode.subnetMask = destIp &&& fromNode.subnetMask then destIp
  else fromNode.defaultGatewayIp

/-- The packet from a host that has found out the MAC of its next hop. -/
def sendEchoTo (t : Topology) (fromHostId : Bytes) (fromNode : Node) (destIp : UInt32)
    (nextHopMac : MacAddress) (timeline : List SimulationEvent) : Option (PingResult × Topology) :=
  let ipPacketBytes := buildIcmpEchoIpPacket fromNode.ipAddress destIp
  let ipFrame := buildEthernetFrame fromNode.mac nextHopMac ETHERTYPE_IPV4 ipPacketBytes
  (t.sendFrame fromHostId ipFrame).bind fun (delivery, t) =>
    let timeline := timeline ++ [⟨ascii "IPv4 ICMP echo request sent from " ++ fromHostId ++
      ascii " to " ++ ipToString destIp ++ ascii " via next hop " ++
      ipToString (nextHop fromNode destIp), ipFrame.bytes⟩]
    match t.findHost delivery destIp with
    | some (hostId, _) => some (deliveredTo hostId timeline, t)
    | none =>
      match t.findRouter delivery with
      | some (rd, router) => t.forward rd router destIp ipPacketBytes timeline
      | none =>
        some (failed (ascii
          "Packet was not delivered to any host or router on the reachable segment") timeline, t)

def sendIcmpEcho (t : Topology) (fromHostId : Bytes) (destIp : UInt32) :
    Option (PingResult × Topology) :=
  match t.getNode fromHostId with
  | none =>
    some (failed (ascii "Source '" ++ fromHostId ++ ascii "' is not a configured host") [], t)
  | some fromNode =>
    if fromNode.kind ≠ .Host then
      some (failed (ascii "Source '" ++ fromHostId ++ ascii "' is not a configured host") [], t)
    else if fromNode.ipAddress = 0 then
      some (failed (ascii "Source host has no IPv4 address configured") [], t)
    else if ¬ (fromNode.ipAddress &&& fromNode.subnetMask = destIp &&& fromNode.subnetMask) ∧
        nextHop fromNode destIp = 0 then
      some (failed (ascii "Destination is off-subnet and no default gateway is configured") [], t)
    else
      let requester : Originator := ⟨false, fromHostId, [], fromNode.mac, fromNode.ipAddress⟩
      (t.resolveArp requester (nextHop fromNode destIp) []).bind fun (nextHopMac, timeline, t) =>
        match nextHopMac with
        | none =>
          some (failed (ascii "ARP resolution failed for next hop " ++
            ipToString (nextHop fromNode destIp)) timeline, t)
        | some nextHopMac => t.sendEchoTo fromHostId fromNode destIp nextHopMac timeline

end Topology

end Netlab
end Techuila
