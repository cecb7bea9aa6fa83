import Mathlib.Data.Finset.Card
import Techuila.Dist.Rpc

/-!
# One Raft node (`07-distributed-systems/raft/raft.cpp`, `RaftNode`)

The node's methods, as functions from the node to the node and the packets it hands to
`network.send`, in order. No method reads the network except through the inbox it drains first, so
the packets are all that a call does to the network.

* `raftServer`: the two handlers of `wireHandlers`.
* `processResponse`: one iteration of the loop of `processIncomingResponses`.
* The round trips of the four payload encodings, and `handleRequest_vote`,
  `handleRequest_heartbeat`: what the server does with an encoded request.
-/

namespace Techuila
namespace Dist

inductive RaftRole where
  | follower
  | candidate
  | leader
  deriving DecidableEq, Repr

/-! ## Payloads -/

def encodeVoteRequest (term : UInt64) (candidateId : NodeId) : Bytes :=
  ((({} : Encoder).writeU64 term).writeU32 candidateId).data

def decodeVoteRequest (bytes : Bytes) : Option (UInt64 × NodeId) :=
  Decoder.next (Decoder.readU64 ⟨bytes, 0, false⟩) fun term dec =>
  Decoder.next dec.readU32 fun candidateId dec =>
  if dec.atEnd then some (term, candidateId) else none

def encodeVoteResponse (term : UInt64) (granted : Bool) : Bytes :=
  ((({} : Encoder).writeU64 term).writeU8 (if granted then 1 else 0)).data

def decodeVoteResponse (bytes : Bytes) : Option (UInt64 × Bool) :=
  Decoder.next (Decoder.readU64 ⟨bytes, 0, false⟩) fun term dec =>
  Decoder.next dec.readU8 fun g dec =>
  if dec.atEnd then some (term, g != 0) else none

def encodeHeartbeat (term : UInt64) (leaderId : NodeId) : Bytes :=
  ((({} : Encoder).writeU64 term).writeU32 leaderId).data

def decodeHeartbeat (bytes : Bytes) : Option (UInt64 × NodeId) :=
  Decoder.next (Decoder.readU64 ⟨bytes, 0, false⟩) fun term dec =>
  Decoder.next dec.readU32 fun leaderId dec =>
  if dec.atEnd then some (term, leaderId) else none

/-- The same bytes as `encodeVoteResponse`. -/
def encodeHeartbeatAck (term : UInt64) (accepted : Bool) : Bytes :=
  ((({} : Encoder).writeU64 term).writeU8 (if accepted then 1 else 0)).data

/-! ## The node -/

/-- The RPC server of a node is `raftServer` below, with the node as the state of its handlers. -/
structure RaftNode where
  self : NodeId
  peers : List NodeId
  currentRole : RaftRole := .follower
  currentTerm : UInt64 := 0
  votedForThisTerm : Option NodeId := none
  timeoutRngState : UInt64
  minElectionTimeoutTicks : UInt32
  maxElectionTimeoutTicks : UInt32
  heartbeatIntervalTicks : UInt32
  ticksUntilElectionTimeout : UInt32 := 0
  ticksUntilNextHeartbeat : UInt32
  votesReceived : Finset NodeId := ∅
  deriving DecidableEq

namespace RaftNode

def randomElectionTimeout (n : RaftNode) : UInt32 × RaftNode :=
  let (s, r) := xorshift64Star n.timeoutRngState
  let range := n.maxElectionTimeoutTicks - n.minElectionTimeoutTicks + 1
  (n.minElectionTimeoutTicks + (r % range.toUInt64).toUInt32, { n with timeoutRngState := s })

def resetElectionTimer (n : RaftNode) : RaftNode :=
  let (t, n) := n.randomElectionTimeout
  { n with ticksUntilElectionTimeout := t }

/-- The constructor. -/
def create (self : NodeId) (peers : List NodeId) (timeoutSeed : UInt64)
    (minElectionTimeoutTicks maxElectionTimeoutTicks heartbeatIntervalTicks : UInt32) : RaftNode :=
  resetElectionTimer
    { self := self
      peers := peers
      timeoutRngState := if timeoutSeed == 0 then 0x2545F4914F6CDD1D else timeoutSeed
      minElectionTimeoutTicks := minElectionTimeoutTicks
      maxElectionTimeoutTicks := maxElectionTimeoutTicks
      heartbeatIntervalTicks := heartbeatIntervalTicks
      ticksUntilNextHeartbeat := heartbeatIntervalTicks }

/-- The vote is cleared whatever `observedTerm` is. -/
def becomeFollower (n : RaftNode) (observedTerm : UInt64) : RaftNode :=
  { n with
    currentTerm := observedTerm
    currentRole := .follower
    votedForThisTerm := none
    votesReceived := ∅ }

def handleRequestVote (n : RaftNode) (payload : Bytes) : RaftNode × Bytes :=
  match decodeVoteRequest payload with
  | none => (n, encodeVoteResponse n.currentTerm false)
  | some (requestTerm, candidateId) =>
    let n := if requestTerm > n.currentTerm then n.becomeFollower requestTerm else n
    if requestTerm = n.currentTerm ∧
        (n.votedForThisTerm = none ∨ n.votedForThisTerm = some candidateId) then
      let n := resetElectionTimer { n with votedForThisTerm := some candidateId }
      (n, encodeVoteResponse n.currentTerm true)
    else (n, encodeVoteResponse n.currentTerm false)

def handleHeartbeat (n : RaftNode) (payload : Bytes) : RaftNode × Bytes :=
  match decodeHeartbeat payload with
  | none => (n, encodeHeartbeatAck n.currentTerm false)
  | some (requestTerm, _) =>
    if requestTerm < n.currentTerm then (n, encodeHeartbeatAck n.currentTerm false)
    else
      let n :=
        if requestTerm > n.currentTerm ∨ n.currentRole ≠ .follower then n.becomeFollower requestTerm
        else n
      let n := n.resetElectionTimer
      (n, encodeHeartbeatAck n.currentTerm true)

/-- The id of the requests of a term: `currentTerm * 1000000 + self`. -/
def requestId (n : RaftNode) : RequestId := n.currentTerm * 1000000 + n.self.toUInt64

/-- `network.send(self, peer, bytes)` for every peer. -/
def broadcast (n : RaftNode) (bytes : Bytes) : List Packet :=
  n.peers.map fun peer => ⟨n.self, peer, bytes⟩

def sendHeartbeats (n : RaftNode) : List Packet :=
  n.broadcast (serializeRequest
    ⟨n.requestId, ascii "Heartbeat", encodeHeartbeat n.currentTerm n.self⟩)

def becomeLeader (n : RaftNode) : RaftNode × List Packet :=
  let n := { n with currentRole := .leader, ticksUntilNextHeartbeat := 0 }
  let sent := n.sendHeartbeats
  ({ n with ticksUntilNextHeartbeat := n.heartbeatIntervalTicks }, sent)

def startElection (n : RaftNode) : RaftNode × List Packet :=
  let n := resetElectionTimer
    { n with
      currentTerm := n.currentTerm + 1
      currentRole := .candidate
      votedForThisTerm := some n.self
      votesReceived := {n.self} }
  let sent := n.broadcast (serializeRequest
    ⟨n.requestId, ascii "RequestVote", encodeVoteRequest n.currentTerm n.self⟩)
  if n.peers.isEmpty then
    let (n, heartbeats) := n.becomeLeader
    (n, sent ++ heartbeats)
  else (n, sent)

/-- One iteration of `processIncomingResponses` for the message `(from, bytes)`. -/
def processResponse (n : RaftNode) (msg : NodeId × Bytes) : RaftNode × List Packet :=
  match parseResponse msg.2 with
  | none => (n, [])
  | some response =>
    if !response.ok then (n, [])
    else
      match decodeVoteResponse response.payload with
      | none => (n, [])
      | some (responderTerm, granted) =>
        if responderTerm > n.currentTerm then (n.becomeFollower responderTerm, [])
        else if n.currentRole = .candidate ∧ responderTerm = n.currentTerm ∧ granted then
          let n := { n with votesReceived := insert msg.1 n.votesReceived }
          let clusterSize := UInt32.ofNat n.peers.length + 1
          let majority := clusterSize / 2 + 1
          if UInt32.ofNat n.votesReceived.card ≥ majority then n.becomeLeader else (n, [])
        else (n, [])

def processIncomingResponses (n : RaftNode) (network : SimulatedNetwork) :
    RaftNode × SimulatedNetwork :=
  let (inbox, network) := network.receiveAll (responsePort n.self)
  inbox.foldl (fun (n, network) msg =>
    let (n, sent) := n.processResponse msg
    (n, network.sendAll sent)) (n, network)

def onTick (n : RaftNode) : RaftNode × List Packet :=
  if n.currentRole = .leader then
    let n := if n.ticksUntilNextHeartbeat > 0 then
      { n with ticksUntilNextHeartbeat := n.ticksUntilNextHeartbeat - 1 } else n
    if n.ticksUntilNextHeartbeat = 0 then
      ({ n with ticksUntilNextHeartbeat := n.heartbeatIntervalTicks }, n.sendHeartbeats)
    else (n, [])
  else
    let n := if n.ticksUntilElectionTimeout > 0 then
      { n with ticksUntilElectionTimeout := n.ticksUntilElectionTimeout - 1 } else n
    if n.ticksUntilElectionTimeout = 0 then n.startElection else (n, [])

end RaftNode

/-- The server that `wireHandlers` sets up. -/
def raftServer : RpcServer RaftNode :=
  (({} : RpcServer RaftNode).registerMethod (ascii "RequestVote")
    RaftNode.handleRequestVote).registerMethod (ascii "Heartbeat") RaftNode.handleHeartbeat

/-! ## Payloads read back -/

@[simp] theorem decodeVoteRequest_encode (t : UInt64) (c : NodeId) :
    decodeVoteRequest (encodeVoteRequest t c) = some (t, c) := by
  have e : encodeVoteRequest t c = beBytes 8 t.toNat ++ (beBytes 4 c.toNat ++ []) := by
    simp [encodeVoteRequest, Encoder.data, writeU32_buffer, writeU64_buffer]
  rw [e, decodeVoteRequest]
  obtain ⟨d₁, h₁, e₁⟩ := Decoder.next_readU64 (Decoder.at_start _) (β := UInt64 × NodeId) _
  rw [e₁]
  obtain ⟨d₂, h₂, e₂⟩ := Decoder.next_readU32 h₁ (β := UInt64 × NodeId) _
  rw [e₂, h₂.atEnd]
  rfl

@[simp] theorem decodeHeartbeat_encode (t : UInt64) (l : NodeId) :
    decodeHeartbeat (encodeHeartbeat t l) = some (t, l) := decodeVoteRequest_encode t l

@[simp] theorem decodeVoteResponse_encode (t : UInt64) (g : Bool) :
    decodeVoteResponse (encodeVoteResponse t g) = some (t, g) := by
  have e : encodeVoteResponse t g = beBytes 8 t.toNat ++ ([if g then 1 else 0] ++ []) := by
    simp [encodeVoteResponse, Encoder.data, Encoder.writeU8, writeU64_buffer]
  rw [e, decodeVoteResponse]
  obtain ⟨d₁, h₁, e₁⟩ := Decoder.next_readU64 (Decoder.at_start _) (β := UInt64 × Bool) _
  rw [e₁]
  obtain ⟨d₂, h₂, e₂⟩ := Decoder.next_readU8 h₁ (β := UInt64 × Bool) _
  rw [e₂, h₂.atEnd]
  cases g <;> rfl

/-- A heartbeat acknowledgement is a vote response, byte for byte. -/
theorem encodeHeartbeatAck_eq (t : UInt64) (g : Bool) :
    encodeHeartbeatAck t g = encodeVoteResponse t g := rfl

theorem length_encodeVoteRequest (t : UInt64) (c : NodeId) :
    (encodeVoteRequest t c).length = 12 := by
  simp [encodeVoteRequest, Encoder.data, writeU32_buffer, writeU64_buffer]

theorem length_encodeVoteResponse (t : UInt64) (g : Bool) :
    (encodeVoteResponse t g).length = 9 := by
  simp [encodeVoteResponse, Encoder.data, Encoder.writeU8, writeU64_buffer]

/-! ## Messages of a node -/

/-- The request that a candidate `c` of term `t` broadcasts. -/
def voteRequestBytes (t : UInt64) (c : NodeId) : Bytes :=
  serializeRequest ⟨t * 1000000 + c.toUInt64, ascii "RequestVote", encodeVoteRequest t c⟩

/-- The request that a leader `l` of term `t` broadcasts. -/
def heartbeatBytes (t : UInt64) (l : NodeId) : Bytes :=
  serializeRequest ⟨t * 1000000 + l.toUInt64, ascii "Heartbeat", encodeHeartbeat t l⟩

/-- A response of a node, to either request. -/
def voteResponseBytes (id : RequestId) (t : UInt64) (g : Bool) : Bytes :=
  serializeResponse ⟨id, true, encodeVoteResponse t g, []⟩

theorem parse_voteRequest (t : UInt64) (c : NodeId) :
    parseRequest (voteRequestBytes t c) =
      some ⟨t * 1000000 + c.toUInt64, ascii "RequestVote", encodeVoteRequest t c⟩ :=
  parseRequest_serialize _ (by show (ascii "RequestVote").length < _; decide)
    (by show (encodeVoteRequest t c).length < _; rw [length_encodeVoteRequest]; decide)

theorem parse_heartbeat (t : UInt64) (l : NodeId) :
    parseRequest (heartbeatBytes t l) =
      some ⟨t * 1000000 + l.toUInt64, ascii "Heartbeat", encodeHeartbeat t l⟩ :=
  parseRequest_serialize _ (by show (ascii "Heartbeat").length < _; decide)
    (by show (encodeVoteRequest t l).length < _; rw [length_encodeVoteRequest]; decide)

theorem parse_voteResponse (id : RequestId) (t : UInt64) (g : Bool) :
    parseResponse (voteResponseBytes id t g) = some ⟨id, true, encodeVoteResponse t g, []⟩ :=
  parseResponse_serialize _
    (by show (encodeVoteResponse t g).length < _; rw [length_encodeVoteResponse]; decide)
    (by show ([] : Bytes).length < _; decide)

theorem voteRequestBytes_inj {t t' : UInt64} {c c' : NodeId}
    (h : voteRequestBytes t c = voteRequestBytes t' c') : t = t' ∧ c = c' := by
  have hp := congrArg parseRequest h
  rw [parse_voteRequest, parse_voteRequest] at hp
  have hd := congrArg (fun r : Option RpcRequest => r.bind fun r => decodeVoteRequest r.payload) hp
  simpa using hd

theorem voteRequest_ne_heartbeat {t t' : UInt64} {c l : NodeId} :
    voteRequestBytes t c ≠ heartbeatBytes t' l := by
  intro h
  have hp := congrArg parseRequest h
  rw [parse_voteRequest, parse_heartbeat] at hp
  have hm : ascii "RequestVote" = ascii "Heartbeat" := congrArg RpcRequest.method (Option.some.inj hp)
  exact absurd hm (by decide)

/-! ## What the server does with a request of a node -/

theorem handleRequest_vote (n : RaftNode) (t : UInt64) (c : NodeId) :
    raftServer.handleRequest n (voteRequestBytes t c) =
      ((n.handleRequestVote (encodeVoteRequest t c)).1,
        serializeResponse ⟨t * 1000000 + c.toUInt64, true,
          (n.handleRequestVote (encodeVoteRequest t c)).2, []⟩) := by
  have hl : raftServer.handlers.lookup (ascii "RequestVote") = some RaftNode.handleRequestVote := rfl
  simp only [RpcServer.handleRequest, parse_voteRequest, hl]

theorem handleRequest_heartbeat (n : RaftNode) (t : UInt64) (l : NodeId) :
    raftServer.handleRequest n (heartbeatBytes t l) =
      ((n.handleHeartbeat (encodeHeartbeat t l)).1,
        serializeResponse ⟨t * 1000000 + l.toUInt64, true,
          (n.handleHeartbeat (encodeHeartbeat t l)).2, []⟩) := by
  have hl : raftServer.handlers.lookup (ascii "Heartbeat") = some RaftNode.handleHeartbeat := rfl
  simp only [RpcServer.handleRequest, parse_heartbeat, hl]

end Dist
end Techuila
