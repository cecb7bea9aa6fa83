import Mathlib.Algebra.Order.Field.Rat
import Mathlib.Logic.Function.Basic
import Techuila.Dist.Serialization

/-!
# RPC messages, the simulated network and the server (`07-distributed-systems/rpc/rpc.cpp`)

* `RpcRequest`/`RpcResponse` with their encodings; `parseRequest_serialize` and
  `parseResponse_serialize` read an encoded message back, and whatever is read back is the message
  (`parseRequest_inj`, `parseResponse_inj`), however long its fields are.
* `parseRequest_some`, `parseResponse_some`: the bytes that are read as a message.
* `SimulatedNetwork`: one seeded generator decides drops, duplicates and delays. A probability is
  the exact rational value of its `double`; the drawn 53-bit fraction is exact too.
* `RpcServer σ`: named handlers over the state `σ` of the object that registered them.
* `SimulatedNetwork.packets`: the messages in flight or in an inbox. A `send` adds only copies of
  its message, a `tick` moves messages, `receiveAll` takes them out (`packets_send` and the
  lemmas after it).
-/

namespace Techuila
namespace Dist

abbrev NodeId := UInt32
abbrev RequestId := UInt64

/-- The response channel of a node, distinct from its request inbox. -/
def responsePort (node : NodeId) : NodeId := node + 0x40000000

structure RpcRequest where
  id : RequestId
  method : Bytes
  payload : Bytes
  deriving DecidableEq, Repr

structure RpcResponse where
  id : RequestId
  ok : Bool
  payload : Bytes
  errorMessage : Bytes
  deriving DecidableEq, Repr

def serializeRequest (request : RpcRequest) : Bytes :=
  (((({} : Encoder).writeU64 request.id).writeString request.method).writeBytes
    request.payload).data

/-- The rest `k` of a parser after one read; a failed read ends it. -/
def Decoder.next {α β : Type} (r : Option α × Decoder) (k : α → Decoder → Option β) : Option β :=
  match r with
  | (none, _) => none
  | (some a, dec) => k a dec

open Decoder (next)

def parseRequest (bytes : Bytes) : Option RpcRequest :=
  next (Decoder.readU64 ⟨bytes, 0, false⟩) fun id dec =>
  next dec.readString fun method dec =>
  next dec.readBytes fun payload dec =>
  if dec.atEnd then some ⟨id, method, payload⟩ else none

def serializeResponse (response : RpcResponse) : Bytes :=
  ((((({} : Encoder).writeU64 response.id).writeU8 (if response.ok then 1 else 0)).writeBytes
    response.payload).writeString response.errorMessage).data

def parseResponse (bytes : Bytes) : Option RpcResponse :=
  next (Decoder.readU64 ⟨bytes, 0, false⟩) fun id dec =>
  next dec.readU8 fun okByte dec =>
  next dec.readBytes fun payload dec =>
  next dec.readString fun errorMessage dec =>
  if dec.atEnd then some ⟨id, okByte != 0, payload, errorMessage⟩ else none

namespace Decoder

variable {α β : Type} {pre post : Bytes} {dec : Decoder}

theorem next_eq {r : Option α × Decoder} {a : α} (h : r.1 = some a) (k : α → Decoder → Option β) :
    next r k = k a r.2 := by
  obtain ⟨o, d⟩ := r
  cases h
  rfl

theorem next_readU8 {b : UInt8} (h : At pre ([b] ++ post) dec) (k : UInt8 → Decoder → Option β) :
    ∃ dec', At (pre ++ [b]) post dec' ∧ next dec.readU8 k = k b dec' :=
  ⟨_, (readU8_at h).2, next_eq (readU8_at h).1 k⟩

theorem next_readU32 {v : UInt32} (h : At pre (beBytes 4 v.toNat ++ post) dec)
    (k : UInt32 → Decoder → Option β) :
    ∃ dec', At (pre ++ beBytes 4 v.toNat) post dec' ∧ next dec.readU32 k = k v dec' :=
  ⟨_, (readU32_at h).2, next_eq (readU32_at h).1 k⟩

theorem next_readU64 {v : UInt64} (h : At pre (beBytes 8 v.toNat ++ post) dec)
    (k : UInt64 → Decoder → Option β) :
    ∃ dec', At (pre ++ beBytes 8 v.toNat) post dec' ∧ next dec.readU64 k = k v dec' :=
  ⟨_, (readU64_at h).2, next_eq (readU64_at h).1 k⟩

theorem next_readBytes {bs : Bytes} (hl : bs.length < 2 ^ 32)
    (h : At pre (beBytes 4 bs.length ++ (bs ++ post)) dec) (k : Bytes → Decoder → Option β) :
    ∃ dec', At (pre ++ (beBytes 4 bs.length ++ bs)) post dec' ∧ next dec.readBytes k = k bs dec' :=
  ⟨_, (readBytes_at hl h).2, next_eq (readBytes_at hl h).1 k⟩

end Decoder

/-- Two byte strings with their length prefixes. -/
def framed (u v : Bytes) : Bytes := beBytes 4 u.length ++ (u ++ (beBytes 4 v.length ++ v))

theorem serializeRequest_framed (r : RpcRequest) :
    serializeRequest r = beBytes 8 r.id.toNat ++ framed r.method r.payload := by
  simp only [serializeRequest, Encoder.data, Encoder.writeString, writeBytes_buffer,
    writeU64_buffer, List.nil_append, List.append_assoc, framed]

theorem serializeResponse_framed (r : RpcResponse) :
    serializeResponse r = beBytes 8 r.id.toNat ++
      ([if r.ok then 1 else 0] ++ framed r.payload r.errorMessage) := by
  simp only [serializeResponse, Encoder.data, Encoder.writeString, writeBytes_buffer,
    Encoder.writeU8, writeU64_buffer, List.nil_append, List.append_assoc, framed]

theorem parseRequest_framed (r : RpcRequest) (hm : r.method.length < 2 ^ 32)
    (hp : r.payload.length < 2 ^ 32) :
    parseRequest (beBytes 8 r.id.toNat ++ framed r.method r.payload) = some r := by
  rw [parseRequest, framed]
  obtain ⟨d₁, h₁, e₁⟩ := Decoder.next_readU64 (Decoder.at_start _) (β := RpcRequest) _
  rw [e₁]
  obtain ⟨d₂, h₂, e₂⟩ := Decoder.next_readBytes hm h₁ (β := RpcRequest) _
  rw [Decoder.readString, e₂]
  rw [← List.append_nil (beBytes 4 _ ++ r.payload), List.append_assoc] at h₂
  obtain ⟨d₃, h₃, e₃⟩ := Decoder.next_readBytes hp h₂ (β := RpcRequest) _
  rw [e₃, h₃.atEnd]
  rfl

theorem parseRequest_serialize (r : RpcRequest) (hm : r.method.length < 2 ^ 32)
    (hp : r.payload.length < 2 ^ 32) : parseRequest (serializeRequest r) = some r := by
  rw [serializeRequest_framed, parseRequest_framed r hm hp]

/-- Every byte but zero says that the call went well. -/
theorem parseResponse_framed (r : RpcResponse) {okByte : UInt8} (hok : (okByte != 0) = r.ok)
    (hp : r.payload.length < 2 ^ 32) (he : r.errorMessage.length < 2 ^ 32) :
    parseResponse (beBytes 8 r.id.toNat ++ ([okByte] ++ framed r.payload r.errorMessage)) =
      some r := by
  rw [parseResponse, framed]
  obtain ⟨d₁, h₁, e₁⟩ := Decoder.next_readU64 (Decoder.at_start _) (β := RpcResponse) _
  rw [e₁]
  obtain ⟨d₂, h₂, e₂⟩ := Decoder.next_readU8 h₁ (β := RpcResponse) _
  rw [e₂]
  obtain ⟨d₃, h₃, e₃⟩ := Decoder.next_readBytes hp h₂ (β := RpcResponse) _
  rw [e₃]
  rw [← List.append_nil (beBytes 4 _ ++ r.errorMessage), List.append_assoc] at h₃
  obtain ⟨d₄, h₄, e₄⟩ := Decoder.next_readBytes he h₃ (β := RpcResponse) _
  rw [Decoder.readString, e₄, h₄.atEnd, hok]
  rfl

theorem parseResponse_serialize (r : RpcResponse) (hp : r.payload.length < 2 ^ 32)
    (he : r.errorMessage.length < 2 ^ 32) : parseResponse (serializeResponse r) = some r := by
  rw [serializeResponse_framed]
  exact parseResponse_framed r (by cases r.ok <;> rfl) hp he

/-! ## A message is only read back as itself -/

theorem next_eq_some {α β : Type} {r : Option α × Decoder} {k : α → Decoder → Option β} {b : β}
    (h : next r k = some b) : ∃ a, r.1 = some a ∧ k a r.2 = some b := by
  obtain ⟨o, dec⟩ := r
  cases o with
  | none => cases h
  | some a => exact ⟨a, rfl, h⟩

theorem beBytes_inj {k v w : Nat} (hv : v < 256 ^ k) (h : beBytes k v = beBytes k w) :
    v = w % 256 ^ k := by
  have h := congrArg ofBE h
  rw [ofBE_beBytes, ofBE_beBytes, Nat.mod_eq_of_lt hv] at h
  exact h

/-- Prefixes that were cut to 32 bits do not lead to a second reading: the lengths of the rest
would not fit in theirs. -/
theorem framed_inj {u v u' v' : Bytes} (hu : u'.length < 2 ^ 32) (hv : v'.length < 2 ^ 32)
    (h : framed u' v' = framed u v) : u' = u ∧ v' = v := by
  have hpow : (256 : Nat) ^ 4 = 2 ^ 32 := by norm_num
  have hlen := congrArg List.length h
  simp only [framed, List.length_append, length_beBytes] at hlen
  obtain ⟨hu', h⟩ := List.append_inj h (by simp)
  have hmod : u'.length = u.length % 2 ^ 32 := hpow ▸ beBytes_inj (hpow ▸ hu) hu'
  have hul : u'.length = u.length := by
    by_contra hne
    omega
  obtain ⟨hu', hrest⟩ := List.append_inj h hul
  exact ⟨hu', (List.append_inj hrest (by simp)).2⟩

theorem toNat_beBytes_inj {v w : UInt64} (h : beBytes 8 v.toNat = beBytes 8 w.toNat) : v = w := by
  have hv : v.toNat < 256 ^ 8 := lt_of_lt_of_eq v.toNat_lt (by norm_num)
  have hw : w.toNat < 256 ^ 8 := lt_of_lt_of_eq w.toNat_lt (by norm_num)
  exact UInt64.toNat_inj.mp ((beBytes_inj hv h).trans (Nat.mod_eq_of_lt hw))

/-- The bytes of a request that was read. -/
theorem parseRequest_some {bytes : Bytes} {r : RpcRequest} (h : parseRequest bytes = some r) :
    r.method.length < 2 ^ 32 ∧ r.payload.length < 2 ^ 32 ∧
      bytes = beBytes 8 r.id.toNat ++ framed r.method r.payload := by
  obtain ⟨id, hid, h⟩ := next_eq_some h
  obtain ⟨post₁, e₁, h₁⟩ := Decoder.readU64_some (Decoder.at_start _) hid
  obtain ⟨method, hm, h⟩ := next_eq_some h
  obtain ⟨hml, post₂, e₂, h₂⟩ := Decoder.readBytes_some h₁ hm
  obtain ⟨payload, hp, h⟩ := next_eq_some h
  obtain ⟨hpl, post₃, e₃, h₃⟩ := Decoder.readBytes_some h₂ hp
  split at h
  · rename_i hend
    cases h
    obtain rfl := (Decoder.atEnd_iff h₃).mp hend
    rw [e₂, e₃, List.append_nil] at e₁
    exact ⟨hml, hpl, e₁⟩
  · cases h

theorem parseRequest_inj {r r' : RpcRequest} (h : parseRequest (serializeRequest r) = some r') :
    r' = r := by
  obtain ⟨hm, hp, e⟩ := parseRequest_some h
  rw [serializeRequest_framed] at e
  obtain ⟨hid, hf⟩ := List.append_inj e (by simp)
  obtain ⟨hmethod, hpayload⟩ := framed_inj hm hp hf.symm
  obtain ⟨id, method, payload⟩ := r
  obtain ⟨id', method', payload'⟩ := r'
  obtain rfl := toNat_beBytes_inj hid
  rw [show method' = method from hmethod, show payload' = payload from hpayload]

/-- The bytes of a response that was read. -/
theorem parseResponse_some {bytes : Bytes} {r : RpcResponse} (h : parseResponse bytes = some r) :
    r.payload.length < 2 ^ 32 ∧ r.errorMessage.length < 2 ^ 32 ∧
      ∃ okByte : UInt8, (okByte != 0) = r.ok ∧
        bytes = beBytes 8 r.id.toNat ++ ([okByte] ++ framed r.payload r.errorMessage) := by
  obtain ⟨id, hid, h⟩ := next_eq_some h
  obtain ⟨post₁, e₁, h₁⟩ := Decoder.readU64_some (Decoder.at_start _) hid
  obtain ⟨okByte, hok, h⟩ := next_eq_some h
  obtain ⟨post₂, e₂, h₂⟩ := Decoder.readU8_some h₁ hok
  obtain ⟨payload, hp, h⟩ := next_eq_some h
  obtain ⟨hpl, post₃, e₃, h₃⟩ := Decoder.readBytes_some h₂ hp
  obtain ⟨errorMessage, he, h⟩ := next_eq_some h
  obtain ⟨hel, post₄, e₄, h₄⟩ := Decoder.readBytes_some h₃ he
  split at h
  · rename_i hend
    cases h
    obtain rfl := (Decoder.atEnd_iff h₄).mp hend
    rw [e₂, e₃, e₄, List.append_nil] at e₁
    exact ⟨hpl, hel, okByte, rfl, e₁⟩
  · cases h

theorem parseResponse_inj {r r' : RpcResponse} (h : parseResponse (serializeResponse r) = some r') :
    r' = r := by
  obtain ⟨hp, he, okByte, hok, e⟩ := parseResponse_some h
  rw [serializeResponse_framed] at e
  obtain ⟨hid, hf⟩ := List.append_inj e (by simp)
  obtain ⟨hb, hf⟩ := List.append_inj hf (by simp)
  obtain ⟨hpayload, hmessage⟩ := framed_inj hp he hf.symm
  obtain ⟨id, ok, payload, errorMessage⟩ := r
  obtain ⟨id', ok', payload', errorMessage'⟩ := r'
  obtain rfl := toNat_beBytes_inj hid
  obtain rfl := List.singleton_inj.mp hb
  rw [show payload' = payload from hpayload, show errorMessage' = errorMessage from hmessage,
    show ok' = ok from hok.symm.trans (by cases ok <;> rfl)]

/-! ## The simulated network -/

structure FaultConfig where
  dropProbability : ℚ := 0
  duplicateProbability : ℚ := 0
  maxExtraDelayTicks : UInt32 := 0

/-- A message on its way (`from` and `to` are Lean keywords). -/
structure InFlightMessage where
  sender : NodeId
  receiver : NodeId
  bytes : Bytes
  deliverAtTick : UInt64
  deriving DecidableEq, Repr

structure SimulatedNetwork where
  rngState : UInt64
  faults : FaultConfig
  tickCounter : UInt64 := 0
  inFlight : List InFlightMessage := []
  inboxes : NodeId → List (NodeId × Bytes) := fun _ => []
  partitions : List (NodeId × NodeId) := []

/-- The xorshift64* step that the network and every Raft node draw their numbers from: the new
generator state and the number. -/
def xorshift64Star (s : UInt64) : UInt64 × UInt64 :=
  let s := s ^^^ (s >>> 12)
  let s := s ^^^ (s <<< 25)
  let s := s ^^^ (s >>> 27)
  (s, s * 0x2545F4914F6CDD1D)

namespace SimulatedNetwork

/-- The constructor: a zero seed is replaced. -/
def create (seed : UInt64) (faults : FaultConfig) : SimulatedNetwork where
  rngState := if seed == 0 then 0x9E3779B97F4A7C15 else seed
  faults := faults

def nextRandom (net : SimulatedNetwork) : UInt64 × SimulatedNetwork :=
  let (s, r) := xorshift64Star net.rngState
  (r, { net with rngState := s })

/-- The top 53 bits as a fraction of 2^53. -/
def nextUnitDouble (net : SimulatedNetwork) : ℚ × SimulatedNetwork :=
  let (r, net) := net.nextRandom
  (((r >>> 11).toNat : ℚ) / 9007199254740992, net)

def isPartitioned (net : SimulatedNetwork) (a b : NodeId) : Bool :=
  net.partitions.any fun p => (p.1 == a && p.2 == b) || (p.1 == b && p.2 == a)

def partition (net : SimulatedNetwork) (a b : NodeId) : SimulatedNetwork :=
  if net.isPartitioned a b then net else { net with partitions := net.partitions ++ [(a, b)] }

def healPartition (net : SimulatedNetwork) (a b : NodeId) : SimulatedNetwork :=
  { net with partitions := net.partitions.eraseP fun p =>
      (p.1 == a && p.2 == b) || (p.1 == b && p.2 == a) }

/-- A delay of `0..maxExtraDelayTicks`; no number is drawn when no delay is configured. -/
def extraDelay (net : SimulatedNetwork) : UInt64 × SimulatedNetwork :=
  if net.faults.maxExtraDelayTicks > 0 then
    let (r, net) := net.nextRandom
    ((r % (net.faults.maxExtraDelayTicks.toUInt64 + 1)).toUInt32.toUInt64, net)
  else (0, net)

/-- `inFlight.push_back({from, to, message, tickCounter + 1 + delay})`. -/
def enqueue (net : SimulatedNetwork) (sender receiver : NodeId) (message : Bytes) (delay : UInt64) :
    SimulatedNetwork :=
  { net with inFlight := net.inFlight ++ [⟨sender, receiver, message, net.tickCounter + 1 + delay⟩] }

def send (net : SimulatedNetwork) (sender receiver : NodeId) (message : Bytes) : SimulatedNetwork :=
  if net.isPartitioned sender receiver then net
  else
    let (u, net) := net.nextUnitDouble
    if u < net.faults.dropProbability then net
    else
      let (delay, net) := net.extraDelay
      let net := net.enqueue sender receiver message delay
      let (u, net) := net.nextUnitDouble
      if u < net.faults.duplicateProbability then
        let (dupDelay, net) := net.extraDelay
        net.enqueue sender receiver message dupDelay
      else net

/-- Appends a delivered message to its inbox. -/
def deliver (inboxes : NodeId → List (NodeId × Bytes)) (msg : InFlightMessage) :
    NodeId → List (NodeId × Bytes) :=
  Function.update inboxes msg.receiver (inboxes msg.receiver ++ [(msg.sender, msg.bytes)])

def tick (net : SimulatedNetwork) : SimulatedNetwork :=
  let now := net.tickCounter + 1
  { net with
    tickCounter := now
    inboxes := (net.inFlight.filter fun msg => msg.deliverAtTick ≤ now).foldl deliver net.inboxes
    inFlight := net.inFlight.filter fun msg => ¬ msg.deliverAtTick ≤ now }

def receiveAll (net : SimulatedNetwork) (node : NodeId) :
    List (NodeId × Bytes) × SimulatedNetwork :=
  (net.inboxes node, { net with inboxes := Function.update net.inboxes node [] })

end SimulatedNetwork

/-- A message with its addresses. -/
structure Packet where
  sender : NodeId
  receiver : NodeId
  bytes : Bytes
  deriving DecidableEq, Repr

namespace SimulatedNetwork

/-- The calls `send(p.sender, p.receiver, p.bytes)`, in order. -/
def sendAll (net : SimulatedNetwork) (ps : List Packet) : SimulatedNetwork :=
  ps.foldl (fun net p => net.send p.sender p.receiver p.bytes) net

/-- `p` is in flight or waits in an inbox. -/
def packets (net : SimulatedNetwork) : Set Packet :=
  { p | (∃ t, ⟨p.sender, p.receiver, p.bytes, t⟩ ∈ net.inFlight) ∨ (p.sender, p.bytes) ∈ net.inboxes p.receiver }

@[simp] theorem packets_nextUnitDouble (net : SimulatedNetwork) :
    net.nextUnitDouble.2.packets = net.packets := rfl

@[simp] theorem packets_extraDelay (net : SimulatedNetwork) :
    net.extraDelay.2.packets = net.packets := by
  unfold extraDelay; split <;> rfl

theorem packets_enqueue (net : SimulatedNetwork) (s t : NodeId) (m : Bytes) (d : UInt64) :
    (net.enqueue s t m d).packets ⊆ insert ⟨s, t, m⟩ net.packets := by
  rintro ⟨ps, pt, pb⟩ (⟨tk, hp⟩ | hp)
  · rcases List.mem_append.mp hp with h | h
    · exact .inr (.inl ⟨tk, h⟩)
    · left; simp at h; simp [h]
  · exact .inr (.inr hp)

theorem extraDelay_same (net : SimulatedNetwork) :
    net.extraDelay.2.inboxes = net.inboxes ∧ net.extraDelay.2.partitions = net.partitions := by
  unfold extraDelay
  split <;> exact ⟨rfl, rfl⟩

/-- A send only puts messages in flight. -/
theorem send_same (net : SimulatedNetwork) (s t : NodeId) (m : Bytes) :
    (net.send s t m).inboxes = net.inboxes ∧ (net.send s t m).partitions = net.partitions := by
  unfold send
  split
  · exact ⟨rfl, rfl⟩
  · dsimp only
    split
    · exact ⟨rfl, rfl⟩
    · have hx := extraDelay_same
      split
      · exact ⟨(hx _).1.trans (hx _).1, (hx _).2.trans (hx _).2⟩
      · exact hx _

/-- A send adds copies of its own message and nothing else, whatever the faults decide. -/
theorem packets_send (net : SimulatedNetwork) (s t : NodeId) (m : Bytes) :
    (net.send s t m).packets ⊆ insert ⟨s, t, m⟩ net.packets := by
  have hsub : ∀ {A B : Set Packet} {x : Packet}, A ⊆ insert x B → insert x A ⊆ insert x B :=
    fun h => Set.insert_subset (Set.mem_insert _ _) h
  unfold send
  split
  · exact Set.subset_insert _ _
  · dsimp only
    split
    · rw [packets_nextUnitDouble]; exact Set.subset_insert _ _
    · split
      · refine (packets_enqueue _ _ _ _ _).trans (hsub ?_)
        rw [packets_extraDelay, packets_nextUnitDouble]
        refine (packets_enqueue _ _ _ _ _).trans ?_
        rw [packets_extraDelay, packets_nextUnitDouble]
      · rw [packets_nextUnitDouble]
        refine (packets_enqueue _ _ _ _ _).trans ?_
        rw [packets_extraDelay, packets_nextUnitDouble]

theorem packets_sendAll (net : SimulatedNetwork) (ps : List Packet) :
    (net.sendAll ps).packets ⊆ net.packets ∪ { p | p ∈ ps } := by
  induction ps generalizing net with
  | nil => exact fun p hp => .inl hp
  | cons q ps ih =>
    intro p hp
    rcases ih _ hp with h | h
    · rcases packets_send _ _ _ _ h with rfl | h
      · exact .inr List.mem_cons_self
      · exact .inl h
    · exact .inr (List.mem_cons_of_mem _ h)

/-- The messages of an inbox after the deliveries of one tick. -/
theorem mem_deliver {msgs : List InFlightMessage} {inboxes : NodeId → List (NodeId × Bytes)}
    {r : NodeId} {x : NodeId × Bytes} (h : x ∈ msgs.foldl deliver inboxes r) :
    x ∈ inboxes r ∨ ∃ t, (⟨x.1, r, x.2, t⟩ : InFlightMessage) ∈ msgs := by
  induction msgs generalizing inboxes with
  | nil => exact .inl h
  | cons m msgs ih =>
    rcases ih h with h | ⟨t, h⟩
    · by_cases e : r = m.receiver
      · subst e
        rw [deliver, Function.update_self, List.mem_append] at h
        rcases h with h | h
        · exact .inl h
        · simp only [List.mem_singleton] at h
          subst h
          exact .inr ⟨m.deliverAtTick, List.mem_cons_self⟩
      · rw [deliver, Function.update_of_ne e] at h
        exact .inl h
    · exact .inr ⟨t, List.mem_cons_of_mem _ h⟩

theorem packets_tick (net : SimulatedNetwork) : net.tick.packets ⊆ net.packets := by
  rintro ⟨ps, pt, pb⟩ (⟨t, hp⟩ | hp)
  · exact .inl ⟨t, (List.mem_filter.mp hp).1⟩
  · rcases mem_deliver hp with h | ⟨t, h⟩
    · exact .inr h
    · exact .inl ⟨t, (List.mem_filter.mp h).1⟩

theorem packets_receiveAll (net : SimulatedNetwork) (node : NodeId) :
    (net.receiveAll node).2.packets ⊆ net.packets := by
  rintro ⟨ps, pt, pb⟩ (⟨t, hp⟩ | hp)
  · exact .inl ⟨t, hp⟩
  · simp only [receiveAll, Function.update_apply] at hp
    split at hp
    · cases hp
    · exact .inr hp

theorem mem_receiveAll {net : SimulatedNetwork} {node : NodeId} {x : NodeId × Bytes}
    (h : x ∈ (net.receiveAll node).1) : ⟨x.1, node, x.2⟩ ∈ net.packets := .inr h

theorem packets_partition (net : SimulatedNetwork) (a b : NodeId) :
    (net.partition a b).packets = net.packets := by
  unfold partition; split <;> rfl

end SimulatedNetwork

/-! ## The server -/

/-- A server whose handlers act on a state `σ` (the object the closures captured). -/
structure RpcServer (σ : Type) where
  handlers : List (Bytes × (σ → Bytes → σ × Bytes)) := []

namespace RpcServer

variable {σ : Type}

/-- `handlers[name] = handler`: the newest registration of a name wins. -/
def registerMethod (server : RpcServer σ) (name : Bytes) (handler : σ → Bytes → σ × Bytes) :
    RpcServer σ := ⟨(name, handler) :: server.handlers⟩

def handleRequest (server : RpcServer σ) (s : σ) (requestBytes : Bytes) : σ × Bytes :=
  match parseRequest requestBytes with
  | none => (s, serializeResponse ⟨0, false, [], ascii "Malformed request"⟩)
  | some request =>
    match server.handlers.lookup request.method with
    | none =>
      (s, serializeResponse ⟨request.id, false, [], ascii "Unknown method: " ++ request.method⟩)
    | some handler =>
      let (s, resultPayload) := handler s request.payload
      (s, serializeResponse ⟨request.id, true, resultPayload, []⟩)

end RpcServer

/-- One iteration of `pumpServer`: the new state and the `send` of the response. -/
def serveOne {σ : Type} (serverNode : NodeId) (server : RpcServer σ) (s : σ)
    (msg : NodeId × Bytes) : σ × Packet :=
  let (s, response) := server.handleRequest s msg.2
  (s, ⟨serverNode, responsePort msg.1, response⟩)

/-- `pumpServer` on the state behind the handlers: drains the inbox, then answers each message. -/
def pumpServer {σ : Type} (network : SimulatedNetwork) (serverNode : NodeId)
    (server : RpcServer σ) (s : σ) : σ × SimulatedNetwork :=
  let (inbox, network) := network.receiveAll serverNode
  inbox.foldl (fun (s, network) msg =>
    let (s, p) := serveOne serverNode server s msg
    (s, network.send p.sender p.receiver p.bytes)) (s, network)

end Dist
end Techuila
