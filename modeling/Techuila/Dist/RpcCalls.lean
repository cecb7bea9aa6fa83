import Mathlib.Logic.Relation
import Techuila.Dist.Rpc

/-!
# Calls of many clients over one network (`RpcClient` of `07-distributed-systems/rpc/rpc.cpp`)

* `RpcClient.call` is the source's call: a request is sent, then each iteration of its loop
  (`RpcClient.poll`) ticks, pumps the server and looks for a response with the request's id.
* `CallSystem.Step`: the clients' calls interleaved iteration by iteration, each given up at any
  time, over a network that may drop, duplicate, delay and reorder what it holds and change its
  faults and partitions at will (`disturb`). `CallSystem.call_run`: a whole `RpcClient.call` is a
  run of these steps.
* `Accounted`: every packet is a request of a started call, the server's answer to one, or was
  answered by the server to itself. `CallSystem.Inv` adds that the ids of a client's calls count up
  from 1; the step lemmas keep it.
* `answers_are_own`: a response that a call accepts answers that call's own request.
-/

namespace Techuila
namespace Dist

inductive CallOutcome
  | success
  | error
  | timedOut
  deriving DecidableEq, Repr

structure CallResult where
  outcome : CallOutcome
  payload : Bytes
  errorMessage : Bytes
  deriving DecidableEq, Repr

/-- What a call returns for a response with its id. -/
def RpcResponse.result (response : RpcResponse) : CallResult :=
  if response.ok then ⟨.success, response.payload, []⟩ else ⟨.error, [], response.errorMessage⟩

structure RpcClient where
  self : NodeId
  serverNode : NodeId
  nextRequestId : RequestId := 1

namespace RpcClient

variable {σ : Type}

/-- The first response to the request `id`; malformed and foreign responses are passed over. -/
def answerIn (id : RequestId) : List (NodeId × Bytes) → Option CallResult
  | [] => none
  | (_, bytes) :: inbox =>
    match parseResponse bytes with
    | none => answerIn id inbox
    | some response =>
      if response.id ≠ id then answerIn id inbox else some response.result

/-- One iteration of the loop of `call`. -/
def poll (client : RpcClient) (server : RpcServer σ) (id : RequestId) (network : SimulatedNetwork)
    (s : σ) : Option CallResult × SimulatedNetwork × σ :=
  let (s, network) := pumpServer network.tick client.serverNode server s
  let (inbox, network) := network.receiveAll (responsePort client.self)
  (answerIn id inbox, network, s)

/-- The loop of `call` with a budget of iterations. -/
def awaitAnswer (client : RpcClient) (server : RpcServer σ) (id : RequestId) :
    Nat → SimulatedNetwork → σ → CallResult × SimulatedNetwork × σ
  | 0, network, s => (⟨.timedOut, [], []⟩, network, s)
  | maxTicks + 1, network, s =>
    match client.poll server id network s with
    | (some result, network, s) => (result, network, s)
    | (none, network, s) => awaitAnswer client server id maxTicks network s

/-- The request of the next call. -/
def request (client : RpcClient) (method payload : Bytes) : RpcRequest :=
  ⟨client.nextRequestId, method, payload⟩

def call (client : RpcClient) (server : RpcServer σ) (method payload : Bytes) (maxTicks : UInt32)
    (network : SimulatedNetwork) (s : σ) : CallResult × RpcClient × SimulatedNetwork × σ :=
  let request := client.request method payload
  let client := { client with nextRequestId := client.nextRequestId + 1 }
  let network := network.send client.self client.serverNode (serializeRequest request)
  let (result, network, s) := client.awaitAnswer server request.id maxTicks.toNat network s
  (result, client, network, s)

end RpcClient

/-! ## What a pump does to the packets -/

theorem inboxes_send (net : SimulatedNetwork) (s t : NodeId) (m : Bytes) :
    (net.send s t m).inboxes = net.inboxes := (net.send_same s t m).1

section Pump

variable {σ : Type} (serverNode : NodeId) (server : RpcServer σ)

/-- The answers to the messages of an inbox. -/
theorem pump_fold (inbox : List (NodeId × Bytes)) (net : SimulatedNetwork) (s : σ) :
    let r := inbox.foldl (fun (s, network) msg =>
      let (s, p) := serveOne serverNode server s msg
      (s, network.send p.sender p.receiver p.bytes)) (s, net)
    r.2.inboxes = net.inboxes ∧
      ∀ p ∈ r.2.packets, p ∈ net.packets ∨
        ∃ msg ∈ inbox, ∃ s', p = (serveOne serverNode server s' msg).2 := by
  induction inbox generalizing net s with
  | nil => exact ⟨rfl, fun p hp => .inl hp⟩
  | cons msg inbox ih =>
    obtain ⟨hin, hpk⟩ := ih (net.send (serveOne serverNode server s msg).2.sender
      (serveOne serverNode server s msg).2.receiver (serveOne serverNode server s msg).2.bytes)
      (serveOne serverNode server s msg).1
    refine ⟨hin.trans (inboxes_send ..), fun p hp => ?_⟩
    rcases hpk p hp with h | ⟨msg', hm, s', rfl⟩
    · rcases SimulatedNetwork.packets_send _ _ _ _ h with rfl | h
      · exact .inr ⟨msg, List.mem_cons_self, s, rfl⟩
      · exact .inl h
    · exact .inr ⟨msg', List.mem_cons_of_mem _ hm, s', rfl⟩

theorem inboxes_pumpServer (net : SimulatedNetwork) (s : σ) :
    (pumpServer net serverNode server s).2.inboxes = Function.update net.inboxes serverNode [] :=
  (pump_fold serverNode server _ _ s).1

theorem packets_pumpServer {net : SimulatedNetwork} {s : σ} {p : Packet}
    (hp : p ∈ (pumpServer net serverNode server s).2.packets) :
    p ∈ net.packets ∨ ∃ msg : NodeId × Bytes, ⟨msg.1, serverNode, msg.2⟩ ∈ net.packets ∧
      ∃ s', p = (serveOne serverNode server s' msg).2 := by
  rcases (pump_fold serverNode server _ _ s).2 p hp with h | ⟨msg, hm, s', rfl⟩
  · exact .inl (net.packets_receiveAll serverNode h)
  · exact .inr ⟨msg, SimulatedNetwork.mem_receiveAll hm, s', rfl⟩

end Pump

/-! ## The answers of a pure server -/

/-- What a call may return: the registered handler's result on the call's own payload, or an error
when there is no handler. A timed out call promises nothing. -/
def Answers (server : RpcServer Unit) (request : RpcRequest) (result : CallResult) : Prop :=
  (result.outcome = .success → ∃ handler, server.handlers.lookup request.method = some handler ∧
    result.payload = (handler () request.payload).2) ∧
  (result.outcome = .error → server.handlers.lookup request.method = none)

/-- The server's answer to a request carries the request's id; id 0 marks a malformed one. -/
theorem response_of_request {server : RpcServer Unit} {request : RpcRequest}
    {response : RpcResponse} (hid : response.id ≠ 0)
    (h : parseResponse (server.handleRequest () (serializeRequest request)).2 = some response) :
    response.id = request.id ∧ Answers server request response.result := by
  unfold RpcServer.handleRequest at h
  cases hp : parseRequest (serializeRequest request) with
  | none =>
    rw [hp] at h
    obtain rfl := parseResponse_inj h
    exact absurd rfl hid
  | some parsed =>
    obtain rfl := parseRequest_inj hp
    rw [hp] at h
    cases hl : server.handlers.lookup parsed.method with
    | none =>
      simp only [hl] at h
      obtain rfl := parseResponse_inj h
      exact ⟨rfl, fun e => absurd e (by simp [RpcResponse.result]), fun _ => hl⟩
    | some handler =>
      simp only [hl] at h
      obtain rfl := parseResponse_inj h
      exact ⟨rfl, fun _ => ⟨handler, hl, rfl⟩, fun e => absurd e (by simp [RpcResponse.result])⟩

theorem answerIn_some {id : RequestId} {inbox : List (NodeId × Bytes)} {result : CallResult}
    (h : RpcClient.answerIn id inbox = some result) :
    ∃ msg ∈ inbox, ∃ response, parseResponse msg.2 = some response ∧ response.id = id ∧
      response.result = result := by
  induction inbox with
  | nil => cases h
  | cons msg inbox ih =>
    unfold RpcClient.answerIn at h
    split at h
    · obtain ⟨msg', hm, rest⟩ := ih h
      exact ⟨msg', List.mem_cons_of_mem _ hm, rest⟩
    · rename_i response hp
      split at h
      · obtain ⟨msg', hm, rest⟩ := ih h
        exact ⟨msg', List.mem_cons_of_mem _ hm, rest⟩
      · rename_i hid
        exact ⟨msg, List.mem_cons_self, response, hp, not_not.mp hid, Option.some_inj.mp h⟩

/-! ## The interleaved calls -/

/-- A client's side of a run: the calls it started, oldest first, the one it is in, and what its
calls returned. -/
structure Caller where
  nextRequestId : RequestId := 1
  started : List RpcRequest := []
  waiting : Option RpcRequest := none
  returned : List (RpcRequest × CallResult) := []

namespace Caller

def start (caller : Caller) (request : RpcRequest) : Caller :=
  { caller with
    nextRequestId := caller.nextRequestId + 1
    started := caller.started ++ [request]
    waiting := some request }

def finish (caller : Caller) (request : RpcRequest) (result : CallResult) : Caller :=
  { caller with waiting := none, returned := caller.returned ++ [(request, result)] }

/-- The calls are sequential with ids from 1 on; while the ids have not come round, every result
is an answer to its own call. -/
structure Inv (server : RpcServer Unit) (caller : Caller) : Prop where
  next : caller.nextRequestId = UInt64.ofNat (caller.started.length + 1)
  ids : ∀ i (h : i < caller.started.length), caller.started[i].id = UInt64.ofNat (i + 1)
  sequential : caller.started = caller.returned.map Prod.fst ++ caller.waiting.toList
  answers : caller.started.length < 2 ^ 64 - 1 → ∀ p ∈ caller.returned, Answers server p.1 p.2

variable {server : RpcServer Unit} {caller : Caller}

theorem Inv.empty : Inv server {} :=
  ⟨rfl, fun i h => absurd h (Nat.not_lt_zero i), rfl, fun _ p hp => by cases hp⟩

theorem Inv.waiting_mem (h : caller.Inv server) {request : RpcRequest}
    (hw : caller.waiting = some request) : request ∈ caller.started := by
  rw [h.sequential, hw]
  exact List.mem_append_right _ List.mem_cons_self

theorem Inv.start (h : caller.Inv server) (hw : caller.waiting = none) (method payload : Bytes) :
    (caller.start ⟨caller.nextRequestId, method, payload⟩).Inv server where
  next := by
    simp only [Caller.start, List.length_append, List.length_singleton, h.next]
    exact (UInt64.ofNat_add _ 1).symm
  ids i hi := by
    simp only [Caller.start, List.length_append, List.length_singleton] at hi
    simp only [Caller.start]
    rcases Nat.lt_succ_iff_lt_or_eq.mp hi with hi | rfl
    · rw [List.getElem_append_left hi]
      exact h.ids i hi
    · rw [List.getElem_append_right (Nat.le_refl _)]
      simp [h.next]
  sequential := by
    have hs := h.sequential
    rw [hw] at hs
    simp only [Option.toList_none, List.append_nil] at hs
    simp only [Caller.start, Option.toList_some, ← hs]
  answers hlen p hp := h.answers (by
    simp only [Caller.start, List.length_append, List.length_singleton] at hlen
    omega) p hp

theorem Inv.finish (h : caller.Inv server) {request : RpcRequest}
    (hw : caller.waiting = some request) {result : CallResult}
    (ha : caller.started.length < 2 ^ 64 - 1 → Answers server request result) :
    (caller.finish request result).Inv server where
  next := h.next
  ids := h.ids
  sequential := by
    have hs := h.sequential
    rw [hw] at hs
    simpa [Caller.finish] using hs
  answers hlen p hp := by
    rcases List.mem_append.mp hp with hp | hp
    · exact h.answers hlen p hp
    · obtain rfl := List.mem_singleton.mp hp
      exact ha hlen

/-- An id of a started call, as a number. -/
theorem Inv.id_toNat (h : caller.Inv server) (hlen : caller.started.length < 2 ^ 64 - 1) {i : Nat}
    (hi : i < caller.started.length) : caller.started[i].id.toNat = i + 1 := by
  rw [h.ids i hi, UInt64.toNat_ofNat_of_lt']
  have : UInt64.size = 2 ^ 64 := rfl
  omega

theorem Inv.id_ne_zero (h : caller.Inv server) (hlen : caller.started.length < 2 ^ 64 - 1)
    {r : RpcRequest} (hr : r ∈ caller.started) : r.id ≠ 0 := by
  obtain ⟨i, hi, rfl⟩ := List.mem_iff_getElem.mp hr
  intro h0
  have := h.id_toNat hlen hi
  rw [h0] at this
  exact absurd this (by simp)

/-- The id tells the calls of a client apart. -/
theorem Inv.id_inj (h : caller.Inv server) (hlen : caller.started.length < 2 ^ 64 - 1)
    {r r' : RpcRequest} (hr : r ∈ caller.started) (hr' : r' ∈ caller.started) (e : r.id = r'.id) :
    r = r' := by
  obtain ⟨i, hi, rfl⟩ := List.mem_iff_getElem.mp hr
  obtain ⟨j, hj, rfl⟩ := List.mem_iff_getElem.mp hr'
  have hij := (h.id_toNat hlen hi).symm.trans ((congrArg UInt64.toNat e).trans (h.id_toNat hlen hj))
  obtain rfl : i = j := Nat.succ_injective hij
  rfl

end Caller

structure CallSystem where
  network : SimulatedNetwork
  callers : NodeId → Caller := fun _ => {}

namespace CallSystem

section Steps

variable (serverNode : NodeId) (server : RpcServer Unit)

/-- The `RpcClient` object of the client `c`. -/
def client (sys : CallSystem) (c : NodeId) : RpcClient :=
  ⟨c, serverNode, (sys.callers c).nextRequestId⟩

def setCaller (sys : CallSystem) (c : NodeId) (caller : Caller) : CallSystem :=
  { sys with callers := Function.update sys.callers c caller }

/-- `c` starts a call. -/
def start (sys : CallSystem) (c : NodeId) (method payload : Bytes) : CallSystem :=
  let request := (sys.client serverNode c).request method payload
  { sys.setCaller c ((sys.callers c).start request) with
    network := sys.network.send c serverNode (serializeRequest request) }

/-- One iteration of the loop of the call that `c` is in. -/
def poll (sys : CallSystem) (c : NodeId) (request : RpcRequest) : CallSystem :=
  let (answer, network, _) := (sys.client serverNode c).poll server request.id sys.network ()
  match answer with
  | none => { sys with network := network }
  | some result =>
    { sys.setCaller c ((sys.callers c).finish request result) with network := network }

/-- The tick budget of the call that `c` is in is exhausted. -/
def timeOut (sys : CallSystem) (c : NodeId) (request : RpcRequest) : CallSystem :=
  sys.setCaller c ((sys.callers c).finish request ⟨.timedOut, [], []⟩)

/-- One step of `clients` and their server. `disturb` is everything the network may do by itself:
deliver, lose, repeat, delay or reorder messages, and change its partitions and faults. -/
inductive Step (clients : Set NodeId) (sys : CallSystem) : CallSystem → Prop
  | start (c : NodeId) (method payload : Bytes) : c ∈ clients → (sys.callers c).waiting = none →
      Step clients sys (sys.start serverNode c method payload)
  | poll (c : NodeId) (request : RpcRequest) : c ∈ clients →
      (sys.callers c).waiting = some request →
      Step clients sys (sys.poll serverNode server c request)
  | timeOut (c : NodeId) (request : RpcRequest) : c ∈ clients →
      (sys.callers c).waiting = some request → Step clients sys (sys.timeOut c request)
  | pump : Step clients sys
      { sys with network := (pumpServer sys.network serverNode server ()).2 }
  | disturb (network : SimulatedNetwork) : network.packets ⊆ sys.network.packets →
      Step clients sys { sys with network := network }

abbrev Run (clients : Set NodeId) : CallSystem → CallSystem → Prop :=
  Relation.ReflTransGen (Step serverNode server clients)

end Steps

/-! ## Every packet belongs to a call -/

section Invariant

variable {serverNode : NodeId} {server : RpcServer Unit} {clients : Set NodeId}

theorem toNat_responsePort (a : NodeId) :
    (responsePort a).toNat = (a.toNat + 0x40000000) % 2 ^ 32 := by
  rw [responsePort, UInt32.toNat_add]
  rfl

theorem responsePort_ne (a : NodeId) : responsePort a ≠ a := by
  intro h
  have hn := congrArg UInt32.toNat h
  have ha := a.toNat_lt
  rw [toNat_responsePort] at hn
  omega

theorem responsePort_inj {a b : NodeId} (h : responsePort a = responsePort b) : a = b := by
  have hn := congrArg UInt32.toNat h
  have ha := a.toNat_lt
  have hb := b.toNat_lt
  rw [toNat_responsePort, toNat_responsePort] at hn
  exact UInt32.toNat_inj.mp (by omega)

/-- The response channel of a client is no client's own id. -/
theorem responsePort_notMem (hlow : ∀ c ∈ clients, c < 0x40000000) {a : NodeId} (ha : a ∈ clients) :
    responsePort a ∉ clients := by
  intro h
  have hlt : (0x40000000 : UInt32).toNat = 0x40000000 := rfl
  have h := UInt32.lt_iff_toNat_lt.mp (hlow _ h)
  have ha := UInt32.lt_iff_toNat_lt.mp (hlow _ ha)
  rw [toNat_responsePort] at h
  omega

/-- Where a packet comes from. The last case is a server that sits on a client's response channel
and so answers its own responses. -/
inductive Accounted (serverNode : NodeId) (server : RpcServer Unit) (clients : Set NodeId)
    (started : NodeId → List RpcRequest) : Packet → Prop
  | request {c : NodeId} {request : RpcRequest} : c ∈ clients → request ∈ started c →
      Accounted serverNode server clients started ⟨c, serverNode, serializeRequest request⟩
  | response {c : NodeId} {request : RpcRequest} : c ∈ clients → request ∈ started c →
      Accounted serverNode server clients started
        ⟨serverNode, responsePort c, (server.handleRequest () (serializeRequest request)).2⟩
  | echo {c : NodeId} {bytes : Bytes} : c ∈ clients → serverNode = responsePort c →
      Accounted serverNode server clients started ⟨serverNode, responsePort serverNode, bytes⟩

theorem Accounted.mono {started started' : NodeId → List RpcRequest}
    (h : ∀ c, started c ⊆ started' c) {p : Packet}
    (hp : Accounted serverNode server clients started p) :
    Accounted serverNode server clients started' p := by
  cases hp with
  | request hc hr => exact .request hc (h _ hr)
  | response hc hr => exact .response hc (h _ hr)
  | echo hc hs => exact .echo hc hs

/-- What the server sends for a message of its inbox. -/
theorem Accounted.serve {started : NodeId → List RpcRequest} {msg : NodeId × Bytes}
    (h : Accounted serverNode server clients started ⟨msg.1, serverNode, msg.2⟩) (s : Unit) :
    Accounted serverNode server clients started (serveOne serverNode server s msg).2 := by
  obtain ⟨sender, bytes⟩ := msg
  generalize hp : (⟨sender, serverNode, bytes⟩ : Packet) = p at h
  cases h with
  | request hc hr =>
    cases hp
    exact .response hc hr
  | response hc hr =>
    injection hp with hs hport _
    rw [hs]
    exact .echo hc hport
  | echo hc hs =>
    injection hp with _ hport _
    exact absurd hport.symm (responsePort_ne _)

structure Inv (serverNode : NodeId) (server : RpcServer Unit) (clients : Set NodeId)
    (sys : CallSystem) : Prop where
  callers : ∀ c, (sys.callers c).Inv server
  packets : ∀ p ∈ sys.network.packets,
    Accounted serverNode server clients (fun c => (sys.callers c).started) p

variable {sys : CallSystem}

theorem Inv.initial {network : SimulatedNetwork} (h : network.packets = ∅) :
    Inv serverNode server clients ⟨network, fun _ => {}⟩ where
  callers _ := .empty
  packets p hp := by
    rw [h] at hp
    cases hp

theorem Inv.pumped (h : Inv serverNode server clients sys) {network : SimulatedNetwork}
    (hsub : network.packets ⊆ sys.network.packets) (s : Unit) :
    ∀ p ∈ (pumpServer network serverNode server s).2.packets,
      Accounted serverNode server clients (fun c => (sys.callers c).started) p := by
  intro p hp
  rcases packets_pumpServer serverNode server hp with hp | ⟨msg, hm, s', rfl⟩
  · exact h.packets p (hsub hp)
  · exact (h.packets _ (hsub hm)).serve s'

theorem started_setCaller {c : NodeId} {caller : Caller}
    (hsub : (sys.callers c).started ⊆ caller.started) (d : NodeId) :
    (sys.callers d).started ⊆ ((sys.setCaller c caller).callers d).started := by
  by_cases e : d = c
  · subst e
    simpa only [CallSystem.setCaller, Function.update_self] using hsub
  · simp only [CallSystem.setCaller, Function.update_of_ne e, List.Subset.refl]

/-- A caller changes its state, having started no fewer calls. -/
theorem Inv.setCaller (h : Inv serverNode server clients sys) {c : NodeId} {caller : Caller}
    (hc : caller.Inv server) (hsub : (sys.callers c).started ⊆ caller.started) :
    Inv serverNode server clients (sys.setCaller c caller) where
  callers d := by
    by_cases e : d = c
    · subst e
      simpa only [CallSystem.setCaller, Function.update_self] using hc
    · simpa only [CallSystem.setCaller, Function.update_of_ne e] using h.callers d
  packets p hp := (h.packets p hp).mono (started_setCaller hsub)

theorem Inv.start (h : Inv serverNode server clients sys) {c : NodeId} (hc : c ∈ clients)
    (hw : (sys.callers c).waiting = none) (method payload : Bytes) :
    Inv serverNode server clients (sys.start serverNode c method payload) := by
  have hs := h.setCaller ((h.callers c).start hw method payload)
    (List.subset_append_left _ _)
  refine ⟨hs.callers, fun p hp => ?_⟩
  rcases SimulatedNetwork.packets_send _ _ _ _ hp with rfl | hp
  · refine .request hc ?_
    simp only [CallSystem.start, CallSystem.setCaller, Function.update_self, Caller.start]
    exact List.mem_append_right _ List.mem_cons_self
  · exact hs.packets p hp

/-- What a client takes from its response channel after a pump: the server has drained its own
inbox, so it is an answer to one of the client's calls. -/
theorem Inv.received (hlow : ∀ c ∈ clients, c < 0x40000000)
    (h : Inv serverNode server clients sys) {c : NodeId} (hc : c ∈ clients) {s : Unit}
    {msg : NodeId × Bytes} (hm : msg ∈ ((pumpServer sys.network.tick serverNode server s).2.receiveAll
      (responsePort c)).1) :
    ∃ request ∈ (sys.callers c).started,
      msg.2 = (server.handleRequest () (serializeRequest request)).2 := by
  obtain ⟨sender, bytes⟩ := msg
  have hne : serverNode ≠ responsePort c := by
    intro e
    simp only [SimulatedNetwork.receiveAll, inboxes_pumpServer, e, Function.update_self] at hm
    cases hm
  have hacc := h.pumped sys.network.packets_tick s _ (SimulatedNetwork.mem_receiveAll hm)
  generalize hp : (⟨sender, responsePort c, bytes⟩ : Packet) = p at hacc
  cases hacc with
  | request =>
    injection hp with _ hport _
    exact absurd hport.symm hne
  | response hd hr =>
    injection hp with _ hport hbytes
    obtain rfl := responsePort_inj hport
    exact ⟨_, hr, hbytes⟩
  | echo hd hs =>
    injection hp with _ hport _
    obtain rfl := responsePort_inj hport
    exact absurd hc (hs ▸ responsePort_notMem hlow hd)

/-- An accepted response answers the call that accepts it. -/
theorem Inv.poll_answers (hlow : ∀ c ∈ clients, c < 0x40000000)
    (h : Inv serverNode server clients sys) {c : NodeId} (hc : c ∈ clients) {request : RpcRequest}
    (hw : (sys.callers c).waiting = some request) {result : CallResult}
    (hr : ((sys.client serverNode c).poll server request.id sys.network ()).1 = some result)
    (hlen : (sys.callers c).started.length < 2 ^ 64 - 1) : Answers server request result := by
  have hcaller := h.callers c
  have hmem := hcaller.waiting_mem hw
  obtain ⟨msg, hm, response, hp, hid, rfl⟩ := answerIn_some hr
  obtain ⟨request', hmem', hbytes⟩ := h.received hlow hc hm
  rw [hbytes] at hp
  have hne : response.id ≠ 0 := hid ▸ hcaller.id_ne_zero hlen hmem
  obtain ⟨hid', hans⟩ := response_of_request hne hp
  obtain rfl := hcaller.id_inj hlen hmem' hmem (hid'.symm.trans hid)
  exact hans

theorem Inv.poll (hlow : ∀ c ∈ clients, c < 0x40000000) (h : Inv serverNode server clients sys)
    {c : NodeId} (hc : c ∈ clients) {request : RpcRequest}
    (hw : (sys.callers c).waiting = some request) :
    Inv serverNode server clients (sys.poll serverNode server c request) := by
  have hpk : ∀ p ∈ ((sys.client serverNode c).poll server request.id sys.network ()).2.1.packets,
      Accounted serverNode server clients (fun c => (sys.callers c).started) p := fun p hp =>
    h.pumped sys.network.packets_tick () p (SimulatedNetwork.packets_receiveAll _ _ hp)
  have hans := fun result => @Inv.poll_answers _ _ _ _ hlow h _ hc _ hw result
  unfold CallSystem.poll
  generalize (sys.client serverNode c).poll server request.id sys.network () = r at hpk hans
  obtain ⟨answer, network, s⟩ := r
  cases answer with
  | none => exact ⟨h.callers, hpk⟩
  | some result =>
    have hsub : (sys.callers c).started ⊆ ((sys.callers c).finish request result).started :=
      List.Subset.refl _
    exact ⟨(h.setCaller ((h.callers c).finish hw (hans result rfl)) hsub).callers,
      fun p hp => (hpk p hp).mono (started_setCaller hsub)⟩

theorem Inv.step (hlow : ∀ c ∈ clients, c < 0x40000000) (h : Inv serverNode server clients sys)
    {sys' : CallSystem} (hs : Step serverNode server clients sys sys') :
    Inv serverNode server clients sys' := by
  cases hs with
  | start c method payload hc hw => exact h.start hc hw method payload
  | poll c request hc hw => exact h.poll hlow hc hw
  | timeOut c request hc hw =>
    exact h.setCaller ((h.callers c).finish hw fun _ =>
      ⟨fun e => (by cases e), fun e => (by cases e)⟩) (List.Subset.refl _)
  | pump => exact ⟨h.callers, h.pumped (fun _ hp => hp) ()⟩
  | disturb network hsub => exact ⟨h.callers, fun p hp => h.packets p (hsub hp)⟩

theorem Inv.run (hlow : ∀ c ∈ clients, c < 0x40000000) (h : Inv serverNode server clients sys)
    {sys' : CallSystem} (hr : Run serverNode server clients sys sys') :
    Inv serverNode server clients sys' := by
  induction hr with
  | refl => exact h
  | tail _ hs ih => exact ih.step hlow hs

/-- Every result that a client got from its calls is an answer to the very call: `request` holds
that call's own method and payload. -/
theorem answers_are_own (hlow : ∀ c ∈ clients, c < 0x40000000) {network : SimulatedNetwork}
    (hempty : network.packets = ∅) (hr : Run serverNode server clients ⟨network, fun _ => {}⟩ sys)
    {c : NodeId} (hcalls : (sys.callers c).started.length < 2 ^ 64 - 1) {k : Nat}
    {request : RpcRequest} {result : CallResult}
    (hk : (sys.callers c).returned[k]? = some (request, result)) :
    (sys.callers c).started[k]? = some request ∧ Answers server request result := by
  have hinv := ((Inv.initial hempty).run hlow hr).callers c
  refine ⟨?_, hinv.answers hcalls _ (List.mem_of_getElem? hk)⟩
  obtain ⟨hlt, -⟩ := List.getElem?_eq_some_iff.mp hk
  rw [hinv.sequential, List.getElem?_append_left (by simpa using hlt), List.getElem?_map, hk]
  rfl

/-- One call of a client over a network without faults. -/
theorem answers_are_own_echo :
    let server : RpcServer Unit := ⟨[(ascii "echo", fun s payload => (s, payload))]⟩
    let request : RpcRequest := ⟨1, ascii "echo", [7]⟩
    let sys := (((⟨.create 1 {}, fun _ => {}⟩ : CallSystem).start 9 1 (ascii "echo") [7]).poll 9
      server 1 request).poll 9 server 1 request
    (sys.callers 1).started[0]? = some request ∧ Answers server request ⟨.success, [7], []⟩ := by
  intro server request sys
  have hrun : Run 9 server {1} ⟨.create 1 {}, fun _ => {}⟩ sys :=
    .tail (.tail (.single (.start 1 (ascii "echo") [7] rfl rfl))
      (.poll 1 request rfl (by decide))) (.poll 1 request rfl (by decide +kernel))
  refine answers_are_own (fun c hc => ?_) ?_ hrun ?_ (k := 0) ?_
  · rw [Set.mem_singleton_iff.mp hc]
    decide
  · exact Set.eq_empty_of_forall_notMem fun p hp => by
      rcases hp with ⟨t, hp⟩ | hp <;> cases hp
  · decide +kernel
  · decide +kernel

end Invariant

/-! ## A whole call is a run of these steps -/

section Call

variable {serverNode : NodeId} {server : RpcServer Unit} {clients : Set NodeId}

/-- The state after the loop of a call of `c` that returned `result`. -/
def returned (sys : CallSystem) (c : NodeId) (request : RpcRequest) (result : CallResult)
    (network : SimulatedNetwork) : CallSystem :=
  { sys.setCaller c ((sys.callers c).finish request result) with network := network }

theorem client_returned (sys : CallSystem) (c : NodeId) (request : RpcRequest)
    (result : CallResult) (network : SimulatedNetwork) :
    (sys.returned c request result network).client serverNode c = sys.client serverNode c := by
  simp only [CallSystem.client, CallSystem.returned, CallSystem.setCaller, Function.update_self,
    Caller.finish]

theorem awaitAnswer_run {c : NodeId} (hc : c ∈ clients) {request : RpcRequest} (maxTicks : Nat)
    {sys : CallSystem} (hw : (sys.callers c).waiting = some request) :
    let (result, network, _) :=
      (sys.client serverNode c).awaitAnswer server request.id maxTicks sys.network ()
    Run serverNode server clients sys (sys.returned c request result network) := by
  induction maxTicks generalizing sys with
  | zero => exact .single (.timeOut c request hc hw)
  | succ n ih =>
    have hs : Step serverNode server clients sys (sys.poll serverNode server c request) :=
      .poll c request hc hw
    unfold CallSystem.poll at hs
    unfold RpcClient.awaitAnswer
    generalize (sys.client serverNode c).poll server request.id sys.network () = r at hs
    obtain ⟨answer, network, s⟩ := r
    cases answer with
    | some result => exact .single hs
    | none => exact .head hs (@ih { sys with network := network } hw)

/-- `RpcClient::call` of the client `c` while no call of `c` is open. -/
theorem call_run {c : NodeId} (hc : c ∈ clients) (sys : CallSystem)
    (hw : (sys.callers c).waiting = none) (method payload : Bytes) (maxTicks : UInt32) :
    let request := (sys.client serverNode c).request method payload
    let (result, client, network, _) :=
      (sys.client serverNode c).call server method payload maxTicks sys.network ()
    let sys' := (sys.start serverNode c method payload).returned c request result network
    Run serverNode server clients sys sys' ∧ sys'.client serverNode c = client := by
  have hclient : (sys.start serverNode c method payload).client serverNode c =
      { sys.client serverNode c with nextRequestId := (sys.callers c).nextRequestId + 1 } := by
    simp only [CallSystem.client, CallSystem.start, CallSystem.setCaller, Function.update_self,
      Caller.start]
  have hwait : ((sys.start serverNode c method payload).callers c).waiting =
      some ((sys.client serverNode c).request method payload) := by
    simp only [CallSystem.start, CallSystem.setCaller, Function.update_self, Caller.start]
  have hloop := @awaitAnswer_run serverNode server _ _ hc _ maxTicks.toNat _ hwait
  rw [hclient] at hloop
  exact ⟨.head (.start c method payload hc hw) hloop, (client_returned ..).trans hclient⟩

end Call

end CallSystem

end Dist
end Techuila
