import Techuila.Dist.Rpc

/-!
# RPC messages and the bytes that are read as them

* `fetchRequest`, `fetchResponse`: the parsers with every access to the buffer checked, `none` where
  one is outside it.
* `framing_exact`: a request is read from its own bytes only, a response from its own up to the
  value of the `ok` byte, and no access is outside the buffer.
* `framing_twice`: a second byte string of one response.
-/

namespace Techuila
namespace Dist

namespace Decoder

/-- The `n` bytes from `offset` on, one access each. -/
def fetch (data : Bytes) (offset : Nat) : Nat → Option Bytes
  | 0 => some []
  | n + 1 => do
    let b ← data[offset]?
    let bs ← fetch data (offset + 1) n
    some (b :: bs)

/-- `readRaw`, access by access. -/
def fetchRaw (n : Nat) (dec : Decoder) : Option (Option Bytes × Decoder) :=
  if dec.failed || dec.offset + n > dec.data.length then some (none, { dec with failed := true })
  else do
    let bs ← fetch dec.data dec.offset n
    some (some bs, { dec with offset := dec.offset + n })

def fetchU8 (dec : Decoder) : Option (Option UInt8 × Decoder) := do
  let (bs, dec) ← dec.fetchRaw 1
  some (bs.map fun bs => bs.headD 0, dec)

def fetchU32 (dec : Decoder) : Option (Option UInt32 × Decoder) := do
  let (bs, dec) ← dec.fetchRaw 4
  some (bs.map fun bs => (bs.getD 0 0).toUInt32 <<< (24 : UInt32) |||
    (bs.getD 1 0).toUInt32 <<< (16 : UInt32) ||| (bs.getD 2 0).toUInt32 <<< (8 : UInt32) |||
    (bs.getD 3 0).toUInt32, dec)

def fetchU64 (dec : Decoder) : Option (Option UInt64 × Decoder) := do
  let (bs, dec) ← dec.fetchRaw 8
  some (bs.map fun bs => bs.foldl (fun (out : UInt64) b => out <<< (8 : UInt64) ||| b.toUInt64) 0,
    dec)

def fetchBytes (dec : Decoder) : Option (Option Bytes × Decoder) := do
  match ← dec.fetchU32 with
  | (none, dec) => some (none, dec)
  | (some len, dec) => dec.fetchRaw len.toNat

/-- The rest `k` of a parser after one read; a failed read ends it, an access outside the buffer ends
everything. -/
def fetchNext {α β : Type} (r : Option (Option α × Decoder))
    (k : α → Decoder → Option (Option β)) : Option (Option β) :=
  match r with
  | none => none
  | some (none, _) => some none
  | some (some a, dec) => k a dec

theorem fetch_eq {data : Bytes} {offset n : Nat} (h : offset + n ≤ data.length) :
    fetch data offset n = some ((data.drop offset).take n) := by
  induction n generalizing offset with
  | zero => simp [fetch]
  | succ n ih =>
    have hlt : offset < data.length := by omega
    rw [fetch, List.getElem?_eq_getElem hlt, ih (by omega), List.drop_eq_getElem_cons hlt,
      List.take_succ_cons]
    rfl

/-- The check in front of the accesses is enough for them. -/
@[simp] theorem fetchRaw_eq (n : Nat) (dec : Decoder) : dec.fetchRaw n = some (dec.readRaw n) := by
  rw [fetchRaw, readRaw]
  split
  · rfl
  · rename_i h
    have hle : dec.offset + n ≤ dec.data.length := by simp_all
    rw [fetch_eq hle]
    rfl

@[simp] theorem fetchU8_eq (dec : Decoder) : dec.fetchU8 = some dec.readU8 := by
  simp [fetchU8, readU8]

@[simp] theorem fetchU32_eq (dec : Decoder) : dec.fetchU32 = some dec.readU32 := by
  simp [fetchU32, readU32]

@[simp] theorem fetchU64_eq (dec : Decoder) : dec.fetchU64 = some dec.readU64 := by
  simp [fetchU64, readU64]

@[simp] theorem fetchBytes_eq (dec : Decoder) : dec.fetchBytes = some dec.readBytes := by
  rw [fetchBytes, fetchU32_eq, readBytes]
  rcases dec.readU32 with ⟨_ | len, dec⟩ <;> simp

theorem fetchNext_eq {α β : Type} (r : Option α × Decoder) {k : α → Decoder → Option (Option β)}
    {k' : α → Decoder → Option β} (h : ∀ a dec, k a dec = some (k' a dec)) :
    fetchNext (some r) k = some (next r k') := by
  obtain ⟨_ | a, dec⟩ := r
  · rfl
  · exact h a dec

end Decoder

open Decoder (fetchNext fetchNext_eq)

def fetchRequest (bytes : Bytes) : Option (Option RpcRequest) :=
  fetchNext (Decoder.fetchU64 ⟨bytes, 0, false⟩) fun id dec =>
  fetchNext dec.fetchBytes fun method dec =>
  fetchNext dec.fetchBytes fun payload dec =>
  some (if dec.atEnd then some ⟨id, method, payload⟩ else none)

def fetchResponse (bytes : Bytes) : Option (Option RpcResponse) :=
  fetchNext (Decoder.fetchU64 ⟨bytes, 0, false⟩) fun id dec =>
  fetchNext dec.fetchU8 fun okByte dec =>
  fetchNext dec.fetchBytes fun payload dec =>
  fetchNext dec.fetchBytes fun errorMessage dec =>
  some (if dec.atEnd then some ⟨id, okByte != 0, payload, errorMessage⟩ else none)

theorem fetchRequest_eq (bytes : Bytes) : fetchRequest bytes = some (parseRequest bytes) := by
  rw [fetchRequest, Decoder.fetchU64_eq]
  refine fetchNext_eq _ fun id dec => ?_
  rw [Decoder.fetchBytes_eq]
  refine fetchNext_eq _ fun method dec => ?_
  rw [Decoder.fetchBytes_eq]
  exact fetchNext_eq _ fun payload dec => rfl

theorem fetchResponse_eq (bytes : Bytes) : fetchResponse bytes = some (parseResponse bytes) := by
  rw [fetchResponse, Decoder.fetchU64_eq]
  refine fetchNext_eq _ fun id dec => ?_
  rw [Decoder.fetchU8_eq]
  refine fetchNext_eq _ fun okByte dec => ?_
  rw [Decoder.fetchBytes_eq]
  refine fetchNext_eq _ fun payload dec => ?_
  rw [Decoder.fetchBytes_eq]
  exact fetchNext_eq _ fun errorMessage dec => rfl

/-! ## The bytes of a message -/

/-- The lengths can be written. -/
def RpcRequest.Fits (r : RpcRequest) : Prop :=
  r.method.length < 2 ^ 32 ∧ r.payload.length < 2 ^ 32

def RpcResponse.Fits (r : RpcResponse) : Prop :=
  r.payload.length < 2 ^ 32 ∧ r.errorMessage.length < 2 ^ 32

theorem parseRequest_iff {bytes : Bytes} {r : RpcRequest} :
    parseRequest bytes = some r ↔ r.Fits ∧ bytes = serializeRequest r := by
  constructor
  · intro h
    obtain ⟨hm, hp, e⟩ := parseRequest_some h
    exact ⟨⟨hm, hp⟩, by rw [e, serializeRequest_framed]⟩
  · rintro ⟨⟨hm, hp⟩, rfl⟩
    exact parseRequest_serialize r hm hp

/-- The `ok` byte is the ninth. -/
theorem set_okByte (r : RpcResponse) (okByte : UInt8) : (serializeResponse r).set 8 okByte =
    beBytes 8 r.id.toNat ++ ([okByte] ++ framed r.payload r.errorMessage) := by
  rw [serializeResponse_framed, List.set_append_right _ _ (by simp), length_beBytes]
  rfl

theorem parseResponse_iff {bytes : Bytes} {r : RpcResponse} :
    parseResponse bytes = some r ↔
      r.Fits ∧ ∃ okByte : UInt8, (okByte ≠ 0 ↔ r.ok = true) ∧
        bytes = (serializeResponse r).set 8 okByte := by
  have hiff : ∀ okByte : UInt8, (okByte ≠ 0 ↔ r.ok = true) ↔ (okByte != 0) = r.ok := by
    intro okByte
    rw [← bne_iff_ne, Bool.coe_iff_coe]
  constructor
  · intro h
    obtain ⟨hp, he, okByte, hok, e⟩ := parseResponse_some h
    exact ⟨⟨hp, he⟩, okByte, (hiff okByte).mpr hok, by rw [e, set_okByte]⟩
  · rintro ⟨⟨hp, he⟩, okByte, hok, rfl⟩
    rw [set_okByte]
    exact parseResponse_framed r ((hiff okByte).mp hok) hp he

/-- A request is read from its own bytes only, a response from its own with any byte for `ok` that is
zero exactly where `ok` is false, and both parsers stay inside the buffer. -/
theorem framing_exact (bytes : Bytes) (request : RpcRequest) (response : RpcResponse) :
    (request.Fits → parseRequest (serializeRequest request) = some request) ∧
    (response.Fits → parseResponse (serializeResponse response) = some response) ∧
    (parseRequest bytes = some request ↔ request.Fits ∧ bytes = serializeRequest request) ∧
    (parseResponse bytes = some response ↔
      response.Fits ∧ ∃ okByte : UInt8, (okByte ≠ 0 ↔ response.ok = true) ∧
        bytes = (serializeResponse response).set 8 okByte) ∧
    fetchRequest bytes = some (parseRequest bytes) ∧
    fetchResponse bytes = some (parseResponse bytes) :=
  ⟨fun h => parseRequest_serialize request h.1 h.2,
    fun h => parseResponse_serialize response h.1 h.2, parseRequest_iff, parseResponse_iff,
    fetchRequest_eq bytes, fetchResponse_eq bytes⟩

/-- A response whose `ok` byte is 2 is read, but written with a 1. -/
theorem framing_twice :
    parseResponse [0, 0, 0, 0, 0, 0, 0, 0, 2, 0, 0, 0, 0, 0, 0, 0, 0] = some ⟨0, true, [], []⟩ ∧
      serializeResponse ⟨0, true, [], []⟩ ≠ [0, 0, 0, 0, 0, 0, 0, 0, 2, 0, 0, 0, 0, 0, 0, 0, 0] := by
  decide

end Dist
end Techuila
