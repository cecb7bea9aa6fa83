import Techuila.Dist.Rpc
import Techuila.Storage.Wal

/-!
# The key/value store (`08-storage/kv/kv_store.cpp`)

The map is rebuilt from the log when the store is opened; every mutation is a record first. A key
is a byte string.

* `decodeRecord_encode`: a record of less than 2³² bytes decodes to its mutation.
* `open_records`: opening a log of whole records, with a tail that holds none, replays them.
* `KVStore.Synced`: the map is what the log replays to, so that opening the log again gives the
  store (`Synced.open_eq`).
-/

namespace Techuila
namespace Storage

open Techuila.Dist (Bytes Encoder Decoder)
open Techuila.Dist.Decoder (next)

/-- The contents of the map. -/
abbrev Data := Bytes → Option Bytes

/-- A mutation. -/
inductive Op where
  | put (key value : Bytes)
  | remove (key : Bytes)
  deriving DecidableEq, Repr

def OP_PUT : UInt8 := 0
def OP_DELETE : UInt8 := 1

def encodePut (key value : Bytes) : Bytes :=
  (((({} : Encoder).writeU8 OP_PUT).writeString key).writeBytes value).data

def encodeDelete (key : Bytes) : Bytes :=
  ((({} : Encoder).writeU8 OP_DELETE).writeString key).data

namespace Op

/-- The payload of the record of a mutation. -/
def encode : Op → Bytes
  | put key value => encodePut key value
  | remove key => encodeDelete key

def apply (data : Data) : Op → Data
  | put key value => Function.update data key (some value)
  | remove key => Function.update data key none

end Op

/-- What `applyRecord` reads from a record; a malformed one is ignored. -/
def decodeRecord (record : Bytes) : Option Op :=
  next (Decoder.readU8 ⟨record, 0, false⟩) fun opType dec =>
  next dec.readString fun key dec =>
  if opType = OP_PUT then
    next dec.readBytes fun value dec =>
    if dec.atEnd then some (.put key value) else none
  else if opType = OP_DELETE then
    if dec.atEnd then some (.remove key) else none
  else none

def applyRecord (data : Data) (record : Bytes) : Data :=
  match decodeRecord record with
  | none => data
  | some op => op.apply data

/-- The map after the mutations, from an empty one. -/
def replayOps (ops : List Op) : Data := ops.foldl Op.apply fun _ => none

structure KVStore where
  file : Bytes
  data : Data

namespace KVStore

/-- The constructor, on a log file with these bytes. -/
def «open» (file : Bytes) : KVStore :=
  ⟨file, (WriteAheadLog.recoverRecords file).foldl applyRecord fun _ => none⟩

/-- `put` and `remove`: the record is appended, and the map changes if that succeeded. -/
def mutate (opens : Bool) (kv : KVStore) (op : Op) : Bool × KVStore :=
  match WriteAheadLog.append opens kv.file op.encode with
  | (false, file) => (false, { kv with file := file })
  | (true, file) => (true, ⟨file, op.apply kv.data⟩)

def put (opens : Bool) (kv : KVStore) (key value : Bytes) : Bool × KVStore :=
  kv.mutate opens (.put key value)

def remove (opens : Bool) (kv : KVStore) (key : Bytes) : Bool × KVStore :=
  kv.mutate opens (.remove key)

def get (kv : KVStore) (key : Bytes) : Option Bytes := kv.data key

end KVStore

/-! ## Records decode -/

theorem encodePut_eq (key value : Bytes) : encodePut key value = [OP_PUT] ++ (beBytes 4 key.length ++ (key ++
      (beBytes 4 value.length ++ (value ++ [])))) := by
  simp only [encodePut, Encoder.data, Encoder.writeString, Dist.writeBytes_buffer,
    Encoder.writeU8, List.nil_append, List.append_nil,
    List.append_assoc]

theorem encodeDelete_eq (key : Bytes) : encodeDelete key = [OP_DELETE] ++ (beBytes 4 key.length ++ (key ++ [])) := by
  simp only [encodeDelete, Encoder.data, Encoder.writeString, Dist.writeBytes_buffer,
    Encoder.writeU8, List.nil_append, List.append_nil]

theorem length_encodePut (key value : Bytes) :
    (encodePut key value).length = 9 + key.length + value.length := by
  simp only [encodePut, Encoder.data, Encoder.writeString, Encoder.writeBytes, Encoder.writeU8,
    Dist.writeU32_buffer, List.nil_append, List.length_append, List.length_cons, List.length_nil,
    length_beBytes]
  omega

theorem length_encodeDelete (key : Bytes) : (encodeDelete key).length = 5 + key.length := by
  simp only [encodeDelete, Encoder.data, Encoder.writeString, Encoder.writeBytes, Encoder.writeU8,
    Dist.writeU32_buffer, List.nil_append, List.length_append, List.length_cons, List.length_nil,
    length_beBytes]

theorem decodeRecord_encode (op : Op) (h : op.encode.length < 2 ^ 32) :
    decodeRecord op.encode = some op := by
  cases op with
  | put key value =>
    have hlen := length_encodePut key value
    have h : (encodePut key value).length < 2 ^ 32 := h
    show decodeRecord (encodePut key value) = _
    have hk : key.length < 2 ^ 32 := by omega
    have hv : value.length < 2 ^ 32 := by omega
    rw [encodePut_eq, decodeRecord]
    obtain ⟨d₁, h₁, e₁⟩ := Decoder.next_readU8 (Decoder.at_start _) (β := Op) _
    rw [e₁]
    obtain ⟨d₂, h₂, e₂⟩ := Decoder.next_readBytes hk h₁ (β := Op) _
    rw [Decoder.readString, e₂, if_pos rfl]
    obtain ⟨d₃, h₃, e₃⟩ := Decoder.next_readBytes hv h₂ (β := Op) _
    rw [e₃, h₃.atEnd]
    rfl
  | remove key =>
    have hlen := length_encodeDelete key
    have h : (encodeDelete key).length < 2 ^ 32 := h
    show decodeRecord (encodeDelete key) = _
    have hk : key.length < 2 ^ 32 := by omega
    rw [encodeDelete_eq, decodeRecord]
    obtain ⟨d₁, h₁, e₁⟩ := Decoder.next_readU8 (Decoder.at_start _) (β := Op) _
    rw [e₁]
    obtain ⟨d₂, h₂, e₂⟩ := Decoder.next_readBytes hk h₁ (β := Op) _
    rw [Decoder.readString, e₂, if_neg (by decide), if_pos rfl, h₂.atEnd]
    rfl

/-! ## Opening a log -/

/-- The bytes of the records of mutations. -/
def logBytes (ops : List Op) : Bytes := (ops.map fun op => recordBytes op.encode).flatten

theorem logBytes_append (ops ops' : List Op) :
    logBytes (ops ++ ops') = logBytes ops ++ logBytes ops' := by
  simp [logBytes]

theorem applyRecord_encode (data : Data) {op : Op} (h : op.encode.length < 2 ^ 32) :
    applyRecord data op.encode = op.apply data := by
  rw [applyRecord, decodeRecord_encode op h]

theorem foldl_applyRecord {ops : List Op} (h : ∀ op ∈ ops, op.encode.length < 2 ^ 32)
    (data : Data) : (ops.map Op.encode).foldl applyRecord data = ops.foldl Op.apply data := by
  induction ops generalizing data with
  | nil => rfl
  | cons op ops ih =>
    rw [List.map_cons, List.foldl_cons, List.foldl_cons,
      applyRecord_encode data (h op List.mem_cons_self)]
    exact ih (fun op hop => h op (List.mem_cons_of_mem _ hop)) _

theorem recoverRecords_logBytes {ops : List Op} (h : ∀ op ∈ ops, op.encode.length < 2 ^ 32)
    {tail : Bytes} (ht : WriteAheadLog.readRecord tail = none) :
    WriteAheadLog.recoverRecords (logBytes ops ++ tail) = ops.map Op.encode := by
  have hf : List.Forall₂ WriteAheadLog.reader.Frames (ops.map Op.encode)
      (ops.map fun op => recordBytes op.encode) := by
    induction ops with
    | nil => exact .nil
    | cons op ops ih =>
      exact .cons (WriteAheadLog.readRecord_record (h op List.mem_cons_self))
        (ih fun op hop => h op (List.mem_cons_of_mem _ hop))
  rw [WriteAheadLog.recoverRecords, logBytes, RecordReader.recover_frames hf,
    RecordReader.recover_stop ht, List.append_nil]

/-- Opening a log of whole records replays their mutations. -/
theorem open_records {ops : List Op} (h : ∀ op ∈ ops, op.encode.length < 2 ^ 32) {tail : Bytes}
    (ht : WriteAheadLog.readRecord tail = none) :
    (KVStore.open (logBytes ops ++ tail)).data = replayOps ops := by
  rw [KVStore.open, recoverRecords_logBytes h ht, foldl_applyRecord h, replayOps]

/-! ## Stores in step with their log -/

namespace KVStore

/-- The log is whole records, and the map is what they replay to. -/
def Synced (kv : KVStore) : Prop :=
  ∃ ops, kv.file = logBytes ops ∧ (∀ op ∈ ops, op.encode.length < 2 ^ 32) ∧ kv.data = replayOps ops

theorem Synced.open_eq {kv : KVStore} (h : kv.Synced) : KVStore.open kv.file = kv := by
  obtain ⟨ops, hf, hl, hd⟩ := h
  have hdata := open_records hl (show WriteAheadLog.readRecord [] = none from rfl)
  rw [List.append_nil, ← hf, ← hd] at hdata
  obtain ⟨file, data⟩ := kv
  exact congrArg (KVStore.mk file) hdata

theorem open_nil : KVStore.open [] = ⟨[], fun _ => none⟩ :=
  congrArg (KVStore.mk []) (open_records (List.forall_mem_nil fun op : Op => op.encode.length < 2 ^ 32)
    (show WriteAheadLog.readRecord [] = none from rfl))

theorem synced_empty : (KVStore.open []).Synced := ⟨[], rfl, nofun, congrArg KVStore.data open_nil⟩

theorem put_eq (kv : KVStore) (key value : Bytes) : (kv.put true key value).2 =
    ⟨kv.file ++ recordBytes (Op.put key value).encode,
      Function.update kv.data key (some value)⟩ := rfl

theorem Synced.put {kv : KVStore} (h : kv.Synced) {key value : Bytes}
    (hl : (Op.put key value).encode.length < 2 ^ 32) : (kv.put true key value).2.Synced := by
  obtain ⟨ops, hf, hops, hd⟩ := h
  refine ⟨ops ++ [.put key value], ?_, fun op hop => ?_, ?_⟩
  · rw [put_eq, logBytes_append, ← hf]
    simp [logBytes]
  · rcases List.mem_append.mp hop with hop | hop
    · exact hops op hop
    · obtain rfl := List.mem_singleton.mp hop
      exact hl
  · rw [put_eq, replayOps, List.foldl_append, ← replayOps, ← hd]
    rfl

/-- The store after a list of puts that all succeed. -/
def putAll (kv : KVStore) (puts : List (Bytes × Bytes)) : KVStore :=
  puts.foldl (fun kv p => (kv.put true p.1 p.2).2) kv

theorem Synced.putAll {kv : KVStore} (h : kv.Synced) {puts : List (Bytes × Bytes)}
    (hl : ∀ p ∈ puts, (Op.put p.1 p.2).encode.length < 2 ^ 32) : (kv.putAll puts).Synced := by
  induction puts generalizing kv with
  | nil => exact h
  | cons p puts ih =>
    exact ih (h.put (hl p List.mem_cons_self)) fun p hp => hl p (List.mem_cons_of_mem _ hp)

end KVStore

end Storage
end Techuila
