import Techuila.L1.Block
import Techuila.Storage.KvStore

/-!
# The chain (`23-blockchain/l1/chain.cpp`)

The members that a call changes, and the puts that it makes, in order; every put succeeds. Heights
wrap around.

* `Chain.open`: the constructor on a log file. `Chain.submitTransaction`, `Chain.produceBlock`.
* `Event`, `State.step`: the life of a chain, with crashes between two puts.
-/

namespace Techuila
namespace L1

open Techuila.Dist (Bytes Encoder Decoder ascii)
open Storage (KVStore)

/-- A key and a value that `kv.put` is called with. -/
abbrev Put := Bytes × Bytes

def blockKey (height : UInt64) : Bytes := ascii ("block:" ++ toString height.toNat)

def heightKey : Bytes := ascii "height"
def tipKey : Bytes := ascii "tip"
def snapshotKey : Bytes := ascii "state_snapshot"

structure Chain where
  kv : KVStore
  ledger : Ledger := {}
  pending : List Transaction := []
  currentHeight : UInt64 := 0
  currentTip : Hash32 := ZERO_HASH32

/-- The bytes of the snapshot; the number of accounts is cast to `uint32_t`. -/
def encodeSnapshot (ledger : Ledger) : Bytes :=
  (ledger.snapshot.foldl (fun encoder e =>
      ((encoder.writeBytes e.1.val).writeU64 e.2.balance).writeU64 e.2.nonce)
    (({} : Encoder).writeU32 (UInt32.ofNat ledger.snapshot.length))).data

def persistBlock (block : Block) : Put := (blockKey block.header.height, serializeBlock block)

/-- The three puts, in order. -/
def persistSnapshotAndTip (currentHeight : UInt64) (currentTip : Hash32) (ledger : Ledger) :
    List Put :=
  [(heightKey, (({} : Encoder).writeU64 currentHeight).data), (tipKey, currentTip.val),
    (snapshotKey, encodeSnapshot ledger)]

/-- The loop over `n` snapshot entries: a failed read ends it, a wrong address is skipped. -/
def readEntries : Nat → Decoder → List (Address × AccountState)
  | 0, _ => []
  | n + 1, dec =>
    match dec.readBytes with
    | (none, _) => []
    | (some addrBytes, dec) =>
      match dec.readU64 with
      | (none, _) => []
      | (some balance, dec) =>
        match dec.readU64 with
        | (none, _) => []
        | (some nonce, dec) =>
          match FixedBytes.ofVector 20 addrBytes with
          | none => readEntries n dec
          | some addr => (addr, ⟨balance, nonce⟩) :: readEntries n dec

def readSnapshot (bytes : Bytes) : List (Address × AccountState) :=
  match Decoder.readU32 ⟨bytes, 0, false⟩ with
  | (none, _) => []
  | (some count, dec) => readEntries count.toNat dec

/-- The genesis block. -/
def genesis : Block :=
  ⟨⟨0, ZERO_HASH32, ({} : Ledger).computeStateRoot, computeTxRoot []⟩, []⟩

namespace Chain

/-- `initializeGenesisOrLoad` where the store has a height. -/
def load (kv : KVStore) (heightBytes : Bytes) : Chain where
  kv := kv
  currentHeight := (Decoder.readU64 ⟨heightBytes, 0, false⟩).1.getD 0
  currentTip := ((kv.get tipKey).bind (FixedBytes.ofVector 32)).getD ZERO_HASH32
  ledger := match kv.get snapshotKey with
    | none => {}
    | some bytes => Ledger.loadSnapshot (readSnapshot bytes)

/-- The puts of the genesis block. -/
def genesisPuts : List Put :=
  persistBlock genesis :: persistSnapshotAndTip 0 (blockHash genesis.header) {}

/-- The puts that the constructor makes. -/
def openPuts (kv : KVStore) : List Put :=
  match kv.get heightKey with
  | some _ => []
  | none => genesisPuts

/-- The constructor, on a log file with these bytes. -/
def «open» (file : Bytes) : Chain :=
  let kv := KVStore.open file
  match kv.get heightKey with
  | some heightBytes => load kv heightBytes
  | none => { kv := kv.putAll genesisPuts, currentTip := blockHash genesis.header }

def submitTransaction (chain : Chain) (tx : Transaction) : TxResult × Chain :=
  match chain.ledger.apply tx with
  | (.ok, ledger) => (.ok, { chain with ledger := ledger, pending := chain.pending ++ [tx] })
  | (result, ledger) => (result, { chain with ledger := ledger })

theorem submit_ok {chain : Chain} {tx : Transaction} (h : (chain.ledger.apply tx).1 = .ok) :
    chain.submitTransaction tx = (.ok, { chain with
      ledger := (chain.ledger.apply tx).2, pending := chain.pending ++ [tx] }) := by
  rw [submitTransaction, show chain.ledger.apply tx = (.ok, _) from Prod.ext h rfl]

theorem submit_failed {chain : Chain} {tx : Transaction} (h : (chain.ledger.apply tx).1 ≠ .ok) :
    chain.submitTransaction tx = ((chain.ledger.apply tx).1, chain) := by
  have hl := Ledger.apply_failed h
  unfold submitTransaction
  split
  · rename_i e
    rw [e] at h
    exact absurd rfl h
  · rename_i e
    rw [e] at hl ⊢
    subst hl
    rfl

/-- The block that `produceBlock` makes. -/
def nextBlock (chain : Chain) : Block :=
  ⟨⟨chain.currentHeight + 1, chain.currentTip, chain.ledger.computeStateRoot,
    computeTxRoot chain.pending⟩, chain.pending⟩

/-- The puts of `produceBlock`. -/
def produceBlockPuts (chain : Chain) : List Put :=
  persistBlock chain.nextBlock :: persistSnapshotAndTip (chain.currentHeight + 1)
    (blockHash chain.nextBlock.header) chain.ledger

def produceBlock (chain : Chain) : Block × Chain :=
  (chain.nextBlock,
    { chain with
      kv := chain.kv.putAll chain.produceBlockPuts
      currentHeight := chain.currentHeight + 1
      currentTip := blockHash chain.nextBlock.header
      pending := [] })

theorem produceBlock_snd (chain : Chain) : chain.produceBlock.2 =
    ⟨chain.kv.putAll chain.produceBlockPuts, chain.ledger, [], chain.currentHeight + 1,
      blockHash chain.nextBlock.header⟩ := rfl

def getBlock (chain : Chain) (atHeight : UInt64) : Option Block :=
  (chain.kv.get (blockKey atHeight)).bind parseBlock

end Chain

/-! ## The life of a chain -/

/-- What happens to a chain. A crash leaves the first `puts` puts of the call that it interrupts. -/
inductive Event where
  | «open»
  | crashOpen (puts : Nat)
  | submit (tx : Transaction)
  | produce
  | crashProduce (puts : Nat)
  | close

/-- A log file without a process, or a running chain. -/
inductive State where
  | closed (file : Bytes)
  | running (chain : Chain)

namespace State

/-- An event that does not apply changes nothing. -/
def step : State → Event → State
  | closed file, .open => running (Chain.open file)
  | closed file, .crashOpen n =>
    let kv := KVStore.open file
    closed (kv.putAll ((Chain.openPuts kv).take n)).file
  | running chain, .submit tx => running (chain.submitTransaction tx).2
  | running chain, .produce => running chain.produceBlock.2
  | running chain, .crashProduce n =>
    closed (chain.kv.putAll (chain.produceBlockPuts.take n)).file
  | running chain, .close => closed chain.kv.file
  | s, _ => s

/-- A run from an empty storage. -/
def run (events : List Event) : State := events.foldl step (closed [])

/-- Every event of a run meets a condition on the state that it happens in. -/
def Along (cond : State → Event → Prop) : State → List Event → Prop
  | _, [] => True
  | s, e :: events => cond s e ∧ Along cond (s.step e) events

end State

end L1
end Techuila
