import Techuila.Dist.Rpc
import Techuila.L1.Ledger

/-!
# Blocks (`23-blockchain/l1/block.cpp`)

* `parseBlock_serialize`: a block with fewer than 2³² transactions reads back.
* `parseBlock_serialize_none`: one with 2³² transactions does not.
-/

namespace Techuila
namespace L1

open Techuila.Dist (Bytes Encoder Decoder)
open Techuila.Dist.Decoder (next)
open Crypto (Sha256)

structure BlockHeader where
  height : UInt64
  previousHash : Hash32
  stateRoot : Hash32
  txRoot : Hash32
  deriving DecidableEq

structure Block where
  header : BlockHeader
  transactions : List Transaction
  deriving DecidableEq

def serializeBlockHeader (header : BlockHeader) : Bytes :=
  ((((({} : Encoder).writeU64 header.height).writeBytes header.previousHash.val).writeBytes
    header.stateRoot.val).writeBytes header.txRoot.val).data

def parseBlockHeader (bytes : Bytes) : Option BlockHeader :=
  next (Decoder.readU64 ⟨bytes, 0, false⟩) fun height dec =>
  next dec.readBytes fun prevBytes dec =>
  next dec.readBytes fun stateBytes dec =>
  next dec.readBytes fun txBytes dec =>
  if dec.atEnd then do
    let previousHash ← FixedBytes.ofVector 32 prevBytes
    let stateRoot ← FixedBytes.ofVector 32 stateBytes
    let txRoot ← FixedBytes.ofVector 32 txBytes
    some ⟨height, previousHash, stateRoot, txRoot⟩
  else none

/-- The number of transactions is cast to `uint32_t`. -/
def serializeBlock (block : Block) : Bytes :=
  let encoder := ({} : Encoder).writeBytes (serializeBlockHeader block.header)
  let encoder := encoder.writeU32 (UInt32.ofNat block.transactions.length)
  (block.transactions.foldl (fun encoder tx => encoder.writeBytes (serializeTransaction tx))
    encoder).data

/-- The loop over `n` transactions. -/
def parseTransactions : Nat → Decoder → Option (List Transaction × Decoder)
  | 0, dec => some ([], dec)
  | n + 1, dec =>
    next dec.readBytes fun txBytes dec => do
      let tx ← parseTransaction txBytes
      let (txs, dec) ← parseTransactions n dec
      some (tx :: txs, dec)

def parseBlock (bytes : Bytes) : Option Block :=
  next (Decoder.readBytes ⟨bytes, 0, false⟩) fun headerBytes dec => do
    let header ← parseBlockHeader headerBytes
    next dec.readU32 fun txCount dec => do
      let (transactions, dec) ← parseTransactions txCount.toNat dec
      if dec.atEnd then some ⟨header, transactions⟩ else none

def blockHash (header : BlockHeader) : Hash32 := sha256Hash (serializeBlockHeader header)

def computeTxRoot (transactions : List Transaction) : Hash32 :=
  finishHash (transactions.foldl (fun hasher tx => hasher.update (serializeTransaction tx))
    ({} : Sha256))

/-! ## Blocks read back -/

theorem serializeBlockHeader_eq (h : BlockHeader) : serializeBlockHeader h =
    beBytes 8 h.height.toNat ++ (beBytes 4 h.previousHash.val.length ++ (h.previousHash.val ++
      (beBytes 4 h.stateRoot.val.length ++ (h.stateRoot.val ++
        (beBytes 4 h.txRoot.val.length ++ (h.txRoot.val ++ [])))))) := by
  simp only [serializeBlockHeader, Encoder.data, Dist.writeU64_buffer,
    Dist.writeBytes_buffer, List.nil_append, List.append_nil, List.append_assoc]

theorem length_serializeBlockHeader (h : BlockHeader) : (serializeBlockHeader h).length = 116 := by
  simp only [serializeBlockHeader_eq, List.length_append, length_beBytes, List.length_nil,
    h.previousHash.2, h.stateRoot.2, h.txRoot.2]

theorem parseBlockHeader_serialize (h : BlockHeader) :
    parseBlockHeader (serializeBlockHeader h) = some h := by
  have hl : ∀ a : Hash32, a.val.length < 2 ^ 32 := fun a => by rw [a.2]; decide
  rw [serializeBlockHeader_eq, parseBlockHeader]
  obtain ⟨d₁, h₁, e₁⟩ := Decoder.next_readU64 (Decoder.at_start _) (β := BlockHeader) _
  rw [e₁]
  obtain ⟨d₂, h₂, e₂⟩ := Decoder.next_readBytes (hl _) h₁ (β := BlockHeader) _
  rw [e₂]
  obtain ⟨d₃, h₃, e₃⟩ := Decoder.next_readBytes (hl _) h₂ (β := BlockHeader) _
  rw [e₃]
  obtain ⟨d₄, h₄, e₄⟩ := Decoder.next_readBytes (hl _) h₃ (β := BlockHeader) _
  rw [e₄, h₄.atEnd, if_pos rfl, FixedBytes.ofVector_val, FixedBytes.ofVector_val,
    FixedBytes.ofVector_val]
  rfl

/-- The bytes of the transactions, each with its length. -/
def txsBytes (txs : List Transaction) : Bytes :=
  (txs.map fun tx => beBytes 4 (serializeTransaction tx).length ++ serializeTransaction tx).flatten

theorem length_tx_lt (tx : Transaction) : (serializeTransaction tx).length < 2 ^ 32 := by
  rw [length_serializeTransaction]
  decide

theorem length_txsBytes (txs : List Transaction) : (txsBytes txs).length = 68 * txs.length := by
  induction txs with
  | nil => rfl
  | cons tx txs ih =>
    rw [txsBytes, List.map_cons, List.flatten_cons, ← txsBytes, List.length_append, ih,
      List.length_append, length_beBytes, length_serializeTransaction, List.length_cons]
    omega

theorem foldl_writeTransactions (txs : List Transaction) (enc : Encoder) :
    (txs.foldl (fun encoder tx => encoder.writeBytes (serializeTransaction tx)) enc).buffer =
      enc.buffer ++ txsBytes txs := by
  induction txs generalizing enc with
  | nil => simp [txsBytes]
  | cons tx txs ih =>
    rw [List.foldl_cons, ih, Dist.writeBytes_buffer]
    simp [txsBytes]

theorem serializeBlock_eq (block : Block) : serializeBlock block =
    beBytes 4 (serializeBlockHeader block.header).length ++ (serializeBlockHeader block.header ++
      (beBytes 4 (UInt32.ofNat block.transactions.length).toNat ++
        txsBytes block.transactions)) := by
  simp only [serializeBlock, Encoder.data, foldl_writeTransactions, Dist.writeU32_buffer,
    Dist.writeBytes_buffer, List.nil_append, List.append_assoc]

theorem length_serializeBlock (block : Block) :
    (serializeBlock block).length = 124 + 68 * block.transactions.length := by
  simp only [serializeBlock_eq, List.length_append, length_beBytes, length_serializeBlockHeader,
    length_txsBytes]
  omega

theorem parseTransactions_at (txs : List Transaction) {pre post : Bytes} {dec : Decoder}
    (h : Decoder.At pre (txsBytes txs ++ post) dec) :
    ∃ dec', parseTransactions txs.length dec = some (txs, dec') ∧
      Decoder.At (pre ++ txsBytes txs) post dec' := by
  induction txs generalizing pre dec with
  | nil => exact ⟨dec, rfl, by simpa [txsBytes] using h⟩
  | cons tx txs ih =>
    have hcons : txsBytes (tx :: txs) =
        beBytes 4 (serializeTransaction tx).length ++ serializeTransaction tx ++ txsBytes txs := rfl
    rw [hcons, List.append_assoc, List.append_assoc] at h
    obtain ⟨d₁, h₁, e₁⟩ :=
      Decoder.next_readBytes (length_tx_lt tx) h (β := List Transaction × Decoder) _
    obtain ⟨d₂, e₂, h₂⟩ := ih h₁
    refine ⟨d₂, ?_, by rw [hcons, ← List.append_assoc]; exact h₂⟩
    rw [List.length_cons, parseTransactions, e₁, parseTransaction_serialize]
    simp only [Option.bind_eq_bind, Option.bind_some, e₂]

/-- What `parseBlock` does up to the transactions of a serialized block. -/
theorem parseBlock_start (block : Block) : ∃ pre dec,
    Decoder.At pre (txsBytes block.transactions) dec ∧
    parseBlock (serializeBlock block) =
      (parseTransactions (UInt32.ofNat block.transactions.length).toNat dec).bind fun r =>
        if r.2.atEnd then some ⟨block.header, r.1⟩ else none := by
  have hl : (serializeBlockHeader block.header).length < 2 ^ 32 := by
    rw [length_serializeBlockHeader]
    decide
  rw [serializeBlock_eq, parseBlock]
  obtain ⟨d₁, h₁, e₁⟩ := Decoder.next_readBytes hl (Decoder.at_start _) (β := Block) _
  rw [e₁, parseBlockHeader_serialize]
  obtain ⟨hr, h₂⟩ := Decoder.readU32_at h₁
  refine ⟨_, _, h₂, ?_⟩
  simp only [Option.bind_eq_bind, Option.bind_some]
  exact Decoder.next_eq hr _

theorem parseBlock_serialize {block : Block} (h : block.transactions.length < 2 ^ 32) :
    parseBlock (serializeBlock block) = some block := by
  have hn : (UInt32.ofNat block.transactions.length).toNat = block.transactions.length := by
    rw [UInt32.toNat_ofNat']
    exact Nat.mod_eq_of_lt h
  obtain ⟨pre, dec, hat, e⟩ := parseBlock_start block
  rw [← List.append_nil (txsBytes _)] at hat
  obtain ⟨dec', e', hat'⟩ := parseTransactions_at _ hat
  rw [e, hn, e', Option.bind_some, hat'.atEnd]
  rfl

/-- The count of 2³² transactions is written as 0, and the block is not at its end after it. -/
theorem parseBlock_serialize_none {block : Block} (h : block.transactions.length = 2 ^ 32) :
    parseBlock (serializeBlock block) = none := by
  have hn : (UInt32.ofNat block.transactions.length).toNat = 0 := by
    rw [UInt32.toNat_ofNat', h, Nat.mod_self]
  obtain ⟨pre, dec, hat, e⟩ := parseBlock_start block
  have hend : dec.atEnd = false := by
    have hlen := length_txsBytes block.transactions
    rw [h] at hlen
    subst hat
    rw [Decoder.atEnd]
    simp only [List.length_append, hlen, Bool.not_false, Bool.true_and]
    exact beq_false_of_ne (by omega)
  rw [e, hn, parseTransactions, Option.bind_some, hend]
  rfl

end L1
end Techuila
