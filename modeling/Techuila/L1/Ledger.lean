import Techuila.Crypto.Sha256
import Techuila.Dist.Rpc
import Techuila.Lib.SortedTable

/-!
# Transactions and the ledger (`23-blockchain/l1/types.hpp`, `transaction.cpp`, `ledger.cpp`)

* `parseTransaction_serialize`: a transaction reads back.
* `Ledger.loadSnapshot_snapshot`: loading a snapshot gives the ledger that it was taken of.
* `Ledger.applyAll`: transactions that all succeed, one after the other.
-/

namespace Techuila
namespace L1

open Techuila.Dist (Bytes Encoder Decoder)
open Techuila.Dist.Decoder (next)
open Crypto (Sha256)

/-! ## Fixed-width byte strings -/

/-- `std::array<uint8_t, n>`. -/
abbrev FixedBytes (n : Nat) := { bytes : Bytes // bytes.length = n }

/-- `vectorToAddress` and `vectorToHash32`. -/
def FixedBytes.ofVector (n : Nat) (v : Bytes) : Option (FixedBytes n) :=
  if h : v.length = n then some ⟨v, h⟩ else none

abbrev Address := FixedBytes 20
abbrev Hash32 := FixedBytes 32

def ZERO_HASH32 : Hash32 := ⟨List.replicate 32 0, rfl⟩

theorem FixedBytes.ofVector_val {n : Nat} (a : FixedBytes n) :
    FixedBytes.ofVector n a.val = some a := dif_pos a.2

/-- The digest of a hasher. -/
def finishHash (hasher : Sha256) : Hash32 := ⟨hasher.finish, Crypto.length_sha256Finish hasher⟩

def sha256Hash (data : Bytes) : Hash32 := finishHash (({} : Sha256).update data)

/-! ## Transactions -/

structure Transaction where
  «from» : Address
  «to» : Address
  amount : UInt64
  nonce : UInt64
  deriving DecidableEq

def serializeTransaction (tx : Transaction) : Bytes :=
  ((((({} : Encoder).writeBytes tx.from.val).writeBytes tx.to.val).writeU64 tx.amount).writeU64
    tx.nonce).data

def parseTransaction (bytes : Bytes) : Option Transaction :=
  next (Decoder.readBytes ⟨bytes, 0, false⟩) fun fromBytes dec =>
  next dec.readBytes fun toBytes dec =>
  next dec.readU64 fun amount dec =>
  next dec.readU64 fun nonce dec =>
  if dec.atEnd then do
    let sender ← FixedBytes.ofVector 20 fromBytes
    let recipient ← FixedBytes.ofVector 20 toBytes
    some ⟨sender, recipient, amount, nonce⟩
  else none

theorem serializeTransaction_eq (tx : Transaction) : serializeTransaction tx =
    beBytes 4 tx.from.val.length ++ (tx.from.val ++ (beBytes 4 tx.to.val.length ++ (tx.to.val ++
      (beBytes 8 tx.amount.toNat ++ (beBytes 8 tx.nonce.toNat ++ []))))) := by
  simp only [serializeTransaction, Encoder.data, Dist.writeU64_buffer, Dist.writeBytes_buffer,
    List.nil_append, List.append_nil, List.append_assoc]

theorem length_serializeTransaction (tx : Transaction) :
    (serializeTransaction tx).length = 64 := by
  simp only [serializeTransaction_eq, List.length_append, length_beBytes, List.length_nil,
    tx.from.2, tx.to.2]

theorem parseTransaction_serialize (tx : Transaction) :
    parseTransaction (serializeTransaction tx) = some tx := by
  have hf : tx.from.val.length < 2 ^ 32 := by rw [tx.from.2]; decide
  have ht : tx.to.val.length < 2 ^ 32 := by rw [tx.to.2]; decide
  rw [serializeTransaction_eq, parseTransaction]
  obtain ⟨d₁, h₁, e₁⟩ := Decoder.next_readBytes hf (Decoder.at_start _) (β := Transaction) _
  rw [e₁]
  obtain ⟨d₂, h₂, e₂⟩ := Decoder.next_readBytes ht h₁ (β := Transaction) _
  rw [e₂]
  obtain ⟨d₃, h₃, e₃⟩ := Decoder.next_readU64 h₂ (β := Transaction) _
  rw [e₃]
  obtain ⟨d₄, h₄, e₄⟩ := Decoder.next_readU64 h₃ (β := Transaction) _
  rw [e₄, h₄.atEnd, if_pos rfl, FixedBytes.ofVector_val, FixedBytes.ofVector_val]
  rfl

/-! ## The ledger -/

structure AccountState where
  balance : UInt64 := 0
  nonce : UInt64 := 0
  deriving DecidableEq

inductive TxResult where
  | ok
  | insufficientBalance
  | invalidNonce
  deriving DecidableEq, Repr

structure Ledger where
  accounts : SortedTable Address AccountState := {}

namespace Ledger

def get (ledger : Ledger) (addr : Address) : AccountState := (ledger.accounts.find addr).getD {}

/-- `accounts[addr] = state`. -/
def set (ledger : Ledger) (addr : Address) (state : AccountState) : Ledger :=
  ⟨ledger.accounts.insert addr state⟩

theorem get_set (ledger : Ledger) (addr : Address) (state : AccountState) :
    (ledger.set addr state).get addr = state := by
  have h : (ledger.set addr state).accounts.find addr = some state :=
    (SortedTable.find_insert ledger.accounts addr addr state).trans (if_pos rfl)
  rw [get, h]
  rfl

def apply (ledger : Ledger) (tx : Transaction) : TxResult × Ledger :=
  let sender := ledger.get tx.from
  if tx.nonce ≠ sender.nonce then (.invalidNonce, ledger)
  else if sender.balance < tx.amount then (.insufficientBalance, ledger)
  else
    let ledger := ledger.set tx.from ⟨sender.balance - tx.amount, sender.nonce + 1⟩
    let recipient := ledger.get tx.to
    (.ok, ledger.set tx.to { recipient with balance := recipient.balance + tx.amount })

theorem apply_failed {ledger : Ledger} {tx : Transaction} (h : (ledger.apply tx).1 ≠ .ok) :
    (ledger.apply tx).2 = ledger := by
  unfold apply at *
  dsimp only at *
  split
  · rfl
  · split
    · rfl
    · rename_i hn hb
      rw [if_neg hn, if_neg hb] at h
      exact absurd rfl h

/-- The eight bytes of a balance or a nonce in the state root. -/
def rootBytes (value : UInt64) : Bytes :=
  ([0, 1, 2, 3, 4, 5, 6, 7] : List UInt64).map fun i =>
    ((value >>> (8 * (7 - i))) &&& 0xFF).toUInt8

def computeStateRoot (ledger : Ledger) : Hash32 :=
  finishHash (ledger.accounts.entries.foldl (fun hasher e =>
    ((hasher.update e.1.val).update (rootBytes e.2.balance)).update (rootBytes e.2.nonce))
    ({} : Sha256))

def snapshot (ledger : Ledger) : List (Address × AccountState) :=
  ledger.accounts.entries

def loadSnapshot (entries : List (Address × AccountState)) : Ledger :=
  ⟨SortedTable.ofEntries entries⟩

theorem loadSnapshot_snapshot (ledger : Ledger) : loadSnapshot ledger.snapshot = ledger :=
  congrArg Ledger.mk (SortedTable.ofEntries_entries ledger.accounts)

/-- The ledger after transactions that all succeed. -/
def applyAll (ledger : Ledger) : List Transaction → Option Ledger
  | [] => some ledger
  | tx :: txs =>
    match ledger.apply tx with
    | (.ok, ledger) => applyAll ledger txs
    | _ => none

theorem applyAll_append (ledger : Ledger) (txs txs' : List Transaction) :
    ledger.applyAll (txs ++ txs') = (ledger.applyAll txs).bind fun l => l.applyAll txs' := by
  induction txs generalizing ledger with
  | nil => rfl
  | cons tx txs ih =>
    rw [List.cons_append, applyAll, applyAll]
    split
    · exact ih _
    · rfl

end Ledger

end L1
end Techuila
