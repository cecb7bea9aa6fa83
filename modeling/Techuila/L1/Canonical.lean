import Techuila.Crypto.Streaming
import Techuila.L1.Block

/-!
# One encoding for each value

* `parseTransaction_iff`, `parseBlockHeader_iff`, `parseBlock_iff`: the bytes that are read as a value
  are those that it is written as.
* `val_computeTxRoot`, `val_computeStateRoot`: the roots are digests of records of one width, so
  other transactions or accounts are other bytes.
* `encodings_canonical`: all of it.
-/

namespace Techuila
namespace L1

open Techuila.Dist (Bytes Decoder next_eq_some)
open Crypto (Sha256 Absorbed)

theorem FixedBytes.ofVector_eq_some {n : Nat} {v : Bytes} {a : FixedBytes n} :
    FixedBytes.ofVector n v = some a ↔ v = a.val := by
  constructor
  · intro h
    unfold FixedBytes.ofVector at h
    split at h
    · cases h
      rfl
    · cases h
  · rintro rfl
    exact FixedBytes.ofVector_val a

/-! ## What was read -/

theorem parseTransaction_iff {bytes : Bytes} {tx : Transaction} :
    parseTransaction bytes = some tx ↔ bytes = serializeTransaction tx := by
  constructor
  · intro h
    obtain ⟨sender, hs, h⟩ := next_eq_some h
    obtain ⟨-, post₁, e₁, h₁⟩ := Decoder.readBytes_some (Decoder.at_start _) hs
    obtain ⟨recipient, hr, h⟩ := next_eq_some h
    obtain ⟨-, post₂, e₂, h₂⟩ := Decoder.readBytes_some h₁ hr
    obtain ⟨amount, ha, h⟩ := next_eq_some h
    obtain ⟨post₃, e₃, h₃⟩ := Decoder.readU64_some h₂ ha
    obtain ⟨nonce, hn, h⟩ := next_eq_some h
    obtain ⟨post₄, e₄, h₄⟩ := Decoder.readU64_some h₃ hn
    split at h
    · rename_i hend
      obtain rfl := (Decoder.atEnd_iff h₄).mp hend
      obtain ⟨s, hs, h⟩ := Option.bind_eq_some_iff.mp h
      obtain ⟨t, ht, h⟩ := Option.bind_eq_some_iff.mp h
      cases h
      obtain rfl := FixedBytes.ofVector_eq_some.mp hs
      obtain rfl := FixedBytes.ofVector_eq_some.mp ht
      rw [e₁, e₂, e₃, e₄, serializeTransaction_eq]
    · cases h
  · rintro rfl
    exact parseTransaction_serialize tx

theorem parseBlockHeader_iff {bytes : Bytes} {header : BlockHeader} :
    parseBlockHeader bytes = some header ↔ bytes = serializeBlockHeader header := by
  constructor
  · intro h
    obtain ⟨height, hh, h⟩ := next_eq_some h
    obtain ⟨post₁, e₁, h₁⟩ := Decoder.readU64_some (Decoder.at_start _) hh
    obtain ⟨prev, hp, h⟩ := next_eq_some h
    obtain ⟨-, post₂, e₂, h₂⟩ := Decoder.readBytes_some h₁ hp
    obtain ⟨state, hs, h⟩ := next_eq_some h
    obtain ⟨-, post₃, e₃, h₃⟩ := Decoder.readBytes_some h₂ hs
    obtain ⟨txRoot, ht, h⟩ := next_eq_some h
    obtain ⟨-, post₄, e₄, h₄⟩ := Decoder.readBytes_some h₃ ht
    split at h
    · rename_i hend
      obtain rfl := (Decoder.atEnd_iff h₄).mp hend
      obtain ⟨p, hp, h⟩ := Option.bind_eq_some_iff.mp h
      obtain ⟨s, hs, h⟩ := Option.bind_eq_some_iff.mp h
      obtain ⟨t, ht, h⟩ := Option.bind_eq_some_iff.mp h
      cases h
      obtain rfl := FixedBytes.ofVector_eq_some.mp hp
      obtain rfl := FixedBytes.ofVector_eq_some.mp hs
      obtain rfl := FixedBytes.ofVector_eq_some.mp ht
      rw [e₁, e₂, e₃, e₄, serializeBlockHeader_eq]
    · cases h
  · rintro rfl
    exact parseBlockHeader_serialize header

/-- The bytes of transactions that were read. -/
theorem parseTransactions_some {n : Nat} {pre rest : Bytes} {dec dec' : Decoder}
    {txs : List Transaction} (hat : Decoder.At pre rest dec)
    (h : parseTransactions n dec = some (txs, dec')) :
    txs.length = n ∧ ∃ post, rest = txsBytes txs ++ post ∧
      Decoder.At (pre ++ txsBytes txs) post dec' := by
  induction n generalizing pre rest dec txs with
  | zero =>
    cases h
    exact ⟨rfl, rest, rfl, by simpa [txsBytes] using hat⟩
  | succ n ih =>
    obtain ⟨txBytes, hb, h⟩ := next_eq_some h
    obtain ⟨-, post₁, e₁, h₁⟩ := Decoder.readBytes_some hat hb
    obtain ⟨tx, htx, h⟩ := Option.bind_eq_some_iff.mp h
    obtain ⟨⟨txs', dec₂⟩, hrest, h⟩ := Option.bind_eq_some_iff.mp h
    cases h
    obtain rfl := parseTransaction_iff.mp htx
    obtain ⟨hlen, post, e, h₂⟩ := ih h₁ hrest
    have hcons : txsBytes (tx :: txs') =
        beBytes 4 (serializeTransaction tx).length ++ serializeTransaction tx ++ txsBytes txs' := rfl
    refine ⟨by rw [List.length_cons, hlen], post, ?_, ?_⟩
    · rw [hcons, e₁, e, List.append_assoc, List.append_assoc]
    · rw [hcons, ← List.append_assoc]
      exact h₂

theorem parseBlock_iff {bytes : Bytes} {block : Block} :
    parseBlock bytes = some block ↔
      bytes = serializeBlock block ∧ block.transactions.length < 2 ^ 32 := by
  constructor
  · intro h
    obtain ⟨headerBytes, hh, h⟩ := next_eq_some h
    obtain ⟨-, post₁, e₁, h₁⟩ := Decoder.readBytes_some (Decoder.at_start _) hh
    obtain ⟨header, hheader, hrest⟩ := Option.bind_eq_some_iff.mp h
    obtain rfl := parseBlockHeader_iff.mp hheader
    obtain ⟨txCount, hc, h⟩ := next_eq_some hrest
    obtain ⟨post₂, e₂, h₂⟩ := Decoder.readU32_some h₁ hc
    obtain ⟨⟨txs, dec⟩, htxs, h⟩ := Option.bind_eq_some_iff.mp h
    obtain ⟨hlen, post₃, e₃, h₃⟩ := parseTransactions_some h₂ htxs
    dsimp only at h
    split at h
    · rename_i hend
      obtain rfl := (Decoder.atEnd_iff h₃).mp hend
      cases h
      have hlt : txs.length < 2 ^ 32 := hlen ▸ txCount.toNat_lt
      have hcount : (UInt32.ofNat txs.length).toNat = txCount.toNat := by
        rw [hlen, UInt32.ofNat_toNat]
      refine ⟨?_, hlt⟩
      rw [e₁, e₂, e₃, serializeBlock_eq, hcount, List.append_nil]
    · cases h
  · rintro ⟨rfl, hlt⟩
    exact parseBlock_serialize hlt

/-! ## What the roots are taken of -/

/-- The bytes that the transaction root is the digest of. -/
def txRootBytes (txs : List Transaction) : Bytes := txs.flatMap serializeTransaction

theorem val_computeTxRoot (txs : List Transaction) :
    (computeTxRoot txs).val = Sha2.digest (txRootBytes txs) := by
  have h := (Absorbed.new.updates (txs.map serializeTransaction)).finish
  rw [List.foldl_map] at h
  exact h

theorem serializeTransaction_injective : Function.Injective serializeTransaction := by
  intro tx tx' h
  have h' := parseTransaction_serialize tx
  rw [h, parseTransaction_serialize] at h'
  exact (Option.some.inj h').symm

theorem txRootBytes_injective : Function.Injective txRootBytes :=
  flatMap_injective_of_width (by decide : 0 < 64) length_serializeTransaction
    serializeTransaction_injective

theorem rootBytes_eq (value : UInt64) : Ledger.rootBytes value = beBytes 8 value.toNat := by
  have hshift : ([0, 1, 2, 3, 4, 5, 6, 7] : List UInt64).map (fun i => 8 * (7 - i)) =
      ([0, 1, 2, 3, 4, 5, 6, 7] : List UInt64).map (fun i => 56 - 8 * i) := by decide
  exact (Crypto.map_shift_congr hshift value).trans (Crypto.writeU64BE_eq value)

/-- The bytes of one account in the state root. -/
def accountBytes (e : Address × AccountState) : Bytes :=
  e.1.val ++ Ledger.rootBytes e.2.balance ++ Ledger.rootBytes e.2.nonce

/-- The bytes that the state root is the digest of. -/
def stateRootBytes (ledger : Ledger) : Bytes := ledger.accounts.entries.flatMap accountBytes

theorem val_computeStateRoot (ledger : Ledger) :
    ledger.computeStateRoot.val = Sha2.digest (stateRootBytes ledger) := by
  have hfold : ∀ (es : List (Address × AccountState)) {hasher : Sha256} {message : Bytes},
      Absorbed hasher message →
      Absorbed (es.foldl (fun hasher e =>
        ((hasher.update e.1.val).update (Ledger.rootBytes e.2.balance)).update
          (Ledger.rootBytes e.2.nonce)) hasher) (message ++ es.flatMap accountBytes) := by
    intro es
    induction es with
    | nil => exact fun h => by simpa using h
    | cons e es ih =>
      intro hasher message h
      have h' := ih (((h.update e.1.val).update (Ledger.rootBytes e.2.balance)).update
        (Ledger.rootBytes e.2.nonce))
      simpa [accountBytes] using h'
  exact (hfold ledger.accounts.entries .new).finish

theorem length_accountBytes (e : Address × AccountState) : (accountBytes e).length = 36 := by
  rw [accountBytes, List.length_append, List.length_append, e.1.2]
  rfl

theorem accountBytes_injective : Function.Injective accountBytes := by
  rintro ⟨addr, balance, nonce⟩ ⟨addr', balance', nonce'⟩ h
  obtain ⟨h, hnonce⟩ := List.append_inj h (by simp [addr.2, addr'.2, rootBytes_eq])
  obtain ⟨haddr, hbalance⟩ := List.append_inj h (by simp [addr.2, addr'.2])
  rw [rootBytes_eq, rootBytes_eq] at hbalance hnonce
  obtain rfl := Dist.toNat_beBytes_inj hbalance
  obtain rfl := Dist.toNat_beBytes_inj hnonce
  obtain rfl := Subtype.ext haddr
  rfl

theorem stateRootBytes_injective : Function.Injective stateRootBytes := by
  rintro ⟨accounts⟩ ⟨accounts'⟩ h
  exact congrArg Ledger.mk (SortedTable.ext (flatMap_injective_of_width (by decide : 0 < 36)
    length_accountBytes accountBytes_injective h))

/-- Every value has one encoding, and every list of transactions and every ledger its own bytes under
its root. -/
theorem encodings_canonical (bytes : Bytes) (tx : Transaction) (header : BlockHeader)
    (block : Block) (txs : List Transaction) (ledger : Ledger) :
    (block.transactions.length < 2 ^ 32 → parseBlock (serializeBlock block) = some block) ∧
    (parseTransaction bytes = some tx ↔ bytes = serializeTransaction tx) ∧
    (parseBlockHeader bytes = some header ↔ bytes = serializeBlockHeader header) ∧
    (parseBlock bytes = some block ↔
      bytes = serializeBlock block ∧ block.transactions.length < 2 ^ 32) ∧
    (computeTxRoot txs).val = Sha2.digest (txRootBytes txs) ∧
    (∀ txs', txRootBytes txs' = txRootBytes txs → txs' = txs) ∧
    ledger.computeStateRoot.val = Sha2.digest (stateRootBytes ledger) ∧
    (∀ ledger', stateRootBytes ledger' = stateRootBytes ledger → ledger' = ledger) :=
  ⟨parseBlock_serialize, parseTransaction_iff, parseBlockHeader_iff, parseBlock_iff,
    val_computeTxRoot txs, fun _ h => txRootBytes_injective h, val_computeStateRoot ledger,
    fun _ h => stateRootBytes_injective h⟩

end L1
end Techuila
