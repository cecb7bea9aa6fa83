import Techuila.L1.Stored

/-!
# Consistency of a chain across crashes

A crash leaves the first puts of the call that it interrupts.

* `Consistent`: the blocks up to the height can be read and are linked, the tip is the last one's
  hash, and the ledger has its state root once nothing is pending.
* `consistent_of_safe`: every chain of a run is consistent as long as no crash separates the height
  of a block from its tip, or its tip from a snapshot with pending transactions.
-/

namespace Techuila
namespace L1

open Techuila.Dist (Bytes)
open Storage (KVStore Data)

/-- The facts of a consistent chain with these blocks. -/
structure ConsistentWith (chain : Chain) (blocks : Nat → Block) : Prop where
  readable : ∀ i ≤ chain.currentHeight.toNat, chain.getBlock (.ofNat i) = some (blocks i)
  tip : chain.currentTip = blockHash (blocks chain.currentHeight.toNat).header
  linked : ∀ i < chain.currentHeight.toNat,
    (blocks (i + 1)).header.previousHash = blockHash (blocks i).header
  root : chain.pending = [] →
    chain.ledger.computeStateRoot = (blocks chain.currentHeight.toNat).header.stateRoot

def Consistent (chain : Chain) : Prop := ∃ blocks, ConsistentWith chain blocks

theorem Consistent.tip_of_getBlock {chain : Chain} (h : Consistent chain) :
    (chain.getBlock chain.currentHeight).map (fun block => blockHash block.header) =
      some chain.currentTip := by
  obtain ⟨blocks, h⟩ := h
  have hr := h.readable _ (Nat.le_refl _)
  rw [UInt64.ofNat_toNat] at hr
  rw [hr, h.tip]
  rfl

/-- The crashes and the blocks that keep a chain consistent. -/
def SafeStep : State → Event → Prop
  | .closed file, .crashOpen n => (KVStore.open file).get heightKey = none → n ≠ 2
  | .running chain, .produce => Fits chain.produceBlockPuts
  | .running chain, .crashProduce n =>
    n ≠ 2 ∧ (n = 3 → chain.pending = []) ∧ (n = 1 → chain.currentHeight.toNat + 1 < 2 ^ 64) ∧
      Fits (chain.produceBlockPuts.take n)
  | _, _ => True

/-! ## What holds between two events -/

/-- The storage holds no chain or a whole one; a running chain is the stored one up to what is
pending. -/
def State.Sound : State → Prop
  | .closed file => ∃ kv : KVStore, kv.Synced ∧ kv.file = file ∧
      (NoChain kv.data ∨ ∃ height blocks ledger, StoredChain kv.data height blocks ledger)
  | .running chain => chain.kv.Synced ∧ ∃ blocks ledger,
      StoredChain chain.kv.data chain.currentHeight blocks ledger ∧
        chain.currentTip = blockHash (blocks chain.currentHeight.toNat).header ∧
        (chain.pending = [] → chain.ledger = ledger)

theorem State.Sound.consistent {chain : Chain} (h : (State.running chain).Sound) :
    Consistent chain := by
  obtain ⟨-, blocks, ledger, hs, htip, hledger⟩ := h
  refine ⟨blocks, fun i hi => hs.toStoredBlocks.getBlock hi, htip, hs.linked, fun hp => ?_⟩
  rw [hledger hp, hs.root]

theorem sound_empty : (State.closed []).Sound := by
  refine ⟨KVStore.open [], KVStore.synced_empty, rfl, .inl ?_⟩
  rw [KVStore.open_nil]
  exact ⟨rfl, rfl⟩

/-! ## One event -/

theorem sound_open {file : Bytes} (h : (State.closed file).Sound) :
    (State.running (Chain.open file)).Sound := by
  obtain ⟨kv, hs, rfl, hfresh | ⟨height, blocks, ledger, hc⟩⟩ := h
  · rw [open_fresh hs hfresh]
    refine ⟨hs.putAll fits_genesisPuts, fun _ => genesis, {}, ?_, rfl, fun _ => rfl⟩
    rw [data_putAll]
    exact StoredChain.genesis kv.data
  · rw [open_stored hs hc]
    exact ⟨hs, blocks, ledger, hc, rfl, fun _ => rfl⟩

/-- A put of a block that the chain does not have yet. -/
theorem StoredChain.putBlock {data : Data} {height : UInt64} {blocks : Nat → Block}
    {ledger : Ledger} (h : StoredChain data height blocks ledger) {block : Block}
    (hh : block.header.height = height + 1) (hlt : height.toNat + 1 < 2 ^ 64) :
    StoredChain (putData data (persistBlock block)) height blocks ledger where
  block i hi := by
    have hne : blockKey (.ofNat i) ≠ blockKey block.header.height := by
      intro he
      have he := congrArg UInt64.toNat (blockKey_inj he)
      rw [hh, UInt64.toNat_ofNat', UInt64.toNat_add, UInt64.toNat_one] at he
      omega
    rw [putData, persistBlock, Function.update_of_ne hne, h.block i hi]
  count := h.count
  height_eq := by rw [putData, persistBlock, Function.update_of_ne (blockKey_ne_height _).symm, h.height_eq]
  tip_eq := by rw [putData, persistBlock, Function.update_of_ne (blockKey_ne_tip _).symm, h.tip_eq]
  ledger_eq := h.ledger_eq.of_eq (Function.update_of_ne (blockKey_ne_snapshot _).symm _ _)
  linked := h.linked
  root := h.root

/-- The puts of the genesis block but the snapshot, where the ledger that is read is empty. -/
theorem StoredChain.genesis_of_snapshot {data : Data} (h : StoredLedger data {}) :
    StoredChain ((blockPuts L1.genesis).foldl putData data) L1.genesis.header.height
      (Function.update (fun _ => L1.genesis) L1.genesis.header.height.toNat L1.genesis) {} := by
  have hf := fits_genesisPuts
  rw [Chain.genesisPuts_eq] at hf
  have hb := @StoredBlocks.persist data (fun _ => L1.genesis) L1.genesis
    (fun i hi => absurd hi (Nat.not_lt_zero i)) hf.of_append.1
  exact hb.chain (h.of_eq (blockPuts_snapshot _ _))
    (fun i hi => absurd hi (Nat.not_lt_zero _)) (fun i hi => absurd hi (Nat.succ_ne_zero i)) rfl

theorem take_persist {block : Block} {bytes : Bytes} (n : Nat) :
    (blockPuts block ++ [(snapshotKey, bytes)]).take (n + 4) =
      blockPuts block ++ [(snapshotKey, bytes)] := by
  refine List.take_of_length_le ?_
  rw [List.length_append, show (blockPuts block).length = 3 from rfl, List.length_singleton]
  omega

theorem sound_crashOpen {file : Bytes} (h : (State.closed file).Sound) {n : Nat}
    (hn : SafeStep (.closed file) (.crashOpen n)) :
    ((State.closed file).step (.crashOpen n)).Sound := by
  obtain ⟨kv, hs, rfl, hfresh | ⟨height, blocks, ledger, hc⟩⟩ := h
  · have hn : n ≠ 2 := hn (by rw [hs.open_eq]; exact hfresh.1)
    have hputs : Chain.openPuts kv = Chain.genesisPuts := by
      rw [Chain.openPuts, KVStore.get, hfresh.1]
    have hfits : Fits (Chain.genesisPuts.take n) := fun p hp =>
      fits_genesisPuts p (List.mem_of_mem_take hp)
    have hstep : (State.closed kv.file).step (.crashOpen n) =
        .closed (kv.putAll (Chain.genesisPuts.take n)).file := by
      rw [State.step, hs.open_eq, hputs]
    rw [hstep]
    refine ⟨_, hs.putAll hfits, rfl, ?_⟩
    rw [data_putAll]
    rcases n with _ | _ | _ | _ | n
    · exact .inl hfresh
    · rw [show Chain.genesisPuts.take 1 = [persistBlock genesis] from rfl, List.foldl_cons,
        List.foldl_nil, NoChain, putData_of_ne (blockKey_ne_height _).symm,
        putData_of_ne (blockKey_ne_snapshot _).symm]
      exact .inl hfresh
    · exact absurd rfl hn
    · exact .inr ⟨_, _, _, StoredChain.genesis_of_snapshot (.inr ⟨hfresh.2, rfl⟩)⟩
    · rw [Chain.genesisPuts_eq, take_persist, ← Chain.genesisPuts_eq]
      exact .inr ⟨_, _, _, StoredChain.genesis kv.data⟩
  · have hputs : Chain.openPuts kv = [] := by
      rw [Chain.openPuts, KVStore.get, hc.height_eq]
    have hstep : (State.closed kv.file).step (.crashOpen n) = .closed kv.file := by
      rw [State.step, hs.open_eq, hputs, List.take_nil]
      rfl
    rw [hstep]
    exact ⟨kv, hs, rfl, .inr ⟨height, blocks, ledger, hc⟩⟩

theorem sound_produce {chain : Chain} (h : (State.running chain).Sound)
    (hf : Fits chain.produceBlockPuts) : (State.running chain.produceBlock.2).Sound := by
  obtain ⟨hs, blocks, ledger, hc, ht, -⟩ := h
  have hc' := hc.produce ht hf
  rw [← data_putAll] at hc'
  rw [Chain.produceBlock_snd]
  refine ⟨hs.putAll hf, _, _, hc', ?_, fun _ => rfl⟩
  rw [Function.update_self]

theorem sound_crashProduce {chain : Chain} (h : (State.running chain).Sound) {n : Nat}
    (hn : SafeStep (.running chain) (.crashProduce n)) :
    ((State.running chain).step (.crashProduce n)).Sound := by
  obtain ⟨hs, blocks, ledger, hc, ht, hledger⟩ := h
  obtain ⟨h2, h3, h1, hf⟩ := hn
  refine ⟨_, hs.putAll hf, rfl, .inr ?_⟩
  rw [data_putAll, Chain.produceBlockPuts_eq] at *
  match n with
  | 0 => exact ⟨_, blocks, ledger, hc⟩
  | 1 => exact ⟨_, blocks, ledger, hc.putBlock (show chain.nextBlock.header.height = _ from rfl) (h1 rfl)⟩
  | 2 => exact absurd rfl h2
  | 3 =>
    -- the snapshot is the one before, of the same ledger
    refine ⟨_, _, ledger, hc.next (show chain.nextBlock.header.height = _ from rfl) ht ?_
      (fun hb => StoredBlocks.persist hb hf) (hc.ledger_eq.of_eq (blockPuts_snapshot _ _))⟩
    rw [← hledger (h3 rfl)]
    rfl
  | n + 4 =>
    rw [take_persist] at hf ⊢
    exact ⟨_, _, _, hc.produce ht hf⟩

theorem sound_submit {chain : Chain} (h : (State.running chain).Sound) (tx : Transaction) :
    (State.running (chain.submitTransaction tx).2).Sound := by
  obtain ⟨hs, blocks, ledger, hc, ht, hledger⟩ := h
  by_cases hok : (chain.ledger.apply tx).1 = .ok
  · rw [Chain.submit_ok hok]
    exact ⟨hs, blocks, ledger, hc, ht, fun hp => absurd hp (by simp)⟩
  · rw [Chain.submit_failed hok]
    exact ⟨hs, blocks, ledger, hc, ht, hledger⟩

theorem sound_step {s : State} (h : s.Sound) {e : Event} (he : SafeStep s e) :
    (s.step e).Sound := by
  cases s with
  | closed file =>
    cases e with
    | «open» => exact sound_open h
    | crashOpen n => exact sound_crashOpen h he
    | submit tx => exact h
    | produce => exact h
    | crashProduce n => exact h
    | close => exact h
  | running chain =>
    cases e with
    | «open» => exact h
    | crashOpen n => exact h
    | submit tx => exact sound_submit h tx
    | produce => exact sound_produce h he
    | crashProduce n => exact sound_crashProduce h he
    | close =>
      obtain ⟨hs, blocks, ledger, hc, -, -⟩ := h
      exact ⟨_, hs, rfl, .inr ⟨_, blocks, ledger, hc⟩⟩

/-! ## Runs -/

theorem sound_along {s : State} (h : s.Sound) {events : List Event}
    (hsafe : State.Along SafeStep s events) : (events.foldl State.step s).Sound := by
  induction events generalizing s with
  | nil => exact h
  | cons e events ih => exact ih (sound_step h hsafe.1) hsafe.2

/-- Every chain of a run of safe steps is consistent. -/
theorem consistent_of_safe {events : List Event}
    (hsafe : State.Along SafeStep (.closed []) events) {chain : Chain}
    (h : State.run events = .running chain) : Consistent chain := by
  have hs := sound_along sound_empty hsafe
  rw [State.run] at h
  rw [h] at hs
  exact hs.consistent

theorem consistent_of_safe_block :
    ∃ chain, State.run [.open, .submit (zeroTx 0), .produce, .crashProduce 3, .open] =
      .running chain ∧ Consistent chain := by
  have hsafe : State.Along SafeStep (.closed [])
      [.open, .submit (zeroTx 0), .produce, .crashProduce 3, .open] := by
    refine ⟨trivial, trivial, ?_, ⟨by decide, fun _ => rfl, nofun, ?_⟩, trivial, trivial⟩
    · show Fits ((Chain.open []).submitTransaction (zeroTx 0)).2.produceBlockPuts
      rw [open_empty]
      decide +kernel
    · show Fits
        (((Chain.open []).submitTransaction (zeroTx 0)).2.produceBlock.2.produceBlockPuts.take 3)
      rw [open_empty]
      decide +kernel
  exact ⟨_, rfl, consistent_of_safe hsafe rfl⟩

/-- A crash between the height and the tip of the genesis block. -/
theorem consistent_of_safe_counterexample :
    ∃ chain, State.run [.crashOpen 2, .open] = .running chain ∧ ¬ Consistent chain := by
  refine ⟨_, rfl, ?_⟩
  show ¬ Consistent (Chain.open
    ((KVStore.open []).putAll ((Chain.openPuts (KVStore.open [])).take 2)).file)
  have hs : (KVStore.putAll ⟨[], fun _ => none⟩ (Chain.genesisPuts.take 2)).Synced := by
    rw [← KVStore.open_nil]
    exact KVStore.synced_empty.putAll fun p hp => fits_genesisPuts p (List.mem_of_mem_take hp)
  intro h
  have htip := h.tip_of_getBlock
  rw [KVStore.open_nil, show Chain.openPuts ⟨[], fun _ => none⟩ = Chain.genesisPuts from rfl,
    Chain.open, hs.open_eq] at htip
  revert htip
  decide +kernel

end L1
end Techuila
