import Techuila.L1.Stored

/-!
# Replaying a chain

Runs without a crash, in which every record that the storage writes is shorter than 2³² bytes.

* `Replays`: the blocks up to the height, executed from the empty ledger, give the ledger of each
  state root; the pending transactions lead on to the live ledger, and reopening drops them.
* `replays_of_fits`: every chain of such a run replays.
* `replays_of_fits_counterexample`: a block of 2³² transactions does not read back.
-/

namespace Techuila
namespace L1

open Storage (KVStore Data)

/-- The blocks of a chain, and the ledgers after them. -/
structure ReplaysWith (chain : Chain) (blocks : Nat → Block) (ledgers : Nat → Ledger) : Prop where
  readable : ∀ i ≤ chain.currentHeight.toNat, chain.getBlock (.ofNat i) = some (blocks i)
  tip : chain.currentTip = blockHash (blocks chain.currentHeight.toNat).header
  linked : ∀ i < chain.currentHeight.toNat,
    (blocks (i + 1)).header.previousHash = blockHash (blocks i).header
  txRoot : ∀ i ≤ chain.currentHeight.toNat,
    (blocks i).header.txRoot = computeTxRoot (blocks i).transactions
  start : ledgers 0 = {}
  executes : ∀ i < chain.currentHeight.toNat,
    (ledgers i).applyAll (blocks (i + 1)).transactions = some (ledgers (i + 1))
  root : ∀ i ≤ chain.currentHeight.toNat,
    (ledgers i).computeStateRoot = (blocks i).header.stateRoot
  pending : (ledgers chain.currentHeight.toNat).applyAll chain.pending = some chain.ledger
  reopen : Chain.open chain.kv.file =
    { chain with ledger := ledgers chain.currentHeight.toNat, pending := [] }

def Replays (chain : Chain) : Prop := ∃ blocks ledgers, ReplaysWith chain blocks ledgers

/-- No crash, and heights below 2⁶⁴. -/
def CleanStep : State → Event → Prop
  | _, .crashOpen _ => False
  | _, .crashProduce _ => False
  | .running chain, .produce => chain.currentHeight.toNat + 1 < 2 ^ 64
  | _, _ => True

/-- The records of a block are shorter than 2³² bytes. -/
def RecordsFit : State → Event → Prop
  | .running chain, .produce => Fits chain.produceBlockPuts
  | _, _ => True

/-! ## What holds between two events -/

/-- A stored chain whose blocks execute from the empty ledger. -/
structure StoredReplay (data : Data) (height : UInt64) (blocks : Nat → Block)
    (ledgers : Nat → Ledger) : Prop extends
    StoredChain data height blocks (ledgers height.toNat) where
  txRoot : ∀ i ≤ height.toNat, (blocks i).header.txRoot = computeTxRoot (blocks i).transactions
  start : ledgers 0 = {}
  executes : ∀ i < height.toNat,
    (ledgers i).applyAll (blocks (i + 1)).transactions = some (ledgers (i + 1))
  roots : ∀ i ≤ height.toNat, (ledgers i).computeStateRoot = (blocks i).header.stateRoot

theorem StoredReplay.genesis (data : Data) :
    StoredReplay (Chain.genesisPuts.foldl putData data) 0 (fun _ => L1.genesis) fun _ => {} where
  toStoredChain := StoredChain.genesis data
  txRoot _ _ := rfl
  start := rfl
  executes i hi := absurd hi (Nat.not_lt_zero i)
  roots _ _ := rfl

theorem StoredReplay.produce {chain : Chain} {blocks : Nat → Block} {ledgers : Nat → Ledger}
    (h : StoredReplay chain.kv.data chain.currentHeight blocks ledgers)
    (ht : chain.currentTip = blockHash (blocks chain.currentHeight.toNat).header)
    (hp : (ledgers chain.currentHeight.toNat).applyAll chain.pending = some chain.ledger)
    (hlt : chain.currentHeight.toNat + 1 < 2 ^ 64) (hf : Fits chain.produceBlockPuts) :
    StoredReplay (chain.produceBlockPuts.foldl putData chain.kv.data) (chain.currentHeight + 1)
      (Function.update blocks (chain.currentHeight + 1).toNat chain.nextBlock)
      (Function.update ledgers (chain.currentHeight + 1).toNat chain.ledger) := by
  have hn : (chain.currentHeight + 1).toNat = chain.currentHeight.toNat + 1 := by
    rw [UInt64.toNat_add, UInt64.toNat_one, Nat.mod_eq_of_lt hlt]
  have hc := h.toStoredChain.produce ht hf
  rw [hn] at hc ⊢
  have hlast : ∀ {i}, i ≤ chain.currentHeight.toNat → i ≠ chain.currentHeight.toNat + 1 :=
    fun hi => by omega
  constructor
  · rw [hn, Function.update_self]
    exact hc
  · intro i hi
    rw [hn] at hi
    rcases Nat.le_succ_iff.mp hi with hi | rfl
    · rw [Function.update_of_ne (hlast hi), h.txRoot i hi]
    · rw [Function.update_self]
      rfl
  · rw [Function.update_of_ne (hlast (Nat.zero_le _)), h.start]
  · intro i hi
    rw [hn] at hi
    have hi := Nat.le_of_lt_succ hi
    rw [Function.update_of_ne (hlast hi)]
    by_cases he : i = chain.currentHeight.toNat
    · rw [he, Function.update_self, Function.update_self]
      exact hp
    · have hlt : i < chain.currentHeight.toNat := by omega
      rw [Function.update_of_ne (hlast hlt), Function.update_of_ne (hlast hlt), h.executes i hlt]
  · intro i hi
    rw [hn] at hi
    rcases Nat.le_succ_iff.mp hi with hi | rfl
    · rw [Function.update_of_ne (hlast hi), Function.update_of_ne (hlast hi), h.roots i hi]
    · rw [Function.update_self, Function.update_self]
      rfl

/-- The storage holds no chain or one that replays; a running chain is the stored one and what is
pending. -/
def State.Replayable : State → Prop
  | .closed file => ∃ kv : KVStore, kv.Synced ∧ kv.file = file ∧
      (NoChain kv.data ∨ ∃ height blocks ledgers, StoredReplay kv.data height blocks ledgers)
  | .running chain => chain.kv.Synced ∧ ∃ blocks ledgers,
      StoredReplay chain.kv.data chain.currentHeight blocks ledgers ∧
        chain.currentTip = blockHash (blocks chain.currentHeight.toNat).header ∧
        (ledgers chain.currentHeight.toNat).applyAll chain.pending = some chain.ledger

theorem State.Replayable.replays {chain : Chain} (h : (State.running chain).Replayable) :
    Replays chain := by
  obtain ⟨hs, blocks, ledgers, hr, ht, hp⟩ := h
  refine ⟨blocks, ledgers, fun i hi => hr.toStoredBlocks.getBlock hi, ht, hr.linked, hr.txRoot,
    hr.start, hr.executes, hr.roots, hp, ?_⟩
  rw [open_stored hs hr.toStoredChain, ← ht]

theorem replayable_step {s : State} (h : s.Replayable) {e : Event} (hc : CleanStep s e)
    (hf : RecordsFit s e) : (s.step e).Replayable := by
  cases s with
  | closed file =>
    cases e with
    | «open» =>
      obtain ⟨kv, hs, rfl, hfresh | ⟨height, blocks, ledgers, hr⟩⟩ := h
      · rw [State.step, open_fresh hs hfresh]
        refine ⟨hs.putAll fits_genesisPuts, fun _ => genesis, fun _ => {}, ?_, rfl, rfl⟩
        rw [data_putAll]
        exact StoredReplay.genesis kv.data
      · rw [State.step, open_stored hs hr.toStoredChain]
        exact ⟨hs, blocks, ledgers, hr, rfl, rfl⟩
    | crashOpen n => exact False.elim hc
    | submit tx => exact h
    | produce => exact h
    | crashProduce n => exact h
    | close => exact h
  | running chain =>
    obtain ⟨hs, blocks, ledgers, hr, ht, hp⟩ := h
    cases e with
    | «open» => exact ⟨hs, blocks, ledgers, hr, ht, hp⟩
    | crashOpen n => exact ⟨hs, blocks, ledgers, hr, ht, hp⟩
    | submit tx =>
      rw [State.step]
      by_cases hok : (chain.ledger.apply tx).1 = .ok
      · rw [Chain.submit_ok hok]
        refine ⟨hs, blocks, ledgers, hr, ht, ?_⟩
        rw [Ledger.applyAll_append, hp, Option.bind_some, Ledger.applyAll,
          show chain.ledger.apply tx = (.ok, _) from Prod.ext hok rfl]
        rfl
      · rw [Chain.submit_failed hok]
        exact ⟨hs, blocks, ledgers, hr, ht, hp⟩
    | produce =>
      have hr' := hr.produce ht hp hc hf
      rw [← data_putAll] at hr'
      rw [State.step, Chain.produceBlock_snd]
      refine ⟨hs.putAll hf, _, _, hr', ?_, ?_⟩
      · rw [Function.update_self]
      · rw [Function.update_self]
        rfl
    | crashProduce n => exact hc.elim
    | close => exact ⟨_, hs, rfl, .inr ⟨_, blocks, ledgers, hr⟩⟩

/-! ## Runs -/

theorem replayable_run {s : State} (h : s.Replayable) {events : List Event}
    (hc : State.Along CleanStep s events) (hf : State.Along RecordsFit s events) :
    (events.foldl State.step s).Replayable := by
  induction events generalizing s with
  | nil => exact h
  | cons e events ih => exact ih (replayable_step h hc.1 hf.1) hc.2 hf.2

theorem replayable_empty : (State.closed []).Replayable := by
  refine ⟨KVStore.open [], KVStore.synced_empty, rfl, .inl ?_⟩
  rw [KVStore.open_nil]
  exact ⟨rfl, rfl⟩

/-- Every chain of a run without crashes, with records below 2³² bytes, replays. -/
theorem replays_of_fits {events : List Event} (hc : State.Along CleanStep (.closed []) events)
    (hf : State.Along RecordsFit (.closed []) events) {chain : Chain}
    (h : State.run events = .running chain) : Replays chain := by
  have hr := replayable_run replayable_empty hc hf
  rw [State.run] at h
  rw [h] at hr
  exact hr.replays

theorem replays_of_fits_block :
    ∃ chain, State.run [.open, .submit (zeroTx 0), .produce, .submit (zeroTx 1), .close, .open] =
      .running chain ∧ Replays chain := by
  have hc : State.Along CleanStep (.closed [])
      [.open, .submit (zeroTx 0), .produce, .submit (zeroTx 1), .close, .open] := by
    refine ⟨trivial, trivial, ?_, trivial, trivial, trivial, trivial⟩
    show ((Chain.open []).submitTransaction (zeroTx 0)).2.currentHeight.toNat + 1 < 2 ^ 64
    rw [open_empty]
    decide
  have hf : State.Along RecordsFit (.closed [])
      [.open, .submit (zeroTx 0), .produce, .submit (zeroTx 1), .close, .open] := by
    refine ⟨trivial, trivial, ?_, trivial, trivial, trivial, trivial⟩
    show Fits ((Chain.open []).submitTransaction (zeroTx 0)).2.produceBlockPuts
    rw [open_empty]
    decide +kernel
  exact ⟨_, rfl, replays_of_fits hc hf rfl⟩

/-! ## A block that does not read back -/

/-- `n` transactions of nothing. -/
def submits (n : Nat) : List Event := (List.range n).map fun i => .submit (zeroTx (.ofNat i))

theorem zeroTx_apply {l : Ledger} {n : UInt64}
    (h : l.get (zeroTx n).from = ⟨0, n⟩) :
    (l.apply (zeroTx n)).1 = .ok ∧
      (l.apply (zeroTx n)).2.get (zeroTx n).from = ⟨0, n + 1⟩ := by
  unfold Ledger.apply
  rw [h]
  simp only [zeroTx, ne_eq, not_true_eq_false, if_false, UInt64.lt_irrefl]
  refine ⟨trivial, ?_⟩
  rw [Ledger.get_set, Ledger.get_set]
  rfl

theorem run_submits (n : Nat) {chain : Chain} (hp : chain.pending = [])
    (hl : chain.ledger.get (zeroTx 0).from = ⟨0, 0⟩) :
    ∃ chain', (submits n).foldl State.step (.running chain) = .running chain' ∧
      chain'.kv = chain.kv ∧ chain'.currentHeight = chain.currentHeight ∧
      chain'.pending.length = n ∧ chain'.ledger.get (zeroTx 0).from = ⟨0, .ofNat n⟩ := by
  induction n with
  | zero => exact ⟨chain, rfl, rfl, rfl, by rw [hp]; rfl, hl⟩
  | succ n ih =>
    obtain ⟨chain', hrun, hkv, hh, hlen, hget⟩ := ih
    obtain ⟨hok, hnext⟩ := zeroTx_apply (l := chain'.ledger) (n := .ofNat n) hget
    have hs := Chain.submit_ok hok
    refine ⟨(chain'.submitTransaction (zeroTx (.ofNat n))).2, ?_, ?_⟩
    · rw [submits, List.range_succ, List.map_append, List.foldl_append, ← submits, hrun]
      rfl
    rw [hs]
    refine ⟨hkv, hh, ?_, ?_⟩
    · rw [List.length_append, hlen, List.length_singleton]
    · rw [UInt64.ofNat_add]
      exact hnext

theorem along_append {cond : State → Event → Prop} {s : State} {events events' : List Event}
    (h : State.Along cond s events) (h' : State.Along cond (events.foldl State.step s) events') :
    State.Along cond s (events ++ events') := by
  induction events generalizing s with
  | nil => exact h'
  | cons e events ih => exact ⟨h.1, ih h.2 h'⟩

theorem along_submits (n : Nat) (s : State) : State.Along CleanStep s (submits n) := by
  induction n with
  | zero => trivial
  | succ n ih =>
    rw [submits, List.range_succ, List.map_append, ← submits]
    refine along_append ih ⟨?_, trivial⟩
    cases (submits n).foldl State.step s <;> trivial

/-- A block with `n` transactions. -/
def bigBlock (n : Nat) : List Event := .open :: (submits n ++ [.produce])

theorem bigBlock_run (n : Nat) : State.Along CleanStep (.closed []) (bigBlock n) ∧
    ∃ chain : Chain, chain.pending.length = n ∧ chain.currentHeight = 0 ∧
      State.run (bigBlock n) = .running chain.produceBlock.2 := by
  obtain ⟨chain, hrun, -, hh, hlen, -⟩ := run_submits n
    (show (Chain.open []).pending = [] by rw [open_empty]) (by rw [open_empty]; decide)
  rw [open_empty] at hh
  have hh : chain.currentHeight = 0 := hh
  refine ⟨⟨trivial, along_append (along_submits n _) ?_⟩, chain, hlen, hh, ?_⟩
  · show State.Along CleanStep ((submits n).foldl State.step (.running (Chain.open []))) [.produce]
    rw [hrun]
    refine ⟨?_, trivial⟩
    show chain.currentHeight.toNat + 1 < 2 ^ 64
    rw [hh]
    decide
  · rw [State.run, bigBlock, List.foldl_cons, List.foldl_append]
    show [Event.produce].foldl State.step
      ((submits n).foldl State.step (.running (Chain.open []))) = _
    rw [hrun]
    rfl

/-- The block of 2³² transactions is stored and does not parse. -/
theorem replays_of_fits_counterexample :
    State.Along CleanStep (.closed []) (bigBlock (2 ^ 32)) ∧
      ∃ chain, State.run (bigBlock (2 ^ 32)) = .running chain ∧ ¬ Replays chain := by
  obtain ⟨hc, chain, hlen, hh, hrun⟩ := bigBlock_run (2 ^ 32)
  refine ⟨hc, _, hrun, ?_⟩
  rintro ⟨blocks, ledgers, h⟩
  have hr := h.readable 1 (by rw [Chain.produceBlock_snd, hh]; exact Nat.le_refl 1)
  rw [Chain.produceBlock_snd, Chain.getBlock, KVStore.get, data_putAll, Chain.produceBlockPuts_eq,
    List.foldl_append, List.foldl_cons, List.foldl_nil, putData_of_ne (blockKey_ne_snapshot _),
    blockPuts_block, if_pos (by rw [Chain.nextBlock, hh]; rfl), Option.bind_some,
    parseBlock_serialize_none hlen] at hr
  cases hr

end L1
end Techuila
