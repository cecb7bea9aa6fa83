import Techuila.L1.Ledger

/-!
# Conservation and replay protection

* `Ledger.total_apply`: what a transaction does to the sum of the balances.
* `Ledger.nonce_apply`: what it does to the nonces.
* `Ledger.conserves_iff_fits`: a run keeps the sum in every call exactly if no transfer brings a
  recipient to 2^64; it is protected against replays in any case.
-/

namespace Techuila
namespace L1
namespace Ledger

theorem find_set (ledger : Ledger) (addr addr' : Address) (state : AccountState) :
    (ledger.set addr state).get addr' = if addr' = addr then state else ledger.get addr' := by
  have h := SortedTable.find_insert ledger.accounts addr addr' state
  rw [get, set, h]
  split
  · rfl
  · rfl

/-! ## The sum of the balances -/

/-- The sum of all balances, a natural number. -/
def total (ledger : Ledger) : Nat := (ledger.accounts.entries.map (·.2.balance.toNat)).sum

theorem total_set (ledger : Ledger) (addr : Address) (state : AccountState) :
    (ledger.set addr state).total + (ledger.get addr).balance.toNat =
      ledger.total + state.balance.toNat := by
  have h := SortedTable.sum_insert (fun state : AccountState => state.balance.toNat)
    ledger.accounts addr state
  have hget : ((ledger.accounts.find addr).map fun state => state.balance.toNat).getD 0 =
      (ledger.get addr).balance.toNat := by
    rw [get]
    cases ledger.accounts.find addr with
    | none => rfl
    | some state => rfl
  rw [hget] at h
  exact h

/-- The checks of `apply`. -/
def Accepts (ledger : Ledger) (tx : Transaction) : Prop :=
  tx.nonce = (ledger.get tx.from).nonce ∧ tx.amount ≤ (ledger.get tx.from).balance

/-- The ledger after the debit. -/
def debit (ledger : Ledger) (tx : Transaction) : Ledger :=
  ledger.set tx.from ⟨(ledger.get tx.from).balance - tx.amount, (ledger.get tx.from).nonce + 1⟩

theorem apply_accepted {ledger : Ledger} {tx : Transaction} (h : ledger.Accepts tx) :
    ledger.apply tx = (.ok, (ledger.debit tx).set tx.to { (ledger.debit tx).get tx.to with
      balance := ((ledger.debit tx).get tx.to).balance + tx.amount }) := by
  unfold apply
  rw [if_neg (not_not.mpr h.1), if_neg (UInt64.not_lt.mpr h.2)]
  rfl

theorem apply_rejected {ledger : Ledger} {tx : Transaction} (h : ¬ ledger.Accepts tx) :
    (ledger.apply tx).1 ≠ .ok ∧ (ledger.apply tx).2 = ledger := by
  have hne : (ledger.apply tx).1 ≠ .ok := by
    unfold apply
    dsimp only
    split
    · exact fun h => by cases h
    · rename_i hn
      split
      · exact fun h => by cases h
      · rename_i hb
        exact absurd ⟨not_not.mp hn, UInt64.not_lt.mp hb⟩ h
  exact ⟨hne, apply_failed hne⟩

theorem apply_ok_iff {ledger : Ledger} {tx : Transaction} :
    (ledger.apply tx).1 = .ok ↔ ledger.Accepts tx := by
  refine ⟨fun h => by_contra fun hr => (apply_rejected hr).1 h, fun h => ?_⟩
  rw [apply_accepted h]

/-- A transfer to another account leaves the recipient below 2^64. -/
def Fits (ledger : Ledger) (tx : Transaction) : Prop :=
  ledger.Accepts tx → tx.from ≠ tx.to →
    (ledger.get tx.to).balance.toNat + tx.amount.toNat < 2 ^ 64

theorem recipient_fits_iff {ledger : Ledger} {tx : Transaction} (h : ledger.Accepts tx) :
    ((ledger.debit tx).get tx.to).balance.toNat + tx.amount.toNat < 2 ^ 64 ↔ ledger.Fits tx := by
  rw [debit, find_set]
  by_cases he : tx.to = tx.from
  · rw [if_pos he]
    refine iff_of_true ?_ fun _ hne => absurd he.symm hne
    have hb := UInt64.toNat_sub_of_le _ _ h.2
    have hle := UInt64.le_iff_toNat_le.mp h.2
    have hlt := (ledger.get tx.from).balance.toNat_lt
    dsimp only
    omega
  · rw [if_neg he]
    exact ⟨fun hf _ _ => hf, fun hf => hf h (Ne.symm he)⟩

/-- An accepted transaction keeps the sum exactly if it fits. -/
theorem total_apply {ledger : Ledger} {tx : Transaction} :
    (ledger.apply tx).2.total = ledger.total ↔ ledger.Fits tx := by
  by_cases h : ledger.Accepts tx
  · have hdebit := total_set ledger tx.from
      ⟨(ledger.get tx.from).balance - tx.amount, (ledger.get tx.from).nonce + 1⟩
    have hcredit := total_set (ledger.debit tx) tx.to { (ledger.debit tx).get tx.to with
      balance := ((ledger.debit tx).get tx.to).balance + tx.amount }
    have hb := UInt64.toNat_sub_of_le _ _ h.2
    have hle := UInt64.le_iff_toNat_le.mp h.2
    rw [apply_accepted h, ← recipient_fits_iff h]
    rw [← debit] at hdebit
    dsimp only at hdebit hcredit ⊢
    rw [UInt64.toNat_add] at hcredit
    have hlt := tx.amount.toNat_lt
    have hlt' := ((ledger.debit tx).get tx.to).balance.toNat_lt
    constructor
    · intro he
      by_contra hover
      have hmod : (((ledger.debit tx).get tx.to).balance.toNat + tx.amount.toNat) % 2 ^ 64 =
          ((ledger.debit tx).get tx.to).balance.toNat + tx.amount.toNat - 2 ^ 64 := by
        omega
      omega
    · intro hfit
      rw [Nat.mod_eq_of_lt hfit] at hcredit
      omega
  · rw [(apply_rejected h).2]
    exact iff_of_true rfl fun ha => absurd ha h

/-! ## Nonces -/

/-- Only the sender's nonce moves, by one. -/
theorem nonce_apply {ledger : Ledger} {tx : Transaction} (h : ledger.Accepts tx) (addr : Address) :
    ((ledger.apply tx).2.get addr).nonce =
      if addr = tx.from then (ledger.get addr).nonce + 1 else (ledger.get addr).nonce := by
  have hdebit : ∀ addr, ((ledger.debit tx).get addr).nonce =
      if addr = tx.from then (ledger.get addr).nonce + 1 else (ledger.get addr).nonce := by
    intro addr
    rw [debit, find_set]
    split
    · rename_i he
      rw [he]
    · rfl
  rw [apply_accepted h, ← hdebit addr]
  dsimp only
  rw [find_set]
  split
  · rename_i he
    rw [he]
  · rfl

/-! ## Runs -/

/-- The ledger after the first `i` calls. -/
def after (ledger : Ledger) (txs : List Transaction) (i : Nat) : Ledger :=
  (txs.take i).foldl (fun ledger tx => (ledger.apply tx).2) ledger

theorem after_succ (ledger : Ledger) {txs : List Transaction} {i : Nat} {tx : Transaction}
    (h : txs[i]? = some tx) :
    ledger.after txs (i + 1) = ((ledger.after txs i).apply tx).2 := by
  rw [after, after, List.take_add_one, h, List.foldl_append]
  rfl

/-- What holds of every call of a run from `ledger`. -/
structure Conserves (ledger : Ledger) (txs : List Transaction) : Prop where
  total : ∀ i tx, txs[i]? = some tx →
    (ledger.after txs (i + 1)).total = (ledger.after txs i).total
  rejected : ∀ i tx, txs[i]? = some tx → ((ledger.after txs i).apply tx).1 ≠ .ok →
    ledger.after txs (i + 1) = ledger.after txs i
  replay : ∀ i j tx tx', i < j → txs[i]? = some tx → txs[j]? = some tx' →
    ((ledger.after txs i).apply tx).1 = .ok → ((ledger.after txs j).apply tx').1 = .ok →
    (tx.from, tx.nonce) ≠ (tx'.from, tx'.nonce)

/-- From call `i` to call `j`, a nonce moves by at most `j - i`, and by at least one if call `i` is
an accepted one of the account. -/
theorem nonce_after (ledger : Ledger) (txs : List Transaction) {i : Nat} {tx : Transaction}
    (h : txs[i]? = some tx) (ha : (ledger.after txs i).Accepts tx) {j : Nat} (hij : i < j)
    (hj : j ≤ txs.length) :
    ∃ n : Nat, 0 < n ∧ n ≤ j - i ∧
      ((ledger.after txs j).get tx.from).nonce = tx.nonce + UInt64.ofNat n := by
  induction j, hij using Nat.le_induction with
  | base =>
    refine ⟨1, Nat.one_pos, by omega, ?_⟩
    rw [after_succ ledger h, nonce_apply ha, if_pos rfl, ← ha.1]
    rfl
  | succ j hij ih =>
    obtain ⟨n, hpos, hn, hnonce⟩ := ih (by omega)
    obtain ⟨tx', htx'⟩ : ∃ tx', txs[j]? = some tx' := ⟨_, List.getElem?_eq_getElem (by omega)⟩
    rw [after_succ ledger htx']
    by_cases hacc : (ledger.after txs j).Accepts tx'
    · rw [nonce_apply hacc]
      split
      · refine ⟨n + 1, Nat.succ_pos n, by omega, ?_⟩
        rw [hnonce, UInt64.ofNat_add, UInt64.add_assoc]
        rfl
      · exact ⟨n, hpos, by omega, hnonce⟩
    · rw [(apply_rejected hacc).2]
      exact ⟨n, hpos, by omega, hnonce⟩

/-- In a run of fewer than 2^64 calls from a loaded snapshot, every call keeps the sum of the
balances, rejected calls change nothing and no nonce of an account is accepted twice, if and only
if no accepted transfer brings the balance of another account to 2^64. -/
theorem conserves_iff_fits (entries : List (Address × AccountState)) (txs : List Transaction)
    (hlen : txs.length < 2 ^ 64) :
    Conserves (loadSnapshot entries) txs ↔
      ∀ i tx, txs[i]? = some tx → ((loadSnapshot entries).after txs i).Fits tx := by
  constructor
  · intro h i tx htx
    rw [← total_apply, ← after_succ _ htx]
    exact h.total i tx htx
  · intro h
    refine ⟨fun i tx htx => ?_, fun i tx htx hr => ?_, fun i j tx tx' hij htx htx' ha ha' he => ?_⟩
    · rw [after_succ _ htx]
      exact total_apply.mpr (h i tx htx)
    · rw [after_succ _ htx]
      exact apply_failed hr
    · obtain ⟨hfrom, hnonce⟩ := Prod.mk.inj he
      have hj : j < txs.length := (List.getElem?_eq_some_iff.mp htx').1
      obtain ⟨n, hpos, hn, hafter⟩ := nonce_after _ txs htx (apply_ok_iff.mp ha) hij hj.le
      have hsame := (apply_ok_iff.mp ha').1
      rw [← hfrom, hafter, ← hnonce] at hsame
      -- the nonce came round, so the run has at least 2^64 calls
      have hround := congrArg UInt64.toNat hsame
      have hlt := tx.nonce.toNat_lt
      rw [UInt64.toNat_add, UInt64.toNat_ofNat', Nat.mod_eq_of_lt (by omega : n < 2 ^ 64)] at hround
      omega

/-! ## Examples -/

def alice : Address := ⟨List.replicate 20 1, rfl⟩
def bob : Address := ⟨List.replicate 20 2, rfl⟩

theorem conserves_iff_fits_transfer :
    Conserves (loadSnapshot [(alice, ⟨100, 0⟩)]) [⟨alice, bob, 30, 0⟩, ⟨alice, bob, 30, 0⟩] := by
  refine (conserves_iff_fits _ _ (by decide)).mpr fun i tx htx => ?_
  match i, htx with
  | 0, htx => cases htx; exact fun _ _ => by decide
  | 1, htx => cases htx; exact fun _ _ => by decide

theorem conserves_counterexample :
    ¬ Conserves (loadSnapshot [(alice, ⟨1, 0⟩), (bob, ⟨18446744073709551615, 0⟩)])
      [⟨alice, bob, 1, 0⟩] := by
  intro h
  exact absurd (h.total 0 _ rfl) (by decide)

end Ledger
end L1
end Techuila
