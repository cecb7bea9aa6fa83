import Mathlib.Algebra.BigOperators.Fin
import Techuila.Lib.PairScan
import Techuila.Lib.Qubits

/-!
# The state-vector simulator (`15-quantum/simulator/qsim.hpp`, `qsim.cpp`)

Amplitudes are in a commutative ring with a conjugation in place of `std::complex<double>`;
`std::norm` of an amplitude is `Qubits.normSq`.

* `QuantumState`: `2 ^ n` amplitudes. With `n` below 32 the index of a loop does not wrap.
* `applySingleQubitGate`, `applyX`, `applyZ`, `applyH`, `applyCNOT`: `none` is an access outside of
  the vector.
* `QuantumState.amp_applySingleQubitGate`, `amp_applyCNOT`: the loops compute the operators.
-/

namespace Techuila
namespace Quantum

structure QuantumState (n : Nat) (R : Type) where
  amplitudes : Vector R (2 ^ n)

variable {n : Nat} {R : Type} [CommRing R] [StarRing R]

namespace QuantumState

def amplitude (q : QuantumState n R) (basisIndex : UInt32) : Option R :=
  q.amplitudes[basisIndex.toNat]?

def totalProbability (q : QuantumState n R) : R :=
  q.amplitudes.foldl (fun sum amp => sum + Qubits.normSq amp) 0

/-- The body of the loop of `applySingleQubitGate`. -/
def visitPair (bit : UInt32) (m00 m01 m10 m11 : R) (amplitudes : Vector R (2 ^ n)) (i : UInt32) :
    Option (Vector R (2 ^ n)) :=
  if i &&& bit ≠ 0 then some amplitudes
  else do
    let j := i ||| bit
    let a0 ← amplitudes[i.toNat]?
    let a1 ← amplitudes[j.toNat]?
    some ((amplitudes.setIfInBounds i.toNat (m00 * a0 + m01 * a1)).setIfInBounds j.toNat
      (m10 * a0 + m11 * a1))

def applySingleQubitGate (q : QuantumState n R) (target : UInt32) (m00 m01 m10 m11 : R) :
    Option (QuantumState n R) := do
  let bit : UInt32 := 1 <<< target
  let amplitudes ← (List.range (2 ^ n)).foldlM
    (fun amplitudes i => visitPair bit m00 m01 m10 m11 amplitudes (UInt32.ofNat i)) q.amplitudes
  some ⟨amplitudes⟩

def applyX (q : QuantumState n R) (target : UInt32) : Option (QuantumState n R) :=
  q.applySingleQubitGate target 0 1 1 0

def applyZ (q : QuantumState n R) (target : UInt32) : Option (QuantumState n R) :=
  q.applySingleQubitGate target 1 0 0 (-1)

/-- `s` stands for `1.0 / std::sqrt(2.0)`. -/
def applyH (s : R) (q : QuantumState n R) (target : UInt32) : Option (QuantumState n R) :=
  q.applySingleQubitGate target s s s (-s)

/-- The body of the loop of `applyCNOT`. -/
def visitControlled (controlBit targetBit : UInt32) (amplitudes : Vector R (2 ^ n)) (i : UInt32) :
    Option (Vector R (2 ^ n)) :=
  if i &&& controlBit ≠ 0 ∧ i &&& targetBit = 0 then do
    let j := i ||| targetBit
    let a ← amplitudes[i.toNat]?
    let b ← amplitudes[j.toNat]?
    some ((amplitudes.setIfInBounds i.toNat b).setIfInBounds j.toNat a)
  else some amplitudes

def applyCNOT (q : QuantumState n R) (control target : UInt32) : Option (QuantumState n R) := do
  let controlBit : UInt32 := 1 <<< control
  let targetBit : UInt32 := 1 <<< target
  let amplitudes ← (List.range (2 ^ n)).foldlM
    (fun amplitudes i => visitControlled controlBit targetBit amplitudes (UInt32.ofNat i))
    q.amplitudes
  some ⟨amplitudes⟩

end QuantumState

/-! ## Masks -/

theorem toNat_bit {t : UInt32} (ht : t.toNat < 32) : ((1 : UInt32) <<< t).toNat = 2 ^ t.toNat := by
  rw [UInt32.toNat_shiftLeft, Nat.mod_eq_of_lt ht, UInt32.toNat_one, Nat.shiftLeft_eq, Nat.one_mul]
  exact Nat.mod_eq_of_lt (Nat.pow_lt_pow_right (by decide) ht)

theorem toNat_index (hn : n < 32) {i : Nat} (hi : i < 2 ^ n) : (UInt32.ofNat i).toNat = i := by
  rw [UInt32.toNat_ofNat']
  exact Nat.mod_eq_of_lt (hi.trans (Nat.pow_lt_pow_right (by decide) hn))

theorem and_bit (hn : n < 32) {i : Nat} (hi : i < 2 ^ n) {t : UInt32} (ht : t.toNat < n) :
    UInt32.ofNat i &&& 1 <<< t = 0 ↔ i.testBit t.toNat = false := by
  rw [← UInt32.toNat_inj, UInt32.toNat_and, toNat_bit (ht.trans hn), toNat_index hn hi,
    Nat.and_two_pow, UInt32.toNat_zero]
  cases i.testBit t.toNat <;> simp

theorem or_bit (hn : n < 32) {i : Nat} (hi : i < 2 ^ n) {t : UInt32} (ht : t.toNat < n) :
    (UInt32.ofNat i ||| 1 <<< t).toNat = Qubits.withBit i t.toNat true := by
  rw [UInt32.toNat_or, toNat_bit (ht.trans hn), toNat_index hn hi, Qubits.withBit_true]

/-! ## The loops -/

/-- The indices with bit `t` clear lead, those with it set are their partners. -/
theorem partners {t : Nat} (ht : t < n) {leads : Nat → Bool}
    (hclear : ∀ i, leads i = true → i.testBit t = false) :
    PairScan.Partners (2 ^ n) leads (Qubits.withBit · t true) where
  lt i hi _ := (Qubits.withBit_lt_iff ht true).mpr hi
  follows i _ _ := by
    by_contra hl
    have hbit := hclear _ (by simpa using hl)
    rw [Qubits.testBit_withBit, if_pos rfl] at hbit
    cases hbit
  inj i _ j _ hi hj h := by
    have hback := congrArg (Qubits.withBit · t false) h
    simp only [Qubits.withBit_withBit] at hback
    rwa [← hclear i hi, Qubits.withBit_self, hclear i hi, ← hclear j hj, Qubits.withBit_self]
      at hback

namespace QuantumState

/-- The amplitudes as a function of the index, zero from `2 ^ n` on. -/
def amp (q : QuantumState n R) (i : Nat) : R := q.amplitudes[i]?.getD 0

omit [StarRing R] in
theorem getElem?_amp (q : QuantumState n R) {i : Nat} (hi : i < 2 ^ n) :
    q.amplitudes[i]? = some (q.amp i) := by
  rw [amp, Vector.getElem?_eq_getElem hi]
  rfl

omit [StarRing R] in
theorem amp_of_le (q : QuantumState n R) {i : Nat} (hi : ¬ i < 2 ^ n) : q.amp i = 0 := by
  rw [amp, Vector.getElem?_eq_none (Nat.le_of_not_lt hi)]
  rfl

omit [StarRing R] in
theorem amp_eq_of_getElem? {q : QuantumState n R} {i : Nat} {a : R}
    (h : q.amplitudes[i]? = some a) : q.amp i = a := by
  rw [amp, h]
  rfl

omit [StarRing R] in
theorem ext_amp {q q' : QuantumState n R} (h : q.amp = q'.amp) : q = q' := by
  obtain ⟨v⟩ := q
  obtain ⟨v'⟩ := q'
  refine congrArg _ (Vector.ext fun i hi => ?_)
  have hget := congrFun h i
  rw [amp, amp, Vector.getElem?_eq_getElem hi, Vector.getElem?_eq_getElem hi] at hget
  exact hget

omit [StarRing R] in
/-- The loop over the pairs computes the matrix on the target. -/
theorem amp_applySingleQubitGate (hn : n < 32) (q : QuantumState n R) {target : UInt32}
    (ht : target.toNat < n) (m : Bool → Bool → R) : ∃ q', q.applySingleQubitGate target
      (m false false) (m false true) (m true false) (m true true) = some q' ∧
      q'.amp = Qubits.gate target.toNat m q.amp := by
  have hstep : ∀ v : Vector R (2 ^ n), ∀ i < 2 ^ n, visitPair (1 <<< target)
      (m false false) (m false true) (m true false) (m true true) v (UInt32.ofNat i) =
      PairScan.visit (fun i => !i.testBit target.toNat) (Qubits.withBit · target.toNat true)
        (fun a b => (m false false * a + m false true * b, m true false * a + m true true * b))
        v i := by
    intro v i hi
    have hbit := and_bit hn hi ht
    simp only [visitPair, PairScan.visit, toNat_index hn hi, or_bit hn hi ht]
    cases h : i.testBit target.toNat with
    | false => simp only [hbit.mpr h, ne_eq, not_true, if_false, Bool.not_false, if_true]
    | true =>
      rw [h] at hbit
      simp [hbit]
  obtain ⟨v, hscan, hs⟩ := PairScan.scan_spec
    (partners ht fun i (h : (!i.testBit target.toNat) = true) => by simpa using h)
    (F := fun a b => (m false false * a + m false true * b, m true false * a + m true true * b))
    q.amplitudes
  refine ⟨⟨v⟩, ?_, funext fun i => ?_⟩
  · rw [applySingleQubitGate, PairScan.scan_eq hstep, hscan]
    rfl
  · by_cases hi : i < 2 ^ n
    · -- the pair of `i` is led by the index with the bit clear
      have hlow := (Qubits.withBit_lt_iff ht false).mpr hi
      have hhigh := (Qubits.withBit_lt_iff ht true).mpr hi
      obtain ⟨h0, h1⟩ := hs.pair _ hlow (by simp) _ _ (q.getElem?_amp hlow)
        (by rw [Qubits.withBit_withBit]; exact q.getElem?_amp hhigh)
      have hself := Qubits.withBit_self i target.toNat
      unfold Qubits.gate
      cases h : i.testBit target.toNat with
      | false =>
        rw [h] at hself
        refine amp_eq_of_getElem? (Eq.trans ?_ h0)
        rw [hself]
      | true =>
        rw [h] at hself
        rw [Qubits.withBit_withBit] at h1
        refine amp_eq_of_getElem? (Eq.trans ?_ h1)
        rw [hself]
    · rw [amp_of_le _ hi, Qubits.gate,
        q.amp_of_le (mt (Qubits.withBit_lt_iff ht false).mp hi),
        q.amp_of_le (mt (Qubits.withBit_lt_iff ht true).mp hi)]
      ring

omit [StarRing R] in
/-- The loop over the pairs with the control set computes the controlled flip. -/
theorem amp_applyCNOT (hn : n < 32) (q : QuantumState n R) {control target : UInt32}
    (hc : control.toNat < n) (ht : target.toNat < n) (hne : control ≠ target) :
    ∃ q', q.applyCNOT control target = some q' ∧
      q'.amp = Qubits.cnot control.toNat target.toNat q.amp := by
  have hne : control.toNat ≠ target.toNat := fun h => hne (UInt32.toNat_inj.mp h)
  have hstep : ∀ v : Vector R (2 ^ n), ∀ i < 2 ^ n,
      visitControlled (1 <<< control) (1 <<< target) v (UInt32.ofNat i) =
      PairScan.visit (fun i => i.testBit control.toNat && !i.testBit target.toNat)
        (Qubits.withBit · target.toNat true) (fun a b => (b, a)) v i := by
    intro v i hi
    simp only [visitControlled, PairScan.visit, toNat_index hn hi, or_bit hn hi ht, ne_eq,
      and_bit hn hi hc, and_bit hn hi ht, Bool.not_eq_false, Bool.and_eq_true, Bool.not_eq_true']
  obtain ⟨v, hscan, hs⟩ := PairScan.scan_spec (F := fun a b => (b, a))
    (partners ht fun i (h : (i.testBit control.toNat && !i.testBit target.toNat) = true) =>
      by simpa using (Bool.and_eq_true_iff.mp h).2) q.amplitudes
  refine ⟨⟨v⟩, ?_, funext fun i => ?_⟩
  · rw [applyCNOT, PairScan.scan_eq hstep, hscan]
    rfl
  · unfold Qubits.cnot Qubits.flipIf
    by_cases hi : i < 2 ^ n
    · by_cases hbit : i.testBit control.toNat = true
      · have hlow := (Qubits.withBit_lt_iff ht false).mpr hi
        have hhigh := (Qubits.withBit_lt_iff ht true).mpr hi
        obtain ⟨h0, h1⟩ := hs.pair _ hlow (by simp [hne, hbit]) _ _ (q.getElem?_amp hlow)
          (by rw [Qubits.withBit_withBit]; exact q.getElem?_amp hhigh)
        have hself := Qubits.withBit_self i target.toNat
        rw [if_pos hbit, Qubits.flip_eq]
        cases h : i.testBit target.toNat with
        | false =>
          rw [h] at hself
          refine amp_eq_of_getElem? (Eq.trans ?_ h0)
          rw [hself]
        | true =>
          rw [h] at hself
          rw [Qubits.withBit_withBit] at h1
          refine amp_eq_of_getElem? (Eq.trans ?_ h1)
          rw [hself]
      · rw [if_neg hbit]
        refine amp_eq_of_getElem? ((hs.rest i fun j _ hl => ?_).trans (q.getElem?_amp hi))
        have hjc := (Bool.and_eq_true_iff.mp hl).1
        constructor
        · rintro rfl
          exact hbit hjc
        · rintro rfl
          rw [Qubits.testBit_withBit, if_neg hne] at hbit
          exact hbit hjc
    · rw [amp_of_le _ hi]
      split
      · exact (q.amp_of_le fun h => hi (Qubits.flip_flip i _ ▸ Qubits.flip_lt ht h)).symm
      · exact (q.amp_of_le hi).symm

/-- The sum over the amplitudes is the one over the indices. -/
theorem totalProbability_eq (q : QuantumState n R) :
    q.totalProbability = Qubits.total n q.amp := by
  have hsum : ∀ (l : List R) (b : R), l.foldl (fun sum amp => sum + Qubits.normSq amp) b =
      b + (l.map Qubits.normSq).sum := by
    intro l
    induction l with
    | nil => exact fun b => (add_zero b).symm
    | cons a l ih =>
      intro b
      rw [List.foldl_cons, ih, List.map_cons, List.sum_cons, add_assoc]
  rw [totalProbability, ← Vector.foldl_toList, hsum, zero_add, Qubits.total, Finset.sum_range,
    ← List.sum_ofFn]
  refine congrArg List.sum (List.ext_getElem (by simp) fun i hi _ => ?_)
  have hi : i < 2 ^ n := by simpa using hi
  rw [List.getElem_map, List.getElem_ofFn, amp, Vector.getElem?_eq_getElem hi, Option.getD_some]
  rfl

omit [StarRing R] in
/-- Two gates, one after the other. -/
theorem amp_bind {f g : QuantumState n R → Option (QuantumState n R)}
    {F G : (Nat → R) → Nat → R} (hf : ∀ q, ∃ q', f q = some q' ∧ q'.amp = F q.amp)
    (hg : ∀ q, ∃ q', g q = some q' ∧ q'.amp = G q.amp) (q : QuantumState n R) :
    ∃ q', (f q).bind g = some q' ∧ q'.amp = G (F q.amp) := by
  obtain ⟨q₁, h₁, ha₁⟩ := hf q
  obtain ⟨q₂, h₂, ha₂⟩ := hg q₁
  exact ⟨q₂, by rw [h₁, Option.bind_some, h₂], by rw [ha₂, ha₁]⟩

omit [StarRing R] in
/-- A gate whose operator is its own inverse gives the state back. -/
theorem bind_self {f : QuantumState n R → Option (QuantumState n R)}
    {F : (Nat → R) → Nat → R} (hf : ∀ q, ∃ q', f q = some q' ∧ q'.amp = F q.amp)
    (hF : ∀ ψ, F (F ψ) = ψ) (q : QuantumState n R) : (f q).bind f = some q := by
  obtain ⟨q', h, ha⟩ := amp_bind hf hf q
  rw [h, ext_amp (ha.trans (hF _))]

end QuantumState

end Quantum
end Techuila
