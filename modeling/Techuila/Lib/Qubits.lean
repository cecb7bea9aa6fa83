import Mathlib.Algebra.BigOperators.Intervals
import Mathlib.Algebra.Star.Basic
import Mathlib.Data.Nat.Bitwise
import Mathlib.Tactic.Ring

/-!
# Registers of qubits

The amplitudes of a register of `n` qubits are a function of the index; bit `t` of the index is the
value of qubit `t`. They are in a commutative ring with a conjugation.

* `withBit`: an index with one bit set. `flipIf`: with bit `t` flipped where bit `c` is set.
* `gate`: a matrix on one qubit, as the identity on the others. `cnot`: a controlled flip.
* `gate_comm`: gates on different qubits commute. `gate_gate`: on one qubit they multiply.
* `total_gate`, `total_cnot`: what keeps the sum of `|a|²`.
-/

namespace Techuila
namespace Qubits

/-! ## Indices -/

/-- The index with bit `t` set to `b`. -/
def withBit (i t : Nat) (b : Bool) : Nat := if i.testBit t = b then i else i ^^^ 2 ^ t

/-- The index with bit `t` flipped, where bit `c` is set. -/
def flipIf (c t i : Nat) : Nat := if i.testBit c then i ^^^ 2 ^ t else i

theorem testBit_flip (i t k : Nat) :
    (i ^^^ 2 ^ t).testBit k = if k = t then !i.testBit t else i.testBit k := by
  rw [Nat.testBit_xor, Nat.testBit_two_pow]
  split
  · rename_i h
    simp [h]
  · rename_i h
    simp [Ne.symm h]

@[simp] theorem testBit_withBit (i t k : Nat) (b : Bool) :
    (withBit i t b).testBit k = if k = t then b else i.testBit k := by
  unfold withBit
  split
  · rename_i h
    split
    · rename_i hk
      rw [hk, h]
    · rfl
  · rename_i h
    rw [testBit_flip]
    split
    · cases b <;> simpa using h
    · rfl

theorem withBit_self (i t : Nat) : withBit i t (i.testBit t) = i := if_pos rfl

@[simp] theorem withBit_withBit (i t : Nat) (b c : Bool) :
    withBit (withBit i t b) t c = withBit i t c :=
  Nat.eq_of_testBit_eq fun k => by
    simp only [testBit_withBit]
    split <;> rfl

theorem withBit_comm (i : Nat) {t u : Nat} (h : t ≠ u) (b c : Bool) :
    withBit (withBit i t b) u c = withBit (withBit i u c) t b :=
  Nat.eq_of_testBit_eq fun k => by
    simp only [testBit_withBit]
    by_cases hu : k = u
    · have ht : k ≠ t := fun ht => h (ht.symm.trans hu)
      simp [hu, Ne.symm h]
    · simp [hu]

theorem flip_eq (i t : Nat) : i ^^^ 2 ^ t = withBit i t (!i.testBit t) := by
  unfold withBit
  cases i.testBit t <;> rfl

theorem withBit_true (i t : Nat) : withBit i t true = i ||| 2 ^ t :=
  Nat.eq_of_testBit_eq fun k => by
    rw [testBit_withBit, Nat.testBit_or, Nat.testBit_two_pow]
    by_cases h : k = t
    · simp [h]
    · simp [h, Ne.symm h]

theorem flip_lt {i t n : Nat} (ht : t < n) (h : i < 2 ^ n) : i ^^^ 2 ^ t < 2 ^ n :=
  Nat.xor_lt_two_pow h (Nat.pow_lt_pow_right (by decide) ht)

theorem flip_flip (i t : Nat) : i ^^^ 2 ^ t ^^^ 2 ^ t = i := by
  rw [Nat.xor_assoc, Nat.xor_self, Nat.xor_zero]

theorem withBit_lt_iff {i t n : Nat} (ht : t < n) (b : Bool) :
    withBit i t b < 2 ^ n ↔ i < 2 ^ n := by
  unfold withBit
  split
  · rfl
  · exact ⟨fun h => flip_flip i t ▸ flip_lt ht h, flip_lt ht⟩

theorem flipIf_flipIf {c t : Nat} (h : c ≠ t) (i : Nat) : flipIf c t (flipIf c t i) = i := by
  unfold flipIf
  by_cases hc : i.testBit c = true
  · have hkeep : (i ^^^ 2 ^ t).testBit c = true := by rw [testBit_flip, if_neg h, hc]
    rw [if_pos hc, if_pos hkeep, flip_flip]
  · rw [if_neg hc, if_neg hc]

theorem flipIf_lt {c t n i : Nat} (ht : t < n) (h : i < 2 ^ n) : flipIf c t i < 2 ^ n := by
  unfold flipIf
  split
  · exact flip_lt ht h
  · exact h

/-! ## Operators -/

section Operators

variable {R : Type} [CommRing R]

/-- The matrix on qubit `t`, and the identity on the others. -/
def gate (t : Nat) (m : Bool → Bool → R) (ψ : Nat → R) (i : Nat) : R :=
  m (i.testBit t) false * ψ (withBit i t false) + m (i.testBit t) true * ψ (withBit i t true)

def cnot (c t : Nat) (ψ : Nat → R) (i : Nat) : R := ψ (flipIf c t i)

theorem gate_comm {t u : Nat} (h : t ≠ u) (m m' : Bool → Bool → R) (ψ : Nat → R) :
    gate t m (gate u m' ψ) = gate u m' (gate t m ψ) := by
  funext i
  simp only [gate, testBit_withBit, if_neg h, if_neg (Ne.symm h), withBit_comm i h]
  ring

/-- Matrices on one qubit multiply. -/
theorem gate_gate (t : Nat) (m m' : Bool → Bool → R) (ψ : Nat → R) :
    gate t m (gate t m' ψ) =
      gate t (fun b c => m b false * m' false c + m b true * m' true c) ψ := by
  funext i
  simp only [gate, testBit_withBit, if_true, withBit_withBit]
  ring

theorem gate_one (t : Nat) (ψ : Nat → R) :
    gate t (fun b c => if b = c then 1 else 0) ψ = ψ := by
  funext i
  have hi := withBit_self i t
  unfold gate
  cases h : i.testBit t with
  | false => simpa using congrArg ψ (h ▸ hi)
  | true => simpa using congrArg ψ (h ▸ hi)

omit [CommRing R] in
theorem cnot_cnot {c t : Nat} (h : c ≠ t) (ψ : Nat → R) : cnot c t (cnot c t ψ) = ψ :=
  funext fun i => congrArg ψ (flipIf_flipIf h i)

end Operators

/-! ## Norms -/

section Norms

variable {R : Type} [CommRing R] [StarRing R]

/-- `|a|²`. -/
def normSq (a : R) : R := a * star a

def total (n : Nat) (ψ : Nat → R) : R := (Finset.range (2 ^ n)).sum fun i => normSq (ψ i)

/-- The matrix keeps `|a|² + |b|²`. -/
def Isometry (m : Bool → Bool → R) : Prop := ∀ a b : R,
  normSq (m false false * a + m false true * b) + normSq (m true false * a + m true true * b) =
    normSq a + normSq b

omit [StarRing R] in
/-- A sum over the indices is one over the pairs of indices that differ in bit `t`. -/
theorem sum_pairs {n t : Nat} (ht : t < n) (f : Nat → R) :
    (Finset.range (2 ^ n)).sum f =
      ((Finset.range (2 ^ n)).filter (·.testBit t = false)).sum
        fun i => f (withBit i t false) + f (withBit i t true) := by
  have hlow : ((Finset.range (2 ^ n)).filter (·.testBit t = false)).sum f =
      ((Finset.range (2 ^ n)).filter (·.testBit t = false)).sum fun i => f (withBit i t false) := by
    refine Finset.sum_congr rfl fun i hi => ?_
    have hbit := (Finset.mem_filter.mp hi).2
    exact congrArg f (hbit ▸ withBit_self i t).symm
  have hhigh : ((Finset.range (2 ^ n)).filter (¬ ·.testBit t = false)).sum f =
      ((Finset.range (2 ^ n)).filter (·.testBit t = false)).sum fun i => f (withBit i t true) := by
    refine Finset.sum_nbij' (withBit · t false) (withBit · t true) ?_ ?_ ?_ ?_ ?_
    · intro i hi
      simp only [Finset.mem_filter, Finset.mem_range] at hi ⊢
      exact ⟨(withBit_lt_iff ht _).mpr hi.1, by simp⟩
    · intro i hi
      simp only [Finset.mem_filter, Finset.mem_range] at hi ⊢
      exact ⟨(withBit_lt_iff ht _).mpr hi.1, by simp⟩
    · intro i hi
      have hbit : i.testBit t = true := by simpa using (Finset.mem_filter.mp hi).2
      rw [withBit_withBit, ← hbit, withBit_self]
    · intro i hi
      have hbit : i.testBit t = false := (Finset.mem_filter.mp hi).2
      rw [withBit_withBit, ← hbit, withBit_self]
    · intro i hi
      have hbit : i.testBit t = true := by simpa using (Finset.mem_filter.mp hi).2
      rw [withBit_withBit, ← hbit, withBit_self]
  rw [← Finset.sum_filter_add_sum_filter_not _ (·.testBit t = false), hlow, hhigh,
    Finset.sum_add_distrib]

theorem total_gate {n t : Nat} (ht : t < n) {m : Bool → Bool → R} (hm : Isometry m)
    (ψ : Nat → R) : total n (gate t m ψ) = total n ψ := by
  unfold total
  rw [sum_pairs ht, sum_pairs ht]
  refine Finset.sum_congr rfl fun i _ => ?_
  simp only [gate, testBit_withBit, if_true, withBit_withBit]
  exact hm _ _

theorem total_cnot {n c t : Nat} (ht : t < n) (h : c ≠ t) (ψ : Nat → R) :
    total n (cnot c t ψ) = total n ψ := by
  unfold total
  refine Finset.sum_nbij' (flipIf c t) (flipIf c t) ?_ ?_ (fun i _ => flipIf_flipIf h i)
    (fun i _ => flipIf_flipIf h i) fun i _ => rfl
  · exact fun i hi => Finset.mem_range.mpr (flipIf_lt ht (Finset.mem_range.mp hi))
  · exact fun i hi => Finset.mem_range.mpr (flipIf_lt ht (Finset.mem_range.mp hi))

end Norms

end Qubits
end Techuila
