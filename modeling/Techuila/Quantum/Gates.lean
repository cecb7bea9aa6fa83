import Mathlib.NumberTheory.Zsqrtd.GaussianInt
import Techuila.Quantum.Simulator

/-!
# Sequences of gates (`15-quantum/simulator/qsim.cpp`)

* `run`: gates one after the other. `Gate.Fits`: the gate is on the register and keeps `|a|² + |b|²`.
* `isometry_x`, `isometry_z`, `isometry_h`: the gates that the simulator has do.
* `quantum_gates`: the loops are the operators, and what follows for sequences of gates.
-/

namespace Techuila
namespace Quantum

variable {n : Nat} {R : Type} [CommRing R] [StarRing R]

inductive Gate (R : Type)
  | single (target : UInt32) (m : Bool → Bool → R)
  | cnot (control target : UInt32)

def Gate.apply (q : QuantumState n R) : Gate R → Option (QuantumState n R)
  | .single target m => q.applySingleQubitGate target
      (m false false) (m false true) (m true false) (m true true)
  | .cnot control target => q.applyCNOT control target

def run (q : QuantumState n R) (gates : List (Gate R)) : Option (QuantumState n R) :=
  gates.foldlM Gate.apply q

/-- The gate is on qubits of the register, and its matrix keeps `|a|² + |b|²`. -/
def Gate.Fits (n : Nat) : Gate R → Prop
  | .single target m => target.toNat < n ∧ Qubits.Isometry m
  | .cnot control target => control.toNat < n ∧ target.toNat < n ∧ control ≠ target

def matrix (m00 m01 m10 m11 : R) (b c : Bool) : R :=
  if b then if c then m11 else m10 else if c then m01 else m00

theorem isometry_x : Qubits.Isometry (matrix (0 : R) 1 1 0) := fun a b => by
  simp [matrix, Qubits.normSq, add_comm]

theorem isometry_z : Qubits.Isometry (matrix (1 : R) 0 0 (-1)) := fun a b => by
  simp [matrix, Qubits.normSq]

/-- The matrix of `applyH` is an isometry when `s` is its own conjugate and `2 s²` is one. -/
theorem isometry_h {s : R} (hconj : star s = s) (hs : s * s + s * s = 1) :
    Qubits.Isometry (matrix s s s (-s)) := fun a b => by
  simp only [matrix, Qubits.normSq, star_add, star_mul', star_neg, hconj, if_true,
    Bool.false_eq_true, if_false]
  calc (s * a + s * b) * (s * star a + s * star b) +
        (s * a + -s * b) * (s * star a + -s * star b) =
      (s * s + s * s) * (a * star a + b * star b) := by ring
    _ = a * star a + b * star b := by rw [hs, one_mul]

theorem total_apply (hn : n < 32) (q : QuantumState n R) {g : Gate R} (hg : g.Fits n) :
    ∃ q', g.apply q = some q' ∧ q'.totalProbability = q.totalProbability := by
  cases g with
  | single target m =>
    obtain ⟨q', h, ha⟩ := q.amp_applySingleQubitGate hn hg.1 m
    refine ⟨q', h, ?_⟩
    rw [q'.totalProbability_eq, ha, Qubits.total_gate hg.1 hg.2, q.totalProbability_eq]
  | cnot control target =>
    obtain ⟨hc, ht, hne⟩ := hg
    obtain ⟨q', h, ha⟩ := q.amp_applyCNOT hn hc ht hne
    refine ⟨q', h, ?_⟩
    rw [q'.totalProbability_eq, ha, Qubits.total_cnot ht fun he => hne (UInt32.toNat_inj.mp he),
      q.totalProbability_eq]

theorem total_run (hn : n < 32) (q : QuantumState n R) {gates : List (Gate R)}
    (hg : ∀ g ∈ gates, g.Fits n) :
    ∃ q', run q gates = some q' ∧ q'.totalProbability = q.totalProbability := by
  induction gates generalizing q with
  | nil => exact ⟨q, rfl, rfl⟩
  | cons g gates ih =>
    obtain ⟨hfirst, hrest⟩ := List.forall_mem_cons.mp hg
    obtain ⟨q₁, h₁, ht₁⟩ := total_apply hn q hfirst
    obtain ⟨q₂, h₂, ht₂⟩ := ih q₁ hrest
    refine ⟨q₂, ?_, ht₂.trans ht₁⟩
    rw [run, List.foldlM_cons, h₁]
    exact h₂

/-- For every register and state: the single-qubit gate and the CNOT compute their operators; gates
on different qubits commute; X, Z and CNOT undo themselves; and gates that keep `|a|² + |b|²` keep the
total probability, in every sequence. -/
theorem quantum_gates (hn : n < 32) (q : QuantumState n R) :
    (∀ (target : UInt32) (m : Bool → Bool → R), target.toNat < n →
      ∃ q', q.applySingleQubitGate target
        (m false false) (m false true) (m true false) (m true true) = some q' ∧
        ∀ i < 2 ^ n, q'.amp i =
          m (i.testBit target.toNat) false * q.amp (Qubits.withBit i target.toNat false) +
          m (i.testBit target.toNat) true * q.amp (Qubits.withBit i target.toNat true)) ∧
    (∀ control target : UInt32, control.toNat < n → target.toNat < n → control ≠ target →
      ∃ q', q.applyCNOT control target = some q' ∧
        ∀ i < 2 ^ n, q'.amp (Qubits.flipIf control.toNat target.toNat i) = q.amp i) ∧
    (∀ (t u : UInt32) (m m' : Bool → Bool → R), t.toNat < n → u.toNat < n → t ≠ u →
      ∃ q', run q [.single t m, .single u m'] = some q' ∧
        run q [.single u m', .single t m] = some q') ∧
    (∀ target : UInt32, target.toNat < n → (q.applyX target).bind (·.applyX target) = some q ∧
      (q.applyZ target).bind (·.applyZ target) = some q) ∧
    (∀ control target : UInt32, control.toNat < n → target.toNat < n → control ≠ target →
      (q.applyCNOT control target).bind (·.applyCNOT control target) = some q) ∧
    ∀ gates : List (Gate R), (∀ g ∈ gates, g.Fits n) →
      ∃ q', run q gates = some q' ∧ q'.totalProbability = q.totalProbability := by
  have hsingle : ∀ {t : UInt32} (ht : t.toNat < n) (m : Bool → Bool → R) (q : QuantumState n R),
      ∃ q', q.applySingleQubitGate t (m false false) (m false true) (m true false) (m true true) =
        some q' ∧ q'.amp = Qubits.gate t.toNat m q.amp :=
    fun ht m q => q.amp_applySingleQubitGate hn ht m
  have hinvolution : ∀ {t : UInt32} (ht : t.toNat < n) {m : Bool → Bool → R}
      (hm : (fun b c => m b false * m false c + m b true * m true c) =
        fun b c => if b = c then 1 else 0) (ψ : Nat → R),
      Qubits.gate t.toNat m (Qubits.gate t.toNat m ψ) = ψ := fun ht m hm ψ => by
    rw [Qubits.gate_gate, hm, Qubits.gate_one]
  refine ⟨fun target m ht => ?_, fun control target hc ht hne => ?_,
    fun t u m m' ht hu hne => ?_, fun target ht => ⟨?_, ?_⟩, fun control target hc ht hne => ?_,
    fun gates hg => total_run hn q hg⟩
  · obtain ⟨q', h, ha⟩ := hsingle ht m q
    exact ⟨q', h, fun i _ => congrFun ha i⟩
  · obtain ⟨q', h, ha⟩ := q.amp_applyCNOT hn hc ht hne
    refine ⟨q', h, fun i _ => ?_⟩
    rw [ha, Qubits.cnot, Qubits.flipIf_flipIf fun he => hne (UInt32.toNat_inj.mp he)]
  · obtain ⟨q₁, h₁, ha₁⟩ := QuantumState.amp_bind (hsingle ht m) (hsingle hu m') q
    obtain ⟨q₂, h₂, ha₂⟩ := QuantumState.amp_bind (hsingle hu m') (hsingle ht m) q
    have hcomm := Qubits.gate_comm (fun he => hne (UInt32.toNat_inj.mp he)) m m' q.amp
    have heq : q₁ = q₂ := QuantumState.ext_amp (by rw [ha₁, ha₂, hcomm])
    have hrun : ∀ g g' : Gate R, run q [g, g'] = (g.apply q).bind fun q => g'.apply q := by
      intro g g'
      simp only [run, List.foldlM_cons, List.foldlM_nil, Option.bind_eq_bind]
      refine Option.bind_congr fun q' _ => ?_
      cases g'.apply q' <;> rfl
    exact ⟨q₁, (hrun _ _).trans h₁, (hrun _ _).trans (heq ▸ h₂)⟩
  · refine QuantumState.bind_self (hsingle ht (matrix 0 1 1 0)) (hinvolution ht ?_) q
    funext b c
    cases b <;> cases c <;> simp [matrix]
  · refine QuantumState.bind_self (hsingle ht (matrix 1 0 0 (-1))) (hinvolution ht ?_) q
    funext b c
    cases b <;> cases c <;> simp [matrix]
  · exact QuantumState.bind_self (fun q => q.amp_applyCNOT hn hc ht hne)
      (Qubits.cnot_cnot fun he => hne (UInt32.toNat_inj.mp he)) q

/-- Two qubits with amplitudes in the Gaussian integers. -/
def twoQubits : QuantumState 2 (ℤ√(-1)) := ⟨#v[⟨1, 2⟩, ⟨0, 1⟩, ⟨3, 0⟩, ⟨0, 0⟩]⟩

theorem quantum_gates_two : (twoQubits.applyX 1).bind (·.applyX 1) = some twoQubits ∧
    (twoQubits.applyCNOT 0 1).bind (·.applyCNOT 0 1) = some twoQubits ∧
    ∃ q, run twoQubits [.single 0 (matrix 0 1 1 0), .cnot 1 0] = some q ∧
      q.totalProbability = twoQubits.totalProbability := by
  obtain ⟨-, -, -, hx, hcnot, htotal⟩ := quantum_gates (by decide) twoQubits
  exact ⟨(hx 1 (by decide)).1, hcnot 0 1 (by decide) (by decide) (by decide), htotal _
    (List.forall_mem_cons.mpr ⟨⟨by decide, isometry_x⟩,
      List.forall_mem_singleton.mpr ⟨by decide, by decide, by decide⟩⟩)⟩

end Quantum
end Techuila
