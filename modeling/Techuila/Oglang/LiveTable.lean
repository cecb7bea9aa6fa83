import Techuila.Oglang.StepSimulation

/-!
# Checking that a function is supported

A table of values for each position that is closed under the transfer of liveness has everything
that is live. With it, what the back end relies on can be computed.

* `IRFunction.liveTable`: such a table, after enough rounds.
* `LiveAt.mem_table`: a closed table has what is live.
* `lower_separated`: when the ranges of a lowered function do what the allocator needs.
* `Supported`: what a function needs beyond what the compiler checks. `supported_of_check`: a check
  by its table.
-/

namespace Techuila
namespace Oglang

open LivenessAnalyzer (analyze)
open RegisterAllocator (allocationOf)

namespace IRFunction

variable (f : IRFunction)

/-- Where execution may go on after the instruction at `i`. -/
def successors (i : Nat) : List Nat :=
  match f.instructions[i]? with
  | none => []
  | some inst =>
    (if inst.opcode ≠ .jump ∧ inst.opcode ≠ .returnI32 then [i + 1] else []) ++
      if inst.opcode = .jump ∨ inst.opcode = .jumpIfZero then
        (List.range f.instructions.length).filter fun j =>
          f.instructions[j]? == some (.labelAt inst.label)
      else []

theorem mem_successors {f : IRFunction} {i j : Nat} (h : f.Succ i j) : j ∈ f.successors i := by
  cases h with
  | next hi hj hr => simp [successors, hi, hj, hr]
  | jump hi ho hl =>
    obtain ⟨hlt, hl⟩ := List.getElem?_eq_some_iff.mp hl
    simp [successors, hi, ho, hlt, hl]

/-- What is live at `i` if the table says what is live at the successors. -/
def liveIn (table : List (List Int)) (i : Nat) : List Int :=
  match f.instructions[i]? with
  | none => []
  | some inst =>
    (inst.reads.filter (0 ≤ ·) ++ ((f.successors i).flatMap fun j => table.getD j []).filter
      fun v => inst.writes ≠ some v).dedup

/-- Rounds of the transfer, from an empty table on. -/
def liveTable : Nat → List (List Int)
  | 0 => f.instructions.map fun _ => []
  | n + 1 => (List.range f.instructions.length).map (f.liveIn (liveTable n))

/-- The transfer adds nothing to the table. -/
def Closed (table : List (List Int)) : Prop :=
  ∀ i < f.instructions.length, f.liveIn table i ⊆ table.getD i []

instance (table : List (List Int)) : Decidable (f.Closed table) :=
  inferInstanceAs (Decidable (∀ i < f.instructions.length, f.liveIn table i ⊆ table.getD i []))

variable {f}

theorem LiveAt.mem_table {table : List (List Int)} (ht : f.Closed table) {i : Nat} {v : Int}
    (h : f.LiveAt i v) : v ∈ table.getD i [] := by
  induction h with
  | read hi hv h0 =>
    refine ht _ (List.getElem?_eq_some_iff.mp hi).1 ?_
    simp [liveIn, hi, hv, h0]
  | later hi hw hs _ ih =>
    refine ht _ (List.getElem?_eq_some_iff.mp hi).1 ?_
    simp only [liveIn, hi, List.mem_dedup, List.mem_append, List.mem_filter, List.mem_flatMap]
    exact .inr ⟨⟨_, mem_successors hs, ih⟩, decide_eq_true hw⟩

theorem LiveAt.lt_length {i : Nat} {v : Int} (h : f.LiveAt i v) : i < f.instructions.length := by
  cases h with
  | read hi => exact (List.getElem?_eq_some_iff.mp hi).1
  | later hi => exact (List.getElem?_eq_some_iff.mp hi).1

instance (i : Nat) (v : Int) : Decidable (f.Covers i v) :=
  match h : (analyze f).find v with
  | none => .isFalse fun ⟨r, hr, _⟩ => by rw [h] at hr; cases hr
  | some r => decidable_of_iff (r.start < i ∧ i ≤ r.stop)
    ⟨fun hr => ⟨r, h, hr⟩, fun ⟨r', hr', hi⟩ => by cases h.symm.trans hr'; exact hi⟩

end IRFunction

/-! ## The check -/

/-- The ranges of a function cover what is live, its divisions disturb no register, and its frames
have at most `size` words. -/
structure Supported (iter : List Int → List Int) (f : IRFunction) (size : Nat) : Prop where
  covered : f.Covered
  divides : DivisionsApart f (allocationOf iter f)
  fits : ∀ inst ∈ f.instructions, (allocationOf iter f).spillSlotCount +
    (allocationOf iter f).registers.length + inst.args.length + 8 ≤ size

/-- The check of a function by its table of `n` rounds. -/
def supports (iter : List Int → List Int) (f : IRFunction) (size n : Nat) : Bool :=
  let a := allocationOf iter f
  let table := f.liveTable n
  decide (f.Closed table) &&
    (List.range f.instructions.length).all fun i =>
      (table.getD i []).all (fun v => decide (f.Covers i v)) &&
        match f.instructions[i]? with
        | none => true
        | some inst =>
          decide (a.spillSlotCount + a.registers.length + inst.args.length + 8 ≤ size) &&
            (inst.opcode != .divI32 ||
              (decide (a.location inst.left = some (.inl .rcx) →
                  a.location inst.right = some (.inl .rcx)) &&
                (table.getD (i + 1) []).all fun v => decide (v ≠ inst.destination →
                  a.location v = some (.inl .rcx) → v = inst.right)))

theorem supported_of_check {iter : List Int → List Int} {f : IRFunction} {size n : Nat}
    (h : supports iter f size n = true) : Supported iter f size := by
  simp only [supports, Bool.and_eq_true, List.all_eq_true, List.mem_range, decide_eq_true_iff] at h
  obtain ⟨hclosed, hall⟩ := h
  refine ⟨fun i v _ hv => (hall i hv.lt_length).1 v (hv.mem_table hclosed), fun i inst hi ho => ?_,
    fun inst hmem => ?_⟩
  · have hlt := (List.getElem?_eq_some_iff.mp hi).1
    have h := (hall i hlt).2
    simp only [hi, ho, Bool.and_eq_true, List.all_eq_true, decide_eq_true_iff, bne_self_eq_false,
      Bool.false_or] at h
    exact ⟨h.2.1, fun v hv => h.2.2 v (hv.mem_table hclosed)⟩
  · obtain ⟨i, hlt, hi⟩ := List.getElem_of_mem hmem
    have h := (hall i hlt).2
    rw [List.getElem?_eq_getElem hlt, hi, Bool.and_eq_true, decide_eq_true_iff] at h
    exact h.1

/-! ## Lowered functions -/

/-- The linear ranges of a lowered function cover what is live exactly where nothing is live at its
start and every value that is live around a loop spans the loop, which is no condition without
loops. Then no execution reads a cell before it writes it, and the allocation keeps apart what is
live together. -/
theorem lower_separated {iter : List Int → List Int} (hiter : RegisterAllocator.IterOrder iter)
    {function : Function} {Y : Layouts} {ir : IRFunction}
    (hlower : IRLowerer.lower function Y.structFieldOrder Y.enumVariants = .ok ir) :
    (ir.Covered ↔ (∀ v, ¬ ir.LiveAt 0 v) ∧ ir.LoopsSpanned) ∧
      (blockLoopFree function.body = true → ir.LoopsSpanned) ∧
      (ir.Covered → Separated ir (allocationOf iter ir)) := by
  have hp := (lower_wellFormed hlower).jumpsPlain
  refine ⟨IRFunction.covered_iff hp, fun hf j t v _ hs hle _ => ?_, fun hc =>
    (RegisterAllocator.allocationOf_allocated hiter (lower_ok hlower)).separated hp hc⟩
  have := lower_loopFree hf hlower hs
  omega

theorem lower_separated_loopThenBranch : ∃ ir, IRLowerer.lower loopThenBranch [] [] = .ok ir ∧
    ir.LoopsSpanned ∧ Separated ir (allocationOf id ir) := by
  have hok : (IRLowerer.lower loopThenBranch [] []).toOption.any (supports id · 100 10) = true := by
    decide +kernel
  cases e : IRLowerer.lower loopThenBranch [] [] with
  | error => rw [e] at hok; cases hok
  | ok ir =>
    rw [e] at hok
    have hc := (supported_of_check hok).covered
    obtain ⟨hiff, -, hs⟩ := lower_separated
      (fun ks => .refl ks : RegisterAllocator.IterOrder id) (Y := ⟨[], []⟩) e
    exact ⟨ir, rfl, (hiff.mp hc).2, hs hc⟩

end Oglang
end Techuila
