import Techuila.Oglang.Execution
import Techuila.Oglang.Returns

/-!
# Runs through a piece of code

`Goes` and `Finishes` say what an activation does from a position on if it has enough steps. The
calls depend on the number of steps as well: `Calls` for each.

* `Goes.trans`, `Goes.finishes`: pieces of code one after the other.
* `constI32_goes` and the others: one instruction.
-/

namespace Techuila
namespace Oglang

/-- With enough steps, the call ends with `o`. -/
def CallEnds (C : Nat → Calls) (name : String) (vs : List Value) (m : Memory) (o : IROutcome) :
    Prop :=
  ∃ N, ∀ steps ≥ N, C steps name vs m = some o

namespace IRFunction

section Runs

variable (C : Nat → Calls) (f : IRFunction) (d : Nat) (V : List Value)

/-- With enough steps, the activation gets from `pc` to `pc'`. -/
def Goes (pc : Nat) (m : Memory) (pc' : Nat) (m' : Memory) : Prop :=
  ∃ N M, ∀ steps ≥ N, ∀ k o, f.exec (C steps) d V k pc' m' = some o →
    f.exec (C steps) d V (k + M) pc m = some o

/-- With enough steps, the activation ends with `o`. -/
def Finishes (pc : Nat) (m : Memory) (o : IROutcome) : Prop :=
  ∃ N M, ∀ steps ≥ N, ∀ k, f.exec (C steps) d V (k + M) pc m = some o

variable {C f d V} {pc pc' pc'' : Nat} {m m' m'' : Memory} {o : IROutcome}

theorem Goes.refl : f.Goes C d V pc m pc m := ⟨0, 0, fun _ _ _ _ h => h⟩

theorem Goes.trans (h : f.Goes C d V pc m pc' m') (h' : f.Goes C d V pc' m' pc'' m'') :
    f.Goes C d V pc m pc'' m'' := by
  obtain ⟨N, M, h⟩ := h
  obtain ⟨N', M', h'⟩ := h'
  refine ⟨max N N', M' + M, fun steps hs k o hk => ?_⟩
  rw [← Nat.add_assoc]
  exact h steps (le_of_max_le_left hs) _ o (h' steps (le_of_max_le_right hs) k o hk)

theorem Goes.finishes (h : f.Goes C d V pc m pc' m') (h' : f.Finishes C d V pc' m' o) :
    f.Finishes C d V pc m o := by
  obtain ⟨N, M, h⟩ := h
  obtain ⟨N', M', h'⟩ := h'
  refine ⟨max N N', M' + M, fun steps hs k => ?_⟩
  rw [← Nat.add_assoc]
  exact h steps (le_of_max_le_left hs) _ o (h' steps (le_of_max_le_right hs) k)

/-- A whole activation. -/
theorem Finishes.exec (h : f.Finishes C d V pc m o) :
    ∃ N, ∀ steps ≥ N, f.exec (C steps) d V steps pc m = some o := by
  obtain ⟨N, M, h⟩ := h
  refine ⟨max N M, fun steps hs => ?_⟩
  have := h steps (le_of_max_le_left hs) (steps - M)
  rwa [Nat.sub_add_cancel (le_of_max_le_right hs)] at this

variable {inst : IRInstruction}

theorem Goes.step (hi : f.instructions[pc]? = some inst)
    (h : ∃ N, ∀ steps ≥ N, inst.step (C steps) f d V m = some (.next m')) :
    f.Goes C d V pc m (pc + 1) m' := by
  obtain ⟨N, h⟩ := h
  refine ⟨N, 1, fun steps hs k o hk => ?_⟩
  rw [IRFunction.exec, hi]
  simp only [h steps hs]
  exact hk

theorem Finishes.step (hi : f.instructions[pc]? = some inst)
    (h : ∃ N, ∀ steps ≥ N, inst.step (C steps) f d V m = some (.stop o)) :
    f.Finishes C d V pc m o := by
  obtain ⟨N, h⟩ := h
  refine ⟨N, 1, fun steps hs k => ?_⟩
  rw [IRFunction.exec, hi]
  simp only [h steps hs]

/-- In a function whose labels are distinct, a label is found at its position. -/
theorem position_of_labelAt (hu : (codeLabels f.instructions).Nodup) {l : String} {j : Nat}
    (h : f.LabelAt l j) : f.position l = some j := by
  obtain ⟨hj, he⟩ := List.getElem?_eq_some_iff.mp h
  refine List.findIdx?_eq_some_iff_getElem.mpr ⟨hj, by simp [he], fun i hi => ?_⟩
  rw [beq_iff_eq]
  intro heq
  have hl : f.LabelAt l i := List.getElem?_eq_some_iff.mpr ⟨_, heq⟩
  exact absurd (codeLabels_unique hu hl rfl h rfl rfl) (Nat.ne_of_lt hi)

theorem Goes.jump (hu : (codeLabels f.instructions).Nodup)
    (hi : f.instructions[pc]? = some inst) {l : String}
    (h : ∀ steps, inst.step (C steps) f d V m = some (.jump l m)) {j : Nat}
    (hj : f.LabelAt l j) : f.Goes C d V pc m j m := by
  refine ⟨0, 1, fun steps _ k o hk => ?_⟩
  rw [IRFunction.exec, hi]
  simp only [h steps, position_of_labelAt hu hj]
  exact hk

/-! ## Single instructions -/

variable {code : List IRInstruction}

theorem constI32_goes {k n : Int} (h : f.CodeAt pc (.constI32 k n :: code)) :
    f.Goes C d V pc m (pc + 1) (m.set d k (.int (BitVec.ofInt 32 n))) :=
  .step h.head ⟨0, fun _ _ => rfl⟩

theorem moveI32_goes {v u : Int} (h : f.CodeAt pc (.moveI32 v u :: code)) {n : BitVec 32}
    (hu : m d u = some (.int n)) : f.Goes C d V pc m (pc + 1) (m.set d v (.int n)) := by
  refine .step h.head ⟨0, fun _ _ => ?_⟩
  simp [IRInstruction.step, IRInstruction.moveI32, Memory.int, hu, Value.int?]

theorem binary_goes {opcode : OpCode} (hop : opcode.isBinary = true) {k v u : Int}
    (h : f.CodeAt pc (.binary opcode k v u :: code)) {a b n : BitVec 32}
    (hv : m d v = some (.int a)) (hu : m d u = some (.int b)) (hn : opcode.eval a b = some n) :
    f.Goes C d V pc m (pc + 1) (m.set d k (.int n)) := by
  refine .step h.head ⟨0, fun _ _ => ?_⟩
  cases opcode <;> first
    | exact absurd hop (by decide)
    | simp [IRInstruction.step, IRInstruction.binary, Memory.int, hv, hu, Value.int?, hn]

theorem addressOfI32_goes {k v : Int} (h : f.CodeAt pc (.addressOfI32 k v :: code)) :
    f.Goes C d V pc m (pc + 1) (m.set d k (.ptr ⟨d, f.block v, 0⟩)) :=
  .step h.head ⟨0, fun _ _ => rfl⟩

theorem loadI32_goes {k v : Int} (h : f.CodeAt pc (.loadI32 k v :: code)) {p : Pointer} {c : Int}
    {n : BitVec 32} (hv : m d v = some (.ptr p)) (hc : p.cell = some c)
    (hn : m p.depth c = some (.int n)) :
    f.Goes C d V pc m (pc + 1) (m.set d k (.int n)) := by
  refine .step h.head ⟨0, fun _ _ => ?_⟩
  simp [IRInstruction.step, IRInstruction.loadI32, Memory.ptr, hv, Value.ptr?, hc, Memory.int, hn,
    Value.int?]

theorem storeI32_goes {v u : Int} (h : f.CodeAt pc (.storeI32 v u :: code)) {p : Pointer} {c : Int}
    {n old : BitVec 32} (hv : m d v = some (.ptr p)) (hu : m d u = some (.int n))
    (hc : p.cell = some c) (hold : m p.depth c = some (.int old)) :
    f.Goes C d V pc m (pc + 1) (m.set p.depth c (.int n)) := by
  refine .step h.head ⟨0, fun _ _ => ?_⟩
  simp [IRInstruction.step, IRInstruction.storeI32, Memory.ptr, hv, Value.ptr?, hc, Memory.int, hu,
    hold, Value.int?]

theorem ptrSubI32_goes {k v u : Int} (h : f.CodeAt pc (.ptrSubI32 k v u :: code)) {p : Pointer}
    {n : BitVec 32} (hv : m d v = some (.ptr p)) (hu : m d u = some (.int n)) :
    f.Goes C d V pc m (pc + 1)
      (m.set d k (.ptr { p with offset := p.offset + n.toInt })) := by
  refine .step h.head ⟨0, fun _ _ => ?_⟩
  simp [IRInstruction.step, IRInstruction.ptrSubI32, Memory.ptr, hv, Value.ptr?, Memory.int, hu,
    Value.int?]

section BoundsCheck

variable {v size : Int} {n : BitVec 32} (h : f.CodeAt pc (.boundsCheckI32 v size :: code))
  (hv : m d v = some (.int n))

include h hv

theorem boundsCheckI32_goes (hn : n.ult (BitVec.ofInt 32 size) = true) :
    f.Goes C d V pc m (pc + 1) m := by
  refine .step h.head ⟨0, fun _ _ => ?_⟩
  simp [IRInstruction.step, IRInstruction.boundsCheckI32, Memory.int, hv, Value.int?, hn]

theorem boundsCheckI32_finishes (hn : n.ult (BitVec.ofInt 32 size) = false) :
    f.Finishes C d V pc m .trapped := by
  refine .step h.head ⟨0, fun _ _ => ?_⟩
  simp [IRInstruction.step, IRInstruction.boundsCheckI32, Memory.int, hv, Value.int?, hn]

end BoundsCheck

theorem labelAt_goes {l : String} (h : f.CodeAt pc (.labelAt l :: code)) :
    f.Goes C d V pc m (pc + 1) m := .step h.head ⟨0, fun _ _ => rfl⟩

theorem jump_goes (hu : (codeLabels f.instructions).Nodup) {l : String}
    (h : f.CodeAt pc (.jump l :: code)) {j : Nat} (hj : f.LabelAt l j) :
    f.Goes C d V pc m j m := .jump hu h.head (fun _ => rfl) hj

section JumpIfZero

variable {v : Int} {l : String} {n : BitVec 32} (h : f.CodeAt pc (.jumpIfZero v l :: code))
  (hv : m d v = some (.int n))

include h hv

theorem jumpIfZero_taken (hu : (codeLabels f.instructions).Nodup) (hn : n = 0) {j : Nat}
    (hj : f.LabelAt l j) : f.Goes C d V pc m j m := by
  refine .jump hu h.head (fun _ => ?_) hj
  simp [IRInstruction.step, IRInstruction.jumpIfZero, Memory.int, hv, Value.int?, hn]

theorem jumpIfZero_goes (hn : n ≠ 0) : f.Goes C d V pc m (pc + 1) m := by
  refine .step h.head ⟨0, fun _ _ => ?_⟩
  simpa [IRInstruction.step, IRInstruction.jumpIfZero, Memory.int, hv, Value.int?] using hn

end JumpIfZero

theorem returnI32_finishes {v : Int} (h : f.CodeAt pc (.returnI32 v :: code)) {n : BitVec 32}
    (hv : m d v = some (.int n)) : f.Finishes C d V pc m (.returned n m) := by
  refine .step h.head ⟨0, fun _ _ => ?_⟩
  simp [IRInstruction.step, IRInstruction.returnI32, Memory.int, hv, Value.int?]

section Call

variable {k : Int} {callee : String} {vs : List Int} {ws : List Value}
  (h : f.CodeAt pc (.call k callee vs :: code)) (hvs : vs.mapM (m d) = some ws)

include h hvs

theorem call_goes {n : BitVec 32} (hc : CallEnds C callee ws m (.returned n m')) :
    f.Goes C d V pc m (pc + 1) (m'.set d k (.int n)) := by
  obtain ⟨N, hc⟩ := hc
  refine .step h.head ⟨N, fun steps hs => ?_⟩
  simp [IRInstruction.step, IRInstruction.call, hvs, hc steps hs]

theorem call_finishes (hc : CallEnds C callee ws m .trapped) :
    f.Finishes C d V pc m .trapped := by
  obtain ⟨N, hc⟩ := hc
  refine .step h.head ⟨N, fun steps hs => ?_⟩
  simp [IRInstruction.step, IRInstruction.call, hvs, hc steps hs]

end Call

/-- A parameter: the fifth and later ones are numbers. -/
theorem paramI32_goes {k i : Nat} (h : f.CodeAt pc (.paramI32 k i :: code)) {x : Value}
    (hx : V[i]? = some x) (hi : i < registerArgs ∨ ∃ n, x = .int n) :
    f.Goes C d V pc m (pc + 1) (m.set d k x) := by
  refine .step h.head ⟨0, fun _ _ => ?_⟩
  have h0 : ¬ (i : Int) < 0 := by omega
  by_cases h4 : i < registerArgs
  · have h4' : (i : Int) < registerArgs := by omega
    simp [IRInstruction.step, IRInstruction.paramI32, h0, hx, h4']
  · have h4' : ¬ (i : Int) < registerArgs := by omega
    obtain ⟨n, rfl⟩ := hi.resolve_left h4
    simp [IRInstruction.step, IRInstruction.paramI32, h0, hx, h4', Value.int?]

end Runs

end IRFunction

end Oglang
end Techuila
