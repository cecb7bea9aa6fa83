import Techuila.Oglang.Values

/-!
# The shape of lowered code

Which operands the instructions of a function have. What names no cell is -1; only instructions
with a result have a destination, and the parameters come first.

* `Proper`: an instruction of a body. `LowersBlock.proper`: those of a lowered body are.
* `lower_wellFormed`: a lowered function is its parameters and then proper instructions.
-/

namespace Techuila
namespace Oglang

/-- The opcodes whose instructions have a result. -/
def OpCode.hasResult : OpCode → Bool
  | storeI32 | boundsCheckI32 | label | jump | jumpIfZero | returnI32 => false
  | _ => true

namespace IRInstruction

/-- An instruction of a body: what it reads is a cell, and what it writes, if it has a result. -/
structure Proper (inst : IRInstruction) : Prop where
  result : inst.opcode.hasResult = true → 0 ≤ inst.destination
  noResult : inst.opcode.hasResult = false → inst.destination = -1
  reads : ∀ v ∈ inst.reads, 0 ≤ v
  notParam : inst.opcode ≠ .paramI32

@[simp] theorem proper_constI32 {d n : Int} : (constI32 d n).Proper ↔ 0 ≤ d :=
  ⟨fun h => h.result rfl, fun h => ⟨fun _ => h, nofun, by simp [reads, constI32, OpCode.isBinary],
    nofun⟩⟩

@[simp] theorem proper_moveI32 {d v : Int} : (moveI32 d v).Proper ↔ 0 ≤ d ∧ 0 ≤ v :=
  ⟨fun h => ⟨h.result rfl, h.reads v (by simp [reads, moveI32])⟩, fun h =>
    ⟨fun _ => h.1, nofun, by simpa [reads, moveI32] using h.2, nofun⟩⟩

@[simp] theorem proper_addressOfI32 {d v : Int} : (addressOfI32 d v).Proper ↔ 0 ≤ d :=
  ⟨fun h => h.result rfl, fun h => ⟨fun _ => h, nofun,
    by simp [reads, addressOfI32, OpCode.isBinary], nofun⟩⟩

@[simp] theorem proper_loadI32 {d v : Int} : (loadI32 d v).Proper ↔ 0 ≤ d ∧ 0 ≤ v :=
  ⟨fun h => ⟨h.result rfl, h.reads v (by simp [reads, loadI32])⟩, fun h =>
    ⟨fun _ => h.1, nofun, by simpa [reads, loadI32] using h.2, nofun⟩⟩

@[simp] theorem proper_storeI32 {v u : Int} : (storeI32 v u).Proper ↔ 0 ≤ v ∧ 0 ≤ u :=
  ⟨fun h => ⟨h.reads v (by simp [reads, storeI32]), h.reads u (by simp [reads, storeI32])⟩,
    fun h => ⟨nofun, fun _ => rfl, by simpa [reads, storeI32] using h, nofun⟩⟩

@[simp] theorem proper_ptrSubI32 {d v u : Int} :
    (ptrSubI32 d v u).Proper ↔ 0 ≤ d ∧ 0 ≤ v ∧ 0 ≤ u :=
  ⟨fun h => ⟨h.result rfl, h.reads v (by simp [reads, ptrSubI32]),
    h.reads u (by simp [reads, ptrSubI32])⟩,
    fun h => ⟨fun _ => h.1, nofun, by simpa [reads, ptrSubI32] using h.2, nofun⟩⟩

@[simp] theorem proper_boundsCheckI32 {v n : Int} : (boundsCheckI32 v n).Proper ↔ 0 ≤ v :=
  ⟨fun h => h.reads v (by simp [reads, boundsCheckI32]),
    fun h => ⟨nofun, fun _ => rfl, by simpa [reads, boundsCheckI32] using h, nofun⟩⟩

@[simp] theorem proper_call {d : Int} {callee : String} {args : List Int} :
    (call d callee args).Proper ↔ 0 ≤ d ∧ ∀ v ∈ args, 0 ≤ v :=
  ⟨fun h => ⟨h.result rfl, h.reads⟩, fun h => ⟨fun _ => h.1, nofun, h.2, nofun⟩⟩

@[simp] theorem proper_inlineAsmI32 {d : Int} {template : String} :
    (inlineAsmI32 d template).Proper ↔ 0 ≤ d :=
  ⟨fun h => h.result rfl, fun h => ⟨fun _ => h, nofun,
    by simp [reads, inlineAsmI32, OpCode.isBinary], nofun⟩⟩

@[simp] theorem proper_labelAt (l : String) : (labelAt l).Proper :=
  ⟨nofun, fun _ => rfl, by simp [reads, labelAt, OpCode.isBinary], nofun⟩

@[simp] theorem proper_jump (l : String) : (jump l).Proper :=
  ⟨nofun, fun _ => rfl, by simp [reads, jump, OpCode.isBinary], nofun⟩

@[simp] theorem proper_jumpIfZero {v : Int} {l : String} : (jumpIfZero v l).Proper ↔ 0 ≤ v :=
  ⟨fun h => h.reads v (by simp [reads, jumpIfZero]),
    fun h => ⟨nofun, fun _ => rfl, by simpa [reads, jumpIfZero] using h, nofun⟩⟩

@[simp] theorem proper_returnI32 {v : Int} : (returnI32 v).Proper ↔ 0 ≤ v :=
  ⟨fun h => h.reads v (by simp [reads, returnI32]),
    fun h => ⟨nofun, fun _ => rfl, by simpa [reads, returnI32] using h, nofun⟩⟩

theorem proper_binary {opcode : OpCode} {d v u : Int} (ho : opcode.isBinary = true) (hd : 0 ≤ d)
    (hv : 0 ≤ v) (hu : 0 ≤ u) : (binary opcode d v u).Proper := by
  have hreads : (binary opcode d v u).reads = [v, u] := by
    cases opcode <;> first | rfl | cases ho
  refine ⟨fun _ => hd, fun h => ?_, ?_, ?_⟩
  · cases opcode <;> first | cases ho; done | cases h
  · rw [hreads]
    simpa using ⟨hv, hu⟩
  · rintro rfl
    cases ho

/-- A proper instruction writes its destination exactly if it has a result. -/
theorem Proper.writes {inst : IRInstruction} (h : inst.Proper) :
    inst.writes = if inst.opcode.hasResult then some inst.destination else none := by
  unfold IRInstruction.writes
  split
  · rename_i h0
    cases hr : inst.opcode.hasResult with
    | true => rfl
    | false =>
      rw [h.noResult hr] at h0
      cases h0
  · rename_i h0
    cases hr : inst.opcode.hasResult with
    | true => exact absurd (h.result hr) h0
    | false => rfl

theorem Proper.writes_ne {inst : IRInstruction} (h : inst.Proper)
    (hr : inst.opcode.hasResult = false) (v : Int) : inst.writes ≠ some v := by
  simp [h.writes, hr]

end IRInstruction

open IRInstruction (Proper)

theorem proper_nil : ∀ inst ∈ ([] : List IRInstruction), inst.Proper :=
  fun _ h => absurd h List.not_mem_nil

theorem elementCode_proper {elements : List Int} {index k : Int} (hi : 0 ≤ index) (h0 : 0 ≤ k) :
    ∀ inst ∈ elementCode elements index k, inst.Proper := by
  have : (IRInstruction.binary .mulI32 (k + 1) index k).Proper :=
    IRInstruction.proper_binary rfl (by omega) hi h0
  simp only [elementCode, List.forall_mem_cons, IRInstruction.proper_boundsCheckI32,
    IRInstruction.proper_constI32, IRInstruction.proper_addressOfI32,
    IRInstruction.proper_ptrSubI32, this, true_and]
  exact ⟨hi, h0, by omega, by omega, proper_nil⟩

theorem fieldCode_proper {fields : List Int} {i : Nat} {k : Int} (h0 : 0 ≤ k) :
    ∀ inst ∈ fieldCode fields i k, inst.Proper := by
  simp only [fieldCode, List.forall_mem_cons, IRInstruction.proper_constI32,
    IRInstruction.proper_addressOfI32, IRInstruction.proper_ptrSubI32]
  exact ⟨h0, by omega, by omega, proper_nil⟩

theorem zeroCode_proper {k : Int} (h0 : 0 ≤ k) (n : Nat) :
    ∀ inst ∈ zeroCode k n, inst.Proper := by
  intro inst h
  obtain ⟨v, hv, rfl⟩ := List.mem_map.mp h
  rw [IRInstruction.proper_constI32]
  exact h0.trans (mem_zeroCells.mp hv).1

section Proper

variable {Y : Layouts} {T : Names}

mutual

theorem LowersExpr.proper {k : Int} {e : Expr} {code : List IRInstruction} {taken : List Int}
    {v k' : Int} : LowersExpr Y T k e code taken v k' → 0 ≤ k → VarsBelow T k →
      ∀ inst ∈ code, inst.Proper
  | .integer, h0, _ | .addressOf _, h0, _ | .enumVariant _ _ _, h0, _ | .asm, h0, _ => by
    simpa using h0
  | .variable _, _, _ => proper_nil
  | .unary h, h0, hT => by
    have hb := h.bounds h0 hT
    have hp := h.proper h0 hT
    simp only [List.forall_mem_append, List.forall_mem_cons, IRInstruction.proper_constI32]
    exact ⟨hp, by omega, IRInstruction.proper_binary rfl (by omega) (by omega) hb.2.1,
      proper_nil⟩
  | .deref h, h0, hT => by
    have hb := h.bounds h0 hT
    simp only [List.forall_mem_append, List.forall_mem_cons, IRInstruction.proper_loadI32]
    exact ⟨h.proper h0 hT, ⟨by omega, hb.2.1⟩, proper_nil⟩
  | .index _ h, h0, hT => by
    have hb := h.bounds h0 hT
    simp only [List.forall_mem_append, List.forall_mem_cons, IRInstruction.proper_loadI32]
    exact ⟨h.proper h0 hT, elementCode_proper hb.2.1 (by omega), ⟨by omega, by omega⟩,
      proper_nil⟩
  | .fieldAccess _, h0, _ => by
    simp only [List.forall_mem_append, List.forall_mem_cons, IRInstruction.proper_loadI32]
    exact ⟨fieldCode_proper h0, ⟨by omega, by omega⟩, proper_nil⟩
  | .call h, h0, hT => by
    have hb := h.bounds h0 hT
    simp only [List.forall_mem_append, List.forall_mem_cons, IRInstruction.proper_call]
    exact ⟨h.proper h0 hT, ⟨by omega, fun v hv => (hb.2 v hv).1⟩,
      proper_nil⟩
  | .binary hop h₁ h₂, h0, hT => by
    have hb₁ := h₁.bounds h0 hT
    have hb₂ := h₂.bounds (h0.trans hb₁.1) (hT.mono hb₁.1)
    simp only [List.forall_mem_append, List.forall_mem_cons]
    exact ⟨h₁.proper h0 hT, h₂.proper (h0.trans hb₁.1) (hT.mono hb₁.1),
      IRInstruction.proper_binary (binaryOpcode_isBinary hop) (by omega) hb₁.2.1 hb₂.2.1,
      proper_nil⟩

theorem LowersArgs.proper {k : Int} {args : List Expr} {code : List IRInstruction}
    {taken vs : List Int} {k' : Int} : LowersArgs Y T k args code taken vs k' → 0 ≤ k →
      VarsBelow T k → ∀ inst ∈ code, inst.Proper
  | .nil, _, _ => proper_nil
  | .cons h₁ h₂, h0, hT => by
    have hb := h₁.bounds h0 hT
    exact List.forall_mem_append.mpr
      ⟨h₁.proper h0 hT, h₂.proper (h0.trans hb.1) (hT.mono hb.1)⟩

end

end Proper

section Proper

variable {Y : Layouts}

mutual

theorem LowersStmt.proper {groups : List (List Int)} {S S' : Scope} {statement : Statement}
    {A : Fragment} : LowersStmt Y S statement A S' → S.Ok Y groups →
      ∀ inst ∈ A.code, inst.Proper
  | .letStmt h, hS => h.proper hS.nonneg hS.vars
  | .assignStmt hv h, hS => by
    have hb := hS.expr h
    simp only [List.forall_mem_append, List.forall_mem_cons, IRInstruction.proper_moveI32]
    exact ⟨h.proper hS.nonneg hS.vars, ⟨(hS.vars _ _ hv).1, hb.2.1⟩,
      proper_nil⟩
  | .storeStmt h₁ h₂, hS => by
    have hb := hS.expr h₁
    have hS₁ := hS.mono hb.1 (n := 0)
    have hb₂ := hS₁.expr h₂
    simp only [List.forall_mem_append, List.forall_mem_cons, IRInstruction.proper_storeI32]
    exact ⟨h₁.proper hS.nonneg hS.vars, h₂.proper hS₁.nonneg hS₁.vars, ⟨hb.2.1, hb₂.2.1⟩,
      proper_nil⟩
  | .arrayDecl, hS => zeroCode_proper hS.nonneg _
  | .structVarDecl _, hS => zeroCode_proper hS.nonneg _
  | .fieldStore _ h, hS => by
    have h0 := hS.nonneg
    have hS₁ := hS.mono (k := S.nextValue + 3) (by omega) (n := 0)
    have hb := hS₁.expr h
    simp only [List.forall_mem_append, List.forall_mem_cons, IRInstruction.proper_storeI32]
    exact ⟨fieldCode_proper h0, h.proper hS₁.nonneg hS₁.vars, ⟨by omega, hb.2.1⟩,
      proper_nil⟩
  | .indexStore _ h₁ h₂, hS => by
    have h0 := hS.nonneg
    have hb := hS.expr h₁
    have hS₁ := fun k hk => hS.mono (k := k) hk (n := 0)
    have hb₂ := (hS₁ _ (by omega)).expr h₂
    simp only [List.forall_mem_append, List.forall_mem_cons, IRInstruction.proper_storeI32]
    exact ⟨h₁.proper h0 hS.vars, elementCode_proper hb.2.1 (by omega),
      h₂.proper (by omega) (hS₁ _ (by omega)).vars, ⟨by omega, hb₂.2.1⟩, proper_nil⟩
  | .returnStmt h, hS => by
    have hb := hS.expr h
    simp only [List.forall_mem_append, List.forall_mem_cons, IRInstruction.proper_returnI32]
    exact ⟨h.proper hS.nonneg hS.vars, hb.2.1, proper_nil⟩
  | .whileStmt h hb, hS => by
    have hv := hS.expr h
    have hp := hb.proper (hS.mono hv.1 (n := S.nextLabel + 2))
    simp only [List.forall_mem_append, List.forall_mem_cons, IRInstruction.proper_labelAt,
      IRInstruction.proper_jump, IRInstruction.proper_jumpIfZero, true_and]
    exact ⟨h.proper hS.nonneg hS.vars, hv.2.1, hp, proper_nil⟩
  | .ifThen h hb, hS => by
    have hv := hS.expr h
    have hp := hb.proper (hS.mono hv.1 (n := S.nextLabel + 2))
    simp only [List.forall_mem_append, List.forall_mem_cons, IRInstruction.proper_labelAt,
      IRInstruction.proper_jumpIfZero, true_and]
    exact ⟨h.proper hS.nonneg hS.vars, hv.2.1, hp, proper_nil⟩
  | .ifElse _ h hb hb', hS => by
    have hv := hS.expr h
    have hS₁ := hS.mono hv.1 (n := S.nextLabel + 2)
    have hp := hb.proper hS₁
    have hp' := hb'.proper (hb.ok hS₁).2
    simp only [List.forall_mem_append, List.forall_mem_cons, IRInstruction.proper_labelAt,
      IRInstruction.proper_jump, IRInstruction.proper_jumpIfZero, true_and]
    exact ⟨h.proper hS.nonneg hS.vars, hv.2.1, hp, hp', proper_nil⟩

theorem LowersBlock.proper {groups : List (List Int)} {S S' : Scope} {body : List Statement}
    {A : Fragment} : LowersBlock Y S body A S' → S.Ok Y groups → ∀ inst ∈ A.code, inst.Proper
  | .nil, _ => proper_nil
  | .cons hs hb, hS =>
    List.forall_mem_append.mpr ⟨hs.proper hS, hb.proper (hs.ok hS).2⟩

end

end Proper

/-- A function is its parameters, in order, and then a body of proper instructions. -/
def IRFunction.WellFormed (f : IRFunction) : Prop :=
  ∃ body, f.instructions = IRLowerer.paramCode 0 f.paramCount ++ body ∧ ∀ inst ∈ body, inst.Proper

theorem lower_wellFormed {function : Function} {Y : Layouts} {ir : IRFunction}
    (h : IRLowerer.lower function Y.structFieldOrder Y.enumVariants = .ok ir) : ir.WellFormed := by
  obtain ⟨A, S, hb, rfl⟩ := IRLowerer.lower_lowers h
  exact ⟨A.code, rfl, hb.proper (bodyScope_ok _)⟩

namespace IRFunction.WellFormed

variable {f : IRFunction} {i : Nat} {inst : IRInstruction}

/-- The instruction at a position is a parameter or proper. -/
theorem cases (h : f.WellFormed) (hi : f.instructions[i]? = some inst) :
    (i < f.paramCount ∧ inst = .paramI32 i i) ∨ (f.paramCount ≤ i ∧ inst.Proper) := by
  obtain ⟨body, hbody, hp⟩ := h
  rw [hbody] at hi
  have hlen : (IRLowerer.paramCode 0 f.paramCount).length = f.paramCount := by
    simp [IRLowerer.paramCode]
  by_cases hlt : i < f.paramCount
  · rw [List.getElem?_append_left (by rw [hlen]; exact hlt)] at hi
    refine .inl ⟨hlt, ?_⟩
    simp only [IRLowerer.paramCode, List.getElem?_map, Option.map_eq_some_iff] at hi
    obtain ⟨j, hj, rfl⟩ := hi
    rw [List.getElem?_range' hlt] at hj
    cases hj
    simp
  · rw [List.getElem?_append_right (by rw [hlen]; omega)] at hi
    exact .inr ⟨by omega, hp inst (List.mem_of_getElem? hi)⟩

theorem paramCount_le (h : f.WellFormed) : f.paramCount ≤ f.instructions.length := by
  obtain ⟨body, hbody, -⟩ := h
  rw [hbody, List.length_append]
  simp [IRLowerer.paramCode]

theorem param (h : f.WellFormed) (hi : i < f.paramCount) :
    f.instructions[i]? = some (.paramI32 i i) := by
  obtain ⟨body, hbody, -⟩ := h
  have hlen : (IRLowerer.paramCode 0 f.paramCount).length = f.paramCount := by
    simp [IRLowerer.paramCode]
  rw [hbody, List.getElem?_append_left (by rw [hlen]; exact hi)]
  simp [IRLowerer.paramCode, List.getElem?_range' hi]

end IRFunction.WellFormed

end Oglang
end Techuila
