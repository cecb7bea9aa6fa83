import Techuila.Oglang.Values

/-!
# Element and field accesses

`functionAccesses`: the accesses `arr[e]` and `s.f` of a function, with the cells and the code that
they are lowered to. `functionAccesses_placed`: the code is part of the function, and the cells are
one of its groups.
-/

namespace Techuila
namespace Oglang

/-! ## Accesses -/

/-- An access with the code for its address from `nextValue = k` on. -/
inductive Access where
  | element (elements : List Int) (index k : Int)
  | field (fields : List Int) (i : Nat) (k : Int)

namespace Access

def code : Access → List IRInstruction
  | element elements index k => elementCode elements index k
  | field fields i k => fieldCode fields i k

def cells : Access → List Int
  | element elements _ _ => elements
  | field fields _ _ => fields

/-- The cell with the address that the code computes. -/
def address : Access → Int
  | element _ _ k => k + 3
  | field _ _ k => k + 2

/-- The index is older than the cells that the code defines; the field exists. -/
def Fits : Access → Prop
  | element _ index k => index < k
  | field fields i _ => i < fields.length

/-- The access is in the code, its cells are a group of the function. -/
structure Placed (x : Access) (code : List IRInstruction) (groups : List (List Int)) : Prop where
  code : x.code <:+: code
  cells : x.cells ∈ groups
  fits : x.Fits

theorem Placed.mono {x : Access} {code code' : List IRInstruction} {groups groups' : List (List Int)}
    (h : x.Placed code groups) (hc : code <:+: code') (hg : groups ⊆ groups') :
    x.Placed code' groups' :=
  ⟨h.code.trans hc, hg h.cells, h.fits⟩

end Access

namespace IRLowerer

/-- The access of `structVarName.fieldName`, unless that is an enum's variant. -/
def fieldAccesses (l : IRLowerer) (structVarName fieldName : String) : List Access :=
  match l.structVars.find structVarName, l.structVarTypes.find structVarName with
  | some fields, some structType =>
    match ((l.structFieldOrder.find structType).getD []).idxOf? fieldName with
    | some i => [.field fields i l.nextValue]
    | none => []
  | _, _ => []

mutual

/-- The accesses of an expression that is lowered from the state `l`. -/
def exprAccesses (l : IRLowerer) : Expr → List Access
  | .index arrayName index => exprAccesses l index ++
    match l.arrays.find arrayName, l.lowerExpr index with
    | some elements, .ok (v, l) => [.element elements v l.nextValue]
    | _, _ => []
  | .fieldAccess structVarName fieldName => fieldAccesses l structVarName fieldName
  | .unary _ operand => exprAccesses l operand
  | .deref pointer => exprAccesses l pointer
  | .call _ args => argsAccesses l args
  | .binary _ left right => exprAccesses l left ++
    match l.lowerExpr left with
    | .ok (_, l) => exprAccesses l right
    | .error _ => []
  | .integer _ | .variable _ | .addressOf _ | .asm _ => []

def argsAccesses (l : IRLowerer) : List Expr → List Access
  | [] => []
  | arg :: args => exprAccesses l arg ++
    match l.lowerExpr arg with
    | .ok (_, l) => argsAccesses l args
    | .error _ => []

end

mutual

def stmtAccesses (l : IRLowerer) : Statement → List Access
  | .letStmt _ _ initializer => exprAccesses l initializer
  | .returnStmt value => exprAccesses l value
  | .assignStmt _ value => exprAccesses l value
  | .storeStmt pointer value => exprAccesses l pointer ++
    match l.lowerExpr pointer with
    | .ok (_, l) => exprAccesses l value
    | .error _ => []
  | .arrayDecl _ _ _ | .structVarDecl _ _ => []
  | .fieldStore structVarName fieldName value => fieldAccesses l structVarName fieldName ++
    match l.lowerFieldAddress structVarName fieldName with
    | .ok (_, l) => exprAccesses l value
    | .error _ => []
  | .indexStore arrayName index value => exprAccesses l index ++
    match l.arrays.find arrayName, l.lowerExpr index with
    | some elements, .ok (v, l) =>
      .element elements v l.nextValue :: exprAccesses (l.elementAddress elements v).2 value
    | _, _ => []
  | .whileStmt condition body =>
    let (loopStart, l) := l.freshLabel ".Lloop"
    let (loopEnd, l) := l.freshLabel ".Lloopend"
    let l := l.emit (.labelAt loopStart)
    exprAccesses l condition ++
    match l.lowerExpr condition with
    | .ok (cond, l) => blockAccesses (l.emit (.jumpIfZero cond loopEnd)) body
    | .error _ => []
  | .ifStmt condition thenBody elseBody => exprAccesses l condition ++
    match l.lowerExpr condition with
    | .ok (cond, l) =>
      let (elseLabel, l) := l.freshLabel ".Lelse"
      let (endLabel, l) := l.freshLabel ".Lend"
      let l := l.emit (.jumpIfZero cond (if elseBody.isEmpty then endLabel else elseLabel))
      blockAccesses l thenBody ++
      match l.lowerBlock thenBody with
      | .ok l => blockAccesses ((l.emit (.jump endLabel)).emit (.labelAt elseLabel)) elseBody
      | .error _ => []
    | .error _ => []

def blockAccesses (l : IRLowerer) : List Statement → List Access
  | [] => []
  | statement :: body => stmtAccesses l statement ++
    match l.lowerStatement statement with
    | .ok l => blockAccesses l body
    | .error _ => []

end

/-- The accesses of a function. -/
def functionAccesses (function : Function) (Y : Layouts) : List Access :=
  let l : IRLowerer :=
    { structFieldOrder := Y.structFieldOrder
      enumVariants := Y.enumVariants
      ir := { name := function.name, paramCount := function.params.length } }
  blockAccesses (l.lowerParams 0 function.params) function.body

/-! ## Accesses are placed -/

variable {Y : Layouts} {groups : List (List Int)}

theorem extend_isPart (l : IRLowerer) (A : Fragment) (S : Scope) :
    l.ir.instructions <:+: (l.extend A S).ir.instructions :=
  (List.prefix_append _ _).isInfix

theorem lowerExpr_isPart {l : IRLowerer} {e : Expr} {r : Int × IRLowerer}
    (h : l.lowerExpr e = .ok r) : l.ir.instructions <:+: r.2.ir.instructions := by
  obtain ⟨code, taken, k, -, e⟩ := lowerExpr_lowers _ h
  rw [e]
  exact extend_isPart _ _ _

theorem lowerExpr_ok {l : IRLowerer} {e : Expr} {v : Int} {l' : IRLowerer}
    (h : l.lowerExpr e = .ok (v, l')) (hS : l.scope.Ok l.layouts groups) :
    l'.scope.Ok l'.layouts groups ∧ v < l'.nextValue ∧ l'.arrays = l.arrays ∧
      l'.layouts = l.layouts := by
  obtain ⟨code, taken, k, hl, rfl⟩ := lowerExpr_lowers _ h
  have hb := hS.expr hl
  exact ⟨hS.mono hb.1, hb.2.2, rfl, rfl⟩

theorem fieldAccesses_placed {l : IRLowerer} {structVarName fieldName : String}
    {r : Int × IRLowerer} (h : l.lowerFieldAddress structVarName fieldName = .ok r)
    (hS : l.scope.Ok l.layouts groups) :
    ∀ x ∈ fieldAccesses l structVarName fieldName, x.Placed r.2.ir.instructions groups := by
  obtain ⟨fields, i, ⟨hf, structType, fieldOrder, ht, ho, hi⟩, rfl⟩ := lowerFieldAddress_lowers h
  obtain ⟨hg, structType', fieldOrder', ht', ho', hlen⟩ := hS.structVars _ _ hf
  cases Option.some.inj (ht.symm.trans ht')
  cases Option.some.inj (ho.symm.trans ho')
  have hf : l.structVars.find structVarName = some fields := hf
  have ht : l.structVarTypes.find structVarName = some structType := ht
  have ho : l.structFieldOrder.find structType = some fieldOrder := ho
  rw [fieldAccesses, hf, ht]
  simp only [ho, Option.getD_some, hi]
  refine List.forall_mem_singleton.mpr ⟨?_, hg, ?_⟩
  · exact (List.suffix_append _ _).isInfix
  · show i < fields.length
    rw [hlen]
    exact (List.idxOf?_eq_some_iff.mp hi).choose

theorem elementAddress_isPart (l : IRLowerer) (elements : List Int) (v : Int) :
    l.ir.instructions <:+: (l.elementAddress elements v).2.ir.instructions := by
  rw [elementAddress_eq]
  exact extend_isPart _ _ _

theorem element_placed {l l' : IRLowerer} {arrayName : String} {elements : List Int} {index : Expr}
    {v : Int} (ha : l.arrays.find arrayName = some elements)
    (h : l.lowerExpr index = .ok (v, l')) (hS : l.scope.Ok l.layouts groups) :
    (Access.element elements v l'.nextValue).Placed
      (l'.elementAddress elements v).2.ir.instructions groups := by
  obtain ⟨-, hv, -, -⟩ := lowerExpr_ok h hS
  rw [elementAddress_eq]
  exact ⟨(List.suffix_append _ _).isInfix, hS.arrays _ _ ha, hv⟩

mutual

theorem exprAccesses_placed : ∀ (e : Expr) {l : IRLowerer} {r : Int × IRLowerer},
    l.lowerExpr e = .ok r → l.scope.Ok l.layouts groups →
      ∀ x ∈ exprAccesses l e, x.Placed r.2.ir.instructions groups
  | .integer _, _, _, _, _ | .variable _, _, _, _, _ | .addressOf _, _, _, _, _
  | .asm _, _, _, _, _ => by simp [exprAccesses]
  | .unary op operand, l, r, h, hS => by
    rw [lowerExpr, ite_error_eq_ok] at h
    obtain ⟨⟨v, l₁⟩, h₁, h⟩ := bind_eq_ok.mp h.2
    intro x hx
    rw [exprAccesses] at hx
    refine (exprAccesses_placed operand h₁ hS x hx).mono ?_ (List.Subset.refl _)
    simp only [define_eq, extend_extend] at h
    cases h
    exact extend_isPart _ _ _
  | .deref pointer, l, r, h, hS => by
    rw [lowerExpr] at h
    obtain ⟨⟨v, l₁⟩, h₁, h⟩ := bind_eq_ok.mp h
    intro x hx
    rw [exprAccesses] at hx
    refine (exprAccesses_placed pointer h₁ hS x hx).mono ?_ (List.Subset.refl _)
    simp only [define_eq] at h
    cases h
    exact extend_isPart _ _ _
  | .call callee args, l, r, h, hS => by
    rw [lowerExpr] at h
    obtain ⟨⟨vs, l₁⟩, h₁, h⟩ := bind_eq_ok.mp h
    intro x hx
    rw [exprAccesses] at hx
    refine (argsAccesses_placed args h₁ hS x hx).mono ?_ (List.Subset.refl _)
    simp only [define_eq] at h
    cases h
    exact extend_isPart _ _ _
  | .fieldAccess structVarName fieldName, l, r, h, hS => by
    rw [lowerExpr] at h
    split at h
    · rename_i variants hs hv
      rw [exprAccesses, fieldAccesses, Table.not_contains_iff.mp hs]
      exact fun x hx => absurd hx List.not_mem_nil
    · obtain ⟨⟨v, l₁⟩, h₁, h⟩ := bind_eq_ok.mp h
      intro x hx
      rw [exprAccesses] at hx
      refine (fieldAccesses_placed h₁ hS x hx).mono ?_ (List.Subset.refl _)
      simp only [define_eq] at h
      cases h
      exact extend_isPart _ _ _
  | .index arrayName index, l, r, h, hS => by
    rw [lowerExpr] at h
    split at h
    · cases h
    rename_i elements ha
    obtain ⟨⟨v, l₁⟩, h₁, h⟩ := bind_eq_ok.mp h
    have hlast : (l₁.elementAddress elements v).2.ir.instructions <:+: r.2.ir.instructions := by
      simp only [define_eq] at h
      cases h
      exact extend_isPart _ _ _
    simp only [exprAccesses, ha, h₁]
    refine List.forall_mem_append.mpr ⟨fun x hx => ?_, List.forall_mem_singleton.mpr ?_⟩
    · exact (exprAccesses_placed index h₁ hS x hx).mono
        ((elementAddress_isPart _ _ _).trans hlast) (List.Subset.refl _)
    · exact (element_placed ha h₁ hS).mono hlast (List.Subset.refl _)
  | .binary op left right, l, r, h, hS => by
    rw [lowerExpr] at h
    obtain ⟨⟨v₁, l₁⟩, h₁, h⟩ := bind_eq_ok.mp h
    obtain ⟨⟨v₂, l₂⟩, h₂, h⟩ := bind_eq_ok.mp h
    have hlast : l₂.ir.instructions <:+: r.2.ir.instructions := by
      cases hop : binaryOpcode op with
      | none => simp [hop] at h
      | some opcode =>
        simp only [hop, define_eq] at h
        cases h
        exact extend_isPart _ _ _
    simp only [exprAccesses, h₁]
    refine List.forall_mem_append.mpr ⟨fun x hx => ?_, fun x hx => ?_⟩
    · exact (exprAccesses_placed left h₁ hS x hx).mono ((lowerExpr_isPart h₂).trans hlast)
        (List.Subset.refl _)
    · exact (exprAccesses_placed right h₂ (lowerExpr_ok h₁ hS).1 x hx).mono hlast
        (List.Subset.refl _)

theorem argsAccesses_placed : ∀ (args : List Expr) {l : IRLowerer} {r : List Int × IRLowerer},
    l.lowerArgs args = .ok r → l.scope.Ok l.layouts groups →
      ∀ x ∈ argsAccesses l args, x.Placed r.2.ir.instructions groups
  | [], _, _, _, _ => by simp [argsAccesses]
  | arg :: args, l, r, h, hS => by
    rw [lowerArgs] at h
    obtain ⟨⟨v₁, l₁⟩, h₁, h⟩ := bind_eq_ok.mp h
    obtain ⟨⟨vs, l₂⟩, h₂, h⟩ := bind_eq_ok.mp h
    cases h
    simp only [argsAccesses, h₁]
    refine List.forall_mem_append.mpr ⟨fun x hx => ?_, fun x hx => ?_⟩
    · refine (exprAccesses_placed arg h₁ hS x hx).mono ?_ (List.Subset.refl _)
      obtain ⟨code, taken, k, -, rfl⟩ := lowerArgs_lowers _ h₂
      exact extend_isPart _ _ _
    · exact argsAccesses_placed args h₂ (lowerExpr_ok h₁ hS).1 x hx

end

/-- The function so far is part of a later one. -/
def Grows (l l' : IRLowerer) : Prop :=
  l.ir.instructions <:+: l'.ir.instructions ∧ l.ir.arrayGroups ⊆ l'.ir.arrayGroups

theorem Grows.trans {l l' l'' : IRLowerer} (h : Grows l l') (h' : Grows l' l'') : Grows l l'' :=
  ⟨h.1.trans h'.1, List.Subset.trans h.2 h'.2⟩

theorem extend_grows (l : IRLowerer) (A : Fragment) (S : Scope) : Grows l (l.extend A S) :=
  ⟨extend_isPart l A S, List.subset_append_left _ _⟩

theorem Grows.placed {l l' : IRLowerer} (h : Grows l l') {x : Access}
    (hx : x.Placed l.ir.instructions l.ir.arrayGroups) :
    x.Placed l'.ir.instructions l'.ir.arrayGroups := hx.mono h.1 h.2

/-- The tables of a lowerer belong to its function. -/
def Sound (l : IRLowerer) : Prop := l.scope.Ok l.layouts l.ir.arrayGroups

theorem emit_grows (l : IRLowerer) (inst : IRInstruction) : Grows l (l.emit inst) := by
  rw [emit_eq]
  exact extend_grows _ _ _

theorem Sound.emit {l : IRLowerer} (h : l.Sound) (inst : IRInstruction) : (l.emit inst).Sound := h

theorem Sound.freshLabel {l : IRLowerer} (h : l.Sound) (pre : String) :
    (l.freshLabel pre).2.Sound := Scope.Ok.mono h le_rfl

/-- Code without a group. -/
theorem Sound.extend {l : IRLowerer} (h : l.Sound) {k : Int} (hk : l.nextValue ≤ k)
    (code : List IRInstruction) (taken : List Int) :
    (l.extend ⟨code, taken, []⟩ { l.scope with nextValue := k }).Sound ∧
      Grows l (l.extend ⟨code, taken, []⟩ { l.scope with nextValue := k }) := by
  refine ⟨?_, extend_grows _ _ _⟩
  show Scope.Ok l.layouts (l.ir.arrayGroups ++ []) _
  rw [List.append_nil]
  exact Scope.Ok.mono h hk

theorem Sound.expr {l l' : IRLowerer} {e : Expr} {v : Int} (hS : l.Sound)
    (h : l.lowerExpr e = .ok (v, l')) : l'.Sound ∧ Grows l l' := by
  obtain ⟨code, taken, k, hl, rfl⟩ := lowerExpr_lowers _ h
  exact hS.extend (Scope.Ok.expr hS hl).1 code taken

theorem Sound.block {l l' : IRLowerer} {body : List Statement} (hS : l.Sound)
    (h : l.lowerBlock body = .ok l') : l'.Sound ∧ Grows l l' := by
  obtain ⟨A, S, hl, rfl⟩ := lowerBlock_lowers _ h
  exact ⟨(hl.ok hS).2, extend_grows _ _ _⟩

theorem Sound.statement {l l' : IRLowerer} {statement : Statement} (hS : l.Sound)
    (h : l.lowerStatement statement = .ok l') : l'.Sound ∧ Grows l l' := by
  obtain ⟨A, S, hl, rfl⟩ := lowerStatement_lowers _ h
  exact ⟨(hl.ok hS).2, extend_grows _ _ _⟩

theorem Sound.exprAccesses {l l' : IRLowerer} {e : Expr} {v : Int} (hS : l.Sound)
    (h : l.lowerExpr e = .ok (v, l')) :
    ∀ x ∈ exprAccesses l e, x.Placed l'.ir.instructions l'.ir.arrayGroups := fun x hx =>
  (exprAccesses_placed e h hS x hx).mono List.infix_rfl (hS.expr h).2.2

mutual

theorem stmtAccesses_placed : ∀ (s : Statement) {l l' : IRLowerer},
    l.lowerStatement s = .ok l' → l.Sound →
      ∀ x ∈ stmtAccesses l s, x.Placed l'.ir.instructions l'.ir.arrayGroups
  | .letStmt name type initializer, l, l', h, hS => by
    rw [lowerStatement] at h
    obtain ⟨⟨v, l₁⟩, h₁, h⟩ := bind_eq_ok.mp h
    cases h
    exact fun x hx => hS.exprAccesses h₁ x hx
  | .returnStmt value, l, l', h, hS => by
    rw [lowerStatement] at h
    obtain ⟨⟨v, l₁⟩, h₁, h⟩ := bind_eq_ok.mp h
    cases h
    exact fun x hx => (emit_grows _ _).placed (hS.exprAccesses h₁ x hx)
  | .assignStmt name value, l, l', h, hS => by
    rw [lowerStatement] at h
    split at h
    · cases h
    obtain ⟨⟨v, l₁⟩, h₁, h⟩ := bind_eq_ok.mp h
    cases h
    exact fun x hx => (emit_grows _ _).placed (hS.exprAccesses h₁ x hx)
  | .storeStmt pointer value, l, l', h, hS => by
    rw [lowerStatement] at h
    obtain ⟨⟨v₁, l₁⟩, h₁, h⟩ := bind_eq_ok.mp h
    obtain ⟨⟨v₂, l₂⟩, h₂, h⟩ := bind_eq_ok.mp h
    cases h
    have hS₁ := hS.expr h₁
    simp only [stmtAccesses, h₁]
    refine List.forall_mem_append.mpr ⟨fun x hx => ?_, fun x hx => ?_⟩
    · exact ((hS₁.1.expr h₂).2.trans (emit_grows _ _)).placed (hS.exprAccesses h₁ x hx)
    · exact (emit_grows _ _).placed (hS₁.1.exprAccesses h₂ x hx)
  | .arrayDecl _ _ _, _, _, _, _ | .structVarDecl _ _, _, _, _, _ => by simp [stmtAccesses]
  | .fieldStore structVarName fieldName value, l, l', h, hS => by
    rw [lowerStatement] at h
    obtain ⟨⟨w, l₁⟩, h₁, h⟩ := bind_eq_ok.mp h
    obtain ⟨⟨v, l₂⟩, h₂, h⟩ := bind_eq_ok.mp h
    cases h
    have hl₁ : l₁.Sound ∧ Grows l l₁ := by
      obtain ⟨fields, i, -, e⟩ := lowerFieldAddress_lowers h₁
      cases e
      exact hS.extend (Int.le_add_of_nonneg_right (by decide)) _ _
    simp only [stmtAccesses, h₁]
    refine List.forall_mem_append.mpr ⟨fun x hx => ?_, fun x hx => ?_⟩
    · exact ((hl₁.1.expr h₂).2.trans (emit_grows _ _)).placed
        ((fieldAccesses_placed h₁ hS x hx).mono List.infix_rfl hl₁.2.2)
    · exact (emit_grows _ _).placed (hl₁.1.exprAccesses h₂ x hx)
  | .indexStore arrayName index value, l, l', h, hS => by
    rw [lowerStatement] at h
    split at h
    · cases h
    rename_i elements ha
    obtain ⟨⟨v₁, l₁⟩, h₁, h⟩ := bind_eq_ok.mp h
    obtain ⟨⟨v₂, l₂⟩, h₂, h⟩ := bind_eq_ok.mp h
    cases h
    have hS₁ := hS.expr h₁
    have hl : (l₁.elementAddress elements v₁).2.Sound ∧
        Grows l₁ (l₁.elementAddress elements v₁).2 := by
      rw [elementAddress_eq]
      exact hS₁.1.extend (Int.le_add_of_nonneg_right (by decide)) _ _
    have hlast := (hl.1.expr h₂).2.trans
      (emit_grows l₂ (.storeI32 (l₁.elementAddress elements v₁).1 v₂))
    simp only [stmtAccesses, ha, h₁]
    refine List.forall_mem_append.mpr ⟨fun x hx => ?_, List.forall_mem_cons.mpr ⟨?_, ?_⟩⟩
    · exact (hl.2.trans hlast).placed (hS.exprAccesses h₁ x hx)
    · exact hlast.placed ((element_placed ha h₁ hS).mono List.infix_rfl (List.Subset.trans hS₁.2.2 hl.2.2))
    · exact fun x hx => (emit_grows _ _).placed (hl.1.exprAccesses h₂ x hx)
  | .whileStmt condition body, l, l', h, hS => by
    rw [lowerStatement] at h
    obtain ⟨⟨v, l₁⟩, h₁, h⟩ := bind_eq_ok.mp h
    obtain ⟨l₂, h₂, h⟩ := bind_eq_ok.mp h
    cases h
    have hS₀ := ((hS.freshLabel ".Lloop").freshLabel ".Lloopend").emit
      (.labelAt (l.freshLabel ".Lloop").1)
    replace h₁ : (((l.freshLabel ".Lloop").2.freshLabel ".Lloopend").2.emit
      (.labelAt (l.freshLabel ".Lloop").1)).lowerExpr condition = .ok (v, l₁) := h₁
    have hS₁ := hS₀.expr h₁
    have hS₂ := (hS₁.1.emit _).block h₂
    have hlast := (emit_grows l₂ (.jump (l.freshLabel ".Lloop").1)).trans (emit_grows _
      (.labelAt ((l.freshLabel ".Lloop").2.freshLabel ".Lloopend").1))
    simp only [stmtAccesses, h₁]
    refine List.forall_mem_append.mpr ⟨fun x hx => ?_, fun x hx => ?_⟩
    · exact ((emit_grows _ _).trans (hS₂.2.trans hlast)).placed (hS₀.exprAccesses h₁ x hx)
    · exact hlast.placed (blockAccesses_placed body h₂ (hS₁.1.emit _) x hx)
  | .ifStmt condition thenBody elseBody, l, l', h, hS => by
    rw [lowerStatement] at h
    obtain ⟨⟨v, l₁⟩, h₁, h⟩ := bind_eq_ok.mp h
    obtain ⟨l₂, h₂, h⟩ := bind_eq_ok.mp h
    replace h₂ : (((l₁.freshLabel ".Lelse").2.freshLabel ".Lend").2.emit (.jumpIfZero v
      (if elseBody.isEmpty then ((l₁.freshLabel ".Lelse").2.freshLabel ".Lend").1
        else (l₁.freshLabel ".Lelse").1))).lowerBlock thenBody = .ok l₂ := h₂
    have hS₁ := hS.expr h₁
    have hS₁' := (((hS₁.1.freshLabel ".Lelse").freshLabel ".Lend").emit (.jumpIfZero v
      (if elseBody.isEmpty then ((l₁.freshLabel ".Lelse").2.freshLabel ".Lend").1
        else (l₁.freshLabel ".Lelse").1)))
    have hS₂ := hS₁'.block h₂
    have hg : Grows l₁ l₂ := Grows.trans (emit_grows l₁ _) hS₂.2
    simp only [stmtAccesses, h₁, h₂]
    by_cases he : elseBody.isEmpty = true
    · simp only [he, if_true] at h
      cases h
      obtain rfl := List.isEmpty_iff.mp he
      simp only [blockAccesses, List.append_nil]
      refine List.forall_mem_append.mpr ⟨fun x hx => ?_, fun x hx => ?_⟩
      · exact (hg.trans (emit_grows _ _)).placed (hS.exprAccesses h₁ x hx)
      · exact (emit_grows _ _).placed (blockAccesses_placed thenBody h₂ hS₁' x hx)
    · simp only [he, if_false, Bool.false_eq_true] at h
      obtain ⟨l₃, h₃, h⟩ := bind_eq_ok.mp h
      cases h
      have hS₃ := ((hS₂.1.emit _).emit _).block h₃
      have hlast := ((emit_grows _ _).trans ((emit_grows _ _).trans hS₃.2)).trans
        (emit_grows l₃ (.labelAt ((l₁.freshLabel ".Lelse").2.freshLabel ".Lend").1))
      refine List.forall_mem_append.mpr ⟨fun x hx => ?_, List.forall_mem_append.mpr
        ⟨fun x hx => ?_, fun x hx => ?_⟩⟩
      · exact (hg.trans hlast).placed (hS.exprAccesses h₁ x hx)
      · exact hlast.placed (blockAccesses_placed thenBody h₂ hS₁' x hx)
      · exact (emit_grows _ _).placed
          (blockAccesses_placed elseBody h₃ ((hS₂.1.emit _).emit _) x hx)

theorem blockAccesses_placed : ∀ (body : List Statement) {l l' : IRLowerer},
    l.lowerBlock body = .ok l' → l.Sound →
      ∀ x ∈ blockAccesses l body, x.Placed l'.ir.instructions l'.ir.arrayGroups
  | [], _, _, _, _ => by simp [blockAccesses]
  | statement :: body, l, l', h, hS => by
    rw [lowerBlock] at h
    obtain ⟨l₁, h₁, h⟩ := bind_eq_ok.mp h
    have hS₁ := hS.statement h₁
    simp only [blockAccesses, h₁]
    refine List.forall_mem_append.mpr ⟨fun x hx => ?_, fun x hx => ?_⟩
    · exact (hS₁.1.block h).2.placed (stmtAccesses_placed statement h₁ hS x hx)
    · exact blockAccesses_placed body h hS₁.1 x hx

end

theorem functionAccesses_placed {function : Function} {Y : Layouts} {ir : IRFunction}
    (h : lower function Y.structFieldOrder Y.enumVariants = .ok ir) :
    ∀ x ∈ functionAccesses function Y, x.Placed ir.instructions ir.arrayGroups := by
  obtain ⟨l, hl, e⟩ := bind_eq_ok.mp h
  cases e
  refine blockAccesses_placed _ hl ?_
  rw [lowerParams_eq _ _ 0 rfl, Nat.zero_add]
  exact bodyScope_ok function.params

end IRLowerer

end Oglang
end Techuila
