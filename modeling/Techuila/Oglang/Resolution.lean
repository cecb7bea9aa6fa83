import Techuila.Oglang.Declarations

/-!
# The checker and the lowering resolve names alike

Both passes walk the same syntax with tables of their own. `BlockAgrees` follows the two walks side
by side, in the states that the passes have at each occurrence of a name.

* `VariableAgrees`, `ArrayAgrees`, `FieldAgrees`, `VariantAgrees`: one occurrence.
* `ExprAgrees`, `StatementAgrees`, `BlockAgrees`: all occurrences, with the states in between. The
  first tree is the checker's, the second one, where callees are symbols, that of the lowering.
* `StatesAgree`: the invariant of the two states.
* `Source.names_agree`: every accepted function is lowered, and all its names agree.
-/

namespace Techuila
namespace Oglang

/-! ## Occurrences -/

section Occurrences

variable (units : List ModuleUnit) (program : Program) (c : Checker) (l : IRLowerer)

/-- Both passes have the variable. -/
def VariableAgrees (name : String) : Prop :=
  c.vars.contains name = true ∧ l.vars.contains name = true

/-- The lowering has as many cells for the array as the size that the checker has for it. -/
def ArrayAgrees (name : String) (elements : List Int) : Prop :=
  ∃ elementType size, c.arrays.find name = some (elementType, size) ∧ 0 < size ∧
    l.arrays.find name = some elements ∧ elements.length = size

/-- To both passes the struct variable has the struct type that `d` declares, `fieldName` is the
field of `d` at the position `i`, and its address is computed with `i`. -/
structure FieldAgrees (structVarName fieldName structType : String) (d : StructDecl) (i : Nat)
    (field : Param) (cells : List Int) : Prop where
  checker : c.structVars.find structVarName = some structType
  lowerer : l.structVarTypes.find structVarName = some structType
  declared : VisibleStruct units program structType d
  unique : ∀ d', VisibleStruct units program structType d' → d' = d
  position : d.fields[i]? = some field
  name : field.name = fieldName
  nodup : (d.fields.map Param.name).Nodup
  type : c.resolveFieldType structVarName fieldName = .ok field.type
  structVar : l.structVars.find structVarName = some cells
  size : cells.length = d.fields.length
  address : ∃ r, l.lowerFieldAddress structVarName fieldName = .ok r ∧
    r.2.ir.instructions = l.ir.instructions ++ fieldCode cells i l.nextValue

/-- To both passes `enumName` is the enum that `d` declares and no struct variable, `variantName`
is its variant at the position `i`, and the constant is `i`. -/
structure VariantAgrees (enumName variantName : String) (d : EnumDecl) (i : Nat) : Prop where
  checker : c.structVars.find enumName = none
  lowerer : l.structVars.find enumName = none
  declared : VisibleEnum units program enumName d
  unique : ∀ d', VisibleEnum units program enumName d' → d' = d
  position : d.variants[i]? = some variantName
  nodup : d.variants.Nodup
  ordinals : c.enums.find enumName = some d.ordinals
  constant : ∃ r, l.lowerExpr (.fieldAccess enumName variantName) = .ok r ∧
    r.2.ir.instructions = l.ir.instructions ++ [.constI32 l.nextValue i]

end Occurrences

/-! ## Expressions and statements -/

section Trees

variable (units : List ModuleUnit) (program : Program)

mutual

inductive ExprAgrees (c : Checker) : IRLowerer → Expr → Expr → Prop
  | integer {l value} : ExprAgrees c l (.integer value) (.integer value)
  | asm {l templateText} : ExprAgrees c l (.asm templateText) (.asm templateText)
  | variable {l name} : VariableAgrees c l name → ExprAgrees c l (.variable name) (.variable name)
  | addressOf {l name} : VariableAgrees c l name →
      ExprAgrees c l (.addressOf name) (.addressOf name)
  | unary {l op operand operand'} : ExprAgrees c l operand operand' →
      ExprAgrees c l (.unary op operand) (.unary op operand')
  | deref {l pointer pointer'} : ExprAgrees c l pointer pointer' →
      ExprAgrees c l (.deref pointer) (.deref pointer')
  | index {l arrayName elements index index' v l₁ r} : ArrayAgrees c l arrayName elements →
      ExprAgrees c l index index' → l.lowerExpr index' = .ok (v, l₁) →
      l.lowerExpr (.index arrayName index') = .ok r →
      r.2.ir.instructions = l₁.ir.instructions ++ (elementCode elements v l₁.nextValue ++
        [.loadI32 (l₁.nextValue + 4) (l₁.nextValue + 3)]) →
      ExprAgrees c l (.index arrayName index) (.index arrayName index')
  | field {l structVarName fieldName structType d i field cells} :
      FieldAgrees units program c l structVarName fieldName structType d i field cells →
      ExprAgrees c l (.fieldAccess structVarName fieldName) (.fieldAccess structVarName fieldName)
  | variant {l enumName variantName d i} :
      VariantAgrees units program c l enumName variantName d i →
      ExprAgrees c l (.fieldAccess enumName variantName) (.fieldAccess enumName variantName)
  | call {l callee callee' args args'} : c.signatures.contains callee = true →
      ArgsAgree c l args args' → ExprAgrees c l (.call callee args) (.call callee' args')
  | binary {l op left right left' right' v l₁} : ExprAgrees c l left left' →
      l.lowerExpr left' = .ok (v, l₁) → ExprAgrees c l₁ right right' →
      ExprAgrees c l (.binary op left right) (.binary op left' right')

inductive ArgsAgree (c : Checker) : IRLowerer → List Expr → List Expr → Prop
  | nil {l} : ArgsAgree c l [] []
  | cons {l arg args arg' args' v l₁} : ExprAgrees c l arg arg' → l.lowerExpr arg' = .ok (v, l₁) →
      ArgsAgree c l₁ args args' → ArgsAgree c l (arg :: args) (arg' :: args')

end

variable (returnType : String)

mutual

inductive StatementAgrees : Checker → IRLowerer → Statement → Statement → Prop
  | letStmt {c l name type initializer initializer'} :
      ExprAgrees units program c l initializer initializer' →
      StatementAgrees c l (.letStmt name type initializer) (.letStmt name type initializer')
  | returnStmt {c l value value'} : ExprAgrees units program c l value value' →
      StatementAgrees c l (.returnStmt value) (.returnStmt value')
  | assignStmt {c l name value value'} : VariableAgrees c l name →
      ExprAgrees units program c l value value' →
      StatementAgrees c l (.assignStmt name value) (.assignStmt name value')
  | storeStmt {c l pointer value pointer' value' v l₁} :
      ExprAgrees units program c l pointer pointer' → l.lowerExpr pointer' = .ok (v, l₁) →
      ExprAgrees units program c l₁ value value' →
      StatementAgrees c l (.storeStmt pointer value) (.storeStmt pointer' value')
  | arrayDecl {c l name elementType size} :
      StatementAgrees c l (.arrayDecl name elementType size) (.arrayDecl name elementType size)
  | structVarDecl {c l name structType d} : VisibleStruct units program structType d →
      (∀ d', VisibleStruct units program structType d' → d' = d) →
      c.structs.find structType = some d.fieldTypes →
      l.structFieldOrder.find structType = some (d.fields.map Param.name) →
      StatementAgrees c l (.structVarDecl name structType) (.structVarDecl name structType)
  | indexStore {c l arrayName elements index value index' value' v l₁} :
      ArrayAgrees c l arrayName elements → ExprAgrees units program c l index index' →
      l.lowerExpr index' = .ok (v, l₁) →
      ExprAgrees units program c (l₁.elementAddress elements v).2 value value' →
      StatementAgrees c l (.indexStore arrayName index value) (.indexStore arrayName index' value')
  | fieldStore {c l structVarName fieldName structType d i field cells value value' v l₁} :
      FieldAgrees units program c l structVarName fieldName structType d i field cells →
      l.lowerFieldAddress structVarName fieldName = .ok (v, l₁) →
      ExprAgrees units program c l₁ value value' →
      StatementAgrees c l (.fieldStore structVarName fieldName value)
        (.fieldStore structVarName fieldName value')
  | whileStmt {c l loopStart l₁ loopEnd l₂ condition condition' v l₃ body body'} :
      l.freshLabel ".Lloop" = (loopStart, l₁) → l₁.freshLabel ".Lloopend" = (loopEnd, l₂) →
      ExprAgrees units program c (l₂.emit (.labelAt loopStart)) condition condition' →
      (l₂.emit (.labelAt loopStart)).lowerExpr condition' = .ok (v, l₃) →
      BlockAgrees c (l₃.emit (.jumpIfZero v loopEnd)) body body' →
      StatementAgrees c l (.whileStmt condition body) (.whileStmt condition' body')
  | ifStmt {c l condition condition' v l₁ elseLabel l₂ endLabel l₃ thenBody thenBody' c₁ l₄
        elseBody elseBody'} :
      ExprAgrees units program c l condition condition' → l.lowerExpr condition' = .ok (v, l₁) →
      l₁.freshLabel ".Lelse" = (elseLabel, l₂) → l₂.freshLabel ".Lend" = (endLabel, l₃) →
      BlockAgrees c
        (l₃.emit (.jumpIfZero v (if elseBody'.isEmpty then endLabel else elseLabel)))
        thenBody thenBody' →
      Checker.checkBlock returnType c thenBody = .ok c₁ →
      (l₃.emit (.jumpIfZero v (if elseBody'.isEmpty then endLabel else elseLabel))).lowerBlock
        thenBody' = .ok l₄ →
      BlockAgrees c₁ ((l₄.emit (.jump endLabel)).emit (.labelAt elseLabel)) elseBody elseBody' →
      StatementAgrees c l (.ifStmt condition thenBody elseBody)
        (.ifStmt condition' thenBody' elseBody')

inductive BlockAgrees : Checker → IRLowerer → List Statement → List Statement → Prop
  | nil {c l} : BlockAgrees c l [] []
  | cons {c l statement statement' c₁ l₁ body body'} : StatementAgrees c l statement statement' →
      Checker.checkStatement returnType c statement = .ok c₁ →
      l.lowerStatement statement' = .ok l₁ → BlockAgrees c₁ l₁ body body' →
      BlockAgrees c l (statement :: body) (statement' :: body')

end

end Trees

/-! ## The states of the two passes -/

/-- The tables of the two passes agree. -/
structure StatesAgree (units : List ModuleUnit) (program : Program) (c : Checker) (l : IRLowerer) :
    Prop where
  types : TypesAgree units program ⟨c.signatures, c.structs, c.enums⟩ l.layouts
  vars : ∀ name, c.vars.contains name = true → l.vars.contains name = true
  arrays : ∀ name elementType size, c.arrays.find name = some (elementType, size) →
    0 < size ∧ ∃ elements, l.arrays.find name = some elements ∧ elements.length = size
  structVars : ∀ name structType, c.structVars.find name = some structType →
    l.structVarTypes.find name = some structType ∧ ∃ fieldOrder cells,
      l.structFieldOrder.find structType = some fieldOrder ∧
      l.structVars.find name = some cells ∧ cells.length = fieldOrder.length
  noStructVar : ∀ name, c.structVars.find name = none → l.structVars.find name = none

section Agreement

variable {units : List ModuleUnit} {program : Program} {c : Checker} {l : IRLowerer}

theorem StatesAgree.of_names (h : StatesAgree units program c l) {l' : IRLowerer}
    (hn : l'.scope.names = l.scope.names) (hl : l'.layouts = l.layouts) :
    StatesAgree units program c l' := by
  obtain ⟨hvars, harrays, hstructVars, htypes⟩ := Names.mk.inj hn
  obtain ⟨horder, -⟩ := Layouts.mk.inj hl
  exact ⟨hl ▸ h.types, hvars ▸ h.vars, harrays ▸ h.arrays, hstructVars ▸ htypes ▸ horder ▸
    h.structVars, hstructVars ▸ h.noStructVar⟩

theorem StatesAgree.expr (h : StatesAgree units program c l) {e : Expr} {r : Int × IRLowerer}
    (he : l.lowerExpr e = .ok r) : StatesAgree units program c r.2 := by
  obtain ⟨code, taken, k, -, hr⟩ := IRLowerer.lowerExpr_lowers e he
  rw [hr]
  exact h.of_names rfl rfl

theorem StatesAgree.variable (h : StatesAgree units program c l) {name type : String}
    (hc : c.vars.find name = some type) :
    VariableAgrees c l name ∧ ∃ v, l.vars.find name = some v := by
  have hv := Table.contains_iff.mpr ⟨type, hc⟩
  exact ⟨⟨hv, h.vars name hv⟩, Table.contains_iff.mp (h.vars name hv)⟩

theorem lowerFieldAddress_eq {structVarName fieldName structType : String} {cells : List Int}
    {fieldOrder : List String} {i : Nat} (hc : l.structVars.find structVarName = some cells)
    (ht : l.structVarTypes.find structVarName = some structType)
    (ho : l.structFieldOrder.find structType = some fieldOrder)
    (hi : fieldOrder.idxOf? fieldName = some i) :
    l.lowerFieldAddress structVarName fieldName = .ok (l.scope.nextValue + 2,
      l.extend ⟨fieldCode cells i l.scope.nextValue, [], []⟩
        { l.scope with nextValue := l.scope.nextValue + 3 }) := by
  unfold IRLowerer.lowerFieldAddress
  simp only [hc, ht, ho, hi]
  cases l
  simp [IRLowerer.define, IRLowerer.emit, IRLowerer.extend, IRLowerer.scope, fieldCode,
    Int.add_assoc]

theorem idxOf?_eq_some_of_nodup {names : List String} (h : names.Nodup) {i : Nat} {name : String}
    (hi : names[i]? = some name) : names.idxOf? name = some i := by
  obtain ⟨hlt, hget⟩ := List.getElem?_eq_some_iff.mp hi
  refine List.idxOf?_eq_some_iff.mpr ⟨hlt, hget, fun j hj he => ?_⟩
  have hj' : names[j]? = some name := List.getElem?_eq_some_iff.mpr ⟨hj.trans hlt, he⟩
  exact absurd (getElem?_inj_of_nodup h hi hj') hj.ne'

theorem StatesAgree.field (h : StatesAgree units program c l) {structVarName fieldName type : String}
    (hc : c.resolveFieldType structVarName fieldName = .ok type) :
    ∃ structType d i field cells,
      FieldAgrees units program c l structVarName fieldName structType d i field cells := by
  have hres := hc
  unfold Checker.resolveFieldType at hc
  split at hc
  · cases hc
  rename_i structType hs
  split at hc
  · cases hc
  rename_i types ht
  split at hc
  · cases hc
  rename_i type' hf
  cases hc
  obtain ⟨d, hd, hunique, hnodup, rfl, ho⟩ := h.types.struct _ _ ht
  obtain ⟨hlt, fieldOrder, cells, ho', hcells, hlen⟩ := h.structVars _ _ hs
  have ho'' : l.structFieldOrder.find structType = some (d.fields.map Param.name) := ho
  rw [ho''] at ho'
  cases ho'
  obtain ⟨field, hfield, hname, rfl⟩ := (Table.find_insertAll hf).resolve_right (by simp)
  obtain ⟨i, hi⟩ := List.mem_iff_getElem?.mp hfield
  have hget : (d.fields.map Param.name)[i]? = some fieldName := by
    rw [List.getElem?_map, hi, ← hname]
    rfl
  have hidx : (d.fields.map Param.name).idxOf? fieldName = some i :=
    idxOf?_eq_some_of_nodup hnodup hget
  exact ⟨structType, d, i, field, cells, hs, hlt, hd, hunique, hi, hname, hnodup, hres, hcells,
    hlen.trans (List.length_map _), _, lowerFieldAddress_eq hcells hlt ho'' hidx, rfl⟩

theorem find_variantOrdinals {variants : List String} {i : Nat} {t : Table String Int}
    {variant : String} {ordinal : Int}
    (h : (variantOrdinals i t variants).find variant = some ordinal) :
    (∃ j : Nat, variants[j]? = some variant ∧ ordinal = (i + j : Nat)) ∨
      t.find variant = some ordinal := by
  induction variants generalizing i t with
  | nil => exact .inr h
  | cons v rest ih =>
    rcases ih h with ⟨j, hj, rfl⟩ | h
    · exact .inl ⟨j + 1, hj, by rw [Nat.add_right_comm, Nat.add_assoc]⟩
    · rw [Table.find_insert] at h
      split at h
      · rename_i hv
        cases h
        exact .inl ⟨0, hv ▸ rfl, rfl⟩
      · exact .inr h

theorem StatesAgree.variant (h : StatesAgree units program c l) {enumName variantName : String}
    {variants : Table String Int} (hs : c.structVars.find enumName = none)
    (he : c.enums.find enumName = some variants) (hv : variants.contains variantName = true) :
    ∃ d i, VariantAgrees units program c l enumName variantName d i := by
  obtain ⟨d, hd, hunique, hnodup, rfl, ho⟩ := h.types.enum _ _ he
  have ho : l.enumVariants.find enumName = some d.ordinals := ho
  obtain ⟨ordinal, hf⟩ := Table.contains_iff.mp hv
  obtain ⟨i, hi, rfl⟩ := (find_variantOrdinals hf).resolve_right (by simp)
  have hl := h.noStructVar _ hs
  have hlower : l.lowerExpr (.fieldAccess enumName variantName) =
      .ok (l.define (.constI32 · (i : Int))) := by
    rw [EnumDecl.ordinals, Nat.zero_add] at hf
    rw [IRLowerer.lowerExpr]
    simp only [Table.not_contains_iff.mpr hl, ho, EnumDecl.ordinals, hf]
  exact ⟨d, i, hs, hl, hd, hunique, hi, hnodup, he, _, hlower, rfl⟩

theorem binaryOpcode_of_isBinaryOp {op : Char} (h : Checker.isBinaryOp op = true) :
    ∃ opcode, IRLowerer.binaryOpcode op = some opcode := by
  simp only [Checker.isBinaryOp, List.mem_cons, List.not_mem_nil, or_false, decide_eq_true_eq] at h
  rcases h with rfl | rfl | rfl | rfl | rfl | rfl | rfl | rfl | rfl | rfl <;> exact ⟨_, rfl⟩

/-! ## Expressions -/

variable (modulePrefix : String) (mangleThisModule : Bool)

mutual

/-- An accepted expression is lowered, and its names agree. -/
theorem StatesAgree.checkExpr : ∀ (e : Expr) {l : IRLowerer} {type : String},
    StatesAgree units program c l → e.onlyMinus = true → c.checkExpr e = .ok type →
      ∃ r, l.lowerExpr (mangleCallsInExpr modulePrefix mangleThisModule e) = .ok r ∧
        ExprAgrees units program c l e (mangleCallsInExpr modulePrefix mangleThisModule e)
  | .integer value, l, _, _, _, _ => ⟨_, rfl, .integer⟩
  | .asm templateText, l, _, _, _, _ => ⟨_, rfl, .asm⟩
  | .variable name, l, type, h, _, hc => by
    rw [Checker.checkExpr] at hc
    split at hc
    · cases hc
    rename_i type' hf
    obtain ⟨ha, v, hv⟩ := h.variable hf
    refine ⟨(v, l), ?_, .variable ha⟩
    rw [mangleCallsInExpr, IRLowerer.lowerExpr, hv]
  | .addressOf name, l, type, h, _, hc => by
    rw [Checker.checkExpr] at hc
    split at hc
    · rename_i hf
      obtain ⟨type', hf⟩ := Table.contains_iff.mp hf
      obtain ⟨ha, v, hv⟩ := h.variable hf
      obtain ⟨r, hr⟩ : ∃ r, l.lowerExpr (.addressOf name) = .ok r := by
        rw [IRLowerer.lowerExpr, hv]
        exact ⟨_, rfl⟩
      exact ⟨r, hr, .addressOf ha⟩
    · cases hc
  | .unary op operand, l, type, h, hm, hc => by
    obtain ⟨hop, hm⟩ := Bool.and_eq_true_iff.mp hm
    obtain ⟨operandType, ho, -⟩ := bind_eq_ok.mp hc
    obtain ⟨⟨v, l₁⟩, hl, ha⟩ := StatesAgree.checkExpr operand h hm ho
    exact ⟨_, (if_neg (not_not.mpr (beq_iff_eq.mp hop))).trans (bind_eq_ok.mpr ⟨_, hl, rfl⟩),
      .unary ha⟩
  | .deref pointer, l, type, h, hm, hc => by
    obtain ⟨pointerType, hp, -⟩ := bind_eq_ok.mp hc
    obtain ⟨⟨v, l₁⟩, hl, ha⟩ := StatesAgree.checkExpr pointer h hm hp
    exact ⟨_, bind_eq_ok.mpr ⟨_, hl, rfl⟩, .deref ha⟩
  | .index arrayName index, l, type, h, hm, hc => by
    rw [Checker.checkExpr] at hc
    split at hc
    · cases hc
    rename_i elementType size hf
    obtain ⟨indexType, hi, -⟩ := bind_eq_ok.mp hc
    obtain ⟨⟨v, l₁⟩, hl, ha⟩ := StatesAgree.checkExpr index h hm hi
    obtain ⟨hpos, elements, he, hlen⟩ := h.arrays _ _ _ hf
    have hindex : l.lowerExpr (.index arrayName
        (mangleCallsInExpr modulePrefix mangleThisModule index)) =
        .ok ((l₁.elementAddress elements v).2.define
          (.loadI32 · (l₁.elementAddress elements v).1)) := by
      rw [IRLowerer.lowerExpr, he]
      simp only [hl]
      rfl
    refine ⟨_, hindex, .index ⟨elementType, size, hf, hpos, he, hlen⟩ ha hl hindex ?_⟩
    rw [IRLowerer.elementAddress_eq, IRLowerer.define_eq]
    simp [IRLowerer.extend, IRLowerer.scope]
  | .fieldAccess structVarName fieldName, l, type, h, _, hc => by
    rw [Checker.checkExpr] at hc
    split at hc
    · rename_i variants hs he
      split at hc
      · rename_i hv
        obtain ⟨d, i, ha⟩ := h.variant (Table.not_contains_iff.mp hs) he hv
        obtain ⟨r, hr, -⟩ := ha.constant
        exact ⟨r, hr, .variant ha⟩
      · cases hc
    · obtain ⟨structType, d, i, field, cells, ha⟩ := h.field hc
      obtain ⟨⟨v, l₁⟩, hr, -⟩ := ha.address
      have hv : l.structVars.contains structVarName = true :=
        Table.contains_iff.mpr ⟨_, ha.structVar⟩
      have hlower : l.lowerExpr (.fieldAccess structVarName fieldName) =
          .ok (l₁.define (.loadI32 · v)) := by
        rw [IRLowerer.lowerExpr]
        simp only [hv, hr]
        rfl
      exact ⟨_, hlower, .field ha⟩
  | .call callee args, l, type, h, hm, hc => by
    rw [Checker.checkExpr] at hc
    split at hc
    · cases hc
    rename_i sig hs
    obtain ⟨-, hc⟩ := ite_error_eq_ok.mp hc
    obtain ⟨⟨⟩, hargs, -⟩ := bind_eq_ok.mp hc
    obtain ⟨⟨vs, l₁⟩, hl, ha⟩ := StatesAgree.checkArgs args h hm hargs
    exact ⟨_, bind_eq_ok.mpr ⟨_, hl, rfl⟩, .call (Table.contains_iff.mpr ⟨sig, hs⟩) ha⟩
  | .binary op left right, l, type, h, hm, hc => by
    obtain ⟨hml, hmr⟩ := Bool.and_eq_true_iff.mp hm
    obtain ⟨leftType, hcl, hc⟩ := bind_eq_ok.mp hc
    obtain ⟨rightType, hcr, hc⟩ := bind_eq_ok.mp hc
    obtain ⟨-, hc⟩ := ite_error_eq_ok.mp hc
    obtain ⟨⟨v, l₁⟩, hl, ha⟩ := StatesAgree.checkExpr left h hml hcl
    obtain ⟨⟨w, l₂⟩, hl', ha'⟩ := StatesAgree.checkExpr right (h.expr hl) hmr hcr
    split at hc
    · rename_i hop
      obtain ⟨opcode, hopcode⟩ := binaryOpcode_of_isBinaryOp hop
      obtain ⟨r, hr⟩ : ∃ r, (match IRLowerer.binaryOpcode op with
          | none => .error "Unsupported binary operator"
          | some opcode => .ok (l₂.define (.binary opcode · v w)) :
            Except String (Int × IRLowerer)) = .ok r := by
        rw [hopcode]
        exact ⟨_, rfl⟩
      exact ⟨_, bind_eq_ok.mpr ⟨_, hl, bind_eq_ok.mpr ⟨_, hl', hr⟩⟩,
        .binary ha hl ha'⟩
    · cases hc

theorem StatesAgree.checkArgs : ∀ (args : List Expr) {l : IRLowerer} {callee : String} {i : Nat}
    {types : List String}, StatesAgree units program c l → argsOnlyMinus args = true →
      c.checkArgs callee i args types = .ok () →
      ∃ r, l.lowerArgs (mangleCallsInArgs modulePrefix mangleThisModule args) = .ok r ∧
        ArgsAgree units program c l args (mangleCallsInArgs modulePrefix mangleThisModule args)
  | [], l, _, _, _, _, _, _ => ⟨_, rfl, .nil⟩
  | arg :: args, l, callee, i, types, h, hm, hc => by
    obtain ⟨hma, hmr⟩ := Bool.and_eq_true_iff.mp hm
    rw [Checker.checkArgs] at hc
    obtain ⟨argType, hca, hc⟩ := bind_eq_ok.mp hc
    obtain ⟨-, hc⟩ := ite_error_eq_ok.mp hc
    obtain ⟨⟨v, l₁⟩, hl, ha⟩ := StatesAgree.checkExpr arg h hma hca
    obtain ⟨⟨vs, l₂⟩, hl', ha'⟩ := StatesAgree.checkArgs args (h.expr hl) hmr hc
    exact ⟨_, bind_eq_ok.mpr ⟨_, hl, bind_eq_ok.mpr ⟨_, hl', rfl⟩⟩, .cons ha hl ha'⟩

end

/-! ## Statements -/

theorem StatesAgree.letStmt (h : StatesAgree units program c l) (name type : String) (v : Int) :
    StatesAgree units program { c with vars := c.vars.insert name type }
      { l with vars := l.vars.insert name v } := by
  refine ⟨h.types, fun x hx => ?_, h.arrays, h.structVars, h.noStructVar⟩
  by_cases hn : x = name
  · subst hn
    exact Table.contains_iff.mpr ⟨v, Table.find_insert_self _ _ _⟩
  · dsimp only at hx ⊢
    rw [Table.contains, Table.find_insert_ne _ _ hn] at hx ⊢
    exact h.vars x hx

theorem StatesAgree.arrayDecl (h : StatesAgree units program c l) (name elementType : String)
    {size : Int} (hsize : 0 < size) {elements : List Int} (hlen : elements.length = size) :
    StatesAgree units program { c with arrays := c.arrays.insert name (elementType, size) }
      { l with arrays := l.arrays.insert name elements } := by
  refine ⟨h.types, h.vars, fun x elementType' size' hx => ?_, h.structVars, h.noStructVar⟩
  dsimp only at hx ⊢
  rw [Table.find_insert] at hx ⊢
  split at hx
  · cases hx
    rename_i hn
    exact ⟨hsize, elements, if_pos hn, hlen⟩
  · rename_i hn
    rw [if_neg hn]
    exact h.arrays x _ _ hx

theorem StatesAgree.structVarDecl (h : StatesAgree units program c l) (name : String)
    {structType : String} {fieldOrder : List String} {cells : List Int}
    (ho : l.structFieldOrder.find structType = some fieldOrder)
    (hlen : cells.length = fieldOrder.length) :
    StatesAgree units program { c with structVars := c.structVars.insert name structType }
      { l with
        structVars := l.structVars.insert name cells
        structVarTypes := l.structVarTypes.insert name structType } := by
  refine ⟨h.types, h.vars, h.arrays, fun x structType' hx => ?_, fun x hx => ?_⟩
  · dsimp only at hx ⊢
    rw [Table.find_insert] at hx ⊢
    split at hx
    · cases hx
      rename_i hn
      rw [if_pos hn, hn, Table.find_insert_self]
      exact ⟨rfl, fieldOrder, cells, ho, rfl, hlen⟩
    · rename_i hn
      rw [if_neg hn, Table.find_insert_ne _ _ hn]
      exact h.structVars x _ hx
  · dsimp only at hx ⊢
    rw [Table.find_insert] at hx ⊢
    split at hx
    · cases hx
    · rename_i hn
      rw [if_neg hn]
      exact h.noStructVar x hx

variable {returnType : String}

/-- The code of an `if`, from the code of its parts. -/
theorem IRLowerer.lowerStatement_if {l l₁ l₂ l₃ l₄ l₅ : IRLowerer} {condition : Expr}
    {thenBody elseBody : List Statement} {v : Int} {elseLabel endLabel : String}
    (hl : l.lowerExpr condition = .ok (v, l₁))
    (helse : l₁.freshLabel ".Lelse" = (elseLabel, l₂))
    (hend : l₂.freshLabel ".Lend" = (endLabel, l₃))
    (hb : (l₃.emit (.jumpIfZero v (if elseBody.isEmpty then endLabel else elseLabel))).lowerBlock
      thenBody = .ok l₄)
    (hb' : ((l₄.emit (.jump endLabel)).emit (.labelAt elseLabel)).lowerBlock elseBody = .ok l₅) :
    l.lowerStatement (.ifStmt condition thenBody elseBody) =
      if elseBody.isEmpty = true then .ok (l₄.emit (.labelAt endLabel))
      else .ok (l₅.emit (.labelAt endLabel)) := by
  rw [IRLowerer.lowerStatement, hl]
  dsimp only [bind, Except.bind]
  rw [helse]
  dsimp only
  rw [hend]
  dsimp only
  rw [hb]
  dsimp only
  rw [hb']

mutual

/-- An accepted statement is lowered, its names agree, and so do the states after it. -/
theorem StatesAgree.checkStatement : ∀ (s : Statement) {c c' : Checker} {l : IRLowerer},
    StatesAgree units program c l → s.onlyMinus = true →
      Checker.checkStatement returnType c s = .ok c' →
      ∃ l', l.lowerStatement (mangleCallsInStatement modulePrefix mangleThisModule s) = .ok l' ∧
        StatesAgree units program c' l' ∧ StatementAgrees units program returnType c l s
          (mangleCallsInStatement modulePrefix mangleThisModule s)
  | .letStmt name type initializer, c, c', l, h, hm, hc => by
    obtain ⟨actual, ha, hc⟩ := bind_eq_ok.mp hc
    obtain ⟨-, hc⟩ := ite_error_eq_ok.mp hc
    cases hc
    obtain ⟨⟨v, l₁⟩, hl, he⟩ := h.checkExpr modulePrefix mangleThisModule initializer hm ha
    exact ⟨_, bind_eq_ok.mpr ⟨_, hl, rfl⟩, (h.expr hl).letStmt name type v, .letStmt he⟩
  | .returnStmt value, c, c', l, h, hm, hc => by
    obtain ⟨actual, ha, hc⟩ := bind_eq_ok.mp hc
    obtain ⟨-, hc⟩ := ite_error_eq_ok.mp hc
    cases hc
    obtain ⟨⟨v, l₁⟩, hl, he⟩ := h.checkExpr modulePrefix mangleThisModule value hm ha
    exact ⟨_, bind_eq_ok.mpr ⟨_, hl, rfl⟩, (h.expr hl).of_names rfl rfl, .returnStmt he⟩
  | .assignStmt name value, c, c', l, h, hm, hc => by
    rw [Checker.checkStatement] at hc
    split at hc
    · cases hc
    rename_i type hf
    obtain ⟨actual, ha, hc⟩ := bind_eq_ok.mp hc
    obtain ⟨-, hc⟩ := ite_error_eq_ok.mp hc
    cases hc
    obtain ⟨hvar, v, hv⟩ := h.variable hf
    obtain ⟨⟨v', l₁⟩, hl, he⟩ := h.checkExpr modulePrefix mangleThisModule value hm ha
    refine ⟨l₁.emit (.moveI32 v v'), ?_, (h.expr hl).of_names rfl rfl, .assignStmt hvar he⟩
    rw [mangleCallsInStatement, IRLowerer.lowerStatement, hv]
    exact bind_eq_ok.mpr ⟨_, hl, rfl⟩
  | .storeStmt pointer value, c, c', l, h, hm, hc => by
    obtain ⟨hmp, hmv⟩ := Bool.and_eq_true_iff.mp hm
    obtain ⟨pointerType, hp, hc⟩ := bind_eq_ok.mp hc
    obtain ⟨-, hc⟩ := ite_error_eq_ok.mp hc
    obtain ⟨-, hc⟩ := ite_error_eq_ok.mp hc
    obtain ⟨valueType, hv, hc⟩ := bind_eq_ok.mp hc
    obtain ⟨-, hc⟩ := ite_error_eq_ok.mp hc
    cases hc
    obtain ⟨⟨v, l₁⟩, hl, he⟩ := h.checkExpr modulePrefix mangleThisModule pointer hmp hp
    obtain ⟨⟨w, l₂⟩, hl', he'⟩ :=
      (h.expr hl).checkExpr modulePrefix mangleThisModule value hmv hv
    exact ⟨_, bind_eq_ok.mpr ⟨_, hl, bind_eq_ok.mpr ⟨_, hl', rfl⟩⟩,
      ((h.expr hl).expr hl').of_names rfl rfl, .storeStmt he hl he'⟩
  | .arrayDecl name elementType size, c, c', l, h, _, hc => by
    rw [Checker.checkStatement, ite_error_eq_ok, ite_error_eq_ok] at hc
    obtain ⟨-, hsize, hc⟩ := hc
    cases hc
    have hpos : 0 < size := Int.not_le.mp hsize
    have hlen : ((l.defineZeros size.toNat).1.length : Int) = size := by
      rw [IRLowerer.defineZeros_eq, zeroCells_length, Int.toNat_of_nonneg hpos.le]
    refine ⟨_, rfl, ?_, .arrayDecl⟩
    refine StatesAgree.arrayDecl ?_ name elementType hpos hlen
    rw [IRLowerer.defineZeros_eq, IRLowerer.addGroup_eq]
    exact h.of_names rfl rfl
  | .structVarDecl name structType, c, c', l, h, _, hc => by
    rw [Checker.checkStatement] at hc
    split at hc
    · rename_i hs
      cases hc
      obtain ⟨types, ht⟩ := Table.contains_iff.mp hs
      obtain ⟨d, hd, hunique, -, rfl, ho⟩ := h.types.struct _ _ ht
      have ho : l.structFieldOrder.find structType = some (d.fields.map Param.name) := ho
      have hl : ∃ l₁ cells, StatesAgree units program c l₁ ∧
          cells.length = (d.fields.map Param.name).length ∧
          l₁.structFieldOrder = l.structFieldOrder ∧
          l.lowerStatement (.structVarDecl name structType) = .ok { l₁ with
            structVars := l₁.structVars.insert name cells
            structVarTypes := l₁.structVarTypes.insert name structType } := by
        refine ⟨_, _, h.of_names ?_ ?_, ?_, ?_, by rw [IRLowerer.lowerStatement, ho]⟩ <;>
          rw [IRLowerer.defineZeros_eq] <;> first | rfl | exact zeroCells_length _ _
      obtain ⟨l₁, cells, h₁, hlen, ho₁, hl⟩ := hl
      exact ⟨_, hl, h₁.structVarDecl name (ho₁ ▸ ho) hlen, .structVarDecl hd hunique ht ho⟩
    · cases hc
  | .indexStore arrayName index value, c, c', l, h, hm, hc => by
    obtain ⟨hmi, hmv⟩ := Bool.and_eq_true_iff.mp hm
    rw [Checker.checkStatement] at hc
    split at hc
    · cases hc
    rename_i elementType size hf
    obtain ⟨indexType, hi, hc⟩ := bind_eq_ok.mp hc
    obtain ⟨-, hc⟩ := ite_error_eq_ok.mp hc
    obtain ⟨valueType, hv, hc⟩ := bind_eq_ok.mp hc
    obtain ⟨-, hc⟩ := ite_error_eq_ok.mp hc
    cases hc
    obtain ⟨hpos, elements, he, hlen⟩ := h.arrays _ _ _ hf
    obtain ⟨⟨v, l₁⟩, hl, ha⟩ := h.checkExpr modulePrefix mangleThisModule index hmi hi
    have h₁ : StatesAgree units program c (l₁.elementAddress elements v).2 := by
      rw [IRLowerer.elementAddress_eq]
      exact (h.expr hl).of_names rfl rfl
    obtain ⟨⟨w, l₂⟩, hl', ha'⟩ := h₁.checkExpr modulePrefix mangleThisModule value hmv hv
    refine ⟨l₂.emit (.storeI32 (l₁.elementAddress elements v).1 w), ?_,
      (h₁.expr hl').of_names rfl rfl,
      .indexStore ⟨elementType, size, hf, hpos, he, hlen⟩ ha hl ha'⟩
    rw [mangleCallsInStatement, IRLowerer.lowerStatement, he]
    exact bind_eq_ok.mpr ⟨_, hl, bind_eq_ok.mpr ⟨_, hl', rfl⟩⟩
  | .fieldStore structVarName fieldName value, c, c', l, h, hm, hc => by
    obtain ⟨fieldType, hf, hc⟩ := bind_eq_ok.mp hc
    obtain ⟨valueType, hv, hc⟩ := bind_eq_ok.mp hc
    obtain ⟨-, hc⟩ := ite_error_eq_ok.mp hc
    cases hc
    obtain ⟨structType, d, i, field, cells, ha⟩ := h.field hf
    obtain ⟨⟨v, l₁⟩, hr, -⟩ := ha.address
    have h₁ : StatesAgree units program c l₁ := by
      obtain ⟨fields, j, -, he⟩ := IRLowerer.lowerFieldAddress_lowers hr
      obtain ⟨-, he⟩ := Prod.mk.inj he
      exact he ▸ h.of_names rfl rfl
    obtain ⟨⟨w, l₂⟩, hl', ha'⟩ := h₁.checkExpr modulePrefix mangleThisModule value hm hv
    exact ⟨_, bind_eq_ok.mpr ⟨_, hr, bind_eq_ok.mpr ⟨_, hl', rfl⟩⟩,
      (h₁.expr hl').of_names rfl rfl, .fieldStore ha hr ha'⟩
  | .whileStmt condition body, c, c', l, h, hm, hc => by
    obtain ⟨hmc, hmb⟩ := Bool.and_eq_true_iff.mp hm
    obtain ⟨condType, hcond, hc⟩ := bind_eq_ok.mp hc
    obtain ⟨-, hc⟩ := ite_error_eq_ok.mp hc
    obtain ⟨loopStart, l₁, hstart⟩ : ∃ loopStart l₁, l.freshLabel ".Lloop" = (loopStart, l₁) :=
      ⟨_, _, rfl⟩
    obtain ⟨loopEnd, l₂, hend⟩ : ∃ loopEnd l₂, l₁.freshLabel ".Lloopend" = (loopEnd, l₂) :=
      ⟨_, _, rfl⟩
    have h₂ : StatesAgree units program c (l₂.emit (.labelAt loopStart)) := by
      cases hstart
      cases hend
      exact h.of_names rfl rfl
    obtain ⟨⟨v, l₃⟩, hl, he⟩ := h₂.checkExpr modulePrefix mangleThisModule condition hmc hcond
    have h₃ : StatesAgree units program c (l₃.emit (.jumpIfZero v loopEnd)) :=
      (h₂.expr hl).of_names rfl rfl
    obtain ⟨l₄, hb, h₄, hbody⟩ := StatesAgree.checkBlock body h₃ hmb hc
    refine ⟨(l₄.emit (.jump loopStart)).emit (.labelAt loopEnd), ?_, h₄.of_names rfl rfl,
      .whileStmt hstart hend he hl hbody⟩
    rw [mangleCallsInStatement, IRLowerer.lowerStatement, hstart]
    dsimp only
    rw [hend]
    exact bind_eq_ok.mpr ⟨_, hl, bind_eq_ok.mpr ⟨_, hb, rfl⟩⟩
  | .ifStmt condition thenBody elseBody, c, c', l, h, hm, hc => by
    obtain ⟨hm, hme⟩ := Bool.and_eq_true_iff.mp hm
    obtain ⟨hmc, hmt⟩ := Bool.and_eq_true_iff.mp hm
    obtain ⟨condType, hcond, hc⟩ := bind_eq_ok.mp hc
    obtain ⟨-, hc⟩ := ite_error_eq_ok.mp hc
    obtain ⟨c₁, hc₁, hc₂⟩ := bind_eq_ok.mp hc
    obtain ⟨⟨v, l₁⟩, hl, he⟩ := h.checkExpr modulePrefix mangleThisModule condition hmc hcond
    obtain ⟨elseLabel, l₂, helse⟩ : ∃ elseLabel l₂, l₁.freshLabel ".Lelse" = (elseLabel, l₂) :=
      ⟨_, _, rfl⟩
    obtain ⟨endLabel, l₃, hend⟩ : ∃ endLabel l₃, l₂.freshLabel ".Lend" = (endLabel, l₃) :=
      ⟨_, _, rfl⟩
    have h₃ : ∀ target, StatesAgree units program c (l₃.emit (.jumpIfZero v target)) := by
      cases helse
      cases hend
      exact fun target => (h.expr hl).of_names rfl rfl
    obtain ⟨l₄, hb, h₄, hthen⟩ := StatesAgree.checkBlock thenBody (h₃ (if
      (mangleCallsInBlock modulePrefix mangleThisModule elseBody).isEmpty then endLabel
      else elseLabel)) hmt hc₁
    have h₅ : StatesAgree units program c₁ ((l₄.emit (.jump endLabel)).emit (.labelAt elseLabel)) :=
      h₄.of_names rfl rfl
    obtain ⟨l₅, hb', h₆, helseBody⟩ := StatesAgree.checkBlock elseBody h₅ hme hc₂
    have hagree := StatementAgrees.ifStmt he hl helse hend hthen hc₁ hb helseBody
    have hlower := IRLowerer.lowerStatement_if hl helse hend hb hb'
    rw [← mangleCallsInStatement] at hlower
    by_cases hempty : (mangleCallsInBlock modulePrefix mangleThisModule elseBody).isEmpty = true
    · rw [if_pos hempty] at hlower
      obtain rfl : elseBody = [] := by
        cases elseBody with
        | nil => rfl
        | cons statement rest => cases hempty
      cases hc₂
      exact ⟨_, hlower, h₄.of_names rfl rfl, hagree⟩
    · rw [if_neg hempty] at hlower
      exact ⟨_, hlower, h₆.of_names rfl rfl, hagree⟩

theorem StatesAgree.checkBlock : ∀ (body : List Statement) {c c' : Checker} {l : IRLowerer},
    StatesAgree units program c l → blockOnlyMinus body = true →
      Checker.checkBlock returnType c body = .ok c' →
      ∃ l', l.lowerBlock (mangleCallsInBlock modulePrefix mangleThisModule body) = .ok l' ∧
        StatesAgree units program c' l' ∧ BlockAgrees units program returnType c l body
          (mangleCallsInBlock modulePrefix mangleThisModule body)
  | [], c, c', l, h, _, hc => by
    cases hc
    exact ⟨l, rfl, h, .nil⟩
  | statement :: body, c, c', l, h, hm, hc => by
    obtain ⟨hms, hmb⟩ := Bool.and_eq_true_iff.mp hm
    rw [Checker.checkBlock] at hc
    obtain ⟨c₁, hc₁, hc⟩ := bind_eq_ok.mp hc
    obtain ⟨l₁, hl, h₁, hs⟩ := StatesAgree.checkStatement statement h hms hc₁
    obtain ⟨l₂, hl', h₂, hb⟩ := StatesAgree.checkBlock body h₁ hmb hc
    exact ⟨l₂, bind_eq_ok.mpr ⟨l₁, hl, hl'⟩, h₂, .cons hs hc₁ hl hb⟩

end

end Agreement

/-! ## Whole programs -/

/-- The state in which the body of a function is lowered. -/
def IRLowerer.entry (function : Function) (Y : Layouts) : IRLowerer :=
  let l : IRLowerer :=
    { structFieldOrder := Y.structFieldOrder
      enumVariants := Y.enumVariants
      ir := { name := function.name, paramCount := function.params.length } }
  l.lowerParams 0 function.params

/-- A function as the checker is given it, and as the lowering is. -/
structure Passes where
  program : Program
  symbols : ModuleSymbols
  function : Function
  layouts : Layouts
  lowered : Function

/-- The function is checked and lowered, and both passes resolve its names alike. -/
structure Passes.NamesAgree (units : List ModuleUnit) (p : Passes) : Prop where
  checked : TypeChecker.checkFunction p.symbols p.function = .ok ()
  lowers : ∃ ir, IRLowerer.lower p.lowered p.layouts.structFieldOrder p.layouts.enumVariants = .ok ir
  agree : BlockAgrees units p.program p.function.returnType
    (TypeChecker.functionChecker p.symbols p.function) (IRLowerer.entry p.lowered p.layouts)
    p.function.body p.lowered.body

namespace Source

/-- The checks before the first function is lowered. -/
def typeCheck : Source → Except String Unit
  | file program => TypeChecker.check program
  | modules units => (checkModules units).map fun _ => ()

/-- The programs come from the parser. -/
def WellFormed : Source → Prop
  | file program => program.WellFormed
  | modules units => ∀ unit ∈ units, unit.program.WellFormed

/-- The modules that imports are taken from. -/
def units : Source → List ModuleUnit
  | file _ => []
  | modules units => units

/-- The functions in the order of their texts. -/
def passes : Source → List Passes
  | file program =>
    let symbols := ((TypeChecker.collectModuleSymbols program).toOption).getD {}
    program.functions.map fun function =>
      ⟨program, symbols, function, collectLayouts program, function⟩
  | modules units =>
    let t := ((indexModules 0 [] units).toOption).getD []
    units.zipIdx.flatMap fun u => u.1.program.functions.map fun function =>
      ⟨u.1.program, symbolsOf units t u.1, function,
        unitLayouts (mangleUnits units) t u.1.program.imports (collectLayouts u.1.program),
        mangleFunction u.1.name (u.2 == 0) function⟩

end Source

theorem mangleUnits_eq_zipIdx (units : List ModuleUnit) :
    mangleUnits units = units.zipIdx.map fun u => mangleUnit u.1 (u.2 == 0) := by
  refine List.ext_getElem? fun i => ?_
  rw [List.getElem?_map, List.getElem?_zipIdx]
  cases e : units[i]? with
  | none => rw [mangleUnits_getElem?_none e]; rfl
  | some unit => rw [mangleUnits_getElem? e, Nat.zero_add]; rfl

/-- What is lowered is what the driver lowers. -/
theorem Source.functions_eq_passes (source : Source) :
    source.functions = source.passes.map fun p => (p.layouts, p.lowered) := by
  cases source with
  | file program => simp [functions, passes, Function.comp_def]
  | modules units =>
    simp only [functions, passes]
    conv_lhs => arg 2; rw [mangleUnits_eq_zipIdx]
    simp [List.flatMap_map, List.map_flatMap, mangleUnit, Function.comp_def]
    rfl

theorem contains_paramVars (params : List Param) {i : Nat} {t : Table String String}
    {t' : Table String Int} (ht : ∀ name, t.contains name = true → t'.contains name = true)
    (name : String)
    (h : (params.foldl (fun t param => t.insert param.name param.type) t).contains name = true) :
    (IRLowerer.paramVars i t' params).contains name = true := by
  induction params generalizing i t t' with
  | nil => exact ht name h
  | cons param params ih =>
    refine ih (fun x hx => ?_) h
    rw [Table.contains, Table.find_insert] at hx ⊢
    split
    · rfl
    · rename_i hn
      rw [if_neg hn] at hx
      exact ht x hx

theorem entry_agrees {units : List ModuleUnit} {program : Program} {symbols : ModuleSymbols}
    {Y : Layouts} (h : TypesAgree units program symbols Y) {function function' : Function}
    (hp : function'.params = function.params) :
    StatesAgree units program (TypeChecker.functionChecker symbols function)
      (IRLowerer.entry function' Y) := by
  rw [IRLowerer.entry, IRLowerer.lowerParams_eq _ _ 0 rfl, hp]
  exact ⟨h, contains_paramVars _ fun _ h => h, fun _ _ _ h => (by cases h),
    fun _ _ h => (by cases h), fun _ _ => rfl⟩

/-- A checked function is lowered after its callees were renamed. -/
theorem namesAgree_of_checked {units : List ModuleUnit} {program : Program}
    {symbols : ModuleSymbols} {Y : Layouts} (h : TypesAgree units program symbols Y)
    {function : Function} (hm : blockOnlyMinus function.body = true)
    (hc : TypeChecker.checkFunction symbols function = .ok ()) (name modulePrefix : String)
    (mangleThisModule : Bool) :
    (Passes.mk program symbols function Y { function with
      name := name
      body := mangleCallsInBlock modulePrefix mangleThisModule function.body }).NamesAgree
      units := by
  obtain ⟨c, hbody, -⟩ := bind_eq_ok.mp hc
  have hentry : StatesAgree units program (TypeChecker.functionChecker symbols function)
      (IRLowerer.entry { function with
        name := name
        body := mangleCallsInBlock modulePrefix mangleThisModule function.body } Y) :=
    entry_agrees h rfl
  obtain ⟨l, hl, -, hb⟩ := hentry.checkBlock modulePrefix mangleThisModule _ hm hbody
  exact ⟨hc, ⟨l.ir, bind_eq_ok.mpr ⟨l, hl, rfl⟩⟩, hb⟩

section Unqualified

variable (modulePrefix : String)

mutual

/-- Callees of the entry module that have no dot keep their names. -/
theorem mangleCallsInExpr_self : ∀ (e : Expr), (∀ callee ∈ exprCalls e, '.' ∉ callee.toList) →
    mangleCallsInExpr modulePrefix false e = e
  | .call callee args, h => by
    obtain ⟨hc, ha⟩ := List.forall_mem_cons.mp h
    rw [mangleCallsInExpr, mangleCallsInArgs_self args ha, mangleCallee, if_neg hc]
    rfl
  | .binary op left right, h => by
    obtain ⟨hl, hr⟩ := List.forall_mem_append.mp h
    rw [mangleCallsInExpr, mangleCallsInExpr_self left hl, mangleCallsInExpr_self right hr]
  | .unary op operand, h => by rw [mangleCallsInExpr, mangleCallsInExpr_self operand h]
  | .deref pointer, h => by rw [mangleCallsInExpr, mangleCallsInExpr_self pointer h]
  | .index arrayName index, h => by rw [mangleCallsInExpr, mangleCallsInExpr_self index h]
  | .integer _, _ | .variable _, _ | .addressOf _, _ | .fieldAccess _ _, _ | .asm _, _ => rfl

theorem mangleCallsInArgs_self : ∀ (args : List Expr),
    (∀ callee ∈ argsCalls args, '.' ∉ callee.toList) →
      mangleCallsInArgs modulePrefix false args = args
  | [], _ => rfl
  | arg :: args, h => by
    obtain ⟨ha, hr⟩ := List.forall_mem_append.mp h
    rw [mangleCallsInArgs, mangleCallsInExpr_self arg ha, mangleCallsInArgs_self args hr]

end

mutual

theorem mangleCallsInStatement_self : ∀ (s : Statement),
    (∀ callee ∈ stmtCalls s, '.' ∉ callee.toList) →
      mangleCallsInStatement modulePrefix false s = s
  | .letStmt name type initializer, h => by
    rw [mangleCallsInStatement, mangleCallsInExpr_self modulePrefix initializer h]
  | .returnStmt value, h => by
    rw [mangleCallsInStatement, mangleCallsInExpr_self modulePrefix value h]
  | .assignStmt name value, h => by
    rw [mangleCallsInStatement, mangleCallsInExpr_self modulePrefix value h]
  | .storeStmt pointer value, h => by
    obtain ⟨hp, hv⟩ := List.forall_mem_append.mp h
    rw [mangleCallsInStatement, mangleCallsInExpr_self modulePrefix pointer hp,
      mangleCallsInExpr_self modulePrefix value hv]
  | .indexStore arrayName index value, h => by
    obtain ⟨hi, hv⟩ := List.forall_mem_append.mp h
    rw [mangleCallsInStatement, mangleCallsInExpr_self modulePrefix index hi,
      mangleCallsInExpr_self modulePrefix value hv]
  | .fieldStore structVarName fieldName value, h => by
    rw [mangleCallsInStatement, mangleCallsInExpr_self modulePrefix value h]
  | .whileStmt condition body, h => by
    obtain ⟨hc, hb⟩ := List.forall_mem_append.mp h
    rw [mangleCallsInStatement, mangleCallsInExpr_self modulePrefix condition hc,
      mangleCallsInBlock_self body hb]
  | .ifStmt condition thenBody elseBody, h => by
    obtain ⟨hc, h⟩ := List.forall_mem_append.mp h
    obtain ⟨ht, he⟩ := List.forall_mem_append.mp h
    rw [mangleCallsInStatement, mangleCallsInExpr_self modulePrefix condition hc,
      mangleCallsInBlock_self thenBody ht, mangleCallsInBlock_self elseBody he]
  | .arrayDecl _ _ _, _ | .structVarDecl _ _, _ => rfl

theorem mangleCallsInBlock_self : ∀ (body : List Statement),
    (∀ callee ∈ blockCalls body, '.' ∉ callee.toList) →
      mangleCallsInBlock modulePrefix false body = body
  | [], _ => rfl
  | statement :: body, h => by
    obtain ⟨hs, hb⟩ := List.forall_mem_append.mp h
    rw [mangleCallsInBlock, mangleCallsInStatement_self statement hs, mangleCallsInBlock_self body hb]

end

end Unqualified

theorem file_namesAgree {program : Program} (hp : program.WellFormed)
    (h : TypeChecker.check program = .ok ()) :
    ∀ p ∈ (Source.file program).passes, p.NamesAgree [] := by
  intro p hpass
  obtain ⟨function, hf, rfl⟩ := List.mem_map.mp hpass
  unfold TypeChecker.check at h
  split at h
  · cases h
  rename_i himports
  obtain ⟨symbols, hs, h⟩ := bind_eq_ok.mp h
  obtain ⟨-, h⟩ := ite_error_eq_ok.mp h
  have hc := (TypeChecker.checkFunctions_iff _).mp h function hf
  have hbody : mangleCallsInBlock "" false function.body = function.body := by
    refine mangleCallsInBlock_self "" _ fun callee hcallee => ?_
    obtain ⟨sig, hsig⟩ := checkFunction_calls hc callee hcallee
    obtain ⟨g, hg, hn, -⟩ :=
      (TypeChecker.collectModuleSymbols_spec hs).2 _ (Table.mem_of_find hsig)
    have hn : g.name = callee := hn
    exact hn ▸ (hp.functions g hg).dot_not_mem
  have hagree := namesAgree_of_checked (file_typesAgree hp himports hs) (hp.unary function hf) hc
    function.name "" false
  rw [hbody] at hagree
  rw [hs]
  exact hagree

theorem modules_namesAgree {units : List ModuleUnit} {t : Table String Nat}
    (hps : ∀ unit ∈ units, unit.program.WellFormed) (h : checkModules units = .ok t) :
    ∀ p ∈ (Source.modules units).passes, p.NamesAgree units := by
  intro p hpass
  have ht : ((indexModules 0 [] units).toOption).getD [] = t := by
    obtain ⟨t', hi, h⟩ := bind_eq_ok.mp h
    obtain ⟨_, -, h⟩ := bind_eq_ok.mp h
    obtain ⟨_, -, h⟩ := bind_eq_ok.mp h
    obtain ⟨_, -, h⟩ := bind_eq_ok.mp h
    obtain ⟨_, -, h⟩ := bind_eq_ok.mp h
    cases h
    rw [hi]
    rfl
  obtain ⟨⟨unit, i⟩, hu, hpass⟩ := List.mem_flatMap.mp hpass
  obtain ⟨function, hf, rfl⟩ := List.mem_map.mp hpass
  have hu := (List.mem_zipIdx hu).2.2 ▸ List.getElem_mem _
  have ha := checkModules_spec h
  rw [ht]
  exact namesAgree_of_checked (ha.typesAgree hps hu) ((hps unit hu).unary function hf)
    (ha.checked unit hu function hf) _ _ _

/-- `main` uses a struct and an enum of the module `shapes`, and an array. -/
def shapesModules : List ModuleUnit :=
  [⟨"main", "main.og", [⟨"shapes"⟩], [], [], [⟨"main", [], "i32",
      [.structVarDecl "p" "shapes.Point", .arrayDecl "a" "i32" 2,
        .fieldStore "p" "y" (.fieldAccess "shapes.Kind" "Round"),
        .indexStore "a" (.integer 1) (.fieldAccess "p" "y"),
        .returnStmt (.index "a" (.integer 1))]⟩]⟩,
    ⟨"shapes", "shapes.og", [], [⟨"Point", [⟨"x", "i32"⟩, ⟨"y", "i32"⟩]⟩],
      [⟨"Kind", ["Flat", "Round"]⟩], []⟩]

end Oglang
end Techuila
