import Techuila.Lib.Result
import Techuila.Oglang.Lower

/-!
# What the lowering emits

The lowering as a relation between a piece of syntax and the code that it appends, independent of
the code before it. Every fact about lowered code is an induction on this relation.

* `LowersExpr`, `LowersArgs`: an expression appends `code`, takes the addresses `taken`, and leaves
  its value in a cell; the name tables stay.
* `LowersStmt`, `LowersBlock`: a statement appends a `Fragment` and changes the scope.
* `lowerExpr_lowers`, `lowerStatement_lowers`, `lower_lowers`: the functions satisfy them.
-/

namespace Techuila
namespace Oglang

/-- The tables of a lowerer that hold for the whole program. -/
structure Layouts where
  structFieldOrder : StructLayouts
  enumVariants : EnumOrdinals

/-- The name tables of a lowerer. -/
structure Names where
  vars : Table String Int := []
  arrays : Table String (List Int) := []
  structVars : Table String (List Int) := []
  structVarTypes : Table String String := []

/-- The state of a lowerer between two statements. -/
structure Scope where
  names : Names := {}
  nextValue : Int := 0
  nextLabel : Nat := 0

/-- What a statement adds to a function. -/
structure Fragment where
  code : List IRInstruction := []
  taken : List Int := []
  groups : List (List Int) := []

namespace Fragment

def append (a b : Fragment) : Fragment :=
  ⟨a.code ++ b.code, a.taken ++ b.taken, a.groups ++ b.groups⟩

instance : Append Fragment := ⟨append⟩

theorem append_eq (a b : Fragment) :
    a ++ b = ⟨a.code ++ b.code, a.taken ++ b.taken, a.groups ++ b.groups⟩ := rfl

/-- A fragment of code only. -/
def ofCode (code : List IRInstruction) : Fragment := ⟨code, [], []⟩

end Fragment

/-- The code of `arr[index]` from `nextValue = k` on; the address is in `k + 3`. -/
def elementCode (elements : List Int) (index k : Int) : List IRInstruction :=
  [.boundsCheckI32 index elements.length, .constI32 k 8, .binary .mulI32 (k + 1) index k,
    .addressOfI32 (k + 2) (elements.headD (-1)), .ptrSubI32 (k + 3) (k + 2) (k + 1)]

/-- The code of the field with index `i` from `nextValue = k` on; the address is in `k + 2`. -/
def fieldCode (fields : List Int) (i : Nat) (k : Int) : List IRInstruction :=
  [.constI32 k (i * 8), .addressOfI32 (k + 1) (fields.headD (-1)), .ptrSubI32 (k + 2) (k + 1) k]

/-- `structVar.field` is the field with index `i` of the struct with the cells `fields`. -/
def IsField (Y : Layouts) (T : Names) (structVarName fieldName : String) (fields : List Int)
    (i : Nat) : Prop :=
  T.structVars.find structVarName = some fields ∧ ∃ structType fieldOrder,
    T.structVarTypes.find structVarName = some structType ∧
    Y.structFieldOrder.find structType = some fieldOrder ∧ fieldOrder.idxOf? fieldName = some i

mutual

/-- With `nextValue = k`, the expression appends `code`, leaves its value in `v` and ends with
`nextValue = k'`. -/
inductive LowersExpr (Y : Layouts) (T : Names) :
    Int → Expr → List IRInstruction → List Int → Int → Int → Prop
  | integer {k value} : LowersExpr Y T k (.integer value) [.constI32 k value] [] k (k + 1)
  | variable {k name v} : T.vars.find name = some v →
      LowersExpr Y T k (.variable name) [] [] v k
  | unary {k operand code taken v k'} : LowersExpr Y T k operand code taken v k' →
      LowersExpr Y T k (.unary '-' operand)
        (code ++ [.constI32 k' 0, .binary .subI32 (k' + 1) k' v]) taken (k' + 1) (k' + 1 + 1)
  | addressOf {k name v} : T.vars.find name = some v →
      LowersExpr Y T k (.addressOf name) [.addressOfI32 k v] [v] k (k + 1)
  | deref {k pointer code taken v k'} : LowersExpr Y T k pointer code taken v k' →
      LowersExpr Y T k (.deref pointer) (code ++ [.loadI32 k' v]) taken k' (k' + 1)
  | index {k arrayName index elements code taken v k'} : T.arrays.find arrayName = some elements →
      LowersExpr Y T k index code taken v k' →
      LowersExpr Y T k (.index arrayName index)
        (code ++ (elementCode elements v k' ++ [.loadI32 (k' + 4) (k' + 3)])) taken (k' + 4)
        (k' + 5)
  | enumVariant {k enumName variantName variants ordinal} :
      T.structVars.find enumName = none → Y.enumVariants.find enumName = some variants →
      variants.find variantName = some ordinal →
      LowersExpr Y T k (.fieldAccess enumName variantName) [.constI32 k ordinal] [] k (k + 1)
  | fieldAccess {k structVarName fieldName fields i} :
      IsField Y T structVarName fieldName fields i →
      LowersExpr Y T k (.fieldAccess structVarName fieldName)
        (fieldCode fields i k ++ [.loadI32 (k + 3) (k + 2)]) [] (k + 3) (k + 4)
  | asm {k templateText} :
      LowersExpr Y T k (.asm templateText) [.inlineAsmI32 k templateText] [] k (k + 1)
  | call {k callee args code taken vs k'} : LowersArgs Y T k args code taken vs k' →
      LowersExpr Y T k (.call callee args) (code ++ [.call k' callee vs]) taken k' (k' + 1)
  | binary {k op left right opcode code₁ taken₁ v₁ k₁ code₂ taken₂ v₂ k₂} :
      IRLowerer.binaryOpcode op = some opcode → LowersExpr Y T k left code₁ taken₁ v₁ k₁ →
      LowersExpr Y T k₁ right code₂ taken₂ v₂ k₂ →
      LowersExpr Y T k (.binary op left right) (code₁ ++ (code₂ ++ [.binary opcode k₂ v₁ v₂]))
        (taken₁ ++ taken₂) k₂ (k₂ + 1)

inductive LowersArgs (Y : Layouts) (T : Names) :
    Int → List Expr → List IRInstruction → List Int → List Int → Int → Prop
  | nil {k} : LowersArgs Y T k [] [] [] [] k
  | cons {k arg args code₁ taken₁ v k₁ code₂ taken₂ vs k₂} :
      LowersExpr Y T k arg code₁ taken₁ v k₁ → LowersArgs Y T k₁ args code₂ taken₂ vs k₂ →
      LowersArgs Y T k (arg :: args) (code₁ ++ code₂) (taken₁ ++ taken₂) (v :: vs) k₂

end

/-- The zero-initialised cells from `k` on. -/
def zeroCells (k : Int) (n : Nat) : List Int :=
  (List.range n).map fun i : Nat => k + i

@[simp] theorem zeroCells_length (k : Int) (n : Nat) : (zeroCells k n).length = n := by
  simp [zeroCells]

def zeroCode (k : Int) (n : Nat) : List IRInstruction :=
  (zeroCells k n).map (.constI32 · 0)

def loopLabel (n : Nat) : String := ".Lloop" ++ toString n
def loopEndLabel (n : Nat) : String := ".Lloopend" ++ toString n
def elseLabel (n : Nat) : String := ".Lelse" ++ toString n
def endLabel (n : Nat) : String := ".Lend" ++ toString n

mutual

inductive LowersStmt (Y : Layouts) : Scope → Statement → Fragment → Scope → Prop
  | letStmt {S name type initializer code taken v k} :
      LowersExpr Y S.names S.nextValue initializer code taken v k →
      LowersStmt Y S (.letStmt name type initializer) ⟨code, taken, []⟩
        ⟨{ S.names with vars := S.names.vars.insert name v }, k, S.nextLabel⟩
  | assignStmt {S name value v code taken v' k} : S.names.vars.find name = some v →
      LowersExpr Y S.names S.nextValue value code taken v' k →
      LowersStmt Y S (.assignStmt name value) ⟨code ++ [.moveI32 v v'], taken, []⟩
        { S with nextValue := k }
  | storeStmt {S pointer value code₁ taken₁ v₁ k₁ code₂ taken₂ v₂ k₂} :
      LowersExpr Y S.names S.nextValue pointer code₁ taken₁ v₁ k₁ →
      LowersExpr Y S.names k₁ value code₂ taken₂ v₂ k₂ →
      LowersStmt Y S (.storeStmt pointer value)
        ⟨code₁ ++ (code₂ ++ [.storeI32 v₁ v₂]), taken₁ ++ taken₂, []⟩ { S with nextValue := k₂ }
  | arrayDecl {S name elementType size} :
      LowersStmt Y S (.arrayDecl name elementType size)
        ⟨zeroCode S.nextValue size.toNat, [], [zeroCells S.nextValue size.toNat]⟩
        ⟨{ S.names with
            arrays := S.names.arrays.insert name (zeroCells S.nextValue size.toNat) },
          S.nextValue + size.toNat, S.nextLabel⟩
  | structVarDecl {S name structType fieldOrder} :
      Y.structFieldOrder.find structType = some fieldOrder →
      LowersStmt Y S (.structVarDecl name structType)
        ⟨zeroCode S.nextValue fieldOrder.length, [], [zeroCells S.nextValue fieldOrder.length]⟩
        ⟨{ S.names with
            structVars := S.names.structVars.insert name (zeroCells S.nextValue fieldOrder.length)
            structVarTypes := S.names.structVarTypes.insert name structType },
          S.nextValue + fieldOrder.length, S.nextLabel⟩
  | fieldStore {S structVarName fieldName value fields i code taken v k} :
      IsField Y S.names structVarName fieldName fields i →
      LowersExpr Y S.names (S.nextValue + 3) value code taken v k →
      LowersStmt Y S (.fieldStore structVarName fieldName value)
        ⟨fieldCode fields i S.nextValue ++ (code ++ [.storeI32 (S.nextValue + 2) v]), taken, []⟩
        { S with nextValue := k }
  | indexStore {S arrayName index value elements code₁ taken₁ v₁ k₁ code₂ taken₂ v₂ k₂} :
      S.names.arrays.find arrayName = some elements →
      LowersExpr Y S.names S.nextValue index code₁ taken₁ v₁ k₁ →
      LowersExpr Y S.names (k₁ + 4) value code₂ taken₂ v₂ k₂ →
      LowersStmt Y S (.indexStore arrayName index value)
        ⟨code₁ ++ (elementCode elements v₁ k₁ ++ (code₂ ++ [.storeI32 (k₁ + 3) v₂])),
          taken₁ ++ taken₂, []⟩ { S with nextValue := k₂ }
  | whileStmt {S condition body code taken v k B S'} :
      LowersExpr Y S.names S.nextValue condition code taken v k →
      LowersBlock Y ⟨S.names, k, S.nextLabel + 2⟩ body B S' →
      LowersStmt Y S (.whileStmt condition body)
        ⟨.labelAt (loopLabel S.nextLabel) ::
            (code ++ (.jumpIfZero v (loopEndLabel (S.nextLabel + 1)) ::
              (B.code ++ [.jump (loopLabel S.nextLabel),
                .labelAt (loopEndLabel (S.nextLabel + 1))]))),
          taken ++ B.taken, B.groups⟩ S'
  | returnStmt {S value code taken v k} :
      LowersExpr Y S.names S.nextValue value code taken v k →
      LowersStmt Y S (.returnStmt value) ⟨code ++ [.returnI32 v], taken, []⟩
        { S with nextValue := k }
  | ifThen {S condition thenBody code taken v k B S'} :
      LowersExpr Y S.names S.nextValue condition code taken v k →
      LowersBlock Y ⟨S.names, k, S.nextLabel + 2⟩ thenBody B S' →
      LowersStmt Y S (.ifStmt condition thenBody [])
        ⟨code ++ (.jumpIfZero v (endLabel (S.nextLabel + 1)) ::
            (B.code ++ [.labelAt (endLabel (S.nextLabel + 1))])),
          taken ++ B.taken, B.groups⟩ S'
  | ifElse {S condition thenBody elseBody code taken v k B S' B' S''} :
      elseBody ≠ [] →
      LowersExpr Y S.names S.nextValue condition code taken v k →
      LowersBlock Y ⟨S.names, k, S.nextLabel + 2⟩ thenBody B S' →
      LowersBlock Y S' elseBody B' S'' →
      LowersStmt Y S (.ifStmt condition thenBody elseBody)
        ⟨code ++ (.jumpIfZero v (elseLabel S.nextLabel) ::
            (B.code ++ (.jump (endLabel (S.nextLabel + 1)) ::
              .labelAt (elseLabel S.nextLabel) ::
                (B'.code ++ [.labelAt (endLabel (S.nextLabel + 1))])))),
          taken ++ (B.taken ++ B'.taken), B.groups ++ B'.groups⟩ S''

inductive LowersBlock (Y : Layouts) : Scope → List Statement → Fragment → Scope → Prop
  | nil {S} : LowersBlock Y S [] {} S
  | cons {S statement body A S' B S''} : LowersStmt Y S statement A S' →
      LowersBlock Y S' body B S'' → LowersBlock Y S (statement :: body) (A ++ B) S''

end

/-! ## Expressions are straight-line code -/

theorem binaryOpcode_isBinary {op : Char} {opcode : OpCode}
    (h : IRLowerer.binaryOpcode op = some opcode) : opcode.isBinary = true := by
  unfold IRLowerer.binaryOpcode at h
  split at h <;> cases h <;> rfl

/-- No instruction of the code transfers control. -/
def Straight (code : List IRInstruction) : Prop := ∀ inst ∈ code, inst.opcode.isControl = false

namespace Straight

@[simp] theorem nil : Straight [] := fun _ h => absurd h List.not_mem_nil

@[simp] theorem cons_iff {inst : IRInstruction} {code : List IRInstruction} :
    Straight (inst :: code) ↔ inst.opcode.isControl = false ∧ Straight code :=
  List.forall_mem_cons

@[simp] theorem append_iff {a b : List IRInstruction} :
    Straight (a ++ b) ↔ Straight a ∧ Straight b := List.forall_mem_append

end Straight

theorem elementCode_straight (elements : List Int) (index k : Int) :
    Straight (elementCode elements index k) := by
  simp [elementCode, IRInstruction.boundsCheckI32, IRInstruction.constI32, IRInstruction.binary,
    IRInstruction.addressOfI32, IRInstruction.ptrSubI32, OpCode.isControl]

theorem fieldCode_straight (fields : List Int) (i : Nat) (k : Int) :
    Straight (fieldCode fields i k) := by
  simp [fieldCode, IRInstruction.constI32, IRInstruction.addressOfI32, IRInstruction.ptrSubI32,
    OpCode.isControl]

mutual

theorem LowersExpr.straight {Y : Layouts} {T : Names} {k : Int} {e : Expr}
    {code : List IRInstruction} {taken : List Int} {v k' : Int} :
    LowersExpr Y T k e code taken v k' → Straight code
  | .integer => by simp [IRInstruction.constI32, OpCode.isControl]
  | .variable _ => .nil
  | .unary h => by
    simp [h.straight, IRInstruction.constI32, IRInstruction.binary, OpCode.isControl]
  | .addressOf _ => by simp [IRInstruction.addressOfI32, OpCode.isControl]
  | .deref h => by simp [h.straight, IRInstruction.loadI32, OpCode.isControl]
  | .index _ h => by
    simp [h.straight, elementCode_straight, IRInstruction.loadI32, OpCode.isControl]
  | .enumVariant _ _ _ => by simp [IRInstruction.constI32, OpCode.isControl]
  | .fieldAccess _ => by simp [fieldCode_straight, IRInstruction.loadI32, OpCode.isControl]
  | .asm => by simp [IRInstruction.inlineAsmI32, OpCode.isControl]
  | .call h => by simp [h.straight, IRInstruction.call, OpCode.isControl]
  | .binary hop h₁ h₂ => by
    simp [h₁.straight, h₂.straight, IRInstruction.binary,
      OpCode.isControl_of_isBinary (binaryOpcode_isBinary hop)]

theorem LowersArgs.straight {Y : Layouts} {T : Names} {k : Int} {args : List Expr}
    {code : List IRInstruction} {taken vs : List Int} {k' : Int} :
    LowersArgs Y T k args code taken vs k' → Straight code
  | .nil => .nil
  | .cons h₁ h₂ => by simp [h₁.straight, h₂.straight]

end

theorem zeroCode_straight (k : Int) (n : Nat) : Straight (zeroCode k n) := by
  intro inst h
  obtain ⟨v, -, rfl⟩ := List.mem_map.mp h
  rfl

/-! ## The functions emit it -/

namespace IRLowerer

def layouts (l : IRLowerer) : Layouts := ⟨l.structFieldOrder, l.enumVariants⟩

def scope (l : IRLowerer) : Scope :=
  ⟨⟨l.vars, l.arrays, l.structVars, l.structVarTypes⟩, l.nextValue, l.nextLabel⟩

/-- The lowerer after the fragment `A`, with the scope `S`. -/
def extend (l : IRLowerer) (A : Fragment) (S : Scope) : IRLowerer :=
  { l with
    nextValue := S.nextValue
    nextLabel := S.nextLabel
    vars := S.names.vars
    arrays := S.names.arrays
    structVars := S.names.structVars
    structVarTypes := S.names.structVarTypes
    ir := { l.ir with
      instructions := l.ir.instructions ++ A.code
      addressTakenValues := l.ir.addressTakenValues ++ A.taken
      arrayGroups := l.ir.arrayGroups ++ A.groups } }

@[simp] theorem extend_scope (l : IRLowerer) (A : Fragment) (S : Scope) :
    (l.extend A S).scope = S := rfl

@[simp] theorem extend_layouts (l : IRLowerer) (A : Fragment) (S : Scope) :
    (l.extend A S).layouts = l.layouts := rfl

@[simp] theorem extend_extend (l : IRLowerer) (A B : Fragment) (S S' : Scope) :
    (l.extend A S).extend B S' = l.extend (A ++ B) S' := by
  simp [extend, Fragment.append_eq]

@[simp] theorem extend_self (l : IRLowerer) : l.extend {} l.scope = l := by
  cases l
  simp [extend, scope]

theorem emit_eq (l : IRLowerer) (inst : IRInstruction) :
    l.emit inst = l.extend ⟨[inst], [], []⟩ l.scope := by
  cases l
  simp [emit, extend, scope]

theorem define_eq (l : IRLowerer) (inst : Int → IRInstruction) :
    l.define inst = (l.scope.nextValue, l.extend ⟨[inst l.scope.nextValue], [], []⟩
      { l.scope with nextValue := l.scope.nextValue + 1 }) := by
  cases l
  simp [define, emit, extend, scope]

theorem elementAddress_eq (l : IRLowerer) (elements : List Int) (index : Int) :
    l.elementAddress elements index = (l.scope.nextValue + 3,
      l.extend ⟨elementCode elements index l.scope.nextValue, [], []⟩
        { l.scope with nextValue := l.scope.nextValue + 4 }) := by
  cases l
  simp [elementAddress, define, emit, extend, scope, elementCode, Int.add_assoc]

theorem lowerFieldAddress_lowers {l : IRLowerer} {structVarName fieldName : String}
    {r : Int × IRLowerer} (h : l.lowerFieldAddress structVarName fieldName = .ok r) :
    ∃ fields i, IsField l.layouts l.scope.names structVarName fieldName fields i ∧
      r = (l.scope.nextValue + 2, l.extend ⟨fieldCode fields i l.scope.nextValue, [], []⟩
        { l.scope with nextValue := l.scope.nextValue + 3 }) := by
  unfold lowerFieldAddress at h
  split at h
  · cases h
  rename_i fields hf
  split at h
  · cases h
  rename_i structType ht
  split at h
  · cases h
  rename_i fieldOrder ho
  split at h
  · cases h
  rename_i i hi
  refine ⟨fields, i, ⟨hf, structType, fieldOrder, ht, ho, hi⟩, ?_⟩
  rw [← Except.ok.inj h]
  cases l
  simp [define, emit, extend, scope, fieldCode, Int.add_assoc]

mutual

theorem lowerExpr_lowers : ∀ (e : Expr) {l : IRLowerer} {r : Int × IRLowerer},
    l.lowerExpr e = .ok r → ∃ code taken k,
      LowersExpr l.layouts l.scope.names l.scope.nextValue e code taken r.1 k ∧
      r.2 = l.extend ⟨code, taken, []⟩ { l.scope with nextValue := k }
  | .integer value, l, r, h => by
    rw [lowerExpr, define_eq] at h
    cases h
    exact ⟨_, _, _, .integer, rfl⟩
  | .variable name, l, r, h => by
    rw [lowerExpr] at h
    split at h
    · cases h
    · rename_i w hw
      cases h
      exact ⟨_, _, _, .variable hw, (extend_self l).symm⟩
  | .unary op operand, l, r, h => by
    rw [lowerExpr, ite_error_eq_ok, not_not] at h
    obtain ⟨rfl, h⟩ := h
    obtain ⟨⟨v, l₁⟩, h₁, h⟩ := bind_eq_ok.mp h
    obtain ⟨code, taken, k, hl, rfl⟩ := lowerExpr_lowers operand h₁
    simp only [define_eq, extend_scope, extend_extend] at h
    cases h
    exact ⟨_, _, _, .unary hl, by simp [Fragment.append_eq]⟩
  | .addressOf name, l, r, h => by
    rw [lowerExpr] at h
    split at h
    · cases h
    · rename_i w hw
      cases h
      refine ⟨_, _, _, .addressOf hw, ?_⟩
      cases l
      simp [define, emit, extend, scope]
  | .deref pointer, l, r, h => by
    rw [lowerExpr] at h
    obtain ⟨⟨w, l₁⟩, h₁, h⟩ := bind_eq_ok.mp h
    obtain ⟨code, taken, k, hl, rfl⟩ := lowerExpr_lowers pointer h₁
    simp only [define_eq, extend_scope, extend_extend] at h
    cases h
    exact ⟨_, _, _, .deref hl, by simp [Fragment.append_eq]⟩
  | .index arrayName index, l, r, h => by
    rw [lowerExpr] at h
    split at h
    · cases h
    rename_i elements ha
    obtain ⟨⟨v, l₁⟩, h₁, h⟩ := bind_eq_ok.mp h
    obtain ⟨code, taken, k, hl, rfl⟩ := lowerExpr_lowers index h₁
    simp only [elementAddress_eq, define_eq, extend_scope, extend_extend] at h
    cases h
    refine ⟨_, _, _, .index ha hl, ?_⟩
    simp [Fragment.append_eq, Int.add_assoc]
  | .fieldAccess structVarName fieldName, l, r, h => by
    rw [lowerExpr] at h
    split at h
    · rename_i variants hs hv
      split at h
      · cases h
      · rename_i ordinal ho
        rw [define_eq] at h
        cases h
        exact ⟨_, _, _, .enumVariant (Table.not_contains_iff.mp hs) hv ho, rfl⟩
    · obtain ⟨⟨w, l₁⟩, h₁, h⟩ := bind_eq_ok.mp h
      obtain ⟨fields, i, hf, e⟩ := lowerFieldAddress_lowers h₁
      cases e
      simp only [define_eq, extend_scope, extend_extend] at h
      cases h
      refine ⟨_, _, _, .fieldAccess hf, ?_⟩
      simp [Fragment.append_eq, Int.add_assoc]
  | .asm templateText, l, r, h => by
    rw [lowerExpr, define_eq] at h
    cases h
    exact ⟨_, _, _, .asm, rfl⟩
  | .call callee args, l, r, h => by
    rw [lowerExpr] at h
    obtain ⟨⟨vs, l₁⟩, h₁, h⟩ := bind_eq_ok.mp h
    obtain ⟨code, taken, k, hl, rfl⟩ := lowerArgs_lowers args h₁
    simp only [define_eq, extend_scope, extend_extend] at h
    cases h
    exact ⟨_, _, _, .call hl, by simp [Fragment.append_eq]⟩
  | .binary op left right, l, r, h => by
    rw [lowerExpr] at h
    obtain ⟨⟨v₁, l₁⟩, h₁, h⟩ := bind_eq_ok.mp h
    obtain ⟨code₁, taken₁, k₁, hl₁, rfl⟩ := lowerExpr_lowers left h₁
    obtain ⟨⟨v₂, l₂⟩, h₂, h⟩ := bind_eq_ok.mp h
    obtain ⟨code₂, taken₂, k₂, hl₂, rfl⟩ := lowerExpr_lowers right h₂
    cases hop : binaryOpcode op with
    | none => simp [hop] at h
    | some opcode =>
      simp only [hop, define_eq, extend_scope, extend_extend] at h
      cases h
      exact ⟨_, _, _, .binary hop hl₁ hl₂, by simp [Fragment.append_eq]⟩

theorem lowerArgs_lowers : ∀ (args : List Expr) {l : IRLowerer} {r : List Int × IRLowerer},
    l.lowerArgs args = .ok r → ∃ code taken k,
      LowersArgs l.layouts l.scope.names l.scope.nextValue args code taken r.1 k ∧
      r.2 = l.extend ⟨code, taken, []⟩ { l.scope with nextValue := k }
  | [], l, r, h => by
    rw [lowerArgs] at h
    cases h
    exact ⟨_, _, _, .nil, (extend_self l).symm⟩
  | arg :: args, l, r, h => by
    rw [lowerArgs] at h
    obtain ⟨⟨v₁, l₁⟩, h₁, h⟩ := bind_eq_ok.mp h
    obtain ⟨code₁, taken₁, k₁, hl₁, rfl⟩ := lowerExpr_lowers arg h₁
    obtain ⟨⟨vs, l₂⟩, h₂, h⟩ := bind_eq_ok.mp h
    obtain ⟨code₂, taken₂, k₂, hl₂, rfl⟩ := lowerArgs_lowers args h₂
    cases h
    exact ⟨_, _, _, .cons hl₁ hl₂, by simp [Fragment.append_eq]⟩

end

theorem zeroCells_succ (k : Int) (n : Nat) :
    zeroCells k (n + 1) = k :: zeroCells (k + 1) n := by
  have h : ∀ i : Nat, k + ((i : Int) + 1) = k + 1 + i := fun i => by omega
  simp [zeroCells, List.range_succ_eq_map, Function.comp_def, h]

theorem defineZeros_eq (n : Nat) (l : IRLowerer) :
    l.defineZeros n = (zeroCells l.scope.nextValue n,
      l.extend ⟨zeroCode l.scope.nextValue n, [], []⟩
        { l.scope with nextValue := l.scope.nextValue + n }) := by
  induction n generalizing l with
  | zero =>
    have e : { l.scope with nextValue := l.scope.nextValue + (0 : Nat) } = l.scope := by simp
    rw [e]
    exact congrArg (Prod.mk []) (extend_self l).symm
  | succ n ih =>
    have hk : l.scope.nextValue + 1 + (n : Int) = l.scope.nextValue + (n + 1 : Nat) := by omega
    simp only [defineZeros, define_eq, ih, extend_scope, extend_extend, zeroCode, zeroCells_succ,
      hk, List.map_cons, Fragment.append_eq, List.singleton_append, List.append_nil]

theorem addGroup_eq (l : IRLowerer) (group : List Int) :
    l.addGroup group = l.extend ⟨[], [], [group]⟩ l.scope := by
  cases l
  simp [addGroup, extend, scope]

theorem freshLabel_eq (l : IRLowerer) (pre : String) :
    l.freshLabel pre = (pre ++ toString l.scope.nextLabel,
      l.extend {} { l.scope with nextLabel := l.scope.nextLabel + 1 }) := by
  cases l
  simp [freshLabel, extend, scope]

mutual

theorem lowerStatement_lowers : ∀ (statement : Statement) {l l' : IRLowerer},
    l.lowerStatement statement = .ok l' → ∃ A S,
      LowersStmt l.layouts l.scope statement A S ∧ l' = l.extend A S
  | .letStmt name type initializer, l, l', h => by
    rw [lowerStatement] at h
    obtain ⟨⟨v, l₁⟩, h₁, h⟩ := bind_eq_ok.mp h
    obtain ⟨code, taken, k, hl, rfl⟩ := lowerExpr_lowers initializer h₁
    cases h
    exact ⟨_, _, .letStmt hl, rfl⟩
  | .returnStmt value, l, l', h => by
    rw [lowerStatement] at h
    obtain ⟨⟨v, l₁⟩, h₁, h⟩ := bind_eq_ok.mp h
    obtain ⟨code, taken, k, hl, rfl⟩ := lowerExpr_lowers value h₁
    simp only [emit_eq, extend_scope, extend_extend] at h
    cases h
    exact ⟨_, _, .returnStmt hl, by simp [Fragment.append_eq]⟩
  | .assignStmt name value, l, l', h => by
    rw [lowerStatement] at h
    split at h
    · cases h
    rename_i v hv
    obtain ⟨⟨v', l₁⟩, h₁, h⟩ := bind_eq_ok.mp h
    obtain ⟨code, taken, k, hl, rfl⟩ := lowerExpr_lowers value h₁
    simp only [emit_eq, extend_scope, extend_extend] at h
    cases h
    exact ⟨_, _, .assignStmt hv hl, by simp [Fragment.append_eq]⟩
  | .storeStmt pointer value, l, l', h => by
    rw [lowerStatement] at h
    obtain ⟨⟨v₁, l₁⟩, h₁, h⟩ := bind_eq_ok.mp h
    obtain ⟨code₁, taken₁, k₁, hl₁, rfl⟩ := lowerExpr_lowers pointer h₁
    obtain ⟨⟨v₂, l₂⟩, h₂, h⟩ := bind_eq_ok.mp h
    obtain ⟨code₂, taken₂, k₂, hl₂, rfl⟩ := lowerExpr_lowers value h₂
    simp only [emit_eq, extend_scope, extend_extend] at h
    cases h
    exact ⟨_, _, .storeStmt hl₁ hl₂, by simp [Fragment.append_eq]⟩
  | .arrayDecl name elementType size, l, l', h => by
    rw [lowerStatement] at h
    simp only [defineZeros_eq, addGroup_eq, extend_scope, extend_extend] at h
    cases h
    exact ⟨_, _, .arrayDecl, by simp [Fragment.append_eq, extend, scope]⟩
  | .structVarDecl name structType, l, l', h => by
    rw [lowerStatement] at h
    split at h
    · cases h
    rename_i fieldOrder ho
    simp only [defineZeros_eq, addGroup_eq, extend_scope, extend_extend] at h
    cases h
    exact ⟨_, _, .structVarDecl ho, by simp [Fragment.append_eq, extend, scope]⟩
  | .fieldStore structVarName fieldName value, l, l', h => by
    rw [lowerStatement] at h
    obtain ⟨⟨w, l₁⟩, h₁, h⟩ := bind_eq_ok.mp h
    obtain ⟨fields, i, hf, e⟩ := lowerFieldAddress_lowers h₁
    cases e
    obtain ⟨⟨v, l₂⟩, h₂, h⟩ := bind_eq_ok.mp h
    obtain ⟨code, taken, k, hl, rfl⟩ := lowerExpr_lowers value h₂
    simp only [emit_eq, extend_scope, extend_extend] at h
    cases h
    exact ⟨_, _, .fieldStore hf hl, by simp [Fragment.append_eq]⟩
  | .indexStore arrayName index value, l, l', h => by
    rw [lowerStatement] at h
    split at h
    · cases h
    rename_i elements ha
    obtain ⟨⟨v₁, l₁⟩, h₁, h⟩ := bind_eq_ok.mp h
    obtain ⟨code₁, taken₁, k₁, hl₁, rfl⟩ := lowerExpr_lowers index h₁
    simp only [elementAddress_eq, extend_scope, extend_extend] at h
    obtain ⟨⟨v₂, l₂⟩, h₂, h⟩ := bind_eq_ok.mp h
    obtain ⟨code₂, taken₂, k₂, hl₂, rfl⟩ := lowerExpr_lowers value h₂
    simp only [emit_eq, extend_scope, extend_extend] at h
    cases h
    exact ⟨_, _, .indexStore ha hl₁ hl₂, by simp [Fragment.append_eq]⟩
  | .whileStmt condition body, l, l', h => by
    rw [lowerStatement] at h
    simp only [freshLabel_eq, emit_eq, extend_scope, extend_extend] at h
    obtain ⟨⟨v, l₁⟩, h₁, h⟩ := bind_eq_ok.mp h
    obtain ⟨code, taken, k, hl, rfl⟩ := lowerExpr_lowers condition h₁
    simp only [extend_scope, extend_extend] at h
    obtain ⟨l₂, h₂, h⟩ := bind_eq_ok.mp h
    obtain ⟨B, S', hb, rfl⟩ := lowerBlock_lowers body h₂
    simp only [extend_scope, extend_extend] at h
    cases h
    exact ⟨_, _, .whileStmt hl hb, by simp [Fragment.append_eq, loopLabel, loopEndLabel]⟩
  | .ifStmt condition thenBody elseBody, l, l', h => by
    rw [lowerStatement] at h
    obtain ⟨⟨v, l₁⟩, h₁, h⟩ := bind_eq_ok.mp h
    obtain ⟨code, taken, k, hl, rfl⟩ := lowerExpr_lowers condition h₁
    simp only [freshLabel_eq, emit_eq, extend_scope, extend_extend] at h
    obtain ⟨l₂, h₂, h⟩ := bind_eq_ok.mp h
    obtain ⟨B, S', hb, rfl⟩ := lowerBlock_lowers thenBody h₂
    simp only [extend_scope, extend_extend] at h
    by_cases he : elseBody.isEmpty = true
    · simp only [he, if_true] at h
      cases h
      obtain rfl := List.isEmpty_iff.mp he
      exact ⟨_, _, .ifThen hl hb, by simp [Fragment.append_eq, endLabel]⟩
    · simp only [he, if_false, Bool.false_eq_true] at h
      obtain ⟨l₃, h₃, h⟩ := bind_eq_ok.mp h
      obtain ⟨B', S'', hb', rfl⟩ := lowerBlock_lowers elseBody h₃
      simp only [extend_scope, extend_extend] at h
      cases h
      exact ⟨_, _, .ifElse (fun e => he (List.isEmpty_iff.mpr e)) hl hb hb', by
        simp [Fragment.append_eq, endLabel, elseLabel]⟩

theorem lowerBlock_lowers : ∀ (body : List Statement) {l l' : IRLowerer},
    l.lowerBlock body = .ok l' → ∃ A S,
      LowersBlock l.layouts l.scope body A S ∧ l' = l.extend A S
  | [], l, l', h => by
    rw [lowerBlock] at h
    cases h
    exact ⟨_, _, .nil, (extend_self l).symm⟩
  | statement :: body, l, l', h => by
    rw [lowerBlock] at h
    obtain ⟨l₁, h₁, h⟩ := bind_eq_ok.mp h
    obtain ⟨A, S, hs, rfl⟩ := lowerStatement_lowers statement h₁
    obtain ⟨B, S', hb, rfl⟩ := lowerBlock_lowers body h
    exact ⟨_, _, .cons hs hb, by simp⟩

end

/-- The variables after the parameters from index `i` on. -/
def paramVars (i : Nat) (t : Table String Int) : List Param → Table String Int
  | [] => t
  | param :: params => paramVars (i + 1) (t.insert param.name i) params

/-- The code of `n` parameters from index `i` on. -/
def paramCode (i n : Nat) : List IRInstruction :=
  (List.range' i n).map fun j : Nat => .paramI32 j j

theorem lowerParams_eq (params : List Param) (l : IRLowerer) (i : Nat)
    (hi : l.scope.nextValue = i) :
    l.lowerParams i params = l.extend (.ofCode (paramCode i params.length))
      ⟨{ l.scope.names with vars := paramVars i l.scope.names.vars params },
        (i + params.length : Nat), l.scope.nextLabel⟩ := by
  induction params generalizing l i with
  | nil =>
    have e : (⟨l.scope.names, (i : Nat), l.scope.nextLabel⟩ : Scope) = l.scope := by rw [← hi]
    exact ((congrArg (l.extend {}) e).trans (extend_self l)).symm
  | cons param params ih =>
    have hk : l.nextValue = i := hi
    have hn : i + 1 + params.length = i + (params.length + 1) := by omega
    rw [lowerParams, define_eq]
    dsimp only
    rw [ih _ (i + 1) (by simp [extend, scope, hk])]
    simp only [extend, scope, paramVars, paramCode, Fragment.ofCode, List.length_cons, hk,
      List.range'_succ, List.map_cons, List.append_assoc, List.singleton_append, List.append_nil, hn]

/-- The scope of the body of a function. -/
def bodyScope (params : List Param) : Scope :=
  ⟨{ vars := paramVars 0 [] params }, params.length, 0⟩

theorem lower_lowers {function : Function} {Y : Layouts} {ir : IRFunction}
    (h : lower function Y.structFieldOrder Y.enumVariants = .ok ir) :
    ∃ A S, LowersBlock Y (bodyScope function.params) function.body A S ∧
      ir = ⟨function.name, function.params.length,
        paramCode 0 function.params.length ++ A.code, A.taken, A.groups⟩ := by
  obtain ⟨l, hl, e⟩ := bind_eq_ok.mp h
  cases e
  rw [lowerParams_eq _ _ 0 rfl] at hl
  obtain ⟨A, S, hb, rfl⟩ := lowerBlock_lowers _ hl
  refine ⟨A, S, ?_, by simp [extend, Fragment.ofCode]⟩
  rw [extend_scope, extend_layouts, Nat.zero_add] at hb
  exact hb

end IRLowerer

end Oglang
end Techuila
