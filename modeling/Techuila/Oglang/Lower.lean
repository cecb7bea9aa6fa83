import Techuila.Lib.Table
import Techuila.Oglang.Ast
import Techuila.Oglang.Ir

/-!
# Lowering to the intermediate representation (`ir/lower.cpp`)

The lowerer with the function that it builds (`ir`) as its state. An error is the text of the
exception.
-/

namespace Techuila
namespace Oglang

/-- Field names of each struct, in declaration order. -/
abbrev StructLayouts := Table String (List String)
/-- Ordinals of each enum's variants. -/
abbrev EnumOrdinals := Table String (Table String Int)

structure IRLowerer where
  nextValue : Int := 0
  nextLabel : Nat := 0
  vars : Table String Int := []
  arrays : Table String (List Int) := []
  structFieldOrder : StructLayouts
  enumVariants : EnumOrdinals
  structVars : Table String (List Int) := []
  structVarTypes : Table String String := []
  ir : IRFunction

namespace IRLowerer

/-- The text of the exception of `unordered_map::at`. -/
def outOfRange : String := "_Map_base::at"

def emit (l : IRLowerer) (inst : IRInstruction) : IRLowerer :=
  { l with ir := { l.ir with instructions := l.ir.instructions ++ [inst] } }

/-- `nextValue++`, and the instruction that defines the new value. -/
def define (l : IRLowerer) (inst : Int → IRInstruction) : Int × IRLowerer :=
  (l.nextValue, { l with nextValue := l.nextValue + 1 }.emit (inst l.nextValue))

def freshLabel (l : IRLowerer) (pre : String) : String × IRLowerer :=
  (pre ++ toString l.nextLabel, { l with nextLabel := l.nextLabel + 1 })

/-- `n` zero-initialised values. -/
def defineZeros (l : IRLowerer) : Nat → List Int × IRLowerer
  | 0 => ([], l)
  | n + 1 =>
    let (v, l) := l.define (.constI32 · 0)
    let (vs, l) := l.defineZeros n
    (v :: vs, l)

def addGroup (l : IRLowerer) (group : List Int) : IRLowerer :=
  { l with ir := { l.ir with arrayGroups := l.ir.arrayGroups ++ [group] } }

/-- The address arithmetic of `arr[index]`, after the index was lowered to `index`. -/
def elementAddress (l : IRLowerer) (elements : List Int) (index : Int) :
    Int × IRLowerer :=
  let l := l.emit (.boundsCheckI32 index elements.length)
  let (eight, l) := l.define (.constI32 · 8)
  let (byteOffset, l) := l.define (.binary .mulI32 · index eight)
  let (baseAddress, l) := l.define (.addressOfI32 · (elements.headD (-1)))
  l.define (.ptrSubI32 · baseAddress byteOffset)

def lowerFieldAddress (l : IRLowerer) (structVarName fieldName : String) :
    Except String (Int × IRLowerer) :=
  match l.structVars.find structVarName with
  | none => .error ("Unknown struct variable: " ++ structVarName)
  | some fields =>
    match l.structVarTypes.find structVarName with
    | none => .error outOfRange
    | some structType =>
      match l.structFieldOrder.find structType with
      | none => .error outOfRange
      | some fieldOrder =>
        match fieldOrder.idxOf? fieldName with
        | none => .error ("Struct '" ++ structType ++ "' has no field named: " ++ fieldName)
        | some fieldIndex =>
          let (byteOffset, l) := l.define (.constI32 · (fieldIndex * 8))
          let (baseAddress, l) := l.define (.addressOfI32 · (fields.headD (-1)))
          .ok (l.define (.ptrSubI32 · baseAddress byteOffset))

/-- The opcode of a binary operator. -/
def binaryOpcode : Char → Option OpCode
  | '+' => some .addI32
  | '-' => some .subI32
  | '*' => some .mulI32
  | '/' => some .divI32
  | '=' => some .cmpEqI32
  | '!' => some .cmpNeI32
  | '>' => some .cmpGtI32
  | '<' => some .cmpLtI32
  | 'G' => some .cmpGeI32
  | 'L' => some .cmpLeI32
  | _ => none

mutual

def lowerExpr (l : IRLowerer) : Expr → Except String (Int × IRLowerer)
  | .integer value => .ok (l.define (.constI32 · value))
  | .variable name =>
    match l.vars.find name with
    | none => .error ("Unknown variable: " ++ name)
    | some v => .ok (v, l)
  | .unary op operand =>
    if op ≠ '-' then .error "Unsupported unary operator"
    else do
      let (operand, l) ← l.lowerExpr operand
      let (zero, l) := l.define (.constI32 · 0)
      .ok (l.define (.binary .subI32 · zero operand))
  | .addressOf name =>
    match l.vars.find name with
    | none => .error ("Cannot take the address of unknown variable: " ++ name)
    | some v =>
      let l := { l with ir := { l.ir with
        addressTakenValues := l.ir.addressTakenValues ++ [v] } }
      .ok (l.define (.addressOfI32 · v))
  | .deref pointer => do
    let (pointer, l) ← l.lowerExpr pointer
    .ok (l.define (.loadI32 · pointer))
  | .index arrayName index =>
    match l.arrays.find arrayName with
    | none => .error ("Indexing unknown array: " ++ arrayName)
    | some elements => do
      let (index, l) ← l.lowerExpr index
      let (address, l) := l.elementAddress elements index
      .ok (l.define (.loadI32 · address))
  | .fieldAccess structVarName fieldName =>
    match l.structVars.contains structVarName, l.enumVariants.find structVarName with
    | false, some variants =>
      match variants.find fieldName with
      | none => .error outOfRange
      | some ordinal => .ok (l.define (.constI32 · ordinal))
    | _, _ => do
      let (address, l) ← l.lowerFieldAddress structVarName fieldName
      .ok (l.define (.loadI32 · address))
  | .asm templateText => .ok (l.define (.inlineAsmI32 · templateText))
  | .call callee args => do
    let (argValues, l) ← l.lowerArgs args
    .ok (l.define (.call · callee argValues))
  | .binary op left right => do
    let (left, l) ← l.lowerExpr left
    let (right, l) ← l.lowerExpr right
    match binaryOpcode op with
    | none => .error "Unsupported binary operator"
    | some opcode => .ok (l.define (.binary opcode · left right))

def lowerArgs (l : IRLowerer) : List Expr → Except String (List Int × IRLowerer)
  | [] => .ok ([], l)
  | arg :: args => do
    let (v, l) ← l.lowerExpr arg
    let (vs, l) ← l.lowerArgs args
    .ok (v :: vs, l)

end

mutual

def lowerStatement (l : IRLowerer) : Statement → Except String IRLowerer
  | .letStmt name _ initializer => do
    let (value, l) ← l.lowerExpr initializer
    .ok { l with vars := l.vars.insert name value }
  | .assignStmt name value =>
    match l.vars.find name with
    | none => .error ("Assignment to unknown variable: " ++ name)
    | some v => do
      let (newValue, l) ← l.lowerExpr value
      .ok (l.emit (.moveI32 v newValue))
  | .storeStmt pointer value => do
    let (pointer, l) ← l.lowerExpr pointer
    let (value, l) ← l.lowerExpr value
    .ok (l.emit (.storeI32 pointer value))
  | .arrayDecl name _ size =>
    let (elements, l) := l.defineZeros size.toNat
    let l := l.addGroup elements
    .ok { l with arrays := l.arrays.insert name elements }
  | .structVarDecl name structType =>
    match l.structFieldOrder.find structType with
    | none => .error outOfRange
    | some fieldOrder =>
      let (fields, l) := l.defineZeros fieldOrder.length
      let l := l.addGroup fields
      .ok { l with
        structVars := l.structVars.insert name fields
        structVarTypes := l.structVarTypes.insert name structType }
  | .fieldStore structVarName fieldName value => do
    let (address, l) ← l.lowerFieldAddress structVarName fieldName
    let (value, l) ← l.lowerExpr value
    .ok (l.emit (.storeI32 address value))
  | .indexStore arrayName index value =>
    match l.arrays.find arrayName with
    | none => .error ("Indexing unknown array: " ++ arrayName)
    | some elements => do
      let (index, l) ← l.lowerExpr index
      let (address, l) := l.elementAddress elements index
      let (value, l) ← l.lowerExpr value
      .ok (l.emit (.storeI32 address value))
  | .whileStmt condition body => do
    let (loopStart, l) := l.freshLabel ".Lloop"
    let (loopEnd, l) := l.freshLabel ".Lloopend"
    let l := l.emit (.labelAt loopStart)
    let (cond, l) ← l.lowerExpr condition
    let l := l.emit (.jumpIfZero cond loopEnd)
    let l ← l.lowerBlock body
    let l := l.emit (.jump loopStart)
    .ok (l.emit (.labelAt loopEnd))
  | .returnStmt value => do
    let (value, l) ← l.lowerExpr value
    .ok (l.emit (.returnI32 value))
  | .ifStmt condition thenBody elseBody => do
    let (cond, l) ← l.lowerExpr condition
    let (elseLabel, l) := l.freshLabel ".Lelse"
    let (endLabel, l) := l.freshLabel ".Lend"
    let l := l.emit (.jumpIfZero cond (if elseBody.isEmpty then endLabel else elseLabel))
    let l ← l.lowerBlock thenBody
    if elseBody.isEmpty then .ok (l.emit (.labelAt endLabel))
    else do
      let l := l.emit (.jump endLabel)
      let l := l.emit (.labelAt elseLabel)
      let l ← l.lowerBlock elseBody
      .ok (l.emit (.labelAt endLabel))

def lowerBlock (l : IRLowerer) : List Statement → Except String IRLowerer
  | [] => .ok l
  | statement :: body => do
    let l ← l.lowerStatement statement
    l.lowerBlock body

end

/-- The parameters from index `i` on. -/
def lowerParams (l : IRLowerer) (i : Nat) : List Param → IRLowerer
  | [] => l
  | param :: params =>
    let (dst, l) := l.define (.paramI32 · i)
    { l with vars := l.vars.insert param.name dst }.lowerParams (i + 1) params

def lower (function : Function) (structLayouts : StructLayouts) (enumVariants : EnumOrdinals) :
    Except String IRFunction := do
  let l : IRLowerer :=
    { structFieldOrder := structLayouts
      enumVariants := enumVariants
      ir := { name := function.name, paramCount := function.params.length } }
  let l ← (l.lowerParams 0 function.params).lowerBlock function.body
  .ok l.ir

end IRLowerer

end Oglang
end Techuila
