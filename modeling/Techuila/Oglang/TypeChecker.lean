import Techuila.Lib.Table
import Techuila.Oglang.Ast

/-!
# The type checker (`types/type_checker.cpp`)

One flat table for each kind of name (variables, arrays, struct variables) for a whole function
body. An error is the text of the exception.
-/

namespace Techuila
namespace Oglang

structure FunctionSignature where
  paramTypes : List String
  returnType : String
  deriving DecidableEq

abbrev StructTable := Table String (Table String String)
abbrev EnumTable := Table String (Table String Int)

structure Checker where
  signatures : Table String FunctionSignature
  structs : StructTable
  enums : EnumTable
  vars : Table String String := []
  /-- Element type and size. -/
  arrays : Table String (String × Int) := []
  structVars : Table String String := []

def isPointerType (type : String) : Bool := type == "ptr" || type == "constptr"

/-- A mutable pointer may be used where a const one is expected, not the reverse. -/
def assignable (declaredType actualType : String) : Bool :=
  declaredType == actualType || (declaredType == "constptr" && actualType == "ptr")

namespace Checker

def resolveFieldType (c : Checker) (structVarName fieldName : String) : Except String String :=
  match c.structVars.find structVarName with
  | none => .error ("Unknown struct variable: " ++ structVarName)
  | some structType =>
    match c.structs.find structType with
    | none => .error ("Unknown struct type: " ++ structType)
    | some fields =>
      match fields.find fieldName with
      | none => .error ("Struct '" ++ structType ++ "' has no field named: " ++ fieldName)
      | some type => .ok type

def isBinaryOp (op : Char) : Bool := op ∈ ['+', '-', '*', '/', '=', '!', '>', '<', 'G', 'L']

mutual

def checkExpr (c : Checker) : Expr → Except String String
  | .integer _ => .ok "i32"
  | .variable name =>
    match c.vars.find name with
    | none => .error ("Unknown variable: " ++ name)
    | some type => .ok type
  | .unary _ operand => do
    let operandType ← c.checkExpr operand
    if operandType != "i32" then .error "Unary operator requires an i32 operand" else
    .ok "i32"
  | .addressOf name =>
    if c.vars.contains name then .ok "ptr"
    else .error ("Cannot take the address of undeclared variable: " ++ name)
  | .deref pointer => do
    let pointerType ← c.checkExpr pointer
    if !isPointerType pointerType then .error "Cannot dereference a non-pointer value" else
    .ok "i32"
  | .fieldAccess structVarName fieldName =>
    -- a struct variable takes priority over an enum of the same name
    match c.structVars.contains structVarName, c.enums.find structVarName with
    | false, some variants =>
      if variants.contains fieldName then .ok "i32"
      else .error ("Enum '" ++ structVarName ++ "' has no variant named: " ++ fieldName)
    | _, _ => c.resolveFieldType structVarName fieldName
  | .index arrayName index =>
    match c.arrays.find arrayName with
    | none => .error ("Indexing unknown array: " ++ arrayName)
    | some (elementType, _) => do
      let indexType ← c.checkExpr index
      if indexType != "i32" then .error "Array index must be i32" else
      .ok elementType
  | .asm _ => .ok "i32"
  | .call callee args =>
    match c.signatures.find callee with
    | none => .error ("Call to undefined function: " ++ callee)
    | some sig =>
      if args.length ≠ sig.paramTypes.length then
        .error ("Function '" ++ callee ++ "' expects " ++ toString sig.paramTypes.length ++
          " argument(s), got " ++ toString args.length)
      else do
        c.checkArgs callee 0 args sig.paramTypes
        .ok sig.returnType
  | .binary op left right => do
    let leftType ← c.checkExpr left
    let rightType ← c.checkExpr right
    if leftType != "i32" || rightType != "i32" then
      .error "Binary operator requires i32 operands"
    else if isBinaryOp op then .ok "i32"
    else .error "Unknown binary operator"

/-- The arguments from index `i` on against the parameter types from there on. -/
def checkArgs (c : Checker) (callee : String) (i : Nat) :
    List Expr → List String → Except String Unit
  | [], _ => .ok ()
  | arg :: args, types => do
    let argType ← c.checkExpr arg
    if !assignable (types.headD "") argType then
      .error ("Argument " ++ toString (i + 1) ++ " to '" ++ callee ++ "' has wrong type")
    else c.checkArgs callee (i + 1) args types.tail

end

mutual

def checkStatement (functionReturnType : String) (c : Checker) :
    Statement → Except String Checker
  | .letStmt name type initializer => do
    let actual ← c.checkExpr initializer
    if !assignable type actual then .error ("Type mismatch for variable: " ++ name) else
    .ok { c with vars := c.vars.insert name type }
  | .assignStmt name value =>
    match c.vars.find name with
    | none => .error ("Assignment to undeclared variable: " ++ name)
    | some type => do
      let actual ← c.checkExpr value
      if !assignable type actual then .error ("Type mismatch assigning to variable: " ++ name) else
      .ok c
  | .storeStmt pointer value => do
    let pointerType ← c.checkExpr pointer
    if !isPointerType pointerType then .error "Cannot store through a non-pointer value"
    else if pointerType == "constptr" then .error "Cannot store through a const pointer"
    else
      let valueType ← c.checkExpr value
      if valueType != "i32" then .error "Cannot store a non-i32 value through a pointer" else
      .ok c
  | .structVarDecl name structType =>
    if c.structs.contains structType then
      .ok { c with structVars := c.structVars.insert name structType }
    else .error ("Unknown struct type: " ++ structType)
  | .fieldStore structVarName fieldName value => do
    let fieldType ← c.resolveFieldType structVarName fieldName
    let valueType ← c.checkExpr value
    if !assignable fieldType valueType then
      .error ("Type mismatch storing into field '" ++ fieldName ++ "' of struct variable: " ++
        structVarName)
    else .ok c
  | .arrayDecl name elementType size =>
    if elementType != "i32" then .error "Only i32 arrays are supported"
    else if size ≤ 0 then .error ("Array size must be positive: " ++ name)
    else .ok { c with arrays := c.arrays.insert name (elementType, size) }
  | .indexStore arrayName index value =>
    match c.arrays.find arrayName with
    | none => .error ("Indexing unknown array: " ++ arrayName)
    | some (elementType, _) => do
      let indexType ← c.checkExpr index
      if indexType != "i32" then .error "Array index must be i32" else
      let valueType ← c.checkExpr value
      if valueType != elementType then
        .error ("Type mismatch storing into array: " ++ arrayName)
      else .ok c
  | .whileStmt condition body => do
    let condType ← c.checkExpr condition
    if condType != "i32" then
      .error "While condition must be i32 (0 is false, nonzero is true)"
    else checkBlock functionReturnType c body
  | .returnStmt value => do
    let actual ← c.checkExpr value
    if !assignable functionReturnType actual then .error "Return type mismatch" else .ok c
  | .ifStmt condition thenBody elseBody => do
    let condType ← c.checkExpr condition
    if condType != "i32" then
      .error "If condition must be i32 (0 is false, nonzero is true)"
    else
      let c ← checkBlock functionReturnType c thenBody
      checkBlock functionReturnType c elseBody

def checkBlock (functionReturnType : String) (c : Checker) :
    List Statement → Except String Checker
  | [] => .ok c
  | statement :: body => do
    let c ← checkStatement functionReturnType c statement
    checkBlock functionReturnType c body

end

end Checker

def isBaseType (type : String) : Bool := type == "i32" || type == "ptr" || type == "constptr"

mutual

/-- Whether a statement in last place ends every path with a return. -/
def alwaysReturns : Statement → Bool
  | .returnStmt _ => true
  | .ifStmt _ thenBody elseBody =>
    !elseBody.isEmpty && blockAlwaysReturns thenBody && blockAlwaysReturns elseBody
  | _ => false

def blockAlwaysReturns : List Statement → Bool
  | [] => false
  | [last] => alwaysReturns last
  | _ :: statement :: body => blockAlwaysReturns (statement :: body)

end

structure ModuleSymbols where
  signatures : Table String FunctionSignature := []
  structs : StructTable := []
  enums : EnumTable := []

namespace TypeChecker

/-- The variants of an enum from ordinal `i` on. -/
def collectVariants (enumName : String) (i : Nat) (variants : Table String Int) :
    List String → Except String (Table String Int)
  | [] => .ok variants
  | variant :: rest =>
    if variants.contains variant then
      .error ("Variant redefined in enum '" ++ enumName ++ "': " ++ variant)
    else collectVariants enumName (i + 1) (variants.insert variant i) rest

def collectFields (structName : String) (fields : Table String String) :
    List Param → Except String (Table String String)
  | [] => .ok fields
  | field :: rest =>
    if fields.contains field.name then
      .error ("Field redefined in struct '" ++ structName ++ "': " ++ field.name)
    else if !isBaseType field.type then
      .error ("Struct '" ++ structName ++ "' field '" ++ field.name ++
        "' has unsupported type: " ++ field.type ++
        " (nested structs and struct-typed arrays are not supported)")
    else collectFields structName (fields.insert field.name field.type) rest

def collectEnums (result : ModuleSymbols) : List EnumDecl → Except String ModuleSymbols
  | [] => .ok result
  | enumDecl :: rest =>
    if result.enums.contains enumDecl.name then .error ("Enum redefined: " ++ enumDecl.name)
    else do
      let variants ← collectVariants enumDecl.name 0 [] enumDecl.variants
      collectEnums { result with enums := result.enums.insert enumDecl.name variants } rest

def collectStructs (result : ModuleSymbols) : List StructDecl → Except String ModuleSymbols
  | [] => .ok result
  | structDecl :: rest =>
    if result.structs.contains structDecl.name then
      .error ("Struct redefined: " ++ structDecl.name)
    else if result.enums.contains structDecl.name then
      .error ("'" ++ structDecl.name ++ "' is declared as both a struct and an enum")
    else do
      let fields ← collectFields structDecl.name [] structDecl.fields
      collectStructs { result with structs := result.structs.insert structDecl.name fields } rest

def collectParams (functionName : String) : List Param → Except String (List String)
  | [] => .ok []
  | param :: rest =>
    if !isBaseType param.type then
      .error ("Struct types are not yet supported as function parameters: " ++ functionName ++
        "(" ++ param.name ++ ": " ++ param.type ++ ")")
    else do
      let types ← collectParams functionName rest
      .ok (param.type :: types)

def collectFunctions (result : ModuleSymbols) : List Function → Except String ModuleSymbols
  | [] => .ok result
  | function :: rest =>
    if result.signatures.contains function.name then
      .error ("Function redefined: " ++ function.name)
    else do
      let paramTypes ← collectParams function.name function.params
      if !isBaseType function.returnType then
        .error ("Struct types are not yet supported as function return types: " ++ function.name)
      else
        collectFunctions { result with
          signatures := result.signatures.insert function.name
            ⟨paramTypes, function.returnType⟩ } rest

def collectModuleSymbols (program : Program) : Except String ModuleSymbols := do
  let result ← collectEnums {} program.enums
  let result ← collectStructs result program.structs
  collectFunctions result program.functions

/-- The checker of a function body: its parameters are declared. -/
def functionChecker (symbols : ModuleSymbols) (function : Function) : Checker where
  signatures := symbols.signatures
  structs := symbols.structs
  enums := symbols.enums
  vars := function.params.foldl (fun t param => t.insert param.name param.type) []

def checkFunction (symbols : ModuleSymbols) (function : Function) : Except String Unit := do
  let _ ← Checker.checkBlock function.returnType (functionChecker symbols function) function.body
  if !blockAlwaysReturns function.body then
    .error ("Function '" ++ function.name ++ "' does not return on all paths")
  else .ok ()

def checkFunctions (symbols : ModuleSymbols) : List Function → Except String Unit
  | [] => .ok ()
  | function :: rest => do
    checkFunction symbols function
    checkFunctions symbols rest

def check (program : Program) : Except String Unit :=
  match program.imports with
  | imp :: _ => .error ("Unresolved import: " ++ imp.moduleName ++
      " (multi-file compilation is required to resolve an import — pass every source file on " ++
      "the command line)")
  | [] => do
    let symbols ← collectModuleSymbols program
    if !symbols.signatures.contains "main" then .error "Program has no 'main' function"
    else checkFunctions symbols program.functions

/-- The entries of `t'` over those of `t`. -/
def merge {α : Type} (t t' : Table String α) : Table String α :=
  t'.foldl (fun t e => t.insert e.1 e.2) t

def checkModule (moduleProgram : Program) (external : ModuleSymbols) (requireMain : Bool) :
    Except String Unit := do
  let own ← collectModuleSymbols moduleProgram
  let symbols : ModuleSymbols :=
    ⟨merge external.signatures own.signatures, merge external.structs own.structs,
      merge external.enums own.enums⟩
  if requireMain && !symbols.signatures.contains "main" then
    .error "Program has no 'main' function"
  else checkFunctions symbols moduleProgram.functions

end TypeChecker

end Oglang
end Techuila
