import Mathlib.Data.List.Basic

/-!
# The syntax tree (`03-compiler/oglang/ast/ast.hpp`)

Also what the lexer and the parser guarantee of names (`Identifier`, `Program.Parsed`), and of
types and operators (`Program.WellFormed`).
-/

namespace Techuila
namespace Oglang

/-- A name as the lexer reads it: letters, digits and `_`. -/
def Identifier (name : String) : Prop := ∀ c ∈ name.toList, c.isAlphanum ∨ c = '_'

instance (name : String) : Decidable (Identifier name) :=
  List.decidableBAll (fun c : Char => c.isAlphanum = true ∨ c = '_') name.toList

inductive Expr where
  | integer (value : Int)
  | variable (name : String)
  | binary (op : Char) (left right : Expr)
  | unary (op : Char) (operand : Expr)
  | addressOf (name : String)
  | deref (pointer : Expr)
  | index (arrayName : String) (index : Expr)
  | fieldAccess (structVarName fieldName : String)
  | asm (templateText : String)
  | call (callee : String) (args : List Expr)

inductive Statement where
  | letStmt (name type : String) (initializer : Expr)
  | returnStmt (value : Expr)
  | assignStmt (name : String) (value : Expr)
  | storeStmt (pointer value : Expr)
  | arrayDecl (name elementType : String) (size : Int)
  | indexStore (arrayName : String) (index value : Expr)
  | structVarDecl (name structType : String)
  | fieldStore (structVarName fieldName : String) (value : Expr)
  | whileStmt (condition : Expr) (body : List Statement)
  | ifStmt (condition : Expr) (thenBody elseBody : List Statement)

structure Param where
  name : String
  type : String
  deriving DecidableEq

structure Function where
  name : String
  params : List Param
  returnType : String
  body : List Statement

structure StructDecl where
  name : String
  fields : List Param

structure EnumDecl where
  name : String
  variants : List String

structure ImportDecl where
  moduleName : String

structure Program where
  imports : List ImportDecl
  structs : List StructDecl
  enums : List EnumDecl
  functions : List Function

/-- What the parser guarantees of names: those of functions and imported modules are identifiers. -/
structure Program.Parsed (program : Program) : Prop where
  functions : ∀ function ∈ program.functions, Identifier function.name
  imports : ∀ imp ∈ program.imports, Identifier imp.moduleName

mutual

/-- The only unary operator in the expression is the minus. -/
def Expr.onlyMinus : Expr → Bool
  | .unary op operand => op == '-' && operand.onlyMinus
  | .deref pointer => pointer.onlyMinus
  | .index _ index => index.onlyMinus
  | .call _ args => argsOnlyMinus args
  | .binary _ left right => left.onlyMinus && right.onlyMinus
  | .integer _ | .variable _ | .addressOf _ | .fieldAccess _ _ | .asm _ => true

def argsOnlyMinus : List Expr → Bool
  | [] => true
  | arg :: args => arg.onlyMinus && argsOnlyMinus args

end

mutual

def Statement.onlyMinus : Statement → Bool
  | .letStmt _ _ initializer => initializer.onlyMinus
  | .returnStmt value => value.onlyMinus
  | .assignStmt _ value => value.onlyMinus
  | .storeStmt pointer value => pointer.onlyMinus && value.onlyMinus
  | .indexStore _ index value => index.onlyMinus && value.onlyMinus
  | .fieldStore _ _ value => value.onlyMinus
  | .whileStmt condition body => condition.onlyMinus && blockOnlyMinus body
  | .ifStmt condition thenBody elseBody =>
    condition.onlyMinus && blockOnlyMinus thenBody && blockOnlyMinus elseBody
  | .arrayDecl _ _ _ | .structVarDecl _ _ => true

def blockOnlyMinus : List Statement → Bool
  | [] => true
  | statement :: body => statement.onlyMinus && blockOnlyMinus body

end

/-- What else the parser guarantees: the names of structs and enums are identifiers, and `-` is the
only unary operator that it builds. -/
structure Program.WellFormed (program : Program) : Prop extends program.Parsed where
  structNames : ∀ structDecl ∈ program.structs, Identifier structDecl.name
  enumNames : ∀ enumDecl ∈ program.enums, Identifier enumDecl.name
  unary : ∀ function ∈ program.functions, blockOnlyMinus function.body = true

end Oglang
end Techuila
