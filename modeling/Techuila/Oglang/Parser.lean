import Techuila.Lib.Parse
import Techuila.Oglang.Ast
import Techuila.Oglang.Lexer

/-!
# The parser (`parser/parser.cpp`)

The state is the tokens from `current` on; a look at `tokens[current]` is checked. `match` and
`peek` followed by `advance` are `ifKind`. A parsing function that is called by one that it calls
gets the latter as an argument, and `parseExpression` and `parseStatement` close the recursions.
-/

namespace Techuila
namespace Oglang

/-- Whether there is a minus, and what follows the sign. -/
def readSign : List Char → Bool × List Char
  | '-' :: s => (true, s)
  | '+' :: s => (false, s)
  | s => (false, s)

/-- `std::stoi`: white space, a sign and digits; what follows is ignored. -/
def stoi (text : String) : Except ParseError Int :=
  let (negative, s) := readSign (text.toList.dropWhile isSpace)
  let digits := s.takeWhile Char.isDigit
  let magnitude : Int := Nat.ofDigitChars 10 digits 0
  let value := if negative then -magnitude else magnitude
  if digits.isEmpty ∨ value < -2 ^ 31 ∨ 2 ^ 31 ≤ value then .error (.thrown "stoi")
  else .ok value

namespace Parser

abbrev P (α : Type) := Parse Token α

/-- `if (match(kind)) yes else no`. -/
def ifKind {α : Type} (kind : TokenKind) (yes : Token → P α) (no : P α) : P α :=
  Parse.ifNext (fun t => t.kind == kind) yes no

def expect (kind : TokenKind) : P Token :=
  ifKind kind pure do
    let t ← Parse.peek
    Parse.fail ("Unexpected token: " ++ t.text)

/-- The loop over items with commas between them. -/
def commaBody {α : Type} (item : P α) (items : List α) : P (List α ⊕ List α) := do
  let x ← item
  ifKind .comma (fun _ => pure (.inl (items ++ [x]))) (pure (.inr (items ++ [x])))

/-- Items between two tokens, with commas between them. -/
def enclosed {α : Type} (opening closing : TokenKind) (item : P α) : P (List α) := do
  let _ ← expect opening
  let t ← Parse.peek
  let items ← (if t.kind ≠ closing then Parse.repeat_ (commaBody item) [] else pure [])
  let _ ← expect closing
  pure items

def identifier : P String := do
  let t ← expect .identifier
  pure t.text

def parseType : P String :=
  ifKind .typeI32 (fun _ => pure "i32") <|
  ifKind .typePtr (fun _ => pure "ptr") <|
  ifKind .typeConstPtr (fun _ => pure "constptr") <|
  ifKind .identifier (fun name =>
    ifKind .dot (fun _ => do
      let member ← identifier
      pure (name.text ++ "." ++ member)) (pure name.text))
  (Parse.fail "Expected type")

/-- A name, a colon and a type. -/
def param : P Param := do
  let name ← identifier
  let _ ← expect .colon
  let type ← parseType
  pure ⟨name, type⟩

/-! ## Expressions -/

/-- The loop of a level of binary operators. -/
def binaryBody (ops : List (TokenKind × Char)) (operand : P Expr) (left : Expr) :
    P (Expr ⊕ Expr) := do
  let t ← Parse.peek
  match ops.lookup t.kind with
  | some op =>
    let _ ← Parse.advance
    let right ← operand
    pure (.inl (.binary op left right))
  | none => pure (.inr left)

/-- A level of binary operators, which associate to the left. -/
def binaryLevel (ops : List (TokenKind × Char)) (operand : P Expr) : P Expr := do
  let left ← operand
  Parse.repeat_ (binaryBody ops operand) left

def multiplicativeOps : List (TokenKind × Char) := [(.star, '*'), (.slash, '/')]
def additiveOps : List (TokenKind × Char) := [(.plus, '+'), (.minus, '-')]
def comparisonOps : List (TokenKind × Char) :=
  [(.greater, '>'), (.less, '<'), (.greaterEqual, 'G'), (.lessEqual, 'L')]
def equalityOps : List (TokenKind × Char) := [(.equalEqual, '='), (.notEqual, '!')]

section Expressions

variable (parseExpression : P Expr)

def parseArgList : P (List Expr) := enclosed .lParen .rParen parseExpression

/-- What follows `name.member`. -/
def parseMember (name : String) : P Expr := do
  let member ← identifier
  let t ← Parse.peek
  if t.kind = .lParen then
    let args ← parseArgList parseExpression
    pure (.call (name ++ "." ++ member) args)
  else
    ifKind .dot (fun _ => do
      let variant ← identifier
      pure (.fieldAccess (name ++ "." ++ member) variant)) (pure (.fieldAccess name member))

/-- What follows a name. -/
def parseName (name : String) : P Expr := do
  let t ← Parse.peek
  if t.kind = .lParen then
    let args ← parseArgList parseExpression
    pure (.call name args)
  else
    ifKind .lBracket (fun _ => do
      let index ← parseExpression
      let _ ← expect .rBracket
      pure (.index name index)) <|
    ifKind .dot (fun _ => parseMember parseExpression name) (pure (.variable name))

def integerLiteral (t : Token) : P Int :=
  match stoi t.text with
  | .ok value => pure value
  | .error e => fun _ => .error e

def parsePrimary : P Expr :=
  ifKind .integer (fun t => do
    let value ← integerLiteral t
    pure (.integer value)) <|
  ifKind .identifier (fun t => parseName parseExpression t.text) <|
  ifKind .lParen (fun _ => do
    let expression ← parseExpression
    let _ ← expect .rParen
    pure expression) <|
  ifKind .asm (fun _ => do
    let _ ← expect .lParen
    let t ← expect .stringLiteral
    let _ ← expect .rParen
    pure (.asm t.text)) <| do
  let t ← Parse.peek
  Parse.fail ("Expected expression: " ++ t.text)

/-- The body of `parseUnary`. -/
def unaryStep (parseUnary : P Expr) : P Expr :=
  ifKind .minus (fun _ => do
    let operand ← parseUnary
    pure (.unary '-' operand)) <|
  ifKind .ampersand (fun _ => do
    let name ← identifier
    pure (.addressOf name)) <|
  ifKind .star (fun _ => do
    let operand ← parseUnary
    pure (.deref operand))
  (parsePrimary parseExpression)

def parseUnary : P Expr := Parse.recur (unaryStep parseExpression)

def parseMultiplicative : P Expr := binaryLevel multiplicativeOps (parseUnary parseExpression)

def parseAdditive : P Expr := binaryLevel additiveOps (parseMultiplicative parseExpression)

def parseComparison : P Expr := binaryLevel comparisonOps (parseAdditive parseExpression)

def parseEquality : P Expr := binaryLevel equalityOps (parseComparison parseExpression)

end Expressions

def parseExpression : P Expr := Parse.recur parseEquality

/-! ## Statements -/

/-- The loop over the statements of a block. -/
def blockBody (parseStatement : P Statement) (body : List Statement) :
    P (List Statement ⊕ List Statement) := do
  let t ← Parse.peek
  if t.kind ≠ .rBrace ∧ t.kind ≠ .end_ then
    let statement ← parseStatement
    pure (.inl (body ++ [statement]))
  else pure (.inr body)

def parseBlock (parseStatement : P Statement) : P (List Statement) := do
  let body ← Parse.repeat_ (blockBody parseStatement) []
  let _ ← expect .rBrace
  pure body

/-- What follows `let`. -/
def parseLet : P Statement := do
  let name ← identifier
  let _ ← expect .colon
  let type ← parseType
  ifKind .lBracket (fun _ => do
    let t ← expect .integer
    let size ← integerLiteral t
    let _ ← expect .rBracket
    let _ ← expect .semicolon
    pure (.arrayDecl name type size)) <|
  ifKind .semicolon (fun _ => pure (.structVarDecl name type)) <| do
  let _ ← expect .equal
  let initializer ← parseExpression
  let _ ← expect .semicolon
  pure (.letStmt name type initializer)

/-- What follows `return`. -/
def parseReturn : P Statement := do
  let value ← parseExpression
  let _ ← expect .semicolon
  pure (.returnStmt value)

def parseAssign : P Statement := do
  let name ← identifier
  let _ ← expect .equal
  let value ← parseExpression
  let _ ← expect .semicolon
  pure (.assignStmt name value)

def parseIndexStore : P Statement := do
  let name ← identifier
  let _ ← expect .lBracket
  let index ← parseExpression
  let _ ← expect .rBracket
  let _ ← expect .equal
  let value ← parseExpression
  let _ ← expect .semicolon
  pure (.indexStore name index value)

def parseFieldStore : P Statement := do
  let structVarName ← identifier
  let _ ← expect .dot
  let fieldName ← identifier
  let _ ← expect .equal
  let value ← parseExpression
  let _ ← expect .semicolon
  pure (.fieldStore structVarName fieldName value)

def parseStore : P Statement := do
  let _ ← expect .star
  let pointer ← parseUnary parseExpression
  let _ ← expect .equal
  let value ← parseExpression
  let _ ← expect .semicolon
  pure (.storeStmt pointer value)

section Statements

variable (parseStatement : P Statement)

def parseWhile : P Statement := do
  let _ ← expect .while_
  let _ ← expect .lParen
  let condition ← parseExpression
  let _ ← expect .rParen
  let _ ← expect .lBrace
  let body ← parseBlock parseStatement
  pure (.whileStmt condition body)

def parseIf : P Statement := do
  let _ ← expect .if_
  let _ ← expect .lParen
  let condition ← parseExpression
  let _ ← expect .rParen
  let _ ← expect .lBrace
  let thenBody ← parseBlock parseStatement
  ifKind .else_ (fun _ => do
    let _ ← expect .lBrace
    let elseBody ← parseBlock parseStatement
    pure (.ifStmt condition thenBody elseBody)) (pure (.ifStmt condition thenBody []))

/-- The body of `parseStatement`: the keyword decides, or a name with the token behind it. -/
def statementStep : P Statement :=
  ifKind .let_ (fun _ => parseLet) <|
  ifKind .return_ (fun _ => parseReturn) <| do
  let t ← Parse.peek
  let next ← Parse.peekNext
  if t.kind = .if_ then parseIf parseStatement
  else if t.kind = .while_ then parseWhile parseStatement
  else if t.kind = .identifier ∧ next.kind = .equal then parseAssign
  else if t.kind = .identifier ∧ next.kind = .lBracket then parseIndexStore
  else if t.kind = .identifier ∧ next.kind = .dot then parseFieldStore
  else if t.kind = .star then parseStore
  else Parse.fail ("Unknown statement: " ++ t.text)

end Statements

def parseStatement : P Statement := Parse.recur statementStep

/-! ## Declarations -/

def parseImportDecl : P ImportDecl := do
  let _ ← expect .import_
  let moduleName ← identifier
  let _ ← expect .semicolon
  pure ⟨moduleName⟩

def parseEnumDecl : P EnumDecl := do
  let _ ← expect .enum
  let name ← identifier
  let variants ← enclosed .lBrace .rBrace identifier
  pure ⟨name, variants⟩

def parseStructDecl : P StructDecl := do
  let _ ← expect .struct
  let name ← identifier
  let fields ← enclosed .lBrace .rBrace param
  pure ⟨name, fields⟩

def parseFunction : P Function := do
  let _ ← expect .fn
  let name ← identifier
  let params ← enclosed .lParen .rParen param
  let _ ← expect .arrow
  let returnType ← parseType
  let _ ← expect .lBrace
  let body ← parseBlock parseStatement
  pure ⟨name, params, returnType, body⟩

/-- The loop of `parseProgram`. -/
def programBody (program : Program) : P (Program ⊕ Program) := do
  let t ← Parse.peek
  if t.kind = .end_ then pure (.inr program)
  else if t.kind = .import_ then
    let importDecl ← parseImportDecl
    pure (.inl { program with imports := program.imports ++ [importDecl] })
  else if t.kind = .struct then
    let structDecl ← parseStructDecl
    pure (.inl { program with structs := program.structs ++ [structDecl] })
  else if t.kind = .enum then
    let enumDecl ← parseEnumDecl
    pure (.inl { program with enums := program.enums ++ [enumDecl] })
  else
    let function ← parseFunction
    pure (.inl { program with functions := program.functions ++ [function] })

def parseProgram : P Program := Parse.repeat_ programBody ⟨[], [], [], []⟩

end Parser

end Oglang
end Techuila
