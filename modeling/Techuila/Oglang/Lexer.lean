import Mathlib.Algebra.Group.Int.Defs
import Mathlib.Data.List.Basic
import Mathlib.Data.String.Basic

/-!
# The lexer (`lexer/lexer.cpp`)

A byte of the source is the character with its code. The state is the source from `position` on,
with the line and the column there; both are `int` counters that wrap. A `while` loop whose body
is `advance()` is a recursion on the characters that are left.

A position at or behind the end reads as `NUL`, and so does a NUL byte of the source.
-/

namespace Techuila
namespace Oglang

inductive TokenKind where
  | fn
  | return_
  | let_
  | struct
  | enum
  | import_
  | asm
  | typeI32
  | typePtr
  | typeConstPtr
  | identifier
  | integer
  | stringLiteral
  | arrow
  | lParen
  | rParen
  | lBrace
  | rBrace
  | lBracket
  | rBracket
  | colon
  | semicolon
  | comma
  | equal
  | dot
  | plus
  | minus
  | star
  | slash
  | ampersand
  | greater
  | less
  | greaterEqual
  | lessEqual
  | equalEqual
  | notEqual
  | if_
  | else_
  | while_
  | end_
  deriving DecidableEq, Repr

structure Token where
  kind : TokenKind
  text : String
  line : Int
  column : Int
  deriving DecidableEq, Repr

/-- What `peek()` returns at the end. -/
def NUL : Char := Char.ofNat 0

/-- `isspace` in the C locale. -/
def isSpace (c : Char) : Bool :=
  c ∈ [' ', '\t', '\n', Char.ofNat 11, Char.ofNat 12, '\r']

/-- A character that an identifier may start with. -/
def isWordStart (c : Char) : Bool := c.isAlpha || c == '_'

def isWordChar (c : Char) : Bool := c.isAlphanum || c == '_'

/-- The value of an `int` that counted to `n`. -/
def wrap (n : Int) : Int := (n + 2 ^ 31) % 2 ^ 32 - 2 ^ 31

/-- `n + 1` in an `int`. -/
def increment (n : Int) : Int := wrap (n + 1)

/-- A line and a column. -/
structure Position where
  line : Int := 1
  column : Int := 1
  deriving DecidableEq, Repr

/-- The position after the character `c`. -/
def Position.next (p : Position) (c : Char) : Position :=
  if c = '\n' then ⟨increment p.line, 1⟩ else ⟨p.line, increment p.column⟩

structure Lexer where
  /-- The source from `position` on. -/
  rest : List Char
  pos : Position := {}
  deriving DecidableEq

namespace Lexer

def peek (l : Lexer) : Char := l.rest.headD NUL

/-- `advance()`; it does not pass a NUL. -/
def advance (l : Lexer) : Lexer :=
  match l.rest with
  | [] => l
  | c :: rest => if c = NUL then l else ⟨rest, l.pos.next c⟩

/-- `while (p(peek())) text += advance();`, for a class `p` without NUL. -/
def advanceWhile (p : Char → Bool) : List Char → Position → List Char × Lexer
  | [], pos => ([], ⟨[], pos⟩)
  | c :: rest, pos =>
    if p c then
      let (text, l) := advanceWhile p rest (pos.next c)
      (c :: text, l)
    else ([], ⟨c :: rest, pos⟩)

/-- `skipWhitespace`: its two loops in one, `inComment` in the loop over a comment. A newline ends
a comment and is white space; a NUL ends both loops. -/
def skipWhitespace (inComment : Bool) : List Char → Position → Lexer
  | [], pos => ⟨[], pos⟩
  | c :: rest, pos =>
    if inComment && c != NUL && c != '\n' then skipWhitespace true rest (pos.next c)
    else if isSpace c then skipWhitespace false rest (pos.next c)
    else if !inComment && c == '/' && rest.head? == some '/' then
      skipWhitespace true rest (pos.next c)
    else ⟨c :: rest, pos⟩

/-- A string literal after its opening quote; `none` where it is not terminated. -/
def stringBody : List Char → Position → Option (List Char × Lexer)
  | [], _ => none
  | ch :: rest, pos =>
    if ch = NUL then none
    else if ch = '"' then some ([], ⟨rest, pos.next ch⟩)
    else
      match rest with
      | [] => none
      | c :: rest' =>
        if ch = '\\' ∧ (c = '"' ∨ c = '\\') then
          (stringBody rest' ((pos.next ch).next c)).map fun (text, l) => (c :: text, l)
        else (stringBody (c :: rest') (pos.next ch)).map fun (text, l) => (ch :: text, l)

def keywords : List (String × TokenKind) :=
  [("fn", .fn), ("return", .return_), ("let", .let_), ("struct", .struct), ("enum", .enum),
    ("import", .import_), ("asm", .asm), ("if", .if_), ("else", .else_), ("while", .while_),
    ("i32", .typeI32), ("ptr", .typePtr), ("constptr", .typeConstPtr)]

def wordKind (text : String) : TokenKind := (keywords.lookup text).getD .identifier

/-- The operators of one character that start no other. -/
def singles : List (Char × TokenKind) :=
  [('(', .lParen), (')', .rParen), ('{', .lBrace), ('}', .rBrace), ('[', .lBracket),
    (']', .rBracket), (':', .colon), (';', .semicolon), (',', .comma), ('.', .dot), ('+', .plus),
    ('&', .ampersand), ('*', .star), ('/', .slash)]

/-- An operator with a longer one: the first character, the second, both kinds. -/
def scanPair (l : Lexer) (first second : Char) (both single : TokenKind) :
    TokenKind × List Char × Lexer :=
  let l := l.advance
  if l.peek = second then (both, [first, second], l.advance) else (single, [first], l)

/-- The `switch` on the first character. -/
def scanOperator (l : Lexer) : Except String (TokenKind × List Char × Lexer) :=
  match l.peek with
  | '-' => .ok (l.scanPair '-' '>' .arrow .minus)
  | '=' => .ok (l.scanPair '=' '=' .equalEqual .equal)
  | '>' => .ok (l.scanPair '>' '=' .greaterEqual .greater)
  | '<' => .ok (l.scanPair '<' '=' .lessEqual .less)
  | '!' =>
    if l.advance.peek = '=' then .ok (.notEqual, ['!', '='], l.advance.advance)
    else .error "Unexpected '!'; expected !="
  | c =>
    match singles.lookup c with
    | some kind => .ok (kind, [c], l.advance)
    | none => .error ("Unexpected character: " ++ String.singleton c)

/-- The token at a character that is neither white space nor NUL: its kind and its text. -/
def scan (l : Lexer) : Except String (TokenKind × List Char × Lexer) :=
  let c := l.peek
  if isWordStart c then
    let (text, l) := advanceWhile isWordChar l.rest l.pos
    .ok (wordKind (String.ofList text), text, l)
  else if c = '"' then
    match stringBody l.advance.rest l.advance.pos with
    | some (text, l) => .ok (.stringLiteral, text, l)
    | none => .error "Unterminated string literal"
  else if c.isDigit then
    let (text, l) := advanceWhile Char.isDigit l.rest l.pos
    .ok (.integer, text, l)
  else l.scanOperator

/-- The loop of `tokenize`, with `fuel` iterations at most; `none` where they are not enough. -/
def tokenizeWithin : (fuel : Nat) → Lexer → Option (Except String (List Token))
  | 0, _ => none
  | fuel + 1, l =>
    let l := skipWhitespace false l.rest l.pos
    if l.peek = NUL then some (.ok [⟨.end_, "", l.pos.line, l.pos.column⟩])
    else
      match l.scan with
      | .error e => some (.error e)
      | .ok (kind, text, l') =>
        (tokenizeWithin fuel l').map fun r =>
          r.map fun tokens => ⟨kind, String.ofList text, l.pos.line, l.pos.column⟩ :: tokens

/-- The tokens of a source, or the text of the exception. -/
def tokenize (source : List Char) : Except String (List Token) :=
  (tokenizeWithin (source.length + 1) { rest := source }).getD (.error "")

end Lexer

end Oglang
end Techuila
