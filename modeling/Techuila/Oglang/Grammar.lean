import Mathlib.Data.List.Forall2
import Mathlib.Data.List.TakeWhile
import Techuila.Oglang.Parser

/-!
# The grammar

The token lists that print a syntax tree. Expressions have levels: equality (0), comparison,
additive, multiplicative, unary (4) and primary (5). An operand of a looser level needs
parentheses, and every primary expression may have more.

* `Expr.Prints`, `Statement.Prints`, `Decl.Prints`, `Program.Prints`.
* `Expr.Prints.head`, `Statement.Prints.head`: the tokens that an expression or a statement starts with.
-/

namespace Techuila
namespace Oglang

/-- A token for the number `value`: decimal digits, which may have zeros in front. -/
def Numeral (t : Token) (value : Int) : Prop :=
  t.kind = .integer ∧ t.text.toList ≠ [] ∧ (∀ c ∈ t.text.toList, c.isDigit = true) ∧
    value = Nat.ofDigitChars 10 t.text.toList 0 ∧ value < 2 ^ 31

/-- The number that digits spell, where it fits in an `int`. -/
theorem stoi_digits {text : String} (hne : text.toList ≠ [])
    (hdigits : ∀ c ∈ text.toList, c.isDigit = true) :
    stoi text = if (Nat.ofDigitChars 10 text.toList 0 : Int) < 2 ^ 31
      then .ok (Nat.ofDigitChars 10 text.toList 0 : Int) else .error (.thrown "stoi") := by
  unfold stoi
  generalize text.toList = s at *
  cases s with
  | nil => exact absurd rfl hne
  | cons c s =>
    have hc := hdigits c List.mem_cons_self
    have hspace : isSpace c = false := by
      by_contra h
      simp only [Bool.not_eq_false, isSpace, List.mem_cons, List.not_mem_nil, or_false,
        decide_eq_true_iff] at h
      rcases h with rfl | rfl | rfl | rfl | rfl | rfl <;> exact absurd hc (by decide)
    have hminus : c ≠ '-' := by rintro rfl; exact absurd hc (by decide)
    have hplus : c ≠ '+' := by rintro rfl; exact absurd hc (by decide)
    have htake : (c :: s).takeWhile Char.isDigit = c :: s := List.takeWhile_eq_self_iff.mpr hdigits
    have hsign : readSign (c :: s) = (false, c :: s) := by
      unfold readSign
      split
      · rename_i h; exact absurd (List.cons.inj h).1 hminus
      · rename_i h; exact absurd (List.cons.inj h).1 hplus
      · rfl
    rw [List.dropWhile_cons_of_neg (by rw [hspace]; decide), hsign]
    simp only [htake, List.isEmpty_cons, Bool.false_eq_true, if_false, false_or]
    generalize Nat.ofDigitChars 10 (c :: s) 0 = value
    by_cases h : (value : Int) < 2 ^ 31
    · rw [if_pos h, if_neg (by omega)]
    · rw [if_neg h, if_pos (by omega)]

theorem stoi_of_numeral {t : Token} {value : Int} (h : Numeral t value) :
    stoi t.text = .ok value := by
  obtain ⟨-, hne, hdigits, rfl, hlt⟩ := h
  rw [stoi_digits hne hdigits, if_pos hlt]

/-- A name of one or two parts. -/
inductive PrintsPath : String → List Token → Prop
  | name {t : Token} : t.kind = .identifier → PrintsPath t.text [t]
  | dotted {t dot u : Token} : t.kind = .identifier → dot.kind = .dot → u.kind = .identifier →
      PrintsPath (t.text ++ "." ++ u.text) [t, dot, u]

inductive PrintsType : String → List Token → Prop
  | i32 {t : Token} : t.kind = .typeI32 → PrintsType "i32" [t]
  | ptr {t : Token} : t.kind = .typePtr → PrintsType "ptr" [t]
  | constptr {t : Token} : t.kind = .typeConstPtr → PrintsType "constptr" [t]
  | path {name : String} {ts : List Token} : PrintsPath name ts → PrintsType name ts

/-- Token lists with commas between them. -/
inductive Joins : List (List Token) → List Token → Prop
  | nil : Joins [] []
  | one {ts : List Token} : Joins [ts] ts
  | cons {ts us rest : List Token} {lists : List (List Token)} {comma : Token} :
      comma.kind = .comma → Joins (us :: lists) rest → Joins (ts :: us :: lists) (ts ++ comma :: rest)

/-- Items with commas between them. -/
def PrintsItems {α : Type} (R : α → List Token → Prop) (items : List α) (ts : List Token) : Prop :=
  ∃ lists, List.Forall₂ R items lists ∧ Joins lists ts

/-- Items between two tokens. -/
def Encloses {α : Type} (opening closing : TokenKind) (R : α → List Token → Prop)
    (items : List α) (ts : List Token) : Prop :=
  ∃ l r inner, l.kind = opening ∧ r.kind = closing ∧ PrintsItems R items inner ∧
    ts = l :: (inner ++ [r])

/-! ## Expressions -/

/-- The operators of a level. -/
def operatorsAt : Nat → List (TokenKind × Char)
  | 0 => Parser.equalityOps
  | 1 => Parser.comparisonOps
  | 2 => Parser.additiveOps
  | 3 => Parser.multiplicativeOps
  | _ => []

theorem level_cases {n : Nat} {kind : TokenKind} {c : Char} (h : (kind, c) ∈ operatorsAt n) :
    n ∈ [0, 1, 2, 3] := by
  match n, h with
  | 0, _ => decide
  | 1, _ => decide
  | 2, _ => decide
  | 3, _ => decide
  | _ + 4, h => exact absurd h (List.not_mem_nil)

/-- The tokens print the expression at a level. -/
inductive Expr.Prints : Nat → Expr → List Token → Prop
  | lift {n : Nat} {e : Expr} {ts : List Token} : n < 5 → Expr.Prints (n + 1) e ts →
      Expr.Prints n e ts
  | binary {n : Nat} {c : Char} {left right : Expr} {a b : List Token} {op : Token} :
      (op.kind, c) ∈ operatorsAt n → Expr.Prints n left a → Expr.Prints (n + 1) right b →
      Expr.Prints n (.binary c left right) (a ++ op :: b)
  | unary {t : Token} {e : Expr} {ts : List Token} : t.kind = .minus → Expr.Prints 4 e ts →
      Expr.Prints 4 (.unary '-' e) (t :: ts)
  | addressOf {t name : Token} : t.kind = .ampersand → name.kind = .identifier →
      Expr.Prints 4 (.addressOf name.text) [t, name]
  | deref {t : Token} {e : Expr} {ts : List Token} : t.kind = .star → Expr.Prints 4 e ts →
      Expr.Prints 4 (.deref e) (t :: ts)
  | integer {t : Token} {value : Int} : Numeral t value → Expr.Prints 5 (.integer value) [t]
  | var {name : Token} : name.kind = .identifier →
      Expr.Prints 5 (.variable name.text) [name]
  | index {name l r : Token} {e : Expr} {ts : List Token} : name.kind = .identifier →
      l.kind = .lBracket → Expr.Prints 0 e ts → r.kind = .rBracket →
      Expr.Prints 5 (.index name.text e) (name :: l :: (ts ++ [r]))
  | fieldAccess {path : String} {ts : List Token} {dot field : Token} : PrintsPath path ts →
      dot.kind = .dot → field.kind = .identifier →
      Expr.Prints 5 (.fieldAccess path field.text) (ts ++ [dot, field])
  | asm {t l text r : Token} : t.kind = .asm → l.kind = .lParen → text.kind = .stringLiteral →
      r.kind = .rParen → Expr.Prints 5 (.asm text.text) [t, l, text, r]
  | call {callee : String} {name inner : List Token} {args : List Expr}
      {lists : List (List Token)} {l r : Token} : PrintsPath callee name → l.kind = .lParen →
      args.length = lists.length → (∀ p ∈ args.zip lists, Expr.Prints 0 p.1 p.2) →
      Joins lists inner → r.kind = .rParen →
      Expr.Prints 5 (.call callee args) (name ++ l :: (inner ++ [r]))
  | paren {l r : Token} {e : Expr} {ts : List Token} : l.kind = .lParen → Expr.Prints 0 e ts →
      r.kind = .rParen → Expr.Prints 5 e (l :: (ts ++ [r]))

/-! ## Statements -/

/-- The tokens print the statement. -/
inductive Statement.Prints : Statement → List Token → Prop
  | letStmt {t name colon equal semi : Token} {type : String} {e : Expr} {a b : List Token} :
      t.kind = .let_ → name.kind = .identifier → colon.kind = .colon → PrintsType type a →
      equal.kind = .equal → e.Prints 0 b → semi.kind = .semicolon →
      Statement.Prints (.letStmt name.text type e)
        (t :: name :: colon :: (a ++ equal :: (b ++ [semi])))
  | structVarDecl {t name colon semi : Token} {type : String} {a : List Token} :
      t.kind = .let_ → name.kind = .identifier → colon.kind = .colon → PrintsType type a →
      semi.kind = .semicolon →
      Statement.Prints (.structVarDecl name.text type) (t :: name :: colon :: (a ++ [semi]))
  | arrayDecl {t name colon l size r semi : Token} {type : String} {value : Int} {a : List Token} :
      t.kind = .let_ → name.kind = .identifier → colon.kind = .colon → PrintsType type a →
      l.kind = .lBracket → Numeral size value → r.kind = .rBracket → semi.kind = .semicolon →
      Statement.Prints (.arrayDecl name.text type value)
        (t :: name :: colon :: (a ++ [l, size, r, semi]))
  | returnStmt {t semi : Token} {e : Expr} {ts : List Token} : t.kind = .return_ →
      e.Prints 0 ts → semi.kind = .semicolon →
      Statement.Prints (.returnStmt e) (t :: (ts ++ [semi]))
  | assignStmt {name equal semi : Token} {e : Expr} {ts : List Token} :
      name.kind = .identifier → equal.kind = .equal → e.Prints 0 ts → semi.kind = .semicolon →
      Statement.Prints (.assignStmt name.text e) (name :: equal :: (ts ++ [semi]))
  | indexStore {name l r equal semi : Token} {index e : Expr} {a b : List Token} :
      name.kind = .identifier → l.kind = .lBracket → index.Prints 0 a → r.kind = .rBracket →
      equal.kind = .equal → e.Prints 0 b → semi.kind = .semicolon →
      Statement.Prints (.indexStore name.text index e)
        (name :: l :: (a ++ r :: equal :: (b ++ [semi])))
  | fieldStore {name dot field equal semi : Token} {e : Expr} {ts : List Token} :
      name.kind = .identifier → dot.kind = .dot → field.kind = .identifier →
      equal.kind = .equal → e.Prints 0 ts → semi.kind = .semicolon →
      Statement.Prints (.fieldStore name.text field.text e)
        (name :: dot :: field :: equal :: (ts ++ [semi]))
  | storeStmt {star equal semi : Token} {pointer e : Expr} {a b : List Token} :
      star.kind = .star → pointer.Prints 4 a → equal.kind = .equal → e.Prints 0 b →
      semi.kind = .semicolon →
      Statement.Prints (.storeStmt pointer e) (star :: (a ++ equal :: (b ++ [semi])))
  | whileStmt {t l r l' r' : Token} {e : Expr} {body : List Statement} {a : List Token}
      {lists : List (List Token)} : t.kind = .while_ → l.kind = .lParen → e.Prints 0 a →
      r.kind = .rParen → l'.kind = .lBrace → body.length = lists.length →
      (∀ p ∈ body.zip lists, Statement.Prints p.1 p.2) → r'.kind = .rBrace →
      Statement.Prints (.whileStmt e body) (t :: l :: (a ++ r :: l' :: (lists.flatten ++ [r'])))
  | ifStmt {t l r l' r' : Token} {e : Expr} {body : List Statement} {a : List Token}
      {lists : List (List Token)} : t.kind = .if_ → l.kind = .lParen → e.Prints 0 a →
      r.kind = .rParen → l'.kind = .lBrace → body.length = lists.length →
      (∀ p ∈ body.zip lists, Statement.Prints p.1 p.2) → r'.kind = .rBrace →
      Statement.Prints (.ifStmt e body []) (t :: l :: (a ++ r :: l' :: (lists.flatten ++ [r'])))
  | ifElse {t l r l' r' else_ l'' r'' : Token} {e : Expr} {body elseBody : List Statement}
      {a : List Token} {lists elseLists : List (List Token)} : t.kind = .if_ → l.kind = .lParen →
      e.Prints 0 a → r.kind = .rParen → l'.kind = .lBrace → body.length = lists.length →
      (∀ p ∈ body.zip lists, Statement.Prints p.1 p.2) → r'.kind = .rBrace →
      else_.kind = .else_ → l''.kind = .lBrace → elseBody.length = elseLists.length →
      (∀ p ∈ elseBody.zip elseLists, Statement.Prints p.1 p.2) → r''.kind = .rBrace →
      Statement.Prints (.ifStmt e body elseBody) (t :: l :: (a ++ r :: l' ::
        (lists.flatten ++ r' :: else_ :: l'' :: (elseLists.flatten ++ [r'']))))

/-- The statements of a block, one after the other. -/
def PrintsBlock (body : List Statement) (ts : List Token) : Prop :=
  ∃ lists, List.Forall₂ Statement.Prints body lists ∧ ts = lists.flatten

/-! ## Declarations -/

inductive Param.Prints : Param → List Token → Prop
  | mk {name colon : Token} {type : String} {ts : List Token} : name.kind = .identifier →
      colon.kind = .colon → PrintsType type ts →
      Param.Prints ⟨name.text, type⟩ (name :: colon :: ts)

/-- A name in a list of names. -/
inductive PrintsName : String → List Token → Prop
  | mk {name : Token} : name.kind = .identifier → PrintsName name.text [name]

inductive ImportDecl.Prints : ImportDecl → List Token → Prop
  | mk {t name semi : Token} : t.kind = .import_ → name.kind = .identifier →
      semi.kind = .semicolon → ImportDecl.Prints ⟨name.text⟩ [t, name, semi]

inductive EnumDecl.Prints : EnumDecl → List Token → Prop
  | mk {t name : Token} {variants : List String} {ts : List Token} : t.kind = .enum →
      name.kind = .identifier → Encloses .lBrace .rBrace PrintsName variants ts →
      EnumDecl.Prints ⟨name.text, variants⟩ (t :: name :: ts)

inductive StructDecl.Prints : StructDecl → List Token → Prop
  | mk {t name : Token} {fields : List Param} {ts : List Token} : t.kind = .struct →
      name.kind = .identifier → Encloses .lBrace .rBrace Param.Prints fields ts →
      StructDecl.Prints ⟨name.text, fields⟩ (t :: name :: ts)

inductive Function.Prints : Function → List Token → Prop
  | mk {t name arrow l r : Token} {params : List Param} {type : String} {body : List Statement}
      {a b c : List Token} : t.kind = .fn → name.kind = .identifier →
      Encloses .lParen .rParen Param.Prints params a → arrow.kind = .arrow → PrintsType type b →
      l.kind = .lBrace → PrintsBlock body c → r.kind = .rBrace →
      Function.Prints ⟨name.text, params, type, body⟩
        (t :: name :: (a ++ arrow :: (b ++ l :: (c ++ [r]))))

inductive Decl where
  | import_ (importDecl : ImportDecl)
  | struct (structDecl : StructDecl)
  | enum (enumDecl : EnumDecl)
  | function (function : Function)

inductive Decl.Prints : Decl → List Token → Prop
  | import_ {importDecl : ImportDecl} {ts : List Token} : importDecl.Prints ts →
      Decl.Prints (.import_ importDecl) ts
  | struct {structDecl : StructDecl} {ts : List Token} : structDecl.Prints ts →
      Decl.Prints (.struct structDecl) ts
  | enum {enumDecl : EnumDecl} {ts : List Token} : enumDecl.Prints ts →
      Decl.Prints (.enum enumDecl) ts
  | function {function : Function} {ts : List Token} : function.Prints ts →
      Decl.Prints (.function function) ts

/-- The program with one more declaration. -/
def Program.add (program : Program) : Decl → Program
  | .import_ importDecl => { program with imports := program.imports ++ [importDecl] }
  | .struct structDecl => { program with structs := program.structs ++ [structDecl] }
  | .enum enumDecl => { program with enums := program.enums ++ [enumDecl] }
  | .function function => { program with functions := program.functions ++ [function] }

def Program.empty : Program := ⟨[], [], [], []⟩

/-- Declarations of different kinds may stand in any order. -/
def Program.Prints (program : Program) (ts : List Token) : Prop :=
  ∃ decls lists, List.Forall₂ Decl.Prints decls lists ∧ ts = lists.flatten ∧
    program = decls.foldl Program.add Program.empty

theorem Joins.concat {lists : List (List Token)} {inner : List Token} (h : Joins lists inner)
    (hne : lists ≠ []) {comma : Token} (hcomma : comma.kind = .comma) (ts : List Token) :
    Joins (lists ++ [ts]) (inner ++ comma :: ts) := by
  induction h with
  | nil => exact absurd rfl hne
  | one => exact .cons hcomma .one
  | cons hc _ ih =>
    rw [List.append_assoc, List.cons_append]
    exact .cons hc (ih (List.cons_ne_nil _ _))

theorem forall₂_of_zip {α β : Type} {R : α → β → Prop} {xs : List α} {ys : List β}
    (hlen : xs.length = ys.length) (h : ∀ p ∈ xs.zip ys, R p.1 p.2) : List.Forall₂ R xs ys :=
  List.forall₂_iff_zip.mpr ⟨hlen, fun hp => h _ hp⟩

theorem zip_of_forall₂ {α β : Type} {R : α → β → Prop} {xs : List α} {ys : List β}
    (h : List.Forall₂ R xs ys) : xs.length = ys.length ∧ ∀ p ∈ xs.zip ys, R p.1 p.2 :=
  ⟨h.length_eq, fun _ hp => (List.forall₂_iff_zip.mp h).2 hp⟩

/-! ## First tokens -/

/-- What an expression starts with. -/
def StartsExpr (t : Token) : Prop :=
  t.kind ∈ [.minus, .ampersand, .star, .integer, .identifier, .lParen, .asm]

/-- What a statement starts with. -/
def StartsStatement (t : Token) : Prop :=
  t.kind ∈ [.let_, .return_, .identifier, .star, .while_, .if_]

theorem PrintsPath.head {name : String} {ts : List Token} (h : PrintsPath name ts) :
    ∃ t ts', ts = t :: ts' ∧ t.kind = .identifier := by
  cases h with
  | name ht => exact ⟨_, _, rfl, ht⟩
  | dotted ht _ _ => exact ⟨_, _, rfl, ht⟩

theorem Expr.Prints.head {n : Nat} {e : Expr} {ts : List Token} (h : e.Prints n ts) :
    ∃ t ts', ts = t :: ts' ∧ StartsExpr t := by
  have hstart : ∀ {t : Token} {ts : List Token} {kind : TokenKind}, t.kind = kind →
      kind ∈ [.minus, .ampersand, .star, .integer, .identifier, .lParen, .asm] →
      ∃ t' ts', t :: ts = t' :: ts' ∧ StartsExpr t' :=
    fun ht hmem => ⟨_, _, rfl, by rw [StartsExpr, ht]; exact hmem⟩
  induction h with
  | lift _ _ ih => exact ih
  | binary _ _ _ ih _ =>
    obtain ⟨t, ts', rfl, ht⟩ := ih
    exact ⟨t, _, rfl, ht⟩
  | unary ht _ _ => exact hstart ht (by decide)
  | addressOf ht _ => exact hstart ht (by decide)
  | deref ht _ _ => exact hstart ht (by decide)
  | integer ht => exact hstart ht.1 (by decide)
  | var ht => exact hstart ht (by decide)
  | index ht _ _ _ _ => exact hstart ht (by decide)
  | fieldAccess hpath _ _ =>
    obtain ⟨t, ts', rfl, ht⟩ := hpath.head
    exact hstart ht (by decide)
  | asm ht _ _ _ => exact hstart ht (by decide)
  | call hpath _ _ _ _ _ _ =>
    obtain ⟨t, ts', rfl, ht⟩ := hpath.head
    exact hstart ht (by decide)
  | paren ht _ _ _ => exact hstart ht (by decide)

theorem Statement.Prints.head {s : Statement} {ts : List Token} (h : s.Prints ts) :
    ∃ t ts', ts = t :: ts' ∧ StartsStatement t := by
  have hstart : ∀ {t : Token} {ts : List Token} {kind : TokenKind}, t.kind = kind →
      kind ∈ [.let_, .return_, .identifier, .star, .while_, .if_] →
      ∃ t' ts', t :: ts = t' :: ts' ∧ StartsStatement t' :=
    fun ht hmem => ⟨_, _, rfl, by rw [StartsStatement, ht]; exact hmem⟩
  cases h with
  | letStmt ht => exact hstart ht (by decide)
  | structVarDecl ht => exact hstart ht (by decide)
  | arrayDecl ht => exact hstart ht (by decide)
  | returnStmt ht => exact hstart ht (by decide)
  | assignStmt ht => exact hstart ht (by decide)
  | indexStore ht => exact hstart ht (by decide)
  | fieldStore ht => exact hstart ht (by decide)
  | storeStmt ht => exact hstart ht (by decide)
  | whileStmt ht => exact hstart ht (by decide)
  | ifStmt ht => exact hstart ht (by decide)
  | ifElse ht => exact hstart ht (by decide)

end Oglang
end Techuila
