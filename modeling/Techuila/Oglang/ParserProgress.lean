import Techuila.Oglang.Parser

/-!
# The parser stays inside its tokens (`parser/parser.cpp`)

The tokens end with an `End` token, which no parsing function takes.

* `tame_parseExpression`, `tame_parseStatement`: each of them takes a token.
* `parseUnary_eq`, `parseExpression_eq`, `parseStatement_eq`: the fuel of the model is enough.
* `parseProgram_progress`: a run throws or takes all tokens before `End`.
-/

namespace Techuila
namespace Oglang
namespace Parser

def IsEnd (t : Token) : Prop := t.kind = .end_

/-! ## Steps -/

section Steps

variable {α : Type} {j k n : Nat}

theorem tame_ifKind {kind : TokenKind} (hkind : kind ≠ .end_) {yes yes' : Token → P α}
    {no no' : P α} (hyes : ∀ t, Parse.Tame IsEnd j (n - 1) (yes t) (yes' t)) (hk : k ≤ j + 1)
    (hno : Parse.Tame IsEnd k n no no') :
    Parse.Tame IsEnd k n (ifKind kind yes no) (ifKind kind yes' no') := by
  refine Parse.Tame.ifNext (fun t ht hend => hkind ?_) hyes hk hno
  rw [← beq_iff_eq.mp ht]
  exact hend

theorem tame_expect {kind : TokenKind} (hkind : kind ≠ .end_) :
    Parse.Tame IsEnd 1 n (expect kind) (expect kind) :=
  tame_ifKind hkind (fun t => .pure t) (Nat.le_refl 1) (.bind₀ .peek fun _ => .fail _)

/-- A token that is taken, and what follows it. -/
theorem tame_expect_bind {kind : TokenKind} (hkind : kind ≠ .end_) {q q' : Token → P α}
    (hq : ∀ t, Parse.Tame IsEnd 0 (n - 1) (q t) (q' t)) :
    Parse.Tame IsEnd 1 n (expect kind >>= q) (expect kind >>= q') :=
  (tame_expect hkind).bind hq

/-- What follows a parser that takes a token. -/
theorem tame_after {β : Type} {p p' : P α} (hp : Parse.Tame IsEnd 1 n p p') {q q' : α → P β}
    (hq : ∀ x, Parse.Tame IsEnd 0 (n - 1) (q x) (q' x)) :
    Parse.Tame IsEnd 1 n (p >>= q) (p' >>= q') := hp.bind hq

theorem tame_loosen {p p' : P α} (hp : Parse.Tame IsEnd 1 n p p') : Parse.Tame IsEnd 0 n p p' :=
  hp.mono (Nat.zero_le 1) (Nat.le_refl n)

theorem tame_identifier : Parse.Tame IsEnd 1 n identifier identifier :=
  tame_expect_bind (by decide) fun _ => .pure _

theorem tame_parseType : Parse.Tame IsEnd 1 n parseType parseType :=
  tame_ifKind (by decide) (fun _ => .pure _) (Nat.le_refl 1) <|
  tame_ifKind (by decide) (fun _ => .pure _) (Nat.le_refl 1) <|
  tame_ifKind (by decide) (fun _ => .pure _) (Nat.le_refl 1) <|
  tame_ifKind (by decide) (fun _ => tame_ifKind (by decide)
    (fun _ => tame_loosen (tame_after tame_identifier fun _ => .pure _)) (Nat.zero_le 1) (.pure _))
    (Nat.le_refl 1) (.fail _)

theorem tame_param : Parse.Tame IsEnd 1 n param param :=
  tame_after tame_identifier fun _ => tame_loosen <| tame_expect_bind (by decide) fun _ =>
    tame_loosen <| tame_after tame_parseType fun _ => .pure _

theorem tame_commaBody {p p' : P α} (hp : Parse.Tame IsEnd 1 n p p') (items : List α) :
    Parse.Tame IsEnd 1 n (commaBody p items) (commaBody p' items) :=
  tame_after hp fun _ => tame_ifKind (by decide) (fun _ => .pure _) (Nat.zero_le 1) (.pure _)

/-- Another turn of the loop has taken an item. -/
theorem commaBody_goes {p : P α} (hp : ∀ n, Parse.Tame IsEnd 1 n p p) (items : List α)
    (ts : List Token) (items' : List α) (rest : List Token)
    (h : commaBody p items ts = .ok (.inl items', rest)) : rest.length < ts.length :=
  (tame_commaBody (hp _) items).shorter (Nat.lt_succ_self _) h

theorem tame_enclosed {opening closing : TokenKind} (ho : opening ≠ .end_) (hc : closing ≠ .end_)
    {p p' : P α} (hp : Parse.Tame IsEnd 1 (n - 1) p p') :
    Parse.Tame IsEnd 1 n (enclosed opening closing p) (enclosed opening closing p') := by
  have hitems : ∀ t : Token, Parse.Tame IsEnd 0 (n - 1)
      (if t.kind ≠ closing then Parse.repeat_ (commaBody p) [] else pure [])
      (if t.kind ≠ closing then Parse.repeat_ (commaBody p') [] else pure []) := fun t =>
    .ite (fun _ => tame_loosen (Parse.Tame.repeat_one (tame_commaBody hp) [])) fun _ => .pure _
  exact tame_expect_bind ho fun _ => .bind₀ .peek fun t => .bind₀ (hitems t) fun _ =>
    tame_loosen <| tame_expect_bind hc fun _ => .pure _

end Steps

/-! ## Expressions -/

section Levels

variable {ops : List (TokenKind × Char)} {n : Nat} {p p' : P Expr}

/-- The operator that a token is. -/
def isOperator (ops : List (TokenKind × Char)) (t : Token) : Bool := (ops.lookup t.kind).isSome

/-- The step of a level takes the operator and the operand behind it. -/
theorem binaryBody_eq (ops : List (TokenKind × Char)) (operand : P Expr) (left : Expr) :
    binaryBody ops operand left = Parse.ifNext (isOperator ops)
      (fun t => operand >>= fun right =>
        pure (.inl (.binary ((ops.lookup t.kind).getD ' ') left right)))
      (pure (.inr left)) := by
  funext ts
  cases ts with
  | nil => rfl
  | cons t ts =>
    rw [Parse.ifNext_cons, binaryBody, Parse.bind_eq_of_ok (Parse.peek_cons t ts), isOperator]
    cases ops.lookup t.kind with
    | none => rfl
    | some op => rfl

theorem tame_binaryBody (hops : ops.lookup .end_ = none) (hp : Parse.Tame IsEnd 1 n p p')
    (left : Expr) : Parse.Tame IsEnd 0 n (binaryBody ops p left) (binaryBody ops p' left) := by
  rw [binaryBody_eq, binaryBody_eq]
  refine Parse.Tame.ifNext (fun t ht hend => ?_) (fun t => ?_) (Nat.zero_le 1) (.pure _)
  · rw [isOperator, show t.kind = .end_ from hend, hops] at ht
    cases ht
  · exact tame_loosen (tame_after (hp.mono (Nat.le_refl 1) (Nat.sub_le n 1)) fun _ => .pure _)

/-- Another turn of the loop has taken the operator. -/
theorem binaryBody_goes (hp : Parse.Tame IsEnd 1 n p p') {left left' : Expr}
    {ts rest : List Token} (hn : ts.length < n) (h : binaryBody ops p left ts = .ok (.inl left', rest)) :
    rest.length < ts.length := by
  rw [binaryBody_eq] at h
  rcases Parse.ifNext_eq_ok.mp h with ⟨t, ts', rfl, -, h⟩ | ⟨_, _, -, -, h⟩
  · obtain ⟨right, mid, hright, h⟩ := Parse.bind_eq_ok.mp h
    obtain ⟨-, rfl⟩ := Parse.pure_eq_ok.mp h
    rw [List.length_cons] at hn ⊢
    exact (hp.shorter (Nat.lt_of_succ_lt hn) hright).trans (Nat.lt_succ_self _)
  · cases (Parse.pure_eq_ok.mp h).1

theorem tame_binaryLevel (hops : ops.lookup .end_ = none) (hp : Parse.Tame IsEnd 1 n p p') :
    Parse.Tame IsEnd 1 n (binaryLevel ops p) (binaryLevel ops p') := by
  refine tame_after hp fun left => Parse.Tame.mono ?_ (Nat.le_refl 0) (Nat.sub_le n 1)
  exact Parse.Tame.repeat_ (tame_binaryBody hops hp)
    (fun _ _ _ _ hn h => binaryBody_goes hp hn h) left

end Levels

section Expressions

variable {n : Nat} {p p' : P Expr}

theorem tame_parseArgList (hp : Parse.Tame IsEnd 1 (n - 1) p p') :
    Parse.Tame IsEnd 1 n (parseArgList p) (parseArgList p') :=
  tame_enclosed (by decide) (by decide) hp

theorem tame_parseMember (hp : Parse.Tame IsEnd 1 n p p') (name : String) :
    Parse.Tame IsEnd 0 n (parseMember p name) (parseMember p' name) :=
  tame_loosen <| tame_after tame_identifier fun _ => .bind₀ .peek fun _ => .ite
    (fun _ => tame_loosen <| tame_after
      (tame_parseArgList (hp.mono (Nat.le_refl 1) (by omega))) fun _ => .pure _)
    (fun _ => tame_ifKind (by decide)
      (fun _ => tame_loosen (tame_after tame_identifier fun _ => .pure _)) (Nat.zero_le 1)
      (.pure _))

theorem tame_parseName (hp : Parse.Tame IsEnd 1 n p p') (name : String) :
    Parse.Tame IsEnd 0 n (parseName p name) (parseName p' name) :=
  .bind₀ .peek fun _ => .ite
    (fun _ => tame_loosen <| tame_after
      (tame_parseArgList (hp.mono (Nat.le_refl 1) (by omega))) fun _ => .pure _)
    (fun _ => tame_ifKind (by decide)
      (fun _ => tame_loosen <| tame_after (hp.mono (Nat.le_refl 1) (by omega)) fun _ =>
        tame_loosen <| tame_expect_bind (by decide) fun _ => .pure _) (Nat.zero_le 1) <|
    tame_ifKind (by decide) (fun _ => tame_parseMember (hp.mono (Nat.le_refl 1) (by omega)) name)
      (Nat.zero_le 1) (.pure _))

theorem stoi_error {text : String} {e : ParseError} (h : stoi text = .error e) :
    e = .thrown "stoi" := by
  have hite : ∀ {c : Prop} [Decidable c] {v : Int},
      (if c then Except.error (.thrown "stoi") else .ok v) = .error e → e = .thrown "stoi" := by
    intro c _ v h
    by_cases hc : c
    · rw [if_pos hc] at h
      exact (Except.error.inj h).symm
    · rw [if_neg hc] at h
      cases h
  exact hite h

theorem tame_integerLiteral (t : Token) :
    Parse.Tame IsEnd 0 n (integerLiteral t) (integerLiteral t) := by
  rw [integerLiteral]
  cases h : stoi t.text with
  | ok value => exact .pure value
  | error e =>
    rw [stoi_error h]
    exact .fail "stoi"

/-- The expressions in brackets are shorter. -/
theorem tame_parsePrimary (hp : Parse.Tame IsEnd 1 (n - 1) p p') :
    Parse.Tame IsEnd 1 n (parsePrimary p) (parsePrimary p') :=
  tame_ifKind (by decide) (fun t => .bind₀ (tame_integerLiteral t) fun _ => .pure _)
    (Nat.le_refl 1) <|
  tame_ifKind (by decide) (fun t => tame_parseName hp t.text) (Nat.le_refl 1) <|
  tame_ifKind (by decide) (fun _ => tame_loosen <| tame_after hp fun _ =>
    tame_loosen <| tame_expect_bind (by decide) fun _ => .pure _) (Nat.le_refl 1) <|
  tame_ifKind (by decide) (fun _ => tame_loosen <| tame_expect_bind (by decide) fun _ =>
    tame_loosen <| tame_expect_bind (by decide) fun _ =>
    tame_loosen <| tame_expect_bind (by decide) fun _ => .pure _) (Nat.le_refl 1) <|
  .bind₀ .peek fun _ => .fail _

theorem tame_unaryStep (hp : Parse.Tame IsEnd 1 (n - 1) p p') {u u' : P Expr}
    (hu : Parse.Tame IsEnd 1 (n - 1) u u') :
    Parse.Tame IsEnd 1 n (unaryStep p u) (unaryStep p' u') :=
  tame_ifKind (by decide) (fun _ => tame_loosen (tame_after hu fun _ => .pure _))
    (Nat.le_refl 1) <|
  tame_ifKind (by decide) (fun _ => tame_loosen (tame_after tame_identifier fun _ => .pure _))
    (Nat.le_refl 1) <|
  tame_ifKind (by decide) (fun _ => tame_loosen (tame_after hu fun _ => .pure _))
    (Nat.le_refl 1) <|
  tame_parsePrimary hp

theorem tame_parseUnary (hp : Parse.Tame IsEnd 1 (n - 1) p p') :
    Parse.Tame IsEnd 1 n (parseUnary p) (parseUnary p') :=
  Parse.Tame.recur fun _ _ _ hm hu =>
    tame_unaryStep (hp.mono (Nat.le_refl 1) (Nat.le_sub_one_of_lt hm)) hu

theorem tame_parseMultiplicative (hp : Parse.Tame IsEnd 1 (n - 1) p p') :
    Parse.Tame IsEnd 1 n (parseMultiplicative p) (parseMultiplicative p') :=
  tame_binaryLevel rfl (tame_parseUnary hp)

theorem tame_parseAdditive (hp : Parse.Tame IsEnd 1 (n - 1) p p') :
    Parse.Tame IsEnd 1 n (parseAdditive p) (parseAdditive p') :=
  tame_binaryLevel rfl (tame_parseMultiplicative hp)

theorem tame_parseComparison (hp : Parse.Tame IsEnd 1 (n - 1) p p') :
    Parse.Tame IsEnd 1 n (parseComparison p) (parseComparison p') :=
  tame_binaryLevel rfl (tame_parseAdditive hp)

theorem tame_parseEquality (hp : Parse.Tame IsEnd 1 (n - 1) p p') :
    Parse.Tame IsEnd 1 n (parseEquality p) (parseEquality p') :=
  tame_binaryLevel rfl (tame_parseComparison hp)

theorem tame_parseExpression : Parse.Tame IsEnd 1 n parseExpression parseExpression :=
  Parse.Tame.recur fun _ _ _ _ hp => tame_parseEquality hp

theorem parseExpression_eq : parseExpression = parseEquality parseExpression :=
  Parse.recur_eq fun _ _ _ (hp : Parse.Tame IsEnd 1 _ _ _) => tame_parseEquality hp

theorem parseUnary_eq : parseUnary parseExpression =
    unaryStep parseExpression (parseUnary parseExpression) :=
  Parse.recur_eq fun _ _ _ (hu : Parse.Tame IsEnd 1 _ _ _) => tame_unaryStep tame_parseExpression hu

end Expressions

/-! ## Statements -/

section Statements

variable {n : Nat}

/-- An expression and a semicolon at the end of a statement. -/
theorem tame_value (f : Expr → Statement) : Parse.Tame IsEnd 1 n
    (parseExpression >>= fun value => expect .semicolon >>= fun _ => pure (f value))
    (parseExpression >>= fun value => expect .semicolon >>= fun _ => pure (f value)) :=
  tame_after tame_parseExpression fun _ =>
    tame_loosen <| tame_expect_bind (by decide) fun _ => .pure _

/-- The same behind `=`. -/
theorem tame_equalValue (f : Expr → Statement) : Parse.Tame IsEnd 1 n
    (expect .equal >>= fun _ => parseExpression >>= fun value => expect .semicolon >>= fun _ =>
      pure (f value))
    (expect .equal >>= fun _ => parseExpression >>= fun value => expect .semicolon >>= fun _ =>
      pure (f value)) :=
  tame_expect_bind (by decide) fun _ => tame_loosen (tame_value f)

theorem tame_parseLet : Parse.Tame IsEnd 1 n parseLet parseLet :=
  tame_after tame_identifier fun _ => tame_loosen <| tame_expect_bind (by decide) fun _ =>
    tame_loosen <| tame_after tame_parseType fun _ => tame_loosen <|
    tame_ifKind (by decide) (fun _ => tame_loosen <| tame_expect_bind (by decide) fun t =>
      .bind₀ (tame_integerLiteral t) fun _ => tame_loosen <| tame_expect_bind (by decide) fun _ =>
        tame_loosen <| tame_expect_bind (by decide) fun _ => .pure _) (Nat.le_refl 1) <|
    tame_ifKind (by decide) (fun _ => .pure _) (Nat.le_refl 1) <|
    tame_equalValue _

theorem tame_parseReturn : Parse.Tame IsEnd 1 n parseReturn parseReturn := tame_value _

theorem tame_parseAssign : Parse.Tame IsEnd 1 n parseAssign parseAssign :=
  tame_after tame_identifier fun _ => tame_loosen (tame_equalValue _)

theorem tame_parseIndexStore : Parse.Tame IsEnd 1 n parseIndexStore parseIndexStore :=
  tame_after tame_identifier fun _ => tame_loosen <| tame_expect_bind (by decide) fun _ =>
    tame_loosen <| tame_after tame_parseExpression fun _ => tame_loosen <|
    tame_expect_bind (by decide) fun _ => tame_loosen (tame_equalValue _)

theorem tame_parseFieldStore : Parse.Tame IsEnd 1 n parseFieldStore parseFieldStore :=
  tame_after tame_identifier fun _ => tame_loosen <| tame_expect_bind (by decide) fun _ =>
    tame_loosen <| tame_after tame_identifier fun _ => tame_loosen (tame_equalValue _)

theorem tame_parseStore : Parse.Tame IsEnd 1 n parseStore parseStore :=
  tame_expect_bind (by decide) fun _ => tame_loosen <|
    tame_after (tame_parseUnary tame_parseExpression) fun _ => tame_loosen (tame_equalValue _)

variable {p p' : P Statement}

theorem tame_blockBody (hp : Parse.Tame IsEnd 1 n p p') (body : List Statement) :
    Parse.Tame IsEnd 0 n (blockBody p body) (blockBody p' body) :=
  .bind₀ .peek fun _ => .ite (fun _ => tame_loosen (tame_after hp fun _ => .pure _))
    fun _ => .pure _

/-- Another turn of the loop has taken a statement. -/
theorem blockBody_goes (hp : Parse.Tame IsEnd 1 n p p') {body body' : List Statement}
    {ts rest : List Token} (hn : ts.length < n)
    (h : blockBody p body ts = .ok (.inl body', rest)) : rest.length < ts.length := by
  obtain ⟨t, mid, hpeek, h⟩ := Parse.bind_eq_ok.mp h
  obtain ⟨rfl, -⟩ := Parse.peek_eq_ok.mp hpeek
  split at h
  · obtain ⟨statement, mid, hstatement, h⟩ := Parse.bind_eq_ok.mp h
    obtain ⟨-, rfl⟩ := Parse.pure_eq_ok.mp h
    exact hp.shorter hn hstatement
  · cases (Parse.pure_eq_ok.mp h).1

theorem tame_parseBlock (hp : Parse.Tame IsEnd 1 n p p') :
    Parse.Tame IsEnd 1 n (parseBlock p) (parseBlock p') :=
  .bind₀ (Parse.Tame.repeat_ (tame_blockBody hp) (fun _ _ _ _ hn h => blockBody_goes hp hn h) [])
    fun _ => tame_expect_bind (by decide) fun _ => .pure _

/-- A block is shorter than its statement. -/
theorem tame_parseWhile (hp : Parse.Tame IsEnd 1 (n - 1) p p') :
    Parse.Tame IsEnd 1 n (parseWhile p) (parseWhile p') :=
  tame_expect_bind (by decide) fun _ => tame_loosen <| tame_expect_bind (by decide) fun _ =>
    tame_loosen <| tame_after tame_parseExpression fun _ => tame_loosen <|
    tame_expect_bind (by decide) fun _ => tame_loosen <| tame_expect_bind (by decide) fun _ =>
    tame_loosen <| tame_after (tame_parseBlock (hp.mono (Nat.le_refl 1) (by omega))) fun _ =>
    .pure _

theorem tame_parseIf (hp : Parse.Tame IsEnd 1 (n - 1) p p') :
    Parse.Tame IsEnd 1 n (parseIf p) (parseIf p') :=
  tame_expect_bind (by decide) fun _ => tame_loosen <| tame_expect_bind (by decide) fun _ =>
    tame_loosen <| tame_after tame_parseExpression fun _ => tame_loosen <|
    tame_expect_bind (by decide) fun _ => tame_loosen <| tame_expect_bind (by decide) fun _ =>
    tame_loosen <| tame_after (tame_parseBlock (hp.mono (Nat.le_refl 1) (by omega))) fun _ =>
    tame_ifKind (by decide) (fun _ => tame_loosen <| tame_expect_bind (by decide) fun _ =>
      tame_loosen <| tame_after (tame_parseBlock (hp.mono (Nat.le_refl 1) (by omega))) fun _ =>
      .pure _) (Nat.zero_le 1) (.pure _)

theorem tame_statementStep (hp : Parse.Tame IsEnd 1 (n - 1) p p') :
    Parse.Tame IsEnd 1 n (statementStep p) (statementStep p') :=
  tame_ifKind (by decide) (fun _ => tame_loosen tame_parseLet) (Nat.le_refl 1) <|
  tame_ifKind (by decide) (fun _ => tame_loosen tame_parseReturn) (Nat.le_refl 1) <|
  .bind₀ .peek fun _ => .bind₀ .peekNext fun _ =>
    .ite (fun _ => tame_parseIf hp) fun _ =>
    .ite (fun _ => tame_parseWhile hp) fun _ =>
    .ite (fun _ => tame_parseAssign) fun _ =>
    .ite (fun _ => tame_parseIndexStore) fun _ =>
    .ite (fun _ => tame_parseFieldStore) fun _ =>
    .ite (fun _ => tame_parseStore) fun _ => .fail _

theorem tame_parseStatement : Parse.Tame IsEnd 1 n parseStatement parseStatement :=
  Parse.Tame.recur fun _ _ _ _ hp => tame_statementStep hp

theorem parseStatement_eq : parseStatement = statementStep parseStatement :=
  Parse.recur_eq fun _ _ _ (hp : Parse.Tame IsEnd 1 _ _ _) => tame_statementStep hp

end Statements

/-! ## Declarations -/

section Declarations

variable {n : Nat}

theorem tame_parseImportDecl : Parse.Tame IsEnd 1 n parseImportDecl parseImportDecl :=
  tame_expect_bind (by decide) fun _ => tame_loosen <| tame_after tame_identifier fun _ =>
    tame_loosen <| tame_expect_bind (by decide) fun _ => .pure _

theorem tame_parseEnumDecl : Parse.Tame IsEnd 1 n parseEnumDecl parseEnumDecl :=
  tame_expect_bind (by decide) fun _ => tame_loosen <| tame_after tame_identifier fun _ =>
    tame_loosen <| tame_after (tame_enclosed (by decide) (by decide) tame_identifier) fun _ =>
    .pure _

theorem tame_parseStructDecl : Parse.Tame IsEnd 1 n parseStructDecl parseStructDecl :=
  tame_expect_bind (by decide) fun _ => tame_loosen <| tame_after tame_identifier fun _ =>
    tame_loosen <| tame_after (tame_enclosed (by decide) (by decide) tame_param) fun _ => .pure _

theorem tame_parseFunction : Parse.Tame IsEnd 1 n parseFunction parseFunction :=
  tame_expect_bind (by decide) fun _ => tame_loosen <| tame_after tame_identifier fun _ =>
    tame_loosen <| tame_after (tame_enclosed (by decide) (by decide) tame_param) fun _ =>
    tame_loosen <| tame_expect_bind (by decide) fun _ => tame_loosen <|
    tame_after tame_parseType fun _ => tame_loosen <| tame_expect_bind (by decide) fun _ =>
    tame_loosen <| tame_after (tame_parseBlock tame_parseStatement) fun _ => .pure _

/-- A turn of the loop of `parseProgram` with a declaration. -/
theorem tame_declaration {α : Type} {p : P α} (hp : Parse.Tame IsEnd 1 n p p)
    (f : α → Program) : Parse.Tame IsEnd 1 n
      (p >>= fun x => (pure (.inl (f x)) : P (Program ⊕ Program)))
      (p >>= fun x => pure (.inl (f x))) :=
  tame_after hp fun _ => .pure _

theorem tame_programBody (program : Program) :
    Parse.Tame IsEnd 0 n (programBody program) (programBody program) :=
  .bind₀ .peek fun _ => .ite (fun _ => .pure _) fun _ => tame_loosen <|
    .ite (fun _ => tame_declaration tame_parseImportDecl _) fun _ =>
    .ite (fun _ => tame_declaration tame_parseStructDecl _) fun _ =>
    .ite (fun _ => tame_declaration tame_parseEnumDecl _) fun _ =>
    tame_declaration tame_parseFunction _

/-- Another turn of the loop has taken a declaration. -/
theorem programBody_goes {program program' : Program} {ts rest : List Token}
    (h : programBody program ts = .ok (.inl program', rest)) : rest.length < ts.length := by
  have hdecl : ∀ {p : P (Program ⊕ Program)} {mid : List Token},
      Parse.Tame IsEnd 1 (mid.length + 1) p p → p mid = .ok (.inl program', rest) →
      rest.length < mid.length := fun hp h => hp.shorter (Nat.lt_succ_self _) h
  obtain ⟨t, mid, hpeek, h⟩ := Parse.bind_eq_ok.mp h
  obtain ⟨rfl, -⟩ := Parse.peek_eq_ok.mp hpeek
  split at h
  · cases (Parse.pure_eq_ok.mp h).1
  · refine hdecl ?_ h
    exact .ite (fun _ => tame_declaration tame_parseImportDecl _) fun _ =>
      .ite (fun _ => tame_declaration tame_parseStructDecl _) fun _ =>
      .ite (fun _ => tame_declaration tame_parseEnumDecl _) fun _ =>
      tame_declaration tame_parseFunction _

theorem tame_parseProgram : Parse.Tame IsEnd 0 n parseProgram parseProgram :=
  Parse.Tame.repeat_ tame_programBody (fun _ _ _ _ _ h => programBody_goes h) _

end Declarations

/-! ## Runs -/

/-- The bodies of the loops of the parser. -/
inductive Loop : {σ ρ : Type} → (σ → P (σ ⊕ ρ)) → Prop
  | program : Loop programBody
  | variants : Loop (commaBody identifier)
  | params : Loop (commaBody param)
  | block : Loop (blockBody parseStatement)
  | args : Loop (commaBody parseExpression)
  | equality : Loop (binaryBody equalityOps (parseComparison parseExpression))
  | comparison : Loop (binaryBody comparisonOps (parseAdditive parseExpression))
  | additive : Loop (binaryBody additiveOps (parseMultiplicative parseExpression))
  | multiplicative : Loop (binaryBody multiplicativeOps (parseUnary parseExpression))

/-- Before the `End` token an iteration throws, leaves the loop or takes a token. -/
def Progresses {σ ρ : Type} (body : σ → P (σ ⊕ ρ)) : Prop :=
  ∀ s ts, Parse.Terminated IsEnd ts → (∃ m, body s ts = .error (.thrown m)) ∨
    ∃ r used rest, body s ts = .ok (r, rest) ∧ ts = used ++ rest ∧ Parse.Terminated IsEnd rest ∧
      (r.isLeft → used ≠ [])

theorem progresses_of_tame {σ ρ : Type} {body : σ → P (σ ⊕ ρ)}
    (h : ∀ n s, Parse.Tame IsEnd 0 n (body s) (body s))
    (hgo : ∀ s ts s' rest, body s ts = .ok (.inl s', rest) → rest.length < ts.length) :
    Progresses body := by
  intro s ts hts
  have hs := h (ts.length + 1) s
  rcases hs.safe ts (Nat.lt_succ_self _) hts with hthrown | ⟨r, rest, he, hrest⟩
  · exact .inl hthrown
  · obtain ⟨used, rfl, -⟩ := hs.takes ts r rest (Nat.lt_succ_self _) he
    refine .inr ⟨r, used, rest, he, rfl, hrest, fun hr hu => ?_⟩
    cases r with
    | inr x => cases hr
    | inl s' =>
      have := hgo s _ s' rest he
      rw [hu] at this
      exact Nat.lt_irrefl _ this

theorem progresses_commaBody {α : Type} {p : P α} (hp : ∀ n, Parse.Tame IsEnd 1 n p p) :
    Progresses (commaBody p) :=
  progresses_of_tame (fun n s => tame_loosen (tame_commaBody (hp n) s)) (commaBody_goes hp)

theorem progresses_binaryBody {ops : List (TokenKind × Char)} (hops : ops.lookup .end_ = none)
    {p : P Expr} (hp : ∀ n, Parse.Tame IsEnd 1 n p p) : Progresses (binaryBody ops p) :=
  progresses_of_tame (fun n s => tame_binaryBody hops (hp n) s)
    fun _ _ _ _ h => binaryBody_goes (hp _) (Nat.lt_succ_self _) h

theorem Loop.progresses {σ ρ : Type} {body : σ → P (σ ⊕ ρ)} (h : Loop body) : Progresses body := by
  cases h with
  | program =>
    exact progresses_of_tame (fun n s => tame_programBody s) fun _ _ _ _ h => programBody_goes h
  | variants => exact progresses_commaBody fun n => tame_identifier
  | params => exact progresses_commaBody fun n => tame_param
  | block =>
    exact progresses_of_tame (fun n s => tame_blockBody tame_parseStatement s)
      fun _ _ _ _ h => blockBody_goes tame_parseStatement (Nat.lt_succ_self _) h
  | args => exact progresses_commaBody fun n => tame_parseExpression
  | equality => exact progresses_binaryBody rfl fun n => tame_parseComparison tame_parseExpression
  | comparison => exact progresses_binaryBody rfl fun n => tame_parseAdditive tame_parseExpression
  | additive =>
    exact progresses_binaryBody rfl fun n => tame_parseMultiplicative tame_parseExpression
  | multiplicative => exact progresses_binaryBody rfl fun n => tame_parseUnary tame_parseExpression

/-- The loop of `parseProgram` ends at an `End` token. -/
theorem parseProgram_atEnd {tokens rest : List Token} {program : Program}
    (h : parseProgram tokens = .ok (program, rest)) : ∃ e rest', rest = e :: rest' ∧ IsEnd e := by
  have hdecl : ∀ {α : Type} {p : P α} {f : α → Program} {ts : List Token},
      (p >>= fun x => (pure (.inl (f x)) : P (Program ⊕ Program))) ts ≠ .ok (.inr program, rest) := by
    intro α p f ts h
    obtain ⟨_, _, _, h⟩ := Parse.bind_eq_ok.mp h
    cases (Parse.pure_eq_ok.mp h).1
  obtain ⟨program', mid, h⟩ := Parse.repeat_leaves h
  obtain ⟨t, mid', hpeek, h⟩ := Parse.bind_eq_ok.mp h
  obtain ⟨rfl, rest', rfl⟩ := Parse.peek_eq_ok.mp hpeek
  split at h
  · rename_i hend
    obtain ⟨-, rfl⟩ := Parse.pure_eq_ok.mp h
    exact ⟨t, rest', rfl, hend⟩
  · exfalso
    split at h
    · exact hdecl h
    · split at h
      · exact hdecl h
      · split at h
        · exact hdecl h
        · exact hdecl h

/-- The parser takes all tokens before `End`. -/
theorem parseProgram_takes {tokens rest : List Token} (h : Parse.Terminated IsEnd tokens)
    {program : Program} (he : parseProgram tokens = .ok (program, rest)) :
    ∃ e, rest = [e] ∧ IsEnd e := by
  rcases tame_parseProgram.safe tokens (Nat.lt_succ_self _) h with ⟨m, hm⟩ | ⟨_, rest', he', hr⟩
  · rw [hm] at he
    cases he
  · rw [he'] at he
    cases he
    obtain ⟨e, rest', rfl, hend⟩ := parseProgram_atEnd he'
    obtain ⟨front, e', heq, -, hfront⟩ := hr
    cases front with
    | nil =>
      cases heq
      exact ⟨e, rfl, hend⟩
    | cons u front =>
      cases heq
      exact absurd hend (hfront _ List.mem_cons_self)

/-- Where the tokens end with their only `End` token, the parser throws or takes all tokens before
it. Its recursions go on to shorter lists, so that each function satisfies its own definition, and
its loops progress. -/
theorem parseProgram_progress (tokens : List Token) (h : Parse.Terminated IsEnd tokens) :
    ((∃ m, parseProgram tokens = .error (.thrown m)) ∨
      ∃ program e, parseProgram tokens = .ok (program, [e]) ∧ IsEnd e) ∧
    (parseExpression = parseEquality parseExpression ∧
      parseUnary parseExpression = unaryStep parseExpression (parseUnary parseExpression) ∧
      parseStatement = statementStep parseStatement) ∧
    ∀ {σ ρ : Type} (body : σ → P (σ ⊕ ρ)), Loop body → Progresses body := by
  refine ⟨?_, ⟨parseExpression_eq, parseUnary_eq, parseStatement_eq⟩, fun _ hl => hl.progresses⟩
  rcases tame_parseProgram.safe tokens (Nat.lt_succ_self _) h with hthrown | ⟨program, rest, he, hr⟩
  · exact .inl hthrown
  · obtain ⟨e, rfl, hend⟩ := parseProgram_takes h he
    exact .inr ⟨program, e, he, hend⟩

/-- `import m;`. -/
def importTokens : List Token :=
  [⟨.import_, "import", 1, 1⟩, ⟨.identifier, "m", 1, 8⟩, ⟨.semicolon, ";", 1, 9⟩,
    ⟨.end_, "", 1, 10⟩]

theorem parseProgram_progress_import :
    ∃ program e, parseProgram importTokens = .ok (program, [e]) ∧ IsEnd e := by
  refine (parseProgram_progress importTokens ?_).1.resolve_left ?_
  · exact ⟨importTokens.take 3, ⟨.end_, "", 1, 10⟩, rfl, rfl, by unfold IsEnd; decide⟩
  · rintro ⟨m, h⟩
    cases h

end Parser
end Oglang
end Techuila
