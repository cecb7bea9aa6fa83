import Techuila.Oglang.Grammar
import Techuila.Oglang.ParserProgress

/-!
# What the parser accepts (`parser/parser.cpp`)

Each parsing function takes tokens that print what it returns.

* `reads_parseExpression`, `reads_parseStatement`, `reads_parseProgram`.
* `Digital`: the tokens are those of a lexer, whose numbers have digits.
-/

namespace Techuila
namespace Oglang

/-- A number has digits. -/
def Digital (t : Token) : Prop :=
  t.kind = .integer → t.text.toList ≠ [] ∧ ∀ c ∈ t.text.toList, c.isDigit = true

theorem integer_of_stoi {t : Token} (hkind : t.kind = .integer) (hd : Digital t) {value : Int}
    (h : stoi t.text = .ok value) : Numeral t value := by
  obtain ⟨hne, hdigits⟩ := hd hkind
  rw [stoi_digits hne hdigits] at h
  split at h
  · rename_i hlt
    cases h
    exact ⟨hkind, hne, hdigits, rfl, hlt⟩
  · cases h

namespace Parser

section Items

variable {α β : Type} {n : Nat} {kind : TokenKind}

theorem reads_ifKind {yes : Token → P α} {no : P α} {R : α → List Token → Prop}
    (hyes : ∀ t, t.kind = kind → Digital t →
      Parse.Reads Digital (n - 1) (yes t) fun x b => R x (t :: b))
    (hno : Parse.Reads Digital n no R) : Parse.Reads Digital n (ifKind kind yes no) R :=
  .ifNext (fun t hc hL => hyes t (beq_iff_eq.mp hc) hL) hno

theorem reads_expect : Parse.Reads Digital n (expect kind) fun t used =>
    used = [t] ∧ t.kind = kind ∧ Digital t :=
  reads_ifKind (fun _ ht hd => .pure ⟨rfl, ht, hd⟩) (.peek_bind fun _ => .fail)

theorem reads_expect_bind {q : Token → P β} {S : β → List Token → Prop}
    (hq : ∀ t, t.kind = kind → Digital t →
      Parse.Reads Digital (n - 1) (q t) fun y b => S y (t :: b)) :
    Parse.Reads Digital n (expect kind >>= q) S := by
  refine .bind reads_expect ?_
  rintro t _ ⟨rfl, ht, hd⟩
  exact hq t ht hd

theorem reads_identifier : Parse.Reads Digital n identifier PrintsName :=
  reads_expect_bind fun _ ht _ => .pure (.mk ht)

theorem reads_identifier_bind {q : String → P β} {S : β → List Token → Prop}
    (hq : ∀ t, t.kind = .identifier →
      Parse.Reads Digital (n - 1) (q t.text) fun y b => S y (t :: b)) :
    Parse.Reads Digital n (identifier >>= q) S := by
  refine .bind reads_identifier ?_
  rintro _ _ ⟨ht⟩
  exact hq _ ht

theorem reads_parseType : Parse.Reads Digital n parseType PrintsType := by
  refine reads_ifKind (fun _ ht _ => .pure (.i32 ht)) <|
    reads_ifKind (fun _ ht _ => .pure (.ptr ht)) <|
    reads_ifKind (fun _ ht _ => .pure (.constptr ht)) <|
    reads_ifKind (fun t ht _ => reads_ifKind (fun dot hdot _ => ?_) (.pure (.path (.name ht))))
      .fail
  exact reads_identifier_bind fun u hu => .pure (.path (.dotted ht hdot hu))

theorem reads_param : Parse.Reads Digital n param Param.Prints := by
  refine reads_identifier_bind fun t ht => reads_expect_bind fun colon hcolon _ => ?_
  exact .bind_pure reads_parseType fun type a ha => .mk ht hcolon ha

/-- The items that a loop has taken, with a comma behind them where there are any. -/
def Pending (R : α → List Token → Prop) (items : List α) (used : List Token) : Prop :=
  (items = [] ∧ used = []) ∨ ∃ lists inner comma, lists ≠ [] ∧ List.Forall₂ R items lists ∧
    Joins lists inner ∧ comma.kind = .comma ∧ used = inner ++ [comma]

theorem reads_items {item : P α} {R : α → List Token → Prop}
    (hitem : Parse.Reads Digital n item R) :
    Parse.Reads Digital n (Parse.repeat_ (commaBody item) []) (PrintsItems R) := by
  have hone : ∀ items used x b, Pending R items used → R x b →
      PrintsItems R (items ++ [x]) (used ++ b) := by
    rintro items used x b (⟨rfl, rfl⟩ | ⟨lists, inner, comma, hne, hlists, hjoins, hcomma, rfl⟩) hb
    · exact ⟨[b], .cons hb .nil, .one⟩
    · refine ⟨lists ++ [b], List.rel_append hlists (.cons hb .nil), ?_⟩
      rw [List.append_assoc]
      exact hjoins.concat hne hcomma b
  refine .repeat_ (Pending R) (fun items used hI => .bind hitem fun x b hb => ?_)
    (.inl ⟨rfl, rfl⟩)
  have hitems := hone items used x b hI hb
  refine reads_ifKind (fun comma hcomma _ => .pure ?_) (.pure ?_)
  · obtain ⟨lists, hlists, hjoins⟩ := hitems
    refine .inr ⟨lists, used ++ b, comma, ?_, hlists, hjoins, hcomma, (List.append_assoc _ _ _).symm⟩
    rintro rfl
    have := hlists.length_eq
    simp at this
  · show PrintsItems R (items ++ [x]) (used ++ (b ++ []))
    rw [List.append_nil]
    exact hitems

theorem reads_enclosed {opening closing : TokenKind} {item : P α} {R : α → List Token → Prop}
    (hitem : Parse.Reads Digital (n - 1) item R) :
    Parse.Reads Digital n (enclosed opening closing item) (Encloses opening closing R) := by
  refine reads_expect_bind fun l hl _ => .peek_bind fun t => ?_
  refine .bind (R := PrintsItems R) (.ite (fun _ => reads_items hitem)
    fun _ => .pure ⟨[], .nil, .nil⟩) fun items inner hinner => ?_
  exact reads_expect_bind fun r hr _ => .pure ⟨l, r, inner, hl, hr, hinner, rfl⟩

end Items

/-! ## Expressions -/

section Levels

variable {n k : Nat} {operand : P Expr}

/-- What the loop of a level builds is of that level. -/
theorem reads_binaryLevel (hk : k < 5) (h : Parse.Reads Digital n operand (Expr.Prints (k + 1))) :
    Parse.Reads Digital n (binaryLevel (operatorsAt k) operand) (Expr.Prints k) := by
  refine .bind h fun left a ha => ?_
  refine .repeat_ (fun e used => e.Prints k (a ++ used)) (fun e used he => ?_)
    (by rw [List.append_nil]; exact .lift hk ha)
  rw [binaryBody_eq]
  refine .ifNext (fun t ht _ => ?_) (.pure (by rw [List.append_nil]; exact he))
  obtain ⟨c, hc⟩ := Option.isSome_iff_exists.mp ht
  rw [hc]
  refine .bind (h.mono (by omega)) fun right b hb => .pure ?_
  obtain ⟨l₁, l₂, hops, -⟩ := List.lookup_eq_some_iff.mp hc
  have hmem : (t.kind, c) ∈ operatorsAt k := by rw [hops]; simp
  show Expr.Prints k _ (a ++ (used ++ t :: (b ++ [])))
  rw [List.append_nil, ← List.append_assoc]
  exact .binary hmem he hb

end Levels

section Expressions

variable {n : Nat} {p : P Expr}

theorem reads_parseArgList (hp : Parse.Reads Digital (n - 1) p (Expr.Prints 0)) :
    Parse.Reads Digital n (parseArgList p) (Encloses .lParen .rParen (Expr.Prints 0)) :=
  reads_enclosed hp

/-- A call of the function that a path names. -/
theorem prints_call {callee : String} {name ts : List Token} {args : List Expr}
    (hname : PrintsPath callee name) (hargs : Encloses .lParen .rParen (Expr.Prints 0) args ts) :
    Expr.Prints 5 (.call callee args) (name ++ ts) := by
  obtain ⟨l, r, inner, hl, hr, ⟨lists, hlists, hjoins⟩, rfl⟩ := hargs
  obtain ⟨hlen, hzip⟩ := zip_of_forall₂ hlists
  exact .call hname hl hlen hzip hjoins hr

theorem reads_parseMember (hp : Parse.Reads Digital n p (Expr.Prints 0)) {name dot : Token}
    (hname : name.kind = .identifier) (hdot : dot.kind = .dot) :
    Parse.Reads Digital n (parseMember p name.text) fun e used =>
      e.Prints 5 (name :: dot :: used) := by
  refine reads_identifier_bind fun member hmember => .peek_bind fun t => .ite (fun _ => ?_)
    fun _ => ?_
  · exact .bind_pure (reads_parseArgList (hp.mono (by omega))) fun args b hb =>
      prints_call (.dotted hname hdot hmember) hb
  · refine reads_ifKind (fun dot' hdot' _ => reads_identifier_bind fun u hu => .pure ?_) (.pure ?_)
    · exact Expr.Prints.fieldAccess (.dotted hname hdot hmember) hdot' hu
    · exact Expr.Prints.fieldAccess (.name hname) hdot hmember

theorem reads_parseName (hp : Parse.Reads Digital n p (Expr.Prints 0)) {name : Token}
    (hname : name.kind = .identifier) :
    Parse.Reads Digital n (parseName p name.text) fun e used => e.Prints 5 (name :: used) := by
  refine .peek_bind fun t => .ite (fun _ => ?_) fun _ => ?_
  · exact .bind_pure (reads_parseArgList (hp.mono (by omega))) fun args b hb =>
      prints_call (.name hname) hb
  · refine reads_ifKind (fun l hl _ => ?_) <|
      reads_ifKind (fun dot hdot _ => reads_parseMember (hp.mono (by omega)) hname hdot)
      (.pure (.var hname))
    refine .bind (hp.mono (by omega)) fun e a ha => reads_expect_bind fun r hr _ => .pure ?_
    exact .index hname hl ha hr

theorem reads_integerLiteral {t : Token} (ht : t.kind = .integer) (hd : Digital t) :
    Parse.Reads Digital n (integerLiteral t) fun value used => used = [] ∧ Numeral t value := by
  rw [integerLiteral]
  cases h : stoi t.text with
  | ok value => exact .pure ⟨rfl, integer_of_stoi ht hd h⟩
  | error e => exact fun _ _ _ _ _ he => by cases he

theorem reads_parsePrimary (hp : Parse.Reads Digital (n - 1) p (Expr.Prints 0)) :
    Parse.Reads Digital n (parsePrimary p) (Expr.Prints 5) := by
  refine reads_ifKind (fun t ht hd => ?_) <| reads_ifKind (fun t ht _ => reads_parseName hp ht) <|
    reads_ifKind (fun l hl _ => ?_) <| reads_ifKind (fun t ht _ => ?_) <| .peek_bind fun _ => .fail
  · refine .bind (reads_integerLiteral ht hd) ?_
    rintro value _ ⟨rfl, hvalue⟩
    exact .pure (.integer hvalue)
  · exact .bind hp fun e a ha => reads_expect_bind fun r hr _ => .pure (.paren hl ha hr)
  · exact reads_expect_bind fun l hl _ => reads_expect_bind fun text htext _ =>
      reads_expect_bind fun r hr _ => .pure (.asm ht hl htext hr)

theorem reads_unaryStep (hp : Parse.Reads Digital (n - 1) p (Expr.Prints 0)) {u : P Expr}
    (hu : Parse.Reads Digital (n - 1) u (Expr.Prints 4)) :
    Parse.Reads Digital n (unaryStep p u) (Expr.Prints 4) := by
  refine reads_ifKind (fun t ht _ => ?_) <| reads_ifKind (fun t ht _ => ?_) <|
    reads_ifKind (fun t ht _ => ?_) <| (reads_parsePrimary hp).imp fun _ _ h => .lift (by decide) h
  · exact .bind_pure hu fun e a ha => .unary ht ha
  · exact reads_identifier_bind fun name hname => .pure (.addressOf ht hname)
  · exact .bind_pure hu fun e a ha => .deref ht ha

theorem reads_parseUnary (hp : Parse.Reads Digital (n - 1) p (Expr.Prints 0)) :
    Parse.Reads Digital n (parseUnary p) (Expr.Prints 4) :=
  .recur fun _ _ hm hu => reads_unaryStep (hp.mono (Nat.le_sub_one_of_lt hm)) hu

theorem reads_parseEquality (hp : Parse.Reads Digital (n - 1) p (Expr.Prints 0)) :
    Parse.Reads Digital n (parseEquality p) (Expr.Prints 0) :=
  reads_binaryLevel (k := 0) (by decide) <| reads_binaryLevel (k := 1) (by decide) <|
    reads_binaryLevel (k := 2) (by decide) <| reads_binaryLevel (k := 3) (by decide) <|
    reads_parseUnary hp

theorem reads_parseExpression : Parse.Reads Digital n parseExpression (Expr.Prints 0) :=
  .recur fun _ _ _ hp => reads_parseEquality hp

end Expressions

/-! ## Statements -/

section Statements

variable {n : Nat}

/-- An expression and a semicolon at the end of a statement. -/
theorem reads_value {f : Expr → Statement} {S : Statement → List Token → Prop}
    (hS : ∀ e a semi, e.Prints 0 a → semi.kind = .semicolon → S (f e) (a ++ [semi])) :
    Parse.Reads Digital n
      (parseExpression >>= fun value => expect .semicolon >>= fun _ => pure (f value)) S :=
  .bind reads_parseExpression fun e a ha => reads_expect_bind fun semi hsemi _ =>
    .pure (hS e a semi ha hsemi)

/-- The same behind `=`. -/
theorem reads_equalValue {f : Expr → Statement} {S : Statement → List Token → Prop}
    (hS : ∀ equal e a semi, equal.kind = .equal → e.Prints 0 a → semi.kind = .semicolon →
      S (f e) (equal :: (a ++ [semi]))) :
    Parse.Reads Digital n (expect .equal >>= fun _ =>
      parseExpression >>= fun value => expect .semicolon >>= fun _ => pure (f value)) S :=
  reads_expect_bind fun equal hequal _ =>
    reads_value fun e a semi ha hsemi => hS equal e a semi hequal ha hsemi

theorem reads_parseLet {t : Token} (ht : t.kind = .let_) :
    Parse.Reads Digital n parseLet fun s used => s.Prints (t :: used) := by
  refine reads_identifier_bind fun name hname => reads_expect_bind fun colon hcolon _ =>
    .bind reads_parseType fun type a ha => ?_
  refine reads_ifKind (fun l hl _ => ?_) <| reads_ifKind (fun semi hsemi _ => .pure ?_) <|
    reads_equalValue fun equal e b semi hequal hb hsemi => ?_
  · refine reads_expect_bind fun size hsize hd => .bind (reads_integerLiteral hsize hd) ?_
    rintro value _ ⟨rfl, hvalue⟩
    refine reads_expect_bind fun r hr _ => reads_expect_bind fun semi hsemi _ => .pure ?_
    exact .arrayDecl ht hname hcolon ha hl hvalue hr hsemi
  · exact .structVarDecl ht hname hcolon ha hsemi
  · exact .letStmt ht hname hcolon ha hequal hb hsemi

theorem reads_parseReturn {t : Token} (ht : t.kind = .return_) :
    Parse.Reads Digital n parseReturn fun s used => s.Prints (t :: used) :=
  reads_value fun _ _ _ ha hsemi => .returnStmt ht ha hsemi

theorem reads_parseAssign : Parse.Reads Digital n parseAssign Statement.Prints :=
  reads_identifier_bind fun _ hname => reads_equalValue fun _ _ _ _ hequal ha hsemi =>
    .assignStmt hname hequal ha hsemi

theorem reads_parseIndexStore : Parse.Reads Digital n parseIndexStore Statement.Prints := by
  refine reads_identifier_bind fun name hname => reads_expect_bind fun l hl _ =>
    .bind reads_parseExpression fun index a ha => reads_expect_bind fun r hr _ => ?_
  exact reads_equalValue fun _ _ _ _ hequal hb hsemi => .indexStore hname hl ha hr hequal hb hsemi

theorem reads_parseFieldStore : Parse.Reads Digital n parseFieldStore Statement.Prints := by
  refine reads_identifier_bind fun name hname => reads_expect_bind fun dot hdot _ =>
    reads_identifier_bind fun field hfield => ?_
  exact reads_equalValue fun _ _ _ _ hequal ha hsemi => .fieldStore hname hdot hfield hequal ha hsemi

theorem reads_parseStore : Parse.Reads Digital n parseStore Statement.Prints := by
  refine reads_expect_bind fun star hstar _ =>
    .bind (reads_parseUnary reads_parseExpression) fun pointer a ha => ?_
  exact reads_equalValue fun _ _ _ _ hequal hb hsemi => .storeStmt hstar ha hequal hb hsemi

variable {p : P Statement}

/-- A block up to its closing brace. -/
theorem reads_parseBlock (hp : Parse.Reads Digital n p Statement.Prints) :
    Parse.Reads Digital n (parseBlock p) fun body used => ∃ lists r,
      List.Forall₂ Statement.Prints body lists ∧ r.kind = .rBrace ∧
      used = lists.flatten ++ [r] := by
  refine .bind (R := PrintsBlock) (.repeat_ PrintsBlock ?_ ⟨[], .nil, rfl⟩) ?_
  · rintro body _ ⟨lists, hlists, rfl⟩
    refine .peek_bind fun t => .ite (fun _ => .bind hp fun s a ha => .pure ?_) fun _ => .pure ?_
    · refine ⟨lists ++ [a], List.rel_append hlists (.cons ha .nil), ?_⟩
      simp
    · exact ⟨lists, hlists, List.append_nil _⟩
  · rintro body _ ⟨lists, hlists, rfl⟩
    exact reads_expect_bind fun r hr _ => .pure ⟨lists, r, hlists, hr, rfl⟩

theorem reads_parseWhile (hp : Parse.Reads Digital (n - 1) p Statement.Prints) :
    Parse.Reads Digital n (parseWhile p) Statement.Prints := by
  refine reads_expect_bind fun t ht _ => reads_expect_bind fun l hl _ =>
    .bind reads_parseExpression fun e a ha => reads_expect_bind fun r hr _ =>
    reads_expect_bind fun l' hl' _ => .bind_pure (reads_parseBlock (hp.mono (by omega))) ?_
  rintro body _ ⟨lists, r', hlists, hr', rfl⟩
  obtain ⟨hlen, hzip⟩ := zip_of_forall₂ hlists
  exact .whileStmt ht hl ha hr hl' hlen hzip hr'

theorem reads_parseIf (hp : Parse.Reads Digital (n - 1) p Statement.Prints) :
    Parse.Reads Digital n (parseIf p) Statement.Prints := by
  refine reads_expect_bind fun t ht _ => reads_expect_bind fun l hl _ =>
    .bind reads_parseExpression fun e a ha => reads_expect_bind fun r hr _ =>
    reads_expect_bind fun l' hl' _ => .bind (reads_parseBlock (hp.mono (by omega))) ?_
  rintro body _ ⟨lists, r', hlists, hr', rfl⟩
  obtain ⟨hlen, hzip⟩ := zip_of_forall₂ hlists
  refine reads_ifKind (fun else_ helse _ => reads_expect_bind fun l'' hl'' _ =>
    .bind_pure (reads_parseBlock (hp.mono (by omega))) ?_) (.pure ?_)
  · rintro elseBody _ ⟨elseLists, r'', helseLists, hr'', rfl⟩
    obtain ⟨hlen', hzip'⟩ := zip_of_forall₂ helseLists
    rw [List.append_assoc, List.singleton_append]
    exact .ifElse ht hl ha hr hl' hlen hzip hr' helse hl'' hlen' hzip' hr''
  · rw [List.append_nil]
    exact .ifStmt ht hl ha hr hl' hlen hzip hr'

theorem reads_statementStep (hp : Parse.Reads Digital (n - 1) p Statement.Prints) :
    Parse.Reads Digital n (statementStep p) Statement.Prints :=
  reads_ifKind (fun _ ht _ => reads_parseLet ht) <|
  reads_ifKind (fun _ ht _ => reads_parseReturn ht) <|
  .peek_bind fun _ => .peekNext_bind fun _ =>
    .ite (fun _ => reads_parseIf hp) fun _ => .ite (fun _ => reads_parseWhile hp) fun _ =>
    .ite (fun _ => reads_parseAssign) fun _ => .ite (fun _ => reads_parseIndexStore) fun _ =>
    .ite (fun _ => reads_parseFieldStore) fun _ => .ite (fun _ => reads_parseStore) fun _ => .fail

theorem reads_parseStatement : Parse.Reads Digital n parseStatement Statement.Prints :=
  .recur fun _ _ _ hp => reads_statementStep hp

end Statements

/-! ## Declarations -/

section Declarations

variable {n : Nat}

theorem reads_parseImportDecl : Parse.Reads Digital n parseImportDecl ImportDecl.Prints :=
  reads_expect_bind fun _ ht _ => reads_identifier_bind fun _ hname =>
    reads_expect_bind fun _ hsemi _ => .pure (.mk ht hname hsemi)

theorem reads_parseEnumDecl : Parse.Reads Digital n parseEnumDecl EnumDecl.Prints := by
  refine reads_expect_bind fun t ht _ => reads_identifier_bind fun name hname =>
    .bind_pure (reads_enclosed reads_identifier) fun variants a ha => ?_
  exact .mk ht hname ha

theorem reads_parseStructDecl : Parse.Reads Digital n parseStructDecl StructDecl.Prints := by
  refine reads_expect_bind fun t ht _ => reads_identifier_bind fun name hname =>
    .bind_pure (reads_enclosed reads_param) fun fields a ha => ?_
  exact .mk ht hname ha

theorem reads_parseFunction : Parse.Reads Digital n parseFunction Function.Prints := by
  refine reads_expect_bind fun t ht _ => reads_identifier_bind fun name hname =>
    .bind (reads_enclosed reads_param) fun params a ha => reads_expect_bind fun arrow harrow _ =>
    .bind reads_parseType fun type b hb => reads_expect_bind fun l hl _ =>
    .bind_pure (reads_parseBlock reads_parseStatement) ?_
  rintro body _ ⟨lists, r, hlists, hr, rfl⟩
  exact .mk ht hname ha harrow hb hl ⟨lists, hlists, rfl⟩ hr

/-- The declarations that print as the tokens, added to the program. -/
def PrintsMore (program program' : Program) (ts : List Token) : Prop :=
  ∃ decls lists, List.Forall₂ Decl.Prints decls lists ∧ ts = lists.flatten ∧
    program' = decls.foldl Program.add program

theorem PrintsMore.add {program program' : Program} {used ts : List Token}
    (h : PrintsMore program program' used) {decl : Decl} (hdecl : decl.Prints ts) :
    PrintsMore program (program'.add decl) (used ++ ts) := by
  obtain ⟨decls, lists, hlists, rfl, rfl⟩ := h
  refine ⟨decls ++ [decl], lists ++ [ts], List.rel_append hlists (.cons hdecl .nil), ?_, ?_⟩
  · simp
  · rw [List.foldl_append]
    rfl

/-- The loop of `parseProgram` adds the declarations that it takes. -/
theorem reads_programLoop (program₀ : Program) :
    Parse.Reads Digital n (Parse.repeat_ programBody program₀) (PrintsMore program₀) := by
  refine .repeat_ (PrintsMore program₀) (fun program used hI => .peek_bind fun t => ?_)
    ⟨[], [], .nil, rfl, rfl⟩
  have hdecl : ∀ {α : Type} {p : P α} {R : α → List Token → Prop} {f : α → Decl},
      Parse.Reads Digital n p R → (∀ x a, R x a → (f x).Prints a) →
      Parse.Reads Digital n (p >>= fun x => (pure (.inl (program.add (f x))) : P (Program ⊕ Program)))
        fun r b => r.elim (fun s' => PrintsMore program₀ s' (used ++ b)) fun x =>
          PrintsMore program₀ x (used ++ b) :=
    fun hp hf => .bind_pure hp fun x a ha => hI.add (hf x a ha)
  refine .ite (fun _ => .pure ?_) fun _ => .ite (fun _ => ?_) fun _ => .ite (fun _ => ?_) fun _ =>
    .ite (fun _ => ?_) fun _ => ?_
  · rw [List.append_nil]
    exact hI
  · exact hdecl reads_parseImportDecl fun _ _ h => .import_ h
  · exact hdecl reads_parseStructDecl fun _ _ h => .struct h
  · exact hdecl reads_parseEnumDecl fun _ _ h => .enum h
  · exact hdecl reads_parseFunction fun _ _ h => .function h

theorem reads_parseProgram : Parse.Reads Digital n parseProgram Program.Prints :=
  reads_programLoop Program.empty

end Declarations

end Parser
end Oglang
end Techuila
