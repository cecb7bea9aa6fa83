import Techuila.Oglang.Grammar
import Techuila.Oglang.ParserProgress

/-!
# What the parser reads back (`parser/parser.cpp`)

Tokens that print a syntax tree are read as that tree, with any token behind them that does not go
on with it.

* `Continues`: after an operand the loop of its level goes on.
* `parseExpression_prints`, `parseStatement_prints`, `parseProgram_prints`.
-/

namespace Techuila
namespace Oglang
namespace Parser

/-! ## Steps -/

section Steps

variable {α β : Type} {kind : TokenKind} {t u : Token} {ts : List Token}

theorem ifKind_pos (ht : t.kind = kind) (yes : Token → P α) (no : P α) :
    ifKind kind yes no (t :: ts) = yes t ts := by
  rw [ifKind, Parse.ifNext_cons, if_pos (beq_iff_eq.mpr ht)]

theorem ifKind_neg (ht : t.kind ≠ kind) (yes : Token → P α) (no : P α) :
    ifKind kind yes no (t :: ts) = no (t :: ts) := by
  rw [ifKind, Parse.ifNext_cons, if_neg (fun h => ht (beq_iff_eq.mp h))]

theorem expect_bind (ht : t.kind = kind) (q : Token → P β) :
    (expect kind >>= q) (t :: ts) = q t ts := by
  refine Parse.bind_eq_of_ok ?_
  rw [expect, ifKind_pos ht]
  rfl

theorem identifier_bind (ht : t.kind = .identifier) (q : String → P β) :
    (identifier >>= q) (t :: ts) = q t.text ts := by
  refine Parse.bind_eq_of_ok ?_
  rw [identifier, expect_bind ht]
  rfl

theorem peek_bind (q : Token → P β) : (Parse.peek >>= q) (t :: ts) = q t (t :: ts) := rfl

theorem peekNext_bind (q : Token → P β) :
    (Parse.peekNext >>= q) (t :: u :: ts) = q u (t :: u :: ts) := rfl

/-- The parser reads the tokens as `x`, with a token of these kinds behind them. -/
def Accepts (kinds : List TokenKind) (p : P α) (x : α) (ts : List Token) : Prop :=
  ∀ t rest, t.kind ∈ kinds → p (ts ++ t :: rest) = .ok (x, t :: rest)

end Steps

/-! ## Items -/

section Items

variable {α : Type} {item : P α} {closing : TokenKind}

theorem items_accepts (hitem : ∀ n, Parse.Tame IsEnd 1 n item item) (hclosing : closing ≠ .comma)
    {lists : List (List Token)} {inner : List Token} (hjoins : Joins lists inner) :
    ∀ {items : List α}, List.Forall₂ (Accepts [.comma, closing] item) items lists → items ≠ [] →
      ∀ acc, Accepts [closing] (Parse.repeat_ (commaBody item) acc) (acc ++ items) inner := by
  induction hjoins with
  | nil =>
    intro items hitems hne
    cases hitems
    exact absurd rfl hne
  | @one ts =>
    rintro _ (_ | @⟨x, _, _, _, hx, _ | _⟩) - acc t rest ht
    have ht' : t.kind ≠ .comma := by
      rw [List.mem_singleton.mp ht]
      exact hclosing
    have hbody : commaBody item acc (ts ++ t :: rest) = .ok (.inr (acc ++ [x]), t :: rest) := by
      rw [commaBody, Parse.bind_eq_of_ok (hx t rest (List.mem_cons_of_mem _ ht)), ifKind_neg ht']
      rfl
    rw [Parse.repeat_eq (commaBody_goes hitem), Parse.bind_eq_of_ok hbody]
    rfl
  | @cons ts us inner lists comma hcomma hjoins ih =>
    rintro _ (_ | @⟨x, _, items, _, hx, hitems⟩) - acc t rest ht
    have hbody : commaBody item acc (ts ++ comma :: (inner ++ t :: rest)) =
        .ok (.inl (acc ++ [x]), inner ++ t :: rest) := by
      rw [commaBody, Parse.bind_eq_of_ok (hx comma _ (by rw [hcomma]; exact List.mem_cons_self)),
        ifKind_pos hcomma]
      rfl
    have hne : items ≠ [] := by
      rintro rfl
      cases hitems
    rw [List.append_assoc, List.cons_append, Parse.repeat_eq (commaBody_goes hitem),
      Parse.bind_eq_of_ok hbody]
    show Parse.repeat_ (commaBody item) (acc ++ [x]) (inner ++ t :: rest) = _
    rw [ih hitems hne (acc ++ [x]) t rest ht, List.append_assoc]
    rfl

theorem enclosed_accepts {opening : TokenKind} (hitem : ∀ n, Parse.Tame IsEnd 1 n item item)
    (hclosing : closing ≠ .comma) {items : List α} {ts : List Token}
    (h : Encloses opening closing (fun x a => Accepts [.comma, closing] item x a ∧
      ∃ t a', a = t :: a' ∧ t.kind ≠ closing) items ts) (rest : List Token) :
    enclosed opening closing item (ts ++ rest) = .ok (items, rest) := by
  obtain ⟨l, r, inner, hl, hr, ⟨lists, hlists, hjoins⟩, rfl⟩ := h
  have hend : ∀ xs : List α, (expect closing >>= fun _ => (pure xs : P (List α))) (r :: rest) =
      .ok (xs, rest) := fun xs => by
    rw [expect_bind hr]
    rfl
  rw [enclosed, List.cons_append, List.append_assoc, List.singleton_append, expect_bind hl]
  cases hlists with
  | nil =>
    cases hjoins
    show (Parse.peek >>= _) (r :: rest) = _
    rw [peek_bind, if_neg (fun h => h hr)]
    exact hend []
  | @cons x a items lists hx hlists =>
    obtain ⟨t, inner', rfl, ht⟩ : ∃ t inner', inner = t :: inner' ∧ t.kind ≠ closing := by
      obtain ⟨-, t, a', rfl, ht⟩ := hx
      cases hjoins with
      | one => exact ⟨t, _, rfl, ht⟩
      | cons _ _ => exact ⟨t, _, rfl, ht⟩
    rw [List.cons_append, peek_bind, if_pos ht]
    refine (Parse.bind_eq_of_ok ?_).trans (hend (x :: items))
    exact items_accepts hitem hclosing hjoins
      (.cons hx.1 (hlists.imp fun _ _ h => h.1)) (List.cons_ne_nil _ _) [] r rest
      (List.mem_singleton.mpr hr)

end Items

/-! ## Levels -/

/-- The parsing function of a level. -/
def levelParser : Nat → P Expr
  | 0 => parseEquality parseExpression
  | 1 => parseComparison parseExpression
  | 2 => parseAdditive parseExpression
  | 3 => parseMultiplicative parseExpression
  | 4 => parseUnary parseExpression
  | _ => parsePrimary parseExpression

/-- The kinds of tokens that go on with an expression of a level. -/
def blocked (n : Nat) : List TokenKind :=
  [.lParen, .lBracket, .dot] ++
    ([0, 1, 2, 3].filter (n ≤ ·)).flatMap fun m => (operatorsAt m).map Prod.fst

/-- What may stand behind any expression. -/
def closings : List TokenKind := [.semicolon, .rParen, .rBracket, .comma, .equal]

section Levels

variable {n : Nat} {kind : TokenKind} {c : Char}

theorem levelParser_eq (hn : n < 4) :
    levelParser n = binaryLevel (operatorsAt n) (levelParser (n + 1)) := by
  match n, hn with
  | 0, _ => rfl
  | 1, _ => rfl
  | 2, _ => rfl
  | 3, _ => rfl

theorem levelParser_zero : levelParser 0 = parseExpression := parseExpression_eq.symm

theorem tame_levelParser (n m : Nat) : Parse.Tame IsEnd 1 m (levelParser n) (levelParser n) :=
  match n with
  | 0 => tame_parseEquality tame_parseExpression
  | 1 => tame_parseComparison tame_parseExpression
  | 2 => tame_parseAdditive tame_parseExpression
  | 3 => tame_parseMultiplicative tame_parseExpression
  | 4 => tame_parseUnary tame_parseExpression
  | _ + 5 => tame_parsePrimary tame_parseExpression

theorem mem_blocked_succ (h : kind ∈ blocked (n + 1)) : kind ∈ blocked n := by
  simp only [blocked, List.mem_append, List.mem_flatMap, List.mem_filter, decide_eq_true_iff] at h ⊢
  refine h.imp_right fun ⟨m, ⟨hm, hle⟩, hk⟩ => ⟨m, ⟨hm, by omega⟩, hk⟩

theorem operator_not_blocked (h : (kind, c) ∈ operatorsAt n) : kind ∉ blocked (n + 1) := by
  have hall : ∀ n ∈ [0, 1, 2, 3], ∀ op ∈ operatorsAt n, op.1 ∉ blocked (n + 1) := by decide
  exact hall n (level_cases h) _ h

theorem lookup_operator (h : (kind, c) ∈ operatorsAt n) : (operatorsAt n).lookup kind = some c := by
  have hall : ∀ n ∈ [0, 1, 2, 3], ∀ op ∈ operatorsAt n,
      (operatorsAt n).lookup op.1 = some op.2 := by decide
  exact hall n (level_cases h) _ h

theorem lookup_none (h : kind ∉ blocked n) : (operatorsAt n).lookup kind = none := by
  rw [List.lookup_eq_none_iff]
  intro op hop
  have hn := level_cases (c := op.2) hop
  rw [bne_iff_ne]
  rintro rfl
  refine h (List.mem_append_right _ (List.mem_flatMap.mpr ⟨n, ?_, List.mem_map_of_mem hop⟩))
  exact List.mem_filter.mpr ⟨hn, by simp⟩

theorem closings_not_blocked (h : kind ∈ closings) : kind ∉ blocked n := by
  have hall : ∀ kind ∈ closings, kind ∉ blocked 0 := by decide
  have hmono : ∀ n, kind ∈ blocked n → kind ∈ blocked 0 := by
    intro n
    induction n with
    | zero => exact id
    | succ n ih => exact fun hm => ih (mem_blocked_succ hm)
  exact fun hm => hall kind h (hmono n hm)

theorem loop_goes (n m : Nat) (left : Expr) (ts : List Token) (left' : Expr) (rest : List Token)
    (h : binaryBody (operatorsAt n) (levelParser m) left ts = .ok (.inl left', rest)) :
    rest.length < ts.length :=
  binaryBody_goes (tame_levelParser m _) (Nat.lt_succ_self _) h

/-- The loop of a level after an operand. -/
def continueLevel (n : Nat) (left : Expr) : P Expr :=
  Parse.repeat_ (binaryBody (operatorsAt n) (levelParser (n + 1))) left

theorem continueLevel_stops {t : Token} (ht : t.kind ∉ blocked n) (left : Expr)
    (rest : List Token) : continueLevel n left (t :: rest) = .ok (left, t :: rest) := by
  have hbody : binaryBody (operatorsAt n) (levelParser (n + 1)) left (t :: rest) =
      .ok (.inr left, t :: rest) := by
    rw [binaryBody, peek_bind, lookup_none ht]
    rfl
  rw [continueLevel, Parse.repeat_eq (loop_goes n (n + 1)), Parse.bind_eq_of_ok hbody]
  rfl

theorem continueLevel_takes {op : Token} (hop : (op.kind, c) ∈ operatorsAt n) {right : Expr}
    {ts rest : List Token} (hright : levelParser (n + 1) ts = .ok (right, rest)) (left : Expr) :
    continueLevel n left (op :: ts) = continueLevel n (.binary c left right) rest := by
  have hbody : binaryBody (operatorsAt n) (levelParser (n + 1)) left (op :: ts) =
      .ok (.inl (.binary c left right), rest) := by
    rw [binaryBody, peek_bind, lookup_operator hop]
    refine (Parse.bind_eq_of_ok (show Parse.advance (op :: ts) = .ok (op, ts) from rfl)).trans ?_
    rw [Parse.bind_eq_of_ok hright]
    rfl
  rw [continueLevel, Parse.repeat_eq (loop_goes n (n + 1)), Parse.bind_eq_of_ok hbody]
  rfl

/-- After the tokens of an expression of level `n`, the loop of the level goes on. -/
def Continues (n : Nat) (e : Expr) (ts : List Token) : Prop :=
  ∀ t rest, t.kind ∉ blocked (n + 1) →
    levelParser n (ts ++ t :: rest) = continueLevel n e (t :: rest)

theorem Continues.reads {e : Expr} {ts : List Token} (h : Continues n e ts) {t : Token}
    (ht : t.kind ∉ blocked n) (rest : List Token) :
    levelParser n (ts ++ t :: rest) = .ok (e, t :: rest) := by
  rw [h t rest fun hm => ht (mem_blocked_succ hm), continueLevel_stops ht]

/-- Behind the unary level there is no loop. -/
theorem continues_of_reads {e : Expr} {ts : List Token} (hn : 4 ≤ n)
    (h : ∀ t rest, t.kind ∉ blocked 4 → levelParser n (ts ++ t :: rest) = .ok (e, t :: rest)) :
    Continues n e ts := by
  have hblocked : ∀ m, 4 ≤ m → blocked m = blocked 4 := by
    intro m hm
    have h0 : ¬ m ≤ 0 := by omega
    have h1 : ¬ m ≤ 1 := by omega
    have h2 : ¬ m ≤ 2 := by omega
    have h3 : ¬ m ≤ 3 := by omega
    simp [blocked, h0, h1, h2, h3]
  intro t rest ht
  rw [hblocked (n + 1) (by omega), ← hblocked n hn] at ht
  rw [continueLevel_stops ht]
  exact h t rest (by rwa [hblocked n hn] at ht)

/-- A closing token ends an expression. -/
theorem Continues.accepts {e : Expr} {ts : List Token} (h : Continues 0 e ts) :
    Accepts closings parseExpression e ts := fun t rest ht => by
  rw [← levelParser_zero]
  exact h.reads (closings_not_blocked ht) rest

end Levels

/-! ## Expressions -/

section Expressions

theorem parseArgList_accepts {args : List Expr} {lists : List (List Token)} {inner : List Token}
    {l r : Token} (hl : l.kind = .lParen) (hr : r.kind = .rParen)
    (hlen : args.length = lists.length)
    (hargs : ∀ p ∈ args.zip lists, p.1.Prints 0 p.2 ∧ Continues 0 p.1 p.2)
    (hjoins : Joins lists inner) (rest : List Token) :
    parseArgList parseExpression (l :: (inner ++ [r]) ++ rest) = .ok (args, rest) := by
  refine enclosed_accepts (fun n => tame_parseExpression) (by decide)
    ⟨l, r, inner, hl, hr, ⟨lists, forall₂_of_zip hlen fun p hp => ⟨?_, ?_⟩, hjoins⟩, rfl⟩ rest
  · intro t rest ht
    refine (hargs p hp).2.accepts t rest ?_
    revert ht
    generalize t.kind = kind
    revert kind
    decide
  · obtain ⟨t, ts, hts, ht⟩ := (hargs p hp).1.head
    refine ⟨t, ts, hts, fun h => ?_⟩
    rw [StartsExpr, h] at ht
    exact absurd ht (by decide)

theorem parsePrimary_name {name : Token} (hname : name.kind = .identifier) (ts : List Token) :
    parsePrimary parseExpression (name :: ts) = parseName parseExpression name.text ts := by
  rw [parsePrimary, ifKind_neg (by rw [hname]; decide), ifKind_pos hname]

theorem parsePrimary_dot {name dot member : Token} (hname : name.kind = .identifier)
    (hdot : dot.kind = .dot) (hmember : member.kind = .identifier) (ts : List Token) :
    parsePrimary parseExpression (name :: dot :: member :: ts) = (do
      let t ← Parse.peek
      if t.kind = .lParen then
        let args ← parseArgList parseExpression
        pure (.call (name.text ++ "." ++ member.text) args)
      else
        ifKind .dot (fun _ => do
          let variant ← identifier
          pure (.fieldAccess (name.text ++ "." ++ member.text) variant))
          (pure (.fieldAccess name.text member.text)) : P Expr) ts := by
  rw [parsePrimary_name hname, parseName, peek_bind, if_neg (by rw [hdot]; decide),
    ifKind_neg (by rw [hdot]; decide), ifKind_pos hdot, parseMember, identifier_bind hmember]

/-- A call, after the path and at the opening parenthesis. -/
theorem call_reads {l : Token} {ts rest : List Token} {args : List Expr} (hl : l.kind = .lParen)
    (hargs : parseArgList parseExpression (l :: ts) = .ok (args, rest)) (callee : String)
    (no : P Expr) : (do
      let t ← Parse.peek
      if t.kind = .lParen then
        let args ← parseArgList parseExpression
        pure (.call callee args)
      else no : P Expr) (l :: ts) = .ok (.call callee args, rest) := by
  rw [peek_bind, if_pos hl, Parse.bind_eq_of_ok hargs]
  rfl

theorem unary_of_primary {e : Expr} {ts : List Token} (h : e.Prints 5 ts) :
    ∃ t ts', ts = t :: ts' ∧ t.kind ∈ [.integer, .identifier, .lParen, .asm] := by
  have hstart : ∀ {t : Token} {ts : List Token} {kind : TokenKind}, t.kind = kind →
      kind ∈ [.integer, .identifier, .lParen, .asm] →
      ∃ t' ts', t :: ts = t' :: ts' ∧ t'.kind ∈ [.integer, .identifier, .lParen, .asm] :=
    fun ht hmem => ⟨_, _, rfl, by rw [ht]; exact hmem⟩
  cases h with
  | lift hn => exact absurd hn (by decide)
  | binary hop => exact absurd hop List.not_mem_nil
  | integer ht => exact hstart ht.1 (by decide)
  | var ht => exact hstart ht (by decide)
  | index ht => exact hstart ht (by decide)
  | fieldAccess hpath =>
    obtain ⟨t, ts', rfl, ht⟩ := hpath.head
    exact hstart ht (by decide)
  | asm ht => exact hstart ht (by decide)
  | call hpath =>
    obtain ⟨t, ts', rfl, ht⟩ := hpath.head
    exact hstart ht (by decide)
  | paren ht => exact hstart ht (by decide)

/-- A primary expression is not taken for a unary one. -/
theorem parseUnary_primary {e : Expr} {ts : List Token} (h : e.Prints 5 ts) (rest : List Token) :
    levelParser 4 (ts ++ rest) = levelParser 5 (ts ++ rest) := by
  obtain ⟨t, ts', rfl, ht⟩ := unary_of_primary h
  have hne : ∀ kind ∈ [TokenKind.minus, .ampersand, .star], t.kind ≠ kind := by
    rintro kind hkind rfl
    revert ht hkind
    generalize t.kind = kind
    revert kind
    decide
  show parseUnary parseExpression (t :: (ts' ++ rest)) = _
  rw [parseUnary_eq, unaryStep, ifKind_neg (hne _ (by decide)), ifKind_neg (hne _ (by decide)),
    ifKind_neg (hne _ (by decide))]
  rfl

theorem continues_of_prints {n : Nat} {e : Expr} {ts : List Token} (h : e.Prints n ts) :
    Continues n e ts := by
  induction h with
  | @lift n e ts hn h ih =>
    by_cases h4 : n < 4
    · intro t rest ht
      rw [levelParser_eq h4, binaryLevel, Parse.bind_eq_of_ok (ih.reads ht rest)]
      rfl
    · obtain rfl : n = 4 := by omega
      refine continues_of_reads (by decide) fun t rest ht => ?_
      rw [parseUnary_primary h]
      exact ih.reads ht rest
  | @binary n c left right a b op hop _ _ iha ihb =>
    intro t rest ht
    rw [List.append_assoc, List.cons_append, iha op _ (operator_not_blocked hop)]
    exact continueLevel_takes hop (ihb.reads ht rest) left
  | @unary t e ts ht _ ih =>
    refine continues_of_reads (by decide) fun u rest hu => ?_
    have hoperand : parseUnary parseExpression (ts ++ u :: rest) = .ok (e, u :: rest) :=
      ih.reads hu rest
    show parseUnary parseExpression (t :: (ts ++ u :: rest)) = _
    rw [parseUnary_eq, unaryStep, ifKind_pos ht, Parse.bind_eq_of_ok hoperand]
    rfl
  | @addressOf t name ht hname =>
    refine continues_of_reads (by decide) fun u rest hu => ?_
    show parseUnary parseExpression (t :: name :: u :: rest) = _
    rw [parseUnary_eq, unaryStep, ifKind_neg (by rw [ht]; decide), ifKind_pos ht,
      identifier_bind hname]
    rfl
  | @deref t e ts ht _ ih =>
    refine continues_of_reads (by decide) fun u rest hu => ?_
    have hoperand : parseUnary parseExpression (ts ++ u :: rest) = .ok (e, u :: rest) :=
      ih.reads hu rest
    show parseUnary parseExpression (t :: (ts ++ u :: rest)) = _
    rw [parseUnary_eq, unaryStep, ifKind_neg (by rw [ht]; decide),
      ifKind_neg (by rw [ht]; decide), ifKind_pos ht, Parse.bind_eq_of_ok hoperand]
    rfl
  | @integer t value ht =>
    refine continues_of_reads (by decide) fun u rest hu => ?_
    show parsePrimary parseExpression (t :: u :: rest) = _
    rw [parsePrimary, ifKind_pos ht.1, integerLiteral, stoi_of_numeral ht]
    rfl
  | @var name hname =>
    refine continues_of_reads (by decide) fun u rest hu => ?_
    have hne : ∀ kind ∈ [TokenKind.lParen, .lBracket, .dot], u.kind ≠ kind :=
      fun kind hk h => hu (List.mem_append_left _ (h ▸ hk))
    show parsePrimary parseExpression (name :: u :: rest) = _
    rw [parsePrimary_name hname, parseName, peek_bind, if_neg (hne _ (by decide)),
      ifKind_neg (hne _ (by decide)), ifKind_neg (hne _ (by decide))]
    rfl
  | @index name l r e ts hname hl _ hr ih =>
    refine continues_of_reads (by decide) fun u rest hu => ?_
    show parsePrimary parseExpression (name :: l :: (ts ++ [r] ++ u :: rest)) = _
    rw [parsePrimary_name hname, parseName, peek_bind, if_neg (by rw [hl]; decide),
      ifKind_pos hl, List.append_assoc, List.singleton_append,
      Parse.bind_eq_of_ok (ih.accepts r _ (by rw [hr]; decide)), expect_bind hr]
    rfl
  | @fieldAccess path ts dot field hpath hdot hfield =>
    refine continues_of_reads (by decide) fun u rest hu => ?_
    have hsub : ∀ kind ∈ [TokenKind.lParen, .dot], kind ∈ blocked 4 := by decide
    have hne : ∀ kind ∈ [TokenKind.lParen, .dot], u.kind ≠ kind := fun kind hk h =>
      hu (h ▸ hsub kind hk)
    cases hpath with
    | @name t ht =>
      show parsePrimary parseExpression (t :: dot :: field :: u :: rest) = _
      rw [parsePrimary_dot ht hdot hfield, peek_bind, if_neg (hne _ (by decide)),
        ifKind_neg (hne _ (by decide))]
      rfl
    | @dotted t dot' member ht hdot' hmember =>
      show parsePrimary parseExpression (t :: dot' :: member :: dot :: field :: u :: rest) = _
      rw [parsePrimary_dot ht hdot' hmember, peek_bind, if_neg (by rw [hdot]; decide),
        ifKind_pos hdot, identifier_bind hfield]
      rfl
  | @asm t l text r ht hl htext hr =>
    refine continues_of_reads (by decide) fun u rest hu => ?_
    show parsePrimary parseExpression (t :: l :: text :: r :: u :: rest) = _
    rw [parsePrimary, ifKind_neg (by rw [ht]; decide), ifKind_neg (by rw [ht]; decide),
      ifKind_neg (by rw [ht]; decide), ifKind_pos ht, expect_bind hl, expect_bind htext,
      expect_bind hr]
    rfl
  | @call callee name inner args lists l r hpath hl hlen hargs hjoins hr ih =>
    refine continues_of_reads (by decide) fun u rest hu => ?_
    have hlist := parseArgList_accepts hl hr hlen (fun p hp => ⟨hargs p hp, ih p hp⟩) hjoins
      (u :: rest)
    cases hpath with
    | @name t ht =>
      show parsePrimary parseExpression (t :: (l :: (inner ++ [r]) ++ u :: rest)) = _
      rw [parsePrimary_name ht]
      exact call_reads hl hlist _ _
    | @dotted t dot member ht hdot hmember =>
      show parsePrimary parseExpression (t :: dot :: member :: (l :: (inner ++ [r]) ++ u :: rest)) = _
      rw [parsePrimary_dot ht hdot hmember]
      exact call_reads hl hlist _ _
  | @paren l r e ts hl _ hr ih =>
    refine continues_of_reads (by decide) fun u rest hu => ?_
    show parsePrimary parseExpression (l :: (ts ++ [r] ++ u :: rest)) = _
    rw [parsePrimary, ifKind_neg (by rw [hl]; decide), ifKind_neg (by rw [hl]; decide),
      ifKind_pos hl, List.append_assoc, List.singleton_append,
      Parse.bind_eq_of_ok (ih.accepts r _ (by rw [hr]; decide)), expect_bind hr]
    rfl

/-- An expression is read up to a closing token. -/
theorem parseExpression_prints {e : Expr} {ts : List Token} (h : e.Prints 0 ts) :
    Accepts closings parseExpression e ts := (continues_of_prints h).accepts

theorem parseUnary_prints {e : Expr} {ts : List Token} (h : e.Prints 4 ts) :
    Accepts closings (parseUnary parseExpression) e ts := fun _ rest ht =>
  (continues_of_prints h).reads (closings_not_blocked ht) rest

end Expressions

/-! ## Statements -/

section Statements

variable {α : Type} {e : Expr} {ts : List Token}

theorem parseType_prints {type : String} {a : List Token} (h : PrintsType type a) {t : Token}
    (ht : t.kind ≠ .dot) (rest : List Token) :
    parseType (a ++ t :: rest) = .ok (type, t :: rest) := by
  cases h with
  | i32 hu =>
    show parseType (_ :: t :: rest) = _
    rw [parseType, ifKind_pos hu]
    rfl
  | ptr hu =>
    show parseType (_ :: t :: rest) = _
    rw [parseType, ifKind_neg (by rw [hu]; decide), ifKind_pos hu]
    rfl
  | constptr hu =>
    show parseType (_ :: t :: rest) = _
    rw [parseType, ifKind_neg (by rw [hu]; decide), ifKind_neg (by rw [hu]; decide), ifKind_pos hu]
    rfl
  | path hpath =>
    have hname : ∀ {u : Token} {us : List Token}, u.kind = .identifier →
        parseType (u :: us) = ifKind .dot (fun _ => do
          let member ← identifier
          pure (u.text ++ "." ++ member)) (pure u.text) us := by
      intro u us hu
      rw [parseType, ifKind_neg (by rw [hu]; decide), ifKind_neg (by rw [hu]; decide),
        ifKind_neg (by rw [hu]; decide), ifKind_pos hu]
    cases hpath with
    | @name u hu =>
      show parseType (u :: t :: rest) = _
      rw [hname hu, ifKind_neg ht]
      rfl
    | @dotted u dot v hu hdot hv =>
      show parseType (u :: dot :: v :: t :: rest) = _
      rw [hname hu, ifKind_pos hdot, identifier_bind hv]
      rfl

theorem value_reads (he : e.Prints 0 ts) {semi : Token} (hsemi : semi.kind = .semicolon)
    (f : Expr → Statement) (rest : List Token) :
    (parseExpression >>= fun value => expect .semicolon >>= fun _ => (pure (f value) : P Statement))
      (ts ++ semi :: rest) = .ok (f e, rest) := by
  rw [Parse.bind_eq_of_ok (parseExpression_prints he semi rest (by rw [hsemi]; decide)),
    expect_bind hsemi]
  rfl

theorem equalValue_reads (he : e.Prints 0 ts) {equal semi : Token} (hequal : equal.kind = .equal)
    (hsemi : semi.kind = .semicolon) (f : Expr → Statement) (rest : List Token) :
    (expect .equal >>= fun _ =>
      parseExpression >>= fun value => expect .semicolon >>= fun _ => (pure (f value) : P Statement))
      (equal :: (ts ++ semi :: rest)) = .ok (f e, rest) := by
  rw [expect_bind hequal]
  exact value_reads he hsemi f rest

/-- A statement that does not start with `let` or `return`. -/
theorem parseStatement_other {t u : Token} (hlet : t.kind ≠ .let_) (hreturn : t.kind ≠ .return_)
    (rest : List Token) : parseStatement (t :: u :: rest) =
      (if t.kind = .if_ then parseIf parseStatement
        else if t.kind = .while_ then parseWhile parseStatement
        else if t.kind = .identifier ∧ u.kind = .equal then parseAssign
        else if t.kind = .identifier ∧ u.kind = .lBracket then parseIndexStore
        else if t.kind = .identifier ∧ u.kind = .dot then parseFieldStore
        else if t.kind = .star then parseStore
        else Parse.fail ("Unknown statement: " ++ t.text)) (t :: u :: rest) := by
  refine (congrFun parseStatement_eq _).trans ?_
  rw [statementStep, ifKind_neg hlet, ifKind_neg hreturn, peek_bind, peekNext_bind]

/-- What may stand behind a statement. -/
def AcceptsStatement (s : Statement) (ts : List Token) : Prop :=
  ∀ t rest, t.kind ≠ .else_ → parseStatement (ts ++ t :: rest) = .ok (s, t :: rest)

/-- The tokens of statements, which no `else` starts. -/
theorem block_loop {body : List Statement} {lists : List (List Token)}
    (h : List.Forall₂ (fun s a => s.Prints a ∧ AcceptsStatement s a) body lists) {r : Token}
    (hr : r.kind = .rBrace) (rest : List Token) : ∀ acc,
    Parse.repeat_ (blockBody parseStatement) acc (lists.flatten ++ r :: rest) =
      .ok (acc ++ body, r :: rest) := by
  have hgoes : ∀ s ts s' rest, blockBody parseStatement s ts = .ok (.inl s', rest) →
      rest.length < ts.length :=
    fun s ts s' rest => blockBody_goes tame_parseStatement (Nat.lt_succ_self _)
  induction h with
  | nil =>
    intro acc
    have hbody : blockBody parseStatement acc (r :: rest) = .ok (.inr acc, r :: rest) := by
      rw [blockBody, peek_bind, if_neg fun h => h.1 hr]
      rfl
    rw [Parse.repeat_eq hgoes]
    refine (Parse.bind_eq_of_ok hbody).trans ?_
    rw [List.append_nil]
    rfl
  | @cons s a body lists hs hbody ih =>
    intro acc
    obtain ⟨t, a', rfl, ht⟩ := hs.1.head
    have hne : t.kind ≠ .rBrace ∧ t.kind ≠ .end_ := by
      rw [StartsStatement] at ht
      revert ht
      generalize t.kind = kind
      revert kind
      decide
    obtain ⟨u, us, hus, hu⟩ : ∃ u us, lists.flatten ++ r :: rest = u :: us ∧ u.kind ≠ .else_ := by
      cases hbody with
      | nil => exact ⟨r, rest, rfl, by rw [hr]; decide⟩
      | cons hs' _ =>
        obtain ⟨u, us, rfl, hu⟩ := hs'.1.head
        refine ⟨u, _, rfl, fun h => ?_⟩
        rw [StartsStatement, h] at hu
        exact absurd hu (by decide)
    have hbody' : blockBody parseStatement acc (t :: a' ++ u :: us) =
        .ok (.inl (acc ++ [s]), u :: us) := by
      rw [List.cons_append, blockBody, peek_bind, if_pos hne, ← List.cons_append,
        Parse.bind_eq_of_ok (hs.2 u us hu)]
      rfl
    rw [List.flatten_cons, List.append_assoc, hus, Parse.repeat_eq hgoes,
      Parse.bind_eq_of_ok hbody']
    show Parse.repeat_ (blockBody parseStatement) (acc ++ [s]) (u :: us) = _
    rw [← hus, ih (acc ++ [s]), List.append_assoc]
    rfl

theorem parseBlock_reads {body : List Statement} {lists : List (List Token)}
    (h : List.Forall₂ (fun s a => s.Prints a ∧ AcceptsStatement s a) body lists) {r : Token}
    (hr : r.kind = .rBrace) (rest : List Token) :
    parseBlock parseStatement (lists.flatten ++ r :: rest) = .ok (body, rest) := by
  rw [parseBlock, Parse.bind_eq_of_ok (block_loop h hr rest []), expect_bind hr]
  rfl

/-- The declared name and its type, and what follows. -/
theorem parseStatement_let {t name colon u : Token} {type : String} {a : List Token}
    (ht : t.kind = .let_) (hname : name.kind = .identifier) (hcolon : colon.kind = .colon)
    (ha : PrintsType type a) (hu : u.kind ≠ .dot) (rest : List Token) :
    parseStatement (t :: name :: colon :: (a ++ u :: rest)) =
      (ifKind .lBracket (fun _ => do
        let t ← expect .integer
        let size ← integerLiteral t
        let _ ← expect .rBracket
        let _ ← expect .semicolon
        pure (.arrayDecl name.text type size)) <|
      ifKind .semicolon (fun _ => pure (.structVarDecl name.text type)) (do
        let _ ← expect .equal
        let initializer ← parseExpression
        let _ ← expect .semicolon
        pure (.letStmt name.text type initializer)) : P Statement) (u :: rest) := by
  rw [parseStatement_eq, statementStep, ifKind_pos ht, parseLet, identifier_bind hname,
    expect_bind hcolon, Parse.bind_eq_of_ok (parseType_prints ha hu rest)]

/-- The condition in parentheses and the opening brace. -/
theorem parseCondition {t l r l' : Token} {a : List Token} {kind : TokenKind} (ht : t.kind = kind)
    (hl : l.kind = .lParen) (he : e.Prints 0 a) (hr : r.kind = .rParen) (hl' : l'.kind = .lBrace)
    (q : Expr → P α) (rest : List Token) :
    (expect kind >>= fun _ => expect .lParen >>= fun _ => parseExpression >>= fun e =>
      expect .rParen >>= fun _ => expect .lBrace >>= fun _ => q e)
      (t :: l :: (a ++ r :: l' :: rest)) = q e rest := by
  rw [expect_bind ht, expect_bind hl,
    Parse.bind_eq_of_ok (parseExpression_prints he r _ (by rw [hr]; decide)), expect_bind hr,
    expect_bind hl']

theorem parseStatement_prints {s : Statement} {ts : List Token} (h : s.Prints ts) :
    AcceptsStatement s ts := by
  induction h with
  | @letStmt t name colon equal semi type e a b ht hname hcolon ha hequal he hsemi =>
    intro u rest hu
    simp only [List.cons_append, List.append_assoc, List.nil_append]
    rw [parseStatement_let ht hname hcolon ha (by rw [hequal]; decide),
      ifKind_neg (by rw [hequal]; decide), ifKind_neg (by rw [hequal]; decide)]
    exact equalValue_reads he hequal hsemi _ _
  | @structVarDecl t name colon semi type a ht hname hcolon ha hsemi =>
    intro u rest hu
    simp only [List.cons_append, List.append_assoc, List.nil_append]
    rw [parseStatement_let ht hname hcolon ha (by rw [hsemi]; decide),
      ifKind_neg (by rw [hsemi]; decide), ifKind_pos hsemi]
    rfl
  | @arrayDecl t name colon l size r semi type value a ht hname hcolon ha hl hsize hr hsemi =>
    intro u rest hu
    simp only [List.cons_append, List.append_assoc, List.nil_append]
    rw [parseStatement_let ht hname hcolon ha (by rw [hl]; decide), ifKind_pos hl,
      expect_bind hsize.1, integerLiteral, stoi_of_numeral hsize]
    refine (expect_bind hr _).trans ?_
    rw [expect_bind hsemi]
    rfl
  | @returnStmt t semi e ts ht he hsemi =>
    intro u rest hu
    simp only [List.cons_append, List.append_assoc, List.nil_append]
    rw [parseStatement_eq, statementStep, ifKind_neg (by rw [ht]; decide), ifKind_pos ht]
    exact value_reads he hsemi _ _
  | @assignStmt name equal semi e ts hname hequal he hsemi =>
    intro u rest hu
    simp only [List.cons_append, List.append_assoc, List.nil_append]
    rw [parseStatement_other (by rw [hname]; decide) (by rw [hname]; decide),
      if_neg (by rw [hname]; decide), if_neg (by rw [hname]; decide), if_pos ⟨hname, hequal⟩,
      parseAssign, identifier_bind hname]
    exact equalValue_reads he hequal hsemi _ _
  | @indexStore name l r equal semi index e a b hname hl ha hr hequal he hsemi =>
    intro u rest hu
    simp only [List.cons_append, List.append_assoc, List.nil_append]
    rw [parseStatement_other (by rw [hname]; decide) (by rw [hname]; decide),
      if_neg (by rw [hname]; decide), if_neg (by rw [hname]; decide),
      if_neg (fun h => absurd (hl.symm.trans h.2) (by decide)), if_pos ⟨hname, hl⟩,
      parseIndexStore, identifier_bind hname, expect_bind hl,
      Parse.bind_eq_of_ok (parseExpression_prints ha r _ (by rw [hr]; decide)), expect_bind hr]
    exact equalValue_reads he hequal hsemi _ _
  | @fieldStore name dot field equal semi e ts hname hdot hfield hequal he hsemi =>
    intro u rest hu
    simp only [List.cons_append, List.append_assoc, List.nil_append]
    rw [parseStatement_other (by rw [hname]; decide) (by rw [hname]; decide),
      if_neg (by rw [hname]; decide), if_neg (by rw [hname]; decide),
      if_neg (fun h => absurd (hdot.symm.trans h.2) (by decide)),
      if_neg (fun h => absurd (hdot.symm.trans h.2) (by decide)), if_pos ⟨hname, hdot⟩,
      parseFieldStore, identifier_bind hname, expect_bind hdot, identifier_bind hfield]
    exact equalValue_reads he hequal hsemi _ _
  | @storeStmt star equal semi pointer e a b hstar hpointer hequal he hsemi =>
    intro u rest hu
    obtain ⟨v, a', rfl, -⟩ := hpointer.head
    have hread := parseUnary_prints hpointer equal (b ++ semi :: u :: rest)
      (by rw [hequal]; decide)
    simp only [List.cons_append, List.append_assoc, List.nil_append] at hread ⊢
    rw [parseStatement_other (by rw [hstar]; decide) (by rw [hstar]; decide),
      if_neg (by rw [hstar]; decide), if_neg (by rw [hstar]; decide),
      if_neg (fun h => absurd (hstar.symm.trans h.1) (by decide)),
      if_neg (fun h => absurd (hstar.symm.trans h.1) (by decide)),
      if_neg (fun h => absurd (hstar.symm.trans h.1) (by decide)), if_pos hstar, parseStore,
      expect_bind hstar, Parse.bind_eq_of_ok hread]
    exact equalValue_reads he hequal hsemi _ _
  | @whileStmt t l r l' r' e body a lists ht hl he hr hl' hlen hbody hr' ih =>
    intro u rest hu
    simp only [List.cons_append, List.append_assoc, List.nil_append]
    rw [parseStatement_other (by rw [ht]; decide) (by rw [ht]; decide),
      if_neg (by rw [ht]; decide), if_pos ht]
    refine (parseCondition ht hl he hr hl' _ _).trans ?_
    rw [Parse.bind_eq_of_ok (parseBlock_reads (forall₂_of_zip hlen fun p hp =>
      ⟨hbody p hp, ih p hp⟩) hr' _)]
    rfl
  | @ifStmt t l r l' r' e body a lists ht hl he hr hl' hlen hbody hr' ih =>
    intro u rest hu
    simp only [List.cons_append, List.append_assoc, List.nil_append]
    rw [parseStatement_other (by rw [ht]; decide) (by rw [ht]; decide), if_pos ht]
    refine (parseCondition ht hl he hr hl' _ _).trans ?_
    rw [Parse.bind_eq_of_ok (parseBlock_reads (forall₂_of_zip hlen fun p hp =>
      ⟨hbody p hp, ih p hp⟩) hr' _), ifKind_neg hu]
    rfl
  | @ifElse t l r l' r' else_ l'' r'' e body elseBody a lists elseLists ht hl he hr hl' hlen hbody
      hr' helse hl'' hlen' helseBody hr'' ih ih' =>
    intro u rest hu
    simp only [List.cons_append, List.append_assoc, List.nil_append]
    rw [parseStatement_other (by rw [ht]; decide) (by rw [ht]; decide), if_pos ht]
    refine (parseCondition ht hl he hr hl' _ _).trans ?_
    rw [Parse.bind_eq_of_ok (parseBlock_reads (forall₂_of_zip hlen fun p hp =>
      ⟨hbody p hp, ih p hp⟩) hr' _), ifKind_pos helse, expect_bind hl'',
      Parse.bind_eq_of_ok (parseBlock_reads (forall₂_of_zip hlen' fun p hp =>
      ⟨helseBody p hp, ih' p hp⟩) hr'' _)]
    rfl

end Statements

/-! ## Declarations -/

section Declarations

theorem Encloses.imp {α : Type} {opening closing : TokenKind} {R S : α → List Token → Prop}
    (hRS : ∀ x a, R x a → S x a) {items : List α} {ts : List Token}
    (h : Encloses opening closing R items ts) : Encloses opening closing S items ts := by
  obtain ⟨l, r, inner, hl, hr, ⟨lists, hlists, hjoins⟩, rfl⟩ := h
  exact ⟨l, r, inner, hl, hr, ⟨lists, hlists.imp hRS, hjoins⟩, rfl⟩

theorem names_read {names : List String} {ts : List Token}
    (h : Encloses .lBrace .rBrace PrintsName names ts) (rest : List Token) :
    enclosed .lBrace .rBrace identifier (ts ++ rest) = .ok (names, rest) := by
  refine enclosed_accepts (fun n => tame_identifier) (by decide) (Encloses.imp ?_ h) rest
  rintro _ _ ⟨hname⟩
  refine ⟨fun t rest _ => ?_, _, [], rfl, by rw [hname]; decide⟩
  show identifier (_ :: t :: rest) = _
  rw [identifier, expect_bind hname]
  rfl

theorem params_read {opening closing : TokenKind} (hcomma : closing ≠ .comma)
    (hdot : closing ≠ .dot) (hne : .identifier ≠ closing) {params : List Param} {ts : List Token}
    (h : Encloses opening closing Param.Prints params ts) (rest : List Token) :
    enclosed opening closing param (ts ++ rest) = .ok (params, rest) := by
  refine enclosed_accepts (fun n => tame_param) hcomma (Encloses.imp ?_ h) rest
  rintro _ _ ⟨hname, hcolon, ha⟩
  refine ⟨fun t rest ht => ?_, _, _, rfl, by rw [hname]; exact hne⟩
  have ht' : t.kind ≠ .dot := by
    rcases List.mem_cons.mp ht with h | h
    · rw [h]; decide
    · rw [List.mem_singleton.mp h]; exact hdot
  rw [List.cons_append, List.cons_append, param, identifier_bind hname, expect_bind hcolon,
    Parse.bind_eq_of_ok (parseType_prints ha ht' rest)]
  rfl

/-- A turn of the loop of `parseProgram` reads a declaration. -/
theorem programBody_prints {decl : Decl} {ts : List Token} (h : decl.Prints ts)
    (program : Program) (rest : List Token) :
    programBody program (ts ++ rest) = .ok (.inl (program.add decl), rest) := by
  cases h with
  | import_ h =>
    obtain ⟨ht, hname, hsemi⟩ := h
    show programBody program (_ :: _ :: _ :: rest) = _
    rw [programBody, peek_bind, if_neg (by rw [ht]; decide), if_pos ht, parseImportDecl]
    refine (Parse.bind_eq_of_ok ?_).trans rfl
    rw [expect_bind ht, identifier_bind hname, expect_bind hsemi]
    rfl
  | struct h =>
    obtain ⟨ht, hname, hfields⟩ := h
    rw [List.cons_append, List.cons_append, programBody, peek_bind, if_neg (by rw [ht]; decide),
      if_neg (by rw [ht]; decide), if_pos ht, parseStructDecl]
    refine (Parse.bind_eq_of_ok ?_).trans rfl
    rw [expect_bind ht, identifier_bind hname,
      Parse.bind_eq_of_ok (params_read (by decide) (by decide) (by decide) hfields rest)]
    rfl
  | enum h =>
    obtain ⟨ht, hname, hvariants⟩ := h
    rw [List.cons_append, List.cons_append, programBody, peek_bind, if_neg (by rw [ht]; decide),
      if_neg (by rw [ht]; decide), if_neg (by rw [ht]; decide), if_pos ht, parseEnumDecl]
    refine (Parse.bind_eq_of_ok ?_).trans rfl
    rw [expect_bind ht, identifier_bind hname, Parse.bind_eq_of_ok (names_read hvariants rest)]
    rfl
  | function h =>
    obtain ⟨ht, hname, hparams, harrow, htype, hl, ⟨lists, hbody, rfl⟩, hr⟩ := h
    simp only [List.cons_append, List.append_assoc, List.nil_append]
    rw [programBody, peek_bind, if_neg (by rw [ht]; decide), if_neg (by rw [ht]; decide),
      if_neg (by rw [ht]; decide), if_neg (by rw [ht]; decide), parseFunction]
    refine (Parse.bind_eq_of_ok ?_).trans rfl
    rw [expect_bind ht, identifier_bind hname,
      Parse.bind_eq_of_ok (params_read (by decide) (by decide) (by decide) hparams _),
      expect_bind harrow, Parse.bind_eq_of_ok (parseType_prints htype (by rw [hl]; decide) _),
      expect_bind hl, Parse.bind_eq_of_ok (parseBlock_reads (hbody.imp fun _ _ h =>
        ⟨h, parseStatement_prints h⟩) hr rest)]
    rfl

theorem programLoop_prints {decls : List Decl} {lists : List (List Token)}
    (h : List.Forall₂ Decl.Prints decls lists) (rest : List Token) : ∀ program : Program,
    Parse.repeat_ programBody program (lists.flatten ++ rest) =
      Parse.repeat_ programBody (decls.foldl Program.add program) rest := by
  induction h with
  | nil => exact fun _ => rfl
  | @cons decl a decls lists hdecl _ ih =>
    intro program
    rw [List.flatten_cons, List.append_assoc,
      Parse.repeat_eq fun _ _ _ _ h => programBody_goes h,
      Parse.bind_eq_of_ok (programBody_prints hdecl program _)]
    exact ih (program.add decl)

/-- The tokens of a program are read as the program. -/
theorem parseProgram_prints {program : Program} {ts : List Token} (h : program.Prints ts)
    {e : Token} (he : IsEnd e) (rest : List Token) :
    parseProgram (ts ++ e :: rest) = .ok (program, e :: rest) := by
  obtain ⟨decls, lists, hlists, rfl, rfl⟩ := h
  have hbody : programBody (decls.foldl Program.add Program.empty) (e :: rest) =
      .ok (.inr (decls.foldl Program.add Program.empty), e :: rest) := by
    rw [programBody, peek_bind, if_pos (show e.kind = .end_ from he)]
    rfl
  refine (programLoop_prints hlists (e :: rest) Program.empty).trans ?_
  rw [Parse.repeat_eq fun _ _ _ _ h => programBody_goes h, Parse.bind_eq_of_ok hbody]
  rfl

end Declarations

end Parser
end Oglang
end Techuila
