import Techuila.Oglang.Printer

/-!
# Which trees have a printing

* `Program.print_prints`: the printer prints the trees that are `Shaped`.
* `Program.Prints.shaped`: no other tree has a printing with the tokens of a lexer.
-/

namespace Techuila
namespace Oglang

/-- Tokens that a lexer makes. -/
def AllLexed (ts : List Token) : Prop := ∀ t ∈ ts, Lexed t

@[simp] theorem allLexed_nil : AllLexed [] := fun _ h => absurd h List.not_mem_nil

@[simp] theorem allLexed_cons {t : Token} {ts : List Token} :
    AllLexed (t :: ts) ↔ Lexed t ∧ AllLexed ts := List.forall_mem_cons

@[simp] theorem allLexed_append {a b : List Token} :
    AllLexed (a ++ b) ↔ AllLexed a ∧ AllLexed b := List.forall_mem_append

theorem allLexed_flatten {lists : List (List Token)} :
    AllLexed lists.flatten ↔ ∀ ts ∈ lists, AllLexed ts := List.forall_mem_flatten

/-! ## Tokens -/

theorem lexed_keyword : ∀ e ∈ Lexer.keywords, Lexed (fixed e.2) := by
  have hall : ∀ e ∈ Lexer.keywords, ((fixedText e.2).toList.head?.any isWordStart = true ∧
      (fixedText e.2).toList.tail.all isWordChar = true ∧ NUL ∉ (fixedText e.2).toList) ∧
      Lexer.wordKind (fixedText e.2) = e.2 := by decide +kernel
  intro e he
  obtain ⟨⟨hc, hcs, hnul⟩, hkind⟩ := hall e he
  refine ⟨(fixedText e.2).toList, [], ?_, hnul⟩
  show Spells e.2 (fixedText e.2).toList _ _
  generalize htext : (fixedText e.2).toList = text at hc hcs
  have hof : String.ofList text = fixedText e.2 := by rw [← htext, String.ofList_toList]
  cases text with
  | nil => cases hc
  | cons c cs =>
    have hspells : Spells (Lexer.wordKind (String.ofList (c :: cs))) (c :: cs) (c :: cs) [] :=
      .word hc (List.all_eq_true.mp hcs) fun d hd => by cases hd
    rwa [hof, hkind] at hspells

theorem lexed_operator : ∀ e ∈ operators, Lexed (fixed e.2) := by
  have hall : ∀ e ∈ operators, (fixedText e.2).toList = e.1 ∧ NUL ∉ e.1 ∧
      (∀ op ∈ operators, op.1 <+: e.1 ++ [] → op.1.length ≤ e.1.length) ∧
      ¬ ['/', '/'] <+: e.1 ++ [] := by decide +kernel
  intro e he
  obtain ⟨htext, hnul, hlong, hcomment⟩ := hall e he
  refine ⟨e.1, [], ?_, hnul⟩
  show Spells e.2 (fixedText e.2).toList _ _
  rw [htext]
  exact .operator he hlong hcomment

/-- The kinds whose text is fixed. -/
def fixedKinds : List TokenKind := Lexer.keywords.map Prod.snd ++ operators.map Prod.snd

@[simp] theorem lexed_fixed {kind : TokenKind} (h : kind ∈ fixedKinds) : Lexed (fixed kind) := by
  rcases List.mem_append.mp h with h | h
  · obtain ⟨e, he, rfl⟩ := List.mem_map.mp h
    exact lexed_keyword e he
  · obtain ⟨e, he, rfl⟩ := List.mem_map.mp h
    exact lexed_operator e he

theorem lexed_nameToken {name : String} (h : IsName name) : Lexed (nameToken name) := by
  obtain ⟨c, cs, htext, hc, hcs, hkind⟩ := h
  have hof : String.ofList (c :: cs) = name := by rw [← htext, String.ofList_toList]
  refine ⟨c :: cs, [], ?_, fun hm => ?_⟩
  · show Spells .identifier name.toList _ _
    rw [htext]
    have hspells : Spells (Lexer.wordKind (String.ofList (c :: cs))) (c :: cs) (c :: cs) [] :=
      .word hc hcs fun d hd => by cases hd
    rwa [hof, hkind] at hspells
  · rcases List.mem_cons.mp hm with rfl | hm
    · exact absurd hc (by decide)
    · exact absurd (hcs _ hm) (by decide)

theorem numeral_numberToken {value : Int} (h : IsInt value) : Numeral (numberToken value) value := by
  have htext : (numberToken value).text.toList = Nat.toDigits 10 value.toNat := String.toList_ofList
  rw [Numeral, htext]
  refine ⟨rfl, Nat.toDigits_ne_nil, fun c hc => ?_, ?_, h.2⟩
  · exact Nat.isDigit_of_mem_toDigits (by decide) (by decide) hc
  · rw [Nat.ofDigitChars_ten_toDigits]
    exact (Int.toNat_of_nonneg h.1).symm

theorem lexed_numeral {t : Token} {value : Int} (h : Numeral t value) : Lexed t := by
  obtain ⟨hkind, hne, hdigits, -⟩ := h
  refine ⟨t.text.toList, [], ?_, fun hm => absurd (hdigits _ hm) (by decide)⟩
  rw [hkind]
  generalize t.text.toList = text at hne hdigits
  cases text with
  | nil => exact absurd rfl hne
  | cons c cs =>
    obtain ⟨hc, hcs⟩ := List.forall_mem_cons.mp hdigits
    exact .integer hc hcs fun d hd => by cases hd

theorem lexed_stringToken {text : String} (h : NUL ∉ text.toList) : Lexed (stringToken text) := by
  refine ⟨'"' :: (escape text.toList ++ ['"']), [], .string (unescapes_escape _), fun hm => ?_⟩
  rcases List.mem_cons.mp hm with hm | hm
  · exact absurd hm (by decide)
  · rcases List.mem_append.mp hm with hm | hm
    · exact nul_not_mem_escape h hm
    · exact absurd (List.mem_singleton.mp hm) (by decide)

/-! ## Names and types -/

theorem IsName.no_dot {name : String} (h : IsName name) : '.' ∉ name.toList := by
  obtain ⟨c, cs, htext, hc, hcs, -⟩ := h
  rw [htext]
  intro hm
  rcases List.mem_cons.mp hm with rfl | hm
  · exact absurd hc (by decide)
  · exact absurd (hcs _ hm) (by decide)

theorem pathTokens_name {name : String} (h : IsName name) : pathTokens name = [nameToken name] := by
  have hdrop : name.toList.dropWhile (· ≠ '.') = [] :=
    List.dropWhile_eq_nil_iff.mpr fun c hc =>
      decide_eq_true fun e => h.no_dot (e ▸ hc)
  rw [pathTokens, hdrop]

theorem pathTokens_dotted {a b : String} (ha : IsName a) :
    pathTokens (a ++ "." ++ b) = [nameToken a, fixed .dot, nameToken b] := by
  have htext : (a ++ "." ++ b).toList = a.toList ++ '.' :: b.toList := by
    rw [String.toList_append, String.toList_append, List.append_assoc]
    rfl
  have hspan : (a.toList ++ '.' :: b.toList).takeWhile (· ≠ '.') = a.toList ∧
      (a.toList ++ '.' :: b.toList).dropWhile (· ≠ '.') = '.' :: b.toList :=
    span_eq (fun c hc => decide_eq_true fun e => ha.no_dot (e ▸ hc)) fun c hc => by cases hc; rfl
  rw [pathTokens, htext, hspan.2]
  show [nameToken (String.ofList _), _, nameToken (String.ofList b.toList)] = _
  rw [hspan.1, String.ofList_toList, String.ofList_toList]

theorem pathTokens_spec {path : String} (h : IsPath path) :
    PrintsPath path (pathTokens path) ∧ AllLexed (pathTokens path) := by
  have hdot : Lexed (fixed .dot) := lexed_fixed (by decide)
  rcases h with h | ⟨a, b, ha, hb, rfl⟩
  · rw [pathTokens_name h]
    exact ⟨PrintsPath.name (t := nameToken path) rfl, by simp [lexed_nameToken h]⟩
  · rw [pathTokens_dotted ha]
    exact ⟨PrintsPath.dotted (t := nameToken a) (u := nameToken b) rfl rfl rfl,
      by simp [lexed_nameToken ha, lexed_nameToken hb, hdot]⟩

theorem typeTokens_spec {type : String} (h : IsType type) :
    PrintsType type (typeTokens type) ∧ AllLexed (typeTokens type) := by
  have hfixed : ∀ kind ∈ [TokenKind.typeI32, .typePtr, .typeConstPtr], AllLexed [fixed kind] :=
    fun kind hk => by
      simp only [allLexed_cons, allLexed_nil, and_true]
      have hall : ∀ kind ∈ [TokenKind.typeI32, .typePtr, .typeConstPtr], kind ∈ fixedKinds := by decide
      exact lexed_fixed (hall kind hk)
  unfold typeTokens
  split
  · rename_i he
    exact he ▸ ⟨.i32 rfl, hfixed _ (by decide)⟩
  · split
    · rename_i he
      exact he ▸ ⟨.ptr rfl, hfixed _ (by decide)⟩
    · split
      · rename_i he
        exact he ▸ ⟨.constptr rfl, hfixed _ (by decide)⟩
      · rename_i h₁ h₂ h₃
        have hpath : IsPath type := h.resolve_left fun hm => by
          simp only [List.mem_cons, List.not_mem_nil, or_false] at hm
          rcases hm with hm | hm | hm
          · exact h₁ hm
          · exact h₂ hm
          · exact h₃ hm
        exact ⟨.path (pathTokens_spec hpath).1, (pathTokens_spec hpath).2⟩

theorem paramTokens_lexed {name type : String} (hname : IsName name) (htype : IsType type) :
    AllLexed (paramTokens name type) := by
  have hcolon : Lexed (fixed .colon) := lexed_fixed (by decide)
  simp [paramTokens, lexed_nameToken hname, hcolon, (typeTokens_spec htype).2]

theorem joins_commas : ∀ lists : List (List Token), Joins lists (commas lists)
  | [] => .nil
  | [_] => .one
  | _ :: us :: lists => .cons rfl (joins_commas (us :: lists))

theorem commas_lexed : ∀ {lists : List (List Token)}, (∀ ts ∈ lists, AllLexed ts) →
    AllLexed (commas lists)
  | [], _ => allLexed_nil
  | [_], h => h _ List.mem_cons_self
  | ts :: us :: lists, h => by
    have hcomma : Lexed (fixed .comma) := lexed_fixed (by decide)
    simp only [commas, allLexed_append, allLexed_cons]
    exact ⟨h ts List.mem_cons_self, hcomma,
      commas_lexed fun vs hvs => h vs (List.mem_cons_of_mem _ hvs)⟩

/-! ## Expressions -/

theorem opToken_spec {op : Char} (h : ∃ n kind, (kind, op) ∈ operatorsAt n) :
    ((opToken op).kind, op) ∈ operatorsAt (opLevel op) ∧ opLevel op < 4 ∧ Lexed (opToken op) := by
  have hall : ∀ n ∈ [0, 1, 2, 3], ∀ e ∈ operatorsAt n,
      ((opToken e.2).kind, e.2) ∈ operatorsAt (opLevel e.2) ∧ opLevel e.2 < 4 ∧
      (opToken e.2).kind ∈ fixedKinds := by decide
  obtain ⟨n, kind, hmem⟩ := h
  obtain ⟨hop, hlt, hfixed⟩ := hall n (level_cases hmem) _ hmem
  exact ⟨hop, hlt, lexed_fixed hfixed⟩

theorem opLevel_le (op : Char) : opLevel op ≤ 3 := by
  unfold opLevel
  split_ifs <;> omega

theorem Expr.level_le (e : Expr) : e.level ≤ 5 := by
  cases e with
  | binary op _ _ => exact (opLevel_le op).trans (by decide)
  | unary | addressOf | deref => exact Nat.le_succ 4
  | integer | «variable» | index | fieldAccess | asm | call => exact Nat.le_refl 5

theorem Expr.Prints.lower {m : Nat} {e : Expr} {ts : List Token} (h : e.Prints m ts) (hm : m ≤ 5) :
    ∀ n ≤ m, e.Prints n ts := by
  intro n hn
  induction hn using Nat.decreasingInduction with
  | self => exact h
  | of_succ k hk ih => exact .lift (by omega) ih

/-- With parentheses where they are required, an expression prints at every level. -/
theorem prints_parens {e : Expr} {ts : List Token} (h : e.Prints e.level ts) {n : Nat}
    (hn : n ≤ 5) : e.Prints n (parens n e.level ts) := by
  unfold parens
  split
  · have hparen : e.Prints 5 (fixed .lParen :: (ts ++ [fixed .rParen])) :=
      .paren rfl (h.lower e.level_le 0 (Nat.zero_le _)) rfl
    exact hparen.lower (Nat.le_refl 5) n hn
  · exact h.lower e.level_le n (by omega)

theorem parens_lexed {ts : List Token} (h : AllLexed ts) (n level : Nat) :
    AllLexed (parens n level ts) := by
  have hl : Lexed (fixed .lParen) := lexed_fixed (by decide)
  have hr : Lexed (fixed .rParen) := lexed_fixed (by decide)
  unfold parens
  split
  · simp [hl, hr, h]
  · exact h

mutual

theorem Expr.print_spec : (e : Expr) → e.Shaped → e.Prints e.level e.print ∧ AllLexed e.print
  | .integer value, h => by
    have hn := numeral_numberToken h
    exact ⟨.integer hn, by simp (disch := decide) [Expr.print, lexed_numeral hn]⟩
  | .variable name, h => by
    have p : Expr.Prints 5 (.variable (nameToken name).text) [nameToken name] := .var rfl
    exact ⟨p, by simp (disch := decide) [Expr.print, lexed_nameToken h]⟩
  | .binary op left right, ⟨hop, hleft, hright⟩ => by
    obtain ⟨hmem, hlt, hlexed⟩ := opToken_spec hop
    obtain ⟨pleft, lleft⟩ := left.print_spec hleft
    obtain ⟨pright, lright⟩ := right.print_spec hright
    have p : Expr.Prints (opLevel op) (.binary op left right) (Expr.binary op left right).print :=
      .binary hmem (prints_parens pleft (by omega)) (prints_parens pright (by omega))
    refine ⟨p, ?_⟩
    simp (disch := decide) [Expr.print, hlexed, parens_lexed lleft, parens_lexed lright]
  | .unary op operand, ⟨hop, h⟩ => by
    obtain ⟨p, l⟩ := operand.print_spec h
    rw [hop]
    exact ⟨.unary rfl (prints_parens p (by omega)), by simp (disch := decide) [Expr.print, parens_lexed l]⟩
  | .addressOf name, h => by
    have p : Expr.Prints 4 (.addressOf (nameToken name).text) [fixed .ampersand, nameToken name] :=
      .addressOf rfl rfl
    exact ⟨p, by simp (disch := decide) [Expr.print, lexed_nameToken h]⟩
  | .deref pointer, h => by
    obtain ⟨p, l⟩ := pointer.print_spec h
    exact ⟨.deref rfl (prints_parens p (by omega)), by simp (disch := decide) [Expr.print, parens_lexed l]⟩
  | .index arrayName index, ⟨hname, h⟩ => by
    obtain ⟨p, l⟩ := index.print_spec h
    have p' : Expr.Prints 5 (.index (nameToken arrayName).text index)
        (nameToken arrayName :: fixed .lBracket :: (index.print ++ [fixed .rBracket])) :=
      .index rfl rfl (p.lower index.level_le 0 (Nat.zero_le _)) rfl
    exact ⟨p', by simp (disch := decide) [Expr.print, l, lexed_nameToken hname]⟩
  | .fieldAccess path fieldName, ⟨hpath, hname⟩ => by
    obtain ⟨p, l⟩ := pathTokens_spec hpath
    have p' : Expr.Prints 5 (.fieldAccess path (nameToken fieldName).text)
        (pathTokens path ++ [fixed .dot, nameToken fieldName]) := .fieldAccess p rfl rfl
    exact ⟨p', by simp (disch := decide) [Expr.print, l, lexed_nameToken hname]⟩
  | .asm templateText, h => by
    have p : Expr.Prints 5 (.asm (stringToken templateText).text)
        [fixed .asm, fixed .lParen, stringToken templateText, fixed .rParen] := .asm rfl rfl rfl rfl
    exact ⟨p, by simp (disch := decide) [Expr.print, lexed_stringToken h]⟩
  | .call callee args, ⟨hpath, hargs⟩ => by
    obtain ⟨p, l⟩ := pathTokens_spec hpath
    obtain ⟨hlen, hprints, hlexed⟩ := printArgs_spec args hargs
    exact ⟨.call p rfl hlen hprints (joins_commas _) rfl,
      by simp (disch := decide) [Expr.print, encloseTokens, l, commas_lexed hlexed]⟩

theorem printArgs_spec : (args : List Expr) → ShapedArgs args →
    args.length = (printArgs args).length ∧
    (∀ p ∈ args.zip (printArgs args), p.1.Prints 0 p.2) ∧ ∀ ts ∈ printArgs args, AllLexed ts
  | [], _ => ⟨rfl, fun _ h => absurd h List.not_mem_nil, fun _ h => absurd h List.not_mem_nil⟩
  | arg :: args, ⟨harg, hargs⟩ => by
    obtain ⟨p, l⟩ := arg.print_spec harg
    obtain ⟨hlen, hprints, hlexed⟩ := printArgs_spec args hargs
    exact ⟨congrArg Nat.succ hlen,
      List.forall_mem_cons.mpr ⟨p.lower arg.level_le 0 (Nat.zero_le _), hprints⟩,
      List.forall_mem_cons.mpr ⟨l, hlexed⟩⟩

end

/-! ## Statements -/

/-- An expression that no level restricts. -/
theorem Expr.print_spec₀ {e : Expr} (h : e.Shaped) : e.Prints 0 e.print ∧ AllLexed e.print :=
  ⟨(e.print_spec h).1.lower e.level_le 0 (Nat.zero_le _), (e.print_spec h).2⟩

mutual

theorem Statement.print_spec : (s : Statement) → s.Shaped → s.Prints s.print ∧ AllLexed s.print
  | .letStmt name type initializer, ⟨hname, htype, he⟩ => by
    obtain ⟨p, l⟩ := Expr.print_spec₀ he
    have hs : Statement.Prints (.letStmt (nameToken name).text type initializer)
        (Statement.letStmt name type initializer).print :=
      .letStmt rfl rfl rfl (typeTokens_spec htype).1 rfl p rfl
    exact ⟨hs, by simp (disch := decide) [Statement.print, paramTokens_lexed hname htype, l]⟩
  | .returnStmt value, he => by
    obtain ⟨p, l⟩ := Expr.print_spec₀ he
    exact ⟨.returnStmt rfl p rfl, by simp (disch := decide) [Statement.print, l]⟩
  | .assignStmt name value, ⟨hname, he⟩ => by
    obtain ⟨p, l⟩ := Expr.print_spec₀ he
    have hs : Statement.Prints (.assignStmt (nameToken name).text value)
        (Statement.assignStmt name value).print := .assignStmt rfl rfl p rfl
    exact ⟨hs, by simp (disch := decide) [Statement.print, lexed_nameToken hname, l]⟩
  | .storeStmt pointer value, ⟨hpointer, he⟩ => by
    obtain ⟨p, l⟩ := Expr.print_spec₀ he
    obtain ⟨p', l'⟩ := pointer.print_spec hpointer
    exact ⟨.storeStmt rfl (prints_parens p' (by decide)) rfl p rfl,
      by simp (disch := decide) [Statement.print, parens_lexed l', l]⟩
  | .arrayDecl name elementType size, ⟨hname, htype, hsize⟩ => by
    have hn := numeral_numberToken hsize
    have hs : Statement.Prints (.arrayDecl (nameToken name).text elementType size)
        (Statement.arrayDecl name elementType size).print :=
      .arrayDecl rfl rfl rfl (typeTokens_spec htype).1 rfl hn rfl rfl
    exact ⟨hs, by simp (disch := decide) [Statement.print, paramTokens_lexed hname htype,
      lexed_numeral hn]⟩
  | .indexStore arrayName index value, ⟨hname, hindex, he⟩ => by
    obtain ⟨p, l⟩ := Expr.print_spec₀ he
    obtain ⟨p', l'⟩ := Expr.print_spec₀ hindex
    have hs : Statement.Prints (.indexStore (nameToken arrayName).text index value)
        (Statement.indexStore arrayName index value).print :=
      .indexStore rfl rfl p' rfl rfl p rfl
    exact ⟨hs, by simp (disch := decide) [Statement.print, lexed_nameToken hname, l, l']⟩
  | .structVarDecl name structType, ⟨hname, htype⟩ => by
    have hs : Statement.Prints (.structVarDecl (nameToken name).text structType)
        (Statement.structVarDecl name structType).print :=
      .structVarDecl rfl rfl rfl (typeTokens_spec htype).1 rfl
    exact ⟨hs, by simp (disch := decide) [Statement.print, paramTokens_lexed hname htype]⟩
  | .fieldStore structVarName fieldName value, ⟨hname, hfield, he⟩ => by
    obtain ⟨p, l⟩ := Expr.print_spec₀ he
    have hs : Statement.Prints
        (.fieldStore (nameToken structVarName).text (nameToken fieldName).text value)
        (Statement.fieldStore structVarName fieldName value).print :=
      .fieldStore rfl rfl rfl rfl p rfl
    exact ⟨hs, by simp (disch := decide) [Statement.print, lexed_nameToken hname,
      lexed_nameToken hfield, l]⟩
  | .whileStmt condition body, ⟨he, hbody⟩ => by
    obtain ⟨p, l⟩ := Expr.print_spec₀ he
    obtain ⟨hlen, hprints, hlexed⟩ := printBlock_spec body hbody
    exact ⟨.whileStmt rfl rfl p rfl rfl hlen hprints rfl,
      by simp (disch := decide) [Statement.print, l, allLexed_flatten.mpr hlexed]⟩
  | .ifStmt condition thenBody [], ⟨he, hbody, _⟩ => by
    obtain ⟨p, l⟩ := Expr.print_spec₀ he
    obtain ⟨hlen, hprints, hlexed⟩ := printBlock_spec thenBody hbody
    exact ⟨.ifStmt rfl rfl p rfl rfl hlen hprints rfl,
      by simp (disch := decide) [Statement.print, l, allLexed_flatten.mpr hlexed]⟩
  | .ifStmt condition thenBody (statement :: elseBody), ⟨he, hbody, hs, helse⟩ => by
    obtain ⟨p, l⟩ := Expr.print_spec₀ he
    obtain ⟨hlen, hprints, hlexed⟩ := printBlock_spec thenBody hbody
    obtain ⟨p', l'⟩ := statement.print_spec hs
    obtain ⟨hlen', hprints', hlexed'⟩ := printBlock_spec elseBody helse
    exact ⟨.ifElse rfl rfl p rfl rfl hlen hprints rfl rfl rfl (congrArg Nat.succ hlen')
      (List.forall_mem_cons.mpr ⟨p', hprints'⟩) rfl,
      by simp (disch := decide) [Statement.print, l, l', allLexed_flatten.mpr hlexed,
        allLexed_flatten.mpr hlexed']⟩

theorem printBlock_spec : (body : List Statement) → ShapedBlock body →
    body.length = (printBlock body).length ∧
    (∀ p ∈ body.zip (printBlock body), p.1.Prints p.2) ∧ ∀ ts ∈ printBlock body, AllLexed ts
  | [], _ => ⟨rfl, fun _ h => absurd h List.not_mem_nil, fun _ h => absurd h List.not_mem_nil⟩
  | statement :: body, ⟨hs, hbody⟩ => by
    obtain ⟨p, l⟩ := statement.print_spec hs
    obtain ⟨hlen, hprints, hlexed⟩ := printBlock_spec body hbody
    exact ⟨congrArg Nat.succ hlen, List.forall_mem_cons.mpr ⟨p, hprints⟩,
      List.forall_mem_cons.mpr ⟨l, hlexed⟩⟩

end

/-! ## Declarations -/

theorem forall₂_map {α : Type} {R : α → List Token → Prop} {f : α → List Token} {xs : List α}
    (h : ∀ x ∈ xs, R x (f x)) : List.Forall₂ R xs (xs.map f) :=
  List.forall₂_map_right_iff.mpr (List.forall₂_same.mpr h)

theorem encloseTokens_spec {α : Type} {R : α → List Token → Prop} {f : α → List Token}
    {xs : List α} (opening closing : TokenKind) (h : ∀ x ∈ xs, R x (f x) ∧ AllLexed (f x))
    (ho : opening ∈ fixedKinds) (hc : closing ∈ fixedKinds) :
    Encloses opening closing R xs (encloseTokens opening closing (xs.map f)) ∧
      AllLexed (encloseTokens opening closing (xs.map f)) := by
  refine ⟨⟨fixed opening, fixed closing, _, rfl, rfl,
    ⟨_, forall₂_map fun x hx => (h x hx).1, joins_commas _⟩, rfl⟩, ?_⟩
  have hlexed : AllLexed (commas (xs.map f)) := commas_lexed fun ts hts => by
    obtain ⟨x, hx, rfl⟩ := List.mem_map.mp hts
    exact (h x hx).2
  simp [encloseTokens, lexed_fixed ho, lexed_fixed hc, hlexed]

theorem paramTokens_spec {param : Param} (h : param.Shaped) :
    param.Prints (paramTokens param.name param.type) ∧
      AllLexed (paramTokens param.name param.type) := by
  have p : Param.Prints ⟨(nameToken param.name).text, param.type⟩
      (paramTokens param.name param.type) := .mk rfl rfl (typeTokens_spec h.2).1
  exact ⟨p, paramTokens_lexed h.1 h.2⟩

theorem nameTokens_spec {name : String} (h : IsName name) :
    PrintsName name [nameToken name] ∧ AllLexed [nameToken name] := by
  have p : PrintsName (nameToken name).text [nameToken name] := .mk rfl
  exact ⟨p, by simp [lexed_nameToken h]⟩

theorem Decl.print_spec (decl : Decl) (h : decl.Shaped) :
    decl.Prints decl.print ∧ AllLexed decl.print := by
  cases decl with
  | import_ importDecl =>
    have p : ImportDecl.Prints ⟨(nameToken importDecl.moduleName).text⟩
        (Decl.import_ importDecl).print := .mk rfl rfl rfl
    exact ⟨.import_ p, by simp (disch := decide) [Decl.print, lexed_nameToken h]⟩
  | struct structDecl =>
    obtain ⟨hname, hfields⟩ := h
    obtain ⟨pfields, lfields⟩ := encloseTokens_spec .lBrace .rBrace
      (fun param hp => paramTokens_spec (hfields param hp)) (by decide) (by decide)
    have p : StructDecl.Prints ⟨(nameToken structDecl.name).text, structDecl.fields⟩
        (Decl.struct structDecl).print := .mk rfl rfl pfields
    exact ⟨.struct p, by simp (disch := decide) [Decl.print, lexed_nameToken hname, lfields]⟩
  | enum enumDecl =>
    obtain ⟨hname, hvariants⟩ := h
    obtain ⟨pvariants, lvariants⟩ := encloseTokens_spec .lBrace .rBrace
      (fun name hn => nameTokens_spec (hvariants name hn)) (by decide) (by decide)
    have p : EnumDecl.Prints ⟨(nameToken enumDecl.name).text, enumDecl.variants⟩
        (Decl.enum enumDecl).print := .mk rfl rfl pvariants
    exact ⟨.enum p, by simp (disch := decide) [Decl.print, lexed_nameToken hname, lvariants]⟩
  | function f =>
    obtain ⟨hname, hparams, htype, hbody⟩ := h
    obtain ⟨pparams, lparams⟩ := encloseTokens_spec .lParen .rParen
      (fun param hp => paramTokens_spec (hparams param hp)) (by decide) (by decide)
    obtain ⟨hlen, hprints, hlexed⟩ := printBlock_spec f.body hbody
    have p : Function.Prints ⟨(nameToken f.name).text, f.params, f.returnType, f.body⟩
        (Decl.function f).print :=
      .mk rfl rfl pparams rfl (typeTokens_spec htype).1 rfl ⟨_, forall₂_of_zip hlen hprints, rfl⟩ rfl
    exact ⟨.function p, by simp (disch := decide) [Decl.print, lexed_nameToken hname, lparams,
      (typeTokens_spec htype).2, allLexed_flatten.mpr hlexed]⟩

/-- Declarations of one sort, where `put` puts their sort behind what is there. -/
theorem foldl_add {α : Type} (sort : α → Decl) (put : Program → List α → Program)
    (hnil : ∀ program, put program [] = program)
    (hcons : ∀ program x l, put (program.add (sort x)) l = put program (x :: l)) (l : List α)
    (program : Program) : (l.map sort).foldl Program.add program = put program l := by
  induction l generalizing program with
  | nil => exact (hnil program).symm
  | cons x l ih => rw [List.map_cons, List.foldl_cons, ih, hcons]

theorem foldl_decls (program : Program) :
    program.decls.foldl Program.add Program.empty = program := by
  rw [Program.decls, List.foldl_append, List.foldl_append, List.foldl_append,
    foldl_add .import_ (fun p l => { p with imports := p.imports ++ l }),
    foldl_add .struct (fun p l => { p with structs := p.structs ++ l }),
    foldl_add .enum (fun p l => { p with enums := p.enums ++ l }),
    foldl_add .function (fun p l => { p with functions := p.functions ++ l })]
  · rfl
  all_goals intros; simp [Program.add]

/-- The printer prints. -/
theorem Program.print_prints {program : Program} (h : program.Shaped) :
    program.Prints program.print ∧ AllLexed program.print := by
  refine ⟨⟨program.decls, _, forall₂_map fun decl hd => (decl.print_spec (h decl hd)).1, rfl,
    (foldl_decls program).symm⟩, ?_⟩
  refine allLexed_flatten.mpr fun ts hts => ?_
  obtain ⟨decl, hd, rfl⟩ := List.mem_map.mp hts
  exact (decl.print_spec (h decl hd)).2

/-! ## No other trees -/

theorem Lexed.isName {t : Token} (h : Lexed t) (hk : t.kind = .identifier) : IsName t.text :=
  h.spec.2.1 hk

theorem Lexed.no_nul {t : Token} (h : Lexed t) (hk : t.kind = .stringLiteral) :
    NUL ∉ t.text.toList := h.spec.2.2.2 hk

theorem Numeral.isInt {t : Token} {value : Int} (h : Numeral t value) : IsInt value := by
  obtain ⟨-, -, -, rfl, hlt⟩ := h
  exact ⟨Int.natCast_nonneg _, hlt⟩

theorem PrintsPath.isPath {path : String} {ts : List Token} (h : PrintsPath path ts)
    (hl : AllLexed ts) : IsPath path := by
  cases h with
  | name ht =>
    simp only [allLexed_cons] at hl
    exact .inl (hl.1.isName ht)
  | dotted ht _ hu =>
    simp only [allLexed_cons] at hl
    exact .inr ⟨_, _, hl.1.isName ht, hl.2.2.1.isName hu, rfl⟩

theorem PrintsType.isType {type : String} {ts : List Token} (h : PrintsType type ts)
    (hl : AllLexed ts) : IsType type := by
  cases h with
  | i32 _ => exact .inl (by simp)
  | ptr _ => exact .inl (by simp)
  | constptr _ => exact .inl (by simp)
  | path h => exact .inr (h.isPath hl)

theorem Joins.allLexed {lists : List (List Token)} {inner : List Token} (h : Joins lists inner)
    (hl : AllLexed inner) : ∀ ts ∈ lists, AllLexed ts := by
  induction h with
  | nil => exact fun _ h => absurd h List.not_mem_nil
  | one => exact List.forall_mem_singleton.mpr hl
  | cons _ _ ih =>
    simp only [allLexed_append, allLexed_cons] at hl
    exact List.forall_mem_cons.mpr ⟨hl.1, ih hl.2.2⟩

theorem shapedArgs_iff (args : List Expr) : ShapedArgs args ↔ ∀ arg ∈ args, arg.Shaped := by
  induction args with
  | nil => simp [ShapedArgs]
  | cons arg args ih => simp [ShapedArgs, ih]

theorem shapedBlock_iff (body : List Statement) : ShapedBlock body ↔ ∀ s ∈ body, s.Shaped := by
  induction body with
  | nil => simp [ShapedBlock]
  | cons s body ih => simp [ShapedBlock, ih]

/-- What holds of the items, from what holds of each item and its tokens. -/
theorem forall_of_zip {α : Type} {Q : α → Prop} {xs : List α} {lists : List (List Token)}
    (hlen : xs.length = lists.length) (h : ∀ p ∈ xs.zip lists, AllLexed p.2 → Q p.1)
    (hl : ∀ ts ∈ lists, AllLexed ts) : ∀ x ∈ xs, Q x := by
  induction xs generalizing lists with
  | nil => exact fun _ h => absurd h List.not_mem_nil
  | cons x xs ih =>
    match lists, hlen with
    | ts :: lists, hlen =>
      obtain ⟨hts, hl⟩ := List.forall_mem_cons.mp hl
      exact List.forall_mem_cons.mpr ⟨h _ List.mem_cons_self hts,
        ih (Nat.succ.inj hlen) (fun p hp => h p (List.mem_cons_of_mem _ hp)) hl⟩

theorem Expr.Prints.shaped {n : Nat} {e : Expr} {ts : List Token} (h : e.Prints n ts) :
    AllLexed ts → e.Shaped := by
  induction h with
  | lift _ _ ih => exact ih
  | binary hop _ _ iha ihb =>
    intro hl
    simp only [allLexed_append, allLexed_cons] at hl
    exact ⟨⟨_, _, hop⟩, iha hl.1, ihb hl.2.2⟩
  | unary _ _ ih => exact fun hl => ⟨rfl, ih (allLexed_cons.mp hl).2⟩
  | addressOf _ hname =>
    intro hl
    simp only [allLexed_cons] at hl
    exact hl.2.1.isName hname
  | deref _ _ ih => exact fun hl => ih (allLexed_cons.mp hl).2
  | integer ht => exact fun _ => ht.isInt
  | var hname => exact fun hl => (allLexed_cons.mp hl).1.isName hname
  | index hname _ _ _ ih =>
    intro hl
    simp only [allLexed_append, allLexed_cons] at hl
    exact ⟨hl.1.isName hname, ih hl.2.2.1⟩
  | fieldAccess hpath _ hfield =>
    intro hl
    simp only [allLexed_append, allLexed_cons] at hl
    exact ⟨hpath.isPath hl.1, hl.2.2.1.isName hfield⟩
  | asm _ _ htext _ =>
    intro hl
    simp only [allLexed_cons] at hl
    exact hl.2.2.1.no_nul htext
  | call hpath _ hlen _ hjoins _ ih =>
    intro hl
    simp only [allLexed_append, allLexed_cons] at hl
    exact ⟨hpath.isPath hl.1,
      (shapedArgs_iff _).mpr (forall_of_zip hlen ih (hjoins.allLexed hl.2.2.1))⟩
  | paren _ _ _ ih =>
    intro hl
    simp only [allLexed_append, allLexed_cons] at hl
    exact ih hl.2.1

theorem shapedBlock_of_zip {body : List Statement} {lists : List (List Token)}
    (hlen : body.length = lists.length)
    (ih : ∀ p ∈ body.zip lists, AllLexed p.2 → p.1.Shaped) (hl : AllLexed lists.flatten) :
    ShapedBlock body :=
  (shapedBlock_iff body).mpr (forall_of_zip hlen ih (allLexed_flatten.mp hl))

theorem Statement.Prints.shaped {s : Statement} {ts : List Token} (h : s.Prints ts) :
    AllLexed ts → s.Shaped := by
  induction h with
  | letStmt _ hname _ htype _ he _ =>
    intro hl
    simp only [allLexed_append, allLexed_cons] at hl
    exact ⟨hl.2.1.isName hname, htype.isType hl.2.2.2.1, he.shaped hl.2.2.2.2.2.1⟩
  | structVarDecl _ hname _ htype _ =>
    intro hl
    simp only [allLexed_append, allLexed_cons] at hl
    exact ⟨hl.2.1.isName hname, htype.isType hl.2.2.2.1⟩
  | arrayDecl _ hname _ htype _ hsize _ _ =>
    intro hl
    simp only [allLexed_append, allLexed_cons] at hl
    exact ⟨hl.2.1.isName hname, htype.isType hl.2.2.2.1, hsize.isInt⟩
  | returnStmt _ he _ =>
    intro hl
    simp only [allLexed_append, allLexed_cons] at hl
    exact he.shaped hl.2.1
  | assignStmt hname _ he _ =>
    intro hl
    simp only [allLexed_append, allLexed_cons] at hl
    exact ⟨hl.1.isName hname, he.shaped hl.2.2.1⟩
  | indexStore hname _ hindex _ _ he _ =>
    intro hl
    simp only [allLexed_append, allLexed_cons] at hl
    exact ⟨hl.1.isName hname, hindex.shaped hl.2.2.1, he.shaped hl.2.2.2.2.2.1⟩
  | fieldStore hname _ hfield _ he _ =>
    intro hl
    simp only [allLexed_append, allLexed_cons] at hl
    exact ⟨hl.1.isName hname, hl.2.2.1.isName hfield, he.shaped hl.2.2.2.2.1⟩
  | storeStmt _ hpointer _ he _ =>
    intro hl
    simp only [allLexed_append, allLexed_cons] at hl
    exact ⟨hpointer.shaped hl.2.1, he.shaped hl.2.2.2.1⟩
  | whileStmt _ _ he _ _ hlen _ _ ih =>
    intro hl
    simp only [allLexed_append, allLexed_cons] at hl
    exact ⟨he.shaped hl.2.2.1, shapedBlock_of_zip hlen ih hl.2.2.2.2.2.1⟩
  | ifStmt _ _ he _ _ hlen _ _ ih =>
    intro hl
    simp only [allLexed_append, allLexed_cons] at hl
    exact ⟨he.shaped hl.2.2.1, shapedBlock_of_zip hlen ih hl.2.2.2.2.2.1, trivial⟩
  | ifElse _ _ he _ _ hlen _ _ _ _ hlen' _ _ ih ih' =>
    intro hl
    simp only [allLexed_append, allLexed_cons] at hl
    exact ⟨he.shaped hl.2.2.1, shapedBlock_of_zip hlen ih hl.2.2.2.2.2.1,
      shapedBlock_of_zip hlen' ih' hl.2.2.2.2.2.2.2.2.2.1⟩

theorem Encloses.forall {α : Type} {opening closing : TokenKind} {R : α → List Token → Prop}
    {items : List α} {ts : List Token} (h : Encloses opening closing R items ts) {Q : α → Prop}
    (hQ : ∀ x ts, R x ts → AllLexed ts → Q x) (hl : AllLexed ts) : ∀ x ∈ items, Q x := by
  obtain ⟨l, r, inner, -, -, ⟨lists, hlists, hjoins⟩, rfl⟩ := h
  simp only [allLexed_append, allLexed_cons] at hl
  obtain ⟨hlen, hzip⟩ := zip_of_forall₂ hlists
  exact forall_of_zip hlen (fun p hp => hQ _ _ (hzip p hp)) (hjoins.allLexed hl.2.1)

theorem Param.Prints.shaped {param : Param} {ts : List Token} (h : param.Prints ts)
    (hl : AllLexed ts) : param.Shaped := by
  obtain ⟨hname, -, htype⟩ := h
  simp only [allLexed_cons] at hl
  exact ⟨hl.1.isName hname, htype.isType hl.2.2⟩

theorem PrintsName.isName {name : String} {ts : List Token} (h : PrintsName name ts)
    (hl : AllLexed ts) : IsName name := by
  obtain ⟨hname⟩ := h
  exact (allLexed_cons.mp hl).1.isName hname

theorem Decl.Prints.shaped {decl : Decl} {ts : List Token} (h : decl.Prints ts)
    (hl : AllLexed ts) : decl.Shaped := by
  cases h with
  | import_ h =>
    obtain ⟨-, hname, -⟩ := h
    simp only [allLexed_cons] at hl
    exact hl.2.1.isName hname
  | struct h =>
    obtain ⟨-, hname, hfields⟩ := h
    simp only [allLexed_cons] at hl
    exact ⟨hl.2.1.isName hname, hfields.forall (fun _ _ => Param.Prints.shaped) hl.2.2⟩
  | enum h =>
    obtain ⟨-, hname, hvariants⟩ := h
    simp only [allLexed_cons] at hl
    exact ⟨hl.2.1.isName hname, hvariants.forall (fun _ _ => PrintsName.isName) hl.2.2⟩
  | function h =>
    obtain ⟨-, hname, hparams, -, htype, -, ⟨lists, hbody, rfl⟩, -⟩ := h
    simp only [allLexed_append, allLexed_cons] at hl
    obtain ⟨hlen, hzip⟩ := zip_of_forall₂ hbody
    exact ⟨hl.2.1.isName hname, hparams.forall (fun _ _ => Param.Prints.shaped) hl.2.2.1,
      htype.isType hl.2.2.2.2.1,
      shapedBlock_of_zip hlen (fun p hp => (hzip p hp).shaped) hl.2.2.2.2.2.2.1⟩

theorem mem_decls_foldl (decls : List Decl) : ∀ (program : Program) (decl : Decl),
    decl ∈ (decls.foldl Program.add program).decls ↔ decl ∈ program.decls ∨ decl ∈ decls := by
  induction decls with
  | nil => simp
  | cons d decls ih =>
    intro program decl
    have hadd : decl ∈ (program.add d).decls ↔ decl ∈ program.decls ∨ decl = d := by
      cases d <;> simp [Program.add, Program.decls, or_assoc, or_comm, or_left_comm]
    rw [List.foldl_cons, ih, hadd, List.mem_cons, or_assoc]

/-- A program that is printed with the tokens of a lexer has the shape. -/
theorem Program.Prints.shaped {program : Program} {ts : List Token} (h : program.Prints ts)
    (hl : AllLexed ts) : program.Shaped := by
  obtain ⟨decls, lists, hlists, rfl, rfl⟩ := h
  obtain ⟨hlen, hzip⟩ := zip_of_forall₂ hlists
  have hshaped : ∀ decl ∈ decls, decl.Shaped :=
    forall_of_zip hlen (fun p hp => (hzip p hp).shaped) (allLexed_flatten.mp hl)
  intro decl hdecl
  rcases (mem_decls_foldl decls Program.empty decl).mp hdecl with h | h
  · exact absurd h List.not_mem_nil
  · exact hshaped decl h

end Oglang
end Techuila
