import Techuila.Oglang.Lexical

/-!
# The lexer accounts for every character (`lexer/lexer.cpp`)

* `tokenizeWithin_cut`: the lexer does not look behind a NUL byte.
* `scan_sound`, `scan_complete`: it reads exactly the spellings of the grammar.
* `tokenize_accounts`: for which sources the tokens account for the whole source.
-/

namespace Techuila
namespace Oglang
namespace Lexer

/-! ## NUL bytes -/

/-- A text up to its first NUL. -/
def cutList (text : List Char) : List Char := text.takeWhile fun c => c != NUL

def cut (l : Lexer) : Lexer := ⟨cutList l.rest, l.pos⟩

theorem cutList_nul (rest : List Char) : cutList (NUL :: rest) = [] := by
  rw [cutList, List.takeWhile_cons_of_neg (by simp)]

theorem cutList_cons {c : Char} (h : c ≠ NUL) (rest : List Char) :
    cutList (c :: rest) = c :: cutList rest := List.takeWhile_cons_of_pos (by simp [h])

theorem nul_not_mem_cutList (text : List Char) : NUL ∉ cutList text := fun h => by
  have := List.mem_takeWhile_imp h
  simp at this

theorem cutList_eq_self {text : List Char} (h : NUL ∉ text) : cutList text = text :=
  List.takeWhile_eq_self_iff.mpr fun c hc => by
    have : c ≠ NUL := fun e => h (e ▸ hc)
    simpa using this

theorem peek_cut (l : Lexer) : l.cut.peek = l.peek := by
  obtain ⟨rest, pos⟩ := l
  cases rest with
  | nil => rfl
  | cons c rest =>
    by_cases h : c = NUL
    · subst h
      rw [cut, cutList_nul]
      rfl
    · rw [cut, cutList_cons h]
      rfl

theorem advance_cut (l : Lexer) : l.cut.advance = l.advance.cut := by
  obtain ⟨rest, pos⟩ := l
  cases rest with
  | nil => rfl
  | cons c rest =>
    by_cases h : c = NUL
    · subst h
      simp only [cut, cutList_nul, advance, if_true]
    · simp only [cut, cutList_cons h, advance, if_neg h]

theorem advanceWhile_cut {p : Char → Bool} (hp : p NUL = false) (rest : List Char)
    (pos : Position) : advanceWhile p (cutList rest) pos =
      ((advanceWhile p rest pos).1, (advanceWhile p rest pos).2.cut) := by
  induction rest generalizing pos with
  | nil => rfl
  | cons c rest ih =>
    by_cases h : c = NUL
    · subst h
      rw [cutList_nul, advanceWhile, advanceWhile, if_neg (by simp [hp]), cut, cutList_nul]
    · rw [cutList_cons h, advanceWhile, advanceWhile]
      split
      · rw [ih]
      · rw [cut, cutList_cons h]

theorem head?_cutList {d : Char} (hd : d ≠ NUL) (rest : List Char) :
    ((cutList rest).head? == some d) = (rest.head? == some d) := by
  cases rest with
  | nil => rfl
  | cons c rest =>
    by_cases h : c = NUL
    · subst h
      rw [cutList_nul]
      simp [Ne.symm hd]
    · rw [cutList_cons h]
      rfl

theorem skipWhitespace_cut (inComment : Bool) (rest : List Char) (pos : Position) :
    skipWhitespace inComment (cutList rest) pos = (skipWhitespace inComment rest pos).cut := by
  induction rest generalizing inComment pos with
  | nil => rfl
  | cons c rest ih =>
    by_cases h : c = NUL
    · subst h
      have hs : isSpace NUL = false := by decide
      have hslash : (NUL == '/') = false := by decide
      rw [cutList_nul, skipWhitespace, skipWhitespace]
      simp [hs, hslash, cut, cutList_nul]
    · rw [cutList_cons h, skipWhitespace, skipWhitespace, ih, ih,
        head?_cutList (by decide : '/' ≠ NUL)]
      split
      · rfl
      · split
        · rfl
        · split
          · rfl
          · rw [cut, cutList_cons h]

/-! ### String literals -/

theorem stringBody_nul (rest : List Char) (pos : Position) :
    stringBody (NUL :: rest) pos = none := by
  cases rest <;> simp [stringBody]

theorem stringBody_quote (rest : List Char) (pos : Position) :
    stringBody ('"' :: rest) pos = some ([], ⟨rest, pos.next '"'⟩) := by
  have h : '"' ≠ NUL := by decide
  cases rest <;> simp [stringBody, h]

theorem stringBody_escape {c : Char} (hc : c = '"' ∨ c = '\\') (rest : List Char)
    (pos : Position) : stringBody ('\\' :: c :: rest) pos =
      (stringBody rest ((pos.next '\\').next c)).map fun r => (c :: r.1, r.2) := by
  have h : '\\' ≠ NUL := by decide
  simp [stringBody, h, hc]

theorem stringBody_char {ch : Char} (hn : ch ≠ NUL) (hq : ch ≠ '"') {rest : List Char}
    (h : ch = '\\' → ∀ c ∈ rest.head?, c ≠ '"' ∧ c ≠ '\\') (pos : Position) :
    stringBody (ch :: rest) pos =
      (stringBody rest (pos.next ch)).map fun r => (ch :: r.1, r.2) := by
  cases rest with
  | nil => simp [stringBody, hn, hq]
  | cons c rest =>
    have hesc : ¬ (ch = '\\' ∧ (c = '"' ∨ c = '\\')) := fun ⟨e, hc⟩ =>
      not_or.mpr (h e c rfl) hc
    simp [stringBody, hn, hq, hesc]

/-- A literal is read from one of four kinds of beginning. -/
inductive StringStep : List Char → Prop
  | nil : StringStep []
  | nul {rest} : StringStep (NUL :: rest)
  | quote {rest} : StringStep ('"' :: rest)
  | escape {c rest} : c = '"' ∨ c = '\\' → StringStep ('\\' :: c :: rest)
  | char {ch rest} : ch ≠ NUL → ch ≠ '"' → (ch = '\\' → ∀ c ∈ rest.head?, c ≠ '"' ∧ c ≠ '\\') →
      StringStep (ch :: rest)

theorem stringStep (text : List Char) : StringStep text := by
  cases text with
  | nil => exact .nil
  | cons ch rest =>
    by_cases hn : ch = NUL
    · exact hn ▸ .nul
    by_cases hq : ch = '"'
    · exact hq ▸ .quote
    by_cases hesc : ch = '\\' → ∀ c ∈ rest.head?, c ≠ '"' ∧ c ≠ '\\'
    · exact .char hn hq hesc
    · push Not at hesc
      obtain ⟨rfl, c, hc, hesc⟩ := hesc
      obtain ⟨rest', rfl⟩ := List.head?_eq_some_iff.mp hc
      exact .escape (or_iff_not_imp_left.mpr hesc)

theorem stringBody_cut : ∀ (rest : List Char) (pos : Position),
    stringBody (cutList rest) pos = (stringBody rest pos).map fun r => (r.1, r.2.cut) := by
  intro rest
  induction hlen : rest.length using Nat.strongRecOn generalizing rest with
  | _ n ih =>
    intro pos
    subst hlen
    cases stringStep rest with
    | nil => rfl
    | nul =>
      rw [cutList_nul, stringBody_nul]
      rfl
    | @quote rest =>
      rw [cutList_cons (by decide), stringBody_quote, stringBody_quote]
      rfl
    | @escape c rest hc =>
      have hne : c ≠ NUL := by rcases hc with rfl | rfl <;> decide
      rw [cutList_cons (by decide), cutList_cons hne, stringBody_escape hc, stringBody_escape hc,
        ih rest.length (by simp only [List.length_cons]; omega) rest rfl, Option.map_map,
        Option.map_map]
      rfl
    | @char ch rest hn hq h =>
      have h' : ch = '\\' → ∀ c ∈ (cutList rest).head?, c ≠ '"' ∧ c ≠ '\\' := by
        intro e c hc
        have hne : c ≠ NUL := fun e => nul_not_mem_cutList rest (e ▸ List.mem_of_mem_head? hc)
        have := head?_cutList hne rest
        rw [hc, beq_self_eq_true, eq_comm, beq_iff_eq] at this
        exact h e c this
      rw [cutList_cons hn, stringBody_char hn hq h', stringBody_char hn hq h,
        ih rest.length (by simp only [List.length_cons]; omega) rest rfl, Option.map_map,
        Option.map_map]
      rfl

/-! ### Scans -/

/-- The result of a scan that is cut. -/
def cutResult (r : TokenKind × List Char × Lexer) : TokenKind × List Char × Lexer :=
  (r.1, r.2.1, r.2.2.cut)

theorem scanPair_cut (l : Lexer) (first second : Char) (both single : TokenKind) :
    l.cut.scanPair first second both single = cutResult (l.scanPair first second both single) := by
  unfold scanPair
  simp only [advance_cut, peek_cut]
  split <;> rfl

theorem scanOperator_cut (l : Lexer) :
    l.cut.scanOperator = l.scanOperator.map cutResult := by
  unfold scanOperator
  rw [peek_cut]
  split
  · rw [scanPair_cut]; rfl
  · rw [scanPair_cut]; rfl
  · rw [scanPair_cut]; rfl
  · rw [scanPair_cut]; rfl
  · simp only [advance_cut, peek_cut]
    split <;> rfl
  · split
    · rw [advance_cut]; rfl
    · rfl

theorem scan_cut (l : Lexer) : l.cut.scan = l.scan.map cutResult := by
  have hword : isWordChar NUL = false := by decide
  have hdigit : NUL.isDigit = false := by decide
  unfold scan
  dsimp only
  rw [peek_cut, advance_cut]
  split
  · rw [cut, advanceWhile_cut hword]; rfl
  · split
    · rw [cut, stringBody_cut]
      cases stringBody l.advance.rest l.advance.pos <;> rfl
    · split
      · rw [cut, advanceWhile_cut hdigit]; rfl
      · exact scanOperator_cut l

/-- The lexer does not look behind a NUL. -/
theorem tokenizeWithin_cut (fuel : Nat) (l : Lexer) :
    tokenizeWithin fuel l.cut = tokenizeWithin fuel l := by
  induction fuel generalizing l with
  | zero => rfl
  | succ fuel ih =>
    unfold tokenizeWithin
    dsimp only
    rw [show skipWhitespace false l.cut.rest l.cut.pos = _ from
      skipWhitespace_cut false l.rest l.pos, peek_cut, scan_cut]
    split
    · rfl
    · cases (skipWhitespace false l.rest l.pos).scan with
      | error e => rfl
      | ok r =>
        show (tokenizeWithin fuel r.2.2.cut).map _ = _
        rw [ih]
        rfl

/-! ## Spellings are scanned -/

theorem advanceWhile_eq (p : Char → Bool) (rest : List Char) (pos : Position) :
    advanceWhile p rest pos = (rest.takeWhile p, ⟨rest.dropWhile p, pos.skip (rest.takeWhile p)⟩) := by
  induction rest generalizing pos with
  | nil => rfl
  | cons c rest ih =>
    rw [advanceWhile, ih, List.takeWhile_cons, List.dropWhile_cons]
    split <;> rfl

theorem stringBody_sound {rest : List Char} : ∀ {pos : Position} {text : List Char} {l : Lexer},
    stringBody rest pos = some (text, l) → ∃ body, rest = body ++ '"' :: l.rest ∧
      Unescapes body text ∧ l.pos = pos.skip (body ++ ['"']) := by
  induction hlen : rest.length using Nat.strongRecOn generalizing rest with
  | _ n ih =>
    intro pos text l h
    subst hlen
    cases stringStep rest with
    | nil => cases h
    | nul => rw [stringBody_nul] at h; cases h
    | @quote rest =>
      rw [stringBody_quote] at h
      cases h
      exact ⟨[], rfl, .nil, rfl⟩
    | @escape c rest hc =>
      rw [stringBody_escape hc] at h
      obtain ⟨⟨text', l'⟩, hr, e⟩ := Option.map_eq_some_iff.mp h
      cases e
      obtain ⟨body, hrest, hu, hpos⟩ :=
        ih rest.length (by simp only [List.length_cons]; omega) rfl hr
      exact ⟨'\\' :: c :: body, congrArg (fun t => '\\' :: c :: t) hrest, .escape hc hu, hpos⟩
    | @char ch rest hn hq hch =>
      rw [stringBody_char hn hq hch] at h
      obtain ⟨⟨text', l'⟩, hr, e⟩ := Option.map_eq_some_iff.mp h
      cases e
      obtain ⟨body, hrest, hu, hpos⟩ :=
        ih rest.length (by simp only [List.length_cons]; omega) rfl hr
      refine ⟨ch :: body, congrArg (List.cons ch) hrest, .char hq (fun e => ?_) hu, hpos⟩
      cases body with
      | nil => exact absurd rfl (hch e '"' (by rw [hrest]; rfl)).1
      | cons d body => exact ⟨d, rfl, hch e d (by rw [hrest]; rfl)⟩

theorem stringBody_complete {body text : List Char} (h : Unescapes body text) :
    NUL ∉ body → ∀ (rest : List Char) (pos : Position), stringBody (body ++ '"' :: rest) pos =
      some (text, ⟨rest, pos.skip (body ++ ['"'])⟩) := by
  induction h with
  | nil => exact fun _ rest pos => stringBody_quote rest pos
  | @escape c body text hc _ ih =>
    intro hn rest pos
    obtain ⟨-, hn⟩ := not_or.mp fun e => hn (List.mem_cons.mpr e)
    obtain ⟨-, hn⟩ := not_or.mp fun e => hn (List.mem_cons.mpr e)
    rw [List.cons_append, List.cons_append, stringBody_escape hc, ih hn]
    rfl
  | @char c body text hq hesc _ ih =>
    intro hn rest pos
    obtain ⟨hc, hn⟩ := not_or.mp fun e => hn (List.mem_cons.mpr e)
    have hesc' : c = '\\' → ∀ d ∈ (body ++ '"' :: rest).head?, d ≠ '"' ∧ d ≠ '\\' := by
      intro e d hd
      obtain ⟨d', hd', hne⟩ := hesc e
      obtain ⟨body', rfl⟩ := List.head?_eq_some_iff.mp hd'
      cases hd
      exact hne
    rw [List.cons_append, stringBody_char (Ne.symm hc) hq hesc', ih hn]
    rfl

/-! ### Operators -/

theorem operators_length : ∀ op ∈ operators, op.1.length ≤ 2 := by decide

/-- A single operator is the only one with its first character. -/
theorem operators_single : ∀ e ∈ singles, ∀ op ∈ operators, op.1.head? = some e.1 →
    op = ([e.1], e.2) := by decide

theorem head?_of_start {a : List Char} {c : Char} {rest : List Char} (hne : a.head? ≠ none)
    (h : a <+: c :: rest) : a.head? = some c := by
  cases a with
  | nil => exact absurd rfl hne
  | cons d a => rw [(List.cons_prefix_cons.mp h).1]; rfl

theorem operators_head?_ne_none : ∀ op ∈ operators, op.1.head? ≠ none := by decide

/-- The pairs of `scanPair`, and their second character. -/
def pairs : List (Char × Char × TokenKind × TokenKind) :=
  [('-', '>', .arrow, .minus), ('=', '=', .equalEqual, .equal),
    ('>', '=', .greaterEqual, .greater), ('<', '=', .lessEqual, .less)]

theorem operators_pair : ∀ e ∈ pairs, ([e.1, e.2.1], e.2.2.1) ∈ operators ∧
    ([e.1], e.2.2.2) ∈ operators ∧ e.1 ≠ '/' ∧ e.1 ≠ NUL ∧ e.2.1 ≠ NUL ∧
    ∀ op ∈ operators, op.1.head? = some e.1 → op.1.length ≤ 1 ∨ op.1 = [e.1, e.2.1] := by decide

theorem scanPair_sound {first second : Char} {both single : TokenKind}
    (he : (first, second, both, single) ∈ pairs) (s : List Char) (pos : Position)
    {kind : TokenKind} {text : List Char} {l : Lexer}
    (h : scanPair ⟨first :: s, pos⟩ first second both single = (kind, text, l)) :
    ∃ spelling, first :: s = spelling ++ l.rest ∧ Spells kind text spelling l.rest ∧
      l.pos = pos.skip spelling := by
  obtain ⟨hboth, hsingle, hslash, hnul, hnul', hall⟩ := operators_pair _ he
  have hcomment : ∀ t : List Char, ¬ ['/', '/'] <+: first :: t := fun t hp =>
    hslash (List.cons_prefix_cons.mp hp).1.symm
  have hadvance : advance ⟨first :: s, pos⟩ = ⟨s, pos.next first⟩ := if_neg hnul
  unfold scanPair at h
  simp only [hadvance] at h
  split at h
  · rename_i hpeek
    cases s with
    | nil => exact absurd hpeek (Ne.symm hnul')
    | cons d s =>
      have hpeek : d = second := hpeek
      subst hpeek
      have hadvance' : advance ⟨d :: s, pos.next first⟩ = ⟨s, (pos.next first).next d⟩ :=
        if_neg hnul'
      rw [hadvance'] at h
      cases h
      exact ⟨[first, d], rfl, .operator hboth (fun op hop _ => operators_length op hop)
        (hcomment _), rfl⟩
  · rename_i hpeek
    cases h
    refine ⟨[first], rfl, .operator hsingle (fun op hop hp => ?_) (hcomment _), rfl⟩
    refine (hall op hop (head?_of_start (operators_head?_ne_none op hop) hp)).resolve_right ?_
    intro e
    rw [e] at hp
    obtain ⟨-, hp⟩ := List.cons_prefix_cons.mp hp
    cases s with
    | nil => exact absurd (List.prefix_nil.mp hp) (List.cons_ne_nil _ _)
    | cons d s => exact hpeek (List.cons_prefix_cons.mp hp).1.symm

theorem scanOperator_sound {c : Char} {s : List Char} (hn : c ≠ NUL)
    (hcomment : ¬ ['/', '/'] <+: c :: s) {pos : Position} {kind : TokenKind} {text : List Char}
    {l : Lexer} (h : scanOperator ⟨c :: s, pos⟩ = .ok (kind, text, l)) :
    ∃ spelling, c :: s = spelling ++ l.rest ∧ Spells kind text spelling l.rest ∧
      l.pos = pos.skip spelling := by
  have hpair : ∀ {first second both single}, (first, second, both, single) ∈ pairs → c = first →
      Except.ok (scanPair ⟨c :: s, pos⟩ first second both single) =
        (Except.ok (kind, text, l) : Except String _) → ∃ spelling, c :: s = spelling ++ l.rest ∧
        Spells kind text spelling l.rest ∧ l.pos = pos.skip spelling := by
    rintro first second both single he rfl h
    exact scanPair_sound he s pos (Except.ok.inj h)
  have hadvance : advance ⟨c :: s, pos⟩ = ⟨s, pos.next c⟩ := if_neg hn
  unfold scanOperator at h
  split at h
  · rename_i e; exact hpair (by decide) e h
  · rename_i e; exact hpair (by decide) e h
  · rename_i e; exact hpair (by decide) e h
  · rename_i e; exact hpair (by decide) e h
  · rename_i e
    have e : c = '!' := e
    subst e
    rw [hadvance] at h
    split at h
    · rename_i hpeek
      cases s with
      | nil => exact absurd hpeek (show NUL ≠ '=' by decide)
      | cons d s =>
        have hpeek : d = '=' := hpeek
        subst hpeek
        cases h
        exact ⟨['!', '='], rfl, .operator (by decide) (fun op hop _ => operators_length op hop)
          hcomment, rfl⟩
    · cases h
  · split at h
    · rename_i kind' hlookup
      have hlookup : singles.lookup c = some kind' := hlookup
      rw [hadvance] at h
      cases h
      obtain ⟨l₁, l₂, hl, -⟩ := List.lookup_eq_some_iff.mp hlookup
      have hmem : (c, kind) ∈ singles := hl ▸ List.mem_append_right _ List.mem_cons_self
      refine ⟨[c], rfl, .operator ?_ (fun op hop hp => ?_) hcomment, rfl⟩
      · exact List.mem_append_left _ (List.mem_map.mpr ⟨_, hmem, rfl⟩)
      · rw [operators_single _ hmem op hop (head?_of_start (operators_head?_ne_none op hop) hp)]
        exact le_rfl
    · cases h

theorem scanOperator_single {e : Char × TokenKind} (he : e ∈ singles) (rest : List Char)
    (pos : Position) :
    scanOperator ⟨e.1 :: rest, pos⟩ = .ok (e.2, [e.1], ⟨rest, pos.next e.1⟩) := by
  simp only [singles, List.mem_cons, List.not_mem_nil, or_false] at he
  rcases he with rfl | rfl | rfl | rfl | rfl | rfl | rfl | rfl | rfl | rfl | rfl | rfl | rfl | rfl <;>
    rfl

theorem scanOperator_pair {e : Char × Char × TokenKind × TokenKind} (he : e ∈ pairs)
    (rest : List Char) (pos : Position) :
    scanOperator ⟨e.1 :: rest, pos⟩ =
      .ok (scanPair ⟨e.1 :: rest, pos⟩ e.1 e.2.1 e.2.2.1 e.2.2.2) := by
  simp only [pairs, List.mem_cons, List.not_mem_nil, or_false] at he
  rcases he with rfl | rfl | rfl | rfl <;> rfl

theorem operators_cases : ∀ op ∈ operators, (∃ e ∈ singles, op = ([e.1], e.2)) ∨
    (∃ e ∈ pairs, op = ([e.1, e.2.1], e.2.2.1) ∨ op = ([e.1], e.2.2.2)) ∨
    op = (['!', '='], .notEqual) := by decide

/-- The longest operator is scanned. -/
theorem scanOperator_complete {kind : TokenKind} {spelling rest : List Char}
    (hmem : (spelling, kind) ∈ operators)
    (hlong : ∀ op ∈ operators, op.1 <+: spelling ++ rest → op.1.length ≤ spelling.length)
    (pos : Position) : scanOperator ⟨spelling ++ rest, pos⟩ =
      .ok (kind, spelling, ⟨rest, pos.skip spelling⟩) := by
  rcases operators_cases _ hmem with ⟨e, he, h⟩ | ⟨⟨first, second, both, single⟩, he, h | h⟩ | h
  · cases h
    exact scanOperator_single he rest pos
  · cases h
    obtain ⟨-, -, -, hnul, hnul', -⟩ := operators_pair _ he
    have h₁ : advance ⟨[first, second] ++ rest, pos⟩ = ⟨second :: rest, pos.next first⟩ :=
      if_neg hnul
    have h₂ : advance ⟨second :: rest, pos.next first⟩ = ⟨rest, (pos.next first).next second⟩ :=
      if_neg hnul'
    refine (scanOperator_pair he _ pos).trans (congrArg Except.ok ?_)
    show scanPair ⟨[first, second] ++ rest, pos⟩ first second both single = _
    unfold scanPair
    rw [h₁]
    dsimp only
    rw [if_pos (show peek ⟨second :: rest, pos.next first⟩ = second from rfl), h₂]
    rfl
  · cases h
    obtain ⟨hboth, -, -, hnul, hnul', -⟩ := operators_pair _ he
    have h₁ : advance ⟨[first] ++ rest, pos⟩ = ⟨rest, pos.next first⟩ := if_neg hnul
    have hpeek : rest.headD NUL ≠ second := by
      cases rest with
      | nil => exact Ne.symm hnul'
      | cons d rest =>
        rintro rfl
        have hle := hlong _ hboth (List.cons_prefix_cons.mpr ⟨rfl, List.cons_prefix_cons.mpr
          ⟨rfl, List.nil_prefix⟩⟩)
        exact absurd hle (Nat.not_succ_le_self 1)
    refine (scanOperator_pair he _ pos).trans (congrArg Except.ok ?_)
    show scanPair ⟨[first] ++ rest, pos⟩ first second both single = _
    unfold scanPair
    rw [h₁]
    exact if_neg hpeek
  · cases h
    rfl

/-! ### Tokens -/

theorem isWordStart_isWordChar {c : Char} (h : isWordStart c = true) : isWordChar c = true := by
  unfold isWordStart at h
  have e : isWordChar c = (c.isAlpha || c.isDigit || c == '_') := rfl
  rw [e]
  rcases Bool.or_eq_true _ _ ▸ h with h | h <;> simp [h]

theorem operators_not_word {op : List Char × TokenKind} (hop : op ∈ operators) {c : Char}
    (hc : op.1.head? = some c) :
    isWordStart c = false ∧ c ≠ '"' ∧ c.isDigit = false ∧ isSpace c = false ∧ c ≠ NUL := by
  have hall : ∀ op ∈ operators, op.1.head?.all (fun c =>
      !isWordStart c && c != '"' && !c.isDigit && !isSpace c && c != NUL) = true := by decide
  have h := hall op hop
  rw [hc] at h
  simpa [and_assoc] using h

theorem not_isWordStart_of_isDigit {c : Char} (h : c.isDigit = true) : isWordStart c = false := by
  have hne : c ≠ '_' := by
    rintro rfl
    exact absurd h (by decide)
  unfold Char.isDigit at h
  simp only [Bool.and_eq_true, decide_eq_true_eq, UInt32.le_iff_toNat_le] at h
  have hle : c.val.toNat ≤ 57 := h.2
  have hupper : c.isUpper = false := by
    refine decide_eq_false fun h => ?_
    exact absurd ((UInt32.le_iff_toNat_le.mp h.1).trans hle) (by decide)
  have hlower : c.isLower = false := by
    refine Bool.and_eq_false_iff.mpr (.inl (decide_eq_false fun h => ?_))
    exact absurd ((UInt32.le_iff_toNat_le.mp h).trans hle) (by decide)
  have e : isWordStart c = (c.isUpper || c.isLower || c == '_') := rfl
  rw [e, hupper, hlower, Bool.false_or, Bool.false_or]
  exact beq_false_of_ne hne

/-- What the grammar reads next, the lexer reads. -/
theorem scan_complete {kind : TokenKind} {text spelling rest : List Char}
    (h : Spells kind text spelling rest) (hn : NUL ∉ spelling) (pos : Position) :
    scan ⟨spelling ++ rest, pos⟩ = .ok (kind, text, ⟨rest, pos.skip spelling⟩) := by
  cases h with
  | @word c cs _ hc hcs hrest =>
    have hall : ∀ d ∈ c :: cs, isWordChar d = true :=
      List.forall_mem_cons.mpr ⟨isWordStart_isWordChar hc, hcs⟩
    obtain ⟨ht, hd⟩ := span_eq hall hrest
    unfold scan
    dsimp only
    rw [if_pos (show isWordStart (peek ⟨(c :: cs) ++ rest, pos⟩) = true from hc), advanceWhile_eq,
      ht, hd]
  | @integer c cs _ hc hcs hrest =>
    have hall : ∀ d ∈ c :: cs, d.isDigit = true := List.forall_mem_cons.mpr ⟨hc, hcs⟩
    obtain ⟨ht, hd⟩ := span_eq hall hrest
    have hq : c ≠ '"' := by
      rintro rfl
      exact absurd hc (by decide)
    unfold scan
    dsimp only
    rw [if_neg (show ¬ isWordStart (peek ⟨(c :: cs) ++ rest, pos⟩) = true by
      rw [show peek ⟨(c :: cs) ++ rest, pos⟩ = c from rfl, not_isWordStart_of_isDigit hc]
      exact Bool.false_ne_true), if_neg (show ¬ peek ⟨(c :: cs) ++ rest, pos⟩ = '"' from hq),
      if_pos (show (peek ⟨(c :: cs) ++ rest, pos⟩).isDigit = true from hc), advanceWhile_eq, ht, hd]
  | @string body _ _ hu =>
    have hbody : NUL ∉ body := fun hb =>
      hn (List.mem_cons_of_mem _ (List.mem_append_left _ hb))
    have hadvance : advance ⟨'"' :: (body ++ ['"']) ++ rest, pos⟩ =
        ⟨body ++ '"' :: rest, pos.next '"'⟩ := by simp [advance, show '"' ≠ NUL by decide]
    unfold scan
    dsimp only
    rw [hadvance, stringBody_complete hu hbody]
    rfl
  | operator hmem hlong _ =>
    obtain ⟨c, hc, hw, hq, hd, -, -⟩ :
        ∃ c ∈ text.head?, isWordStart c = false ∧ c ≠ '"' ∧ c.isDigit = false ∧
          isSpace c = false ∧ c ≠ NUL := by
      obtain ⟨c, hc⟩ := Option.ne_none_iff_exists'.mp (operators_head?_ne_none _ hmem)
      exact ⟨c, hc, operators_not_word hmem hc⟩
    have hpeek : peek ⟨text ++ rest, pos⟩ = c := by
      obtain ⟨cs, rfl⟩ := List.head?_eq_some_iff.mp hc
      rfl
    unfold scan
    dsimp only
    rw [hpeek, hw, if_neg Bool.false_ne_true, if_neg hq, hd, if_neg Bool.false_ne_true]
    exact scanOperator_complete hmem hlong pos

/-- What the lexer reads, the grammar reads. -/
theorem scan_sound {c : Char} {s : List Char} (hn : c ≠ NUL) (hcomment : ¬ ['/', '/'] <+: c :: s)
    {pos : Position} {kind : TokenKind} {text : List Char} {l : Lexer}
    (h : scan ⟨c :: s, pos⟩ = .ok (kind, text, l)) :
    ∃ spelling, c :: s = spelling ++ l.rest ∧ Spells kind text spelling l.rest ∧
      l.pos = pos.skip spelling := by
  have hpeek : peek ⟨c :: s, pos⟩ = c := rfl
  unfold scan at h
  dsimp only at h
  rw [hpeek] at h
  split at h
  · rename_i hc
    rw [advanceWhile_eq, List.takeWhile_cons_of_pos (isWordStart_isWordChar hc),
      List.dropWhile_cons_of_pos (isWordStart_isWordChar hc)] at h
    cases h
    exact ⟨_, congrArg (List.cons c) List.takeWhile_append_dropWhile.symm, .word hc
      (fun d hd => List.mem_takeWhile_imp hd) (head?_dropWhile _ _), rfl⟩
  · split at h
    · rename_i hq
      have hadvance : advance ⟨c :: s, pos⟩ = ⟨s, pos.next c⟩ := if_neg hn
      rw [hadvance] at h
      split at h
      · rename_i text' l' hbody
        cases h
        obtain ⟨body, hs, hu, hpos⟩ := stringBody_sound hbody
        have hs : s = body ++ '"' :: l.rest := hs
        refine ⟨'"' :: (body ++ ['"']), ?_, .string hu, ?_⟩
        · rw [hs, hq, List.cons_append, List.append_assoc, List.singleton_append]
        · rw [hpos, hq]
          rfl
      · cases h
    · split at h
      · rename_i hd
        rw [advanceWhile_eq, List.takeWhile_cons_of_pos hd, List.dropWhile_cons_of_pos hd] at h
        cases h
        exact ⟨_, congrArg (List.cons c) List.takeWhile_append_dropWhile.symm, .integer hd
          (fun d hd => List.mem_takeWhile_imp hd) (head?_dropWhile _ _), rfl⟩
      · exact scanOperator_sound hn hcomment h

/-! ## White space and comments -/

theorem skipWhitespace_space {c : Char} (hc : isSpace c = true) (rest : List Char)
    (pos : Position) :
    skipWhitespace false (c :: rest) pos = skipWhitespace false rest (pos.next c) := by
  rw [skipWhitespace]
  simp [hc]

theorem skipWhitespace_inComment {rest : List Char} (hn : NUL ∉ rest) (pos : Position) :
    skipWhitespace true rest pos = skipWhitespace false (rest.dropWhile (· ≠ '\n'))
      (pos.skip (rest.takeWhile (· ≠ '\n'))) := by
  induction rest generalizing pos with
  | nil => rfl
  | cons c rest ih =>
    obtain ⟨hc, hn⟩ := not_or.mp fun e => hn (List.mem_cons.mpr e)
    rw [skipWhitespace, List.takeWhile_cons, List.dropWhile_cons]
    by_cases h : c = '\n'
    · subst h
      simp [skipWhitespace_space (show isSpace '\n' = true by decide),
        show isSpace '\n' = true by decide]
    · simp [h, Ne.symm hc, ih hn]

theorem skipWhitespace_comment {s : List Char} (hn : NUL ∉ s) (pos : Position) :
    skipWhitespace false ('/' :: '/' :: s) pos = skipWhitespace false (s.dropWhile (· ≠ '\n'))
      (pos.skip ('/' :: '/' :: s.takeWhile (· ≠ '\n'))) := by
  have hslash : isSpace '/' = false := by decide
  have hn' : NUL ∉ '/' :: s := fun h => (List.mem_cons.mp h).elim (by decide) hn
  rw [skipWhitespace]
  simp only [Bool.false_and, Bool.false_eq_true, if_false, hslash, Bool.not_false, Bool.true_and,
    beq_self_eq_true, List.head?_cons, if_true]
  rw [skipWhitespace_inComment hn']
  rfl

theorem skipWhitespace_of_not {c : Char} {s : List Char} (hc : isSpace c = false)
    (hcomment : ¬ ['/', '/'] <+: c :: s) (pos : Position) :
    skipWhitespace false (c :: s) pos = ⟨c :: s, pos⟩ := by
  have h : ¬ (c = '/' ∧ s.head? = some '/') := by
    rintro ⟨rfl, hs⟩
    obtain ⟨s', rfl⟩ := List.head?_eq_some_iff.mp hs
    exact hcomment ⟨s', rfl⟩
  rw [skipWhitespace]
  simp [hc, h]

/-- The lexer skips what the grammar skips. -/
theorem lexes_skipWhitespace (rest : List Char) : ∀ before : List Char, NUL ∉ rest →
    ∃ used, rest = used ++ (skipWhitespace false rest (countersAt before)).rest ∧
      (skipWhitespace false rest (countersAt before)).pos = countersAt (before ++ used) ∧
      (∀ tokens, Lexes before rest tokens ↔ Lexes (before ++ used)
        (skipWhitespace false rest (countersAt before)).rest tokens) ∧
      ∀ c s, (skipWhitespace false rest (countersAt before)).rest = c :: s →
        isSpace c = false ∧ ¬ ['/', '/'] <+: c :: s := by
  induction hlen : rest.length using Nat.strongRecOn generalizing rest with
  | _ n ih =>
    intro before hn
    subst hlen
    cases rest with
    | nil =>
      refine ⟨[], rfl, ?_, fun tokens => ?_, fun c s h => ?_⟩
      · rw [List.append_nil]; rfl
      · rw [List.append_nil]; rfl
      · cases h
    | cons c rest =>
      by_cases hc : isSpace c = true
      · obtain ⟨used, hrest, hpos, hlexes, hnext⟩ := ih rest.length
          (Nat.lt_succ_self _) rest rfl (before ++ [c]) fun h => hn (List.mem_cons_of_mem _ h)
        rw [skipWhitespace_space hc, countersAt_next]
        refine ⟨c :: used, congrArg (List.cons c) hrest, ?_, fun tokens => ?_, hnext⟩
        · rw [hpos, List.append_assoc]; rfl
        · rw [lexes_space_iff hc, hlexes, List.append_assoc]; rfl
      · rw [Bool.not_eq_true] at hc
        by_cases hcomment : ['/', '/'] <+: c :: rest
        · obtain ⟨s, hs⟩ := hcomment
          obtain ⟨rfl, rfl⟩ : c = '/' ∧ rest = '/' :: s := by
            cases hs
            exact ⟨rfl, rfl⟩
          have hns : NUL ∉ s := fun h => hn (List.mem_cons_of_mem _ (List.mem_cons_of_mem _ h))
          have hlt : (s.dropWhile (· ≠ '\n')).length < ('/' :: '/' :: s).length :=
            Nat.lt_of_le_of_lt (List.length_dropWhile_le _ _)
              (Nat.lt_succ_of_lt (Nat.lt_succ_self _))
          obtain ⟨used, hrest, hpos, hlexes, hnext⟩ := ih _ hlt (s.dropWhile (· ≠ '\n')) rfl
            (before ++ '/' :: '/' :: s.takeWhile (· ≠ '\n'))
            fun h => hns ((List.dropWhile_sublist _).subset h)
          rw [skipWhitespace_comment hns, countersAt_skip]
          refine ⟨'/' :: '/' :: (s.takeWhile (· ≠ '\n') ++ used), ?_, ?_, fun tokens => ?_, hnext⟩
          · rw [List.cons_append, List.cons_append, List.append_assoc, ← hrest,
              List.takeWhile_append_dropWhile]
          · rw [hpos, List.append_assoc]; rfl
          · rw [lexes_comment_iff, hlexes, List.append_assoc]; rfl
        · rw [skipWhitespace_of_not hc hcomment]
          refine ⟨[], rfl, ?_, fun tokens => ?_, fun d s h => ?_⟩
          · rw [List.append_nil]
          · rw [List.append_nil]
          · cases h
            exact ⟨hc, hcomment⟩

/-! ## Tokens -/

theorem lexes_token_iff {before spelling rest text : List Char} {kind : TokenKind}
    (hn : NUL ∉ spelling ++ rest) (hs : Spells kind text spelling rest) {tokens : List Token} :
    Lexes before (spelling ++ rest) tokens ↔ ∃ tokens',
      tokens = tokenAt before kind text :: tokens' ∧ Lexes (before ++ spelling) rest tokens' := by
  constructor
  · intro h
    obtain ⟨c, cs, rfl, hc, hcomment⟩ := hs.head
    obtain ⟨kind', text', spelling', rest', tokens', he, hs', h', rfl⟩ := h.of_cons hc hcomment
    have he : (c :: cs) ++ rest = spelling' ++ rest' := he
    have h₁ := scan_complete hs (fun h => hn (List.mem_append_left _ h)) {}
    have h₂ := scan_complete hs' (fun h => hn (he ▸ List.mem_append_left _ h)) {}
    rw [he, h₂] at h₁
    injection h₁ with e
    injection e with hkind e
    injection e with htext e
    injection e with hrest _
    subst hkind htext hrest
    obtain rfl := List.append_cancel_right he
    exact ⟨tokens', rfl, h'⟩
  · rintro ⟨tokens', rfl, h⟩
    exact .token hs h

/-- A text has its tokens only. -/
theorem lexes_unique {before text : List Char} {tokens : List Token}
    (h : Lexes before text tokens) : NUL ∉ text → ∀ {tokens'}, Lexes before text tokens' →
      tokens = tokens' := by
  induction h with
  | nil => exact fun _ _ h' => (lexes_nil_iff.mp h').symm
  | space hc _ ih =>
    exact fun hn _ h' => ih (fun h => hn (List.mem_cons_of_mem _ h)) ((lexes_space_iff hc).mp h')
  | @comment before body rest tokens hbody hrest h ih =>
    intro hn tokens' h'
    have ht : (body ++ rest).takeWhile (· ≠ '\n') = body ∧
        (body ++ rest).dropWhile (· ≠ '\n') = rest :=
      span_eq (fun d hd => decide_eq_true fun e => hbody (e ▸ hd))
        fun d hd => decide_eq_false fun hne => hne (hrest d hd)
    rw [lexes_comment_iff, ht.1, ht.2] at h'
    exact ih (fun h => hn (List.mem_cons_of_mem _ (List.mem_cons_of_mem _
      (List.mem_append_right _ h)))) h'
  | token hs _ ih =>
    intro hn tokens' h'
    obtain ⟨_, rfl, hrest⟩ := (lexes_token_iff hn hs).mp h'
    exact congrArg _ (ih (fun h => hn (List.mem_append_right _ h)) hrest)

/-- A token as the `int` counters have it. -/
def counted (t : Token) : Token := { t with line := wrap t.line, column := wrap t.column }

/-- On a text without NUL the loop stops, and its tokens are those of the grammar. -/
theorem tokenizeWithin_spec (fuel : Nat) {rest : List Char} (hn : NUL ∉ rest)
    (hf : rest.length < fuel) (before : List Char) :
    ∃ r, tokenizeWithin fuel ⟨rest, countersAt before⟩ = some r ∧ ∀ tokens,
      r = .ok tokens ↔ ∃ ts, Lexes before rest ts ∧ tokens = ts.map counted := by
  induction fuel generalizing rest before with
  | zero => exact absurd hf (Nat.not_lt_zero _)
  | succ fuel ih =>
    obtain ⟨used, hrest, hpos, hlexes, hnext⟩ := lexes_skipWhitespace rest before hn
    unfold tokenizeWithin
    dsimp only
    generalize hl : skipWhitespace false rest (countersAt before) = l at *
    obtain ⟨left, pos⟩ := l
    obtain rfl : pos = countersAt (before ++ used) := hpos
    have hrest : rest = used ++ left := hrest
    cases left with
    | nil =>
      refine ⟨_, rfl, fun tokens => ?_⟩
      simp only [hlexes, lexes_nil_iff, exists_eq_left, Except.ok.injEq]
      exact eq_comm
    | cons c s =>
      obtain ⟨hc, hcomment⟩ := hnext c s rfl
      have hcs : NUL ∉ c :: s := fun h => hn (hrest ▸ List.mem_append_right _ h)
      have hcn : c ≠ NUL := fun e => hcs (e ▸ List.mem_cons_self)
      rw [if_neg (show ¬ peek ⟨c :: s, countersAt (before ++ used)⟩ = NUL from hcn)]
      cases hscan : scan ⟨c :: s, countersAt (before ++ used)⟩ with
      | error e =>
        refine ⟨_, rfl, fun tokens => ⟨fun h => (by cases h), ?_⟩⟩
        rintro ⟨ts, h, -⟩
        have h := (hlexes ts).mp h
        exfalso
        obtain ⟨kind, text, spelling, rest', ts', he, hs, -, -⟩ := h.of_cons hc hcomment
        have := scan_complete hs (fun h => hcs (he ▸ List.mem_append_left _ h))
          (countersAt (before ++ used))
        rw [← he, hscan] at this
        cases this
      | ok r =>
        obtain ⟨kind, text, l'⟩ := r
        obtain ⟨spelling, hspelling, hs, hpos'⟩ := scan_sound hcn hcomment hscan
        obtain ⟨rest', pos'⟩ := l'
        have hpos' : pos' = countersAt (before ++ used ++ spelling) := by
          rw [← countersAt_skip]
          exact hpos'
        subst hpos'
        have hspelling : c :: s = spelling ++ rest' := hspelling
        have hlt : rest'.length < fuel := by
          obtain ⟨d, ds, rfl, -⟩ := hs.head
          have := congrArg List.length hspelling
          have := congrArg List.length hrest
          simp only [List.length_append, List.length_cons] at *
          omega
        obtain ⟨r, hr, hiff⟩ := ih (fun h => hcs (hspelling ▸ List.mem_append_right _ h)) hlt
          (before ++ used ++ spelling)
        refine ⟨_, congrArg (Option.map _) hr, fun tokens => ?_⟩
        rw [hspelling] at hcs
        simp only [hlexes, hspelling, lexes_token_iff hcs hs]
        constructor
        · intro h
          cases r with
          | error e => cases h
          | ok tokens' =>
            obtain ⟨ts, hts, rfl⟩ := (hiff tokens').mp rfl
            cases h
            exact ⟨_, ⟨ts, rfl, hts⟩, rfl⟩
        · rintro ⟨_, ⟨ts, rfl, hts⟩, rfl⟩
          rw [(hiff _).mpr ⟨ts, hts, rfl⟩]
          rfl

theorem tokenizeWithin_mono {fuel fuel' : Nat} (hle : fuel ≤ fuel') {l : Lexer}
    {r : Except String (List Token)} (h : tokenizeWithin fuel l = some r) :
    tokenizeWithin fuel' l = some r := by
  induction fuel generalizing fuel' l r with
  | zero => cases h
  | succ fuel ih =>
    obtain ⟨more, rfl⟩ := Nat.exists_eq_add_of_le' hle
    have hle : fuel ≤ more + fuel := Nat.le_add_left _ _
    rw [← Nat.add_assoc]
    unfold tokenizeWithin at h ⊢
    dsimp only at h ⊢
    split at h
    · rename_i hp
      rw [if_pos hp]
      exact h
    · rename_i hp
      rw [if_neg hp]
      split at h
      · exact h
      · obtain ⟨r', hr', rfl⟩ := Option.map_eq_some_iff.mp h
        exact congrArg (Option.map _) (ih hle hr')

/-- The lexer stops, with the tokens of the text before the first NUL. -/
theorem tokenize_spec (source : List Char) :
    (∀ fuel, source.length < fuel →
      tokenizeWithin fuel { rest := source } = some (tokenize source)) ∧ ∀ tokens,
      tokenize source = .ok tokens ↔
        ∃ ts, Lexes [] (cutList source) ts ∧ tokens = ts.map counted := by
  have hle : (cutList source).length ≤ source.length := (List.takeWhile_sublist _).length_le
  obtain ⟨r, hr, hiff⟩ := tokenizeWithin_spec (source.length + 1)
    (nul_not_mem_cutList source) (Nat.lt_succ_of_le hle) []
  have hr : tokenizeWithin (source.length + 1) { rest := source } = some r :=
    (tokenizeWithin_cut _ { rest := source }).symm.trans hr
  have htokenize : tokenize source = r := by rw [tokenize, hr]; rfl
  rw [htokenize]
  exact ⟨fun fuel hf => tokenizeWithin_mono hf hr, hiff⟩

/-! ## Which sources are accounted for -/

/-- The lexer stops, and where it does not throw, the tokens account for the whole source: white
space, comments and the spellings of the tokens, at the positions that they really have. -/
structure Accounts (source : List Char) : Prop where
  stops : ∀ fuel, source.length < fuel →
    tokenizeWithin fuel { rest := source } = some (tokenize source)
  lexes : ∀ tokens, tokenize source = .ok tokens → Lexes [] source tokens

/-- Behind a NUL there is a later position. -/
theorem counted_end_ne {before used : List Char} (h : used ≠ []) :
    counted (tokenAt before .end_ []) ≠ tokenAt (before ++ used) .end_ [] := by
  intro e
  simp only [counted, tokenAt, Token.mk.injEq] at e
  obtain ⟨-, -, hline, hcolumn⟩ := e
  have h₁ := wrap_le (lineOf before)
  have h₂ := wrap_le (columnOf before)
  rcases position_lt before used h with hlt | ⟨-, hlt⟩
  · omega
  · omega

/-- The tokens account for a source exactly where, if the text before its first NUL byte has
tokens, there is no NUL byte and the positions of the tokens fit in an `int`. -/
theorem tokenize_accounts (source : List Char) :
    Accounts source ↔ ∀ tokens, Lexes [] (cutList source) tokens →
      NUL ∉ source ∧ ∀ t ∈ tokens, t.line < 2 ^ 31 ∧ t.column < 2 ^ 31 := by
  obtain ⟨hstops, hspec⟩ := tokenize_spec source
  constructor
  · rintro ⟨-, hlexes⟩ tokens h
    have hsource := hlexes _ ((hspec _).mpr ⟨tokens, h, rfl⟩)
    have hn : NUL ∉ source := by
      intro hn
      obtain ⟨used, hused⟩ : cutList source <+: source := List.takeWhile_prefix _
      have hne : used ≠ [] := by
        rintro rfl
        rw [List.append_nil] at hused
        exact nul_not_mem_cutList source (by rw [hused]; exact hn)
      have hlast := hsource.getLast?
      rw [List.getLast?_map, h.getLast?, List.nil_append, List.nil_append,
        Option.map_some] at hlast
      refine counted_end_ne hne (Option.some.inj (hlast.trans ?_))
      rw [hused]
    refine ⟨hn, fun t ht => ?_⟩
    rw [cutList_eq_self hn] at h
    have hmap : tokens.map counted = tokens := lexes_unique hsource hn h
    have ht' : counted t = t := List.map_inj_left.mp (hmap.trans (List.map_id _).symm) t ht
    obtain ⟨kind, text, line, column⟩ := t
    simp only [counted, Token.mk.injEq, true_and] at ht'
    exact ⟨((wrap_eq_self_iff _).mp ht'.1).2, ((wrap_eq_self_iff _).mp ht'.2).2⟩
  · intro h
    refine ⟨hstops, fun tokens htokens => ?_⟩
    obtain ⟨ts, hts, rfl⟩ := (hspec _).mp htokens
    obtain ⟨hn, hfits⟩ := h ts hts
    rw [cutList_eq_self hn] at hts
    have hmap : ts.map counted = ts := by
      refine (List.map_congr_left fun t ht => ?_).trans (List.map_id ts)
      obtain ⟨hl, hc⟩ := hts.nonneg t ht
      obtain ⟨hl', hc'⟩ := hfits t ht
      have e₁ : wrap t.line = t.line := (wrap_eq_self_iff _).mpr ⟨by omega, hl'⟩
      have e₂ : wrap t.column = t.column := (wrap_eq_self_iff _).mpr ⟨by omega, hc'⟩
      rw [counted, e₁, e₂, id_eq]
    rw [hmap]
    exact hts

/-- `fn`, a NUL byte and another `fn`. -/
def fnNulFn : List Char := ['f', 'n', NUL, 'f', 'n']

/-- What follows the NUL byte is dropped. -/
theorem tokenize_fnNulFn : tokenize fnNulFn = .ok [⟨.fn, "fn", 1, 1⟩, ⟨.end_, "", 1, 3⟩] ∧
    ¬ Accounts fnNulFn := by
  have h : tokenize fnNulFn = .ok [⟨.fn, "fn", 1, 1⟩, ⟨.end_, "", 1, 3⟩] := by decide +kernel
  refine ⟨h, fun ⟨_, hlexes⟩ => ?_⟩
  have hlast := (hlexes _ h).getLast?
  exact absurd hlast (by decide +kernel)

end Lexer
end Oglang
end Techuila
