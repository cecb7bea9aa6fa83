import Techuila.Oglang.Positions
import Techuila.Oglang.Tokenize

/-!
# Source texts of tokens

A source text is a sequence of pieces: a gap and the spelling of a token.

* `Gap`: white space and comments.
* `Spaced`: the spellings keep apart.
* `tokenize_sourceText`: the lexer gives the tokens back up to the first NUL byte in a gap.
* `Lexed`: the tokens that a lexer makes; with spaces between them they are `Spaced`.
-/

namespace Techuila
namespace Oglang

/-- White space, and comments that have white space before them and go to the end of the line. -/
inductive Gap : List Char → Prop
  | nil : Gap []
  | space {c : Char} {gap : List Char} : isSpace c = true → Gap gap → Gap (c :: gap)
  | comment {c : Char} {body gap : List Char} : isSpace c = true → '\n' ∉ body →
      Gap ('\n' :: gap) → Gap (c :: '/' :: '/' :: (body ++ '\n' :: gap))

/-- A token in a source text, with what stands before it. -/
structure Piece where
  gap : List Char
  token : Token
  spelling : List Char

def sourceText : List Piece → List Char → List Char
  | [], rest => rest
  | piece :: pieces, rest => piece.gap ++ (piece.spelling ++ sourceText pieces rest)

/-- Every piece spells its token, with the text behind it. -/
def Spaced : List Piece → List Char → Prop
  | [], _ => True
  | piece :: pieces, rest => Gap piece.gap ∧ NUL ∉ piece.spelling ∧
      Spells piece.token.kind piece.token.text.toList piece.spelling (sourceText pieces rest) ∧
      Spaced pieces rest

/-- No gap has a NUL byte. -/
def Clean (pieces : List Piece) : Prop := ∀ piece ∈ pieces, NUL ∉ piece.gap

theorem sourceText_append (a b : List Piece) (rest : List Char) :
    sourceText (a ++ b) rest = sourceText a (sourceText b rest) := by
  induction a with
  | nil => rfl
  | cons piece a ih => rw [List.cons_append, sourceText, sourceText, ih]

theorem Spaced.append {a b : List Piece} {rest : List Char} (h : Spaced (a ++ b) rest) :
    Spaced a (sourceText b rest) ∧ Spaced b rest := by
  induction a with
  | nil => exact ⟨trivial, h⟩
  | cons piece a ih =>
    obtain ⟨hgap, hnul, hs, h⟩ := h
    have hs : Spells _ _ _ (sourceText (a ++ b) rest) := hs
    rw [sourceText_append] at hs
    exact ⟨⟨hgap, hnul, hs, (ih h).1⟩, (ih h).2⟩

/-! ## Gaps -/

/-- The lexer skips a gap. -/
theorem Gap.lexes {gap : List Char} (h : Gap gap) : ∀ {before rest : List Char}
    {tokens : List Token}, Lexes (before ++ gap) rest tokens → Lexes before (gap ++ rest) tokens := by
  induction h with
  | nil =>
    intro before rest tokens hl
    rwa [List.append_nil] at hl
  | space hc _ ih =>
    intro before rest tokens hl
    refine .space hc (ih ?_)
    rwa [List.append_assoc]
  | @comment c body gap hc hbody _ ih =>
    intro before rest tokens hl
    simp only [List.cons_append, List.append_assoc]
    refine .space hc (.comment hbody (fun d hd => (Option.some.inj hd).symm) (ih ?_))
    simpa using hl

theorem cutList_append_of_not_mem {a b : List Char} (h : NUL ∉ a) :
    Lexer.cutList (a ++ b) = a ++ Lexer.cutList b := by
  induction a with
  | nil => rfl
  | cons c a ih =>
    obtain ⟨hc, ha⟩ := not_or.mp fun e => h (List.mem_cons.mpr e)
    rw [List.cons_append, Lexer.cutList_cons (Ne.symm hc), ih ha]
    rfl

theorem cutList_append_of_mem {a b : List Char} (h : NUL ∈ a) :
    Lexer.cutList (a ++ b) = Lexer.cutList a := by
  induction a with
  | nil => cases h
  | cons c a ih =>
    by_cases hc : c = NUL
    · rw [hc, List.cons_append, Lexer.cutList_nul, Lexer.cutList_nul]
    · have ha := (List.mem_cons.mp h).resolve_left (Ne.symm hc)
      rw [List.cons_append, Lexer.cutList_cons hc, Lexer.cutList_cons hc, ih ha]

theorem space_ne_nul {c : Char} (hc : isSpace c = true) : c ≠ NUL := by
  rintro rfl
  exact absurd hc (by decide)

/-- A gap that is cut off at a NUL byte is the end of the text. -/
theorem Gap.lexes_cut {gap : List Char} (h : Gap gap) : ∀ before : List Char,
    Lexes before (Lexer.cutList gap) [tokenAt (before ++ Lexer.cutList gap) .end_ []] := by
  induction h with
  | nil => exact fun before => lexes_nil_iff.mpr (by rw [Lexer.cutList, List.takeWhile_nil,
      List.append_nil])
  | @space c gap hc _ ih =>
    intro before
    rw [Lexer.cutList_cons (space_ne_nul hc)]
    refine .space hc ?_
    have := ih (before ++ [c])
    rwa [List.append_assoc] at this
  | @comment c body gap hc hbody _ ih =>
    intro before
    rw [Lexer.cutList_cons (space_ne_nul hc), Lexer.cutList_cons (by decide),
      Lexer.cutList_cons (by decide)]
    by_cases hn : NUL ∈ body
    · rw [cutList_append_of_mem hn]
      have hbody' : '\n' ∉ Lexer.cutList body := fun h =>
        hbody ((List.takeWhile_sublist _).subset h)
      have hnil : Lexes (before ++ [c] ++ '/' :: '/' :: Lexer.cutList body) [] [tokenAt
          (before ++ [c] ++ '/' :: '/' :: Lexer.cutList body) .end_ []] := .nil
      have := Lexes.comment hbody' (fun d hd => by cases hd) hnil
      rw [List.append_nil] at this
      refine .space hc ?_
      rwa [List.append_assoc] at this
    · rw [cutList_append_of_not_mem hn]
      refine .space hc (.comment hbody ?_ ?_)
      · intro d hd
        rw [Lexer.cutList_cons (by decide)] at hd
        exact (Option.some.inj hd).symm
      · have := ih (before ++ [c] ++ '/' :: '/' :: body)
        simpa using this

/-! ## Texts -/

/-- Less text behind a spelling does not make it another one. -/
theorem Spells.of_prefix {kind : TokenKind} {text spelling rest rest' : List Char}
    (h : Spells kind text spelling rest) (hp : rest' <+: rest) : Spells kind text spelling rest' := by
  have hhead : ∀ d ∈ rest'.head?, d ∈ rest.head? := by
    intro d hd
    obtain ⟨s, rfl⟩ := List.head?_eq_some_iff.mp hd
    obtain ⟨more, rfl⟩ := hp
    rfl
  have hmono : ∀ a : List Char, a <+: spelling ++ rest' → a <+: spelling ++ rest := fun a ha =>
    ha.trans ((List.prefix_append_right_inj spelling).mpr hp)
  cases h with
  | word hc hcs hrest => exact .word hc hcs fun d hd => hrest d (hhead d hd)
  | integer hc hcs hrest => exact .integer hc hcs fun d hd => hrest d (hhead d hd)
  | string hu => exact .string hu
  | operator hmem hlong hcomment =>
    exact .operator hmem (fun op hop ha => hlong op hop (hmono _ ha)) fun ha => hcomment (hmono _ ha)

theorem sourceText_mono {rest rest' : List Char} (h : rest' <+: rest) (pieces : List Piece) :
    sourceText pieces rest' <+: sourceText pieces rest := by
  induction pieces with
  | nil => exact h
  | cons piece pieces ih =>
    exact (List.prefix_append_right_inj _).mpr ((List.prefix_append_right_inj _).mpr ih)

theorem cutList_sourceText {pieces : List Piece} {rest : List Char} (hs : Spaced pieces rest)
    (hclean : Clean pieces) :
    Lexer.cutList (sourceText pieces rest) = sourceText pieces (Lexer.cutList rest) := by
  induction pieces with
  | nil => rfl
  | cons piece pieces ih =>
    obtain ⟨-, hnul, -, hs⟩ := hs
    rw [sourceText, cutList_append_of_not_mem (hclean piece List.mem_cons_self),
      cutList_append_of_not_mem hnul, ih hs fun p hp => hclean p (List.mem_cons_of_mem _ hp)]
    rfl

/-- The tokens of the pieces, and those of the text behind them. -/
theorem lexes_sourceText {pieces : List Piece} {rest rest' : List Char} (hs : Spaced pieces rest)
    (hp : rest' <+: rest) : ∀ before : List Char, ∃ ts, Sames (pieces.map Piece.token) ts ∧
      ∀ tokens, Lexes (before ++ sourceText pieces []) rest' tokens →
        Lexes before (sourceText pieces rest') (ts ++ tokens) := by
  induction pieces with
  | nil =>
    refine fun before => ⟨[], .nil, fun tokens hl => ?_⟩
    rwa [sourceText, List.append_nil] at hl
  | cons piece pieces ih =>
    intro before
    obtain ⟨hgap, -, hspells, hs⟩ := hs
    obtain ⟨ts, hts, hlexes⟩ := ih hs (before ++ piece.gap ++ piece.spelling)
    refine ⟨tokenAt (before ++ piece.gap) piece.token.kind piece.token.text.toList :: ts,
      .cons ⟨rfl, String.ofList_toList⟩ hts, fun tokens hl => hgap.lexes (.token ?_ (hlexes _ ?_))⟩
    · exact hspells.of_prefix (sourceText_mono hp pieces)
    · rwa [sourceText, ← List.append_assoc, ← List.append_assoc] at hl

theorem sames_counted {ts us : List Token} (h : Sames ts us) :
    Sames ts (us.map Lexer.counted) := by
  induction h with
  | nil => exact .nil
  | cons ht _ ih => exact .cons ⟨ht.kind, ht.text⟩ ih

/-- The lexer reads the pieces up to a gap with a NUL byte, or to the end of the text. -/
theorem tokenize_sourceText {pieces : List Piece} {gap rest : List Char}
    (hs : Spaced pieces (gap ++ rest)) (hclean : Clean pieces) (hgap : Gap gap)
    (hend : NUL ∈ gap ∨ rest = []) : ∃ ts e,
      Lexer.tokenize (sourceText pieces (gap ++ rest)) = .ok (ts ++ [e]) ∧ e.kind = .end_ ∧
      Sames (pieces.map Piece.token) ts := by
  have hcut : Lexer.cutList (gap ++ rest) = Lexer.cutList gap := by
    rcases hend with h | rfl
    · exact cutList_append_of_mem h
    · rw [List.append_nil]
  have hpre : Lexer.cutList gap <+: gap ++ rest :=
    (List.takeWhile_prefix _).trans (List.prefix_append _ _)
  obtain ⟨ts, hts, hlexes⟩ := lexes_sourceText hs hpre []
  have hl := hlexes _ (hgap.lexes_cut ([] ++ sourceText pieces []))
  rw [← hcut, ← cutList_sourceText hs hclean, hcut] at hl
  have hmap : ∀ e, (ts ++ [e]).map Lexer.counted = ts.map Lexer.counted ++ [Lexer.counted e] :=
    fun e => List.map_append
  exact ⟨_, _, ((Lexer.tokenize_spec _).2 _).mpr ⟨_, hl, (hmap _).symm⟩, rfl, sames_counted hts⟩

/-! ## Tokens of a lexer -/

/-- A token that a lexer makes. -/
def Lexed (t : Token) : Prop :=
  ∃ spelling rest, Spells t.kind t.text.toList spelling rest ∧ NUL ∉ spelling

/-- An identifier that is not a keyword. -/
def IsName (name : String) : Prop :=
  ∃ c cs, name.toList = c :: cs ∧ isWordStart c = true ∧ (∀ d ∈ cs, isWordChar d = true) ∧
    Lexer.wordKind name = .identifier

/-- A string with a backslash before each quote and each backslash. -/
def escape (text : List Char) : List Char :=
  text.flatMap fun c => if c = '"' ∨ c = '\\' then ['\\', c] else [c]

def Token.spelling (t : Token) : List Char :=
  if t.kind = .stringLiteral then '"' :: (escape t.text.toList ++ ['"']) else t.text.toList

theorem unescapes_escape (text : List Char) : Unescapes (escape text) text := by
  induction text with
  | nil => exact .nil
  | cons c text ih =>
    rw [escape, List.flatMap_cons]
    split
    · rename_i hc
      exact .escape hc ih
    · rename_i hc
      exact .char (fun h => hc (.inl h)) (fun h => absurd h fun h => hc (.inr h)) ih

theorem nul_not_mem_escape {text : List Char} (h : NUL ∉ text) : NUL ∉ escape text := by
  intro hm
  obtain ⟨c, hc, hm⟩ := List.mem_flatMap.mp hm
  have hne : NUL ≠ c := fun e => h (e ▸ hc)
  split at hm
  · rcases List.mem_cons.mp hm with e | hm
    · exact absurd e (by decide)
    · exact hne (List.mem_singleton.mp hm)
  · exact hne (List.mem_singleton.mp hm)

theorem Unescapes.nul_not_mem {body text : List Char} (h : Unescapes body text) :
    NUL ∉ body → NUL ∉ text := by
  induction h with
  | nil => exact id
  | escape _ _ ih =>
    intro hn hm
    obtain ⟨-, hn⟩ := not_or.mp fun e => hn (List.mem_cons.mpr e)
    obtain ⟨hc, hn⟩ := not_or.mp fun e => hn (List.mem_cons.mpr e)
    exact (List.mem_cons.mp hm).elim hc (ih hn)
  | char _ _ _ ih =>
    intro hn hm
    obtain ⟨hc, hn⟩ := not_or.mp fun e => hn (List.mem_cons.mpr e)
    exact (List.mem_cons.mp hm).elim hc (ih hn)

/-- The kinds of words. -/
theorem wordKind_mem (name : String) :
    Lexer.wordKind name ∈ .identifier :: Lexer.keywords.map Prod.snd := by
  rw [Lexer.wordKind]
  cases h : Lexer.keywords.lookup name with
  | none => exact List.mem_cons_self
  | some kind =>
    obtain ⟨l₁, l₂, hl, -⟩ := List.lookup_eq_some_iff.mp h
    refine List.mem_cons_of_mem _ (List.mem_map.mpr ⟨(name, kind), ?_, rfl⟩)
    rw [hl]
    exact List.mem_append_right _ List.mem_cons_self

/-- What a lexer makes of the kinds that have no fixed text. -/
theorem Lexed.cases {t : Token} (h : Lexed t) :
    (t.kind ∈ Lexer.keywords.map Prod.snd ++ operators.map Prod.snd) ∨
    (t.kind = .identifier ∧ IsName t.text) ∨
    (t.kind = .integer ∧ t.text.toList ≠ [] ∧ ∀ c ∈ t.text.toList, c.isDigit = true) ∨
    (t.kind = .stringLiteral ∧ NUL ∉ t.text.toList) := by
  obtain ⟨spelling, rest, h, hnul⟩ := h
  generalize hk : t.kind = kind at h
  generalize htext : t.text.toList = text at h
  have hof : String.ofList text = t.text := by rw [← htext, String.ofList_toList]
  cases h with
  | @word c cs _ hc hcs _ =>
    rw [hof]
    rcases List.mem_cons.mp (wordKind_mem t.text) with hw | hw
    · exact .inr (.inl ⟨hw, c, cs, htext, hc, hcs, hw⟩)
    · exact .inl (List.mem_append_left _ hw)
  | integer hc hcs _ =>
    exact .inr (.inr (.inl ⟨rfl, List.cons_ne_nil _ _, List.forall_mem_cons.mpr ⟨hc, hcs⟩⟩))
  | string hu =>
    refine .inr (.inr (.inr ⟨rfl, hu.nul_not_mem fun hm => hnul ?_⟩))
    exact List.mem_cons_of_mem _ (List.mem_append_left _ hm)
  | operator hmem _ _ =>
    exact .inl (List.mem_append_right _ (List.mem_map_of_mem hmem))

/-- What the kind says about the text. -/
theorem Lexed.spec {t : Token} (h : Lexed t) : t.kind ≠ .end_ ∧
    (t.kind = .identifier → IsName t.text) ∧
    (t.kind = .integer → t.text.toList ≠ [] ∧ ∀ c ∈ t.text.toList, c.isDigit = true) ∧
    (t.kind = .stringLiteral → NUL ∉ t.text.toList) := by
  have hfixed : ∀ kind ∈ Lexer.keywords.map Prod.snd ++ operators.map Prod.snd,
      kind ≠ .end_ ∧ kind ≠ .identifier ∧ kind ≠ .integer ∧ kind ≠ .stringLiteral := by decide
  rcases h.cases with hm | ⟨hk, hname⟩ | ⟨hk, hdigits⟩ | ⟨hk, hnul⟩
  · obtain ⟨hend, hname, hdigits, hnul⟩ := hfixed _ hm
    exact ⟨hend, fun h => absurd h hname, fun h => absurd h hdigits, fun h => absurd h hnul⟩
  · simp [hk, hname]
  · simpa [hk] using hdigits
  · simp [hk, hnul]

/-! ## Spaces between tokens -/

/-- What has no space does not go on behind one. -/
theorem prefix_of_space {a rest : List Char} (ha : ' ' ∉ a) (hrest : ∀ c ∈ rest.head?, c = ' ') :
    ∀ {spelling : List Char}, a <+: spelling ++ rest → a <+: spelling := by
  induction a with
  | nil => exact fun _ => List.nil_prefix
  | cons c a ih =>
    obtain ⟨hc, ha⟩ := not_or.mp fun e => ha (List.mem_cons.mpr e)
    intro spelling h
    cases spelling with
    | nil =>
      obtain ⟨s, hs⟩ := h
      exact absurd (hrest c (by rw [← List.nil_append rest, ← hs]; rfl)).symm hc
    | cons d spelling =>
      obtain ⟨rfl, hp⟩ := List.cons_prefix_cons.mp h
      exact List.cons_prefix_cons.mpr ⟨rfl, ih ha hp⟩

/-- With a space behind it, a token is spelled in its usual way. -/
theorem Lexed.spells {t : Token} (h : Lexed t) {rest : List Char}
    (hrest : ∀ c ∈ rest.head?, c = ' ') :
    Spells t.kind t.text.toList t.spelling rest ∧ NUL ∉ t.spelling := by
  obtain ⟨spelling, rest', h, hnul⟩ := h
  rw [Token.spelling]
  generalize t.kind = kind at h ⊢
  generalize t.text.toList = text at h ⊢
  have hspace : ∀ {p : Char → Bool}, p ' ' = false → ∀ d ∈ rest.head?, p d = false :=
    fun hp d hd => (hrest d hd).symm ▸ hp
  cases h with
  | @word c cs _ hc hcs _ =>
    have hne : Lexer.wordKind (String.ofList (c :: cs)) ≠ .stringLiteral := by
      have hall : TokenKind.stringLiteral ∉ .identifier :: Lexer.keywords.map Prod.snd := by decide
      exact fun h => hall (h ▸ wordKind_mem _)
    rw [if_neg hne]
    exact ⟨.word hc hcs (hspace (by decide)), hnul⟩
  | integer hc hcs _ =>
    rw [if_neg (by decide)]
    exact ⟨.integer hc hcs (hspace (by decide)), hnul⟩
  | string hu =>
    rw [if_pos rfl]
    refine ⟨.string (unescapes_escape text), fun hm => ?_⟩
    have htext : NUL ∉ text := hu.nul_not_mem fun hm =>
      hnul (List.mem_cons_of_mem _ (List.mem_append_left _ hm))
    rcases List.mem_cons.mp hm with hm | hm
    · exact absurd hm (by decide)
    · rcases List.mem_append.mp hm with hm | hm
      · exact nul_not_mem_escape htext hm
      · exact absurd (List.mem_singleton.mp hm) (by decide)
  | operator hmem _ hcomment =>
    have hkind : ∀ op ∈ operators, op.2 ≠ .stringLiteral := by decide
    have hspaces : ∀ op ∈ operators, ' ' ∉ op.1 := by decide
    rw [if_neg (hkind _ hmem)]
    refine ⟨.operator hmem (fun op hop hp => ?_) fun hp => hcomment ?_, hnul⟩
    · exact (prefix_of_space (hspaces op hop) hrest hp).length_le
    · exact (prefix_of_space (by decide) hrest hp).trans (List.prefix_append _ _)

/-- The token with a space before it. -/
def Piece.ofToken (t : Token) : Piece := ⟨[' '], t, t.spelling⟩

/-- Tokens in their usual spelling, with gaps that start with a space. -/
theorem spaced_of_spaces {pieces : List Piece}
    (h : ∀ piece ∈ pieces, Lexed piece.token ∧ piece.spelling = piece.token.spelling ∧
      Gap piece.gap ∧ piece.gap.head? = some ' ') : Spaced pieces [] := by
  induction pieces with
  | nil => trivial
  | cons piece pieces ih =>
    obtain ⟨⟨hlexed, hspelling, hgap, -⟩, h⟩ := List.forall_mem_cons.mp h
    have hhead : ∀ c ∈ (sourceText pieces []).head?, c = ' ' := by
      intro c hc
      cases pieces with
      | nil => cases hc
      | cons next pieces =>
        obtain ⟨gap, hgap⟩ := List.head?_eq_some_iff.mp (h next List.mem_cons_self).2.2.2
        rw [sourceText, hgap] at hc
        exact (Option.some.inj hc).symm
    obtain ⟨hs, hnul⟩ := hlexed.spells hhead
    rw [← hspelling] at hs hnul
    exact ⟨hgap, hnul, hs, ih h⟩

theorem spaced_ofToken {ts : List Token} (h : ∀ t ∈ ts, Lexed t) :
    Spaced (ts.map Piece.ofToken) [] ∧ Clean (ts.map Piece.ofToken) := by
  refine ⟨spaced_of_spaces fun piece hpiece => ?_, fun piece hpiece => ?_⟩
  · obtain ⟨t, ht, rfl⟩ := List.mem_map.mp hpiece
    exact ⟨h t ht, rfl, .space (by decide) .nil, rfl⟩
  · obtain ⟨t, -, rfl⟩ := List.mem_map.mp hpiece
    exact fun hm => absurd (List.mem_singleton.mp hm) (by decide)

end Oglang
end Techuila
