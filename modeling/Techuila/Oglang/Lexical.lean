import Mathlib.Data.List.Infix
import Mathlib.Data.List.TakeWhile
import Techuila.Oglang.Lexer

/-!
# The lexical grammar

A source is white space, comments and the spellings of tokens, in any order.

* `Spells`: the longest piece of text at some place that spells a token.
* `Lexes`: the tokens of a text, at the positions they really have.
-/

namespace Techuila
namespace Oglang

/-! ## Spellings -/

/-- All operators. -/
def operators : List (List Char × TokenKind) :=
  Lexer.singles.map (fun e => ([e.1], e.2)) ++
    [(['-', '>'], .arrow), (['-'], .minus), (['=', '='], .equalEqual), (['='], .equal),
      (['!', '='], .notEqual), (['>', '='], .greaterEqual), (['>'], .greater),
      (['<', '='], .lessEqual), (['<'], .less)]

/-- What stands between the quotes, and the text that it means: a backslash before a quote or a
backslash is an escape, and every other character means itself. -/
inductive Unescapes : List Char → List Char → Prop
  | nil : Unescapes [] []
  | escape {c : Char} {body text : List Char} : c = '"' ∨ c = '\\' → Unescapes body text →
      Unescapes ('\\' :: c :: body) (c :: text)
  | char {c : Char} {body text : List Char} : c ≠ '"' →
      (c = '\\' → ∃ d ∈ body.head?, d ≠ '"' ∧ d ≠ '\\') → Unescapes body text →
      Unescapes (c :: body) (c :: text)

/-- The next piece of the text spells a token: its kind, its text, the piece, and the text behind
it. A piece is as long as it can be. -/
inductive Spells : TokenKind → List Char → List Char → List Char → Prop
  | word {c : Char} {cs rest : List Char} : isWordStart c = true →
      (∀ d ∈ cs, isWordChar d = true) → (∀ d ∈ rest.head?, isWordChar d = false) →
      Spells (Lexer.wordKind (String.ofList (c :: cs))) (c :: cs) (c :: cs) rest
  | integer {c : Char} {cs rest : List Char} : c.isDigit = true →
      (∀ d ∈ cs, d.isDigit = true) → (∀ d ∈ rest.head?, d.isDigit = false) →
      Spells .integer (c :: cs) (c :: cs) rest
  | string {body text rest : List Char} : Unescapes body text →
      Spells .stringLiteral text ('"' :: (body ++ ['"'])) rest
  | operator {kind : TokenKind} {spelling rest : List Char} : (spelling, kind) ∈ operators →
      (∀ op ∈ operators, op.1 <+: spelling ++ rest → op.1.length ≤ spelling.length) →
      ¬ ['/', '/'] <+: spelling ++ rest → Spells kind spelling spelling rest

/-! ## Texts -/

/-- The line of the character after `before`. -/
def lineOf (before : List Char) : Nat := before.count '\n' + 1

/-- Its column: the characters after the last newline. -/
def columnOf (before : List Char) : Nat := (before.reverse.takeWhile (· ≠ '\n')).length + 1

/-- A token that starts after `before`. -/
def tokenAt (before : List Char) (kind : TokenKind) (text : List Char) : Token :=
  ⟨kind, String.ofList text, lineOf before, columnOf before⟩

/-- After `before`, the text has these tokens, and the end of the text as the last one. -/
inductive Lexes : (before text : List Char) → List Token → Prop
  | nil {before : List Char} : Lexes before [] [tokenAt before .end_ []]
  | space {before rest : List Char} {c : Char} {tokens : List Token} : isSpace c = true →
      Lexes (before ++ [c]) rest tokens → Lexes before (c :: rest) tokens
  | comment {before body rest : List Char} {tokens : List Token} : '\n' ∉ body →
      (∀ c ∈ rest.head?, c = '\n') → Lexes (before ++ '/' :: '/' :: body) rest tokens →
      Lexes before ('/' :: '/' :: (body ++ rest)) tokens
  | token {before spelling rest text : List Char} {kind : TokenKind} {tokens : List Token} :
      Spells kind text spelling rest → Lexes (before ++ spelling) rest tokens →
      Lexes before (spelling ++ rest) (tokenAt before kind text :: tokens)

/-! ## Positions -/

/-- The position after `before`, as the `int` counters have it. -/
def countersAt (before : List Char) : Position :=
  ⟨wrap (lineOf before), wrap (columnOf before)⟩

/-- The counters after more characters. -/
def Position.skip (p : Position) (used : List Char) : Position := used.foldl Position.next p

@[simp] theorem Position.skip_nil (p : Position) : p.skip [] = p := rfl

@[simp] theorem Position.skip_cons (p : Position) (c : Char) (used : List Char) :
    p.skip (c :: used) = (p.next c).skip used := rfl

theorem lineOf_concat (before : List Char) (c : Char) :
    lineOf (before ++ [c]) = lineOf before + if c = '\n' then 1 else 0 := by
  rw [lineOf, lineOf, List.count_append, List.count_singleton]
  by_cases h : c = '\n' <;> simp [h]

theorem columnOf_concat (before : List Char) (c : Char) :
    columnOf (before ++ [c]) = if c = '\n' then 1 else columnOf before + 1 := by
  rw [columnOf, columnOf, List.reverse_append, List.reverse_singleton, List.singleton_append,
    List.takeWhile_cons]
  by_cases h : c = '\n' <;> simp [h]

theorem increment_wrap (n : Nat) : increment (wrap n) = wrap (n + 1 : Nat) := by
  unfold increment wrap
  omega

theorem countersAt_next (before : List Char) (c : Char) :
    (countersAt before).next c = countersAt (before ++ [c]) := by
  unfold Position.next countersAt
  rw [lineOf_concat, columnOf_concat]
  by_cases h : c = '\n'
  · simp only [if_pos h, increment_wrap]
    rfl
  · simp only [if_neg h, increment_wrap, Nat.add_zero]

theorem countersAt_skip (before used : List Char) :
    (countersAt before).skip used = countersAt (before ++ used) := by
  induction used generalizing before with
  | nil => rw [List.append_nil, Position.skip_nil]
  | cons c used ih =>
    rw [Position.skip_cons, countersAt_next, ih, List.append_assoc, List.singleton_append]

/-- A counter is right as long as the number fits in an `int`. -/
theorem wrap_eq_self_iff (n : Int) : wrap n = n ↔ -2 ^ 31 ≤ n ∧ n < 2 ^ 31 := by
  unfold wrap
  omega

theorem wrap_le (n : Nat) : wrap n ≤ n := by
  unfold wrap
  omega

theorem lineOf_le (before used : List Char) : lineOf before ≤ lineOf (before ++ used) := by
  rw [lineOf, lineOf, List.count_append]
  omega

/-- Positions grow: the line, or the column on the same line. -/
theorem position_lt (before used : List Char) (h : used ≠ []) :
    lineOf before < lineOf (before ++ used) ∨
      (lineOf before = lineOf (before ++ used) ∧ columnOf before < columnOf (before ++ used)) := by
  induction used using List.reverseRecOn with
  | nil => exact absurd rfl h
  | append_singleton used c ih =>
    rw [← List.append_assoc, lineOf_concat, columnOf_concat]
    by_cases hc : c = '\n'
    · rw [if_pos hc]
      exact .inl (Nat.lt_succ_of_le (lineOf_le before used))
    · rw [if_neg hc, if_neg hc]
      by_cases hu : used = []
      · rw [hu, List.append_nil]
        exact .inr ⟨rfl, Nat.lt_succ_self _⟩
      · exact (ih hu).imp id fun ⟨hl, hcol⟩ => ⟨hl, Nat.lt_succ_of_lt hcol⟩

/-! ## Spellings and tokens -/

/-- A run of one class is the longest. -/
theorem span_eq {p : Char → Bool} {cs rest : List Char} (hcs : ∀ d ∈ cs, p d = true)
    (hrest : ∀ d ∈ rest.head?, p d = false) :
    (cs ++ rest).takeWhile p = cs ∧ (cs ++ rest).dropWhile p = rest := by
  have ht : rest.takeWhile p = [] ∧ rest.dropWhile p = rest := by
    cases rest with
    | nil => exact ⟨rfl, rfl⟩
    | cons d rest =>
      have hd := hrest d rfl
      exact ⟨List.takeWhile_cons_of_neg (by simp [hd]), List.dropWhile_cons_of_neg (by simp [hd])⟩
  rw [List.takeWhile_append_of_pos hcs, List.dropWhile_append_of_pos hcs, ht.1, ht.2,
    List.append_nil]
  exact ⟨rfl, rfl⟩

theorem head?_dropWhile (p : Char → Bool) (rest : List Char) :
    ∀ d ∈ (rest.dropWhile p).head?, p d = false := by
  intro d hd
  have := List.head?_dropWhile_not p rest
  rw [hd] at this
  exact this

/-- A spelling starts with its token: neither with white space nor with a comment. -/
theorem Spells.head {kind : TokenKind} {text spelling rest : List Char}
    (h : Spells kind text spelling rest) : ∃ c cs, spelling = c :: cs ∧ isSpace c = false ∧
      ¬ ['/', '/'] <+: spelling ++ rest := by
  have hspace : ∀ c, isSpace c = true → isWordStart c = false ∧ c.isDigit = false := by
    intro c hc
    simp only [isSpace, List.mem_cons, List.not_mem_nil, or_false, decide_eq_true_iff] at hc
    rcases hc with rfl | rfl | rfl | rfl | rfl | rfl <;> decide
  have hnot : ∀ {c : Char} {s : List Char}, c ≠ '/' → ¬ ['/', '/'] <+: c :: s := fun hc hp =>
    hc (List.cons_prefix_cons.mp hp).1.symm
  cases h with
  | @word c cs _ hc _ _ =>
    refine ⟨c, cs, rfl, ?_, hnot ?_⟩
    · by_contra h
      rw [(hspace c (Bool.of_not_eq_false h)).1] at hc
      cases hc
    · rintro rfl
      exact absurd hc (by decide)
  | @integer c cs _ hc _ _ =>
    refine ⟨c, cs, rfl, ?_, hnot ?_⟩
    · by_contra h
      rw [(hspace c (Bool.of_not_eq_false h)).2] at hc
      cases hc
    · rintro rfl
      exact absurd hc (by decide)
  | string _ => exact ⟨'"', _, rfl, by decide, hnot (by decide)⟩
  | operator hmem _ hcomment =>
    have hall : ∀ op ∈ operators, op.1.head?.map isSpace = some false := by decide
    obtain ⟨c, hc, hs⟩ := Option.map_eq_some_iff.mp (hall _ hmem)
    obtain ⟨cs, rfl⟩ := List.head?_eq_some_iff.mp hc
    exact ⟨c, cs, rfl, hs, hcomment⟩

theorem lexes_nil_iff {before : List Char} {tokens : List Token} :
    Lexes before [] tokens ↔ tokens = [tokenAt before .end_ []] := by
  refine ⟨fun h => ?_, fun h => h ▸ .nil⟩
  generalize he : ([] : List Char) = text at h
  cases h with
  | nil => rfl
  | space => cases he
  | comment => cases he
  | token hs _ =>
    obtain ⟨c, cs, rfl, -⟩ := hs.head
    cases he

theorem lexes_space_iff {before rest : List Char} {c : Char} (hc : isSpace c = true)
    {tokens : List Token} :
    Lexes before (c :: rest) tokens ↔ Lexes (before ++ [c]) rest tokens := by
  refine ⟨fun h => ?_, .space hc⟩
  generalize he : c :: rest = text at h
  cases h with
  | nil => cases he
  | space _ h =>
    cases he
    exact h
  | comment =>
    cases he
    exact absurd hc (by decide)
  | token hs _ =>
    obtain ⟨d, cs, rfl, hd, -⟩ := hs.head
    cases he
    rw [hc] at hd
    cases hd

/-- A comment goes to the end of its line. -/
theorem lexes_comment_iff {before s : List Char} {tokens : List Token} :
    Lexes before ('/' :: '/' :: s) tokens ↔
      Lexes (before ++ '/' :: '/' :: s.takeWhile (· ≠ '\n')) (s.dropWhile (· ≠ '\n')) tokens := by
  constructor
  · intro h
    generalize he : '/' :: '/' :: s = text at h
    cases h with
    | nil => cases he
    | space hc _ =>
      cases he
      exact absurd hc (by decide)
    | @comment _ body rest _ hbody hrest h =>
      cases he
      have ht : (body ++ rest).takeWhile (· ≠ '\n') = body ∧
          (body ++ rest).dropWhile (· ≠ '\n') = rest := by
        refine span_eq (fun d hd => ?_) fun d hd => ?_
        · exact decide_eq_true fun e => hbody (e ▸ hd)
        · exact decide_eq_false fun hne => hne (hrest d hd)
      rw [ht.1, ht.2]
      exact h
    | @token _ spelling rest _ _ _ hs _ =>
      obtain ⟨c, cs, -, -, hcomment⟩ := hs.head
      exact absurd ⟨s, he⟩ hcomment
  · intro h
    have hs : s.takeWhile (· ≠ '\n') ++ s.dropWhile (· ≠ '\n') = s :=
      List.takeWhile_append_dropWhile
    rw [← hs]
    refine .comment (fun hm => ?_) (fun c hc => ?_) h
    · have := List.mem_takeWhile_imp hm
      exact of_decide_eq_true this rfl
    · exact of_not_not (of_decide_eq_false (head?_dropWhile _ s c hc))

/-- Where neither white space nor a comment starts, a token does. -/
theorem Lexes.of_cons {before s : List Char} {c : Char} {tokens : List Token}
    (h : Lexes before (c :: s) tokens) (hc : isSpace c = false)
    (hcomment : ¬ ['/', '/'] <+: c :: s) : ∃ kind text spelling rest tokens',
      c :: s = spelling ++ rest ∧ Spells kind text spelling rest ∧
      Lexes (before ++ spelling) rest tokens' ∧ tokens = tokenAt before kind text :: tokens' := by
  generalize he : c :: s = text at h
  cases h with
  | nil => cases he
  | space hc' _ =>
    cases he
    rw [hc] at hc'
    cases hc'
  | comment _ _ _ => exact absurd (he ▸ ⟨_, rfl⟩) hcomment
  | token hs h => exact ⟨_, _, _, _, _, rfl, hs, h, rfl⟩

/-- The end of the text is the last token. -/
theorem Lexes.getLast? {before text : List Char} {tokens : List Token}
    (h : Lexes before text tokens) :
    tokens.getLast? = some (tokenAt (before ++ text) .end_ []) := by
  induction h with
  | nil => rw [List.append_nil]; rfl
  | space _ _ ih => rw [ih, List.append_assoc]; rfl
  | comment _ _ _ ih => rw [ih, List.append_assoc]; rfl
  | token _ _ ih => rw [List.getLast?_cons, ih, List.append_assoc]; rfl

theorem Lexes.nonneg {before text : List Char} {tokens : List Token}
    (h : Lexes before text tokens) : ∀ t ∈ tokens, 0 ≤ t.line ∧ 0 ≤ t.column := by
  have hat : ∀ before kind text, 0 ≤ (tokenAt before kind text).line ∧
      0 ≤ (tokenAt before kind text).column := fun before kind text =>
    ⟨Int.natCast_nonneg _, Int.natCast_nonneg _⟩
  induction h with
  | nil => exact List.forall_mem_singleton.mpr (hat _ _ _)
  | space _ _ ih => exact ih
  | comment _ _ _ ih => exact ih
  | token _ _ ih => exact List.forall_mem_cons.mpr ⟨hat _ _ _, ih⟩

end Oglang
end Techuila
