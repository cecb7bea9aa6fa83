import Techuila.Oglang.ParserComplete
import Techuila.Oglang.ParserSound
import Techuila.Oglang.Printing

/-!
# The front end (`compileSingleFile` in `main.cpp`)

* `Printing`: source texts of a program.
* `frontEnd_roundTrip`: the front end gives the program of such a text back if no comment before a
  token has a NUL byte, and only then; and it accepts no other tokens.
-/

namespace Techuila
namespace Oglang

/-- The lexer and the parser. -/
def frontEnd (source : List Char) : Except ParseError Program :=
  match Lexer.tokenize source with
  | .error message => .error (.thrown message)
  | .ok tokens => (Parser.parseProgram tokens).map Prod.fst

/-- The pieces and what stands behind the last one print the program. -/
structure Printing (program : Program) (pieces : List Piece) (last : List Char) : Prop where
  prints : program.Prints (pieces.map Piece.token)
  spaced : Spaced pieces last
  gap : Gap last

/-! ## Tokens -/

theorem Spaced.allLexed {pieces : List Piece} {rest : List Char} (h : Spaced pieces rest) :
    AllLexed (pieces.map Piece.token) := by
  induction pieces with
  | nil => exact allLexed_nil
  | cons piece pieces ih =>
    obtain ⟨-, hnul, hs, h⟩ := h
    exact allLexed_cons.mpr ⟨⟨_, _, hs, hnul⟩, ih h⟩

theorem Lexed.digital {t : Token} (h : Lexed t) : Digital t := h.spec.2.2.1

theorem digital_concat {ts : List Token} {e : Token} (hd : ∀ t ∈ ts, Digital t)
    (he : e.kind = .end_) : ∀ t ∈ ts ++ [e], Digital t :=
  List.forall_mem_append.mpr ⟨hd, List.forall_mem_singleton.mpr fun hk =>
    absurd (hk.symm.trans he) (by decide)⟩

theorem Sames.symm {ts us : List Token} (h : Sames ts us) : Sames us ts :=
  (List.Forall₂.flip h).imp fun _ _ h => h.symm

theorem Sames.digital {ts us : List Token} (h : Sames ts us) (hl : AllLexed ts) :
    ∀ t ∈ us, Digital t := by
  induction h with
  | nil => exact fun _ h => absurd h List.not_mem_nil
  | @cons t u _ _ ht _ ih =>
    obtain ⟨hlt, hl⟩ := allLexed_cons.mp hl
    refine List.forall_mem_cons.mpr ⟨fun hk => ?_, ih hl⟩
    rw [ht.text]
    exact hlt.digital (ht.kind.symm.trans hk)

theorem Sames.forall_kind {ts us : List Token} (h : Sames ts us)
    (hts : ∀ t ∈ ts, t.kind ≠ .end_) : ∀ t ∈ us, t.kind ≠ .end_ := by
  induction h with
  | nil => exact fun _ h => absurd h List.not_mem_nil
  | cons ht _ ih =>
    obtain ⟨hne, hts⟩ := List.forall_mem_cons.mp hts
    exact List.forall_mem_cons.mpr ⟨fun hk => hne (ht.kind.symm.trans hk), ih hts⟩

/-- What the parser accepts prints the program that it returns. -/
theorem prints_of_parse {ts rest : List Token} {e : Token} (he : e.kind = .end_)
    (hend : ∀ t ∈ ts, t.kind ≠ .end_) (hd : ∀ t ∈ ts, Digital t) {program : Program}
    (h : Parser.parseProgram (ts ++ [e]) = .ok (program, rest)) :
    rest = [e] ∧ program.Prints ts := by
  obtain ⟨used, hused, hprints⟩ :=
    Parser.reads_parseProgram _ program rest (digital_concat hd he) (Nat.lt_succ_self _) h
  obtain ⟨e', rfl, -⟩ := Parser.parseProgram_takes ⟨ts, e, rfl, he, hend⟩ h
  obtain ⟨rfl, heq⟩ := List.append_inj' hused rfl
  exact ⟨heq.symm, hprints⟩

/-! ## What is behind the declarations of a program -/

theorem length_decls_foldl (decls : List Decl) (program : Program) :
    (decls.foldl Program.add program).decls.length = program.decls.length + decls.length := by
  induction decls generalizing program with
  | nil => rfl
  | cons decl decls ih =>
    have hadd : (program.add decl).decls.length = program.decls.length + 1 := by
      cases decl <;> simp [Program.add, Program.decls] <;> omega
    rw [List.foldl_cons, ih, hadd, List.length_cons]
    omega

/-- Tokens behind those of a program declare something else. -/
theorem not_prints_append {program : Program} {front more : List Token} (h : program.Prints front)
    (hmore : more ≠ []) (hd : ∀ t ∈ more, Digital t) : ¬ program.Prints (front ++ more) := by
  intro hall
  let e : Token := ⟨.end_, "", 0, 0⟩
  have hparse := Parser.parseProgram_prints hall (show Parser.IsEnd e from rfl) []
  obtain ⟨decls, lists, hlists, rfl, hprogram⟩ := h
  have hloop := Parser.programLoop_prints hlists (more ++ [e]) Program.empty
  rw [← hprogram, ← List.append_assoc] at hloop
  have hrest := hloop.symm.trans hparse
  obtain ⟨used, hused, decls', lists', hlists', rfl, hprogram'⟩ :=
    Parser.reads_programLoop program _ _ _ (digital_concat hd rfl) (Nat.lt_succ_self _) hrest
  have hlen := length_decls_foldl decls' program
  rw [← hprogram'] at hlen
  obtain rfl : decls' = [] := List.length_eq_zero_iff.mp (by omega)
  cases hlists'
  exact hmore (List.append_cancel_right hused)

/-! ## Texts -/

/-- The first gap with a NUL byte. -/
theorem exists_dirty {pieces : List Piece} (h : ¬ Clean pieces) :
    ∃ front piece back, pieces = front ++ piece :: back ∧ Clean front ∧ NUL ∈ piece.gap := by
  induction pieces with
  | nil => exact absurd (fun _ h => absurd h List.not_mem_nil) h
  | cons piece pieces ih =>
    by_cases hp : NUL ∈ piece.gap
    · exact ⟨[], piece, pieces, rfl, fun _ h => absurd h List.not_mem_nil, hp⟩
    · have hrest : ¬ Clean pieces := fun hc => h (List.forall_mem_cons.mpr ⟨hp, hc⟩)
      obtain ⟨front, piece', back, rfl, hfront, hnul⟩ := ih hrest
      exact ⟨piece :: front, piece', back, rfl, List.forall_mem_cons.mpr ⟨hp, hfront⟩, hnul⟩

theorem frontEnd_of_tokenize {source : List Char} {tokens : List Token}
    (h : Lexer.tokenize source = .ok tokens) :
    frontEnd source = (Parser.parseProgram tokens).map Prod.fst := by
  rw [frontEnd, h]

theorem frontEnd_of_clean {program : Program} {pieces : List Piece} {last : List Char}
    (h : Printing program pieces last) (hclean : Clean pieces) :
    frontEnd (sourceText pieces last) = .ok program := by
  have hspaced : Spaced pieces (last ++ []) := by
    rw [List.append_nil]
    exact h.spaced
  obtain ⟨ts, e, htokens, he, hts⟩ := tokenize_sourceText hspaced hclean h.gap (.inr rfl)
  rw [List.append_nil] at htokens
  rw [frontEnd_of_tokenize htokens, Parser.parseProgram_prints (h.prints.same hts) he []]
  rfl

/-- A NUL byte hides the tokens behind it. -/
theorem frontEnd_of_dirty {program : Program} {pieces : List Piece} {last : List Char}
    (h : Printing program pieces last) (hdirty : ¬ Clean pieces) :
    frontEnd (sourceText pieces last) ≠ .ok program := by
  obtain ⟨front, piece, back, rfl, hfront, hnul⟩ := exists_dirty hdirty
  obtain ⟨hspaced, hgap, -, -, -⟩ := h.spaced.append
  rw [sourceText_append] at *
  obtain ⟨ts, e, htokens, he, hts⟩ := tokenize_sourceText hspaced hfront hgap (.inl hnul)
  have hlexed := h.spaced.allLexed
  have hprints := h.prints
  rw [List.map_append] at hlexed hprints
  obtain ⟨hlfront, hlback⟩ := allLexed_append.mp hlexed
  intro hok
  have hok := (frontEnd_of_tokenize htokens).symm.trans hok
  cases hparse : Parser.parseProgram (ts ++ [e]) with
  | error _ => rw [hparse] at hok; cases hok
  | ok r =>
    obtain ⟨program', rest⟩ := r
    rw [hparse] at hok
    cases hok
    have hend : ∀ t ∈ ts, t.kind ≠ .end_ := hts.forall_kind fun t ht => (hlfront t ht).spec.1
    obtain ⟨-, hp⟩ := prints_of_parse he hend (hts.digital hlfront) hparse
    exact not_prints_append (hp.same hts.symm) (List.cons_ne_nil _ _)
      (fun t ht => (hlback t ht).digital) hprints

/-! ## The round trip -/

/-- A program of the shape has a printing. The front end gives a program back from a printing if
and only if no gap before a token has a NUL byte. The tokens that the parser accepts are those of
a printing of the program that it returns. -/
theorem frontEnd_roundTrip (program : Program) :
    (program.Shaped → Printing program (program.print.map Piece.ofToken) [] ∧
      Clean (program.print.map Piece.ofToken)) ∧
    (∀ pieces last, Printing program pieces last →
      (frontEnd (sourceText pieces last) = .ok program ↔ Clean pieces)) ∧
    ∀ tokens rest, Parse.Terminated Parser.IsEnd tokens →
      (∀ t ∈ tokens, t.kind ≠ .end_ → Lexed t) →
      Parser.parseProgram tokens = .ok (program, rest) →
      program.Shaped ∧ ∃ pieces e, Printing program pieces [] ∧ Clean pieces ∧
        rest = [e] ∧ tokens = pieces.map Piece.token ++ [e] := by
  have htokens : ∀ ts : List Token, (ts.map Piece.ofToken).map Piece.token = ts := fun ts => by
    rw [List.map_map]
    exact List.map_id ts
  refine ⟨fun h => ?_, fun pieces last h => ?_, fun tokens rest hterm hlexed hparse => ?_⟩
  · obtain ⟨hprints, hl⟩ := Program.print_prints h
    obtain ⟨hspaced, hclean⟩ := spaced_ofToken hl
    exact ⟨⟨by rwa [htokens], hspaced, .nil⟩, hclean⟩
  · refine ⟨fun hok => ?_, frontEnd_of_clean h⟩
    by_contra hdirty
    exact frontEnd_of_dirty h hdirty hok
  · obtain ⟨front, e, rfl, he, hfront⟩ := hterm
    have hl : AllLexed front := fun t ht =>
      hlexed t (List.mem_append_left _ ht) (hfront t ht)
    obtain ⟨hrest, hprints⟩ := prints_of_parse he hfront (fun t ht => (hl t ht).digital) hparse
    obtain ⟨hspaced, hclean⟩ := spaced_ofToken hl
    exact ⟨hprints.shaped hl, front.map Piece.ofToken, e,
      ⟨by rwa [htokens], hspaced, .nil⟩, hclean, hrest, by rw [htokens]⟩

/-- `import a;` and `import b;`. -/
def twoImports : Program := ⟨[⟨"a"⟩, ⟨"b"⟩], [], [], []⟩

theorem twoImports_shaped : twoImports.Shaped := by
  have ha : IsName "a" := ⟨'a', [], by decide +kernel, by decide,
    fun _ h => absurd h List.not_mem_nil, by decide +kernel⟩
  have hb : IsName "b" := ⟨'b', [], by decide +kernel, by decide,
    fun _ h => absurd h List.not_mem_nil, by decide +kernel⟩
  intro decl hdecl
  rcases List.mem_cons.mp hdecl with rfl | hdecl
  · exact ha
  · rw [List.mem_singleton.mp hdecl]
    exact hb

theorem frontEnd_roundTrip_twoImports :
    frontEnd (sourceText (twoImports.print.map Piece.ofToken) []) = .ok twoImports := by
  obtain ⟨hprint, hback, -⟩ := frontEnd_roundTrip twoImports
  obtain ⟨h, hclean⟩ := hprint twoImports_shaped
  exact (hback _ _ h).mpr hclean

/-- Its pieces, with a comment between the imports. -/
def hiddenImport : List Piece :=
  [fixed .import_, nameToken "a", fixed .semicolon].map Piece.ofToken ++
    ⟨[' ', '/', '/', NUL, '\n'], fixed .import_, (fixed .import_).spelling⟩ ::
      [nameToken "b", fixed .semicolon].map Piece.ofToken

theorem hiddenImport_printing : Printing twoImports hiddenImport [] := by
  obtain ⟨hprints, hl⟩ := Program.print_prints twoImports_shaped
  have hgap : Gap (' ' :: '/' :: '/' :: ([NUL] ++ '\n' :: [])) :=
    .comment (by decide) (by decide) (.space (by decide) .nil)
  refine ⟨hprints, spaced_of_spaces fun piece hpiece => ⟨hl _ ?_, ?_⟩, .nil⟩
  · exact List.mem_map_of_mem hpiece
  · simp only [hiddenImport, List.map_cons, List.map_nil, List.cons_append, List.nil_append,
      List.mem_cons, List.not_mem_nil, or_false] at hpiece
    rcases hpiece with rfl | rfl | rfl | rfl | rfl | rfl
    all_goals first
      | exact ⟨rfl, hgap, rfl⟩
      | exact ⟨rfl, .space (by decide) .nil, rfl⟩

/-- The NUL byte in the comment hides the second import. -/
theorem frontEnd_hides_import : Printing twoImports hiddenImport [] ∧
    (frontEnd (sourceText hiddenImport [])).map
      (fun program => program.imports.map ImportDecl.moduleName) = .ok ["a"] ∧
    frontEnd (sourceText hiddenImport []) ≠ .ok twoImports := by
  have hresult : (frontEnd (sourceText hiddenImport [])).map
      (fun program => program.imports.map ImportDecl.moduleName) = .ok ["a"] := by decide +kernel
  refine ⟨hiddenImport_printing, hresult, fun h => ?_⟩
  rw [h] at hresult
  exact absurd hresult (by decide)

end Oglang
end Techuila
