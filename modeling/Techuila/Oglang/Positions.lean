import Techuila.Oglang.Grammar

/-!
# The grammar does not look at positions

`Same` tokens have the same kind and the same text.
-/

namespace Techuila
namespace Oglang

/-- `u` is the token `t`, maybe at another position. -/
structure Same (t u : Token) : Prop where
  kind : u.kind = t.kind
  text : u.text = t.text

namespace Same

variable {t u : Token}

theorem symm (h : Same t u) : Same u t := ⟨h.kind.symm, h.text.symm⟩

/-- The kind that is expected of a token. -/
theorem is (h : Same t u) {kind : TokenKind} (ht : t.kind = kind) : u.kind = kind :=
  h.kind.trans ht

end Same

/-- The same tokens. -/
abbrev Sames (ts us : List Token) : Prop := List.Forall₂ Same ts us

theorem Sames.append {a b us : List Token} (h : Sames (a ++ b) us) :
    ∃ a' b', us = a' ++ b' ∧ Sames a a' ∧ Sames b b' := by
  induction a generalizing us with
  | nil => exact ⟨[], us, rfl, .nil, h⟩
  | cons t a ih =>
    cases h with
    | @cons _ u _ us ht hs =>
      obtain ⟨a', b', rfl, ha, hb⟩ := ih hs
      exact ⟨u :: a', b', rfl, .cons ht ha, hb⟩

/-- What stands between the last token and what comes before. -/
theorem Sames.concat {a us : List Token} {r : Token} (h : Sames (a ++ [r]) us) :
    ∃ a' r', us = a' ++ [r'] ∧ Sames a a' ∧ Same r r' := by
  obtain ⟨a', _, rfl, ha, _ | ⟨hr, _ | _⟩⟩ := h.append
  exact ⟨a', _, rfl, ha, hr⟩

theorem Sames.flatten {lists : List (List Token)} {us : List Token} (h : Sames lists.flatten us) :
    ∃ lists', us = lists'.flatten ∧ List.Forall₂ Sames lists lists' := by
  induction lists generalizing us with
  | nil =>
    cases h
    exact ⟨[], rfl, .nil⟩
  | cons a lists ih =>
    obtain ⟨a', b', rfl, ha, hb⟩ := Sames.append h
    obtain ⟨lists', rfl, hlists⟩ := ih hb
    exact ⟨a' :: lists', rfl, .cons ha hlists⟩

theorem Joins.same {lists : List (List Token)} {inner us : List Token} (h : Joins lists inner)
    (hs : Sames inner us) : ∃ lists', Joins lists' us ∧ List.Forall₂ Sames lists lists' := by
  induction h generalizing us with
  | nil =>
    cases hs
    exact ⟨[], .nil, .nil⟩
  | one => exact ⟨[us], .one, .cons hs .nil⟩
  | cons hcomma _ ih =>
    obtain ⟨a, _, rfl, ha, _ | ⟨hc, hb⟩⟩ := Sames.append hs
    obtain ⟨lists', hjoins, hlists⟩ := ih hb
    obtain _ | ⟨hus, hlists⟩ := hlists
    exact ⟨_, .cons (hc.is hcomma) hjoins, .cons ha (.cons hus hlists)⟩

/-- Items that print one by one. -/
theorem forall₂_same {α : Type} {R : α → List Token → Prop} {xs : List α}
    {lists lists' : List (List Token)} (hlen : xs.length = lists.length)
    (h : ∀ p ∈ xs.zip lists, ∀ us, Sames p.2 us → R p.1 us)
    (hs : List.Forall₂ Sames lists lists') : List.Forall₂ R xs lists' := by
  induction hs generalizing xs with
  | nil =>
    obtain rfl := List.length_eq_zero_iff.mp hlen
    exact .nil
  | cons ha _ ih =>
    match xs, hlen with
    | x :: xs, hlen =>
      exact .cons (h _ List.mem_cons_self _ ha)
        (ih (Nat.succ.inj hlen) fun p hp => h p (List.mem_cons_of_mem _ hp))

theorem Numeral.same {t u : Token} {value : Int} (h : Numeral t value) (hs : Same t u) :
    Numeral u value := by
  rw [Numeral, hs.text]
  exact ⟨hs.is h.1, h.2⟩

theorem PrintsPath.same {name : String} {ts us : List Token} (h : PrintsPath name ts)
    (hs : Sames ts us) : PrintsPath name us := by
  cases h with
  | name ht =>
    obtain _ | ⟨st, _ | _⟩ := hs
    rw [← st.text]
    exact .name (st.is ht)
  | dotted ht hdot hu =>
    obtain _ | ⟨st, _ | ⟨sdot, _ | ⟨su, _ | _⟩⟩⟩ := hs
    rw [← st.text, ← su.text]
    exact .dotted (st.is ht) (sdot.is hdot) (su.is hu)

theorem PrintsType.same {type : String} {ts us : List Token} (h : PrintsType type ts)
    (hs : Sames ts us) : PrintsType type us := by
  cases h with
  | i32 ht =>
    obtain _ | ⟨st, _ | _⟩ := hs
    exact .i32 (st.is ht)
  | ptr ht =>
    obtain _ | ⟨st, _ | _⟩ := hs
    exact .ptr (st.is ht)
  | constptr ht =>
    obtain _ | ⟨st, _ | _⟩ := hs
    exact .constptr (st.is ht)
  | path h => exact .path (h.same hs)

theorem Expr.Prints.same {n : Nat} {e : Expr} {ts : List Token} (h : e.Prints n ts) :
    ∀ us, Sames ts us → e.Prints n us := by
  induction h with
  | lift hn _ ih => exact fun us hs => .lift hn (ih us hs)
  | binary hop _ _ iha ihb =>
    intro us hs
    obtain ⟨a, _, rfl, sa, _ | ⟨sop, sb⟩⟩ := hs.append
    exact .binary (by rw [sop.kind]; exact hop) (iha a sa) (ihb _ sb)
  | unary ht _ ih =>
    rintro _ (_ | ⟨st, hs⟩)
    exact .unary (st.is ht) (ih _ hs)
  | addressOf ht hname =>
    rintro _ (_ | ⟨st, _ | ⟨sname, _ | _⟩⟩)
    rw [← sname.text]
    exact .addressOf (st.is ht) (sname.is hname)
  | deref ht _ ih =>
    rintro _ (_ | ⟨st, hs⟩)
    exact .deref (st.is ht) (ih _ hs)
  | integer ht =>
    rintro _ (_ | ⟨st, _ | _⟩)
    exact .integer (ht.same st)
  | var hname =>
    rintro _ (_ | ⟨sname, _ | _⟩)
    rw [← sname.text]
    exact .var (sname.is hname)
  | index hname hl _ hr ih =>
    rintro _ (_ | ⟨sname, _ | ⟨sl, hs⟩⟩)
    obtain ⟨a, r, rfl, sa, sr⟩ := Sames.concat hs
    rw [← sname.text]
    exact .index (sname.is hname) (sl.is hl) (ih a sa) (sr.is hr)
  | fieldAccess hpath hdot hfield =>
    intro us hs
    obtain ⟨a, _, rfl, sa, _ | ⟨sdot, _ | ⟨sfield, _ | _⟩⟩⟩ := hs.append
    rw [← sfield.text]
    exact .fieldAccess (hpath.same sa) (sdot.is hdot) (sfield.is hfield)
  | asm ht hl htext hr =>
    rintro _ (_ | ⟨st, _ | ⟨sl, _ | ⟨stext, _ | ⟨sr, _ | _⟩⟩⟩⟩)
    rw [← stext.text]
    exact .asm (st.is ht) (sl.is hl) (stext.is htext) (sr.is hr)
  | call hpath hl hlen _ hjoins hr ih =>
    intro us hs
    obtain ⟨a, _, rfl, sa, _ | ⟨sl, hs'⟩⟩ := hs.append
    obtain ⟨inner, r, rfl, sinner, sr⟩ := Sames.concat hs'
    obtain ⟨lists, hjoins, hlists⟩ := hjoins.same sinner
    obtain ⟨hlen, hargs⟩ := zip_of_forall₂ (forall₂_same hlen ih hlists)
    exact .call (hpath.same sa) (sl.is hl) hlen hargs hjoins (sr.is hr)
  | paren hl _ hr ih =>
    rintro _ (_ | ⟨sl, hs⟩)
    obtain ⟨a, r, rfl, sa, sr⟩ := Sames.concat hs
    exact .paren (sl.is hl) (ih a sa) (sr.is hr)

/-- The tokens of a block up to its closing brace. -/
theorem block_same {body : List Statement} {lists : List (List Token)} {r : Token} {us : List Token}
    (hlen : body.length = lists.length)
    (ih : ∀ p ∈ body.zip lists, ∀ us, Sames p.2 us → p.1.Prints us)
    (hs : Sames (lists.flatten ++ [r]) us) : ∃ lists' r', us = lists'.flatten ++ [r'] ∧
      body.length = lists'.length ∧ (∀ p ∈ body.zip lists', p.1.Prints p.2) ∧ Same r r' := by
  obtain ⟨a, r', rfl, sa, sr⟩ := Sames.concat hs
  obtain ⟨lists', rfl, hlists⟩ := sa.flatten
  obtain ⟨hlen, hbody⟩ := zip_of_forall₂ (forall₂_same hlen ih hlists)
  exact ⟨lists', r', rfl, hlen, hbody, sr⟩

theorem Statement.Prints.same {s : Statement} {ts : List Token} (h : s.Prints ts) :
    ∀ us, Sames ts us → s.Prints us := by
  induction h with
  | letStmt ht hname hcolon ha hequal he hsemi =>
    rintro _ (_ | ⟨st, _ | ⟨sname, _ | ⟨scolon, hs⟩⟩⟩)
    obtain ⟨a, _, rfl, sa, _ | ⟨sequal, tail⟩⟩ := Sames.append hs
    obtain ⟨b, semi, rfl, sb, ssemi⟩ := Sames.concat tail
    rw [← sname.text]
    exact .letStmt (st.is ht) (sname.is hname) (scolon.is hcolon) (ha.same sa) (sequal.is hequal)
      (he.same b sb) (ssemi.is hsemi)
  | structVarDecl ht hname hcolon ha hsemi =>
    rintro _ (_ | ⟨st, _ | ⟨sname, _ | ⟨scolon, hs⟩⟩⟩)
    obtain ⟨a, semi, rfl, sa, ssemi⟩ := Sames.concat hs
    rw [← sname.text]
    exact .structVarDecl (st.is ht) (sname.is hname) (scolon.is hcolon) (ha.same sa)
      (ssemi.is hsemi)
  | arrayDecl ht hname hcolon ha hl hsize hr hsemi =>
    rintro _ (_ | ⟨st, _ | ⟨sname, _ | ⟨scolon, hs⟩⟩⟩)
    obtain ⟨a, _, rfl, sa, _ | ⟨sl, _ | ⟨ssize, _ | ⟨sr, _ | ⟨ssemi, _ | _⟩⟩⟩⟩⟩ := Sames.append hs
    rw [← sname.text]
    exact .arrayDecl (st.is ht) (sname.is hname) (scolon.is hcolon) (ha.same sa) (sl.is hl)
      (hsize.same ssize) (sr.is hr) (ssemi.is hsemi)
  | returnStmt ht he hsemi =>
    rintro _ (_ | ⟨st, hs⟩)
    obtain ⟨a, semi, rfl, sa, ssemi⟩ := Sames.concat hs
    exact .returnStmt (st.is ht) (he.same a sa) (ssemi.is hsemi)
  | assignStmt hname hequal he hsemi =>
    rintro _ (_ | ⟨sname, _ | ⟨sequal, hs⟩⟩)
    obtain ⟨a, semi, rfl, sa, ssemi⟩ := Sames.concat hs
    rw [← sname.text]
    exact .assignStmt (sname.is hname) (sequal.is hequal) (he.same a sa) (ssemi.is hsemi)
  | indexStore hname hl hindex hr hequal he hsemi =>
    rintro _ (_ | ⟨sname, _ | ⟨sl, hs⟩⟩)
    obtain ⟨a, _, rfl, sa, _ | ⟨sr, _ | ⟨sequal, tail⟩⟩⟩ := Sames.append hs
    obtain ⟨b, semi, rfl, sb, ssemi⟩ := Sames.concat tail
    rw [← sname.text]
    exact .indexStore (sname.is hname) (sl.is hl) (hindex.same a sa) (sr.is hr) (sequal.is hequal)
      (he.same b sb) (ssemi.is hsemi)
  | fieldStore hname hdot hfield hequal he hsemi =>
    rintro _ (_ | ⟨sname, _ | ⟨sdot, _ | ⟨sfield, _ | ⟨sequal, hs⟩⟩⟩⟩)
    obtain ⟨a, semi, rfl, sa, ssemi⟩ := Sames.concat hs
    rw [← sname.text, ← sfield.text]
    exact .fieldStore (sname.is hname) (sdot.is hdot) (sfield.is hfield) (sequal.is hequal)
      (he.same a sa) (ssemi.is hsemi)
  | storeStmt hstar hpointer hequal he hsemi =>
    rintro _ (_ | ⟨sstar, hs⟩)
    obtain ⟨a, _, rfl, sa, _ | ⟨sequal, tail⟩⟩ := Sames.append hs
    obtain ⟨b, semi, rfl, sb, ssemi⟩ := Sames.concat tail
    exact .storeStmt (sstar.is hstar) (hpointer.same a sa) (sequal.is hequal) (he.same b sb)
      (ssemi.is hsemi)
  | whileStmt ht hl he hr hl' hlen _ hr' ih =>
    rintro _ (_ | ⟨st, _ | ⟨sl, hs⟩⟩)
    obtain ⟨a, _, rfl, sa, _ | ⟨sr, _ | ⟨sl', tail⟩⟩⟩ := Sames.append hs
    obtain ⟨lists, r, rfl, hlen, hbody, sr'⟩ := block_same hlen ih tail
    exact .whileStmt (st.is ht) (sl.is hl) (he.same a sa) (sr.is hr) (sl'.is hl') hlen hbody
      (sr'.is hr')
  | ifStmt ht hl he hr hl' hlen _ hr' ih =>
    rintro _ (_ | ⟨st, _ | ⟨sl, hs⟩⟩)
    obtain ⟨a, _, rfl, sa, _ | ⟨sr, _ | ⟨sl', tail⟩⟩⟩ := Sames.append hs
    obtain ⟨lists, r, rfl, hlen, hbody, sr'⟩ := block_same hlen ih tail
    exact .ifStmt (st.is ht) (sl.is hl) (he.same a sa) (sr.is hr) (sl'.is hl') hlen hbody
      (sr'.is hr')
  | @ifElse t l r l' r' else_ l'' r'' e body elseBody a lists elseLists ht hl he hr hl' hlen _ hr'
      helse hl'' hlen' _ hr'' ih ih' =>
    rintro _ (_ | ⟨st, _ | ⟨sl, hs⟩⟩)
    obtain ⟨a, _, rfl, sa, _ | ⟨sr, _ | ⟨sl', tail⟩⟩⟩ := Sames.append hs
    obtain ⟨b, _, rfl, sb, _ | ⟨sr', _ | ⟨selse, _ | ⟨sl'', last⟩⟩⟩⟩ := Sames.append tail
    obtain ⟨lists, rfl, hlists⟩ := sb.flatten
    obtain ⟨hlen, hbody⟩ := zip_of_forall₂ (forall₂_same hlen ih hlists)
    obtain ⟨elseLists, r, rfl, hlen', helseBody, sr''⟩ := block_same hlen' ih' last
    exact .ifElse (st.is ht) (sl.is hl) (he.same a sa) (sr.is hr) (sl'.is hl') hlen hbody
      (sr'.is hr') (selse.is helse) (sl''.is hl'') hlen' helseBody (sr''.is hr'')

/-! ## Declarations -/

theorem PrintsName.same {name : String} {ts us : List Token} (h : PrintsName name ts)
    (hs : Sames ts us) : PrintsName name us := by
  obtain ⟨hname⟩ := h
  obtain _ | ⟨sname, _ | _⟩ := hs
  rw [← sname.text]
  exact .mk (sname.is hname)

theorem Param.Prints.same {param : Param} {ts us : List Token} (h : param.Prints ts)
    (hs : Sames ts us) : param.Prints us := by
  obtain ⟨hname, hcolon, htype⟩ := h
  obtain _ | ⟨sname, _ | ⟨scolon, hs⟩⟩ := hs
  rw [← sname.text]
  exact .mk (sname.is hname) (scolon.is hcolon) (htype.same hs)

theorem Encloses.same {α : Type} {opening closing : TokenKind} {R : α → List Token → Prop}
    {items : List α} {ts us : List Token} (h : Encloses opening closing R items ts)
    (hR : ∀ x ts us, R x ts → Sames ts us → R x us) (hs : Sames ts us) :
    Encloses opening closing R items us := by
  obtain ⟨l, r, inner, hl, hr, ⟨lists, hlists, hjoins⟩, rfl⟩ := h
  obtain _ | ⟨sl, hs⟩ := hs
  obtain ⟨inner, r, rfl, sinner, sr⟩ := Sames.concat hs
  obtain ⟨lists, hjoins, hsames⟩ := hjoins.same sinner
  obtain ⟨hlen, hitems⟩ := zip_of_forall₂ hlists
  exact ⟨_, _, _, sl.is hl, sr.is hr, ⟨lists, forall₂_same hlen
    (fun p hp _ hs => hR _ _ _ (hitems p hp) hs) hsames, hjoins⟩, rfl⟩

theorem Decl.Prints.same {decl : Decl} {ts us : List Token} (h : decl.Prints ts)
    (hs : Sames ts us) : decl.Prints us := by
  cases h with
  | import_ h =>
    obtain ⟨ht, hname, hsemi⟩ := h
    obtain _ | ⟨st, _ | ⟨sname, _ | ⟨ssemi, _ | _⟩⟩⟩ := hs
    rw [← sname.text]
    exact .import_ (.mk (st.is ht) (sname.is hname) (ssemi.is hsemi))
  | struct h =>
    obtain ⟨ht, hname, hfields⟩ := h
    obtain _ | ⟨st, _ | ⟨sname, hs⟩⟩ := hs
    rw [← sname.text]
    exact .struct (.mk (st.is ht) (sname.is hname) (hfields.same (fun _ _ _ => Param.Prints.same) hs))
  | enum h =>
    obtain ⟨ht, hname, hvariants⟩ := h
    obtain _ | ⟨st, _ | ⟨sname, hs⟩⟩ := hs
    rw [← sname.text]
    exact .enum (.mk (st.is ht) (sname.is hname) (hvariants.same (fun _ _ _ => PrintsName.same) hs))
  | function h =>
    obtain ⟨ht, hname, hparams, harrow, htype, hl, ⟨lists, hbody, rfl⟩, hr⟩ := h
    obtain _ | ⟨st, _ | ⟨sname, hs⟩⟩ := hs
    obtain ⟨a, _, rfl, sa, _ | ⟨sarrow, tail⟩⟩ := Sames.append hs
    obtain ⟨b, _, rfl, sb, _ | ⟨sl, last⟩⟩ := Sames.append tail
    obtain ⟨hlen, hzip⟩ := zip_of_forall₂ hbody
    obtain ⟨lists, r, rfl, hlen, hbody, sr⟩ := block_same hlen (fun p hp => (hzip p hp).same) last
    rw [← sname.text]
    exact .function (.mk (st.is ht) (sname.is hname) (hparams.same (fun _ _ _ => Param.Prints.same) sa)
      (sarrow.is harrow) (htype.same sb) (sl.is hl) ⟨lists, forall₂_of_zip hlen hbody, rfl⟩
      (sr.is hr))

theorem Program.Prints.same {program : Program} {ts us : List Token} (h : program.Prints ts)
    (hs : Sames ts us) : program.Prints us := by
  obtain ⟨decls, lists, hlists, rfl, rfl⟩ := h
  obtain ⟨lists, rfl, hsames⟩ := hs.flatten
  obtain ⟨hlen, hdecls⟩ := zip_of_forall₂ hlists
  exact ⟨decls, lists, forall₂_same hlen (fun p hp _ hs => (hdecls p hp).same hs) hsames, rfl, rfl⟩

end Oglang
end Techuila
