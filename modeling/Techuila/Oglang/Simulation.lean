import Techuila.Oglang.Operands

/-!
# The code of a function body implements it

* `Implements`: what the code has to do for the end of a computation.
* `evalExpr_implements`: expressions; `execBlock_implements`: statements, by induction on the
  lowering.
-/

namespace Techuila
namespace Oglang

open Computation

section Implements

variable {α β : Type} (C : Nat → Calls) (f : IRFunction) (d : Nat) (V : List Value)

/-- The code between `pc` and `pc'` gets to a memory with `Q`, or fails a bounds check. -/
def Implements (pc : Nat) (m : Memory) (pc' : Nat) (Q : α → Activations → Memory → Prop) :
    Effect α → Prop
  | .ok a s => ∃ m', f.Goes C d V pc m pc' m' ∧ Q a s m'
  | .trapped => f.Finishes C d V pc m .trapped

variable {C f d V} {pc pc₁ pc' : Nat} {m m₁ : Memory} {Q : α → Activations → Memory → Prop}
  {Q₁ : β → Activations → Memory → Prop}

theorem Implements.goes {o : Effect α} (hgo : f.Goes C d V pc m pc₁ m₁)
    (h : Implements C f d V pc₁ m₁ pc' Q o) : Implements C f d V pc m pc' Q o := by
  cases o with
  | ok a s =>
    obtain ⟨m', hgo', hq⟩ := h
    exact ⟨m', hgo.trans hgo', hq⟩
  | trapped => exact hgo.finishes h

theorem Implements.bind {x : Computation β} {g : β → Computation α} {s : Activations} {o : Effect α}
    (h : (x >>= g) s = some o) (hx : ∀ e, x s = some e → Implements C f d V pc m pc₁ Q₁ e)
    (hg : ∀ b s₁ m₁, Q₁ b s₁ m₁ → g b s₁ = some o → Implements C f d V pc₁ m₁ pc' Q o) :
    Implements C f d V pc m pc' Q o := by
  obtain ⟨ht, rfl⟩ | ⟨b, s₁, hb, h⟩ := bind_eq_some.mp h
  · exact hx .trapped ht
  · obtain ⟨m₁, hgo, hq⟩ := hx _ hb
    exact (hg b s₁ m₁ hq h).goes hgo

end Implements

/-- What the call of a function has to do. -/
def Answers (C : Nat → Calls) (F : Nat → Names) (n : Nat) (name : String) (ws : List Value)
    (s : Activations) (m : Memory) : Effect (BitVec 32) → Prop
  | .ok b s' => ∃ m', CallEnds C name ws m (.returned b m') ∧ Stores F n s' m' ∧
      Keeps F n (fun _ => True) s m s' m'
  | .trapped => CallEnds C name ws m .trapped

/-- The calls from an activation are implemented. -/
def CallsImplemented (C : Nat → Calls) (F : Nat → Names) (n : Nat)
    (call : String → List Datum → Computation (BitVec 32)) : Prop :=
  ∀ name vs ws s m o, Stores F n s m → List.Forall₂ (Represents F n) vs ws →
    call name vs s = some o → Answers C F n name ws s m o

/-- The end of an expression with its value in `v`. -/
structure Evaluated (F : Nat → Names) (d : Nat) (k k' : Int) (s : Activations) (m : Memory)
    (v : Int) (x : Referent) (s' : Activations) (m' : Memory) : Prop where
  stores : Stores F (d + 1) s' m'
  keeps : Keeps F (d + 1) (· < k) s m s' m'
  holds : Denotes F d k k' m' v x

/-- The end of arguments with their values in `vs`. -/
structure EvaluatedArgs (F : Nat → Names) (d : Nat) (k k' : Int) (s : Activations) (m : Memory)
    (vs : List Int) (xs : List Referent) (s' : Activations) (m' : Memory) : Prop where
  stores : Stores F (d + 1) s' m'
  keeps : Keeps F (d + 1) (· < k) s m s' m'
  holds : List.Forall₂ (Denotes F d k k' m') vs xs

section Results

variable {F : Nat → Names} {d : Nat} {k k₁ k' : Int} {s s₁ : Activations} {m m₁ m₂ : Memory}
  {v : Int} {b : BitVec 32}

/-- A value in a new cell. -/
theorem Evaluated.datum (hs : Stores F (d + 1) s₁ m₁) (hk : Keeps F (d + 1) (· < k) s m s₁ m₁)
    (hc : Clear F s d k k') (hle : k ≤ k₁) (hm : Scratch d k₁ k' m₁ m₂) (hv : k₁ ≤ v)
    (hv' : v < k') {x : Datum} {w : Value} (hw : m₂ d v = some w)
    (hx : Represents F (d + 1) x w) : Evaluated F d k k' s m v (.datum x) s₁ m₂ where
  stores := hs.scratch (((hk.same d (Nat.lt_succ_self d)).clear hc).mono hle le_rfl) hm
  keeps := hk.trans (.scratch (hm.mono hle le_rfl))
  holds := ⟨⟨hle.trans hv, hv'⟩, w, hw, hx⟩

/-- A number in a new cell that is written last. -/
theorem Evaluated.int (hs : Stores F (d + 1) s₁ m₁) (hk : Keeps F (d + 1) (· < k) s m s₁ m₁)
    (hc : Clear F s d k k') (hle : k ≤ k₁) (hm : Scratch d k₁ k' m₁ m₂) (hv : k₁ ≤ v)
    (hv' : v < k') :
    Evaluated F d k k' s m v (.datum (.int b)) s₁ (m₂.set d v (.int b)) :=
  .datum hs hk hc hle (hm.set hv hv') hv hv' (Memory.set_self _ _ _ _) rfl

theorem Forall₂.read {vs : List Int} {xs : List Referent}
    (h : List.Forall₂ (Denotes F d k k' m) vs xs) (hs : Stores F (d + 1) s m) {ys : List Datum}
    (hy : xs.mapM (Referent.read s d) = some ys) :
    ∃ ws, vs.mapM (m d) = some ws ∧ List.Forall₂ (Represents F (d + 1)) ys ws := by
  induction h generalizing ys with
  | nil =>
    cases hy
    exact ⟨[], rfl, .nil⟩
  | cons hx _ ih =>
    rw [List.mapM_cons] at hy
    obtain ⟨y, hy₁, hy⟩ := Option.bind_eq_some_iff.mp hy
    obtain ⟨ys, hys, e⟩ := Option.bind_eq_some_iff.mp hy
    cases e
    obtain ⟨w, hw, hr⟩ := hx.read hs hy₁
    obtain ⟨ws, hws, hrs⟩ := ih hys
    exact ⟨w :: ws, by simp [List.mapM_cons, hw, hws], .cons hr hrs⟩

end Results

theorem elementOf_eq_some {d : Nat} {a : String} {i : BitVec 32} {s : Activations}
    {o : Effect Place} (h : elementOf d a i s = some o) : ∃ size,
    (s d).arrays.find a = some size ∧ ((i.toNat < size ∧ o = .ok (.element a i.toNat) s) ∨
      (¬ i.toNat < size ∧ o = .trapped)) := by
  unfold elementOf at h
  split at h
  · cases h
  · rename_i size hsize
    refine ⟨size, hsize, ?_⟩
    split at h <;> cases h
    · exact .inl ⟨‹_›, rfl⟩
    · exact .inr ⟨‹_›, rfl⟩

theorem element_cell {T : Names} {a : String} {cells : List Int} (ha : T.arrays.find a = some cells)
    {i : Nat} {c : Int} (hc : T.cell (.element a i) = some c) : cells[i]? = some c := by
  rwa [Names.cell, ha] at hc

theorem field_cell {T : Names} {x : String} {cells : List Int}
    (hx : T.structVars.find x = some cells) {i : Nat} {c : Int}
    (hc : T.cell (.field x i) = some c) : cells[i]? = some c := by
  rwa [Names.cell, hx] at hc

/-- No struct variable has the name of an enum. -/
theorem enum_not_struct {Y : Layouts} {f : IRFunction} {F : Nat → Names} {d : Nat}
    {s : Activations} {m : Memory} (hf : f.Stored Y (F d)) (hs : Stores F (d + 1) s m)
    {x : String} {variants : Table String Int} (hv : Y.enumVariants.find x = some variants) :
    (s d).structVars.contains x = false := by
  refine Table.not_contains_iff.mpr (Option.eq_none_iff_forall_ne_some.mpr fun t ht => ?_)
  obtain ⟨-, cells, hcells⟩ := hs.structVars d (Nat.lt_succ_self d) x t ht
  obtain ⟨D, hD⟩ := hf.tidy
  cases hv.symm.trans (hD.structVars x cells hcells).2

section Body

variable {Y : Layouts} {f : IRFunction} {C : Nat → Calls} {F : Nat → Names} {d : Nat}
  {V : List Value} {call : String → List Datum → Computation (BitVec 32)}
  (hf : f.Stored Y (F d)) (hcalls : CallsImplemented C F (d + 1) call)

include hf hcalls

set_option linter.unusedSectionVars false in
mutual

/-- The code of an expression implements it. -/
theorem evalExpr_implements {T : Names} {k : Int} {e : Expr} {code : List IRInstruction}
    {taken : List Int} {v k' : Int} : LowersExpr Y T k e code taken v k' → T.Le (F d) → 0 ≤ k →
      VarsBelow T k → ∀ {pc : Nat} {s : Activations} {m : Memory} {o : Effect Referent},
      f.CodeAt pc code → Clear F s d k k' → Stores F (d + 1) s m →
      evalExpr Y call d e s = some o →
      Implements C f d V pc m (pc + code.length) (Evaluated F d k k' s m v) o
  | .integer, _, _, _, pc, s, m, o, hat, hc, hs, h => by
    rw [evalExpr] at h
    cases h
    exact ⟨_, IRFunction.constI32_goes hat, .int hs .refl hc le_rfl .refl le_rfl (by omega)⟩
  | .variable hv, hT, _, _, pc, s, m, o, hat, hc, hs, h => by
    rw [evalExpr] at h
    cases h
    exact ⟨m, .refl, hs, .refl, hT.vars _ _ hv⟩
  | .unary hl, hT, h0, hb, pc, s, m, o, hat, hc, hs, h => by
    have hk := hl.bounds h0 hb
    rw [evalExpr, if_neg (by simp)] at h
    refine .bind h (fun e he => evalExpr_implements hl hT h0 hb hat.left
      (hc.mono le_rfl (by omega)) hs he) fun x s₁ m₁ hx h => ?_
    obtain ⟨n, hn, h⟩ := query_bind_eq_some.mp h
    cases h
    rw [List.length_append, ← Nat.add_assoc]
    exact ⟨_, (IRFunction.constI32_goes hat.right).trans (IRFunction.binary_goes (by rfl)
      hat.right.tail (Memory.set_self _ _ _ _) ((Memory.set_of_ne (by omega)).trans
        (hx.holds.number hx.stores hn)) (congrArg some (BitVec.zero_sub n))),
      .int hx.stores hx.keeps hc hk.1 (Scratch.refl.set le_rfl (by omega)) (by omega) (by omega)⟩
  | .addressOf hv, hT, _, _, pc, s, m, o, hat, hc, hs, h => by
    rw [evalExpr] at h
    cases h
    exact ⟨_, IRFunction.addressOfI32_goes hat, .datum hs .refl hc le_rfl
      (Scratch.refl.set le_rfl (by omega)) le_rfl (by omega) (Memory.set_self _ _ _ _)
      ⟨Nat.lt_succ_self d, _, _, rfl, f.block_zero _, hT.vars _ _ hv⟩⟩
  | .deref hl, hT, h0, hb, pc, s, m, o, hat, hc, hs, h => by
    have hk := hl.bounds h0 hb
    rw [evalExpr] at h
    refine .bind h (fun e he => evalExpr_implements hl hT h0 hb hat.left
      (hc.mono le_rfl (by omega)) hs he) fun x s₁ m₁ hx h => ?_
    obtain ⟨⟨j, name⟩, hr, h⟩ := query_bind_eq_some.mp h
    obtain ⟨n, hn, h⟩ := query_bind_eq_some.mp h
    cases h
    obtain ⟨hj, p, c, hp, rfl, hcell, hF⟩ := hx.holds.address hx.stores hr
    obtain ⟨c', hF', hm⟩ := hx.stores.number hj hn
    cases hF.symm.trans hF'
    rw [List.length_append, ← Nat.add_assoc]
    exact ⟨_, IRFunction.loadI32_goes hat.right hp hcell hm,
      .int hx.stores hx.keeps hc hk.1 .refl le_rfl (by omega)⟩
  | .index ha hl, hT, h0, hb, pc, s, m, o, hat, hc, hs, h => by
    have hk := hl.bounds h0 hb
    rw [evalExpr] at h
    refine .bind h (fun e he => evalExpr_implements hl hT h0 hb hat.left
      (hc.mono le_rfl (by omega)) hs he) fun x s₁ m₁ hx h => ?_
    obtain ⟨i, hi, h⟩ := query_bind_eq_some.mp h
    have hi := hx.holds.number hx.stores hi
    have hF := hT.arrays _ _ ha
    obtain ⟨D, ht⟩ := hf.tidy
    obtain ⟨he, rfl⟩ | ⟨p, s₂, he, h⟩ := bind_eq_some.mp h <;>
      obtain ⟨size, hsize, ⟨hlt, e⟩ | ⟨hlt, e⟩⟩ := elementOf_eq_some he <;> cases e <;>
      obtain ⟨cells, hcells, rfl⟩ := hx.stores.arrays d (Nat.lt_succ_self d) _ _ hsize <;>
      cases hF.symm.trans hcells
    · exact IRFunction.elementCode_finishes (ht.arrays _ _ hF) hat.right hi hlt
    · obtain ⟨n, hn, h⟩ := query_bind_eq_some.mp h
      cases h
      obtain ⟨c, hcell, hm⟩ := hx.stores.number (Nat.lt_succ_self d) hn
      obtain ⟨m₂, p, hgo, hscratch, hp, hd, hpc⟩ := IRFunction.elementCode_goes (C := C)
        (V := V) (hf.arrays _ _ hF) (ht.arrays _ _ hF) hat.right hi hf.groups hk.2.2 hlt
      have hc₁ := (hx.keeps.same d (Nat.lt_succ_self d)).clear hc
      rw [List.length_append, List.length_append, ← Nat.add_assoc, ← Nat.add_assoc]
      refine ⟨_, hgo.trans (IRFunction.loadI32_goes hat.right.right hp
        (hpc.trans (element_cell hF hcell)) ?_),
        .int hx.stores hx.keeps hc hk.1 (hscratch.mono le_rfl (by omega)) (by omega) (by omega)⟩
      rw [hd, hscratch.occupied (hc₁.mono hk.1 (by omega)) ⟨_, Activations.contents_ne_none hn, hcell⟩,
        hm]
  | .enumVariant hn hv ho, hT, _, _, pc, s, m, o, hat, hc, hs, h => by
    rw [evalExpr] at h
    dsimp only at h
    rw [enum_not_struct hf hs hv, hv] at h
    dsimp only at h
    rw [ho] at h
    cases h
    exact ⟨_, IRFunction.constI32_goes hat, .int hs .refl hc le_rfl .refl le_rfl (by omega)⟩
  | .fieldAccess hi, hT, _, _, pc, s, m, o, hat, hc, hs, h => by
    obtain ⟨hx, hg, hlen, hlt, hY⟩ := hf.field hT hi
    rw [evalExpr] at h
    dsimp only at h
    rw [hY] at h
    split at h
    · rename_i hv
      cases hv
    obtain ⟨p, hp, h⟩ := query_bind_eq_some.mp h
    obtain rfl := IRFunction.field_eq hT hi rfl hs hp
    obtain ⟨n, hn, h⟩ := query_bind_eq_some.mp h
    cases h
    obtain ⟨c, hcell, hm⟩ := hs.number (Nat.lt_succ_self d) hn
    obtain ⟨m₂, p, hgo, hscratch, hp, hd, hpc⟩ := IRFunction.fieldCode_goes (C := C)
      (V := V) hf.groups hg hlen hat hlt
    rw [List.length_append, ← Nat.add_assoc]
    refine ⟨_, hgo.trans (IRFunction.loadI32_goes hat.right hp (hpc.trans (field_cell hx hcell)) ?_),
      .int hs .refl hc le_rfl (hscratch.mono le_rfl (by omega)) (by omega) (by omega)⟩
    rw [hd, hscratch.occupied (hc.mono le_rfl (by omega)) ⟨_, Activations.contents_ne_none hn, hcell⟩,
      hm]
  | .asm, _, _, _, pc, s, m, o, hat, hc, hs, h => by
    rw [evalExpr] at h
    cases h
  | .call hl, hT, h0, hb, pc, s, m, o, hat, hc, hs, h => by
    have hk := (hl.bounds h0 hb).1
    rw [evalExpr] at h
    refine .bind h (fun e he => evalArgs_implements hl hT h0 hb hat.left
      (hc.mono le_rfl (by omega)) hs he) fun xs s₁ m₁ hx h => ?_
    obtain ⟨ys, hys, h⟩ := query_bind_eq_some.mp h
    obtain ⟨ws, hws, hr⟩ := Forall₂.read hx.holds hx.stores hys
    obtain ⟨ht, rfl⟩ | ⟨n, s₂, hn, h⟩ := bind_eq_some.mp h
    · exact IRFunction.call_finishes hat.right hws (hcalls _ _ _ _ _ _ hx.stores hr ht)
    · cases h
      obtain ⟨m₂, hgo, hs₂, hk₂⟩ := hcalls _ _ _ _ _ _ hx.stores hr hn
      rw [List.length_append, ← Nat.add_assoc]
      exact ⟨_, IRFunction.call_goes hat.right hws hgo, .int hs₂
        (hx.keeps.trans (hk₂.mono fun _ _ => trivial)) hc hk .refl le_rfl (by omega)⟩
  | .binary hop hl₁ hl₂, hT, h0, hb, pc, s, m, o, hat, hc, hs, h => by
    have hk₁ := hl₁.bounds h0 hb
    have hk₂ := hl₂.bounds (h0.trans hk₁.1) (hb.mono hk₁.1)
    rw [evalExpr] at h
    refine .bind h (fun e he => evalExpr_implements hl₁ hT h0 hb hat.left
      (hc.mono le_rfl (by omega)) hs he) fun x s₁ m₁ hx h => ?_
    have hc₁ := (hx.keeps.same d (Nat.lt_succ_self d)).clear hc
    refine .bind h (fun e he => evalExpr_implements hl₂ hT (h0.trans hk₁.1) (hb.mono hk₁.1)
      hat.right.left (hc₁.mono hk₁.1 (by omega)) hx.stores he) fun y s₂ m₂ hy h => ?_
    obtain ⟨a, ha, h⟩ := query_bind_eq_some.mp h
    obtain ⟨b, hb, h⟩ := query_bind_eq_some.mp h
    obtain ⟨n, hn, h⟩ := query_bind_eq_some.mp h
    cases h
    rw [operate_eq hop] at hn
    have hx' := hx.holds.keep le_rfl hy.keeps (hc₁.mono le_rfl (by omega))
    rw [List.length_append, List.length_append, ← Nat.add_assoc, ← Nat.add_assoc]
    exact ⟨_, IRFunction.binary_goes (binaryOpcode_isBinary hop) hat.right.right
      (hx'.number hy.stores ha) (hy.holds.number hy.stores hb) hn, .int hy.stores
      (hx.keeps.trans (hy.keeps.mono fun _ h => h.trans_le hk₁.1)) hc (hk₁.1.trans hk₂.1) .refl
      le_rfl (by omega)⟩

theorem evalArgs_implements {T : Names} {k : Int} {es : List Expr} {code : List IRInstruction}
    {taken vs : List Int} {k' : Int} : LowersArgs Y T k es code taken vs k' → T.Le (F d) → 0 ≤ k →
      VarsBelow T k → ∀ {pc : Nat} {s : Activations} {m : Memory} {o : Effect (List Referent)},
      f.CodeAt pc code → Clear F s d k k' → Stores F (d + 1) s m →
      evalArgs Y call d es s = some o →
      Implements C f d V pc m (pc + code.length) (EvaluatedArgs F d k k' s m vs) o
  | .nil, _, _, _, pc, s, m, o, hat, hc, hs, h => by
    rw [evalArgs] at h
    cases h
    exact ⟨m, .refl, hs, .refl, .nil⟩
  | .cons hl₁ hl₂, hT, h0, hb, pc, s, m, o, hat, hc, hs, h => by
    have hk₁ := hl₁.bounds h0 hb
    have hk₂ := (hl₂.bounds (h0.trans hk₁.1) (hb.mono hk₁.1)).1
    rw [evalArgs] at h
    refine .bind h (fun e he => evalExpr_implements hl₁ hT h0 hb hat.left
      (hc.mono le_rfl (by omega)) hs he) fun x s₁ m₁ hx h => ?_
    have hc₁ := (hx.keeps.same d (Nat.lt_succ_self d)).clear hc
    refine .bind h (fun e he => evalArgs_implements hl₂ hT (h0.trans hk₁.1) (hb.mono hk₁.1)
      hat.right (hc₁.mono hk₁.1 le_rfl) hx.stores he) fun xs s₂ m₂ hxs h => ?_
    cases h
    rw [List.length_append, ← Nat.add_assoc]
    exact ⟨m₂, .refl, hxs.stores,
      hx.keeps.trans (hxs.keeps.mono fun _ h => h.trans_le hk₁.1),
      .cons ((hx.holds.keep le_rfl hxs.keeps (hc₁.mono le_rfl hk₂)).mono le_rfl hk₂)
        (hxs.holds.imp fun _ _ h => h.mono hk₁.1 le_rfl)⟩

end

end Body

end Oglang
end Techuila
