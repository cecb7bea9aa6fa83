import Techuila.Oglang.Compiler
import Techuila.Oglang.StatementSimulation

/-!
# The compiler preserves the meaning of programs

* `Function.run_answers`: an activation.
* `Source.run_implemented`: every call of a source, by induction on the nesting of the calls.
* `lowered_answers`: the intermediate code does what the source says.
* `compiled_exits`: so does the machine.
-/

namespace Techuila
namespace Oglang

open Computation
open X86

/-! ## Parameters -/

namespace IRLowerer

/-- The variables of distinct parameters are numbered from `i` on. -/
theorem find_paramVars {x : String} {v : Int} (params : List Param) {i : Nat}
    {t : Table String Int} (hn : (params.map Param.name).Nodup) :
    (paramVars i t params).find x = some v ↔
      (∃ j param, params[j]? = some param ∧ param.name = x ∧ v = ((i + j : Nat) : Int)) ∨
        x ∉ params.map Param.name ∧ t.find x = some v := by
  induction params generalizing i t with
  | nil => simp [paramVars]
  | cons param params ih =>
    obtain ⟨hx, hn⟩ := List.nodup_cons.mp hn
    rw [paramVars, ih hn, Table.find_insert]
    constructor
    · rintro (⟨j, p, hp, hname, rfl⟩ | ⟨hmem, hv⟩)
      · exact .inl ⟨j + 1, p, hp, hname, by omega⟩
      · split at hv
        · rename_i e
          cases hv
          exact .inl ⟨0, param, rfl, e.symm, by omega⟩
        · rename_i e
          exact .inr ⟨by simpa [e] using hmem, hv⟩
    · rintro (⟨j, p, hp, hname, rfl⟩ | ⟨hmem, hv⟩)
      · cases j with
        | zero =>
          cases hp
          subst hname
          exact .inr ⟨hx, by simp⟩
        | succ j => exact .inl ⟨j, p, hp, hname, by omega⟩
      · rw [List.map_cons, List.mem_cons, not_or] at hmem
        exact .inr ⟨hmem.2, by rw [if_neg hmem.1, hv]⟩

theorem bodyScope_tidy {Y : Layouts} {params : List Param} (hn : (params.map Param.name).Nodup) :
    (bodyScope params).names.Tidy Y (params.map Param.name) where
  apart := by
    have hvar : ∀ p c, (bodyScope params).names.cell p = some c → ∃ x, p = .var x ∧
        ∃ j param, params[j]? = some param ∧ param.name = x ∧ c = ((0 + j : Nat) : Int) := by
      intro p c hc
      cases p with
      | var x => exact ⟨x, rfl, ((find_paramVars params hn).mp hc).resolve_right (by simp)⟩
      | element | field => simp [bodyScope, Names.cell] at hc
    intro p q c hp hq
    obtain ⟨x, rfl, j, a, ha, rfl, e⟩ := hvar p c hp
    obtain ⟨y, rfl, k, b, hb, rfl, e'⟩ := hvar q c hq
    obtain rfl : j = k := by omega
    cases ha.symm.trans hb
    rfl
  known x hx := by
    refine ⟨Option.eq_none_iff_forall_ne_some.mpr fun v hv => ?_, rfl, rfl, rfl⟩
    obtain ⟨j, param, hp, rfl, -⟩ := ((find_paramVars params hn).mp hv).resolve_right (by simp)
    exact hx (List.mem_map_of_mem (List.mem_of_getElem? hp))
  arrays _ _ h := by cases h
  structVars _ _ h := by cases h

end IRLowerer

/-- The tables at the end of a lowered regular function. -/
theorem lower_stored {function : Function} {Y : Layouts} {ir : IRFunction}
    (hr : function.regular Y = true)
    (h : IRLowerer.lower function Y.structFieldOrder Y.enumVariants = .ok ir) :
    ∃ A S, LowersBlock Y (IRLowerer.bodyScope function.params) function.body A S ∧
      ir = ⟨function.name, function.params.length,
        IRLowerer.paramCode 0 function.params.length ++ A.code, A.taken, A.groups⟩ ∧
      ir.Stored Y S.names ∧ (IRLowerer.bodyScope function.params).names.Le S.names := by
  obtain ⟨hn, hr⟩ := Bool.and_eq_true_iff.mp hr
  have hn := of_decide_eq_true hn
  obtain ⟨-, hperm, -, -⟩ := lower_labels h
  obtain ⟨A, S, hb, rfl⟩ := IRLowerer.lower_lowers h
  have hS := bodyScope_ok (Y := Y) function.params
  obtain ⟨ht, hle⟩ := hb.tidy hS (IRLowerer.bodyScope_tidy hn.of_append_left) hr hn
  have hok := (hb.ok hS).2
  exact ⟨A, S, hb, rfl, ⟨⟨_, ht⟩, hok.arrays, hok.structVars, hok.nodup,
    hperm.nodup_iff.mpr (labelNames_nodup _ _)⟩, hle.le⟩

/-- A function is called with as many values as it has parameters. -/
theorem length_of_bindParams {d i : Nat} {params : List Param} {vs : List Datum} {s : Activations}
    {o : Effect Unit} (h : bindParams d i params vs s = some o) : vs.length = params.length := by
  induction params generalizing i vs s with
  | nil =>
    cases vs with
    | nil => rfl
    | cons => cases h
  | cons param params ih =>
    cases vs with
    | nil => cases h
    | cons v vs =>
      obtain ⟨x, -, hrest⟩ := query_bind_eq_some.mp h
      rw [List.length_cons, List.length_cons, ih hrest]

section Function

variable {f : IRFunction} {C : Nat → Calls} {F : Nat → Names} {d : Nat} {ws : List Value}

/-- The code of the parameters gives them their values. -/
theorem bindParams_goes (params : List Param) {i : Nat} {vs : List Datum} {s : Activations}
    {m : Memory} {o : Effect Unit} (hat : f.CodeAt i (IRLowerer.paramCode i params.length))
    (hcell : ∀ j param, params[j]? = some param →
      (F d).cell (.var param.name) = some ((i + j : Nat) : Int))
    (hvs : List.Forall₂ (Represents F (d + 1)) vs (ws.drop i)) (hs : Stores F (d + 1) s m)
    (h : bindParams d i params vs s = some o) :
    ∃ s' m', o = .ok () s' ∧ f.Goes C d ws i m (i + params.length) m' ∧
      Stores F (d + 1) s' m' ∧ Keeps F d (fun _ => True) s m s' m' := by
  induction params generalizing i vs s m with
  | nil =>
    cases vs with
    | nil =>
      cases h
      exact ⟨s, m, rfl, .refl, hs, .refl⟩
    | cons => cases h
  | cons param params ih =>
    cases vs with
    | nil => cases h
    | cons v vs =>
      rw [bindParams] at h
      obtain ⟨x, hx, hrest⟩ := query_bind_eq_some.mp h
      rw [alter_bind] at hrest
      generalize hdrop : ws.drop i = rest at hvs
      obtain _ | ⟨hw, hvs⟩ := hvs
      rename_i w rest
      have hwi : ws[i]? = some w := by
        rw [← List.head?_drop, hdrop, List.head?_cons]
      have htail : ws.drop (i + 1) = rest := by
        rw [← List.drop_drop, hdrop, List.drop_one, List.tail_cons]
      have hreg : x = v ∧ (i < registerArgs ∨ ∃ n, w = .int n) := by
        split at hx
        · cases hx
          exact ⟨rfl, .inl ‹_›⟩
        · obtain ⟨n, hn, rfl⟩ := Option.map_eq_some_iff.mp hx
          obtain rfl := Datum.int?_eq_some.mp hn
          exact ⟨rfl, .inr ⟨n, hw⟩⟩
      obtain ⟨rfl, hreg⟩ := hreg
      rw [List.length_cons, IRLowerer.paramCode, List.range'_succ] at hat
      have hgo := IRFunction.paramI32_goes (C := C) (d := d) (m := m) hat hwi hreg
      obtain ⟨s', m', rfl, hgo', hs', hk⟩ := ih hat.tail (fun j p hp => by
          rw [hcell (j + 1) p hp]
          congr 2
          omega)
        (by rw [htail]; exact hvs) (hs.write (by simpa using hcell 0 param rfl) hw) hrest
      refine ⟨s', m', rfl, ?_, hs', (Keeps.update fun j hj =>
        Memory.set_depth_of_ne (Nat.ne_of_lt hj)).trans hk⟩
      rw [List.length_cons, Nat.add_comm params.length, ← Nat.add_assoc]
      exact hgo.trans hgo'

end Function

/-! ## Activations -/

section Enter

variable {F G : Nat → Names} {d : Nat} {s : Activations} {m : Memory}

theorem Stores.enter (h : Stores F d s m) (hG : ∀ k < d, G k = F k) (ha : (G d).Apart) :
    Stores G (d + 1) (s.update d fun _ => {}) (m.enter d) := by
  have hsplit : ∀ k < d + 1, k < d ∨ k = d := fun k hk => Nat.lt_succ_iff_lt_or_eq.mp hk
  have hold : ∀ k < d, (s.update d fun _ => {}) k = s k := fun k hk =>
    Activations.update_of_ne (Nat.ne_of_lt hk)
  refine ⟨fun k hk => ?_, fun k hk p x hx => ?_, fun k hk a size ha => ?_, fun k hk x t hx => ?_⟩ <;>
    obtain hk | rfl := hsplit k hk
  · rw [hG k hk]
    exact h.apart k hk
  · exact ha
  · rw [hold k hk] at hx
    obtain ⟨c, w, hc, hw, hr⟩ := h.contents k hk p x hx
    refine ⟨c, w, by rw [hG k hk]; exact hc, ?_, hr.congr fun j hj => hG j (by omega)⟩
    rw [Memory.enter_of_ne (Nat.ne_of_lt hk), hw]
  · simp at hx
  · rw [hold k hk] at ha
    rw [hG k hk]
    exact h.arrays k hk a size ha
  · simp at ha
  · rw [hold k hk] at hx
    rw [hG k hk]
    exact h.structVars k hk x t hx
  · simp at hx

end Enter

/-- An activation of a lowered regular function answers the call. -/
theorem Function.run_answers {function : Function} {Y : Layouts} {ir : IRFunction}
    (hr : function.regular Y = true)
    (hlower : IRLowerer.lower function Y.structFieldOrder Y.enumVariants = .ok ir)
    {C : Nat → Calls} {d : Nat} {call : String → List Datum → Computation (BitVec 32)}
    (hcalls : ∀ F, CallsImplemented C F (d + 1) call) {rounds : Nat} {F : Nat → Names}
    {vs : List Datum} {ws : List Value} {s : Activations} {m : Memory} {o : Effect (BitVec 32)}
    (hs : Stores F d s m) (hvs : List.Forall₂ (Represents F d) vs ws)
    (h : function.run Y call d rounds vs s = some o) : ws.length = ir.paramCount ∧
    match o with
    | .ok b s' => ∃ m', ir.Finishes C d ws 0 (m.enter d) (.returned b m') ∧ Stores F d s' m' ∧
        Keeps F d (fun _ => True) s m s' m'
    | .trapped => ir.Finishes C d ws 0 (m.enter d) .trapped := by
  obtain ⟨A, S, hb, hir, hstored, hle⟩ := lower_stored hr hlower
  obtain ⟨hn, hr⟩ := Bool.and_eq_true_iff.mp hr
  have hn := of_decide_eq_true hn
  -- the tables of the new activation
  let G : Nat → Names := Function.update F d S.names
  have hGd : G d = S.names := Function.update_self _ _ _
  have hG : ∀ k < d, G k = F k := fun k hk => Function.update_of_ne (Nat.ne_of_lt hk) _ _
  have hat : ir.CodeAt 0 (IRLowerer.paramCode 0 function.params.length ++ A.code) := by
    rw [hir]
    intro k inst hk
    rwa [Nat.zero_add]
  have hcell : ∀ j param, function.params[j]? = some param →
      (G d).cell (.var param.name) = some ((0 + j : Nat) : Int) := fun j param hp => by
    rw [hGd]
    exact hle.var ((IRLowerer.find_paramVars _ hn.of_append_left).mpr
      (.inl ⟨j, param, hp, rfl, rfl⟩))
  rw [Function.run, alter_bind] at h
  have henter := hs.enter hG (by rw [hGd]; exact hstored.tidy.choose_spec.apart)
  have hkeep : Keeps F d (fun _ => True) s m (s.update d fun _ => {}) (m.enter d) :=
    .update fun j hj => Memory.enter_of_ne (Nat.ne_of_lt hj)
  have hvs' : List.Forall₂ (Represents G (d + 1)) vs (ws.drop 0) := by
    rw [List.drop_zero]
    exact hvs.imp fun _ _ h => (h.congr hG).mono (Nat.le_succ d)
  have hback : ∀ {s' : Activations} {m' : Memory}, Stores G (d + 1) s' m' →
      Keeps G d (fun _ => True) (s.update d fun _ => {}) (m.enter d) s' m' →
      Stores F d s' m' ∧ Keeps F d (fun _ => True) s m s' m' := fun h hk =>
    ⟨h.below.congr fun k hk => (hG k hk).symm,
      hkeep.trans (hk.congr fun k hk => (hG k hk).symm)⟩
  have hparams := fun {o} (h : bindParams d 0 function.params vs _ = some o) =>
    bindParams_goes (C := C) function.params hat.left hcell hvs' henter h
  obtain ⟨ht, rfl⟩ | ⟨u, s₁, hu, hblock⟩ := bind_eq_some.mp h
  · obtain ⟨_, _, e, -⟩ := hparams ht
    cases e
  obtain ⟨_, m₁, e, hgo, hs₁, hk₁⟩ := hparams hu
  cases e
  have hlen : ws.length = ir.paramCount := by
    rw [hir, ← hvs.length_eq]
    exact length_of_bindParams hu
  have hexec := fun {o} (h : execBlock Y call d rounds function.body s₁ = some o) =>
    execBlock_executes (C := C) (V := ws) (by rw [hGd]; exact hstored) (hcalls G) hb
      (bodyScope_ok _) (IRLowerer.bodyScope_tidy hn.of_append_left) hr hn
      (by rw [hGd]; exact ⟨.refl, fun _ _ h => .inl h⟩) hat.right hs₁ h
  rw [IRLowerer.paramCode, List.length_map, List.length_range'] at hexec
  obtain ⟨ht, rfl⟩ | ⟨c, s₂, hc, hend⟩ := bind_eq_some.mp hblock
  · exact ⟨hlen, hgo.finishes (hexec ht)⟩
  · cases c with
    | next => cases hend
    | returned b =>
      cases hend
      obtain ⟨m₂, hfin, h₂⟩ := hexec hc
      exact ⟨hlen, m₂, hgo.finishes hfin, hback h₂.stores (hk₁.trans h₂.keeps)⟩

/-! ## Programs -/

/-- Every function of the source is lowered. -/
def Source.Lowers (source : Source) : Prop :=
  ∀ f ∈ source.functions, ∃ ir, IRLowerer.lower f.2 f.1.structFieldOrder f.1.enumVariants = .ok ir

theorem Source.lowers_of_compile {iter : List Int → List Int} {source : Source}
    {lines : List Line} (h : source.compile iter = .ok lines) : source.Lowers := by
  obtain ⟨texts, htexts, -⟩ := source.compile_texts h
  intro f hf
  obtain ⟨i, hi, rfl⟩ := List.getElem_of_mem hf
  obtain ⟨hlen, hall⟩ := List.forall₂_iff_get.mp htexts
  obtain ⟨ir, hir, -⟩ := bind_eq_ok.mp (hall i hi (by omega))
  exact ⟨ir, hir⟩

/-- The calls of a regular source are implemented, by induction on their nesting. -/
theorem Source.run_implemented {source : Source} (hr : source.regular = true)
    (hl : source.Lowers) (rounds n : Nat) : ∀ (d : Nat) (F : Nat → Names),
      CallsImplemented (fun steps => source.lowered.run steps n d) F d (source.run rounds n d) := by
  induction n with
  | zero =>
    intro d F name vs ws s m o _ _ h
    cases h
  | succ n ih =>
    intro d F name vs ws s m o hs hvs h
    rw [Source.run] at h
    obtain ⟨f, hf⟩ : ∃ f, source.functions.find? (fun f => f.2.name == name) = some f := by
      refine Option.ne_none_iff_exists'.mp fun e => ?_
      rw [e] at h
      cases h
    rw [hf] at h
    have hmem := List.mem_of_find?_eq_some hf
    obtain ⟨ir, hir⟩ := hl f hmem
    have hP : source.lowered name = some ir := by
      rw [Source.lowered, hf, Option.bind_some, hir]
      rfl
    obtain ⟨hlen, hans⟩ := Function.run_answers (List.all_eq_true.mp hr f hmem) hir (ih (d + 1))
      hs hvs h
    have hcall : ∀ {o}, ir.Finishes (fun steps => source.lowered.run steps n (d + 1)) d ws 0
        (m.enter d) o → CallEnds (fun steps => source.lowered.run steps (n + 1) d) name ws m o := by
      intro o hfin
      obtain ⟨N, hN⟩ := hfin.exec
      refine ⟨N, fun steps hsteps => ?_⟩
      simp only [IRProgram.run, hP, hlen, if_true]
      exact hN steps hsteps
    cases o with
    | ok b s' =>
      obtain ⟨m', hfin, h'⟩ := hans
      exact ⟨m', hcall hfin, h'⟩
    | trapped => exact hcall hans

/-- The intermediate code ends as the source does. -/
def Effect.Agrees : Effect (BitVec 32) → IROutcome → Prop
  | .ok b _, .returned b' _ => b' = b
  | .trapped, .trapped => True
  | _, _ => False

theorem represents_ints (F : Nat → Names) (n : Nat) (bs : List (BitVec 32)) :
    List.Forall₂ (Represents F n) (bs.map .int) (bs.map .int) :=
  List.forall₂_map_right_iff.mpr (List.forall₂_map_left_iff.mpr
    (List.forall₂_same.mpr fun _ _ => rfl))

theorem Source.run_agrees {source : Source} (hr : source.regular = true) (hl : source.Lowers)
    {rounds n : Nat} {name : String} (bs : List (BitVec 32)) {s : Activations}
    {o : Effect (BitVec 32)} (h : source.run rounds n 0 name (bs.map .int) s = some o)
    (m : Memory) : ∃ N, ∀ steps ≥ N, ∃ o',
      source.lowered.run steps n 0 name (bs.map .int) m = some o' ∧ o.Agrees o' := by
  have hs : Stores (fun _ => {}) 0 s m := ⟨nofun, nofun, nofun, nofun⟩
  have hans := source.run_implemented hr hl rounds n 0 _ name _ _ s m o hs
    (represents_ints _ 0 bs) h
  cases o with
  | ok b s' =>
    obtain ⟨m', ⟨N, hN⟩, -⟩ := hans
    exact ⟨N, fun steps hsteps => ⟨_, hN steps hsteps, rfl⟩⟩
  | trapped =>
    obtain ⟨N, hN⟩ := hans
    exact ⟨N, fun steps hsteps => ⟨_, hN steps hsteps, trivial⟩⟩

/-- The lowering preserves the meaning of programs: a call in a state that the memory represents,
with arguments that it represents, returns the same number and leaves the variables of its callers
represented, or fails a bounds check like the source. -/
theorem lowering_preserves {source : Source} (hr : source.regular = true) (hl : source.Lowers)
    {rounds n d : Nat} {F : Nat → Names} {name : String} {vs : List Datum} {ws : List Value}
    {s : Activations} {m : Memory} {o : Effect (BitVec 32)} (hs : Stores F d s m)
    (hvs : List.Forall₂ (Represents F d) vs ws) (h : source.run rounds n d name vs s = some o) :
    Answers (fun steps => source.lowered.run steps n d) F d name ws s m o :=
  source.run_implemented hr hl rounds n d F name vs ws s m o hs hvs h

/-- `fn increment(p: ptr) -> i32 { let old: i32 = *p; *p = old + 1; return old; }` -/
def incrementAt : Function :=
  ⟨"increment", [⟨"p", "ptr"⟩], "i32", [.letStmt "old" "i32" (.deref (.variable "p")),
    .storeStmt (.variable "p") (.binary '+' (.variable "old") (.integer 1)),
    .returnStmt (.variable "old")]⟩

/-- `fn main() -> i32 { let x: i32 = 41; let addr: ptr = &x; let i: i32 = 0;
while (i < 2) { i = i + 1; let old: i32 = increment(addr); } return *addr - i; }` -/
def incrementsTwice : Source :=
  .file ⟨[], [], [], [incrementAt, ⟨"main", [], "i32", [.letStmt "x" "i32" (.integer 41),
    .letStmt "addr" "ptr" (.addressOf "x"), .letStmt "i" "i32" (.integer 0),
    .whileStmt (.binary '<' (.variable "i") (.integer 2))
      [.assignStmt "i" (.binary '+' (.variable "i") (.integer 1)),
        .letStmt "old" "i32" (.call "increment" [.variable "addr"])],
    .returnStmt (.binary '-' (.deref (.variable "addr")) (.variable "i"))]⟩]⟩

theorem incrementsTwice_lowers : incrementsTwice.Lowers := by
  have hc : (incrementsTwice.compile id).toOption.isSome = true := by decide +kernel
  cases e : incrementsTwice.compile id with
  | error => rw [e] at hc; cases hc
  | ok lines => exact Source.lowers_of_compile e

/-- The computation returns a number, with a property of it and of the variables. -/
def Effect.test (p : BitVec 32 → Activations → Bool) : Effect (BitVec 32) → Bool
  | .ok b s => p b s
  | .trapped => false

/-- An activation with `x = 41` in its cell 0. -/
def answerLocals : Activations := fun _ =>
  { contents := fun p => if p = .var "x" then some (.int 41) else none }

theorem lowering_preserves_increment : ∃ m',
    CallEnds (fun steps => incrementsTwice.lowered.run steps 1 1) "increment" [.ptr ⟨0, [0], 0⟩]
      (fun _ c => if c = 0 then some (.int 41) else none) (.returned 41 m') ∧
    m' 0 0 = some (.int 42) := by
  let F : Nat → Names := fun _ => { vars := [("x", 0)] }
  have hvar : ∀ p c, (F 0).cell p = some c → p = .var "x" ∧ c = 0 := by
    intro p c hc
    cases p with
    | var y =>
      simp only [F, Names.cell, Table.find_cons, Table.find_nil] at hc
      split at hc <;> cases hc
      exact ⟨by rw [‹y = _›], rfl⟩
    | element | field => simp [F, Names.cell] at hc
  have hs : Stores F 1 answerLocals fun _ c => if c = 0 then some (.int 41) else none :=
    { apart := fun k _ p q c hp hq => (hvar p c hp).1.trans (hvar q c hq).1.symm
      contents := fun k _ p x hx => by
        simp only [answerLocals] at hx
        split at hx <;> cases hx
        exact ⟨0, _, by rw [‹p = _›]; rfl, rfl, rfl⟩
      arrays := fun _ _ _ _ h => by cases h
      structVars := fun _ _ _ _ h => by cases h }
  have hr : (incrementsTwice.run 1 1 1 "increment" [.ref 0 "x"] answerLocals).any (Effect.test
      fun b s' => decide (b = 41 ∧ (s' 0).contents (.var "x") = some (.int 42))) = true := by
    decide +kernel
  obtain ⟨o, ho, hr⟩ := (Option.any_eq_true _ _).mp hr
  have hvs : List.Forall₂ (Represents F 1) [.ref 0 "x"] [.ptr ⟨0, [0], 0⟩] :=
    .cons ⟨Nat.zero_lt_one, [0], 0, rfl, rfl, rfl⟩ .nil
  have hans := lowering_preserves (by decide) incrementsTwice_lowers hs hvs ho
  cases o with
  | trapped => cases hr
  | ok b s' =>
    obtain ⟨rfl, hx⟩ := of_decide_eq_true hr
    obtain ⟨m', hcall, hs', -⟩ := hans
    obtain ⟨c, w, hc, hw, rfl⟩ := hs'.contents 0 Nat.zero_lt_one _ _ hx
    obtain ⟨-, rfl⟩ := hvar _ c hc
    exact ⟨m', hcall, hw⟩

/-- The exit status of a program. -/
def Effect.status : Effect (BitVec 32) → BitVec 32
  | .ok b _ => b
  | .trapped => 101

/-- A compiled regular program exits with the number that `main` returns in the source, or with 101
where an index is out of bounds. -/
theorem compiled_exits {iter : List Int → List Int} (hiter : RegisterAllocator.IterOrder iter)
    {source : Source} {lines : List Line} (h : source.compile iter = .ok lines)
    (hr : source.regular = true) {img : Image} (himg : img.lines = lines)
    (hu : (labels lines).Nodup) {size : Nat}
    (hs : ∀ name ir, source.lowered name = some ir → Supported iter ir size) {rounds n : Nat}
    {a : Activations} {o : Effect (BitVec 32)} (hrun : source.run rounds n 0 "main" [] a = some o)
    (hroom : n * size < maxWords) (s : State) : img.Exits ⟨0, s⟩ o.status := by
  obtain ⟨hasm, rest, hat⟩ := compile_assembled hiter h himg hu hs
  obtain ⟨N, hN⟩ := source.run_agrees hr (source.lowers_of_compile h) [] hrun
    fun _ _ => none
  obtain ⟨o', ho', hagrees⟩ := hN N le_rfl
  have hexit := entry_exits hasm hat ho' hroom s
  have hstatus : o'.status = o.status := by
    match o, o', hagrees with
    | .ok _ _, .returned _ _, e => exact e
    | .trapped, .trapped, _ => rfl
  rwa [hstatus] at hexit

theorem compiled_exits_incrementsTwice : ∃ lines, ∃ h : lines.length < 2 ^ 64,
    incrementsTwice.compile id = .ok lines ∧ ∀ s, (Image.ofLines lines h).Exits ⟨0, s⟩ 41 := by
  have hc : (incrementsTwice.compile id).toOption.any (fun lines =>
    decide (lines.length < 2 ^ 64) && decide (labels lines).Nodup) = true := by decide +kernel
  have hs : incrementsTwice.supports id 30 10 = true := by decide +kernel
  have hr : (incrementsTwice.run 3 2 0 "main" [] fun _ => {}).map Effect.status = some 41 := by
    decide +kernel
  obtain ⟨o, ho, hstatus⟩ := Option.map_eq_some_iff.mp hr
  cases e : incrementsTwice.compile id with
  | error => rw [e] at hc; cases hc
  | ok lines =>
    rw [e] at hc
    obtain ⟨hlen, hu⟩ := Bool.and_eq_true_iff.mp hc
    refine ⟨lines, of_decide_eq_true hlen, rfl, fun s => ?_⟩
    rw [← hstatus]
    exact compiled_exits (fun ks => .refl ks) e (by decide) rfl (of_decide_eq_true hu)
      (fun name ir => Source.supported_of_check hs) ho (by decide) s

end Oglang
end Techuila
