import Techuila.Oglang.Simulation

/-!
# The code of statements implements them

* `Executes`: what the code of a statement has to do.
* `Stores.zeros`: a new array or struct.
* `loop_executes`: a loop, by induction on its rounds.
* `execStatement_executes`, `execBlock_executes`: by induction on the lowering.
-/

namespace Techuila
namespace Oglang

open Computation

section Executes

variable {α : Type} (C : Nat → Calls) (f : IRFunction) (d : Nat) (V : List Value)

/-- The code between `pc` and `pc'` gets to its end or returns, with `Q`, or fails a bounds
check. -/
def Executes (pc : Nat) (m : Memory) (pc' : Nat) (Q : Activations → Memory → Prop) :
    Effect Control → Prop
  | .ok .next s => ∃ m', f.Goes C d V pc m pc' m' ∧ Q s m'
  | .ok (.returned n) s => ∃ m', f.Finishes C d V pc m (.returned n m') ∧ Q s m'
  | .trapped => f.Finishes C d V pc m .trapped

variable {C f d V} {pc pc₁ pc' : Nat} {m m₁ : Memory} {Q : Activations → Memory → Prop}
  {Q₁ : α → Activations → Memory → Prop} {o : Effect Control}

namespace Executes

theorem goes (hgo : f.Goes C d V pc m pc₁ m₁) (h : Executes C f d V pc₁ m₁ pc' Q o) :
    Executes C f d V pc m pc' Q o := by
  match o, h with
  | .ok .next s, ⟨m', hgo', hq⟩ => exact ⟨m', hgo.trans hgo', hq⟩
  | .ok (.returned n) s, ⟨m', hfin, hq⟩ => exact ⟨m', hgo.finishes hfin, hq⟩
  | .trapped, h => exact hgo.finishes h

/-- The condition at the end may be weakened, and the code may go on. -/
theorem imp {Q' : Activations → Memory → Prop} {pc'' : Nat} (h : Executes C f d V pc m pc' Q o)
    (hgo : ∀ m', f.Goes C d V pc' m' pc'' m') (hq : ∀ s m', Q s m' → Q' s m') :
    Executes C f d V pc m pc'' Q' o := by
  match o, h with
  | .ok .next s, ⟨m', hgo', h⟩ => exact ⟨m', hgo'.trans (hgo m'), hq s m' h⟩
  | .ok (.returned n) s, ⟨m', hfin, h⟩ => exact ⟨m', hfin, hq s m' h⟩
  | .trapped, h => exact h

theorem cast {pc'' : Nat} (h : Executes C f d V pc m pc' Q o) (e : pc' = pc'') :
    Executes C f d V pc m pc'' Q o := e ▸ h

/-- An expression and what follows. -/
theorem bind {x : Computation α} {g : α → Computation Control} {s : Activations}
    (h : (x >>= g) s = some o) (hx : ∀ e, x s = some e → Implements C f d V pc m pc₁ Q₁ e)
    (hg : ∀ a s₁ m₁, Q₁ a s₁ m₁ → g a s₁ = some o → Executes C f d V pc₁ m₁ pc' Q o) :
    Executes C f d V pc m pc' Q o := by
  obtain ⟨ht, rfl⟩ | ⟨a, s₁, ha, h⟩ := bind_eq_some.mp h
  · exact hx .trapped ht
  · obtain ⟨m₁, hgo, hq⟩ := hx _ ha
    exact (hg a s₁ m₁ hq h).goes hgo

/-- A statement and what follows. -/
theorem seq {x : Computation Control} {g : Computation Control} {s : Activations}
    {Q₁ : Activations → Memory → Prop}
    (h : (x >>= fun c => match c with
      | .returned n => pure (.returned n)
      | .next => g) s = some o)
    (hx : ∀ e, x s = some e → Executes C f d V pc m pc₁ Q₁ e)
    (hq : ∀ s₁ m₁, Q₁ s₁ m₁ → Q s₁ m₁)
    (hg : ∀ s₁ m₁, Q₁ s₁ m₁ → g s₁ = some o → Executes C f d V pc₁ m₁ pc' Q o) :
    Executes C f d V pc m pc' Q o := by
  obtain ⟨ht, rfl⟩ | ⟨c, s₁, hc, h⟩ := bind_eq_some.mp h
  · exact hx .trapped ht
  · cases c with
    | next =>
      obtain ⟨m₁, hgo, hq₁⟩ := hx _ hc
      exact (hg s₁ m₁ hq₁ h).goes hgo
    | returned n =>
      cases h
      obtain ⟨m₁, hfin, hq₁⟩ := hx _ hc
      exact ⟨m₁, hfin, hq s₁ m₁ hq₁⟩

end Executes

end Executes

/-- The end of a statement of the activation at depth `d`. -/
structure Executed (F : Nat → Names) (d : Nat) (s : Activations) (m : Memory) (s' : Activations)
    (m' : Memory) : Prop where
  stores : Stores F (d + 1) s' m'
  keeps : Keeps F d (fun _ => True) s m s' m'

theorem Executed.trans {F : Nat → Names} {d : Nat} {s s' s'' : Activations} {m m' m'' : Memory}
    (h : Keeps F d (fun _ => True) s m s' m') (h' : Executed F d s' m' s'' m'') :
    Executed F d s m s'' m'' := ⟨h'.stores, h.trans h'.keeps⟩

/-! ## Variables -/

section Variables

variable {F : Nat → Names} {d : Nat} {s : Activations} {m m' : Memory} {k : Int} {n : Nat}

theorem Memory.set_eq_self {c : Int} {w : Value} (h : m d c = some w) : m.set d c w = m := by
  funext j u
  rw [Memory.set_apply]
  split
  · rename_i e
    rw [e.1, e.2, h]
  · rfl

/-- A new array or struct whose places are `g`, with its cells from `k` on. -/
theorem Stores.zeros (h : Stores F (d + 1) s m) (hm : Scratch d k (k + n) m m')
    (hzero : ∀ i < n, m' d (k + i) = some (.int 0)) {g : Nat → Place} {L : Locals → Locals}
    (hg : ∀ i < n, (F d).cell (g i) = some (k + i))
    (hcontents : ∀ p x, (L (s d)).contents p = some x →
      (∃ i < n, p = g i ∧ x = .int 0) ∨ (∀ i, p ≠ g i) ∧ (s d).contents p = some x)
    (harrays : ∀ a size, (L (s d)).arrays.find a = some size →
      (s d).arrays.find a = some size ∨ ∃ cells, (F d).arrays.find a = some cells ∧
        cells.length = size)
    (hstructs : ∀ x t, (L (s d)).structVars.find x = some t → (s d).structVars.find x = some t ∨
      (F d).structVarTypes.find x = some t ∧ ∃ cells, (F d).structVars.find x = some cells) :
    Stores F (d + 1) (s.update d L) m' := by
  refine ⟨h.apart, fun j hj p x hx => ?_, fun j hj a size ha => ?_, fun j hj x t hx => ?_⟩ <;>
    by_cases e : j = d
  · subst e
    rw [Activations.update_self] at hx
    obtain ⟨i, hi, rfl, rfl⟩ | ⟨hp, hx⟩ := hcontents p x hx
    · exact ⟨_, _, hg i hi, hzero i hi, rfl⟩
    · obtain ⟨c, w, hc, hw, hr⟩ := h.contents j hj p x hx
      refine ⟨c, w, hc, ?_, hr⟩
      rw [hm j c, hw]
      rintro ⟨-, hk, hk'⟩
      -- the cell would be one of the new places
      refine hp (c - k).toNat (h.apart j hj _ _ c hc ?_)
      rw [hg _ (by omega)]
      congr 1
      omega
  · rw [Activations.update_of_ne e] at hx
    obtain ⟨c, w, hc, hw, hr⟩ := h.contents j hj p x hx
    exact ⟨c, w, hc, by rw [hm j c fun h => e h.1, hw], hr⟩
  · subst e
    rw [Activations.update_self] at ha
    exact (harrays a size ha).elim (h.arrays j hj a size) id
  · rw [Activations.update_of_ne e] at ha
    exact h.arrays j hj a size ha
  · subst e
    rw [Activations.update_self] at hx
    exact (hstructs x t hx).elim (h.structVars j hj x t) id
  · rw [Activations.update_of_ne e] at hx
    exact h.structVars j hj x t hx

theorem Stores.addArray (h : Stores F (d + 1) s m) (hm : Scratch d k (k + n) m m')
    (hzero : ∀ i < n, m' d (k + i) = some (.int 0)) {name : String}
    (hF : (F d).arrays.find name = some (zeroCells k n)) :
    Stores F (d + 1) (s.update d (·.addArray name n)) m' := by
  refine h.zeros hm hzero (g := .element name) (fun i hi => ?_) (fun p x hx => ?_)
    (fun a size ha => ?_) fun x t hx => .inl hx
  · rw [Names.cell, hF]
    exact Names.getElem?_zeroCells.mpr ⟨hi, rfl⟩
  · cases p with
    | element a i =>
      simp only [Locals.addArray] at hx
      split at hx
      · rename_i ha
        split at hx <;> cases hx
        exact .inl ⟨i, ‹_›, by rw [ha], rfl⟩
      · rename_i ha
        exact .inr ⟨fun j e => ha (by cases e; rfl), hx⟩
    | var | field => exact .inr ⟨fun j e => (by cases e), hx⟩
  · simp only [Locals.addArray, Table.find_insert] at ha
    split at ha
    · cases ha
      exact .inr ⟨_, by rw [‹a = name›]; exact hF, zeroCells_length _ _⟩
    · exact .inl ha

theorem Stores.addStructVar (h : Stores F (d + 1) s m) (hm : Scratch d k (k + n) m m')
    (hzero : ∀ i < n, m' d (k + i) = some (.int 0)) {name structType : String}
    (hF : (F d).structVars.find name = some (zeroCells k n))
    (ht : (F d).structVarTypes.find name = some structType) :
    Stores F (d + 1) (s.update d (·.addStructVar name structType n)) m' := by
  refine h.zeros hm hzero (g := .field name) (fun i hi => ?_) (fun p x hx => ?_)
    (fun a size ha => .inl ha) fun x t hx => ?_
  · rw [Names.cell, hF]
    exact Names.getElem?_zeroCells.mpr ⟨hi, rfl⟩
  · cases p with
    | field y i =>
      simp only [Locals.addStructVar] at hx
      split at hx
      · rename_i hy
        split at hx <;> cases hx
        exact .inl ⟨i, ‹_›, by rw [hy], rfl⟩
      · rename_i hy
        exact .inr ⟨fun j e => hy (by cases e; rfl), hx⟩
    | var | element => exact .inr ⟨fun j e => (by cases e), hx⟩
  · simp only [Locals.addStructVar, Table.find_insert] at hx
    split at hx
    · cases hx
      rw [‹x = name›]
      exact .inr ⟨ht, _, hF⟩
    · exact .inl hx

/-- The code that clears new cells. -/
theorem zeroCode_goes {f : IRFunction} {C : Nat → Calls} {V : List Value} (n : Nat) {pc : Nat}
    {m : Memory} {k : Int} (h : f.CodeAt pc (zeroCode k n)) :
    ∃ m', f.Goes C d V pc m (pc + n) m' ∧ Scratch d k (k + n) m m' ∧
      ∀ i < n, m' d (k + i) = some (.int 0) := by
  induction n generalizing pc m k with
  | zero => exact ⟨m, .refl, .refl, fun i hi => by omega⟩
  | succ n ih =>
    rw [zeroCode, IRLowerer.zeroCells_succ] at h
    obtain ⟨m', hgo, hs, hz⟩ := ih (m := m.set d k (.int (BitVec.ofInt 32 0))) h.tail
    refine ⟨m', ?_, fun j c hc => ?_, fun i hi => ?_⟩
    · rw [Nat.add_comm n, ← Nat.add_assoc]
      exact (IRFunction.constI32_goes h).trans hgo
    · rw [hs j c fun e => hc ⟨e.1, by omega⟩, Memory.set_apply, if_neg]
      rintro ⟨rfl, rfl⟩
      exact hc ⟨rfl, by omega⟩
    · cases i with
      | zero =>
        rw [hs d _ (by omega)]
        simp
      | succ i =>
        have := hz i (by omega)
        rwa [show k + 1 + (i : Int) = k + (i + 1 : Nat) by omega] at this

end Variables

/-! ## Statements -/

section Clear

variable {F : Nat → Names} {d : Nat} {s : Activations} {T : Names} {k k' : Int} {n : Nat}

/-- The cells of an expression whose statement declares nothing are not those of variables. -/
theorem Scope.Toward.clear (h : Scope.Toward ⟨T, k', n⟩ (F d))
    (hT : ∀ p c, T.cell p = some c → c < k) : Clear F s d k k' := by
  rintro c ⟨p, -, hc⟩
  exact (h.above p c hc).imp_left (hT p c)

/-- While the variable that it initialises has no value, neither is any other one. -/
theorem Scope.Toward.clear_let {name : String} {v : Int}
    (h : Scope.Toward ⟨{ T with vars := T.vars.insert name v }, k', n⟩ (F d))
    (hT : ∀ p c, T.cell p = some c → c < k) :
    Clear F (s.update d (·.set (.var name) none)) d k k' := by
  rintro c ⟨p, hp, hc⟩
  refine (h.above p c hc).imp_left fun hcell => hT p c ?_
  rw [Activations.set_contents] at hp
  cases p with
  | var x =>
    simp only [Names.cell, Table.find_insert] at hcell ⊢
    split at hcell
    · rename_i hx
      simp [hx] at hp
    · exact hcell
  | element | field => exact hcell

end Clear

section Body

variable {Y : Layouts} {f : IRFunction} {C : Nat → Calls} {F : Nat → Names} {d : Nat}
  {V : List Value} {call : String → List Datum → Computation (BitVec 32)}

/-- A loop whose condition and body are implemented, by induction on the rounds. -/
theorem loop_executes (hu : (codeLabels f.instructions).Nodup) {pc p₁ p₂ : Nat} {l l' : String}
    {v : Int} {a b : List IRInstruction} (hstart : f.CodeAt pc (.labelAt l :: a))
    (htest : f.CodeAt p₁ (.jumpIfZero v l' :: b))
    (hback : f.CodeAt p₂ [.jump l, .labelAt l']) {condition : Computation (BitVec 32)}
    {body : Computation Control}
    (hcond : ∀ s m o, Stores F (d + 1) s m → condition s = some o →
      Implements C f d V (pc + 1) m p₁ (fun b s' m' => Executed F d s m s' m' ∧
        m' d v = some (.int b)) o)
    (hbody : ∀ s m o, Stores F (d + 1) s m → body s = some o →
      Executes C f d V (p₁ + 1) m p₂ (Executed F d s m) o) (n : Nat) :
    ∀ {s m o}, Stores F (d + 1) s m → loop condition body n s = some o →
      Executes C f d V pc m (p₂ + 2) (Executed F d s m) o := by
  induction n with
  | zero =>
    intro s m o _ h
    cases h
  | succ n ih =>
    intro s m o hs h
    rw [loop] at h
    refine .goes (IRFunction.labelAt_goes hstart) (.bind h (fun e => hcond s m e hs)
      fun b s₁ m₁ ⟨h₁, hb⟩ h => ?_)
    split at h
    · rename_i h0
      cases h
      exact ⟨m₁, (IRFunction.jumpIfZero_taken htest hb hu h0 hback.tail.head).trans
        (IRFunction.labelAt_goes hback.tail), h₁⟩
    · rename_i h0
      refine .goes (IRFunction.jumpIfZero_goes htest hb h0) (.seq h (fun e => hbody s₁ m₁ e h₁.stores)
        (fun s₂ m₂ h₂ => .trans h₁.keeps h₂) fun s₂ m₂ h₂ h => ?_)
      exact .goes (IRFunction.jump_goes hu hback hstart.head) ((ih h₂.stores h).imp (fun _ => .refl)
        fun s₃ m₃ h₃ => .trans (h₁.keeps.trans h₂.keeps) h₃)

section Branch

variable {pc p₁ p₂ p₃ : Nat} {s : Activations} {m : Memory} {o : Effect Control} {l l' : String}
  {v : Int} {a b : List IRInstruction} {condition : Computation (BitVec 32)}
  {thenBody elseBody : Computation Control} (hu : (codeLabels f.instructions).Nodup)
  (htest : f.CodeAt p₁ (.jumpIfZero v l :: a))
  (hcond : ∀ e, condition s = some e → Implements C f d V pc m p₁
    (fun b s' m' => Executed F d s m s' m' ∧ m' d v = some (.int b)) e)
  (hthen : ∀ s m o, Stores F (d + 1) s m → thenBody s = some o →
    Executes C f d V (p₁ + 1) m p₂ (Executed F d s m) o)

include hu htest hcond hthen

/-- A conditional statement with one branch. -/
theorem ifThen_executes (hend : f.CodeAt p₂ [.labelAt l])
    (h : (condition >>= fun b => if b ≠ 0 then thenBody else pure .next) s = some o) :
    Executes C f d V pc m (p₂ + 1) (Executed F d s m) o := by
  refine .bind h hcond fun b s₁ m₁ ⟨h₁, hb⟩ h => ?_
  split at h
  · rename_i h0
    exact .goes (IRFunction.jumpIfZero_goes htest hb h0) ((hthen s₁ m₁ o h₁.stores h).imp
      (fun _ => IRFunction.labelAt_goes hend) fun s₂ m₂ h₂ => .trans h₁.keeps h₂)
  · rename_i h0
    cases h
    exact ⟨m₁, (IRFunction.jumpIfZero_taken htest hb hu (not_not.mp h0) hend.head).trans
      (IRFunction.labelAt_goes hend), h₁⟩

/-- A conditional statement with two branches. -/
theorem ifElse_executes (hback : f.CodeAt p₂ (.jump l' :: .labelAt l :: b))
    (helse : ∀ s m o, Stores F (d + 1) s m → elseBody s = some o →
      Executes C f d V (p₂ + 2) m p₃ (Executed F d s m) o) (hend : f.CodeAt p₃ [.labelAt l'])
    (h : (condition >>= fun b => if b ≠ 0 then thenBody else elseBody) s = some o) :
    Executes C f d V pc m (p₃ + 1) (Executed F d s m) o := by
  refine .bind h hcond fun b s₁ m₁ ⟨h₁, hb⟩ h => ?_
  split at h
  · rename_i h0
    exact .goes (IRFunction.jumpIfZero_goes htest hb h0) ((hthen s₁ m₁ o h₁.stores h).imp
      (fun _ => (IRFunction.jump_goes hu hback hend.head).trans (IRFunction.labelAt_goes hend))
      fun s₂ m₂ h₂ => .trans h₁.keeps h₂)
  · rename_i h0
    exact .goes ((IRFunction.jumpIfZero_taken htest hb hu (not_not.mp h0) hback.tail.head).trans
      (IRFunction.labelAt_goes hback.tail)) ((helse s₁ m₁ o h₁.stores h).imp
      (fun _ => IRFunction.labelAt_goes hend) fun s₂ m₂ h₂ => .trans h₁.keeps h₂)

end Branch

/-- A store through an address that was computed before the value. -/
theorem store_goes {pc : Nat} {u v k k₁ k₂ : Int} (hat : f.CodeAt pc [.storeI32 u v])
    {s s' : Activations} {m m' : Memory} {x : Referent}
    (hx : Evaluated F d k₁ k₂ s m v x s' m') {n old : BitVec 32}
    (hn : (x.read s' d).bind Datum.int? = some n) {p : Pointer} (hp : m d u = some (.ptr p))
    (hu : k ≤ u ∧ u < k₁) (hc : Clear F s d k k₁) (hd : p.depth = d) {q : Place}
    (hold : s'.number d q = some old)
    (hpc : ∀ c, (F d).cell q = some c → p.cell = some c) :
    ∃ m'', f.Goes C d V pc m' (pc + 1) m'' ∧
      Executed F d s m (s'.update d (·.set q (some (.int n)))) m'' := by
  obtain ⟨c, hcell, hm⟩ := hx.stores.number (Nat.lt_succ_self d) hold
  have hp' : m' d u = some (.ptr p) := by
    rw [hx.keeps.kept d (Nat.lt_succ_self d) u (fun _ => hu.2), hp]
    intro ho
    have := hc u ho
    omega
  have hgo := IRFunction.storeI32_goes (C := C) (V := V) hat hp' (hx.holds.number hx.stores hn)
    (hpc c hcell) (hd ▸ hm)
  rw [hd] at hgo
  exact ⟨_, hgo, hx.stores.write hcell rfl, hx.keeps.below.trans
    (.write hcell (Activations.contents_ne_none hold))⟩

variable (hf : f.Stored Y (F d)) (hcalls : CallsImplemented C F (d + 1) call) {rounds : Nat}

include hf hcalls

/-- The number that an expression stands for. -/
theorem condition_implements {T : Names} {k : Int} {e : Expr} {code : List IRInstruction}
    {taken : List Int} {v k' : Int} (hl : LowersExpr Y T k e code taken v k') (hT : T.Le (F d))
    (h0 : 0 ≤ k) (hb : VarsBelow T k) {pc : Nat} {s : Activations} {m : Memory}
    {o : Effect (BitVec 32)} (hat : f.CodeAt pc code) (hc : Clear F s d k k')
    (hs : Stores F (d + 1) s m) (h : (evalExpr Y call d e >>= number d) s = some o) :
    Implements C f d V pc m (pc + code.length) (fun b s' m' => Executed F d s m s' m' ∧
      m' d v = some (.int b)) o := by
  refine .bind h (fun e he => evalExpr_implements hf hcalls hl hT h0 hb hat hc hs he)
    fun x s₁ m₁ hx h => ?_
  obtain ⟨b, hb, rfl⟩ := query_eq_some.mp h
  exact ⟨m₁, .refl, ⟨hx.stores, hx.keeps.below⟩, hx.holds.number hx.stores hb⟩

set_option linter.unusedSectionVars false in
mutual

/-- The code of a statement implements it. -/
theorem execStatement_executes {groups : List (List Int)} {D : List String} {S S' : Scope}
    {statement : Statement} {A : Fragment} : LowersStmt Y S statement A S' → S.Ok Y groups →
      S.names.Tidy Y D → stmtRegular Y statement = true → (D ++ stmtNames statement).Nodup →
      S'.Toward (F d) → ∀ {pc : Nat} {s : Activations} {m : Memory} {o : Effect Control},
      f.CodeAt pc A.code → Stores F (d + 1) s m →
      execStatement Y call d rounds statement s = some o →
      Executes C f d V pc m (pc + A.code.length) (Executed F d s m) o
  | .letStmt hl, hS, hT, hr, hn, hF, pc, s, m, o, hat, hs, h => by
    have hle := ((LowersStmt.letStmt hl).tidy hS hT hr hn).2.toward hF
    rw [execStatement, alter_bind] at h
    refine .bind h (fun e he => evalExpr_implements hf hcalls hl hle.le hS.nonneg hS.vars hat
      (hF.clear_let fun _ _ => hS.cell_lt) (hs.forget d _) he) fun x s₁ m₁ hx h => ?_
    obtain ⟨y, hy, h⟩ := query_bind_eq_some.mp h
    cases h
    obtain ⟨w, hw, hr⟩ := hx.holds.read hx.stores hy
    have hw' := hx.stores.write (hF.le.var (Table.find_insert_self _ _ _)) hr
    rw [Memory.set_eq_self hw] at hw'
    exact ⟨m₁, .refl, hw', ((Keeps.update fun _ _ => rfl).trans hx.keeps.below).trans
      (.update fun _ _ => rfl)⟩
  | .assignStmt hv hl, hS, hT, _, _, hF, pc, s, m, o, hat, hs, h => by
    rw [execStatement] at h
    rw [List.length_append, ← Nat.add_assoc]
    refine .bind h (fun e he => evalExpr_implements hf hcalls hl hF.le hS.nonneg hS.vars hat.left
      (hF.clear fun _ _ => hS.cell_lt) hs he) fun x s₁ m₁ hx h => ?_
    obtain ⟨n, hn, h⟩ := query_bind_eq_some.mp h
    cases h
    exact ⟨_, IRFunction.moveI32_goes hat.right (hx.holds.number hx.stores hn),
      hx.stores.write (hF.le.var hv) rfl, hx.keeps.below.trans (.update fun _ hj => Memory.set_depth_of_ne (Nat.ne_of_lt hj))⟩
  | .storeStmt hl₁ hl₂, hS, hT, _, _, hF, pc, s, m, o, hat, hs, h => by
    have hk₁ := hS.expr hl₁
    have hc := hF.clear (s := s) fun _ _ => hS.cell_lt
    have hk₂ := hl₂.bounds (hS.nonneg.trans hk₁.1) (VarsBelow.mono hS.vars hk₁.1)
    rw [execStatement] at h
    rw [List.length_append, List.length_append, ← Nat.add_assoc, ← Nat.add_assoc]
    refine .bind h (fun e he => evalExpr_implements hf hcalls hl₁ hF.le hS.nonneg hS.vars hat.left
      (hc.mono le_rfl hk₂.1) hs he) fun x s₁ m₁ hx h => ?_
    have hc₁ := (hx.keeps.same d (Nat.lt_succ_self d)).clear hc
    refine .bind h (fun e he => evalExpr_implements hf hcalls hl₂ hF.le (hS.nonneg.trans hk₁.1)
      (VarsBelow.mono hS.vars hk₁.1) hat.right.left (hc₁.mono hk₁.1 le_rfl) hx.stores he)
      fun y s₂ m₂ hy h => ?_
    obtain ⟨⟨j, name⟩, hr, h⟩ := query_bind_eq_some.mp h
    obtain ⟨n, hn, h⟩ := query_bind_eq_some.mp h
    obtain ⟨⟨old, hold⟩, h⟩ := overwrite_bind_eq_some.mp h
    cases h
    obtain ⟨hj, p, c, hp, rfl, hcell, hvar⟩ :=
      (hx.holds.keep le_rfl hy.keeps (hc₁.mono le_rfl hk₂.1)).address hy.stores hr
    obtain ⟨c', hvar', hm⟩ := hy.stores.number hj hold
    cases hvar.symm.trans hvar'
    exact ⟨_, IRFunction.storeI32_goes hat.right.right hp (hy.holds.number hy.stores hn) hcell hm,
      hy.stores.write hvar rfl, (hx.keeps.below.trans hy.keeps.below).trans
        (.write hvar (Activations.contents_ne_none hold))⟩
  | .arrayDecl, hS, hT, _, _, hF, pc, s, m, o, hat, hs, h => by
    rw [execStatement] at h
    cases h
    obtain ⟨m', hgo, hscratch, hzero⟩ := zeroCode_goes _ hat
    rw [zeroCode, List.length_map, zeroCells_length]
    exact ⟨m', hgo, hs.addArray hscratch hzero
      (hF.le.arrays _ _ (Table.find_insert_self _ _ _)), .update fun _ hj => hscratch.of_ne (Nat.ne_of_lt hj)⟩
  | .structVarDecl ho, hS, hT, _, _, hF, pc, s, m, o, hat, hs, h => by
    rw [execStatement] at h
    obtain ⟨fieldOrder, ho', h⟩ := query_bind_eq_some.mp h
    cases ho.symm.trans ho'
    cases h
    obtain ⟨m', hgo, hscratch, hzero⟩ := zeroCode_goes _ hat
    rw [zeroCode, List.length_map, zeroCells_length]
    exact ⟨m', hgo, hs.addStructVar hscratch hzero
      (hF.le.structVars _ _ (Table.find_insert_self _ _ _))
      (hF.le.structVarTypes _ _ (Table.find_insert_self _ _ _)), .update fun _ hj => hscratch.of_ne (Nat.ne_of_lt hj)⟩
  | .fieldStore hi hl, hS, hT, _, _, hF, pc, s, m, o, hat, hs, h => by
    have h3 : S.nextValue ≤ S.nextValue + 3 := by omega
    have hk := hl.bounds (hS.nonneg.trans h3) (VarsBelow.mono hS.vars h3)
    have hc := hF.clear (s := s) fun _ _ => hS.cell_lt
    obtain ⟨hx, hg, hlen, hlt, -⟩ := hf.field hF.le hi
    rw [execStatement] at h
    obtain ⟨p, hp, h⟩ := query_bind_eq_some.mp h
    obtain rfl := IRFunction.field_eq hF.le hi rfl hs hp
    obtain ⟨m₁, p, hgo, hscratch, hp, hd, hpc⟩ := IRFunction.fieldCode_goes (C := C)
      (V := V) hf.groups hg hlen hat hlt
    rw [List.length_append, List.length_append, ← Nat.add_assoc, ← Nat.add_assoc]
    refine .goes hgo (.bind h (fun e he => evalExpr_implements hf hcalls hl hF.le
      (hS.nonneg.trans h3) (VarsBelow.mono hS.vars h3) hat.right.left (hc.mono h3 le_rfl)
      (hs.scratch (hc.mono le_rfl hk.1) hscratch) he) fun x s₂ m₂ hx₂ h => ?_)
    obtain ⟨n, hn, h⟩ := query_bind_eq_some.mp h
    obtain ⟨⟨old, hold⟩, h⟩ := overwrite_bind_eq_some.mp h
    cases h
    obtain ⟨m', hgo', hm'⟩ := store_goes hat.right.right hx₂ hn hp (by omega)
      (hc.mono le_rfl hk.1) hd hold fun c hc => hpc.trans (field_cell hx hc)
    exact ⟨m', hgo', .trans (Keeps.scratch hscratch).below hm'⟩
  | .indexStore ha hl₁ hl₂, hS, hT, _, _, hF, pc, s, m, o, hat, hs, h => by
    have hk₁ := hS.expr hl₁
    have h4 := hk₁.1.trans (Int.le_add_of_nonneg_right (b := 4) (by omega))
    have hk₂ := hl₂.bounds (hS.nonneg.trans h4) (VarsBelow.mono hS.vars h4)
    have hc := hF.clear (s := s) fun _ _ => hS.cell_lt
    have hF' := hF.le.arrays _ _ ha
    obtain ⟨D', ht⟩ := hf.tidy
    rw [execStatement] at h
    rw [List.length_append, List.length_append, List.length_append, ← Nat.add_assoc,
      ← Nat.add_assoc, ← Nat.add_assoc]
    refine .bind h (fun e he => evalExpr_implements hf hcalls hl₁ hF.le hS.nonneg hS.vars hat.left
      (hc.mono le_rfl (by omega)) hs he) fun x s₁ m₁ hx h => ?_
    have hc₁ := (hx.keeps.same d (Nat.lt_succ_self d)).clear hc
    obtain ⟨i, hi, h⟩ := query_bind_eq_some.mp h
    have hi := hx.holds.number hx.stores hi
    obtain ⟨he, rfl⟩ | ⟨p, s₂, he, h⟩ := bind_eq_some.mp h <;>
      obtain ⟨size, hsize, ⟨hlt, e⟩ | ⟨hlt, e⟩⟩ := elementOf_eq_some he <;> cases e <;>
      obtain ⟨cells, hcells, rfl⟩ := hx.stores.arrays d (Nat.lt_succ_self d) _ _ hsize <;>
      cases hF'.symm.trans hcells
    · exact IRFunction.elementCode_finishes (ht.arrays _ _ hF') hat.right hi hlt
    · obtain ⟨m₂, p, hgo, hscratch, hp, hd, hpc⟩ := IRFunction.elementCode_goes (C := C)
        (V := V) (hf.arrays _ _ hF') (ht.arrays _ _ hF') hat.right hi hf.groups hk₁.2.2 hlt
      refine .goes hgo (.bind h (fun e he => evalExpr_implements hf hcalls hl₂ hF.le
        (hS.nonneg.trans h4) (VarsBelow.mono hS.vars h4) hat.right.right.left (hc₁.mono h4 le_rfl)
        (hx.stores.scratch (hc₁.mono hk₁.1 hk₂.1) hscratch) he) fun y s₂ m₃ hy h => ?_)
      obtain ⟨n, hn, h⟩ := query_bind_eq_some.mp h
      obtain ⟨⟨old, hold⟩, h⟩ := overwrite_bind_eq_some.mp h
      cases h
      obtain ⟨m', hgo', hm'⟩ := store_goes hat.right.right.right hy hn hp (by omega)
        (hc₁.mono hk₁.1 hk₂.1) hd hold fun c hc => hpc.trans (element_cell hF' hc)
      exact ⟨m', hgo', .trans (hx.keeps.below.trans (Keeps.scratch hscratch).below) hm'⟩
  | .returnStmt hl, hS, hT, _, _, hF, pc, s, m, o, hat, hs, h => by
    rw [execStatement] at h
    rw [List.length_append, ← Nat.add_assoc]
    refine .bind h (fun e he => evalExpr_implements hf hcalls hl hF.le hS.nonneg hS.vars hat.left
      (hF.clear fun _ _ => hS.cell_lt) hs he) fun x s₁ m₁ hx h => ?_
    obtain ⟨n, hn, h⟩ := query_bind_eq_some.mp h
    cases h
    exact ⟨m₁, IRFunction.returnI32_finishes hat.right (hx.holds.number hx.stores hn), hx.stores,
      hx.keeps.below⟩
  | .whileStmt hl hb, hS, hT, hr, hn, hF, pc, s, m, o, hat, hs, h => by
    have hk := hS.expr hl
    have hS₁ := hS.mono hk.1 (n := S.nextLabel + 2)
    have hF₁ := (hb.tidy hS₁ hT hr hn).2.toward hF
    rw [execStatement] at h
    have hexec := loop_executes hf.labels hat hat.tail.right hat.tail.right.tail.right
      (fun s m o hs h => condition_implements hf hcalls hl hF₁.le hS.nonneg hS.vars hat.tail.left
        (hF₁.clear fun _ _ => hS.cell_lt) hs h)
      (fun s m o hs h => execBlock_executes hb hS₁ hT hr hn hF hat.tail.right.tail.left hs h)
      rounds hs h
    refine hexec.cast ?_
    simp only [List.length_cons, List.length_append, List.length_nil]
    omega
  | .ifThen hl hb, hS, hT, hr, hn, hF, pc, s, m, o, hat, hs, h => by
    have hk := hS.expr hl
    have hS₁ := hS.mono hk.1 (n := S.nextLabel + 2)
    obtain ⟨hr, -⟩ := Bool.and_eq_true_iff.mp hr
    rw [stmtNames, blockNames, List.append_nil] at hn
    have hF₁ := (hb.tidy hS₁ hT hr hn).2.toward hF
    rw [execStatement] at h
    rw [execBlock] at h
    refine (ifThen_executes hf.labels hat.right (fun e he => condition_implements hf hcalls hl
      hF₁.le hS.nonneg hS.vars hat.left (hF₁.clear fun _ _ => hS.cell_lt) hs he)
      (fun s m o hs h => execBlock_executes hb hS₁ hT hr hn hF hat.right.tail.left hs h)
      hat.right.tail.right h).cast ?_
    simp only [List.length_cons, List.length_append, List.length_nil]
    omega
  | .ifElse he hl hb hb', hS, hT, hr, hn, hF, pc, s, m, o, hat, hs, h => by
    have hk := hS.expr hl
    have hS₁ := hS.mono hk.1 (n := S.nextLabel + 2)
    obtain ⟨hr, hr'⟩ := Bool.and_eq_true_iff.mp hr
    rw [stmtNames] at hn
    have ht := hb.tidy hS₁ hT hr (nodup_left hn)
    have hn₁ := nodup_left hn
    rw [← List.append_assoc] at hn
    have ht' := hb'.tidy (hb.ok hS₁).2 ht.1 hr' hn
    have hF₁ := ht'.2.toward hF
    have hF₀ := ht.2.toward hF₁
    rw [execStatement] at h
    have hback := hat.right.tail.right
    refine (ifElse_executes hf.labels hat.right (fun e he => condition_implements hf hcalls hl
      hF₀.le hS.nonneg hS.vars hat.left (hF₀.clear fun _ _ => hS.cell_lt) hs he)
      (fun s m o hs h => execBlock_executes hb hS₁ hT hr hn₁ hF₁ hat.right.tail.left hs h) hback
      (fun s m o hs h => execBlock_executes hb' (hb.ok hS₁).2 ht.1 hr' hn hF hback.tail.tail.left
        hs h) hback.tail.tail.right h).cast ?_
    simp only [List.length_cons, List.length_append, List.length_nil]
    omega

/-- The code of a block implements it. -/
theorem execBlock_executes {groups : List (List Int)} {D : List String} {S S' : Scope}
    {body : List Statement} {A : Fragment} : LowersBlock Y S body A S' → S.Ok Y groups →
      S.names.Tidy Y D → blockRegular Y body = true → (D ++ blockNames body).Nodup →
      S'.Toward (F d) → ∀ {pc : Nat} {s : Activations} {m : Memory} {o : Effect Control},
      f.CodeAt pc A.code → Stores F (d + 1) s m → execBlock Y call d rounds body s = some o →
      Executes C f d V pc m (pc + A.code.length) (Executed F d s m) o
  | .nil, _, _, _, _, _, pc, s, m, o, _, hs, h => by
    rw [execBlock] at h
    cases h
    exact ⟨m, .refl, hs, .refl⟩
  | .cons hl hb, hS, hT, hr, hn, hF, pc, s, m, o, hat, hs, h => by
    obtain ⟨hr, hr'⟩ := Bool.and_eq_true_iff.mp hr
    rw [blockNames] at hn
    have ht := hl.tidy hS hT hr (nodup_left hn)
    rw [← List.append_assoc] at hn
    have ht' := hb.tidy (hl.ok hS).2 ht.1 hr' hn
    rw [execBlock] at h
    rw [Fragment.append_eq] at hat ⊢
    rw [List.length_append, ← Nat.add_assoc]
    exact .seq h (fun e => execStatement_executes hl hS hT hr (hn.of_append_left)
      (ht'.2.toward hF) hat.left hs) (fun _ _ h => h) fun s₁ m₁ h₁ h =>
      (execBlock_executes hb (hl.ok hS).2 ht.1 hr' hn hF hat.right h₁.stores h).imp (fun _ => .refl)
        fun s₂ m₂ h₂ => .trans h₁.keeps h₂

end

end Body

end Oglang
end Techuila
