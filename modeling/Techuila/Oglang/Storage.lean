import Techuila.Oglang.Meaning
import Techuila.Oglang.Values

/-!
# Where variables are stored

The name tables of the lowering give each variable, array element and struct field a cell. In a
function that declares each name once, no two of them share a cell, and the tables only grow.

* `Function.regular`: the functions that the lowering stores in this way.
* `Names.cell`: the cell of a place.
* `LowersStmt.tidy`, `LowersBlock.tidy`: what a statement does to the tables.
* `Scope.Toward`: a scope on the way to the last tables.
-/

namespace Techuila
namespace Oglang

/-! ## Regular functions -/

def Expr.isVariable : Expr → Bool
  | .variable _ => true
  | _ => false

/-- What is allowed of an array or a struct: its last byte offset fits in a number. -/
def maxCells : Nat := 2 ^ 28

mutual

/-- The names that a statement declares. -/
def stmtNames : Statement → List String
  | .letStmt name _ _ | .arrayDecl name _ _ | .structVarDecl name _ => [name]
  | .whileStmt _ body => blockNames body
  | .ifStmt _ thenBody elseBody => blockNames thenBody ++ blockNames elseBody
  | .returnStmt _ | .assignStmt _ _ | .storeStmt _ _ | .indexStore _ _ _ | .fieldStore _ _ _ => []

def blockNames : List Statement → List String
  | [] => []
  | statement :: body => stmtNames statement ++ blockNames body

end

mutual

/-- No variable is initialised with a variable, whose cell it would share; no struct variable has
the name of an enum; arrays and structs are not too large. -/
def stmtRegular (Y : Layouts) : Statement → Bool
  | .letStmt _ _ initializer => !initializer.isVariable
  | .arrayDecl _ _ size => size.toNat < maxCells
  | .structVarDecl name structType => (Y.enumVariants.find name).isNone &&
    ((Y.structFieldOrder.find structType).getD []).length < maxCells
  | .whileStmt _ body => blockRegular Y body
  | .ifStmt _ thenBody elseBody => blockRegular Y thenBody && blockRegular Y elseBody
  | .returnStmt _ | .assignStmt _ _ | .storeStmt _ _ | .indexStore _ _ _ | .fieldStore _ _ _ => true

def blockRegular (Y : Layouts) : List Statement → Bool
  | [] => true
  | statement :: body => stmtRegular Y statement && blockRegular Y body

end

/-- The function declares each name once, and its statements are regular. -/
def Function.regular (Y : Layouts) (function : Function) : Bool :=
  decide (function.params.map Param.name ++ blockNames function.body).Nodup &&
    blockRegular Y function.body

def Source.regular (source : Source) : Bool := source.functions.all fun f => f.2.regular f.1

/-! ## Cells -/

namespace Names

def cell (T : Names) : Place → Option Int
  | .var name => T.vars.find name
  | .element arrayName i => (T.arrays.find arrayName).bind (·[i]?)
  | .field structVarName i => (T.structVars.find structVarName).bind (·[i]?)

/-- No two places share a cell. -/
def Apart (T : Names) : Prop := ∀ p q c, T.cell p = some c → T.cell q = some c → p = q

/-- `U` has all entries of `T`. -/
structure Le (T U : Names) : Prop where
  vars : ∀ x v, T.vars.find x = some v → U.vars.find x = some v
  arrays : ∀ x v, T.arrays.find x = some v → U.arrays.find x = some v
  structVars : ∀ x v, T.structVars.find x = some v → U.structVars.find x = some v
  structVarTypes : ∀ x v, T.structVarTypes.find x = some v → U.structVarTypes.find x = some v

/-- The tables have no entry for a name. -/
structure Lacks (T : Names) (x : String) : Prop where
  vars : T.vars.find x = none
  arrays : T.arrays.find x = none
  structVars : T.structVars.find x = none
  structVarTypes : T.structVarTypes.find x = none

variable {T U V : Names} {p : Place} {c : Int} {name : String}

theorem Le.refl : T.Le T := ⟨fun _ _ h => h, fun _ _ h => h, fun _ _ h => h, fun _ _ h => h⟩

theorem Le.trans (h : T.Le U) (h' : U.Le V) : T.Le V where
  vars x v hv := h'.vars x v (h.vars x v hv)
  arrays x v hv := h'.arrays x v (h.arrays x v hv)
  structVars x v hv := h'.structVars x v (h.structVars x v hv)
  structVarTypes x v hv := h'.structVarTypes x v (h.structVarTypes x v hv)

theorem Le.cell (h : T.Le U) (hc : T.cell p = some c) : U.cell p = some c := by
  cases p with
  | var name => exact h.vars name c hc
  | element a i =>
    obtain ⟨cells, ha, hi⟩ := Option.bind_eq_some_iff.mp hc
    exact Option.bind_eq_some_iff.mpr ⟨cells, h.arrays a cells ha, hi⟩
  | field x i =>
    obtain ⟨cells, hx, hi⟩ := Option.bind_eq_some_iff.mp hc
    exact Option.bind_eq_some_iff.mpr ⟨cells, h.structVars x cells hx, hi⟩

theorem Le.var {x : String} {v : Int} (h : T.Le U) (hv : T.vars.find x = some v) :
    U.cell (.var x) = some v := h.vars x v hv

/-- An entry for a new name. -/
theorem find_insert_of_lacks {α : Type} {t : Table String α} {x : String} (h : t.find x = none)
    (v : α) {y : String} {w : α} (hy : t.find y = some w) : (t.insert x v).find y = some w := by
  rw [Table.find_insert, if_neg, hy]
  rintro rfl
  rw [h] at hy
  cases hy

/-- The new places of `U` have new cells. -/
theorem Apart.extend (h : T.Apart) {k : Int} {N : Place → Int → Prop}
    (hT : ∀ p c, T.cell p = some c → c < k)
    (hU : ∀ p c, U.cell p = some c → T.cell p = some c ∨ k ≤ c ∧ N p c)
    (hN : ∀ p q c, N p c → N q c → p = q) : U.Apart := by
  intro p q c hp hq
  rcases hU p c hp with hp | ⟨hk, hp⟩ <;> rcases hU q c hq with hq | ⟨hk', hq⟩
  · exact h p q c hp hq
  · have := hT p c hp
    omega
  · have := hT q c hq
    omega
  · exact hN p q c hp hq

/-- A table that is part of the tables of a regular function. -/
structure Tidy (Y : Layouts) (D : List String) (T : Names) : Prop where
  apart : T.Apart
  known : ∀ x, x ∉ D → T.Lacks x
  arrays : ∀ x cells, T.arrays.find x = some cells → cells.length < maxCells
  structVars : ∀ x cells, T.structVars.find x = some cells →
    cells.length < maxCells ∧ Y.enumVariants.find x = none

theorem getElem?_zeroCells {k c : Int} {n i : Nat} :
    (zeroCells k n)[i]? = some c ↔ i < n ∧ c = k + i := by
  simp only [zeroCells, List.getElem?_map, Option.map_eq_some_iff]
  constructor
  · rintro ⟨j, hj, rfl⟩
    obtain ⟨hlt, e⟩ := List.getElem?_eq_some_iff.mp hj
    rw [List.getElem_range] at e
    subst e
    exact ⟨by simpa using hlt, rfl⟩
  · rintro ⟨hlt, rfl⟩
    exact ⟨i, by simp [hlt], rfl⟩

section Insert

variable {Y : Layouts} {D : List String} (h : T.Tidy Y D) {k : Int}
  (hk : ∀ p c, T.cell p = some c → c < k) (hx : name ∉ D)

include h

theorem Tidy.lacks_of_not_mem {x : String} (hx' : x ∉ D ++ [name]) : x ≠ name ∧ T.Lacks x := by
  simp only [List.mem_append, List.mem_singleton, not_or] at hx'
  exact ⟨hx'.2, h.known x hx'.1⟩

include hk hx

theorem Tidy.insertVar {v : Int} (hv : k ≤ v) :
    let U : Names := { T with vars := T.vars.insert name v }
    U.Tidy Y (D ++ [name]) ∧ T.Le U ∧
      ∀ p c, U.cell p = some c → T.cell p = some c ∨ p = .var name ∧ c = v := by
  intro U
  have hcell : ∀ p c, U.cell p = some c → T.cell p = some c ∨ p = .var name ∧ c = v := by
    intro p c hc
    cases p with
    | var x =>
      simp only [U, cell, Table.find_insert] at hc ⊢
      split at hc
      · cases hc
        exact .inr ⟨by rw [‹x = name›], rfl⟩
      · exact .inl hc
    | element | field => exact .inl hc
  refine ⟨⟨h.apart.extend hk (N := fun p c => p = .var name ∧ c = v) (fun p c hc => ?_) ?_,
    fun x hx' => ?_, h.arrays, h.structVars⟩,
    ⟨fun _ _ => find_insert_of_lacks (h.known name hx).vars v, fun _ _ h => h, fun _ _ h => h,
      fun _ _ h => h⟩, hcell⟩
  · refine (hcell p c hc).imp_right fun hp => ⟨?_, hp⟩
    rw [hp.2]
    exact hv
  · rintro p q c ⟨rfl, -⟩ ⟨rfl, -⟩
    rfl
  · obtain ⟨hne, hl⟩ := h.lacks_of_not_mem hx'
    exact { hl with vars := (Table.find_insert_ne _ _ hne).trans hl.vars }

theorem Tidy.insertArray {n : Nat} (hn : n < maxCells) :
    let U : Names := { T with arrays := T.arrays.insert name (zeroCells k n) }
    U.Tidy Y (D ++ [name]) ∧ T.Le U ∧
      ∀ p c, U.cell p = some c → T.cell p = some c ∨ k ≤ c := by
  intro U
  have hcell : ∀ p c, U.cell p = some c → T.cell p = some c ∨
      k ≤ c ∧ ∃ i : Nat, p = .element name i ∧ c = k + i := by
    intro p c hc
    cases p with
    | element x i =>
      simp only [U, cell, Table.find_insert] at hc ⊢
      split at hc
      · obtain ⟨-, e⟩ := getElem?_zeroCells.mp hc
        exact .inr ⟨by omega, i, by rw [‹x = name›], e⟩
      · exact .inl hc
    | var | field => exact .inl hc
  refine ⟨⟨h.apart.extend hk hcell ?_, fun x hx' => ?_, fun x cells hc => ?_, h.structVars⟩,
    ⟨fun _ _ h => h, fun _ _ => find_insert_of_lacks (h.known name hx).arrays _, fun _ _ h => h,
      fun _ _ h => h⟩, fun p c hc => (hcell p c hc).imp_right And.left⟩
  · rintro p q c ⟨i, rfl, e⟩ ⟨j, rfl, e'⟩
    obtain rfl : i = j := by omega
    rfl
  · obtain ⟨hne, hl⟩ := h.lacks_of_not_mem hx'
    exact { hl with arrays := (Table.find_insert_ne _ _ hne).trans hl.arrays }
  · rw [Table.find_insert] at hc
    split at hc
    · cases hc
      simpa using hn
    · exact h.arrays x cells hc

theorem Tidy.insertStructVar {n : Nat} (hn : n < maxCells) (hY : Y.enumVariants.find name = none)
    (structType : String) :
    let U : Names := { T with
      structVars := T.structVars.insert name (zeroCells k n)
      structVarTypes := T.structVarTypes.insert name structType }
    U.Tidy Y (D ++ [name]) ∧ T.Le U ∧
      ∀ p c, U.cell p = some c → T.cell p = some c ∨ k ≤ c := by
  intro U
  have hcell : ∀ p c, U.cell p = some c → T.cell p = some c ∨
      k ≤ c ∧ ∃ i : Nat, p = .field name i ∧ c = k + i := by
    intro p c hc
    cases p with
    | field x i =>
      simp only [U, cell, Table.find_insert] at hc ⊢
      split at hc
      · obtain ⟨-, e⟩ := getElem?_zeroCells.mp hc
        exact .inr ⟨by omega, i, by rw [‹x = name›], e⟩
      · exact .inl hc
    | var | element => exact .inl hc
  have hl := h.known name hx
  refine ⟨⟨h.apart.extend hk hcell ?_, fun x hx' => ?_, h.arrays, fun x cells hc => ?_⟩,
    ⟨fun _ _ h => h, fun _ _ h => h, fun _ _ => find_insert_of_lacks hl.structVars _,
      fun _ _ => find_insert_of_lacks hl.structVarTypes _⟩,
    fun p c hc => (hcell p c hc).imp_right And.left⟩
  · rintro p q c ⟨i, rfl, e⟩ ⟨j, rfl, e'⟩
    obtain rfl : i = j := by omega
    rfl
  · obtain ⟨hne, hl⟩ := h.lacks_of_not_mem hx'
    exact { hl with
      structVars := (Table.find_insert_ne _ _ hne).trans hl.structVars
      structVarTypes := (Table.find_insert_ne _ _ hne).trans hl.structVarTypes }
  · rw [Table.find_insert] at hc
    split at hc
    · cases hc
      exact ⟨by simpa using hn, by rw [‹x = name›, hY]⟩
    · exact h.structVars x cells hc

end Insert

end Names

/-! ## Statements -/

section Statements

variable {Y : Layouts}

/-- An expression that is no variable has its value in a new cell. -/
theorem LowersExpr.fresh {T : Names} {k : Int} {e : Expr} {code : List IRInstruction}
    {taken : List Int} {v k' : Int} (h : LowersExpr Y T k e code taken v k') (h0 : 0 ≤ k)
    (hT : VarsBelow T k) (he : e.isVariable = false) : k ≤ v := by
  cases h with
  | «variable» => cases he
  | integer | addressOf | enumVariant | asm | fieldAccess => omega
  | unary h | deref h | index _ h =>
    have := (h.bounds h0 hT).1
    omega
  | call h => exact (h.bounds h0 hT).1
  | binary _ h₁ h₂ =>
    have h₁ := (h₁.bounds h0 hT).1
    exact h₁.trans (h₂.bounds (h0.trans h₁) (hT.mono h₁)).1

namespace Scope

theorem Ok.cell_lt {groups : List (List Int)} {S : Scope} (hS : S.Ok Y groups) {p : Place}
    {c : Int} (hc : S.names.cell p = some c) : c < S.nextValue := by
  cases p with
  | var name => exact (hS.vars name c hc).2
  | element a i =>
    obtain ⟨cells, ha, hi⟩ := Option.bind_eq_some_iff.mp hc
    exact (hS.values cells (hS.arrays a cells ha) c (List.mem_of_getElem? hi)).2
  | field x i =>
    obtain ⟨cells, hx, hi⟩ := Option.bind_eq_some_iff.mp hc
    exact (hS.values cells (hS.structVars x cells hx).1 c (List.mem_of_getElem? hi)).2

/-- `S'` has all names of `S`, and other places in new cells. -/
structure Extends (S S' : Scope) : Prop where
  le : S.names.Le S'.names
  nextValue : S.nextValue ≤ S'.nextValue
  fresh : ∀ p c, S'.names.cell p = some c → S.names.cell p = some c ∨ S.nextValue ≤ c

theorem Extends.trans {S S' S'' : Scope} (h : S.Extends S') (h' : S'.Extends S'') :
    S.Extends S'' where
  le := h.le.trans h'.le
  nextValue := h.nextValue.trans h'.nextValue
  fresh p c hc := by
    rcases h'.fresh p c hc with hc | hc
    · exact h.fresh p c hc
    · exact .inr (h.nextValue.trans hc)

/-- More values, the same names. -/
theorem Extends.mono {S : Scope} {k : Int} (hk : S.nextValue ≤ k) {n : Nat} :
    S.Extends ⟨S.names, k, n⟩ := ⟨.refl, hk, fun _ _ h => .inl h⟩

/-- The tables `F` have the names of the scope, and other places in cells that come later. -/
structure Toward (S : Scope) (F : Names) : Prop where
  le : S.names.Le F
  above : ∀ p c, F.cell p = some c → S.names.cell p = some c ∨ S.nextValue ≤ c

theorem Extends.toward {S S' : Scope} {F : Names} (h : S.Extends S') (h' : S'.Toward F) :
    S.Toward F where
  le := h.le.trans h'.le
  above p c hc := by
    rcases h'.above p c hc with hc | hc
    · exact h.fresh p c hc
    · exact .inr (h.nextValue.trans hc)

end Scope

theorem nodup_left {α : Type} {a b c : List α} (h : (a ++ (b ++ c)).Nodup) : (a ++ b).Nodup :=
  (List.append_assoc a b c ▸ h).of_append_left

mutual

/-- A regular statement keeps the tables tidy and only adds to them. -/
theorem LowersStmt.tidy {groups : List (List Int)} {D : List String} {S S' : Scope}
    {statement : Statement} {A : Fragment} : LowersStmt Y S statement A S' → S.Ok Y groups →
      S.names.Tidy Y D → stmtRegular Y statement = true → (D ++ stmtNames statement).Nodup →
      S'.names.Tidy Y (D ++ stmtNames statement) ∧ S.Extends S'
  | .letStmt h, hS, hT, hr, hn => by
    have hb := hS.expr h
    have hv := h.fresh hS.nonneg hS.vars (Bool.not_eq_true' _ ▸ hr)
    obtain ⟨ht, hle, hc⟩ := hT.insertVar (fun p c => hS.cell_lt) (List.disjoint_of_nodup_append hn
      · (List.mem_singleton_self _)) hv
    refine ⟨ht, hle, hb.1, fun p c h => ?_⟩
    rcases hc p c h with h | ⟨-, rfl⟩
    · exact .inl h
    · exact .inr hv
  | .assignStmt _ h, hS, hT, _, _ => by
    rw [stmtNames, List.append_nil]
    exact ⟨hT, .mono (hS.expr h).1⟩
  | .storeStmt h₁ h₂, hS, hT, _, _ => by
    have h₁ := hS.expr h₁
    have h₂ := (hS.mono (n := S.nextLabel) h₁.1).expr h₂
    rw [stmtNames, List.append_nil]
    exact ⟨hT, .mono (h₁.1.trans h₂.1)⟩
  | .arrayDecl, hS, hT, hr, hn => by
    obtain ⟨ht, hle, hc⟩ := hT.insertArray (fun p c => hS.cell_lt)
      (List.disjoint_of_nodup_append hn · (List.mem_singleton_self _)) (of_decide_eq_true hr)
    exact ⟨ht, hle, Int.le_add_of_nonneg_right (Int.natCast_nonneg _), hc⟩
  | .structVarDecl ho, hS, hT, hr, hn => by
    rw [stmtRegular, ho, Bool.and_eq_true, Option.isNone_iff_eq_none] at hr
    obtain ⟨ht, hle, hc⟩ := hT.insertStructVar (fun p c => hS.cell_lt)
      (List.disjoint_of_nodup_append hn · (List.mem_singleton_self _)) (of_decide_eq_true hr.2)
      hr.1 _
    exact ⟨ht, hle, Int.le_add_of_nonneg_right (Int.natCast_nonneg _), hc⟩
  | .fieldStore _ h, hS, hT, _, _ => by
    have h := (hS.mono (n := S.nextLabel) (k := S.nextValue + 3) (by omega)).expr h
    rw [stmtNames, List.append_nil]
    exact ⟨hT, .mono ((by omega : S.nextValue ≤ S.nextValue + 3).trans h.1)⟩
  | .indexStore _ h₁ h₂, hS, hT, _, _ => by
    have h₁ := hS.expr h₁
    have hk := h₁.1.trans (Int.le_add_of_nonneg_right (b := 4) (by omega))
    have h₂ := (hS.mono (n := S.nextLabel) hk).expr h₂
    rw [stmtNames, List.append_nil]
    exact ⟨hT, .mono (hk.trans h₂.1)⟩
  | .returnStmt h, hS, hT, _, _ => by
    rw [stmtNames, List.append_nil]
    exact ⟨hT, .mono (hS.expr h).1⟩
  | .whileStmt h hb, hS, hT, hr, hn => by
    have hk := (hS.expr h).1
    obtain ⟨ht, he⟩ := hb.tidy (hS.mono hk) hT hr hn
    exact ⟨ht, (Scope.Extends.mono hk).trans he⟩
  | .ifThen h hb, hS, hT, hr, hn => by
    have hk := (hS.expr h).1
    rw [stmtNames, blockNames, List.append_nil] at hn ⊢
    obtain ⟨ht, he⟩ := hb.tidy (hS.mono hk) hT (Bool.and_eq_true_iff.mp hr).1 hn
    exact ⟨ht, (Scope.Extends.mono hk).trans he⟩
  | .ifElse _ h hb hb', hS, hT, hr, hn => by
    have hk := (hS.expr h).1
    obtain ⟨hr, hr'⟩ := Bool.and_eq_true_iff.mp hr
    rw [stmtNames] at hn ⊢
    obtain ⟨ht, he⟩ := hb.tidy (hS.mono hk) hT hr (nodup_left hn)
    rw [← List.append_assoc] at hn ⊢
    obtain ⟨ht', he'⟩ := hb'.tidy (hb.ok (hS.mono hk)).2 ht hr' hn
    exact ⟨ht', ((Scope.Extends.mono hk).trans he).trans he'⟩

theorem LowersBlock.tidy {groups : List (List Int)} {D : List String} {S S' : Scope}
    {body : List Statement} {A : Fragment} : LowersBlock Y S body A S' → S.Ok Y groups →
      S.names.Tidy Y D → blockRegular Y body = true → (D ++ blockNames body).Nodup →
      S'.names.Tidy Y (D ++ blockNames body) ∧ S.Extends S'
  | .nil, _, hT, _, _ => by
    rw [blockNames, List.append_nil]
    exact ⟨hT, .refl, le_rfl, fun _ _ h => .inl h⟩
  | .cons hs hb, hS, hT, hr, hn => by
    obtain ⟨hr, hr'⟩ := Bool.and_eq_true_iff.mp hr
    rw [blockNames] at hn ⊢
    obtain ⟨ht, he⟩ := hs.tidy hS hT hr (nodup_left hn)
    rw [← List.append_assoc] at hn ⊢
    obtain ⟨ht', he'⟩ := hb.tidy (hs.ok hS).2 ht hr' hn
    exact ⟨ht', he.trans he'⟩

end

end Statements

end Oglang
end Techuila
