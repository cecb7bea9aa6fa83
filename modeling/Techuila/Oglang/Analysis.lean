import Mathlib.Data.Finset.Basic
import Techuila.Lib.Table
import Techuila.Oglang.Ir

/-!
# Live ranges and interference (`analysis/liveness.cpp`, `analysis/interference.cpp`)

* `analyze`: the range from a value's first to its last occurrence, in instruction order.
  `analyze_spec`: exactly that.
* `InterferenceAnalyzer.build`: an edge between two values whose ranges overlap; `build_spec`.
-/

namespace Techuila
namespace Oglang

structure LiveRange where
  start : Nat
  /-- `end` in the source. -/
  stop : Nat
  deriving DecidableEq, Repr

namespace LivenessAnalyzer

def touch (i : Nat) (ranges : Table Int LiveRange) (value : Int) : Table Int LiveRange :=
  if value < 0 then ranges
  else match ranges.find value with
    | none => ranges.insert value ⟨i, i⟩
    | some r => ranges.insert value { r with stop := max r.stop i }

/-- The values of an instruction, in the order in which `analyze` touches them. -/
def values (inst : IRInstruction) : List Int :=
  inst.destination :: inst.left :: inst.right :: inst.args

/-- The ranges after the instructions from position `i` on. -/
def analyzeFrom (i : Nat) (ranges : Table Int LiveRange) :
    List IRInstruction → Table Int LiveRange
  | [] => ranges
  | inst :: rest => analyzeFrom (i + 1) ((values inst).foldl (touch i) ranges) rest

def analyze (function : IRFunction) : Table Int LiveRange :=
  analyzeFrom 0 [] function.instructions

end LivenessAnalyzer

abbrev InterferenceGraph := Table Int (Finset Int)

namespace InterferenceAnalyzer

/-- `graph[a]`, which creates an empty entry. -/
def entry (graph : InterferenceGraph) (a : Int) : InterferenceGraph :=
  match graph.find a with
  | none => graph.insert a ∅
  | some _ => graph

/-- `graph[a].insert(b)`. -/
def addNeighbor (graph : InterferenceGraph) (a b : Int) : InterferenceGraph :=
  match graph.find a with
  | none => graph.insert a {b}
  | some s => graph.insert a (Insert.insert b s)

def overlap (a b : LiveRange) : Bool := a.start < b.stop && b.start < a.stop

def build (ranges : Table Int LiveRange) : InterferenceGraph :=
  ranges.foldl (fun graph a =>
    ranges.foldl (fun graph b =>
      if a.1 ≥ b.1 then graph
      else if overlap a.2 b.2 then addNeighbor (addNeighbor graph a.1 b.1) b.1 a.1
      else graph) (entry graph a.1)) []

end InterferenceAnalyzer

/-! ## Live ranges -/

namespace LivenessAnalyzer

/-- Value `v` occurs in the instruction at `i`. -/
def Occurs (code : List IRInstruction) (v : Int) (i : Nat) : Prop :=
  0 ≤ v ∧ ∃ inst, code[i]? = some inst ∧ v ∈ values inst

/-- `r` is the range from the first to the last number in `S`. -/
structure Spans (r : LiveRange) (S : Nat → Prop) : Prop where
  start : S r.start
  stop : S r.stop
  le : ∀ i, S i → r.start ≤ i ∧ i ≤ r.stop

/-- The range is the span of `S`, and there is none where `S` is empty. -/
def IsSpan (o : Option LiveRange) (S : Nat → Prop) : Prop :=
  match o with
  | none => ∀ i, ¬ S i
  | some r => Spans r S

/-- The range after one more occurrence at `i`. -/
def extend (i : Nat) : Option LiveRange → LiveRange
  | none => ⟨i, i⟩
  | some r => { r with stop := max r.stop i }

theorem IsSpan.congr {o : Option LiveRange} {S S' : Nat → Prop} (h : IsSpan o S)
    (e : ∀ i, S i ↔ S' i) : IsSpan o S' := by
  have : S = S' := funext fun i => propext (e i)
  rwa [← this]

theorem IsSpan.extend {o : Option LiveRange} {S : Nat → Prop} {i : Nat} (h : IsSpan o S)
    (hS : ∀ j, S j → j ≤ i) : IsSpan (some (extend i o)) fun j => S j ∨ j = i := by
  cases o with
  | none =>
    refine ⟨.inr rfl, .inr rfl, ?_⟩
    rintro j (hj | rfl)
    · exact absurd hj (h j)
    · exact ⟨le_rfl, le_rfl⟩
  | some r =>
    have hr : Spans r S := h
    refine ⟨.inl hr.start, .inr (max_eq_right (hS _ hr.stop)), ?_⟩
    rintro j (hj | rfl)
    · exact ⟨(hr.le j hj).1, le_max_of_le_left (hr.le j hj).2⟩
    · exact ⟨hS _ hr.start, le_max_right _ _⟩

theorem touch_find (i : Nat) (ranges : Table Int LiveRange) (value v : Int) :
    (touch i ranges value).find v =
      if 0 ≤ v ∧ v = value then some (extend i (ranges.find v)) else ranges.find v := by
  unfold touch
  by_cases hneg : value < 0
  · rw [if_pos hneg, if_neg (by omega)]
  · have e : (match ranges.find value with
        | none => ranges.insert value ⟨i, i⟩
        | some r => ranges.insert value { r with stop := max r.stop i }) =
          ranges.insert value (LivenessAnalyzer.extend i (ranges.find value)) := by
      cases ranges.find value <;> rfl
    rw [if_neg hneg, e, Table.find_insert]
    by_cases hv : v = value
    · subst hv
      rw [if_pos rfl, if_pos ⟨by omega, rfl⟩]
    · rw [if_neg hv, if_neg fun h => hv h.2]

/-- The table has for each value the span of its occurrences in `S`. -/
def Describes (ranges : Table Int LiveRange) (S : Int → Nat → Prop) : Prop :=
  ∀ v, IsSpan (ranges.find v) (S v)

theorem Describes.touches {i : Nat} (vs : List Int) {ranges : Table Int LiveRange}
    {S : Int → Nat → Prop} (h : Describes ranges S) (hS : ∀ v j, S v j → j ≤ i) :
    Describes (vs.foldl (touch i) ranges) fun v j => S v j ∨ (0 ≤ v ∧ v ∈ vs ∧ j = i) := by
  induction vs generalizing ranges S with
  | nil => exact fun v => (h v).congr fun j => by simp
  | cons value vs ih =>
    have h' : Describes (touch i ranges value)
        fun v j => S v j ∨ (0 ≤ v ∧ v = value ∧ j = i) := by
      intro v
      rw [touch_find]
      by_cases hv : 0 ≤ v ∧ v = value
      · rw [if_pos hv]
        exact ((h v).extend (hS v)).congr fun j => by
          obtain ⟨h0, rfl⟩ := hv
          simp [h0]
      · rw [if_neg hv]
        exact (h v).congr fun j => by
          constructor
          · exact .inl
          · rintro (hj | ⟨h0, hv', -⟩)
            · exact hj
            · exact absurd ⟨h0, hv'⟩ hv
    refine fun v => (ih h' ?_ v).congr fun j => ?_
    · rintro v j (hj | ⟨-, -, rfl⟩)
      · exact hS v j hj
      · exact le_rfl
    · simp only [List.mem_cons]
      constructor
      · rintro ((hj | ⟨h0, hv, hi⟩) | ⟨h0, hv, hi⟩)
        · exact .inl hj
        · exact .inr ⟨h0, .inl hv, hi⟩
        · exact .inr ⟨h0, .inr hv, hi⟩
      · rintro (hj | ⟨h0, hv | hv, hi⟩)
        · exact .inl (.inl hj)
        · exact .inl (.inr ⟨h0, hv, hi⟩)
        · exact .inr ⟨h0, hv, hi⟩

theorem analyzeFrom_describes (code : List IRInstruction) {i : Nat}
    {ranges : Table Int LiveRange} {S : Int → Nat → Prop} (h : Describes ranges S)
    (hS : ∀ v j, S v j → j < i) :
    Describes (analyzeFrom i ranges code)
      fun v j => S v j ∨ (i ≤ j ∧ Occurs code v (j - i)) := by
  induction code generalizing i ranges S with
  | nil => exact fun v => (h v).congr fun j => by simp [Occurs]
  | cons inst rest ih =>
    have h' := h.touches (i := i) (values inst) fun v j hj => (hS v j hj).le
    refine fun v => (ih h' ?_ v).congr fun j => ?_
    · rintro v j (hj | ⟨-, -, rfl⟩)
      · exact (hS v j hj).trans (Nat.lt_succ_self i)
      · exact Nat.lt_succ_self j
    · constructor
      · rintro ((hj | ⟨h0, hv, rfl⟩) | ⟨hi, h0, inst', hc, hv⟩)
        · exact .inl hj
        · exact .inr ⟨le_rfl, h0, inst, by simp, hv⟩
        · refine .inr ⟨by omega, h0, inst', ?_, hv⟩
          rwa [show j - i = j - (i + 1) + 1 by omega, List.getElem?_cons_succ]
      · rintro (hj | ⟨hi, h0, inst', hc, hv⟩)
        · exact .inl (.inl hj)
        · by_cases e : j = i
          · subst e
            rw [Nat.sub_self, List.getElem?_cons_zero] at hc
            cases hc
            exact .inl (.inr ⟨h0, hv, rfl⟩)
          · refine .inr ⟨by omega, h0, inst', ?_, hv⟩
            rwa [show j - i = j - (i + 1) + 1 by omega, List.getElem?_cons_succ] at hc

/-- The live ranges are the spans from the first to the last occurrence. -/
theorem analyze_spec (function : IRFunction) (v : Int) :
    IsSpan ((analyze function).find v) (Occurs function.instructions v) :=
  (@analyzeFrom_describes function.instructions 0 [] (fun _ _ => False)
    (fun _ _ => id) (fun _ _ h => h.elim) v).congr fun j => by simp

end LivenessAnalyzer

/-! ## Interference -/

namespace InterferenceAnalyzer

/-- The neighbors of `a`; none where the graph has no entry. -/
def neighbors (graph : InterferenceGraph) (a : Int) : Finset Int := (graph.find a).getD ∅

theorem neighbors_entry (graph : InterferenceGraph) (a v : Int) :
    neighbors (entry graph a) v = neighbors graph v := by
  unfold entry neighbors
  split
  · rename_i e
    rw [Table.find_insert]
    by_cases hv : v = a
    · subst hv; simp [e]
    · simp [hv]
  · rfl

theorem neighbors_addNeighbor (graph : InterferenceGraph) (a b v : Int) :
    neighbors (addNeighbor graph a b) v =
      if v = a then Insert.insert b (neighbors graph v) else neighbors graph v := by
  unfold addNeighbor neighbors
  split <;> rename_i e <;> rw [Table.find_insert] <;> by_cases hv : v = a
  · subst hv; simp [e]
  · simp [hv]
  · subst hv; simp [e]
  · simp [hv]

theorem overlap_comm (a b : LiveRange) : overlap a b = overlap b a := Bool.and_comm ..

/-- `v` and `u` are the two ends of an edge that `build` adds for `a` and `b`. -/
def Joins (a b : Int × LiveRange) (v u : Int) : Prop :=
  a.1 < b.1 ∧ overlap a.2 b.2 = true ∧ ((v = a.1 ∧ u = b.1) ∨ (v = b.1 ∧ u = a.1))

theorem mem_neighbors_inner (a : Int × LiveRange) (bs : Table Int LiveRange)
    (graph : InterferenceGraph) (v u : Int) :
    u ∈ neighbors (bs.foldl (fun graph b =>
      if a.1 ≥ b.1 then graph
      else if overlap a.2 b.2 then addNeighbor (addNeighbor graph a.1 b.1) b.1 a.1
      else graph) graph) v ↔ u ∈ neighbors graph v ∨ ∃ b ∈ bs, Joins a b v u := by
  induction bs generalizing graph with
  | nil => simp
  | cons b bs ih =>
    rw [List.foldl_cons, ih]
    have hstep : u ∈ neighbors (if a.1 ≥ b.1 then graph
        else if overlap a.2 b.2 then addNeighbor (addNeighbor graph a.1 b.1) b.1 a.1
        else graph) v ↔ u ∈ neighbors graph v ∨ Joins a b v u := by
      unfold Joins
      by_cases hle : a.1 ≥ b.1
      · rw [if_pos hle]
        simp [not_lt.mpr hle]
      rw [if_neg hle]
      by_cases ho : overlap a.2 b.2 = true
      · rw [if_pos ho, neighbors_addNeighbor, neighbors_addNeighbor]
        have hne : a.1 ≠ b.1 := by omega
        by_cases hb : v = b.1
        · subst hb
          simp [hne.symm, ho, not_le.mp hle, or_comm]
        · by_cases ha : v = a.1
          · subst ha
            simp [hb, ho, not_le.mp hle, or_comm]
          · simp [ha, hb]
      · simp [ho]
    rw [hstep]
    simp only [List.mem_cons, exists_eq_or_imp, or_assoc]

/-- Two values are neighbors exactly where their ranges overlap. -/
theorem build_spec (ranges : Table Int LiveRange) (v u : Int) :
    u ∈ neighbors (build ranges) v ↔
      v ≠ u ∧ ∃ rv ru, (v, rv) ∈ ranges ∧ (u, ru) ∈ ranges ∧ overlap rv ru = true := by
  have outer : ∀ (as : Table Int LiveRange) (graph : InterferenceGraph),
      u ∈ neighbors (as.foldl (fun graph a =>
        ranges.foldl (fun graph b =>
          if a.1 ≥ b.1 then graph
          else if overlap a.2 b.2 then addNeighbor (addNeighbor graph a.1 b.1) b.1 a.1
          else graph) (entry graph a.1)) graph) v ↔
        u ∈ neighbors graph v ∨ ∃ a ∈ as, ∃ b ∈ ranges, Joins a b v u := by
    intro as
    induction as with
    | nil => simp
    | cons a as ih =>
      intro graph
      rw [List.foldl_cons, ih, mem_neighbors_inner, neighbors_entry]
      simp only [List.mem_cons, exists_eq_or_imp, or_assoc]
  rw [build, outer]
  have h0 : u ∉ neighbors [] v := by simp [neighbors]
  constructor
  · rintro (h | ⟨a, ha, b, hb, hlt, ho, ⟨rfl, rfl⟩ | ⟨rfl, rfl⟩⟩)
    · exact absurd h h0
    · exact ⟨hlt.ne, a.2, b.2, ha, hb, ho⟩
    · exact ⟨hlt.ne', b.2, a.2, hb, ha, by rw [overlap_comm]; exact ho⟩
  · rintro ⟨hne, rv, ru, hv, hu, ho⟩
    rcases lt_or_gt_of_ne hne with h | h
    · exact .inr ⟨_, hv, _, hu, h, ho, .inl ⟨rfl, rfl⟩⟩
    · exact .inr ⟨_, hu, _, hv, h, by rw [overlap_comm]; exact ho, .inr ⟨rfl, rfl⟩⟩

/-- A property of the graph that every entry and every edge keeps holds of the result. -/
theorem build_induction {P : InterferenceGraph → Prop} (ranges : Table Int LiveRange) (h0 : P [])
    (he : ∀ graph a, P graph → P (entry graph a))
    (hn : ∀ graph a b, P graph → P (addNeighbor graph a b)) : P (build ranges) := by
  refine List.foldlRecOn ranges _ h0 fun graph h a _ => ?_
  refine List.foldlRecOn ranges _ (he graph a.1 h) fun graph h b _ => ?_
  split
  · exact h
  · split
    · exact hn _ _ _ (hn _ _ _ h)
    · exact h

theorem build_ok (ranges : Table Int LiveRange) : (build ranges).Ok := by
  refine build_induction ranges .nil (fun graph a h => ?_) (fun graph a b h => ?_)
  · unfold entry; split
    · exact h.insert _ _
    · exact h
  · unfold addNeighbor; split <;> exact h.insert _ _

end InterferenceAnalyzer

end Oglang
end Techuila
