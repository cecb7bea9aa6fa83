import Mathlib.Data.Fintype.Card
import Mathlib.Order.WellFounded
import Techuila.Oglang.Mangling
import Techuila.Oglang.ModuleCycles

/-!
# The order of the modules (`compileModules` in `main.cpp`)

* `reverseAdjacency`, `Kahn`: the importers of a module, and the variables of Kahn's algorithm. An
  access outside of a vector is `none`.
* `Counts`: the degrees count the imports that are not processed, each as often as it is written.
* `kahnOrder_spec`: without a cycle the algorithm is `topologicalOrder`, which is a topological sort.
* `compileModules_order`: the two algorithms agree on all modules.
-/

namespace Techuila
namespace Oglang

/-- The modules that import a module, each as often as it does. -/
def reverseAdjacency (adjacency : List (List Nat)) : List (List Nat) :=
  (List.range adjacency.length).foldl (fun reverse i =>
      (adjacency.getD i []).foldl (fun reverse dep => reverse.modify dep (· ++ [i])) reverse)
    (List.replicate adjacency.length [])

structure Kahn where
  inDegree : List Int
  processed : List Bool
  order : List Nat := []

namespace Kahn

/-- The first module that is not processed and has no imports left, or the number of modules. -/
def chosen (s : Kahn) : Nat :=
  ((List.range s.inDegree.length).find? fun i =>
    !s.processed.getD i false && s.inDegree.getD i 0 == 0).getD s.inDegree.length

/-- One round. -/
def round (reverse : List (List Nat)) (s : Kahn) : Option Kahn :=
  if s.chosen < s.processed.length then do
    let dependents ← reverse[s.chosen]?
    some { inDegree := dependents.foldl (fun inDegree d => inDegree.modify d (· - 1)) s.inDegree
           processed := s.processed.set s.chosen true
           order := s.order ++ [s.chosen] }
  else none

end Kahn

def kahnOrder (adjacency : List (List Nat)) : Option (List Nat) := do
  let s ← (List.range adjacency.length).foldlM
    (fun s _ => Kahn.round (reverseAdjacency adjacency) s)
    { inDegree := adjacency.map fun imports => (imports.length : Int)
      processed := List.replicate adjacency.length false }
  some s.order

variable {adjacency : List (List Nat)}

/-! ## The importers -/

/-- The importers of `d` among the first `k` modules. -/
def importersBelow (adjacency : List (List Nat)) (d k : Nat) : List Nat :=
  (List.range k).flatMap fun i => List.replicate ((adjacency.getD i []).count d) i

/-- A change of an entry for each time that its index is listed. -/
theorem foldl_modify {α : Type} (f : α → α) (indices : List Nat) (xs : List α) :
    (indices.foldl (fun xs i => xs.modify i f) xs).length = xs.length ∧
    ∀ i < xs.length, (indices.foldl (fun xs i => xs.modify i f) xs)[i]? =
      xs[i]?.map f^[indices.count i] := by
  induction indices generalizing xs with
  | nil => exact ⟨rfl, fun i hi => by simp⟩
  | cons j indices ih =>
    obtain ⟨hlen, hget⟩ := ih (xs.modify j f)
    rw [List.length_modify] at hlen hget
    refine ⟨hlen, fun i hi => ?_⟩
    rw [List.foldl_cons, hget i hi, List.getElem?_modify, List.getElem?_eq_getElem hi]
    by_cases h : j = i
    · subst h
      simp
    · simp [h]

theorem foldl_importers (i : Nat) (deps : List Nat) (reverse : List (List Nat)) :
    (deps.foldl (fun reverse dep => reverse.modify dep (· ++ [i])) reverse).length = reverse.length ∧
    ∀ d < reverse.length,
      (deps.foldl (fun reverse dep => reverse.modify dep (· ++ [i])) reverse)[d]? =
        reverse[d]?.map (· ++ List.replicate (deps.count d) i) := by
  have hiterate : ∀ n, (fun l : List Nat => l ++ [i])^[n] = (· ++ List.replicate n i) := by
    intro n
    induction n with
    | zero => funext l; simp
    | succ n ih => funext l; simp [ih, List.replicate_succ]
  simpa only [hiterate] using foldl_modify (· ++ [i]) deps reverse

theorem reverseAdjacency_spec (adjacency : List (List Nat)) :
    (reverseAdjacency adjacency).length = adjacency.length ∧ ∀ d < adjacency.length,
      (reverseAdjacency adjacency)[d]? = some (importersBelow adjacency d adjacency.length) := by
  have hloop : ∀ k, ((List.range k).foldl (fun reverse i =>
      (adjacency.getD i []).foldl (fun reverse dep => reverse.modify dep (· ++ [i])) reverse)
      (List.replicate adjacency.length [])).length = adjacency.length ∧ ∀ d < adjacency.length,
      ((List.range k).foldl (fun reverse i =>
        (adjacency.getD i []).foldl (fun reverse dep => reverse.modify dep (· ++ [i])) reverse)
        (List.replicate adjacency.length []))[d]? = some (importersBelow adjacency d k) := by
    intro k
    induction k with
    | zero => exact ⟨List.length_replicate, fun d hd => by simp [hd, importersBelow]⟩
    | succ k ih =>
      obtain ⟨hlen, hget⟩ := ih
      rw [List.range_succ, List.foldl_append, List.foldl_cons, List.foldl_nil]
      obtain ⟨hlen', hget'⟩ := foldl_importers k (adjacency.getD k []) ((List.range k).foldl
        (fun reverse i =>
          (adjacency.getD i []).foldl (fun reverse dep => reverse.modify dep (· ++ [i])) reverse)
        (List.replicate adjacency.length []))
      refine ⟨hlen'.trans hlen, fun d hd => ?_⟩
      rw [hget' d (hlen.symm ▸ hd), hget d hd]
      simp [importersBelow, List.range_succ]
  exact hloop adjacency.length

/-- A module is among the importers as often as it imports. -/
theorem count_importersBelow {d k i : Nat} (hi : i < k) :
    (importersBelow adjacency d k).count i = (adjacency.getD i []).count d := by
  induction k with
  | zero => exact absurd hi (Nat.not_lt_zero i)
  | succ k ih =>
    rw [importersBelow, List.range_succ, List.flatMap_append, List.count_append,
      List.flatMap_singleton, List.count_replicate]
    rcases Nat.lt_succ_iff_lt_or_eq.mp hi with hlt | rfl
    · have hne : (k == i) = false := by
        rw [beq_eq_false_iff_ne]
        omega
      rw [hne]
      exact ih hlt
    · have hnone : ((List.range i).flatMap fun j =>
          List.replicate ((adjacency.getD j []).count d) j).count i = 0 := by
        rw [List.count_eq_zero]
        intro hm
        obtain ⟨j, hj, hm⟩ := List.mem_flatMap.mp hm
        have heq := List.eq_of_mem_replicate hm
        rw [List.mem_range] at hj
        omega
      rw [hnone]
      simp

theorem foldl_decrement (dependents : List Nat) (inDegree : List Int) :
    (dependents.foldl (fun inDegree d => inDegree.modify d (· - 1)) inDegree).length =
      inDegree.length ∧ ∀ i < inDegree.length,
      (dependents.foldl (fun inDegree d => inDegree.modify d (· - 1)) inDegree)[i]? =
        inDegree[i]?.map (· - (dependents.count i : Int)) := by
  have hiterate : ∀ n : Nat, (fun d : Int => d - 1)^[n] = (· - (n : Int)) := by
    intro n
    induction n with
    | zero => funext d; simp
    | succ n ih =>
      funext d
      simp [ih]
      omega
  simpa only [hiterate] using foldl_modify (fun d : Int => d - 1) dependents inDegree

/-! ## Rounds -/

/-- The degrees count the imports that are not in the order. -/
structure Counts (adjacency : List (List Nat)) (s : Kahn) : Prop where
  inDegree_length : s.inDegree.length = adjacency.length
  processed_length : s.processed.length = adjacency.length
  processed : ∀ i < adjacency.length, s.processed[i]? = some (decide (i ∈ s.order))
  inDegree : ∀ i < adjacency.length,
    s.inDegree[i]? = some ((adjacency.getD i []).countP (· ∉ s.order) : Int)

theorem find?_congr {p q : Nat → Bool} {l : List Nat} (h : ∀ i ∈ l, p i = q i) :
    l.find? p = l.find? q := by
  induction l with
  | nil => rfl
  | cons i l ih =>
    obtain ⟨hi, hl⟩ := List.forall_mem_cons.mp h
    rw [List.find?_cons, List.find?_cons, hi, ih hl]

/-- A module is chosen as in `topologicalOrder`. -/
theorem Counts.chosen {s : Kahn} (h : Counts adjacency s) :
    s.chosen = nextModule adjacency s.order := by
  unfold Kahn.chosen nextModule
  rw [h.inDegree_length]
  congr 1
  refine find?_congr fun i hi => ?_
  have hi := List.mem_range.mp hi
  rw [List.getD_eq_getElem?_getD, h.processed i hi, List.getD_eq_getElem?_getD, h.inDegree i hi,
    Option.getD_some, Option.getD_some, List.contains_eq_mem]
  congr 1
  rw [Bool.eq_iff_iff, beq_iff_eq, List.all_eq_true, Int.natCast_eq_zero, List.countP_eq_zero]
  simp

theorem Counts.start (adjacency : List (List Nat)) : Counts adjacency
    { inDegree := adjacency.map fun imports => (imports.length : Int)
      processed := List.replicate adjacency.length false } where
  inDegree_length := List.length_map ..
  processed_length := List.length_replicate
  processed i hi := by simp [hi]
  inDegree i hi := by
    have hall : (adjacency.getD i []).countP (fun j => decide (j ∉ ([] : List Nat))) =
        (adjacency.getD i []).length := List.countP_eq_length.mpr fun j _ => by simp
    rw [hall]
    simp [hi]

/-- One more module in the order leaves fewer imports to count. -/
theorem countP_concat {order : List Nat} {c : Nat} (hc : c ∉ order) (imports : List Nat) :
    imports.countP (· ∉ order ++ [c]) + imports.count c = imports.countP (· ∉ order) := by
  induction imports with
  | nil => rfl
  | cons j imports ih =>
    rw [List.countP_cons, List.countP_cons, List.count_cons]
    by_cases h : j = c
    · subst h
      have hout : decide (j ∉ order ++ [j]) = false := by simp
      simp only [hout, hc, not_false_eq_true, decide_true, beq_self_eq_true, Bool.false_eq_true,
        if_true, if_false]
      omega
    · have hiff : (j ∉ order ++ [c]) ↔ j ∉ order := by simp [h]
      simp only [hiff, beq_eq_false_iff_ne.mpr h, Bool.false_eq_true, if_false]
      omega

/-- A round with a module that is ready puts it into the order. -/
theorem Counts.round {s : Kahn} (h : Counts adjacency s)
    (hready : nextModule adjacency s.order < adjacency.length) :
    ∃ s', s.round (reverseAdjacency adjacency) = some s' ∧ Counts adjacency s' ∧
      s'.order = s.order ++ [nextModule adjacency s.order] := by
  have hnew := nextModule_not_mem hready
  rw [← h.chosen] at hready hnew ⊢
  obtain ⟨-, hreverse⟩ := reverseAdjacency_spec adjacency
  refine ⟨_, by rw [Kahn.round, if_pos (h.processed_length.symm ▸ hready), hreverse _ hready]; rfl,
    ⟨?_, ?_, fun i hi => ?_, fun i hi => ?_⟩, rfl⟩
  · exact (foldl_decrement _ _).1.trans h.inDegree_length
  · exact List.length_set.trans h.processed_length
  · rw [List.getElem?_set, h.processed_length]
    by_cases heq : s.chosen = i
    · subst heq
      simp [hready]
    · rw [if_neg heq, h.processed i hi]
      simp [Ne.symm heq]
  · rw [(foldl_decrement _ _).2 i (h.inDegree_length.symm ▸ hi), h.inDegree i hi,
      count_importersBelow hi, Option.map_some, ← countP_concat hnew]
    simp

/-- As long as modules are ready, the rounds are those of `topologicalOrder`. -/
theorem Counts.rounds {s : Kahn} (h : Counts adjacency s) {l : List Nat}
    (hready : ∀ i ∈ topologicalOrder adjacency l.length s.order, i < adjacency.length) :
    ∃ s', l.foldlM (fun s _ => Kahn.round (reverseAdjacency adjacency) s) s = some s' ∧
      s'.order = topologicalOrder adjacency l.length s.order := by
  induction l generalizing s with
  | nil => exact ⟨s, rfl, rfl⟩
  | cons _ l ih =>
    rw [List.length_cons, topologicalOrder] at hready ⊢
    obtain ⟨more, hmore, -⟩ :=
      topologicalOrder_eq adjacency l.length (s.order ++ [nextModule adjacency s.order])
    have hnext : nextModule adjacency s.order < adjacency.length :=
      hready _ (by rw [hmore]; simp)
    obtain ⟨s₁, hround, h₁, horder⟩ := h.round hnext
    rw [← horder] at hready ⊢
    obtain ⟨s₂, hrest, horder₂⟩ := ih h₁ hready
    refine ⟨s₂, ?_, horder₂⟩
    rw [List.foldlM_cons, hround]
    exact hrest

/-! ## Ready modules -/

/-- Without a cycle, some module that is not in the order has all its imports there. -/
theorem exists_ready (hrange : ∀ i j, ImportEdge adjacency i j → j < adjacency.length)
    (hacyclic : ∀ i, ¬ Relation.TransGen (ImportEdge adjacency) i i) {order : List Nat}
    (hleft : ∃ i < adjacency.length, i ∉ order) :
    ∃ i < adjacency.length, i ∉ order ∧ ∀ j, ImportEdge adjacency i j → j ∈ order := by
  let r : Fin adjacency.length → Fin adjacency.length → Prop := fun j i =>
    Relation.TransGen (ImportEdge adjacency) i j
  have hwf : WellFounded r := by
    have htrans : IsTrans _ r := ⟨fun _ _ _ hij hjk => hjk.trans hij⟩
    have hirrefl : Std.Irrefl r := ⟨fun i => hacyclic i⟩
    exact Finite.wellFounded_of_trans_of_irrefl r
  obtain ⟨i, hi, hnew⟩ := hleft
  obtain ⟨m, hm, hmin⟩ := hwf.has_min {i | (i : Nat) ∉ order} ⟨⟨i, hi⟩, hnew⟩
  refine ⟨m, m.isLt, hm, fun j hj => ?_⟩
  by_contra hout
  exact hmin ⟨j, hrange _ _ hj⟩ hout (.single hj)

/-- The next module is the first that is ready. -/
theorem nextModule_spec {order : List Nat} (hready : ∃ i < adjacency.length, i ∉ order ∧
    ∀ j, ImportEdge adjacency i j → j ∈ order) :
    nextModule adjacency order < adjacency.length ∧
      (∀ j, ImportEdge adjacency (nextModule adjacency order) j → j ∈ order) ∧
      ∀ k < nextModule adjacency order, k ∉ order → ∃ j, ImportEdge adjacency k j ∧ j ∉ order := by
  have htest : ∀ i, (!order.contains i && (adjacency.getD i []).all fun j => order.contains j) = true ↔
      i ∉ order ∧ ∀ j, ImportEdge adjacency i j → j ∈ order := by
    intro i
    simp only [List.contains_eq_mem, Bool.and_eq_true, Bool.not_eq_true', decide_eq_false_iff_not,
      List.all_eq_true, decide_eq_true_eq]
    rfl
  unfold nextModule
  cases hfind : (List.range adjacency.length).find? fun i =>
      !order.contains i && (adjacency.getD i []).all fun j => order.contains j with
  | none =>
    obtain ⟨i, hi, hr⟩ := hready
    exact absurd ((htest i).mpr hr) (List.find?_eq_none.mp hfind i (List.mem_range.mpr hi))
  | some i =>
    obtain ⟨htrue, hi, hfirst⟩ := List.find?_range_eq_some.mp hfind
    refine ⟨List.mem_range.mp hi, ((htest i).mp htrue).2, fun k hk hnew => ?_⟩
    by_contra hall
    have hk' := hfirst k hk
    rw [Bool.not_eq_true', ← Bool.not_eq_true, htest] at hk'
    exact hk' ⟨hnew, fun j hj => by_contra fun hout => hall ⟨j, hj, hout⟩⟩

/-- Each module of a list comes after its imports, as the first that is ready. -/
def Sorted (adjacency : List (List Nat)) (order : List Nat) : Prop :=
  ∀ before i after, order = before ++ i :: after →
    (∀ j, ImportEdge adjacency i j → j ∈ before) ∧
      ∀ k < i, k ∉ before → ∃ j, ImportEdge adjacency k j ∧ j ∉ before

theorem Sorted.concat {order : List Nat} (h : Sorted adjacency order) {i : Nat}
    (hnext : ∀ j, ImportEdge adjacency i j → j ∈ order)
    (hfirst : ∀ k < i, k ∉ order → ∃ j, ImportEdge adjacency k j ∧ j ∉ order) :
    Sorted adjacency (order ++ [i]) := by
  intro before k after heq
  rcases List.eq_nil_or_concat after with rfl | ⟨after, x, rfl⟩
  · obtain ⟨rfl, hk⟩ := List.append_inj' heq rfl
    cases hk
    exact ⟨hnext, hfirst⟩
  · have hsplit : order ++ [i] = (before ++ k :: after) ++ [x] := by simpa using heq
    obtain ⟨rfl, -⟩ := List.append_inj' hsplit rfl
    exact h before k after rfl

/-- Without a cycle `topologicalOrder` is a topological sort of all modules. -/
theorem topologicalOrder_spec (hrange : ∀ i j, ImportEdge adjacency i j → j < adjacency.length)
    (hacyclic : ∀ i, ¬ Relation.TransGen (ImportEdge adjacency) i i) :
    (topologicalOrder adjacency adjacency.length []).Perm (List.range adjacency.length) ∧
      Sorted adjacency (topologicalOrder adjacency adjacency.length []) := by
  have hrun : ∀ (n : Nat) (order : List Nat), order.length + n = adjacency.length → order.Nodup →
      (∀ i ∈ order, i < adjacency.length) → Sorted adjacency order →
      (∀ i ∈ topologicalOrder adjacency n order, i < adjacency.length) ∧
        Sorted adjacency (topologicalOrder adjacency n order) := by
    intro n
    induction n with
    | zero => exact fun order _ _ hin hs => ⟨hin, hs⟩
    | succ n ih =>
      intro order hlen hnodup hin hs
      have hleft : ∃ i < adjacency.length, i ∉ order := by
        by_contra hall
        have hsub : List.range adjacency.length ⊆ order := fun i hi =>
          by_contra fun hout => hall ⟨i, List.mem_range.mp hi, hout⟩
        have hle := (List.nodup_range.subperm hsub).length_le
        rw [List.length_range] at hle
        omega
      obtain ⟨hlt, hnext, hfirst⟩ := nextModule_spec (exists_ready hrange hacyclic hleft)
      refine ih (order ++ [nextModule adjacency order])
        (by rw [List.length_append, List.length_singleton]; omega) ?_ (fun i hi => ?_)
        (hs.concat hnext hfirst)
      · rw [← List.concat_eq_append]
        exact hnodup.concat (nextModule_not_mem hlt)
      · rcases List.mem_append.mp hi with hi | hi
        · exact hin i hi
        · exact List.mem_singleton.mp hi ▸ hlt
  obtain ⟨hin, hs⟩ := hrun adjacency.length [] (Nat.zero_add _) List.nodup_nil
    (fun i hi => absurd hi List.not_mem_nil) fun before i after heq => by simp at heq
  refine ⟨?_, hs⟩
  obtain ⟨more, hmore, hlen⟩ := topologicalOrder_eq adjacency adjacency.length []
  exact ((topologicalOrder_nodup _ List.nodup_nil hin).subperm fun i hi =>
    List.mem_range.mpr (hin i hi)).perm_of_length_le (by simp [hmore, hlen])

/-- Without a cycle a ready module is found in each round. -/
theorem kahnOrder_spec (hrange : ∀ i j, ImportEdge adjacency i j → j < adjacency.length)
    (hacyclic : ∀ i, ¬ Relation.TransGen (ImportEdge adjacency) i i) :
    kahnOrder adjacency = some (topologicalOrder adjacency adjacency.length []) := by
  have hperm := (topologicalOrder_spec hrange hacyclic).1
  obtain ⟨s, hrun, horder⟩ := (Counts.start adjacency).rounds (l := List.range adjacency.length)
    (by
      rw [List.length_range]
      exact fun i hi => List.mem_range.mp (hperm.mem_iff.mp hi))
  rw [List.length_range] at horder
  rw [kahnOrder, hrun, ← horder]
  rfl

/-! ## Imports by name -/

/-- Unit `i` imports the module that unit `j` is. -/
def Imports (units : List ModuleUnit) (i j : Nat) : Prop :=
  ∃ unit unit' imp, units[i]? = some unit ∧ units[j]? = some unit' ∧ imp ∈ unit.program.imports ∧
    unit'.name = imp.moduleName

/-- Distinct names are all entered. -/
theorem indexModules_complete {units : List ModuleUnit} (hnames : (units.map ModuleUnit.name).Nodup)
    {i : Nat} {t : Table String Nat} (hfresh : ∀ unit ∈ units, t.find unit.name = none) :
    ∃ t', indexModules i t units = .ok t' ∧ (∀ (k : Nat) (unit : ModuleUnit), units[k]? = some unit →
      t'.find unit.name = some (i + k)) ∧
      ∀ name, (∀ unit ∈ units, unit.name ≠ name) → t'.find name = t.find name := by
  induction units generalizing i t with
  | nil => exact ⟨t, rfl, (fun k unit hk => by cases hk), fun _ _ => rfl⟩
  | cons unit rest ih =>
    rw [List.map_cons, List.nodup_cons] at hnames
    obtain ⟨hunit, hrest⟩ := List.forall_mem_cons.mp hfresh
    have hne : ∀ u ∈ rest, u.name ≠ unit.name := fun u hu he =>
      hnames.1 (List.mem_map.mpr ⟨u, hu, he⟩)
    obtain ⟨t', hrun, hfind, hother⟩ := ih (i := i + 1) (t := t.insert unit.name i) hnames.2
      fun u hu => by rw [Table.find_insert, if_neg (hne u hu)]; exact hrest u hu
    have hnew : t.contains unit.name = false := Table.not_contains_iff.mpr hunit
    refine ⟨t', by rw [indexModules, hnew, if_neg (by decide), hrun], fun k u hk => ?_, fun name hn => ?_⟩
    · cases k with
      | zero =>
        cases hk
        rw [hother unit.name fun u hu => hne u hu, Table.find_insert, if_pos rfl]
        rfl
      | succ k =>
        rw [hfind k u hk]
        congr 1
        omega
    · obtain ⟨hun, hrest'⟩ := List.forall_mem_cons.mp hn
      rw [hother name hrest', Table.find_insert, if_neg (Ne.symm hun)]

/-- Known imports of other modules are all resolved. -/
theorem resolveImports_complete {t : Table String Nat} {i : Nat} {unitName : String}
    {imports : List ImportDecl}
    (h : ∀ imp ∈ imports, ∃ j, t.find imp.moduleName = some j ∧ j ≠ i) :
    ∃ deps, resolveImports t i unitName imports = .ok deps ∧
      ∀ j, j ∈ deps ↔ ∃ imp ∈ imports, t.find imp.moduleName = some j := by
  induction imports with
  | nil => exact ⟨[], rfl, fun j => by simp⟩
  | cons imp rest ih =>
    obtain ⟨⟨j, hj, hne⟩, hrest⟩ := List.forall_mem_cons.mp h
    obtain ⟨deps, hrun, hmem⟩ := ih hrest
    refine ⟨j :: deps, ?_, fun k => ?_⟩
    · simp only [resolveImports, hj, if_neg hne, hrun]
      rfl
    · rw [List.mem_cons, hmem, List.exists_mem_cons_iff, hj, Option.some_inj, eq_comm]

theorem buildAdjacency_complete {t : Table String Nat} {units : List ModuleUnit} {i : Nat}
    (h : ∀ (k : Nat) (unit : ModuleUnit), units[k]? = some unit → ∀ imp ∈ unit.program.imports,
      ∃ j, t.find imp.moduleName = some j ∧ j ≠ i + k) :
    ∃ adjacency, buildAdjacency t i units = .ok adjacency ∧ adjacency.length = units.length ∧
      ∀ k j, j ∈ adjacency.getD k [] ↔ ∃ unit, units[k]? = some unit ∧
        ∃ imp ∈ unit.program.imports, t.find imp.moduleName = some j := by
  induction units generalizing i with
  | nil => exact ⟨[], rfl, rfl, fun k j => by simp⟩
  | cons unit rest ih =>
    obtain ⟨deps, hdeps, hmem⟩ := @resolveImports_complete t _ unit.name _ (h 0 unit rfl)
    obtain ⟨more, hmore, hlen, hrest⟩ := ih (i := i + 1) fun k u hk imp himp => by
      obtain ⟨j, hj, hne⟩ := h (k + 1) u hk imp himp
      exact ⟨j, hj, by omega⟩
    refine ⟨deps :: more, ?_, by rw [List.length_cons, hlen, List.length_cons], fun k j => ?_⟩
    · rw [buildAdjacency]
      rw [Nat.add_zero] at hdeps
      rw [hdeps, hmore]
      rfl
    · cases k with
      | zero => simpa using hmem j
      | succ k => simpa using hrest k j

/-! ## The main result -/

/-- For distinct modules whose imports are known and of other modules: all accesses are in range; a
circular import is found exactly when the imports have a cycle, and the message shows one; otherwise
the order is a permutation of the modules in which each comes after its imports, as the first one that
is ready. `compileModules` stops with the cycle, or goes on in that order. -/
theorem compileModules_order {units : List ModuleUnit} (hnames : (units.map ModuleUnit.name).Nodup)
    (himports : ∀ unit ∈ units, ∀ imp ∈ unit.program.imports, imp.moduleName ≠ unit.name ∧
      ∃ unit' ∈ units, unit'.name = imp.moduleName) (iter : List Int → List Int) :
    ∃ t adjacency s, indexModules 0 [] units = .ok t ∧ buildAdjacency t 0 units = .ok adjacency ∧
      (∀ i j, ImportEdge adjacency i j ↔ Imports units i j) ∧ findCycle units adjacency = some s ∧
      (s.cycleFound = true ↔ ∃ i, Relation.TransGen (Imports units) i i) ∧
      (s.cycleFound = true → ReportsCycle units adjacency s.cycleMessage ∧
        ∃ e, checkCycles units adjacency = .error e ∧ compileModules iter units = .error e) ∧
      (s.cycleFound = false → checkCycles units adjacency = .ok () ∧
        ∃ order, kahnOrder adjacency = some order ∧
          topologicalOrder adjacency units.length [] = order ∧
          order.Perm (List.range units.length) ∧ Sorted adjacency order) := by
  obtain ⟨t, ht, hfind, -⟩ := indexModules_complete hnames (i := 0) (t := []) fun _ _ => rfl
  obtain ⟨-, -, hfound⟩ := indexModules_spec units ht
  have hindex : ∀ name j, t.find name = some j ↔
      ∃ unit : ModuleUnit, units[j]? = some unit ∧ unit.name = name := by
    intro name j
    constructor
    · intro h
      rcases hfound name j h with h | ⟨k, unit, hk, hn, rfl⟩
      · cases h
      · exact ⟨unit, by rwa [Nat.zero_add], hn⟩
    · rintro ⟨unit, hj, rfl⟩
      rw [hfind j unit hj, Nat.zero_add]
  obtain ⟨adjacency, hadj, hlen, hmem⟩ := @buildAdjacency_complete t units 0 (by
    intro k unit hk imp himp
    obtain ⟨hne, unit', hunit', hname⟩ := himports unit (List.mem_of_getElem? hk) imp himp
    obtain ⟨j, hj⟩ := List.getElem?_of_mem hunit'
    refine ⟨j, (hindex _ _).mpr ⟨unit', hj, hname⟩, fun heq => hne ?_⟩
    rw [heq, Nat.zero_add, hk] at hj
    cases hj
    exact hname.symm)
  have hedge : ∀ i j, ImportEdge adjacency i j ↔ Imports units i j := by
    intro i j
    rw [ImportEdge, hmem]
    constructor
    · rintro ⟨unit, hi, imp, himp, hj⟩
      obtain ⟨unit', hj, hname⟩ := (hindex _ _).mp hj
      exact ⟨unit, unit', imp, hi, hj, himp, hname⟩
    · rintro ⟨unit, unit', imp, hi, hj, himp, hname⟩
      exact ⟨unit, hi, imp, himp, (hindex _ _).mpr ⟨unit', hj, hname⟩⟩
  have hedges : ImportEdge adjacency = Imports units := funext₂ fun i j => propext (hedge i j)
  have hrange : ∀ i j, ImportEdge adjacency i j → j < units.length := by
    intro i j h
    obtain ⟨_, _, _, -, hj, -⟩ := (hedge i j).mp h
    exact (List.getElem?_eq_some_iff.mp hj).1
  obtain ⟨s, hs, hcases⟩ := findCycle_spec hlen hrange
  refine ⟨t, adjacency, s, ht, hadj, hedge, hs, ?_, fun hc => ?_, fun hc => ?_⟩
  · rw [← hedges]
    rcases hcases with ⟨-, hno, hacyclic⟩ | ⟨-, hyes, hreport⟩
    · rw [hno]
      exact ⟨(fun h => by cases h), fun ⟨i, hi⟩ => absurd hi (hacyclic i)⟩
    · exact ⟨fun _ => hreport.transGen, fun _ => hyes⟩
  · rcases hcases with ⟨-, hno, -⟩ | ⟨⟨e, he⟩, -, hreport⟩
    · rw [hno] at hc
      cases hc
    · refine ⟨hreport, e, he, ?_⟩
      rw [compileModules, checkModules, ht]
      simp only [bind, Except.bind, hadj, he]
  · rcases hcases with ⟨hok, -, hacyclic⟩ | ⟨-, hyes, -⟩
    · rw [← hlen] at hrange ⊢
      obtain ⟨hperm, hsorted⟩ := topologicalOrder_spec hrange hacyclic
      exact ⟨hok, _, kahnOrder_spec hrange hacyclic, rfl, hperm, hsorted⟩
    · rw [hyes] at hc
      cases hc

/-- A module that imports another one twice, and a third one that imports both. -/
def importingModules : List ModuleUnit :=
  [moduleUnit "main" ["a", "b"] [], moduleUnit "a" ["b", "b"] [], moduleUnit "b" [] []]

example : kahnOrder [[1, 2], [2, 2], []] = some [2, 1, 0] := by decide

theorem compileModules_order_importing : ∃ t adjacency s,
    indexModules 0 [] importingModules = .ok t ∧ buildAdjacency t 0 importingModules = .ok adjacency ∧
      findCycle importingModules adjacency = some s ∧
      (s.cycleFound = true ↔ ∃ i, Relation.TransGen (Imports importingModules) i i) := by
  obtain ⟨t, adjacency, s, ht, hadj, -, hs, hcycle, -⟩ :=
    @compileModules_order importingModules (by decide) (by decide) id
  exact ⟨t, adjacency, s, ht, hadj, hs, hcycle⟩

/-- Two modules that import each other. -/
example : (findCycle [moduleUnit "main" ["a"] [], moduleUnit "a" ["main"] []] [[1], [0]]).map
    CycleSearch.cycleMessage = some "Circular module import detected: main -> a -> main" := by
  decide

end Oglang
end Techuila
