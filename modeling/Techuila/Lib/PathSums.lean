import Mathlib.Algebra.BigOperators.Fin
import Mathlib.Algebra.BigOperators.Intervals
import Mathlib.Algebra.BigOperators.Ring.List
import Mathlib.Tactic.Ring
import Techuila.Lib.DepthFirst

/-!
# Sums over paths

Edges lead to smaller vertices, and have weights in a commutative ring. Two edges can join the same
vertices.

* `paths`: the weights along each path of a length. `pathSum`: the sum over all paths of the products
  of their weights.
* `pathSum_eq`: by the first edge.
* `spread`, `accumulate`: each vertex passes its value on along its edges, in the reverse of an order.
* `accumulate_spec`: from one at the root, each vertex gets its path sum.
-/

namespace Techuila
namespace PathSums

variable {R : Type} [CommRing R]

/-- The weights along each path of length `k`. -/
def paths (edges : Nat → List (Nat × R)) : Nat → Nat → Nat → List (List R)
  | 0, i, t => if i = t then [[]] else []
  | k + 1, i, t => (edges i).flatMap fun e => (paths edges k e.1 t).map (e.2 :: ·)

/-- The sum over all paths. From `i` no path is longer than `i`. -/
def pathSum (edges : Nat → List (Nat × R)) (i t : Nat) : R :=
  ((List.range (i + 1)).map fun k => ((paths edges k i t).map List.prod).sum).sum

/-- The vertices that edges lead to. -/
def targets (edges : Nat → List (Nat × R)) (i : Nat) : List Nat := (edges i).map Prod.fst

variable {edges : Nat → List (Nat × R)}

omit [CommRing R] in
/-- A path that is longer than its start is large does not exist. -/
theorem paths_eq_nil (hdec : ∀ i, ∀ j ∈ targets edges i, j < i) {k i : Nat} (h : i < k) (t : Nat) :
    paths edges k i t = [] := by
  induction k generalizing i with
  | zero => exact absurd h (Nat.not_lt_zero i)
  | succ k ih =>
    rw [paths, List.flatMap_eq_nil_iff]
    intro e he
    have hlt := hdec i e.1 (List.mem_map_of_mem he)
    rw [ih (by omega), List.map_nil]

/-- The sum may go over more lengths. -/
theorem pathSum_range (hdec : ∀ i, ∀ j ∈ targets edges i, j < i) {n i : Nat} (h : i < n) (t : Nat) :
    ((List.range n).map fun k => ((paths edges k i t).map List.prod).sum).sum =
      pathSum edges i t := by
  induction n, h using Nat.le_induction with
  | base => rfl
  | succ n hn ih =>
    rw [List.range_succ, List.map_append, List.sum_append, ih, List.map_singleton, List.sum_singleton,
      paths_eq_nil hdec hn, List.map_nil, List.sum_nil, add_zero]

theorem sum_paths_succ (k i t : Nat) : ((paths edges (k + 1) i t).map List.prod).sum =
    ((edges i).map fun e => e.2 * ((paths edges k e.1 t).map List.prod).sum).sum := by
  rw [paths]
  generalize edges i = es
  induction es with
  | nil => rfl
  | cons e es ih =>
    rw [List.flatMap_cons, List.map_append, List.sum_append, ih, List.map_cons, List.sum_cons,
      ← List.sum_map_mul_left, List.map_map]
    rfl

/-- A path is empty, or goes on after its first edge. -/
theorem pathSum_eq (hdec : ∀ i, ∀ j ∈ targets edges i, j < i) (i t : Nat) : pathSum edges i t =
    (if i = t then 1 else 0) + ((edges i).map fun e => e.2 * pathSum edges e.1 t).sum := by
  have hfirst : ((paths edges 0 i t).map List.prod).sum = (if i = t then 1 else 0 : R) := by
    rw [paths]
    split <;> simp
  have hswap : ∀ (l : List Nat) (es : List (Nat × R)) (f : Nat → Nat × R → R),
      (l.map fun k => (es.map (f k)).sum).sum = (es.map fun e => (l.map fun k => f k e).sum).sum := by
    intro l es f
    induction l with
    | nil => simp
    | cons k l ih => simp only [List.map_cons, List.sum_cons, ih, List.sum_map_add]
  rw [pathSum, List.range_succ_eq_map, List.map_cons, List.sum_cons, List.map_map, hfirst]
  congr 1
  simp only [Function.comp_def, Nat.succ_eq_add_one, sum_paths_succ]
  rw [hswap]
  refine congrArg List.sum (List.map_congr_left fun e he => ?_)
  have hlt := hdec i e.1 (List.mem_map_of_mem he)
  rw [List.sum_map_mul_left, pathSum_range hdec hlt]

/-- No path leads to a vertex that is not reachable. -/
theorem pathSum_unreachable (hdec : ∀ i, ∀ j ∈ targets edges i, j < i) {i t : Nat}
    (h : ¬ DepthFirst.Reach (targets edges) i t) : pathSum edges i t = 0 := by
  induction i using Nat.strong_induction_on with
  | _ i ih =>
    have hne : i ≠ t := fun heq => h (heq ▸ .refl)
    rw [pathSum_eq hdec, if_neg hne, zero_add]
    refine List.sum_eq_zero fun x hx => ?_
    obtain ⟨e, he, rfl⟩ := List.mem_map.mp hx
    have hmem : e.1 ∈ targets edges i := List.mem_map_of_mem he
    rw [ih e.1 (hdec i e.1 hmem) fun hreach => h (.head hmem hreach), mul_zero]

theorem pathSum_self (hdec : ∀ i, ∀ j ∈ targets edges i, j < i) (i : Nat) :
    pathSum edges i i = 1 := by
  rw [pathSum_eq hdec, if_pos rfl, List.sum_eq_zero, add_zero]
  intro x hx
  obtain ⟨e, he, rfl⟩ := List.mem_map.mp hx
  have hmem : e.1 ∈ targets edges i := List.mem_map_of_mem he
  rw [pathSum_unreachable hdec, mul_zero]
  exact fun hreach => absurd (hreach.le hdec) (Nat.not_le_of_lt (hdec i e.1 hmem))

/-! ## Passing values on -/

/-- The value `a` goes along some edges. -/
def spread (es : List (Nat × R)) (a : R) (value : Nat → R) : Nat → R :=
  es.foldl (fun value e => Function.update value e.1 (value e.1 + e.2 * a)) value

/-- The vertices of an order pass their values on, the last one first. -/
def accumulate (edges : Nat → List (Nat × R)) (order : List Nat) (value : Nat → R) : Nat → R :=
  order.foldr (fun i value => spread (edges i) (value i) value) value

theorem spread_of_notMem {es : List (Nat × R)} {v : Nat} (h : v ∉ es.map Prod.fst) (a : R)
    (value : Nat → R) : spread es a value v = value v := by
  induction es generalizing value with
  | nil => rfl
  | cons e es ih =>
    rw [List.map_cons, List.mem_cons, not_or] at h
    rw [spread, List.foldl_cons]
    exact (ih h.2 _).trans (Function.update_of_ne h.1 _ _)

/-- What is passed on is added to a weighted sum over vertices that have the targets. -/
theorem sum_spread {es : List (Nat × R)} {l : List Nat} (hl : l.Nodup)
    (hes : ∀ v ∈ es.map Prod.fst, v ∈ l) (a : R) (value f : Nat → R) :
    (l.map fun v => spread es a value v * f v).sum =
      (l.map fun v => value v * f v).sum + (es.map fun e => a * (e.2 * f e.1)).sum := by
  have hupdate : ∀ (l : List Nat), l.Nodup → ∀ (value : Nat → R) (e : Nat × R), e.1 ∈ l →
      (l.map fun v => Function.update value e.1 (value e.1 + e.2 * a) v * f v).sum =
        (l.map fun v => value v * f v).sum + a * (e.2 * f e.1) := by
    intro l hl value e
    induction l with
    | nil => exact fun he => absurd he List.not_mem_nil
    | cons v l ih =>
      intro he
      obtain ⟨hv, hl⟩ := List.nodup_cons.mp hl
      rw [List.map_cons, List.sum_cons, List.map_cons, List.sum_cons]
      rcases List.mem_cons.mp he with rfl | he
      · have hrest : (l.map fun v => Function.update value e.1 (value e.1 + e.2 * a) v * f v) =
            l.map fun v => value v * f v := List.map_congr_left fun w hw => by
          rw [Function.update_of_ne fun h : w = e.1 => hv (h ▸ hw)]
        rw [hrest, Function.update_self]
        ring
      · rw [ih hl he, Function.update_of_ne fun h : v = e.1 => hv (h ▸ he)]
        ring
  induction es generalizing value with
  | nil => simp [spread]
  | cons e es ih =>
    rw [List.map_cons] at hes
    obtain ⟨he, hes⟩ := List.forall_mem_cons.mp hes
    rw [spread, List.foldl_cons, List.map_cons, List.sum_cons, ← add_assoc, ← hupdate l hl value e he]
    exact ih hes _

/-- Where the values of an order, weighted by the path sums, are the path sums of the root, passing
them on leaves each vertex of the order with its path sum, and the others with their values. -/
theorem accumulate_sorted (hdec : ∀ i, ∀ j ∈ targets edges i, j < i) {order : List Nat}
    (hsorted : DepthFirst.Sorted (targets edges) order) {root : Nat} {value : Nat → R}
    (h : ∀ t ∈ order,
      (order.map fun v => value v * pathSum edges v t).sum = pathSum edges root t) :
    (∀ t ∈ order, accumulate edges order value t = pathSum edges root t) ∧
      ∀ t ∉ order, accumulate edges order value t = value t := by
  induction order using List.reverseRecOn generalizing value with
  | nil => exact ⟨fun t ht => absurd ht List.not_mem_nil, fun _ _ => rfl⟩
  | append_singleton order u ih =>
    have hu : u ∉ order := by
      have hnodup := hsorted.nodup
      rw [List.nodup_append] at hnodup
      exact fun hm => hnodup.2.2 u hm u List.mem_cons_self rfl
    have hnext : ∀ m ∈ targets edges u, m ∈ order := hsorted.after order u [] rfl
    have hpre : DepthFirst.Sorted (targets edges) order :=
      ⟨(List.nodup_append.mp hsorted.nodup).1, fun before v rest heq =>
        hsorted.after before v (rest ++ [u]) (by rw [heq]; simp)⟩
    -- nothing before `u` leads to it, so its value is complete
    have hdone : value u = pathSum edges root u := by
      rw [← h u (List.mem_append_right _ List.mem_cons_self), List.map_append, List.sum_append,
        List.map_singleton, List.sum_singleton, pathSum_self hdec, mul_one, List.sum_eq_zero, zero_add]
      intro x hx
      obtain ⟨v, hv, rfl⟩ := List.mem_map.mp hx
      rw [pathSum_unreachable hdec fun hreach => hu (hpre.mem_of_reach hv hreach), mul_zero]
    have hkeep : ∀ t, t ∉ order → spread (edges u) (value u) value t = value t := fun t ht =>
      spread_of_notMem (fun hm => ht (hnext t hm)) _ _
    obtain ⟨hin, hout⟩ := @ih hpre (spread (edges u) (value u) value) fun t ht => by
      have hne : u ≠ t := fun heq => hu (heq ▸ ht)
      rw [sum_spread hpre.nodup hnext, ← h t (List.mem_append_left _ ht), List.map_append,
        List.sum_append, List.map_singleton, List.sum_singleton, pathSum_eq hdec u t, if_neg hne,
        zero_add, ← List.sum_map_mul_left]
    have hrun : accumulate edges (order ++ [u]) value =
        accumulate edges order (spread (edges u) (value u) value) := by
      rw [accumulate, List.foldr_append]
      rfl
    rw [hrun]
    refine ⟨fun t ht => ?_, fun t ht => ?_⟩
    · rcases List.mem_append.mp ht with ht | ht
      · exact hin t ht
      · rw [List.mem_singleton.mp ht, hout u hu, hkeep u hu, hdone]
    · have ht : t ∉ order := fun hm => ht (List.mem_append_left _ hm)
      rw [hout t ht, hkeep t ht]

/-- From one at the root and zero elsewhere, each vertex gets its path sum. -/
theorem accumulate_spec (hdec : ∀ i, ∀ j ∈ targets edges i, j < i) {order : List Nat}
    (hsorted : DepthFirst.Sorted (targets edges) order) {root : Nat} (hroot : root ∈ order)
    {value : Nat → R} (hvalue : ∀ v ∈ order, value v = if v = root then 1 else 0) :
    (∀ t ∈ order, accumulate edges order value t = pathSum edges root t) ∧
      ∀ t ∉ order, accumulate edges order value t = value t := by
  refine accumulate_sorted hdec hsorted fun t _ => ?_
  obtain ⟨before, rest, rfl⟩ := List.append_of_mem hroot
  have hnodup := hsorted.nodup
  rw [List.nodup_append, List.nodup_cons] at hnodup
  have hzero : ∀ l : List Nat, root ∉ l → (∀ v ∈ l, value v = if v = root then 1 else 0) →
      (l.map fun v => value v * pathSum edges v t).sum = 0 := by
    intro l hl hv
    refine List.sum_eq_zero fun x hx => ?_
    obtain ⟨v, hvl, rfl⟩ := List.mem_map.mp hx
    rw [hv v hvl, if_neg fun heq : v = root => hl (heq ▸ hvl), zero_mul]
  rw [List.map_append, List.sum_append, List.map_cons, List.sum_cons,
    hzero before (fun hm => hnodup.2.2 root hm root List.mem_cons_self rfl)
      fun v hv => hvalue v (List.mem_append_left _ hv),
    hzero rest hnodup.2.1.1
      fun v hv => hvalue v (List.mem_append_right _ (List.mem_cons_of_mem _ hv)),
    hvalue root hroot, if_pos rfl, zero_add, add_zero, one_mul]

end PathSums
end Techuila
