import Mathlib.Data.List.Nodup
import Mathlib.Logic.Relation

/-!
# Depth-first search

Vertices are numbers, and edges lead to smaller ones. A search goes on from the vertices that it has
not visited, and puts a vertex into the order after its successors.

* `postorder`: the search with a bound on its depth; `none` is a search that is too deep.
* `Inv`: what holds of the visited vertices and of the order while the search is below a vertex.
* `postorder_spec`: the order has what is reachable, each vertex once and after its successors.
-/

namespace Techuila
namespace DepthFirst

def postorder (next : Nat → List Nat) : Nat → Nat → List Nat × List Nat →
    Option (List Nat × List Nat)
  | 0, _, _ => none
  | fuel + 1, n, (visited, order) =>
    if n ∈ visited then some (visited, order)
    else do
      let (visited, order) ← (next n).foldlM (fun s m => postorder next fuel m s) (n :: visited, order)
      some (visited, order ++ [n])

/-- There is a way from one vertex to the other. -/
def Reach (next : Nat → List Nat) : Nat → Nat → Prop :=
  Relation.ReflTransGen fun i j => j ∈ next i

/-- Each vertex of the order is there once, after its successors. -/
structure Sorted (next : Nat → List Nat) (order : List Nat) : Prop where
  nodup : order.Nodup
  after : ∀ before v rest, order = before ++ v :: rest → ∀ m ∈ next v, m ∈ before

/-- The search is below `k`: what it visited there is done. -/
structure Inv (next : Nat → List Nat) (k : Nat) (s : List Nat × List Nat) : Prop where
  sorted : Sorted next s.2
  visited : ∀ v ∈ s.2, v ∈ s.1
  done : ∀ v ∈ s.1, v < k → v ∈ s.2

variable {next : Nat → List Nat}

theorem Reach.cases {n v : Nat} (h : Reach next n v) :
    v = n ∨ ∃ m ∈ next n, Reach next m v := by
  rcases Relation.ReflTransGen.cases_head h with rfl | ⟨m, hm, h⟩
  · exact .inl rfl
  · exact .inr ⟨m, hm, h⟩

theorem Reach.le (hdec : ∀ i, ∀ j ∈ next i, j < i) {n v : Nat} (h : Reach next n v) : v ≤ n := by
  induction h with
  | refl => exact Nat.le_refl n
  | tail _ hm ih => exact Nat.le_trans (Nat.le_of_lt (hdec _ _ hm)) ih

theorem Sorted.mem_of_reach {order : List Nat} (h : Sorted next order) {v w : Nat}
    (hv : v ∈ order) (hw : Reach next v w) : w ∈ order := by
  induction hw with
  | refl => exact hv
  | tail _ hm ih =>
    obtain ⟨before, rest, rfl⟩ := List.append_of_mem ih
    exact List.mem_append_left _ (h.after _ _ _ rfl _ hm)

/-- A vertex whose successors are in the order can be the next. -/
theorem Sorted.concat {order : List Nat} (h : Sorted next order) {n : Nat} (hn : n ∉ order)
    (hnext : ∀ m ∈ next n, m ∈ order) : Sorted next (order ++ [n]) where
  nodup := by
    rw [← List.concat_eq_append]
    exact h.nodup.concat hn
  after before v rest heq := by
    rcases List.eq_nil_or_concat rest with rfl | ⟨rest, x, rfl⟩
    · obtain ⟨rfl, hv⟩ := List.append_inj' heq rfl
      cases hv
      exact hnext
    · have hsplit : order ++ [n] = (before ++ v :: rest) ++ [x] := by simpa using heq
      obtain ⟨rfl, -⟩ := List.append_inj' hsplit rfl
      exact h.after _ _ _ rfl

/-- What searches from some vertices do: they visit what is reachable, and put it into the order. -/
structure Searched (next : Nat → List Nat) (starts : List Nat) (s s' : List Nat × List Nat) :
    Prop where
  visited : ∀ v, v ∈ s'.1 ↔ v ∈ s.1 ∨ ∃ m ∈ starts, Reach next m v
  order : ∀ v, v ∈ s'.2 ↔ v ∈ s.2 ∨ ∃ m ∈ starts, Reach next m v
  inv : ∀ k, (∀ m ∈ starts, m < k) → Inv next k s → Inv next k s'

theorem Searched.nil (s : List Nat × List Nat) : Searched next [] s s where
  visited v := by simp
  order v := by simp
  inv _ _ h := h

theorem Searched.cons {m : Nat} {ms : List Nat} {s s₁ s₂ : List Nat × List Nat}
    (h₁ : Searched next [m] s s₁) (h₂ : Searched next ms s₁ s₂) : Searched next (m :: ms) s s₂ where
  visited v := by
    rw [h₂.visited, h₁.visited, or_assoc]
    simp only [List.mem_cons, List.not_mem_nil, or_false, or_and_right, exists_or, exists_eq_left]
  order v := by
    rw [h₂.order, h₁.order, or_assoc]
    simp only [List.mem_cons, List.not_mem_nil, or_false, or_and_right, exists_or, exists_eq_left]
  inv k hk h := by
    obtain ⟨hm, hms⟩ := List.forall_mem_cons.mp hk
    exact h₂.inv k hms (h₁.inv k (List.forall_mem_singleton.mpr hm) h)

theorem Inv.mono {k j : Nat} {s : List Nat × List Nat} (h : Inv next k s) (hj : j ≤ k) :
    Inv next j s :=
  ⟨h.sorted, h.visited, fun v hv hlt => h.done v hv (Nat.lt_of_lt_of_le hlt hj)⟩

/-- A vertex that was visited is done, and so is what is reachable from it. -/
theorem Searched.visited_already {n : Nat} {s : List Nat × List Nat} (hs : Inv next (n + 1) s)
    (hn : n ∈ s.1) : Searched next [n] s s := by
  have horder : ∀ v, Reach next n v → v ∈ s.2 := fun v hv =>
    hs.sorted.mem_of_reach (hs.done n hn (Nat.lt_succ_self n)) hv
  refine ⟨fun v => ⟨.inl, ?_⟩, fun v => ⟨.inl, ?_⟩, fun _ _ h => h⟩
  · rintro (hv | ⟨m, hm, hv⟩)
    · exact hv
    · exact hs.visited v (horder v (List.mem_singleton.mp hm ▸ hv))
  · rintro (hv | ⟨m, hm, hv⟩)
    · exact hv
    · exact horder v (List.mem_singleton.mp hm ▸ hv)

/-- A vertex is put into the order after the searches from its successors. -/
theorem Searched.leave (hdec : ∀ i, ∀ j ∈ next i, j < i) {n : Nat} {visited order : List Nat}
    (hs : Inv next (n + 1) (visited, order)) (hn : n ∉ visited) {visited' order' : List Nat}
    (h : Searched next (next n) (n :: visited, order) (visited', order')) :
    Searched next [n] (visited, order) (visited', order' ++ [n]) := by
  have hreach : ∀ v, (∃ m ∈ [n], Reach next m v) ↔ v = n ∨ ∃ m ∈ next n, Reach next m v := by
    intro v
    simp only [List.mem_singleton, exists_eq_left]
    refine ⟨Reach.cases, ?_⟩
    rintro (rfl | ⟨m, hm, hv⟩)
    · exact .refl
    · exact .head hm hv
  have hvisited : ∀ v, v ∈ visited' ↔ v ∈ visited ∨ ∃ m ∈ [n], Reach next m v := by
    intro v
    rw [hreach, h.visited, List.mem_cons, or_assoc, or_left_comm]
  have horder : ∀ v, v ∈ order' ++ [n] ↔ v ∈ order ∨ ∃ m ∈ [n], Reach next m v := by
    intro v
    rw [hreach, List.mem_append, h.order, List.mem_singleton, or_assoc, or_comm (b := v = n)]
  have hinv : Inv next n (n :: visited, order) :=
    ⟨hs.sorted, fun v hv => List.mem_cons_of_mem _ (hs.visited v hv), fun v hv hlt =>
      hs.done v ((List.mem_cons.mp hv).resolve_left (Nat.ne_of_lt hlt)) (Nat.lt_succ_of_lt hlt)⟩
  have hnew : n ∉ order' := by
    rw [h.order]
    rintro (hold | ⟨m, hm, hv⟩)
    · exact hn (hs.visited n hold)
    · exact absurd (hv.le hdec) (Nat.not_le_of_lt (hdec n m hm))
  have hsorted : Sorted next (order' ++ [n]) :=
    (h.inv n (hdec n) hinv).sorted.concat hnew fun m hm => (h.order m).mpr (.inr ⟨m, hm, .refl⟩)
  refine ⟨hvisited, horder, fun k hk hik => ⟨hsorted, fun v hv => ?_, fun v hv hlt => ?_⟩⟩
  · rw [horder] at hv
    exact (hvisited v).mpr (hv.imp_left (hs.visited v))
  · rw [hvisited] at hv
    exact (horder v).mpr (hv.imp_left fun hv => hik.done v hv hlt)

theorem postorder_searched (hdec : ∀ i, ∀ j ∈ next i, j < i) {fuel n : Nat} (hfuel : n < fuel)
    {s : List Nat × List Nat} (hs : Inv next (n + 1) s) :
    ∃ s', postorder next fuel n s = some s' ∧ Searched next [n] s s' := by
  induction fuel generalizing n s with
  | zero => exact absurd hfuel (Nat.not_lt_zero n)
  | succ fuel ih =>
    -- the searches from the successors, one after the other
    have hfold : ∀ (ms : List Nat) (s : List Nat × List Nat), (∀ m ∈ ms, m < n) → Inv next n s →
        ∃ s', ms.foldlM (fun s m => postorder next fuel m s) s = some s' ∧
          Searched next ms s s' := by
      intro ms
      induction ms with
      | nil => exact fun s _ _ => ⟨s, rfl, .nil s⟩
      | cons m ms ihms =>
        intro s hlt hinv
        obtain ⟨hm, hms⟩ := List.forall_mem_cons.mp hlt
        obtain ⟨s₁, h₁, hs₁⟩ := ih (n := m) (by omega) (hinv.mono hm)
        obtain ⟨s₂, h₂, hs₂⟩ := ihms s₁ hms (hs₁.inv n (List.forall_mem_singleton.mpr hm) hinv)
        refine ⟨s₂, ?_, hs₁.cons hs₂⟩
        rw [List.foldlM_cons, h₁]
        exact h₂
    obtain ⟨visited, order⟩ := s
    unfold postorder
    by_cases hn : n ∈ visited
    · exact ⟨_, if_pos hn, .visited_already hs hn⟩
    · have hinv : Inv next n (n :: visited, order) :=
        ⟨hs.sorted, fun v hv => List.mem_cons_of_mem _ (hs.visited v hv), fun v hv hlt =>
          hs.done v ((List.mem_cons.mp hv).resolve_left (Nat.ne_of_lt hlt)) (Nat.lt_succ_of_lt hlt)⟩
      obtain ⟨⟨visited', order'⟩, hrun, hsearched⟩ := hfold _ _ (hdec n) hinv
      refine ⟨(visited', order' ++ [n]), ?_, hsearched.leave hdec hs hn⟩
      rw [if_neg hn, hrun]
      rfl

/-- The order has what is reachable, each vertex once and after its successors. -/
theorem postorder_spec (hdec : ∀ i, ∀ j ∈ next i, j < i) {fuel n : Nat} (hfuel : n < fuel) :
    ∃ visited order, postorder next fuel n ([], []) = some (visited, order) ∧ Sorted next order ∧
      ∀ v, v ∈ order ↔ Reach next n v := by
  have hs : Inv next (n + 1) ([], []) :=
    ⟨⟨List.nodup_nil, fun before v rest h => by simp at h⟩, fun v h => absurd h List.not_mem_nil,
      fun v h => absurd h List.not_mem_nil⟩
  obtain ⟨⟨visited, order⟩, hrun, hsearched⟩ := postorder_searched hdec hfuel hs
  refine ⟨visited, order, hrun,
    (hsearched.inv (n + 1) (List.forall_mem_singleton.mpr (Nat.lt_succ_self n)) hs).sorted,
    fun v => ?_⟩
  simpa using hsearched.order v

end DepthFirst
end Techuila
