import Mathlib.Algebra.Polynomial.Derivative
import Techuila.Autodiff.Value
import Techuila.Lib.PathSums

/-!
# Reverse-mode differentiation (`Value::backward`)

* `edges`: the local derivatives, by operand. `formal`: a node as a polynomial in another one.
* `WellFormed`: nodes come after their operands, and hold what their operators say.
* `callBackwardFn_spec`: a node passes its gradient on along its edges.
* `backward_exact`: gradients are the formal partial derivatives.
-/

namespace Techuila
namespace Autodiff

variable {R : Type} [CommRing R]

/-- A node without its gradient. -/
def Node.shape (node : Node R) : R × BackwardFn × List Nat :=
  (node.data, node.backwardFn, node.parents)

namespace Graph

def data (g : Graph R) (i : Nat) : R := (g[i]?.map Node.data).getD 0

def grad (g : Graph R) (i : Nat) : R := (g[i]?.map Node.grad).getD 0

def parentsOf (g : Graph R) (i : Nat) : List Nat := (g[i]?.map Node.parents).getD []

/-- The operands of a node with the derivatives by them. -/
def edges (g : Graph R) (i : Nat) : List (Nat × R) :=
  match g[i]? with
  | none => []
  | some node =>
    match node.backwardFn with
    | .nothing => []
    | .add self rhs => [(self, 1), (rhs, 1)]
    | .neg self => [(self, -1)]
    | .mul self rhs => [(self, g.data rhs), (rhs, g.data self)]

/-- The graphs differ in gradients only. -/
def SameShape (g g' : Graph R) : Prop := g'.map Node.shape = g.map Node.shape

/-- The node is after its operands, and its operator gives its data. -/
def NodeOk (g : Graph R) (i : Nat) (node : Node R) : Prop :=
  match node.backwardFn with
  | .nothing => node.parents = []
  | .add self rhs => self < i ∧ rhs < i ∧ node.parents = [self, rhs] ∧
      node.data = g.data self + g.data rhs
  | .neg self => self < i ∧ node.parents = [self] ∧ node.data = -g.data self
  | .mul self rhs => self < i ∧ rhs < i ∧ node.parents = [self, rhs] ∧
      node.data = g.data self * g.data rhs

def WellFormed (g : Graph R) : Prop := ∀ i node, g[i]? = some node → g.NodeOk i node

variable {g g' g'' : Graph R}

/-! ## Shapes -/

omit [CommRing R] in
theorem SameShape.length (h : SameShape g g') : g'.length = g.length := by
  have hlen := congrArg List.length h
  rwa [List.length_map, List.length_map] at hlen

omit [CommRing R] in
theorem SameShape.trans (h : SameShape g g') (h' : SameShape g' g'') : SameShape g g'' :=
  Eq.trans h' h

omit [CommRing R] in
theorem SameShape.getElem? (h : SameShape g g') (i : Nat) :
    g'[i]?.map Node.shape = g[i]?.map Node.shape := by
  rw [← List.getElem?_map, ← List.getElem?_map, h]

omit [CommRing R] in
/-- A node is there in both graphs, with one shape. -/
theorem SameShape.node (h : SameShape g g') {i : Nat} {node : Node R} (hn : g[i]? = some node) :
    ∃ node', g'[i]? = some node' ∧ node'.data = node.data ∧ node'.backwardFn = node.backwardFn ∧
      node'.parents = node.parents := by
  have hi := h.getElem? i
  rw [hn, Option.map_some, Option.map_eq_some_iff] at hi
  obtain ⟨node', hn', hs⟩ := hi
  simp only [Node.shape, Prod.mk.injEq] at hs
  exact ⟨node', hn', hs⟩

theorem SameShape.data (h : SameShape g g') : g'.data = g.data := by
  funext i
  have hi := congrArg (Option.map Prod.fst) (h.getElem? i)
  rw [Option.map_map, Option.map_map] at hi
  exact congrArg (Option.getD · 0) hi

omit [CommRing R] in
theorem SameShape.symm (h : SameShape g g') : SameShape g' g := Eq.symm h

theorem SameShape.edges (h : SameShape g g') : g'.edges = g.edges := by
  funext i
  unfold Graph.edges
  cases hn : g[i]? with
  | none =>
    have hi := h.getElem? i
    rw [hn, Option.map_none, Option.map_eq_none_iff] at hi
    rw [hi]
  | some node =>
    obtain ⟨node', hn', -, hfn, -⟩ := h.node hn
    simp only [hn', hfn, h.data]

theorem SameShape.wellFormed (h : SameShape g g') (hg : g.WellFormed) : g'.WellFormed := by
  intro i node' hn'
  obtain ⟨node, hn, hdata, hfn, hparents⟩ := h.symm.node hn'
  have hok := hg i node hn
  unfold NodeOk at hok ⊢
  rw [h.data, ← hfn, ← hdata, ← hparents]
  exact hok

/-! ## Well-formed graphs -/

omit [CommRing R] in
theorem exists_node {i : Nat} (hi : i < g.length) : ∃ node, g[i]? = some node :=
  ⟨_, List.getElem?_eq_getElem hi⟩

/-- The edges lead to the parents. -/
theorem WellFormed.targets (hg : g.WellFormed) : PathSums.targets g.edges = g.parentsOf := by
  funext i
  unfold PathSums.targets edges parentsOf
  cases hn : g[i]? with
  | none => rfl
  | some node =>
    have hok := hg i node hn
    unfold NodeOk at hok
    cases hfn : node.backwardFn <;> simp only [hfn] at hok
    · simp [hfn, hok]
    · simp [hfn, hok.2.2.1]
    · simp [hfn, hok.2.1]
    · simp [hfn, hok.2.2.1]

theorem WellFormed.parent_lt (hg : g.WellFormed) : ∀ i, ∀ j ∈ g.parentsOf i, j < i := by
  intro i j hj
  unfold parentsOf at hj
  cases hn : g[i]? with
  | none => simp [hn] at hj
  | some node =>
    have hok := hg i node hn
    unfold NodeOk at hok
    rw [hn, Option.map_some, Option.getD_some] at hj
    cases hfn : node.backwardFn <;> simp only [hfn] at hok
    · simp [hok] at hj
    · rw [hok.2.2.1] at hj
      rcases List.mem_pair.mp hj with rfl | rfl
      · exact hok.1
      · exact hok.2.1
    · rw [hok.2.1] at hj
      exact List.mem_singleton.mp hj ▸ hok.1
    · rw [hok.2.2.1] at hj
      rcases List.mem_pair.mp hj with rfl | rfl
      · exact hok.1
      · exact hok.2.1

theorem WellFormed.target_lt (hg : g.WellFormed) : ∀ i, ∀ j ∈ PathSums.targets g.edges i, j < i :=
  hg.targets ▸ hg.parent_lt

theorem data_append {i : Nat} (hi : i < g.length) (node : Node R) :
    (g ++ [node]).data i = g.data i := by
  rw [data, data, List.getElem?_append_left hi]

/-- A node on top of a graph. -/
theorem WellFormed.append (hg : g.WellFormed) {node : Node R} (hnode : g.NodeOk g.length node) :
    (g ++ [node]).WellFormed := by
  have hlift : ∀ {i : Nat} {node' : Node R}, i ≤ g.length → g.NodeOk i node' →
      (g ++ [node]).NodeOk i node' := by
    intro i node' hi hok
    unfold NodeOk at hok ⊢
    cases hfn : node'.backwardFn <;> simp only [hfn] at hok ⊢
    · exact hok
    · rw [data_append (by omega), data_append (by omega)]
      exact hok
    · rw [data_append (by omega)]
      exact hok
    · rw [data_append (by omega), data_append (by omega)]
      exact hok
  intro i node' hn'
  by_cases hi : i < g.length
  · rw [List.getElem?_append_left hi] at hn'
    exact hlift (Nat.le_of_lt hi) (hg i node' hn')
  · have hlen := (List.getElem?_eq_some_iff.mp hn').1
    rw [List.length_append, List.length_singleton] at hlen
    obtain rfl : i = g.length := by omega
    rw [List.getElem?_concat_length] at hn'
    cases hn'
    exact hlift (Nat.le_refl _) hnode

/-! ## Gradients -/

theorem grad_eq {i : Nat} {node : Node R} (h : g[i]? = some node) : g.grad i = node.grad := by
  rw [grad, h]
  rfl

theorem data_eq {i : Nat} {node : Node R} (h : g[i]? = some node) : g.data i = node.data := by
  rw [data, h]
  rfl

omit [CommRing R] in
/-- A node whose gradient is set. -/
theorem set_shape {n : Nat} {node : Node R} (hn : g[n]? = some node) (a : R) :
    SameShape g (g.set n { node with grad := a }) := by
  refine List.ext_getElem? fun i => ?_
  rw [List.getElem?_map, List.getElem?_map, List.getElem?_set]
  split
  · rename_i hi
    subst hi
    split
    · rw [hn]
      rfl
    · rename_i hlt
      rw [List.getElem?_eq_none (by omega)] at hn
      cases hn
  · rfl

theorem set_grad {n : Nat} {node : Node R} (hn : g[n]? = some node) (a : R) :
    grad (g.set n { node with grad := a }) = Function.update g.grad n a := by
  obtain ⟨hlt, -⟩ := List.getElem?_eq_some_iff.mp hn
  funext i
  unfold grad
  rw [List.getElem?_set]
  by_cases hi : n = i
  · rw [if_pos hi, if_pos hlt, hi, Function.update_self]
    rfl
  · rw [if_neg hi, Function.update_of_ne (Ne.symm hi)]

theorem setGrad_spec {n : Nat} (hn : n < g.length) (a : R) : ∃ g', g.setGrad n a = some g' ∧
    SameShape g g' ∧ g'.grad = Function.update g.grad n a := by
  obtain ⟨node, hnode⟩ := exists_node hn
  exact ⟨_, by rw [setGrad, hnode]; rfl, set_shape hnode a, set_grad hnode a⟩

theorem addGrad_spec {n : Nat} (hn : n < g.length) (a : R) : ∃ g', g.addGrad n a = some g' ∧
    SameShape g g' ∧ g'.grad = Function.update g.grad n (g.grad n + a) := by
  obtain ⟨node, hnode⟩ := exists_node hn
  exact ⟨_, by rw [addGrad, hnode]; rfl, set_shape hnode _,
    by rw [set_grad hnode, grad_eq hnode]⟩

/-- A node passes its gradient on along its edges. -/
theorem callBackwardFn_spec (hg : g.WellFormed) {n : Nat} (hn : n < g.length) :
    ∃ g', g.callBackwardFn n = some g' ∧ SameShape g g' ∧
      g'.grad = PathSums.spread (g.edges n) (g.grad n) g.grad := by
  obtain ⟨r, hr⟩ := exists_node hn
  have hok := hg n r hr
  unfold NodeOk at hok
  unfold callBackwardFn edges
  rw [grad_eq hr]
  simp only [hr, Option.bind_eq_bind, Option.bind_some]
  cases hfn : r.backwardFn <;> simp only [hfn] at hok ⊢
  case nothing => exact ⟨g, rfl, rfl, rfl⟩
  case neg self =>
    obtain ⟨g₁, h₁, hs₁, hg₁⟩ := addGrad_spec (hok.1.trans hn) (-r.grad)
    exact ⟨g₁, h₁, hs₁, by rw [hg₁, PathSums.spread, List.foldl_cons, neg_one_mul]; rfl⟩
  case add self rhs =>
    obtain ⟨g₁, h₁, hs₁, hg₁⟩ := addGrad_spec (hok.1.trans hn) r.grad
    obtain ⟨g₂, h₂, hs₂, hg₂⟩ :=
      addGrad_spec (g := g₁) (hs₁.length.symm ▸ hok.2.1.trans hn) r.grad
    obtain ⟨r₁, hr₁, -⟩ := hs₁.node hr
    have hsame : r₁.grad = r.grad := by
      rw [← grad_eq hr₁, hg₁, Function.update_of_ne (Nat.ne_of_gt hok.1), grad_eq hr]
    refine ⟨g₂, by rw [h₁, Option.bind_some, hr₁, Option.bind_some, hsame, h₂], hs₁.trans hs₂, ?_⟩
    rw [hg₂, hg₁, PathSums.spread, List.foldl_cons, List.foldl_cons, one_mul]
    rfl
  case mul self rhs =>
    obtain ⟨left, hleft⟩ := exists_node (hok.1.trans hn)
    obtain ⟨right, hright⟩ := exists_node (hok.2.1.trans hn)
    obtain ⟨g₁, h₁, hs₁, hg₁⟩ := addGrad_spec (hok.1.trans hn) (right.data * r.grad)
    obtain ⟨g₂, h₂, hs₂, hg₂⟩ :=
      addGrad_spec (g := g₁) (hs₁.length.symm ▸ hok.2.1.trans hn) (left.data * r.grad)
    obtain ⟨r₁, hr₁, -⟩ := hs₁.node hr
    obtain ⟨left₁, hleft₁, hdata₁, -⟩ := hs₁.node hleft
    have hsame : r₁.grad = r.grad := by
      rw [← grad_eq hr₁, hg₁, Function.update_of_ne (Nat.ne_of_gt hok.1), grad_eq hr]
    refine ⟨g₂, by rw [hright, Option.bind_some, h₁, Option.bind_some, hr₁, Option.bind_some, hleft₁,
      Option.bind_some, hsame, hdata₁, h₂], hs₁.trans hs₂, ?_⟩
    rw [hg₂, hg₁, PathSums.spread, List.foldl_cons, List.foldl_cons, data_eq hleft, data_eq hright]
    rfl

/-- The nodes of an order pass their gradients on, the last one first. -/
theorem foldlM_callBackwardFn (hg : g.WellFormed) {order : List Nat} (ho : ∀ n ∈ order, n < g.length) :
    ∃ g', order.reverse.foldlM callBackwardFn g = some g' ∧ SameShape g g' ∧
      g'.grad = PathSums.accumulate g.edges order g.grad := by
  induction order using List.reverseRecOn generalizing g with
  | nil => exact ⟨g, rfl, rfl, rfl⟩
  | append_singleton order n ih =>
    obtain ⟨g₁, h₁, hs₁, hg₁⟩ :=
      callBackwardFn_spec hg (ho n (List.mem_append_right _ List.mem_cons_self))
    obtain ⟨g₂, h₂, hs₂, hg₂⟩ := ih (hs₁.wellFormed hg)
      fun m hm => hs₁.length ▸ ho m (List.mem_append_left _ hm)
    refine ⟨g₂, ?_, hs₁.trans hs₂, ?_⟩
    · rw [List.reverse_append, List.reverse_singleton, List.singleton_append, List.foldlM_cons, h₁]
      exact h₂
    · rw [hg₂, hs₁.edges, hg₁, PathSums.accumulate, PathSums.accumulate, List.foldr_append]
      rfl

/-! ## The two searches -/

theorem buildTopoOrder_eq (hg : g.WellFormed) (fuel : Nat) {n : Nat} (hn : n < g.length)
    (s : List Nat × List Nat) :
    g.buildTopoOrder fuel n s = DepthFirst.postorder g.parentsOf fuel n s := by
  induction fuel generalizing n s with
  | zero => rfl
  | succ fuel ih =>
    obtain ⟨node, hnode⟩ := exists_node hn
    have hparents : g.parentsOf n = node.parents := by rw [parentsOf, hnode]; rfl
    have hlt : ∀ m ∈ node.parents, m < g.length := fun m hm =>
      (hg.parent_lt n m (hparents ▸ hm)).trans hn
    have hfold : ∀ (ms : List Nat) (s : List Nat × List Nat), (∀ m ∈ ms, m < g.length) →
        ms.foldlM (fun s m => g.buildTopoOrder fuel m s) s =
          ms.foldlM (fun s m => DepthFirst.postorder g.parentsOf fuel m s) s := by
      intro ms
      induction ms with
      | nil => exact fun _ _ => rfl
      | cons m ms ihms =>
        intro s hms
        obtain ⟨hm, hms⟩ := List.forall_mem_cons.mp hms
        rw [List.foldlM_cons, List.foldlM_cons, ih hm]
        exact Option.bind_congr fun s' _ => ihms s' hms
    obtain ⟨visited, order⟩ := s
    rw [buildTopoOrder, DepthFirst.postorder, hnode, hparents, Option.bind_eq_bind, Option.bind_some,
      hfold node.parents (n :: visited, order) hlt]

/-- The gradients of the nodes that a search visits are zeroed, the others are left. -/
theorem zeroGradsRecursive_eq (hg : g.WellFormed) {fuel n : Nat} (hn : n < g.length)
    {visited order visited' order' : List Nat}
    (h : DepthFirst.postorder g.parentsOf fuel n (visited, order) = some (visited', order')) :
    ∃ g', zeroGradsRecursive fuel n (visited, g) = some (visited', g') ∧ SameShape g g' ∧
      (∀ v ∈ visited, v ∈ visited') ∧
      ∀ v, g'.grad v = if v ∈ visited' ∧ v ∉ visited then 0 else g.grad v := by
  induction fuel generalizing g n visited order visited' order' with
  | zero => cases h
  | succ fuel ih =>
    unfold DepthFirst.postorder at h
    unfold zeroGradsRecursive
    by_cases hmem : n ∈ visited
    · rw [if_pos hmem] at h
      cases h
      refine ⟨g, if_pos hmem, rfl, fun v hv => hv, fun v => ?_⟩
      rw [if_neg fun hv => hv.2 hv.1]
    · rw [if_neg hmem] at h ⊢
      simp only [Option.bind_eq_bind, Option.bind_eq_some_iff, Option.some.injEq,
        Prod.mk.injEq] at h
      obtain ⟨⟨visited₁, order₁⟩, hfold, rfl, -⟩ := h
      obtain ⟨g₁, hset, hs₁, hg₁⟩ := setGrad_spec hn 0
      obtain ⟨node, hnode⟩ := exists_node hn
      obtain ⟨node₁, hnode₁, -, -, hparents₁⟩ := hs₁.node hnode
      have hparents : g.parentsOf n = node.parents := by rw [parentsOf, hnode]; rfl
      -- the searches from the parents, one after the other
      have hloop : ∀ (ms : List Nat) (g : Graph R) (s s' : List Nat × List Nat), g.WellFormed →
          (∀ m ∈ ms, m < g.length) →
          ms.foldlM (fun s m => DepthFirst.postorder g.parentsOf fuel m s) s = some s' →
          ∃ g', ms.foldlM (fun s m => zeroGradsRecursive fuel m s) (s.1, g) = some (s'.1, g') ∧
            SameShape g g' ∧ (∀ v ∈ s.1, v ∈ s'.1) ∧
            ∀ v, g'.grad v = if v ∈ s'.1 ∧ v ∉ s.1 then 0 else g.grad v := by
        intro ms
        induction ms with
        | nil =>
          intro g s s' _ _ h
          cases h
          exact ⟨g, rfl, rfl, fun v hv => hv, fun v => by rw [if_neg fun hv => hv.2 hv.1]⟩
        | cons m ms ihms =>
          intro g s s' hg hms h
          obtain ⟨hm, hms⟩ := List.forall_mem_cons.mp hms
          rw [List.foldlM_cons, Option.bind_eq_bind, Option.bind_eq_some_iff] at h
          obtain ⟨s₁, hfirst, hrest⟩ := h
          obtain ⟨g₁, h₁, hs₁, hsub₁, hg₁⟩ := ih hg hm hfirst
          have hsame : g.parentsOf = g₁.parentsOf := by
            rw [← hg.targets, ← (hs₁.wellFormed hg).targets, hs₁.edges]
          obtain ⟨g₂, h₂, hs₂, hsub₂, hg₂⟩ := ihms g₁ s₁ s' (hs₁.wellFormed hg)
            (fun m hm => hs₁.length ▸ hms m hm) (hsame ▸ hrest)
          refine ⟨g₂, ?_, hs₁.trans hs₂, fun v hv => hsub₂ v (hsub₁ v hv), fun v => ?_⟩
          · rw [List.foldlM_cons, h₁]
            exact h₂
          · rw [hg₂, hg₁]
            by_cases hv₁ : v ∈ s₁.1
            · have hv' := hsub₂ v hv₁
              simp [hv₁, hv']
            · have hv : v ∉ s.1 := fun h => hv₁ (hsub₁ v h)
              simp [hv₁, hv]
      have hsame : g.parentsOf = g₁.parentsOf := by
        rw [← hg.targets, ← (hs₁.wellFormed hg).targets, hs₁.edges]
      have hlt : ∀ m ∈ node.parents, m < g₁.length := fun m hm =>
        hs₁.length ▸ (hg.parent_lt n m (hparents ▸ hm)).trans hn
      rw [hparents, hsame] at hfold
      obtain ⟨g', hrun, hs', hsub, hg'⟩ :=
        hloop node.parents g₁ _ _ (hs₁.wellFormed hg) hlt hfold
      have hin : n ∈ visited₁ := hsub n List.mem_cons_self
      refine ⟨g', ?_, hs₁.trans hs', fun v hv => hsub v (List.mem_cons_of_mem _ hv), fun v => ?_⟩
      · simp only [hset, hnode₁, Option.bind_eq_bind, Option.bind_some, hparents₁]
        exact hrun
      · rw [hg', hg₁]
        by_cases hv : v = n
        · subst hv
          simp [hin, hmem]
        · simp [hv]

/-! ## One call -/

/-- The nodes that the root is made from. -/
def Reachable (g : Graph R) : Nat → Nat → Prop := DepthFirst.Reach g.parentsOf

/-- In a well-formed graph: gradients of reachable nodes are the path sums, the others are left. -/
theorem backward_spec (hg : g.WellFormed) {root : Nat} (hroot : root < g.length) :
    ∃ g', g.backward root = some g' ∧ SameShape g g' ∧ ∀ n,
      (g.Reachable root n → g'.grad n = PathSums.pathSum g.edges root n) ∧
      (¬ g.Reachable root n → g'.grad n = g.grad n) := by
  obtain ⟨visited, order, hpost, hsorted, hmem⟩ :=
    @DepthFirst.postorder_spec _ hg.parent_lt g.length _ hroot
  have hvisited : ∀ v, v ∈ visited ↔ g.Reachable root v := by
    have hinv : DepthFirst.Inv g.parentsOf (root + 1) ([], []) :=
      ⟨⟨List.nodup_nil, fun before v rest h => by simp at h⟩, fun v h => absurd h List.not_mem_nil,
        fun v h => absurd h List.not_mem_nil⟩
    obtain ⟨s, hs, hsearched⟩ := DepthFirst.postorder_searched hg.parent_lt hroot hinv
    cases hpost.symm.trans hs
    intro v
    unfold Reachable
    simpa using hsearched.visited v
  obtain ⟨g₁, hzero, hs₁, -, hg₁⟩ := zeroGradsRecursive_eq hg hroot hpost
  have hwf₁ := hs₁.wellFormed hg
  have hsame : g.parentsOf = g₁.parentsOf := by rw [← hg.targets, ← hwf₁.targets, hs₁.edges]
  have htopo : g₁.buildTopoOrder g₁.length root ([], []) = some (visited, order) := by
    rw [buildTopoOrder_eq hwf₁ _ (hs₁.length.symm ▸ hroot), ← hsame, hs₁.length]
    exact hpost
  obtain ⟨g₂, hset, hs₂, hg₂⟩ := setGrad_spec (g := g₁) (hs₁.length.symm ▸ hroot) 1
  have hs₁₂ := hs₁.trans hs₂
  obtain ⟨g₃, hloop, hs₃, hg₃⟩ := foldlM_callBackwardFn (hs₁₂.wellFormed hg)
    fun n (hn : n ∈ order) => hs₁₂.length ▸ ((hmem n).mp hn |>.le hg.parent_lt).trans_lt hroot
  refine ⟨g₃, ?_, hs₁₂.trans hs₃, ?_⟩
  · simp only [backward, hzero, htopo, hset, Option.bind_eq_bind, Option.bind_some, hloop]
  · rw [← hg.targets] at hsorted
    obtain ⟨hin, hout⟩ := PathSums.accumulate_spec hg.target_lt hsorted
      ((hmem root).mpr .refl) fun v hv => show g₂.grad v = _ by
        rw [hg₂]
        by_cases hvr : v = root
        · rw [hvr, Function.update_self, if_pos rfl]
        · have hvis := (hvisited v).mpr ((hmem v).mp hv)
          rw [Function.update_of_ne hvr, hg₁, if_neg hvr, if_pos ⟨hvis, List.not_mem_nil⟩]
    rw [hs₁₂.edges] at hg₃
    refine fun n => ⟨fun hn => ?_, fun hn => ?_⟩
    · rw [hg₃, hin n ((hmem n).mpr hn)]
    · have hne : n ≠ root := fun h => hn (h ▸ .refl)
      rw [hg₃, hout n (mt (hmem n).mp hn), hg₂, Function.update_of_ne hne, hg₁,
        if_neg fun h => hn ((hvisited n).mp h.1)]

/-! ## Polynomials -/

section Formal

open Polynomial

/-- A node as a polynomial in the node `n`. -/
noncomputable def formalFrom (g : Graph R) (n : Nat) : Nat → Nat → R[X]
  | 0, _ => 0
  | fuel + 1, i =>
    if i = n then X
    else match g[i]? with
      | none => 0
      | some node =>
        match node.backwardFn with
        | .nothing => C node.data
        | .add self rhs => formalFrom g n fuel self + formalFrom g n fuel rhs
        | .neg self => -formalFrom g n fuel self
        | .mul self rhs => formalFrom g n fuel self * formalFrom g n fuel rhs

noncomputable def formal (g : Graph R) (n i : Nat) : R[X] := g.formalFrom n (i + 1) i

/-- The polynomial has the data of the node as its value, and the path sum as its derivative. -/
theorem formalFrom_spec (hg : g.WellFormed) (n : Nat) {fuel i : Nat} (hi : i < fuel)
    (hlen : i < g.length) : (g.formalFrom n fuel i).eval (g.data n) = g.data i ∧
      (derivative (g.formalFrom n fuel i)).eval (g.data n) = PathSums.pathSum g.edges i n := by
  induction fuel generalizing i with
  | zero => exact absurd hi (Nat.not_lt_zero i)
  | succ fuel ih =>
    unfold formalFrom
    by_cases hin : i = n
    · rw [if_pos hin, hin, PathSums.pathSum_self hg.target_lt]
      simp
    · obtain ⟨node, hnode⟩ := exists_node hlen
      have hok := hg i node hnode
      unfold NodeOk at hok
      rw [if_neg hin, PathSums.pathSum_eq hg.target_lt, if_neg hin, zero_add]
      simp only [hnode]
      cases hfn : node.backwardFn <;> simp only [hfn] at hok ⊢
      case nothing =>
        have hedges : g.edges i = [] := by simp only [edges, hnode, hfn]
        simp [hedges, data_eq hnode]
      case neg self =>
        have hedges : g.edges i = [(self, -1)] := by simp only [edges, hnode, hfn]
        obtain ⟨hv, hd⟩ := ih (i := self) (by omega) (by omega)
        rw [data_eq hnode, hok.2.2, hedges]
        simp [hv, hd]
      case add self rhs =>
        have hedges : g.edges i = [(self, 1), (rhs, 1)] := by simp only [edges, hnode, hfn]
        obtain ⟨hv, hd⟩ := ih (i := self) (by omega) (by omega)
        obtain ⟨hv', hd'⟩ := ih (i := rhs) (by omega) (by omega)
        rw [data_eq hnode, hok.2.2.2, hedges]
        simp [hv, hd, hv', hd']
      case mul self rhs =>
        have hedges : g.edges i = [(self, g.data rhs), (rhs, g.data self)] := by
          simp only [edges, hnode, hfn]
        obtain ⟨hv, hd⟩ := ih (i := self) (by omega) (by omega)
        obtain ⟨hv', hd'⟩ := ih (i := rhs) (by omega) (by omega)
        rw [data_eq hnode, hok.2.2.2, hedges]
        simp [hv, hd, hv', hd', mul_comm]

end Formal

end Graph

/-! ## Runs -/

open Graph in
/-- Each call leaves the graph well-formed. -/
theorem wellFormed_perform {g g' : Graph R} (hg : g.WellFormed) {call : Call R}
    (h : call.perform g = some g') : g'.WellFormed := by
  have hlt : ∀ {i : Nat} {node : Node R}, g[i]? = some node → i < g.length := fun hn =>
    (List.getElem?_eq_some_iff.mp hn).1
  have hnegate : ∀ {g : Graph R} {node : Nat} {s : Nat × Graph R}, g.WellFormed →
      g.neg node = some s → s.2.WellFormed := by
    intro g node s hg h
    simp only [neg, Option.bind_eq_bind, Option.bind_eq_some_iff, Option.some.injEq] at h
    obtain ⟨a, ha, rfl⟩ := h
    exact hg.append ⟨(List.getElem?_eq_some_iff.mp ha).1, rfl, by rw [data_eq ha]⟩
  have hadd : ∀ {g : Graph R} {node other : Nat} {s : Nat × Graph R}, g.WellFormed →
      g.add node other = some s → s.2.WellFormed := by
    intro g node other s hg h
    simp only [add, Option.bind_eq_bind, Option.bind_eq_some_iff, Option.some.injEq] at h
    obtain ⟨a, ha, b, hb, rfl⟩ := h
    exact hg.append ⟨(List.getElem?_eq_some_iff.mp ha).1, (List.getElem?_eq_some_iff.mp hb).1, rfl,
      by rw [data_eq ha, data_eq hb]⟩
  cases call with
  | value data =>
    cases h
    exact hg.append rfl
  | add node other =>
    obtain ⟨s, hs, rfl⟩ := Option.map_eq_some_iff.mp h
    exact hadd hg hs
  | neg node =>
    obtain ⟨s, hs, rfl⟩ := Option.map_eq_some_iff.mp h
    exact hnegate hg hs
  | sub node other =>
    obtain ⟨s, hs, rfl⟩ := Option.map_eq_some_iff.mp h
    rw [sub, Option.bind_eq_bind, Option.bind_eq_some_iff] at hs
    obtain ⟨s₁, hneg, hs⟩ := hs
    exact hadd (hnegate hg hneg) hs
  | mul node other =>
    obtain ⟨s, hs, rfl⟩ := Option.map_eq_some_iff.mp h
    simp only [mul, Option.bind_eq_bind, Option.bind_eq_some_iff, Option.some.injEq] at hs
    obtain ⟨a, ha, b, hb, rfl⟩ := hs
    exact hg.append ⟨hlt ha, hlt hb, rfl, by rw [data_eq ha, data_eq hb]⟩
  | backward root =>
    by_cases hroot : root < g.length
    · obtain ⟨g₁, h₁, hs₁, -⟩ := backward_spec hg hroot
      cases h₁.symm.trans h
      exact hs₁.wellFormed hg
    · have hnone : g[root]? = none := List.getElem?_eq_none (Nat.le_of_not_lt hroot)
      have hzero : zeroGradsRecursive g.length root ([], g) = none := by
        cases g.length with
        | zero => rfl
        | succ fuel =>
          rw [zeroGradsRecursive, if_neg List.not_mem_nil, setGrad, hnone]
          rfl
      rw [Call.perform, backward, hzero] at h
      cases h

theorem wellFormed_run {calls : List (Call R)} {g : Graph R} (h : run calls = some g) :
    g.WellFormed := by
  have hfold : ∀ (calls : List (Call R)) (g g' : Graph R), g.WellFormed →
      calls.foldlM Call.perform g = some g' → g'.WellFormed := by
    intro calls
    induction calls with
    | nil =>
      intro g g' hg h
      cases h
      exact hg
    | cons call calls ih =>
      intro g g' hg h
      rw [List.foldlM_cons, Option.bind_eq_bind, Option.bind_eq_some_iff] at h
      obtain ⟨g₁, hcall, hrest⟩ := h
      exact ih g₁ g' (wellFormed_perform hg hcall) hrest
  exact hfold calls [] g (fun i node hn => by simp at hn) h

/-- After any calls, `backward` from any value succeeds and changes gradients only: those of the nodes
that the root is made from are the sums over all paths of the products of local derivatives, which are
the derivatives of the root as a polynomial in the node; the others are left. -/
theorem backward_exact {calls : List (Call R)} {g : Graph R} (hrun : run calls = some g) {root : Nat}
    (hroot : root < g.length) : ∃ g', g.backward root = some g' ∧ Graph.SameShape g g' ∧ ∀ n,
      (g.Reachable root n → g'.grad n = PathSums.pathSum g.edges root n ∧
        g'.grad n = (Polynomial.derivative (g.formal n root)).eval (g.data n)) ∧
      (¬ g.Reachable root n → g'.grad n = g.grad n) := by
  have hg := wellFormed_run hrun
  obtain ⟨g', h, hs, hgrad⟩ := Graph.backward_spec hg hroot
  refine ⟨g', h, hs, fun n => ⟨fun hn => ⟨(hgrad n).1 hn, ?_⟩, (hgrad n).2⟩⟩
  rw [(hgrad n).1 hn]
  exact (Graph.formalFrom_spec hg n (Nat.lt_succ_self root) hroot).2.symm

/-- `y = x * x - x` and a value that has nothing to do with it, after a call from `x * x`. -/
def squareCalls : List (Call Int) := [.value 3, .value 5, .mul 0 0, .backward 2, .sub 2 0]

example : (run (squareCalls ++ [.backward 4])).map (·.map Node.grad) = some [5, 0, 1, 1, 1] := by
  decide

def squareGraph : Graph Int :=
  [⟨3, 6, .nothing, []⟩, ⟨5, 0, .nothing, []⟩, ⟨9, 1, .mul 0 0, [0, 0]⟩, ⟨-3, 0, .neg 0, [0]⟩,
    ⟨6, 0, .add 2 3, [2, 3]⟩]

theorem backward_exact_square : ∃ g', squareGraph.backward 4 = some g' ∧
    g'.grad 0 = PathSums.pathSum squareGraph.edges 4 0 := by
  obtain ⟨g', h, -, hgrad⟩ := backward_exact
    (show run squareCalls = some squareGraph by decide) (show 4 < squareGraph.length by decide)
  have hreach : squareGraph.Reachable 4 0 :=
    .head (show 2 ∈ squareGraph.parentsOf 4 by decide)
      (.head (show 0 ∈ squareGraph.parentsOf 2 by decide) .refl)
  exact ⟨g', h, ((hgrad 0).1 hreach).1⟩

end Autodiff
end Techuila
