import Mathlib.Data.List.Chain
import Techuila.Oglang.Modules

/-!
# The search for circular imports (`compileModules` in `main.cpp`)

The search of `main.cpp` has its colours, its path and its early returns in variables that all calls
share. An access outside of a vector and a recursion that is too deep are `none`.

* `CycleSearch`: the variables. `CycleSearch.visitAll`, `CycleSearch.dfs`, `findCycle`: the search.
* `Paints`: the variables stand for the path and the finished modules of `checkCycles`.
* `dfs_spec`: one search, from one module. `findCycle_spec`: all of them.
-/

namespace Techuila
namespace Oglang

structure CycleSearch where
  color : List Nat
  path : List Nat := []
  cycleFound : Bool := false
  cycleMessage : String := ""

def moduleName (units : List ModuleUnit) (n : Nat) : String :=
  ((units[n]?).map ModuleUnit.name).getD ""

/-- One more name in the text of a chain. -/
def addName (units : List ModuleUnit) (chain : String) (n : Nat) : String :=
  (if chain.isEmpty then chain else chain ++ " -> ") ++ moduleName units n

/-- The loop over the path that writes the chain from `next` on. -/
def chainFrom (units : List ModuleUnit) (next : Nat) :
    (path : List Nat) → (started : Bool) → (chain : String) → String
  | [], _, chain => chain
  | n :: path, started, chain =>
    let started := started || n == next
    if started then chainFrom units next path started (addName units chain n)
    else chainFrom units next path started chain

namespace CycleSearch

/-- The loop over the imports of a module, with the search from one of them as a parameter. The result
says whether the loop has returned from the search. -/
def visitAll (units : List ModuleUnit) (search : Nat → CycleSearch → Option CycleSearch) :
    List Nat → CycleSearch → Option (CycleSearch × Bool)
  | [], s => some (s, false)
  | next :: rest, s =>
    if s.cycleFound then some (s, true)
    else do
      let color ← s.color[next]?
      if color = 1 then
        let chain := chainFrom units next s.path false "" ++ " -> " ++ moduleName units next
        some ({ s with
          cycleMessage := "Circular module import detected: " ++ chain
          cycleFound := true }, true)
      else if color = 0 then do
        let s ← search next s
        visitAll units search rest s
      else visitAll units search rest s

def dfs (units : List ModuleUnit) (adjacency : List (List Nat)) :
    (fuel : Nat) → (node : Nat) → CycleSearch → Option CycleSearch
  | 0, _, _ => none
  | fuel + 1, node, s =>
    if s.cycleFound then some s
    else do
      let s := { s with color := s.color.set node 1, path := s.path ++ [node] }
      let nexts ← adjacency[node]?
      let (s, returned) ← visitAll units (dfs units adjacency fuel) nexts s
      if returned then some s
      else some { s with color := s.color.set node 2, path := s.path.dropLast }

end CycleSearch

/-- The search from each module that is white. -/
def findCycle (units : List ModuleUnit) (adjacency : List (List Nat)) : Option CycleSearch :=
  (List.range units.length).foldlM (fun s i =>
    if s.cycleFound then some s
    else do
      let color ← s.color[i]?
      if color = 0 then CycleSearch.dfs units adjacency (units.length + 1) i s else some s)
    { color := List.replicate units.length 0 }

/-! ## Cycles -/

/-- Module `i` imports module `j`. -/
def ImportEdge (adjacency : List (List Nat)) (i j : Nat) : Prop := j ∈ adjacency.getD i []

/-- The message shows a way along imports from a module to itself. -/
def ReportsCycle (units : List ModuleUnit) (adjacency : List (List Nat)) (message : String) : Prop :=
  ∃ next rest, List.IsChain (ImportEdge adjacency) (next :: rest ++ [next]) ∧
    message = "Circular module import detected: " ++
      ((next :: rest).foldl (addName units) "" ++ " -> " ++ moduleName units next)

/-- What is finished has its imports finished, and is on no cycle. -/
def Finished (adjacency : List (List Nat)) (black : List Nat) : Prop :=
  ∀ b ∈ black, (∀ j, ImportEdge adjacency b j → j ∈ black) ∧
    ¬ Relation.TransGen (ImportEdge adjacency) b b

/-- The colours and the path of the search, for a path and the finished modules. -/
structure Paints (n : Nat) (path black : List Nat) (s : CycleSearch) : Prop where
  length : s.color.length = n
  color : ∀ i < n, s.color[i]? = some (if i ∈ path then 1 else if i ∈ black then 2 else 0)
  path : s.path = path
  found : s.cycleFound = false

variable {units : List ModuleUnit} {adjacency : List (List Nat)} {path black : List Nat}

theorem chainFrom_started (next : Nat) (path : List Nat) (chain : String) :
    chainFrom units next path true chain = path.foldl (addName units) chain := by
  induction path generalizing chain with
  | nil => rfl
  | cons n path ih =>
    simp only [chainFrom, Bool.true_or, if_true, List.foldl_cons]
    exact ih _

/-- The chain is the path from the module that was met again. -/
theorem chainFrom_eq {next : Nat} {before : List Nat} (h : next ∉ before) (rest : List Nat) :
    chainFrom units next (before ++ next :: rest) false "" =
      (next :: rest).foldl (addName units) "" := by
  induction before with
  | nil => simp only [List.nil_append, chainFrom, Bool.false_or, beq_self_eq_true, if_true,
      List.foldl_cons, chainFrom_started]
  | cons n before ih =>
    rw [List.mem_cons, not_or] at h
    have hne : (n == next) = false := beq_eq_false_iff_ne.mpr (Ne.symm h.1)
    simp only [List.cons_append, chainFrom, Bool.false_or, hne, Bool.false_eq_true, if_false]
    exact ih h.2

theorem Finished.mem_of_transGen (h : Finished adjacency black) {i j : Nat} (hi : i ∈ black)
    (hij : Relation.TransGen (ImportEdge adjacency) i j) : j ∈ black := by
  induction hij with
  | single hj => exact (h _ hi).1 _ hj
  | tail _ hj ih => exact (h _ ih).1 _ hj

/-- A module whose imports are finished, and which is not, is on no cycle. -/
theorem Finished.cons (h : Finished adjacency black) {node : Nat} (hnode : node ∉ black)
    (hnext : ∀ j, ImportEdge adjacency node j → j ∈ black) : Finished adjacency (node :: black) := by
  refine List.forall_mem_cons.mpr ⟨⟨fun j hj => List.mem_cons_of_mem _ (hnext j hj), fun hcycle => ?_⟩,
    fun b hb => ⟨fun j hj => List.mem_cons_of_mem _ ((h b hb).1 j hj), (h b hb).2⟩⟩
  rcases Relation.TransGen.head'_iff.mp hcycle with ⟨j, hj, hback⟩
  rcases Relation.reflTransGen_iff_eq_or_transGen.mp hback with heq | hback
  · exact hnode (heq ▸ hnext j hj)
  · exact hnode (h.mem_of_transGen (hnext j hj) hback)

/-! ## One search -/

/-- The two searches both finish, with `goals` finished, or both find a cycle. -/
def Agrees (units : List ModuleUnit) (adjacency : List (List Nat)) (path black goals : List Nat)
    (r : Except String (List Nat)) (s : CycleSearch) : Prop :=
  (∃ black', r = .ok black' ∧ Paints units.length path black' s ∧ Finished adjacency black' ∧
    (∀ i ∈ path, i ∉ black') ∧ black ⊆ black' ∧ goals ⊆ black') ∨
  (∃ e, r = .error e) ∧ s.cycleFound = true ∧ ReportsCycle units adjacency s.cycleMessage

/-- What `checkCycles` does with one import. -/
def visitImport (units : List ModuleUnit) (adjacency : List (List Nat)) (fuel : Nat)
    (path black : List Nat) (next : Nat) : Except String (List Nat) :=
  if next ∈ path then
    .error ("Circular module import detected: " ++ " -> ".intercalate
      ((path.dropWhile (· ≠ next) ++ [next]).map (moduleName units)))
  else if next ∈ black then .ok black
  else dfs units adjacency fuel path black next

theorem dfs_succ (units : List ModuleUnit) (adjacency : List (List Nat)) (fuel : Nat)
    (path black : List Nat) (node : Nat) : dfs units adjacency (fuel + 1) path black node = (do
      let black ← (adjacency.getD node []).foldlM
        (visitImport units adjacency fuel (path ++ [node])) black
      .ok (node :: black)) := rfl

/-- A search that has found a cycle goes on to nothing. -/
theorem visitAll_found (search : Nat → CycleSearch → Option CycleSearch) {s : CycleSearch}
    (h : s.cycleFound = true) (nexts : List Nat) :
    ∃ returned, CycleSearch.visitAll units search nexts s = some (s, returned) := by
  cases nexts with
  | nil => exact ⟨false, rfl⟩
  | cons next rest => exact ⟨true, by simp only [CycleSearch.visitAll, h, if_true]⟩

/-- The loops over the imports agree where the searches from them do. -/
theorem visitAll_spec {search : Nat → CycleSearch → Option CycleSearch} {fuel node : Nat}
    (hnodup : path.Nodup) (hchain : List.IsChain (ImportEdge adjacency) path)
    (hlast : path.getLast? = some node) (hrange : ∀ i j, ImportEdge adjacency i j → j < units.length)
    (hsearch : ∀ next black s, ImportEdge adjacency node next → Paints units.length path black s →
      Finished adjacency black → (∀ i ∈ path, i ∉ black) → next ∉ path → next ∉ black →
      ∃ s', search next s = some s' ∧
        Agrees units adjacency path black [next] (dfs units adjacency fuel path black next) s')
    {nexts : List Nat} (hnexts : ∀ next ∈ nexts, ImportEdge adjacency node next) {black : List Nat}
    {s : CycleSearch} (hs : Paints units.length path black s) (hdone : Finished adjacency black)
    (hdisj : ∀ i ∈ path, i ∉ black) :
    ∃ s' returned, CycleSearch.visitAll units search nexts s = some (s', returned) ∧
      (s'.cycleFound = false → returned = false) ∧
      Agrees units adjacency path black nexts
        (nexts.foldlM (visitImport units adjacency fuel path) black) s' := by
  induction nexts generalizing black s with
  | nil =>
    exact ⟨s, false, rfl, fun _ => rfl, .inl ⟨black, rfl, hs, hdone, hdisj, List.Subset.refl _,
      List.nil_subset _⟩⟩
  | cons next rest ih =>
    obtain ⟨hedge, hrest⟩ := List.forall_mem_cons.mp hnexts
    have hcolor := hs.color next (hrange _ _ hedge)
    simp only [CycleSearch.visitAll, hs.found, Bool.false_eq_true, if_false, hcolor,
      Option.bind_eq_bind, Option.bind_some]
    rw [List.foldlM_cons]
    by_cases hpath : next ∈ path
    · -- the module is gray: the path from it on, and the import of it, are a cycle
      rw [if_pos hpath, if_pos rfl]
      refine ⟨_, true, rfl, (fun h => by cases h), .inr ⟨?_, rfl, ?_⟩⟩
      · exact ⟨_, by rw [visitImport, if_pos hpath]; rfl⟩
      · obtain ⟨before, suffix, rfl⟩ := List.append_of_mem hpath
        have hnew : next ∉ before := fun hm =>
          (List.nodup_append.mp hnodup).2.2 next hm next List.mem_cons_self rfl
        refine ⟨next, suffix, ?_, by rw [hs.path, chainFrom_eq hnew]⟩
        rw [List.isChain_append]
        refine ⟨(List.isChain_append.mp hchain).2.1, List.isChain_singleton _, fun x hx y hy => ?_⟩
        rw [List.getLast?_append_of_ne_nil _ (List.cons_ne_nil _ _)] at hlast
        cases hx.symm.trans hlast
        cases hy
        exact hedge
    · rw [if_neg hpath]
      by_cases hblack : next ∈ black
      · rw [if_pos hblack, if_neg (by decide), if_neg (by decide)]
        obtain ⟨s', returned, hrun, hreturned, hagrees⟩ := ih hrest hs hdone hdisj
        refine ⟨s', returned, hrun, hreturned, ?_⟩
        have hvisit : visitImport units adjacency fuel path black next = .ok black := by
          rw [visitImport, if_neg hpath, if_pos hblack]
        rw [hvisit]
        rcases hagrees with ⟨black', hfold, hs', hdone', hdisj', hsub, hgoals⟩ | hfound
        · exact .inl ⟨black', hfold, hs', hdone', hdisj', hsub,
            List.cons_subset.mpr ⟨hsub hblack, hgoals⟩⟩
        · exact .inr hfound
      · rw [if_neg hblack, if_neg (by decide), if_pos rfl]
        obtain ⟨s₁, hsearch₁, hagrees₁⟩ := hsearch next black s hedge hs hdone hdisj hpath hblack
        have hvisit : visitImport units adjacency fuel path black next =
            dfs units adjacency fuel path black next := by
          rw [visitImport, if_neg hpath, if_neg hblack]
        rw [hvisit, hsearch₁, Option.bind_some]
        rcases hagrees₁ with ⟨black₁, hdfs, hs₁, hdone₁, hdisj₁, hsub₁, hgoals₁⟩ | ⟨⟨e, he⟩, hfound⟩
        · rw [hdfs]
          obtain ⟨s', returned, hrun, hreturned, hagrees⟩ := ih hrest hs₁ hdone₁ hdisj₁
          refine ⟨s', returned, hrun, hreturned, ?_⟩
          rcases hagrees with ⟨black', hfold, hs', hdone', hdisj', hsub, hgoals⟩ | hfound
          · exact .inl ⟨black', hfold, hs', hdone', hdisj', List.Subset.trans hsub₁ hsub,
              List.cons_subset.mpr ⟨hsub (hgoals₁ List.mem_cons_self), hgoals⟩⟩
          · exact .inr hfound
        · obtain ⟨returned, hrun⟩ := visitAll_found search hfound.1 rest
          refine ⟨s₁, returned, hrun, fun h => ?_, .inr ⟨⟨e, by rw [he]; rfl⟩, hfound⟩⟩
          rw [hfound.1] at h
          cases h

/-- A search goes the same ways with its colours and without them. -/
theorem dfs_spec (hlen : adjacency.length = units.length)
    (hrange : ∀ i j, ImportEdge adjacency i j → j < units.length) {fuel node : Nat}
    {s : CycleSearch} (hs : Paints units.length path black s) (hdone : Finished adjacency black)
    (hdisj : ∀ i ∈ path, i ∉ black) (hnode : node < units.length) (hpath : node ∉ path)
    (hblack : node ∉ black) (hnodup : path.Nodup) (hin : ∀ i ∈ path, i < units.length)
    (hchain : List.IsChain (ImportEdge adjacency) (path ++ [node]))
    (hfuel : units.length + 1 ≤ fuel + path.length) :
    ∃ s', CycleSearch.dfs units adjacency fuel node s = some s' ∧
      Agrees units adjacency path black [node] (dfs units adjacency fuel path black node) s' := by
  induction fuel generalizing path black node s with
  | zero =>
    have hsub := (hnodup.subperm fun i hi => List.mem_range.mpr (hin i hi)).length_le
    rw [List.length_range] at hsub
    omega
  | succ fuel ih =>
    have hnodup' : (path ++ [node]).Nodup := by
      rw [← List.concat_eq_append]
      exact hnodup.concat hpath
    have hgray : Paints units.length (path ++ [node]) black
        { s with color := s.color.set node 1, path := s.path ++ [node] } := by
      refine ⟨by rw [List.length_set, hs.length], fun i hi => ?_, by rw [hs.path], hs.found⟩
      rw [List.getElem?_set]
      by_cases heq : node = i
      · subst heq
        rw [if_pos rfl, if_pos (hs.length.symm ▸ hnode),
          if_pos (List.mem_append_right _ List.mem_cons_self)]
      · rw [if_neg heq, hs.color i hi]
        simp only [List.mem_append, List.mem_singleton, Ne.symm heq, or_false]
    have hdisj' : ∀ i ∈ path ++ [node], i ∉ black := fun i hi => by
      rcases List.mem_append.mp hi with hi | hi
      · exact hdisj i hi
      · exact List.mem_singleton.mp hi ▸ hblack
    have hadj : adjacency[node]? = some (adjacency.getD node []) := by
      rw [List.getD_eq_getElem?_getD, List.getElem?_eq_getElem (hlen.symm ▸ hnode)]
      rfl
    obtain ⟨s₁, returned, hvisit, hreturned, hagrees⟩ := visitAll_spec hnodup' hchain
      List.getLast?_concat hrange
      (fun next black s hedge hs hdone hdisj hp hb => ih hs hdone hdisj (hrange _ _ hedge) hp hb
        hnodup' (fun i hi => by
          rcases List.mem_append.mp hi with hi | hi
          · exact hin i hi
          · exact List.mem_singleton.mp hi ▸ hnode)
        (List.isChain_append.mpr ⟨hchain, List.isChain_singleton _, fun x hx y hy => by
          rw [List.getLast?_concat] at hx
          cases hx
          cases hy
          exact hedge⟩)
        (by rw [List.length_append, List.length_singleton]; omega))
      (show ∀ next ∈ adjacency.getD node [], ImportEdge adjacency node next from fun next hn => hn)
      hgray hdone hdisj'
    simp only [hs.found] at hvisit
    simp only [CycleSearch.dfs, hs.found, Bool.false_eq_true, if_false, hadj, Option.bind_eq_bind,
      Option.bind_some, hvisit]
    rw [dfs_succ]
    rcases hagrees with ⟨black₁, hfold, hs₁, hdone₁, hdisj₁, hsub, hgoals⟩ | ⟨⟨e, he⟩, hfound, hreport⟩
    · rw [hreturned hs₁.found]
      refine ⟨_, rfl, .inl ⟨node :: black₁, by rw [hfold]; rfl, ?_, ?_, fun i hi => ?_,
        fun b hb => List.mem_cons_of_mem _ (hsub hb), List.cons_subset.mpr ⟨List.mem_cons_self,
          List.nil_subset _⟩⟩⟩
      · refine ⟨by rw [List.length_set, hs₁.length], fun i hi => ?_,
          by rw [hs₁.path, List.dropLast_concat], hs₁.found⟩
        rw [List.getElem?_set]
        by_cases heq : node = i
        · subst heq
          rw [if_pos rfl, if_pos (hs₁.length.symm ▸ hnode), if_neg hpath, if_pos List.mem_cons_self]
        · rw [if_neg heq, hs₁.color i hi]
          simp only [List.mem_append, List.mem_cons, List.not_mem_nil, Ne.symm heq, false_or, or_false]
      · exact hdone₁.cons (hdisj₁ node (List.mem_append_right _ List.mem_cons_self)) fun j hj =>
          hgoals hj
      · rw [List.mem_cons, not_or]
        exact ⟨fun heq => hpath (heq ▸ hi), hdisj₁ i (List.mem_append_left _ hi)⟩
    · rw [he]
      cases returned with
      | false => exact ⟨_, rfl, .inr ⟨⟨e, rfl⟩, hfound, hreport⟩⟩
      | true => exact ⟨_, rfl, .inr ⟨⟨e, rfl⟩, hfound, hreport⟩⟩

/-! ## The search from all modules -/

/-- A cycle that is reported is one. -/
theorem ReportsCycle.transGen {message : String} (h : ReportsCycle units adjacency message) :
    ∃ i, Relation.TransGen (ImportEdge adjacency) i i := by
  obtain ⟨next, rest, hchain, -⟩ := h
  have hway : ∀ (l : List Nat) (a b : Nat), List.IsChain (ImportEdge adjacency) (a :: l ++ [b]) →
      Relation.TransGen (ImportEdge adjacency) a b := by
    intro l
    induction l with
    | nil =>
      intro a b h
      exact .single (List.isChain_pair.mp h)
    | cons c l ih =>
      intro a b h
      obtain ⟨hac, h⟩ := List.isChain_cons_cons.mp h
      exact .head hac (ih c b h)
  exact ⟨next, hway rest next next hchain⟩

/-- The whole search ends, with all modules finished or with a cycle, and `checkCycles` agrees. -/
theorem findCycle_spec (hlen : adjacency.length = units.length)
    (hrange : ∀ i j, ImportEdge adjacency i j → j < units.length) :
    ∃ s, findCycle units adjacency = some s ∧
      ((checkCycles units adjacency = .ok () ∧ s.cycleFound = false ∧
          ∀ i, ¬ Relation.TransGen (ImportEdge adjacency) i i) ∨
        (∃ e, checkCycles units adjacency = .error e) ∧ s.cycleFound = true ∧
          ReportsCycle units adjacency s.cycleMessage) := by
  have hloop : ∀ (l : List Nat) (black : List Nat) (s : CycleSearch), (∀ i ∈ l, i < units.length) →
      Paints units.length [] black s → Finished adjacency black →
      ∃ s', l.foldlM (fun s i =>
          if s.cycleFound then some s
          else do
            let color ← s.color[i]?
            if color = 0 then CycleSearch.dfs units adjacency (units.length + 1) i s else some s) s =
          some s' ∧ Agrees units adjacency [] black l (l.foldlM (fun black i =>
            if i ∈ black then .ok black
            else dfs units adjacency (units.length + 1) [] black i) black) s' := by
    intro l
    induction l with
    | nil =>
      intro black s _ hs hdone
      exact ⟨s, rfl, .inl ⟨black, rfl, hs, hdone, fun i hi => absurd hi List.not_mem_nil,
        List.Subset.refl _, List.nil_subset _⟩⟩
    | cons i l ih =>
      intro black s hl hs hdone
      obtain ⟨hi, hl⟩ := List.forall_mem_cons.mp hl
      have hcolor := hs.color i hi
      rw [if_neg List.not_mem_nil] at hcolor
      rw [List.foldlM_cons, List.foldlM_cons]
      simp only [hs.found, Bool.false_eq_true, if_false, hcolor, Option.bind_eq_bind,
        Option.bind_some]
      by_cases hblack : i ∈ black
      · simp only [if_pos hblack, OfNat.ofNat_ne_zero, if_false, Option.bind_some]
        obtain ⟨s', hrun, hagrees⟩ := ih black s hl hs hdone
        refine ⟨s', hrun, ?_⟩
        rcases hagrees with ⟨black', hfold, hs', hdone', hdisj', hsub, hgoals⟩ | hfound
        · exact .inl ⟨black', hfold, hs', hdone', hdisj', hsub,
            List.cons_subset.mpr ⟨hsub hblack, hgoals⟩⟩
        · exact .inr hfound
      · simp only [if_neg hblack, if_true]
        obtain ⟨s₁, hsearch, hagrees₁⟩ := @dfs_spec units adjacency [] black hlen hrange
          (units.length + 1) i s hs hdone (fun i hi => absurd hi List.not_mem_nil) hi List.not_mem_nil hblack List.nodup_nil
          (fun i hi => absurd hi List.not_mem_nil) (List.isChain_singleton i) (Nat.le_refl _)
        rw [hsearch, Option.bind_some]
        rcases hagrees₁ with ⟨black₁, hdfs, hs₁, hdone₁, -, hsub₁, hgoals₁⟩ | ⟨⟨e, he⟩, hfound⟩
        · rw [hdfs]
          obtain ⟨s', hrun, hagrees⟩ := ih black₁ s₁ hl hs₁ hdone₁
          refine ⟨s', hrun, ?_⟩
          rcases hagrees with ⟨black', hfold, hs', hdone', hdisj', hsub, hgoals⟩ | hfound
          · exact .inl ⟨black', hfold, hs', hdone', hdisj', List.Subset.trans hsub₁ hsub,
              List.cons_subset.mpr ⟨hsub (hgoals₁ List.mem_cons_self), hgoals⟩⟩
          · exact .inr hfound
        · -- the loop over the modules ends with the first cycle
          have hskip : ∀ l : List Nat, l.foldlM (fun s i =>
              if s.cycleFound then some s
              else do
                let color ← s.color[i]?
                if color = 0 then CycleSearch.dfs units adjacency (units.length + 1) i s
                else some s) s₁ = some s₁ := by
            intro l
            induction l with
            | nil => rfl
            | cons j l ihl =>
              rw [List.foldlM_cons, if_pos hfound.1]
              exact ihl
          exact ⟨s₁, hskip l, .inr ⟨⟨e, by rw [he]; rfl⟩, hfound⟩⟩
  have hstart : Paints units.length [] []
      ({ color := List.replicate units.length 0 } : CycleSearch) :=
    ⟨List.length_replicate, fun i hi => by simp [hi], rfl, rfl⟩
  obtain ⟨s, hrun, hagrees⟩ := hloop (List.range units.length) [] _
    (fun i hi => List.mem_range.mp hi) hstart fun b hb => absurd hb List.not_mem_nil
  refine ⟨s, hrun, ?_⟩
  rcases hagrees with ⟨black, hfold, hs, hdone, -, -, hgoals⟩ | ⟨⟨e, he⟩, hfound⟩
  · refine .inl ⟨by rw [checkCycles, hfold]; rfl, hs.found, fun i hcycle => ?_⟩
    obtain ⟨j, -, hback⟩ := Relation.TransGen.tail'_iff.mp hcycle
    have hi : i < units.length := hrange _ _ hback
    exact (hdone i (hgoals (List.mem_range.mpr hi))).2 hcycle
  · exact .inr ⟨⟨e, by rw [checkCycles, he]; rfl⟩, hfound⟩

end Oglang
end Techuila
