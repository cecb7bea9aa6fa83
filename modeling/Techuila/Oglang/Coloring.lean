import Techuila.Oglang.RegisterAllocator

/-!
# The coloring that the allocator returns (`codegen/register_allocator.cpp`)

The working graph is always the subgraph of the interference graph on the values that are left,
so that the degree `choose` looks at bounds the neighbors that are colored before the chosen
value. This connects the order of the stack, which the shrinking sets decide, to the select
phase, which looks at the whole graph.

* `allocateWithin_eq`: the simplify loop stops.
* `allocate_valid`: the result is a coloring, with dense slots, consecutive groups and no spill
  that the neighbors do not force.
-/

namespace Techuila
namespace Oglang
namespace RegisterAllocator

open X86 (Reg)
open InterferenceAnalyzer (neighbors)

/-! ## The simplify loop stops -/

/-- `while (!working.empty())`, with `fuel` rounds at most. -/
def simplifyLoop (iter : List Int → List Int) :
    (fuel : Nat) → InterferenceGraph → (stack : List Int) → Option (List Int)
  | 0, _, _ => none
  | fuel + 1, working, stack =>
    if working.isEmpty then some stack
    else
      let chosen := choose working (iter (working.map Prod.fst))
      simplifyLoop iter fuel (removeFromWorking working chosen) (chosen :: stack)

/-- The allocation, where the simplify loop stops within `fuel` rounds. -/
def allocateWithin (fuel : Nat) (iter : List Int → List Int) (graph : InterferenceGraph)
    (forcedSpills : List Int) (arrayGroups : List (List Int)) : Option RegisterAllocation :=
  let s := arrayGroups.foldl spillGroup ({}, graph)
  let (result, working) := forcedSpills.foldl spillForced s
  (simplifyLoop iter fuel working []).map fun stack => stack.foldl (select graph) result

/-- The loop stops after one round for each value. -/
theorem simplifyLoop_eq {iter : List Int → List Int} (hiter : IterOrder iter) (fuel : Nat)
    {working : InterferenceGraph} (h : Table.Ok working) (hf : working.length < fuel)
    (stack : List Int) :
    simplifyLoop iter fuel working stack = some (simplify iter working.length working stack) := by
  induction fuel generalizing working stack with
  | zero => exact absurd hf (Nat.not_lt_zero _)
  | succ fuel ih =>
    unfold simplifyLoop
    split
    · rename_i he
      rw [List.isEmpty_iff.mp he]
      rfl
    · rename_i he
      have hv := chosen_mem hiter fun e => he (List.isEmpty_iff.mpr e)
      have hlen := length_removeFromWorking h hv
      dsimp only
      rw [hlen, simplify]
      exact ih (ok_removeFromWorking h _) (show (removeFromWorking working
        (choose working (iter (keys working)))).length < fuel by omega) _

theorem length_removeFromWorking_le (working : InterferenceGraph) (v : Int) :
    (removeFromWorking working v).length ≤ working.length := by
  have hlen := List.length_filter_le (fun u => decide (u ≠ v)) (keys working)
  rw [← keys_removeFromWorking, keys, List.length_map, keys, List.length_map] at hlen
  exact hlen

theorem spillPhase_length_le (graph : InterferenceGraph) (forcedSpills : List Int)
    (arrayGroups : List (List Int)) :
    (spillPhase graph forcedSpills arrayGroups).2.length ≤ graph.length := by
  unfold spillPhase
  refine List.foldlRecOn (motive := fun s : RegisterAllocation × InterferenceGraph =>
    s.2.length ≤ graph.length) _ _ ?_ fun s h v _ => ?_
  · refine List.foldlRecOn (motive := fun s : RegisterAllocation × InterferenceGraph =>
      s.2.length ≤ graph.length) _ _ le_rfl fun s h group _ => ?_
    exact List.foldlRecOn (motive := fun s : RegisterAllocation × InterferenceGraph =>
      s.2.length ≤ graph.length) group _ h fun s h v _ => (length_removeFromWorking_le _ v).trans h
  · unfold spillForced
    split
    · exact h
    · exact (length_removeFromWorking_le _ v).trans h

/-- One round more than there are values is enough. -/
theorem allocateWithin_eq {iter : List Int → List Int} (hiter : IterOrder iter)
    {graph : InterferenceGraph} (hok : Table.Ok graph) (forcedSpills : List Int)
    (arrayGroups : List (List Int)) {fuel : Nat} (hf : graph.length < fuel) :
    allocateWithin fuel iter graph forcedSpills arrayGroups =
      some (allocate iter graph forcedSpills arrayGroups) := by
  have hs := spillPhase_spilled hok forcedSpills arrayGroups
  have hlen := spillPhase_length_le graph forcedSpills arrayGroups
  rw [allocate_eq]
  show (simplifyLoop iter fuel (spillPhase graph forcedSpills arrayGroups).2 []).map _ = _
  rw [simplifyLoop_eq hiter fuel hs.ok (hlen.trans_lt hf)]
  rfl

/-! ## The working graph is an induced subgraph -/

/-- `working` is the subgraph of `graph` on the keys that are left. -/
structure Induced (graph working : InterferenceGraph) : Prop where
  ok : Table.Ok working
  keys : ∀ v ∈ keys working, v ∈ keys graph
  mem : ∀ {v}, v ∈ RegisterAllocator.keys working → ∀ u,
    u ∈ neighbors working v ↔ u ∈ neighbors graph v ∧ u ∈ RegisterAllocator.keys working

theorem mem_keys_iff {working : InterferenceGraph} {v : Int} :
    v ∈ keys working ↔ ∃ ns, working.find v = some ns := by
  refine ⟨fun h => ?_, fun ⟨ns, h⟩ => List.mem_map.mpr ⟨_, Table.mem_of_find h, rfl⟩⟩
  obtain ⟨⟨u, ns⟩, he, rfl⟩ := List.mem_map.mp h
  exact Table.find_isSome_of_mem he

theorem mem_keys_of_neighbor {graph : InterferenceGraph} {v u : Int}
    (h : u ∈ neighbors graph v) : v ∈ keys graph := by
  unfold neighbors at h
  cases e : graph.find v with
  | none => rw [e] at h; cases h
  | some ns => exact mem_keys_iff.mpr ⟨ns, e⟩

theorem Symmetric.mem_keys {graph : InterferenceGraph} (h : Symmetric graph) {v u : Int}
    (hu : u ∈ neighbors graph v) : u ∈ keys graph := mem_keys_of_neighbor (h v u hu).2

theorem Induced.refl {graph : InterferenceGraph} (hok : Table.Ok graph)
    (hsymm : Symmetric graph) : Induced graph graph :=
  ⟨hok, fun _ h => h, fun _ _ => ⟨fun h => ⟨h, hsymm.mem_keys h⟩, And.left⟩⟩

theorem find_map_sets (f : Int → Finset Int → Finset Int) (working : InterferenceGraph) (u : Int) :
    Table.find (working.map fun e => (e.1, f e.1 e.2)) u = (working.find u).map (f u) := by
  induction working with
  | nil => rfl
  | cons e working ih =>
    rw [List.map_cons, Table.find_cons, Table.find_cons]
    split
    · rename_i e; rw [e]; rfl
    · exact ih

/-- The sets after a removal. -/
theorem find_removeFromWorking {working : InterferenceGraph} {v : Int} {ns : Finset Int}
    (hv : working.find v = some ns) {u : Int} (hu : u ≠ v) :
    (removeFromWorking working v).find u =
      (working.find u).map fun s => if u ∈ ns then s.erase v else s := by
  unfold removeFromWorking
  rw [hv]
  dsimp only
  rw [Table.find_erase, if_neg hu, ← find_map_sets fun u s => if u ∈ ns then s.erase v else s]
  congr 1
  refine List.map_congr_left fun e _ => ?_
  split <;> rfl

theorem Induced.removeFromWorking {graph working : InterferenceGraph} (hsymm : Symmetric graph)
    (h : Induced graph working) (v : Int) :
    Induced graph (RegisterAllocator.removeFromWorking working v) where
  ok := ok_removeFromWorking h.ok v
  keys u hu := h.keys u (mem_keys_removeFromWorking.mp hu).1
  mem {u} hu w := by
    obtain ⟨hu, hne⟩ := mem_keys_removeFromWorking.mp hu
    rw [mem_keys_removeFromWorking]
    by_cases hv : v ∈ RegisterAllocator.keys working
    · obtain ⟨ns, hns⟩ := mem_keys_iff.mp hv
      obtain ⟨us, hus⟩ := mem_keys_iff.mp hu
      have hmem : w ∈ us ↔ w ∈ neighbors graph u ∧ w ∈ RegisterAllocator.keys working := by
        rw [← h.mem hu w, neighbors, hus]; rfl
      rw [neighbors, find_removeFromWorking hns hne, hus]
      show w ∈ (if u ∈ ns then us.erase v else us) ↔ _
      split
      · rw [Finset.mem_erase, hmem]
        tauto
      · rename_i hu'
        -- the set of `u` does not mention `v`, as the set of `v` does not mention `u`
        have hvu : v ∉ neighbors graph u := fun hvu => hu' <| by
          have := (h.mem hv u).mpr ⟨(hsymm u v hvu).2, hu⟩
          rwa [neighbors, hns] at this
        rw [hmem]
        constructor
        · rintro ⟨hw, hk⟩
          refine ⟨hw, hk, ?_⟩
          rintro rfl
          exact hvu hw
        · rintro ⟨hw, hk, -⟩
          exact ⟨hw, hk⟩
    · have e : RegisterAllocator.removeFromWorking working v = working := by
        unfold RegisterAllocator.removeFromWorking
        cases hf : working.find v with
        | none => rfl
        | some ns => exact absurd (mem_keys_iff.mpr ⟨ns, hf⟩) hv
      rw [e, h.mem hu w]
      refine and_congr_right fun _ => ⟨fun hk => ⟨hk, ?_⟩, And.left⟩
      rintro rfl
      exact hv hk

theorem spillPhase_induced {graph : InterferenceGraph} (hok : Table.Ok graph)
    (hsymm : Symmetric graph) (forcedSpills : List Int) (arrayGroups : List (List Int)) :
    Induced graph (spillPhase graph forcedSpills arrayGroups).2 := by
  unfold spillPhase
  refine List.foldlRecOn (motive := fun s : RegisterAllocation × InterferenceGraph =>
    Induced graph s.2) _ _ ?_ fun s h v _ => ?_
  · refine List.foldlRecOn (motive := fun s : RegisterAllocation × InterferenceGraph =>
      Induced graph s.2) _ _ (Induced.refl hok hsymm) fun s h group _ => ?_
    exact List.foldlRecOn (motive := fun s : RegisterAllocation × InterferenceGraph =>
      Induced graph s.2) group _ h fun s h v _ => h.removeFromWorking hsymm v
  · unfold spillForced
    split
    · exact h
    · exact h.removeFromWorking hsymm v

/-! ## The order of the stack -/

/-- Every nonempty set of values has one with fewer neighbors in it than there are registers. -/
def Degenerate (graph : InterferenceGraph) : Prop :=
  ∀ S : Finset Int, S.Nonempty → (∀ v ∈ S, v ∈ keys graph) →
    ∃ v ∈ S, (neighbors graph v ∩ S).card < pool.length

theorem Induced.neighbors_eq {graph working : InterferenceGraph} (h : Induced graph working)
    {v : Int} (hv : v ∈ RegisterAllocator.keys working) :
    neighbors working v = neighbors graph v ∩ (RegisterAllocator.keys working).toFinset := by
  ext u
  rw [Finset.mem_inter, List.mem_toFinset, h.mem hv]

/-- In a degenerate graph no round removes a potential spill. -/
theorem Induced.degree_choose {graph working : InterferenceGraph} (h : Induced graph working)
    (hd : Degenerate graph) {iter : List Int → List Int} (hiter : IterOrder iter)
    (hne : working ≠ []) :
    degree working (choose working (iter (RegisterAllocator.keys working))) < pool.length := by
  obtain ⟨v, hv, hdeg⟩ := hd (RegisterAllocator.keys working).toFinset
    ⟨_, List.mem_toFinset.mpr (chosen_mem hiter hne)⟩
    fun v hv => h.keys v (List.mem_toFinset.mp hv)
  rw [List.mem_toFinset] at hv
  rw [← h.neighbors_eq hv] at hdeg
  unfold choose
  split
  · rename_i u hu
    have := List.find?_some hu
    exact of_decide_eq_true this
  · rename_i hnone
    have := List.find?_eq_none.mp hnone v ((hiter _).mem_iff.mpr hv)
    exact absurd (decide_eq_true hdeg) this

/-- Every value has few neighbors among those above it on the stack. -/
def FewAbove (graph : InterferenceGraph) (stack : List Int) : Prop :=
  ∀ above v below, stack = above ++ v :: below →
    (neighbors graph v ∩ above.toFinset).card < pool.length

theorem simplify_append (iter : List Int → List Int) (n : Nat) (working : InterferenceGraph)
    (stack : List Int) : simplify iter n working stack = simplify iter n working [] ++ stack := by
  induction n generalizing working stack with
  | zero => rfl
  | succ n ih =>
    unfold simplify
    dsimp only
    rw [ih, ih _ [_], List.append_assoc, List.singleton_append]

/-- The degrees in the working graph bound the neighbors above. -/
theorem simplify_fewAbove {iter : List Int → List Int} (hiter : IterOrder iter)
    {graph : InterferenceGraph} (hsymm : Symmetric graph) (hd : Degenerate graph) (n : Nat)
    {working : InterferenceGraph} (h : Induced graph working) (hn : working.length = n) :
    FewAbove graph (simplify iter n working []) := by
  induction n generalizing working with
  | zero =>
    intro above v below e
    cases above <;> cases e
  | succ n ih =>
    have hne : working ≠ [] := fun e => by rw [e] at hn; cases hn
    have hv := chosen_mem hiter hne
    have hdeg := h.degree_choose hd hiter hne
    have hlen := length_removeFromWorking h.ok hv
    unfold simplify
    dsimp only
    rw [simplify_append]
    generalize hc : choose working (iter (working.map Prod.fst)) = chosen
    have hc : choose working (iter (keys working)) = chosen := hc
    rw [hc] at hv hdeg hlen
    have hn' : (RegisterAllocator.removeFromWorking working chosen).length = n := by omega
    intro above v below e
    rcases List.eq_nil_or_concat below with rfl | ⟨below, u, rfl⟩
    · obtain ⟨rfl, hlast⟩ := List.append_inj' e rfl
      obtain rfl : chosen = v := List.singleton_inj.mp hlast
      refine (Finset.card_le_card fun u hu => ?_).trans_lt hdeg
      rw [Finset.mem_inter, List.mem_toFinset] at hu
      have hu' := (simplify_perm hiter n (ok_removeFromWorking h.ok chosen) hn' []).mem_iff.mp hu.2
      rw [List.append_nil, mem_keys_removeFromWorking] at hu'
      exact (h.mem hv u).mpr ⟨hu.1, hu'.1⟩
    · rw [List.concat_eq_append, ← List.cons_append, ← List.append_assoc] at e
      exact ih (h.removeFromWorking hsymm chosen) hn' above v below (List.append_inj' e rfl).1

/-! ## Actual spills -/

theorem select_registers_ne (graph : InterferenceGraph) (r : RegisterAllocation) {v u : Int}
    (h : u ≠ v) : (select graph r v).registers.find u = r.registers.find u := by
  unfold select
  dsimp only
  split
  · exact Table.find_insert_ne _ _ h
  · rfl

theorem select_spillSlots_ne (graph : InterferenceGraph) (r : RegisterAllocation) {v u : Int}
    (h : u ≠ v) : (select graph r v).spillSlots.find u = r.spillSlots.find u := by
  unfold select
  dsimp only
  split
  · rfl
  · rw [spill_find, if_neg h]

theorem selects_registers_of_not_mem (graph : InterferenceGraph) (stack : List Int)
    (r : RegisterAllocation) {u : Int} (h : u ∉ stack) :
    (stack.foldl (select graph) r).registers.find u = r.registers.find u := by
  induction stack generalizing r with
  | nil => rfl
  | cons v stack ih =>
    obtain ⟨hne, h⟩ := not_or.mp fun e => h (List.mem_cons.mpr e)
    exact (ih _ h).trans (select_registers_ne graph r hne)

/-- A value is spilled only where its neighbors use the whole pool. -/
theorem select_none {graph : InterferenceGraph} {r : RegisterAllocation} {v : Int}
    (h : (select graph r v).registers.find v = none) {x : Reg} (hx : x ∈ pool) :
    ∃ u ∈ neighbors graph v, r.registers.find u = some x := by
  unfold select at h
  dsimp only at h
  split at h
  · rw [Table.find_insert_self] at h
    cases h
  · rename_i hnone
    have := List.find?_eq_none.mp hnone x hx
    simpa using this

/-- The neighbors that force a spill are above the value, and their registers are final. -/
theorem selects_none {graph : InterferenceGraph} (hsymm : Symmetric graph)
    {r₀ : RegisterAllocation} (hr : r₀.registers = []) {stack : List Int} (hd : stack.Nodup)
    {v : Int} (hv : v ∈ stack) (h : (stack.foldl (select graph) r₀).registers.find v = none) :
    ∃ above below, stack = above ++ v :: below ∧ ∀ x ∈ pool, ∃ u ∈ neighbors graph v,
      u ∈ above ∧ (stack.foldl (select graph) r₀).registers.find u = some x := by
  obtain ⟨above, below, rfl⟩ := List.append_of_mem hv
  obtain ⟨hd₁, hd₂, hdis⟩ := List.nodup_append.mp hd
  have hc := Colored.selects hsymm above (D := []) (Colored.start graph hr)
    (by rw [List.append_nil]; exact hd₁)
  rw [List.foldl_append, List.foldl_cons] at h ⊢
  rw [selects_registers_of_not_mem graph below _ (List.nodup_cons.mp hd₂).1] at h
  refine ⟨above, below, rfl, fun x hx => ?_⟩
  obtain ⟨u, hu, hux⟩ := select_none h hx
  have hua : u ∈ above := by
    have := (hc.register hux).1
    rwa [List.append_nil, List.mem_reverse] at this
  refine ⟨u, hu, hua, ?_⟩
  rw [selects_registers_of_not_mem graph below _ fun hub =>
      hdis u hua u (List.mem_cons_of_mem _ hub) rfl,
    select_registers_ne graph _ fun e : u = v => hdis u hua v List.mem_cons_self e]
  exact hux

/-- Where every value has few neighbors above it, all get a register. -/
theorem FewAbove.selects {graph : InterferenceGraph} (hsymm : Symmetric graph)
    {r₀ : RegisterAllocation} (hr : r₀.registers = []) {stack : List Int} (hd : stack.Nodup)
    (hfew : FewAbove graph stack) {v : Int} (hv : v ∈ stack) :
    (stack.foldl (select graph) r₀).registers.find v ≠ none := by
  intro h
  obtain ⟨above, below, e, hall⟩ := selects_none hsymm hr hd hv h
  choose! f hf using hall
  have hcard := Finset.card_le_card_of_injOn (s := pool.toFinset)
    (t := neighbors graph v ∩ above.toFinset) f
    (fun x hx => by
      obtain ⟨hn, ha, _⟩ := hf x (List.mem_toFinset.mp hx)
      exact Finset.mem_coe.mpr (Finset.mem_inter.mpr ⟨hn, List.mem_toFinset.mpr ha⟩))
    (fun x hx y hy exy => by
      have hx' := (hf x (List.mem_toFinset.mp hx)).2.2
      have hy' := (hf y (List.mem_toFinset.mp hy)).2.2
      rw [exy, hy'] at hx'
      exact (Option.some.inj hx').symm)
  exact absurd (hfew above v below e) (not_lt.mpr hcard)

/-! ## Dense slots -/

/-- Every slot below the count is some value's. -/
def Dense (r : RegisterAllocation) : Prop :=
  ∀ n < r.spillSlotCount, ∃ v, r.spillSlots.find v = some n

theorem Dense.spill {r : RegisterAllocation} (h : Dense r) {v : Int}
    (hv : r.spillSlots.find v = none) : Dense (RegisterAllocator.spill r v) := by
  intro n hn
  rcases Nat.lt_succ_iff_lt_or_eq.mp hn with hn | rfl
  · obtain ⟨u, hu⟩ := h n hn
    refine ⟨u, ?_⟩
    rw [spill_find, if_neg, hu]
    rintro rfl
    rw [hv] at hu
    cases hu
  · exact ⟨v, by rw [spill_find, if_pos rfl]⟩

theorem Dense.spillGroup (group : List Int) {s : RegisterAllocation × InterferenceGraph}
    (h : Dense s.1) (hd : group.Nodup) (hv : ∀ v ∈ group, s.1.spillSlots.find v = none) :
    Dense (RegisterAllocator.spillGroup s group).1 := by
  induction group generalizing s with
  | nil => exact h
  | cons v group ih =>
    obtain ⟨hvg, hd⟩ := List.nodup_cons.mp hd
    refine ih (s := (_, _)) (h.spill (hv v List.mem_cons_self)) hd fun u hu => ?_
    rw [spill_find, if_neg fun e : u = v => hvg (e ▸ hu)]
    exact hv u (List.mem_cons_of_mem _ hu)

theorem Dense.spillForced {s : RegisterAllocation × InterferenceGraph} (h : Dense s.1) (v : Int) :
    Dense (RegisterAllocator.spillForced s v).1 := by
  unfold RegisterAllocator.spillForced
  split
  · exact h
  · rename_i hc
    exact h.spill (Table.not_contains_iff.mp (Bool.not_eq_true _ ▸ hc))

theorem spillGroups_eq (arrayGroups : List (List Int))
    (s : RegisterAllocation × InterferenceGraph) :
    arrayGroups.foldl spillGroup s = spillGroup s arrayGroups.flatten := by
  unfold spillGroup
  exact List.foldl_flatten.symm

theorem spillPhase_dense (graph : InterferenceGraph) (forcedSpills : List Int)
    {arrayGroups : List (List Int)} (hg : arrayGroups.flatten.Nodup) :
    Dense (spillPhase graph forcedSpills arrayGroups).1 := by
  unfold spillPhase
  refine List.foldlRecOn (motive := fun s : RegisterAllocation × InterferenceGraph => Dense s.1)
    _ _ ?_ fun s h v _ => h.spillForced v
  rw [spillGroups_eq]
  exact Dense.spillGroup _ (fun n hn => absurd hn (Nat.not_lt_zero n)) hg fun _ _ => rfl

theorem Dense.selects (graph : InterferenceGraph) (stack : List Int) {r : RegisterAllocation}
    (h : Dense r) (hd : stack.Nodup) (hv : ∀ v ∈ stack, r.spillSlots.find v = none) :
    Dense (stack.foldl (select graph) r) := by
  induction stack generalizing r with
  | nil => exact h
  | cons v stack ih =>
    obtain ⟨hvs, hd⟩ := List.nodup_cons.mp hd
    refine ih ?_ hd fun u hu => ?_
    · unfold select
      dsimp only
      split
      · exact h
      · exact h.spill (hv v List.mem_cons_self)
    · rw [select_spillSlots_ne graph r fun e : u = v => hvs (e ▸ hu)]
      exact hv u (List.mem_cons_of_mem _ hu)

/-! ## The allocation -/

/-- Neither forced nor in a group, a value is still working after the spill phase. -/
theorem spillPhase_working {graph : InterferenceGraph} (hok : Table.Ok graph)
    {forcedSpills : List Int} {arrayGroups : List (List Int)} {v : Int} (hv : v ∈ keys graph)
    (hforced : v ∉ forcedSpills) (hgroup : v ∉ arrayGroups.flatten) :
    v ∈ keys (spillPhase graph forcedSpills arrayGroups).2 := by
  refine ((spillPhase_spilled hok forcedSpills arrayGroups).located v hv).resolve_right ?_
  rintro ⟨n, hn⟩
  have hnone : (spillPhase graph forcedSpills arrayGroups).1.spillSlots.find v = none := by
    unfold spillPhase
    refine List.foldlRecOn (motive := fun s : RegisterAllocation × InterferenceGraph =>
      s.1.spillSlots.find v = none) _ _ ?_ fun s h u hu => ?_
    · rw [spillGroups_eq, spillGroup_find_of_not_mem _ _ hgroup]
      rfl
    · unfold spillForced
      split
      · exact h
      · rw [spill_find, if_neg fun e : v = u => hforced (e ▸ hu)]
        exact h
  rw [hnone] at hn
  cases hn

/-- The stack of the simplify loop, its top first. -/
def stackOf (iter : List Int → List Int) (graph : InterferenceGraph) (forcedSpills : List Int)
    (arrayGroups : List (List Int)) : List Int :=
  let s := spillPhase graph forcedSpills arrayGroups
  simplify iter s.2.length s.2 []

/-- A valid coloring of the graph, in the order `stack` of the select phase. -/
structure Valid (graph : InterferenceGraph) (forcedSpills : List Int)
    (arrayGroups : List (List Int)) (stack : List Int) (result : RegisterAllocation) : Prop where
  /-- Every value has one of a register and a slot. -/
  located : ∀ v, v ∈ keys graph ∨ v ∈ forcedSpills ∨ v ∈ arrayGroups.flatten →
    Xor (∃ x ∈ pool, result.registers.find v = some x) (∃ n, result.spillSlots.find v = some n)
  /-- Slots are distinct. -/
  distinct : ∀ v u n, result.spillSlots.find v = some n → result.spillSlots.find u = some n → v = u
  /-- Slots are `0..spillSlotCount - 1`. -/
  slots : ∀ n, n < result.spillSlotCount ↔ ∃ v, result.spillSlots.find v = some n
  /-- A group has consecutive slots in its order. -/
  group : ∀ group ∈ arrayGroups, ∃ base, ∀ (i : Nat) (v : Int), group[i]? = some v →
    result.spillSlots.find v = some (base + i)
  /-- What is forced or in a group has no register. -/
  forced : ∀ v, v ∈ forcedSpills ∨ v ∈ arrayGroups.flatten → result.registers.find v = none
  /-- Neighbors have different registers. -/
  ne : ∀ v u x y, u ∈ neighbors graph v → result.registers.find v = some x →
    result.registers.find u = some y → x ≠ y
  /-- Another value is spilled only where neighbors colored before it use all registers. -/
  spilled : ∀ v ∈ keys graph, v ∉ forcedSpills → v ∉ arrayGroups.flatten →
    result.registers.find v = none → ∃ above below, stack = above ++ v :: below ∧
      ∀ x ∈ pool, ∃ u ∈ neighbors graph v, u ∈ above ∧ result.registers.find u = some x
  /-- In a degenerate graph no other value is spilled. -/
  degenerate : Degenerate graph → ∀ v ∈ keys graph, v ∉ forcedSpills → v ∉ arrayGroups.flatten →
    ∃ x ∈ pool, result.registers.find v = some x

/-- The allocator stops, and what it returns is a valid coloring. -/
theorem allocate_valid {iter : List Int → List Int} (hiter : IterOrder iter)
    {graph : InterferenceGraph} (hok : Table.Ok graph) (hsymm : Symmetric graph)
    (forcedSpills : List Int) {arrayGroups : List (List Int)}
    (hgroups : arrayGroups.flatten.Nodup) :
    (∀ fuel, graph.length < fuel → allocateWithin fuel iter graph forcedSpills arrayGroups =
      some (allocate iter graph forcedSpills arrayGroups)) ∧
    Valid graph forcedSpills arrayGroups (stackOf iter graph forcedSpills arrayGroups)
      (allocate iter graph forcedSpills arrayGroups) := by
  have hs := spillPhase_spilled hok forcedSpills arrayGroups
  have hslots := allocate_slotsOk iter graph forcedSpills arrayGroups
  have hperm : (stackOf iter graph forcedSpills arrayGroups).Perm
      (keys (spillPhase graph forcedSpills arrayGroups).2) :=
    (simplify_perm hiter _ hs.ok rfl []).trans (.of_eq (List.append_nil _))
  have hnodup := hperm.nodup_iff.mpr hs.ok
  have hstack : ∀ v ∈ keys graph, v ∉ forcedSpills → v ∉ arrayGroups.flatten →
      v ∈ stackOf iter graph forcedSpills arrayGroups := fun v hv hf hg =>
    hperm.mem_iff.mpr (spillPhase_working hok hv hf hg)
  have hdense : Dense (allocate iter graph forcedSpills arrayGroups) :=
    (spillPhase_dense graph forcedSpills hgroups).selects graph _ hnodup fun v hv =>
      hs.working v (hperm.mem_iff.mp hv)
  have hregister : ∀ {v}, (∃ n, (allocate iter graph forcedSpills
      arrayGroups).spillSlots.find v = some n) → ∀ x,
      (allocate iter graph forcedSpills arrayGroups).registers.find v ≠ some x := by
    rintro v ⟨n, hn⟩ x hx
    rw [(allocate_register hiter hok hsymm forcedSpills arrayGroups hx).2] at hn
    cases hn
  have hforced : ∀ v, v ∈ forcedSpills ∨ v ∈ arrayGroups.flatten →
      (∃ n, (allocate iter graph forcedSpills arrayGroups).spillSlots.find v = some n) ∧
      (allocate iter graph forcedSpills arrayGroups).registers.find v = none := by
    rintro v (hv | hv)
    · exact allocate_forced hiter hok hsymm forcedSpills hv
    · obtain ⟨group, hg, hv⟩ := List.mem_flatten.mp hv
      obtain ⟨base, hb⟩ := allocate_group hiter hok hsymm forcedSpills hgroups hg
      obtain ⟨i, hi⟩ := List.mem_iff_getElem?.mp hv
      exact ⟨⟨base + i, (hb i v hi).1⟩, (hb i v hi).2⟩
  refine ⟨fun fuel => allocateWithin_eq hiter hok forcedSpills arrayGroups, ?_,
    fun v u n hv hu => hslots.inj hv hu, fun n => ⟨hdense n, fun ⟨v, hv⟩ => hslots.lt hv⟩,
    fun group hg => ?_, fun v hv => (hforced v hv).2, fun v u x y => ?_, ?_, ?_⟩
  · intro v hv
    have hloc : (∃ x, (allocate iter graph forcedSpills arrayGroups).registers.find v = some x) ∨
        ∃ n, (allocate iter graph forcedSpills arrayGroups).spillSlots.find v = some n := by
      rcases hv with hv | hv
      · exact allocate_located hiter hok hsymm forcedSpills arrayGroups hv
      · exact .inr (hforced v hv).1
    rcases hloc with ⟨x, hx⟩ | hn
    · obtain ⟨hpool, hnone⟩ := allocate_register hiter hok hsymm forcedSpills arrayGroups hx
      refine .inl ⟨⟨x, hpool, hx⟩, ?_⟩
      rintro ⟨n, hn⟩
      rw [hnone] at hn
      cases hn
    · exact .inr ⟨hn, fun ⟨x, _, hx⟩ => hregister hn x hx⟩
  · obtain ⟨base, hb⟩ := allocate_group hiter hok hsymm forcedSpills hgroups hg
    exact ⟨base, fun i v hi => (hb i v hi).1⟩
  · obtain ⟨done, -, hc⟩ := allocate_colored hiter hok hsymm forcedSpills arrayGroups
    exact hc.ne
  · intro v hv hf hg h
    exact selects_none hsymm hs.registers hnodup (hstack v hv hf hg) h
  · intro hd v hv hf hg
    have hfew : FewAbove graph (stackOf iter graph forcedSpills arrayGroups) :=
      simplify_fewAbove hiter hsymm hd _ (spillPhase_induced hok hsymm forcedSpills _) rfl
    obtain ⟨x, hx⟩ := Option.ne_none_iff_exists'.mp
      (hfew.selects hsymm hs.registers hnodup (hstack v hv hf hg))
    exact ⟨x, (allocate_register hiter hok hsymm forcedSpills arrayGroups hx).1, hx⟩

/-- Five values that all interfere. -/
def complete : InterferenceGraph :=
  [(1, {2, 3, 4, 5}), (2, {1, 3, 4, 5}), (3, {1, 2, 4, 5}), (4, {1, 2, 3, 5}), (5, {1, 2, 3, 4})]

theorem complete_ok : Table.Ok complete := by
  unfold Table.Ok
  decide

theorem complete_symm : Symmetric complete := by
  intro v u h
  obtain ⟨ns, hns⟩ := mem_keys_iff.mp (mem_keys_of_neighbor h)
  rw [neighbors, hns] at h
  have hall : ∀ e ∈ complete, ∀ u ∈ e.2, e.1 ≠ u ∧ e.1 ∈ neighbors complete u := by decide
  exact hall _ (Table.mem_of_find hns) u h

theorem allocate_valid_complete :
    ((∀ fuel, 5 < fuel → allocateWithin fuel List.reverse complete [7, 7] [[8, 9]] =
      some (allocate List.reverse complete [7, 7] [[8, 9]])) ∧
    Valid complete [7, 7] [[8, 9]] (stackOf List.reverse complete [7, 7] [[8, 9]])
      (allocate List.reverse complete [7, 7] [[8, 9]])) ∧
    (allocate List.reverse complete [7, 7] [[8, 9]]).spillSlotCount = 4 :=
  ⟨allocate_valid (fun ks => ks.reverse_perm) complete_ok complete_symm [7, 7] (by decide),
    by decide⟩

end RegisterAllocator
end Oglang
end Techuila
