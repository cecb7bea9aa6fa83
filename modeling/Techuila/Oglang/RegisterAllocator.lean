import Techuila.Lib.X86
import Techuila.Oglang.Analysis

/-!
# Register allocation (`codegen/register_allocator.cpp`)

The order in which an `unordered_map` is iterated is a parameter `iter`: it lists the given keys in
some order. The neighbor sets are iterated too, but there the order makes no difference.

* `allocate_slotsOk`: spill slots are distinct and below `spillSlotCount`.
* `allocate_located`: every value of the graph has a register or a slot.
* `allocate_colored`: neighbors have different registers.
* `allocate_group`, `allocate_forced`: a group has contiguous slots in its order, and what was
  forced has a slot.
-/

namespace Techuila
namespace Oglang

open X86 (Reg)

structure RegisterAllocation where
  registers : Table Int Reg := []
  spillSlots : Table Int Nat := []
  spillSlotCount : Nat := 0

namespace RegisterAllocator

/-- The pool: `eax`, `ecx`, `edx`, `esi`. -/
def pool : List Reg := [.rax, .rcx, .rdx, .rsi]

/-- Takes a value out of the working graph and its neighbors' sets. -/
def removeFromWorking (working : InterferenceGraph) (value : Int) : InterferenceGraph :=
  match working.find value with
  | none => working
  | some neighbors =>
    Table.erase (working.map fun e =>
      if e.1 ∈ neighbors then (e.1, e.2.erase value) else e) value

/-- `result.spillSlots[value] = result.spillSlotCount++`. -/
def spill (result : RegisterAllocation) (value : Int) : RegisterAllocation :=
  { result with
    spillSlots := result.spillSlots.insert value result.spillSlotCount
    spillSlotCount := result.spillSlotCount + 1 }

/-- The slots of one group, in order. -/
def spillGroup (s : RegisterAllocation × InterferenceGraph) (group : List Int) :
    RegisterAllocation × InterferenceGraph :=
  group.foldl (fun (result, working) value =>
    (spill result value, removeFromWorking working value)) s

/-- The slot of a forced spill, unless it has one. -/
def spillForced (s : RegisterAllocation × InterferenceGraph) (value : Int) :
    RegisterAllocation × InterferenceGraph :=
  if s.1.spillSlots.contains value then s
  else (spill s.1 value, removeFromWorking s.2 value)

def degree (working : InterferenceGraph) (value : Int) : Nat :=
  (InterferenceAnalyzer.neighbors working value).card

/-- The first value in `keys` of the highest degree, above `highestDegree` at least. -/
def highest (working : InterferenceGraph) (highestDegree : Int) (chosen : Int) :
    List Int → Int
  | [] => chosen
  | value :: keys =>
    if (degree working value : Int) > highestDegree then
      highest working (degree working value) value keys
    else highest working highestDegree chosen keys

/-- The value that the next round removes. -/
def choose (working : InterferenceGraph) (keys : List Int) : Int :=
  match keys.find? fun value => degree working value < pool.length with
  | some value => value
  | none => highest working (-1) (keys.headD 0) keys

/-- The simplify loop, with `n` rounds to go; the stack with its top first. -/
def simplify (iter : List Int → List Int) :
    Nat → InterferenceGraph → (stack : List Int) → List Int
  | 0, _, stack => stack
  | n + 1, working, stack =>
    let chosen := choose working (iter (working.map Prod.fst))
    simplify iter n (removeFromWorking working chosen) (chosen :: stack)

/-- One round of the select phase. -/
def select (graph : InterferenceGraph) (result : RegisterAllocation) (value : Int) :
    RegisterAllocation :=
  let used (r : Reg) : Bool :=
    decide (∃ neighbor ∈ InterferenceAnalyzer.neighbors graph value,
      result.registers.find neighbor = some r)
  match pool.find? fun r => !used r with
  | some r => { result with registers := result.registers.insert value r }
  | none => spill result value

def allocate (iter : List Int → List Int) (graph : InterferenceGraph) (forcedSpills : List Int)
    (arrayGroups : List (List Int)) : RegisterAllocation :=
  let s := arrayGroups.foldl spillGroup ({}, graph)
  let (result, working) := forcedSpills.foldl spillForced s
  (simplify iter working.length working []).foldl (select graph) result

/-- The allocation of a function, as the driver computes it. -/
def allocationOf (iter : List Int → List Int) (ir : IRFunction) : RegisterAllocation :=
  allocate iter (InterferenceAnalyzer.build (LivenessAnalyzer.analyze ir)) ir.addressTakenValues
    ir.arrayGroups

/-! ## Slots -/

/-- Slots are below the count and distinct. -/
structure SlotsOk (r : RegisterAllocation) : Prop where
  lt : ∀ {v n}, r.spillSlots.find v = some n → n < r.spillSlotCount
  inj : ∀ {v u n}, r.spillSlots.find v = some n → r.spillSlots.find u = some n → v = u

@[simp] theorem spill_find (r : RegisterAllocation) (v u : Int) :
    (spill r v).spillSlots.find u =
      if u = v then some r.spillSlotCount else r.spillSlots.find u := Table.find_insert ..

theorem SlotsOk.spill {r : RegisterAllocation} (h : SlotsOk r) (v : Int) :
    SlotsOk (RegisterAllocator.spill r v) where
  lt {u n} hu := by
    rw [spill_find] at hu
    show n < r.spillSlotCount + 1
    split at hu
    · cases hu; exact Nat.lt_succ_self _
    · exact (h.lt hu).trans (Nat.lt_succ_self _)
  inj {u w n} hu hw := by
    rw [spill_find] at hu hw
    split at hu <;> split at hw
    · rename_i e e'; rw [e, e']
    · cases hu; exact absurd (h.lt hw) (lt_irrefl _)
    · cases hw; exact absurd (h.lt hu) (lt_irrefl _)
    · exact h.inj hu hw

theorem SlotsOk.select {r : RegisterAllocation} (h : SlotsOk r) (graph : InterferenceGraph)
    (v : Int) : SlotsOk (RegisterAllocator.select graph r v) := by
  unfold RegisterAllocator.select
  dsimp only
  split
  · exact ⟨h.lt, h.inj⟩
  · exact h.spill v

theorem SlotsOk.spillGroup (group : List Int) {s : RegisterAllocation × InterferenceGraph}
    (h : SlotsOk s.1) : SlotsOk (RegisterAllocator.spillGroup s group).1 := by
  induction group generalizing s with
  | nil => exact h
  | cons v group ih => exact ih (s := (_, _)) (h.spill v)

theorem SlotsOk.spillForced {s : RegisterAllocation × InterferenceGraph} (h : SlotsOk s.1)
    (v : Int) : SlotsOk (RegisterAllocator.spillForced s v).1 := by
  unfold RegisterAllocator.spillForced
  split
  · exact h
  · exact h.spill v

/-- Spill slots are distinct and inside the frame. -/
theorem allocate_slotsOk (iter : List Int → List Int) (graph : InterferenceGraph)
    (forcedSpills : List Int) (arrayGroups : List (List Int)) :
    SlotsOk (allocate iter graph forcedSpills arrayGroups) := by
  have h₀ : SlotsOk ({} : RegisterAllocation) := ⟨nofun, nofun⟩
  unfold allocate
  dsimp only
  refine List.foldlRecOn _ _ ?_ fun r h v _ => h.select graph v
  refine List.foldlRecOn (motive := fun s : RegisterAllocation × InterferenceGraph => SlotsOk s.1)
    _ _ ?_ fun s h v _ => h.spillForced v
  exact List.foldlRecOn (motive := fun s : RegisterAllocation × InterferenceGraph => SlotsOk s.1)
    _ _ h₀ fun s h g _ => h.spillGroup g

/-! ## The working graph -/

def keys (working : InterferenceGraph) : List Int := working.map Prod.fst

theorem keys_removeFromWorking (working : InterferenceGraph) (v : Int) :
    keys (removeFromWorking working v) = (keys working).filter fun u => u ≠ v := by
  unfold removeFromWorking
  split
  · rename_i e
    refine (List.filter_eq_self.mpr fun u hu => ?_).symm
    obtain ⟨e', he, rfl⟩ := List.mem_map.mp hu
    rw [decide_eq_true_iff]
    intro hv
    obtain ⟨n, hn⟩ := Table.find_isSome_of_mem (show (v, e'.2) ∈ working from hv ▸ he)
    rw [e] at hn
    cases hn
  · rename_i ns hns
    clear hns
    rw [keys, Table.erase, keys]
    induction working with
    | nil => rfl
    | cons e working ih =>
      have he : (if e.1 ∈ ns then (e.1, e.2.erase v) else e).1 = e.1 := by split <;> rfl
      rw [List.map_cons, List.filter_cons, List.map_cons, List.filter_cons, he]
      split
      · rw [List.map_cons, ih, he]
      · exact ih

theorem ok_removeFromWorking {working : InterferenceGraph} (h : Table.Ok working) (v : Int) :
    Table.Ok (removeFromWorking working v) := by
  show (keys _).Nodup
  rw [keys_removeFromWorking]
  exact List.Nodup.filter _ h

theorem mem_keys_removeFromWorking {working : InterferenceGraph} {v u : Int} :
    u ∈ keys (removeFromWorking working v) ↔ u ∈ keys working ∧ u ≠ v := by
  rw [keys_removeFromWorking, List.mem_filter, decide_eq_true_iff]

theorem highest_mem {working : InterferenceGraph} {ks l : List Int} {d chosen : Int}
    (hc : chosen ∈ ks) (hl : ∀ v ∈ l, v ∈ ks) : highest working d chosen l ∈ ks := by
  induction l generalizing d chosen with
  | nil => exact hc
  | cons v l ih =>
    unfold highest
    split
    · exact ih (hl v List.mem_cons_self) fun u hu => hl u (List.mem_cons_of_mem _ hu)
    · exact ih hc fun u hu => hl u (List.mem_cons_of_mem _ hu)

theorem choose_mem {working : InterferenceGraph} {ks : List Int} (h : ks ≠ []) :
    choose working ks ∈ ks := by
  unfold choose
  split
  · rename_i v hv
    exact List.mem_of_find?_eq_some hv
  · refine highest_mem ?_ fun v hv => hv
    cases ks with
    | nil => exact absurd rfl h
    | cons k ks => exact List.mem_cons_self

/-- `iter` lists the given keys in some order. -/
def IterOrder (iter : List Int → List Int) : Prop := ∀ ks, (iter ks).Perm ks

/-- What a round takes out of the working graph. -/
theorem chosen_mem {iter : List Int → List Int} (hiter : IterOrder iter)
    {working : InterferenceGraph} (hne : working ≠ []) :
    choose working (iter (keys working)) ∈ keys working := by
  refine (hiter _).subset (choose_mem fun e => hne ?_)
  have hlen := (hiter (keys working)).length_eq
  rw [e, keys, List.length_map] at hlen
  exact List.length_eq_zero_iff.mp hlen.symm

theorem keys_perm_removeFromWorking {working : InterferenceGraph} (h : Table.Ok working) {v : Int}
    (hv : v ∈ keys working) : (v :: keys (removeFromWorking working v)).Perm (keys working) := by
  rw [keys_removeFromWorking]
  have e : (keys working).filter (fun u => u ≠ v) = (keys working).erase v := by
    rw [show (keys working).erase v = _ from h.erase_eq_filter v]
    refine List.filter_congr fun u _ => ?_
    by_cases hu : u = v <;> simp [hu]
  rw [e]
  exact (List.perm_cons_erase hv).symm

theorem length_removeFromWorking {working : InterferenceGraph} (h : Table.Ok working) {v : Int}
    (hv : v ∈ keys working) : working.length = (removeFromWorking working v).length + 1 := by
  have hlen := (keys_perm_removeFromWorking h hv).length_eq
  rw [List.length_cons, keys, List.length_map, keys, List.length_map] at hlen
  exact hlen.symm

/-- The simplify loop puts every value of the working graph on the stack. -/
theorem simplify_perm {iter : List Int → List Int} (hiter : IterOrder iter) (n : Nat)
    {working : InterferenceGraph} (h : Table.Ok working) (hn : working.length = n)
    (stack : List Int) : (simplify iter n working stack).Perm (keys working ++ stack) := by
  induction n generalizing working stack with
  | zero =>
    obtain rfl := List.length_eq_zero_iff.mp hn
    exact .refl _
  | succ n ih =>
    have hne : working ≠ [] := fun e => by rw [e] at hn; cases hn
    have hv := chosen_mem hiter hne
    have hlen := length_removeFromWorking h hv
    unfold simplify
    refine (ih (ok_removeFromWorking h _) (show (removeFromWorking working
      (choose working (iter (keys working)))).length = n by omega) _).trans ?_
    exact List.perm_middle.trans (List.Perm.append_right stack (keys_perm_removeFromWorking h hv))

/-! ## Spilling -/

/-- The state between the phases: no working value has a slot, and every value of the graph is
working or has a slot. -/
structure Spilled (graph : InterferenceGraph) (s : RegisterAllocation × InterferenceGraph) :
    Prop where
  registers : s.1.registers = []
  ok : Table.Ok s.2
  working : ∀ v ∈ keys s.2, s.1.spillSlots.find v = none
  located : ∀ v ∈ keys graph, v ∈ keys s.2 ∨ ∃ n, s.1.spillSlots.find v = some n

theorem Spilled.spill {graph : InterferenceGraph} {s : RegisterAllocation × InterferenceGraph}
    (h : Spilled graph s) (v : Int) :
    Spilled graph (RegisterAllocator.spill s.1 v, removeFromWorking s.2 v) where
  registers := h.registers
  ok := ok_removeFromWorking h.ok v
  working u hu := by
    obtain ⟨hu, hne⟩ := mem_keys_removeFromWorking.mp hu
    rw [spill_find, if_neg hne]
    exact h.working u hu
  located u hu := by
    rw [mem_keys_removeFromWorking, spill_find]
    by_cases e : u = v
    · exact .inr ⟨_, if_pos e⟩
    · rw [if_neg e]
      exact (h.located u hu).imp_left fun hw => ⟨hw, e⟩

theorem Spilled.spillGroup {graph : InterferenceGraph} (group : List Int)
    {s : RegisterAllocation × InterferenceGraph} (h : Spilled graph s) :
    Spilled graph (RegisterAllocator.spillGroup s group) := by
  induction group generalizing s with
  | nil => exact h
  | cons v group ih => exact ih (s := (_, _)) (h.spill v)

theorem Spilled.spillForced {graph : InterferenceGraph}
    {s : RegisterAllocation × InterferenceGraph} (h : Spilled graph s) (v : Int) :
    Spilled graph (RegisterAllocator.spillForced s v) := by
  unfold RegisterAllocator.spillForced
  split
  · exact h
  · exact h.spill v

/-- What the allocation is just before the simplify loop. -/
def spillPhase (graph : InterferenceGraph) (forcedSpills : List Int)
    (arrayGroups : List (List Int)) : RegisterAllocation × InterferenceGraph :=
  forcedSpills.foldl spillForced (arrayGroups.foldl spillGroup ({}, graph))

theorem spillPhase_spilled {graph : InterferenceGraph} (hg : Table.Ok graph)
    (forcedSpills : List Int) (arrayGroups : List (List Int)) :
    Spilled graph (spillPhase graph forcedSpills arrayGroups) := by
  have h₀ : Spilled graph ({}, graph) := ⟨rfl, hg, fun _ _ => rfl, fun _ h => .inl h⟩
  unfold spillPhase
  refine List.foldlRecOn (motive := Spilled graph) _ _ ?_ fun s h v _ => h.spillForced v
  exact List.foldlRecOn (motive := Spilled graph) _ _ h₀ fun s h g _ => h.spillGroup g

theorem allocate_eq (iter : List Int → List Int) (graph : InterferenceGraph)
    (forcedSpills : List Int) (arrayGroups : List (List Int)) :
    allocate iter graph forcedSpills arrayGroups =
      (simplify iter (spillPhase graph forcedSpills arrayGroups).2.length
        (spillPhase graph forcedSpills arrayGroups).2 []).foldl (select graph)
        (spillPhase graph forcedSpills arrayGroups).1 := rfl

/-! ## Coloring -/

/-- The graph is symmetric, and no value is its own neighbor. -/
def Symmetric (graph : InterferenceGraph) : Prop :=
  ∀ v u, u ∈ InterferenceAnalyzer.neighbors graph v →
    v ≠ u ∧ v ∈ InterferenceAnalyzer.neighbors graph u

/-- The state of the select phase after the values `done`. -/
structure Colored (graph : InterferenceGraph) (r₀ r : RegisterAllocation) (done : List Int) :
    Prop where
  register : ∀ {v x}, r.registers.find v = some x → v ∈ done ∧ x ∈ pool ∧
    r.spillSlots.find v = r₀.spillSlots.find v
  located : ∀ v ∈ done, (∃ x, r.registers.find v = some x) ∨ ∃ n, r.spillSlots.find v = some n
  old : ∀ v, v ∉ done → r.spillSlots.find v = r₀.spillSlots.find v
  ne : ∀ {v u x y}, u ∈ InterferenceAnalyzer.neighbors graph v →
    r.registers.find v = some x → r.registers.find u = some y → x ≠ y

theorem Colored.start (graph : InterferenceGraph) {r₀ : RegisterAllocation}
    (hr : r₀.registers = []) : Colored graph r₀ r₀ [] := by
  refine ⟨fun {v x} hv => ?_, fun v hv => absurd hv List.not_mem_nil, fun _ _ => rfl,
    fun {v u x y} _ hv => ?_⟩
  · rw [hr] at hv; cases hv
  · rw [hr] at hv; cases hv

theorem Colored.select {graph : InterferenceGraph} {r₀ r : RegisterAllocation} {done : List Int}
    (hsymm : Symmetric graph) (h : Colored graph r₀ r done) {v : Int} (hv : v ∉ done) :
    Colored graph r₀ (RegisterAllocator.select graph r v) (v :: done) := by
  unfold RegisterAllocator.select
  dsimp only
  split
  · rename_i x hx
    have hused := List.find?_some hx
    simp only [Bool.not_eq_true', decide_eq_false_iff_not, not_exists, not_and] at hused
    have hpool := List.mem_of_find?_eq_some hx
    refine ⟨fun {u y} hu => ?_, fun u hu => ?_, fun u hu => ?_, fun {u w y z} hw hu hwz => ?_⟩
    · rw [Table.find_insert] at hu
      split at hu
      · rename_i e
        cases hu
        subst e
        exact ⟨List.mem_cons_self, hpool, h.old u hv⟩
      · obtain ⟨hd, hp, hs⟩ := h.register hu
        exact ⟨List.mem_cons_of_mem _ hd, hp, hs⟩
    · rw [Table.find_insert]
      rcases List.mem_cons.mp hu with rfl | hu
      · exact .inl ⟨x, if_pos rfl⟩
      · split
        · exact .inl ⟨x, rfl⟩
        · exact h.located u hu
    · exact h.old u fun hu' => hu (List.mem_cons_of_mem _ hu')
    · rw [Table.find_insert] at hu hwz
      split at hu <;> split at hwz
      · rename_i e e'
        exact absurd (e.trans e'.symm) (hsymm u w hw).1
      · rename_i e _
        cases hu
        rintro rfl
        exact hused w (e ▸ hw) hwz
      · rename_i _ e
        cases hwz
        rintro rfl
        exact hused u (e ▸ (hsymm u w hw).2) hu
      · exact h.ne hw hu hwz
  · refine ⟨fun {u y} hu => ?_, fun u hu => ?_, fun u hu => ?_, h.ne⟩
    · obtain ⟨hd, hp, hs⟩ := h.register hu
      refine ⟨List.mem_cons_of_mem _ hd, hp, ?_⟩
      rw [spill_find, if_neg fun e : u = v => hv (e ▸ hd)]
      exact hs
    · rw [spill_find]
      rcases List.mem_cons.mp hu with rfl | hu
      · exact .inr ⟨_, if_pos rfl⟩
      · refine (h.located u hu).imp_right fun ⟨n, hn⟩ => ?_
        rw [if_neg fun e : u = v => hv (e ▸ hu)]
        exact ⟨n, hn⟩
    · obtain ⟨hne, hu⟩ := not_or.mp fun h => hu (List.mem_cons.mpr h)
      rw [spill_find, if_neg hne]
      exact h.old u hu

theorem Colored.selects {graph : InterferenceGraph} {r₀ : RegisterAllocation}
    (hsymm : Symmetric graph) (stack : List Int)
    {r : RegisterAllocation} {D : List Int} (h : Colored graph r₀ r D)
    (hd : (stack ++ D).Nodup) :
    Colored graph r₀ (stack.foldl (RegisterAllocator.select graph) r) (stack.reverse ++ D) := by
  induction stack generalizing r D with
  | nil => exact h
  | cons v stack ih =>
    obtain ⟨hv, hd⟩ := List.nodup_cons.mp hd
    rw [List.reverse_cons, List.append_assoc]
    refine ih (h.select hsymm fun hv' => hv (List.mem_append_right _ hv')) ?_
    exact List.nodup_middle.mpr (List.nodup_cons.mpr ⟨hv, hd⟩)

/-! ## The allocation -/

theorem build_symm (ranges : Table Int LiveRange) :
    Symmetric (InterferenceAnalyzer.build ranges) := by
  intro v u h
  rw [InterferenceAnalyzer.build_spec] at h ⊢
  obtain ⟨hne, rv, ru, hv, hu, ho⟩ := h
  exact ⟨hne, hne.symm, ru, rv, hu, hv, by rw [InterferenceAnalyzer.overlap_comm]; exact ho⟩

section Allocate

variable {iter : List Int → List Int} (hiter : IterOrder iter) {graph : InterferenceGraph}
  (hok : Table.Ok graph) (hsymm : Symmetric graph) (forcedSpills : List Int)
  (arrayGroups : List (List Int))

include hiter hok hsymm

/-- The allocation is a coloring of the values that the spill phase left. -/
theorem allocate_colored :
    ∃ done, (∀ v, v ∈ done ↔ v ∈ keys (spillPhase graph forcedSpills arrayGroups).2) ∧
      Colored graph (spillPhase graph forcedSpills arrayGroups).1
        (allocate iter graph forcedSpills arrayGroups) done := by
  have hs := spillPhase_spilled hok forcedSpills arrayGroups
  have hp := simplify_perm hiter _ hs.ok rfl []
  rw [List.append_nil] at hp
  rw [allocate_eq]
  refine ⟨_, fun v => ?_, Colored.selects hsymm _ (D := []) (Colored.start graph hs.registers) ?_⟩
  · rw [List.append_nil, List.mem_reverse]
    exact hp.mem_iff
  · rw [List.append_nil]
    exact hp.nodup_iff.mpr hs.ok

/-- Every value of the graph has a register or a slot. -/
theorem allocate_located {v : Int} (hv : v ∈ keys graph) :
    (∃ x, (allocate iter graph forcedSpills arrayGroups).registers.find v = some x) ∨
      ∃ n, (allocate iter graph forcedSpills arrayGroups).spillSlots.find v = some n := by
  obtain ⟨done, hd, hc⟩ := allocate_colored hiter hok hsymm forcedSpills arrayGroups
  have hs := spillPhase_spilled hok forcedSpills arrayGroups
  rcases hs.located v hv with h | ⟨n, hn⟩
  · exact hc.located v ((hd v).mpr h)
  · have hnot : v ∉ done := fun h => by
      rw [hs.working v ((hd v).mp h)] at hn; cases hn
    exact .inr ⟨n, by rw [hc.old v hnot]; exact hn⟩

/-- A register is one of the pool, and its value has no slot. -/
theorem allocate_register {v : Int} {x : Reg}
    (hv : (allocate iter graph forcedSpills arrayGroups).registers.find v = some x) :
    x ∈ pool ∧ (allocate iter graph forcedSpills arrayGroups).spillSlots.find v = none := by
  obtain ⟨done, hd, hc⟩ := allocate_colored hiter hok hsymm forcedSpills arrayGroups
  have hs := spillPhase_spilled hok forcedSpills arrayGroups
  obtain ⟨hv, hx, e⟩ := hc.register hv
  exact ⟨hx, e.trans (hs.working v ((hd v).mp hv))⟩

/-- The slots that the spill phase gives are final, and their values have no register. -/
theorem allocate_of_spillPhase {v : Int} {n : Nat}
    (hv : (spillPhase graph forcedSpills arrayGroups).1.spillSlots.find v = some n) :
    (allocate iter graph forcedSpills arrayGroups).spillSlots.find v = some n ∧
    (allocate iter graph forcedSpills arrayGroups).registers.find v = none := by
  obtain ⟨done, hd, hc⟩ := allocate_colored hiter hok hsymm forcedSpills arrayGroups
  have hs := spillPhase_spilled hok forcedSpills arrayGroups
  have hnot : v ∉ done := fun h => by
    rw [hs.working v ((hd v).mp h)] at hv; cases hv
  refine ⟨by rw [hc.old v hnot]; exact hv, ?_⟩
  rw [Option.eq_none_iff_forall_ne_some]
  exact fun x hx => hnot (hc.register hx).1

end Allocate

/-! ### Forced slots -/

/-- A value with a slot keeps it in the later phases. -/
theorem spillForced_find {s : RegisterAllocation × InterferenceGraph} {v u : Int} {n : Nat}
    (h : s.1.spillSlots.find v = some n) : (spillForced s u).1.spillSlots.find v = some n := by
  unfold spillForced
  split
  · exact h
  · rename_i hc
    rw [spill_find, if_neg, h]
    rintro rfl
    exact hc (Table.contains_iff.mpr ⟨n, h⟩)

theorem spillGroup_find_of_not_mem (group : List Int)
    (s : RegisterAllocation × InterferenceGraph) {v : Int} (h : v ∉ group) :
    (spillGroup s group).1.spillSlots.find v = s.1.spillSlots.find v := by
  induction group generalizing s with
  | nil => rfl
  | cons u group ih =>
    obtain ⟨hne, h⟩ := not_or.mp fun e => h (List.mem_cons.mpr e)
    exact (ih (_, _) h).trans ((spill_find s.1 u v).trans (if_neg hne))

/-- The values of a group get the next slots, in order. -/
theorem spillGroup_find (group : List Int) (s : RegisterAllocation × InterferenceGraph)
    (hg : group.Nodup) {i : Nat} {v : Int} (hi : group[i]? = some v) :
    (spillGroup s group).1.spillSlots.find v = some (s.1.spillSlotCount + i) := by
  induction group generalizing s i with
  | nil => cases hi
  | cons u group ih =>
    obtain ⟨hu, hg⟩ := List.nodup_cons.mp hg
    cases i with
    | zero =>
      rw [List.getElem?_cons_zero] at hi
      cases hi
      exact (spillGroup_find_of_not_mem group _ hu).trans
        ((spill_find s.1 v v).trans (if_pos rfl))
    | succ i =>
      rw [List.getElem?_cons_succ] at hi
      refine (ih (spill s.1 u, removeFromWorking s.2 u) hg hi).trans ?_
      show some (s.1.spillSlotCount + 1 + i) = _
      rw [Nat.add_assoc, Nat.add_comm 1 i]

/-- The slots of one of several groups are contiguous. -/
theorem spillGroups_find (arrayGroups : List (List Int))
    (s : RegisterAllocation × InterferenceGraph) (hg : arrayGroups.flatten.Nodup)
    {group : List Int} (h : group ∈ arrayGroups) : ∃ base, ∀ (i : Nat) (v : Int),
      group[i]? = some v → (arrayGroups.foldl spillGroup s).1.spillSlots.find v = some (base + i) := by
  induction arrayGroups generalizing s with
  | nil => cases h
  | cons g arrayGroups ih =>
    rw [List.flatten_cons, List.nodup_append] at hg
    obtain ⟨hg, hgs, hd⟩ := hg
    rcases List.mem_cons.mp h with rfl | h
    · refine ⟨s.1.spillSlotCount, fun i v hi => ?_⟩
      have hfind := spillGroup_find group s hg hi
      have hv : ∀ g ∈ arrayGroups, v ∉ g := fun g hg' hv' =>
        hd v (List.mem_of_getElem? hi) v (List.mem_flatten.mpr ⟨g, hg', hv'⟩) rfl
      rw [List.foldl_cons]
      refine List.foldlRecOn (motive := fun t : RegisterAllocation × InterferenceGraph =>
        t.1.spillSlots.find v = some (s.1.spillSlotCount + i)) _ _ hfind fun t ht g hg' => ?_
      rw [spillGroup_find_of_not_mem g t (hv g hg')]
      exact ht
    · exact ih (spillGroup s g) hgs h

section Forced

variable {iter : List Int → List Int} (hiter : IterOrder iter) {graph : InterferenceGraph}
  (hok : Table.Ok graph) (hsymm : Symmetric graph) (forcedSpills : List Int)
  {arrayGroups : List (List Int)}

include hiter hok hsymm

/-- An array's elements have contiguous slots, in index order, and no registers. -/
theorem allocate_group (hg : arrayGroups.flatten.Nodup) {group : List Int}
    (h : group ∈ arrayGroups) : ∃ base, ∀ (i : Nat) (v : Int), group[i]? = some v →
      (allocate iter graph forcedSpills arrayGroups).spillSlots.find v = some (base + i) ∧
      (allocate iter graph forcedSpills arrayGroups).registers.find v = none := by
  obtain ⟨base, hb⟩ := spillGroups_find arrayGroups ({}, graph) hg h
  refine ⟨base, fun i v hi => allocate_of_spillPhase hiter hok hsymm forcedSpills _ ?_⟩
  unfold spillPhase
  exact List.foldlRecOn (motive := fun t : RegisterAllocation × InterferenceGraph =>
    t.1.spillSlots.find v = some (base + i)) _ _ (hb i v hi) fun t ht u _ => spillForced_find ht

/-- A forced spill has a slot and no register. -/
theorem allocate_forced {v : Int} (h : v ∈ forcedSpills) :
    (∃ n, (allocate iter graph forcedSpills arrayGroups).spillSlots.find v = some n) ∧
    (allocate iter graph forcedSpills arrayGroups).registers.find v = none := by
  have hf : ∀ (l : List Int) (s : RegisterAllocation × InterferenceGraph), v ∈ l →
      ∃ n, (l.foldl spillForced s).1.spillSlots.find v = some n := by
    intro l
    induction l with
    | nil => exact fun _ h => by cases h
    | cons u l ih =>
      intro s h
      by_cases hvl : v ∈ l
      · exact ih _ hvl
      have e : v = u := (List.mem_cons.mp h).resolve_right hvl
      subst e
      have hu : ∃ n, (spillForced s v).1.spillSlots.find v = some n := by
        unfold spillForced
        split
        · rename_i hc; exact Table.contains_iff.mp hc
        · exact ⟨_, by rw [spill_find, if_pos rfl]⟩
      obtain ⟨n, hn⟩ := hu
      refine ⟨n, ?_⟩
      rw [List.foldl_cons]
      exact List.foldlRecOn (motive := fun t : RegisterAllocation × InterferenceGraph =>
        t.1.spillSlots.find v = some n) l spillForced hn fun t ht u _ => spillForced_find ht
  obtain ⟨n, hn⟩ := hf forcedSpills (arrayGroups.foldl spillGroup ({}, graph)) h
  obtain ⟨hs, hr⟩ := allocate_of_spillPhase hiter hok hsymm forcedSpills _ hn
  exact ⟨⟨n, hs⟩, hr⟩

end Forced

end RegisterAllocator

end Oglang
end Techuila
