import Techuila.Oglang.RegisterAllocator
import Techuila.Oglang.Returns
import Techuila.Oglang.Shapes

/-!
# Control flow and linear live ranges

The allocator sees a value's range from its first to its last occurrence in the text, while
execution follows jumps. `LiveAt` is what the rest of an execution may still read.

* `covered_iff`: when the ranges cover what is live. A loop is the only obstacle: what is live at
  its start has to occur before it, and again at its end or behind it.
* `Allocated`: what the allocator guarantees. `Allocated.separated`: where the ranges cover what is
  live, values that are live together have different locations, and no instruction writes to the
  location of another value that is live behind it.
* `lower_loopFree`: without loops, control goes forward only.
-/

namespace Techuila
namespace Oglang

open X86 (Reg)
open LivenessAnalyzer (analyze Occurs Spans)
open InterferenceAnalyzer (overlap neighbors)

/-! ## Liveness -/

namespace IRFunction

/-- Some execution from position `i` on reads `v` before it writes it. -/
inductive LiveAt (f : IRFunction) : Nat → Int → Prop
  | read {i v inst} : f.instructions[i]? = some inst → v ∈ inst.reads → 0 ≤ v → LiveAt f i v
  | later {i j v inst} : f.instructions[i]? = some inst → inst.writes ≠ some v → f.Succ i j →
      LiveAt f j v → LiveAt f i v

/-- The range of `v` reaches from before position `i` to `i` or behind it. -/
def Covers (f : IRFunction) (i : Nat) (v : Int) : Prop :=
  ∃ r, (analyze f).find v = some r ∧ r.start < i ∧ i ≤ r.stop

/-- The ranges cover what is live. -/
def Covered (f : IRFunction) : Prop := ∀ i v, f.Reaches i → f.LiveAt i v → f.Covers i v

/-- What is live at the target of a jump back from `j` occurs before the target, and at `j` or
behind it. -/
def LoopsSpanned (f : IRFunction) : Prop :=
  ∀ j t v, f.Reaches j → f.Succ j t → t ≤ j → f.LiveAt t v →
    ∃ r, (analyze f).find v = some r ∧ r.start < t ∧ j ≤ r.stop

/-- Jumps write nothing. -/
def JumpsPlain (f : IRFunction) : Prop :=
  ∀ (i : Nat) (inst : IRInstruction), f.instructions[i]? = some inst →
    inst.opcode = .jump ∨ inst.opcode = .jumpIfZero → inst.writes = none

variable {f : IRFunction}

theorem range_of_occurs {v : Int} {i : Nat} (h : Occurs f.instructions v i) :
    ∃ r, (analyze f).find v = some r ∧ r.start ≤ i ∧ i ≤ r.stop := by
  have hs := LivenessAnalyzer.analyze_spec f v
  cases hr : (analyze f).find v with
  | none =>
    rw [hr] at hs
    exact absurd h (hs i)
  | some r =>
    rw [hr] at hs
    have hs : Spans r _ := hs
    exact ⟨r, rfl, hs.le i h⟩

theorem reads_subset {inst : IRInstruction} {v : Int} (h : v ∈ inst.reads) :
    v ∈ LivenessAnalyzer.values inst := by
  unfold IRInstruction.reads at h
  unfold LivenessAnalyzer.values
  split at h <;> simp at h ⊢ <;> grind

theorem occurs_of_reads {i : Nat} {inst : IRInstruction} {v : Int}
    (hi : f.instructions[i]? = some inst) (hv : v ∈ inst.reads) (h0 : 0 ≤ v) :
    Occurs f.instructions v i := ⟨h0, inst, hi, reads_subset hv⟩

theorem occurs_of_writes {i : Nat} {inst : IRInstruction} {v : Int}
    (hi : f.instructions[i]? = some inst) (hv : inst.writes = some v) :
    Occurs f.instructions v i := by
  unfold IRInstruction.writes at hv
  split at hv
  · cases hv
    exact ⟨‹_›, inst, hi, by simp [LivenessAnalyzer.values]⟩
  · cases hv

/-- Behind an instruction that is neither a jump nor a return, execution goes on. -/
theorem Succ.after {i : Nat} {inst : IRInstruction} (hi : f.instructions[i]? = some inst)
    (h : inst.opcode ∉ [OpCode.jump, .returnI32]) : f.Succ i (i + 1) := by
  simp only [List.mem_cons, List.not_mem_nil, or_false, not_or] at h
  exact .next hi h.1 h.2

/-- A step back is a jump. -/
theorem Succ.jump_of_ge {i j : Nat} (h : f.Succ i j) (hle : j ≤ i) :
    ∃ inst, f.instructions[i]? = some inst ∧
      (inst.opcode = .jump ∨ inst.opcode = .jumpIfZero) := by
  cases h with
  | next => omega
  | jump hi ho _ => exact ⟨_, hi, ho⟩

/-- Along an execution, what is live occurs before the position. -/
theorem start_lt (hentry : ∀ v, ¬ f.LiveAt 0 v) (hl : f.LoopsSpanned) {i : Nat}
    (hr : f.Reaches i) {v : Int} (hv : f.LiveAt i v) :
    ∃ r, (analyze f).find v = some r ∧ r.start < i := by
  induction hr with
  | refl => exact absurd hv (hentry v)
  | @tail j i hj hs ih =>
    rcases Nat.lt_or_ge j i with hlt | hge
    · obtain ⟨inst, hi⟩ : ∃ inst, f.instructions[j]? = some inst := by
        cases hs with
        | next hi _ _ | jump hi _ _ => exact ⟨_, hi⟩
      by_cases hw : inst.writes = some v
      · obtain ⟨r, hf, hstart, -⟩ := range_of_occurs (occurs_of_writes hi hw)
        exact ⟨r, hf, by omega⟩
      · obtain ⟨r, hf, hstart⟩ := ih (.later hi hw hs hv)
        exact ⟨r, hf, by omega⟩
    · obtain ⟨r, hf, hstart, -⟩ := hl j i v hj hs hge hv
      exact ⟨r, hf, hstart⟩

/-- What is live occurs at the position or behind it. -/
theorem le_stop (hl : f.LoopsSpanned) {i : Nat} {v : Int} (hv : f.LiveAt i v)
    (hr : f.Reaches i) : ∃ r, (analyze f).find v = some r ∧ i ≤ r.stop := by
  induction hv with
  | read hi hv h0 =>
    obtain ⟨r, hf, -, hstop⟩ := range_of_occurs (occurs_of_reads hi hv h0)
    exact ⟨r, hf, hstop⟩
  | @later i j v inst hi _ hs hv ih =>
    rcases Nat.lt_or_ge i j with hlt | hge
    · obtain ⟨r, hf, hstop⟩ := ih (hr.tail hs)
      exact ⟨r, hf, by omega⟩
    · obtain ⟨r, hf, -, hstop⟩ := hl i j v hr hs hge hv
      exact ⟨r, hf, hstop⟩

/-- The ranges cover what is live exactly where nothing is live at the start and every value that
is live around a loop spans it. -/
theorem covered_iff (hp : f.JumpsPlain) :
    f.Covered ↔ (∀ v, ¬ f.LiveAt 0 v) ∧ f.LoopsSpanned := by
  constructor
  · intro hc
    refine ⟨fun v hv => ?_, fun j t v hj hs hle hv => ?_⟩
    · obtain ⟨r, -, hstart, -⟩ := hc 0 v .refl hv
      exact Nat.not_lt_zero _ hstart
    · obtain ⟨r, hf, hstart, -⟩ := hc t v (hj.tail hs) hv
      obtain ⟨inst, hi, ho⟩ := hs.jump_of_ge hle
      have hw : inst.writes ≠ some v := by
        rw [hp j inst hi ho]
        exact Option.some_ne_none v |>.symm
      obtain ⟨r', hf', -, hstop⟩ := hc j v hj (.later hi hw hs hv)
      cases hf.symm.trans hf'
      exact ⟨r, hf, hstart, hstop⟩
  · rintro ⟨hentry, hl⟩ i v hr hv
    obtain ⟨r, hf, hstart⟩ := start_lt hentry hl hr hv
    obtain ⟨r', hf', hstop⟩ := le_stop hl hv hr
    cases hf.symm.trans hf'
    exact ⟨r, hf, hstart, hstop⟩

end IRFunction

/-! ## What the code generator relies on -/

namespace RegisterAllocation

/-- Where a value lives. -/
def location (a : RegisterAllocation) (v : Int) : Option (Reg ⊕ Nat) :=
  match a.registers.find v with
  | some r => some (.inl r)
  | none => (a.spillSlots.find v).map .inr

theorem location_eq_inl {a : RegisterAllocation} {v : Int} {r : Reg} :
    a.location v = some (.inl r) ↔ a.registers.find v = some r := by
  unfold location
  cases a.registers.find v <;> simp

theorem location_eq_inr {a : RegisterAllocation} {v : Int} {n : Nat} :
    a.location v = some (.inr n) ↔ a.registers.find v = none ∧ a.spillSlots.find v = some n := by
  unfold location
  cases a.registers.find v <;> simp

end RegisterAllocation

/-- Slots are distinct, registers are those of the pool, and no value has both. -/
structure RegisterAllocation.Ok (a : RegisterAllocation) : Prop where
  slots : RegisterAllocator.SlotsOk a
  pool : ∀ e ∈ a.registers, e.2 ∈ RegisterAllocator.pool
  register : ∀ {v r}, a.registers.find v = some r →
    r ∈ RegisterAllocator.pool ∧ a.spillSlots.find v = none

/-- An allocation for the values of a function. -/
structure Allocated (f : IRFunction) (a : RegisterAllocation) : Prop extends a.Ok where
  located : ∀ {v i}, Occurs f.instructions v i → a.location v ≠ none
  group : ∀ group ∈ f.arrayGroups, ∃ base, ∀ (i : Nat) (v : Int), group[i]? = some v →
    a.registers.find v = none ∧ a.spillSlots.find v = some (base + i)
  apart : ∀ {v u r r' x y}, v ≠ u → (analyze f).find v = some r → (analyze f).find u = some r' →
    overlap r r' = true → a.registers.find v = some x → a.registers.find u = some y → x ≠ y

namespace RegisterAllocator

theorem contains_entry {graph : InterferenceGraph} {v : Int} (a : Int)
    (h : graph.contains v = true) : (InterferenceAnalyzer.entry graph a).contains v = true := by
  unfold InterferenceAnalyzer.entry
  split
  · rw [Table.contains, Table.find_insert]
    split
    · rfl
    · exact h
  · exact h

theorem contains_addNeighbor {graph : InterferenceGraph} {v : Int} (a b : Int)
    (h : graph.contains v = true) :
    (InterferenceAnalyzer.addNeighbor graph a b).contains v = true := by
  unfold InterferenceAnalyzer.addNeighbor
  split <;> rw [Table.contains, Table.find_insert] <;> split <;> first | rfl | exact h

theorem contains_entry_self (graph : InterferenceGraph) (a : Int) :
    (InterferenceAnalyzer.entry graph a).contains a = true := by
  unfold InterferenceAnalyzer.entry
  split
  · rw [Table.contains, Table.find_insert_self]
    rfl
  · exact Table.contains_iff.mpr ⟨_, ‹_›⟩

/-- Every value with a range is in the interference graph. -/
theorem contains_build {ranges : Table Int LiveRange} {e : Int × LiveRange} (he : e ∈ ranges) :
    (InterferenceAnalyzer.build ranges).contains e.1 = true := by
  have inner : ∀ (a : Int × LiveRange) (graph : InterferenceGraph) (v : Int),
      graph.contains v = true → (ranges.foldl (fun graph b =>
        if a.1 ≥ b.1 then graph
        else if overlap a.2 b.2 then InterferenceAnalyzer.addNeighbor
          (InterferenceAnalyzer.addNeighbor graph a.1 b.1) b.1 a.1
        else graph) graph).contains v = true := by
    intro a graph v h
    refine List.foldlRecOn (motive := fun graph : InterferenceGraph => graph.contains v = true)
      ranges _ h fun graph h b _ => ?_
    split
    · exact h
    · split
      · exact contains_addNeighbor _ _ (contains_addNeighbor _ _ h)
      · exact h
  have outer : ∀ (as : Table Int LiveRange) (graph : InterferenceGraph),
      e ∈ as ∨ graph.contains e.1 = true → (as.foldl (fun graph a =>
        ranges.foldl (fun graph b =>
          if a.1 ≥ b.1 then graph
          else if overlap a.2 b.2 then InterferenceAnalyzer.addNeighbor
            (InterferenceAnalyzer.addNeighbor graph a.1 b.1) b.1 a.1
          else graph) (InterferenceAnalyzer.entry graph a.1)) graph).contains e.1 = true := by
    intro as
    induction as with
    | nil => exact fun graph h => h.resolve_left List.not_mem_nil
    | cons a as ih =>
      intro graph h
      refine ih _ ?_
      by_cases hea : e ∈ as
      · exact .inl hea
      · refine .inr (inner a _ _ ?_)
        rcases h with h | h
        · obtain rfl := (List.mem_cons.mp h).resolve_right hea
          exact contains_entry_self graph e.1
        · exact contains_entry a.1 h
  exact outer ranges [] (.inl he)

/-- The select phase takes registers of the pool. -/
theorem allocate_pool {iter : List Int → List Int} {graph : InterferenceGraph}
    (hok : Table.Ok graph) (forcedSpills : List Int) (arrayGroups : List (List Int)) :
    ∀ e ∈ (allocate iter graph forcedSpills arrayGroups).registers, e.2 ∈ pool := by
  rw [allocate_eq]
  refine List.foldlRecOn (motive := fun r : RegisterAllocation => ∀ e ∈ r.registers, e.2 ∈ pool)
    _ _ ?_ fun r h v _ => ?_
  · rw [(spillPhase_spilled hok forcedSpills arrayGroups).registers]
    exact nofun
  · unfold select
    dsimp only
    split
    · rename_i x hx
      intro e he
      rcases List.mem_cons.mp he with rfl | he
      · exact List.mem_of_find?_eq_some hx
      · exact h e (List.mem_of_mem_filter he)
    · exact h

theorem allocationOf_allocated {iter : List Int → List Int} (hiter : IterOrder iter)
    {f : IRFunction} (hg : f.arrayGroups.flatten.Nodup) : Allocated f (allocationOf iter f) where
  slots := allocate_slotsOk _ _ _ _
  pool := allocate_pool (InterferenceAnalyzer.build_ok _) _ _
  register := allocate_register hiter (InterferenceAnalyzer.build_ok _) (build_symm _) _ _
  located {v i} h := by
    obtain ⟨r, hr, -⟩ := IRFunction.range_of_occurs h
    have hkey : v ∈ keys (InterferenceAnalyzer.build (analyze f)) := by
      obtain ⟨s, hs⟩ := Table.contains_iff.mp (contains_build (Table.mem_of_find hr))
      exact List.mem_map.mpr ⟨_, Table.mem_of_find hs, rfl⟩
    rcases allocate_located hiter (InterferenceAnalyzer.build_ok _) (build_symm _)
      f.addressTakenValues f.arrayGroups hkey with ⟨x, hx⟩ | ⟨n, hn⟩
    · have hx : (allocationOf iter f).registers.find v = some x := hx
      rw [RegisterAllocation.location_eq_inl.mpr hx]
      exact Option.some_ne_none _
    · intro hnone
      unfold RegisterAllocation.location at hnone
      split at hnone
      · cases hnone
      · rw [allocationOf, hn] at hnone
        cases hnone
  group group hmem := by
    obtain ⟨base, hb⟩ := allocate_group hiter (InterferenceAnalyzer.build_ok _) (build_symm _)
      f.addressTakenValues hg hmem
    exact ⟨base, fun i v hi => (hb i v hi).symm⟩
  apart {v u r r' x y} hne hr hr' ho hx hy := by
    obtain ⟨done, -, hc⟩ := allocate_colored hiter (InterferenceAnalyzer.build_ok _) (build_symm _)
      f.addressTakenValues f.arrayGroups
    refine hc.ne ?_ hx hy
    exact (InterferenceAnalyzer.build_spec _ _ _).mpr
      ⟨hne, r, r', Table.mem_of_find hr, Table.mem_of_find hr', ho⟩

end RegisterAllocator

/-! ## Soundness -/

/-- At every position that an execution reaches, values that are live together have different
locations, and an instruction does not write to the location of another value that is live behind
it. -/
structure Separated (f : IRFunction) (a : RegisterAllocation) : Prop where
  located : ∀ {i v}, f.Reaches i → f.LiveAt i v → a.location v ≠ none
  apart : ∀ {i v u}, f.Reaches i → f.LiveAt i v → f.LiveAt i u → v ≠ u →
    a.location v ≠ a.location u
  kept : ∀ {i j inst v u}, f.Reaches i → f.instructions[i]? = some inst →
    inst.writes = some v → f.Succ i j → f.LiveAt j u → v ≠ u → a.location v ≠ a.location u

namespace Allocated

variable {f : IRFunction} {a : RegisterAllocation}

theorem location_ne (ha : Allocated f a) {v u : Int} {r r' : LiveRange} (hne : v ≠ u)
    (hr : (analyze f).find v = some r) (hr' : (analyze f).find u = some r')
    (ho : overlap r r' = true) (hv : a.location v ≠ none) : a.location v ≠ a.location u := by
  intro e
  rcases hl : a.location v with _ | x | n
  · exact hv hl
  · exact ha.apart hne hr hr' ho (RegisterAllocation.location_eq_inl.mp hl)
      (RegisterAllocation.location_eq_inl.mp (e.symm.trans hl)) rfl
  · exact hne (ha.slots.inj (RegisterAllocation.location_eq_inr.mp hl).2
      (RegisterAllocation.location_eq_inr.mp (e.symm.trans hl)).2)

theorem separated (ha : Allocated f a) (hp : f.JumpsPlain) (hc : f.Covered) : Separated f a where
  located {i v} hi hv := by
    have hs := LivenessAnalyzer.analyze_spec f v
    obtain ⟨r, hr, -⟩ := hc i v hi hv
    rw [hr] at hs
    exact ha.located (Spans.start hs)
  apart {i v u} hi hv hu hne := by
    have hs := LivenessAnalyzer.analyze_spec f v
    obtain ⟨r, hr, h₁, h₂⟩ := hc i v hi hv
    obtain ⟨r', hr', h₁', h₂'⟩ := hc i u hi hu
    rw [hr] at hs
    refine ha.location_ne hne hr hr' ?_ (ha.located (Spans.start hs))
    simp only [InterferenceAnalyzer.overlap, Bool.and_eq_true, decide_eq_true_iff]
    omega
  kept {i j inst v u} hi hinst hw hs hu hne := by
    have hocc := IRFunction.occurs_of_writes hinst hw
    obtain ⟨r, hr, h₁, h₂⟩ := IRFunction.range_of_occurs hocc
    have hlive : f.LiveAt i u := .later hinst (by rw [hw]; simpa using hne) hs hu
    obtain ⟨r', hr', h₁', h₂'⟩ := hc i u hi hlive
    refine ha.location_ne hne hr hr' ?_ (ha.located hocc)
    -- the successor is the next position, where `u` is still in its range
    have hj : j = i + 1 := by
      cases hs with
      | next => rfl
      | jump hi' ho _ =>
        cases hinst.symm.trans hi'
        rw [hp i inst hinst ho] at hw
        cases hw
    subst hj
    obtain ⟨r'', hr'', -, h₂''⟩ := hc (i + 1) u (hi.tail hs) hu
    cases hr'.symm.trans hr''
    simp only [InterferenceAnalyzer.overlap, Bool.and_eq_true, decide_eq_true_iff]
    omega

end Allocated

/-! ## Lowered functions -/

theorem IRFunction.WellFormed.jumpsPlain {f : IRFunction} (h : f.WellFormed) : f.JumpsPlain := by
  intro i inst hi ho
  rcases h.cases hi with ⟨-, rfl⟩ | ⟨-, hp⟩
  · rcases ho with ho | ho <;> cases ho
  · rw [hp.writes]
    rcases ho with ho | ho <;> rw [ho] <;> rfl

/-- Every jump of the code goes to a label further down. -/
def ForwardJumps : List IRInstruction → Prop
  | [] => True
  | inst :: code => (inst.opcode = .jump ∨ inst.opcode = .jumpIfZero →
      .labelAt inst.label ∈ code) ∧ ForwardJumps code

theorem ForwardJumps.append {a b : List IRInstruction} (ha : ForwardJumps a)
    (hb : ForwardJumps b) : ForwardJumps (a ++ b) := by
  induction a with
  | nil => exact hb
  | cons inst a ih => exact ⟨fun ho => List.mem_append_left b (ha.1 ho), ih ha.2⟩

theorem ForwardJumps.cons {inst : IRInstruction} {code : List IRInstruction}
    (hj : inst.opcode ≠ .jump) (hz : inst.opcode ≠ .jumpIfZero) (h : ForwardJumps code) :
    ForwardJumps (inst :: code) := ⟨fun ho => (ho.elim hj hz).elim, h⟩

theorem Straight.forwardJumps {code : List IRInstruction} (h : Straight code) :
    ForwardJumps code := by
  induction code with
  | nil => trivial
  | cons inst code ih =>
    obtain ⟨hi, h⟩ := Straight.cons_iff.mp h
    refine ⟨fun ho => ?_, ih h⟩
    rcases ho with ho | ho <;> rw [ho] at hi <;> cases hi

theorem ForwardJumps.mem {code : List IRInstruction} (h : ForwardJumps code) {i : Nat}
    {inst : IRInstruction} (hi : code[i]? = some inst)
    (ho : inst.opcode = .jump ∨ inst.opcode = .jumpIfZero) :
    ∃ j, i < j ∧ code[j]? = some (.labelAt inst.label) := by
  induction code generalizing i with
  | nil => cases hi
  | cons first code ih =>
    cases i with
    | zero =>
      cases hi
      obtain ⟨j, hj⟩ := List.mem_iff_getElem?.mp (h.1 ho)
      exact ⟨j + 1, by omega, by rw [List.getElem?_cons_succ, hj]⟩
    | succ i =>
      obtain ⟨j, hlt, hj⟩ := ih h.2 (i := i) (by rwa [List.getElem?_cons_succ] at hi)
      exact ⟨j + 1, by omega, by rw [List.getElem?_cons_succ, hj]⟩

mutual

/-- There is no `while` in the statement. -/
def Statement.loopFree : Statement → Bool
  | .whileStmt _ _ => false
  | .ifStmt _ thenBody elseBody => blockLoopFree thenBody && blockLoopFree elseBody
  | _ => true

def blockLoopFree : List Statement → Bool
  | [] => true
  | statement :: body => statement.loopFree && blockLoopFree body

end

section Forward

variable {Y : Layouts}

mutual

theorem LowersStmt.forwardJumps {S S' : Scope} {statement : Statement} {A : Fragment} :
    LowersStmt Y S statement A S' → statement.loopFree = true → ForwardJumps A.code
  | .letStmt h, _ => h.straight.forwardJumps
  | .assignStmt _ h, _ => Straight.forwardJumps (by
      simp [h.straight, IRInstruction.moveI32, OpCode.isControl])
  | .storeStmt h₁ h₂, _ => Straight.forwardJumps (by
      simp [h₁.straight, h₂.straight, IRInstruction.storeI32, OpCode.isControl])
  | .arrayDecl, _ => (zeroCode_straight _ _).forwardJumps
  | .structVarDecl _, _ => (zeroCode_straight _ _).forwardJumps
  | .fieldStore _ h, _ => Straight.forwardJumps (by
      simp [fieldCode_straight, h.straight, IRInstruction.storeI32, OpCode.isControl])
  | .indexStore _ h₁ h₂, _ => Straight.forwardJumps (by
      simp [elementCode_straight, h₁.straight, h₂.straight, IRInstruction.storeI32,
        OpCode.isControl])
  | .whileStmt _ _, hf => by cases hf
  | .returnStmt h, _ => h.straight.forwardJumps.append (.cons nofun nofun trivial)
  | .ifThen h hb, hf => by
    have hf : blockLoopFree _ = true := (Bool.and_eq_true_iff.mp hf).1
    refine h.straight.forwardJumps.append ⟨fun _ => ?_, (hb.forwardJumps hf).append
      (.cons nofun nofun trivial)⟩
    exact List.mem_append_right _ (List.mem_singleton.mpr rfl)
  | .ifElse _ h hb hb', hf => by
    obtain ⟨hf, hf'⟩ := Bool.and_eq_true_iff.mp hf
    refine h.straight.forwardJumps.append ⟨fun _ => ?_, (hb.forwardJumps hf).append
      ⟨fun _ => ?_, .cons nofun nofun ((hb'.forwardJumps hf').append
        (.cons nofun nofun trivial))⟩⟩
    · exact List.mem_append_right _ (List.mem_cons_of_mem _ List.mem_cons_self)
    · exact List.mem_cons_of_mem _ (List.mem_append_right _ (List.mem_singleton.mpr rfl))

theorem LowersBlock.forwardJumps {S S' : Scope} {body : List Statement} {A : Fragment} :
    LowersBlock Y S body A S' → blockLoopFree body = true → ForwardJumps A.code
  | .nil, _ => trivial
  | .cons hs hb, hf =>
    (hs.forwardJumps (Bool.and_eq_true_iff.mp hf).1).append
      (hb.forwardJumps (Bool.and_eq_true_iff.mp hf).2)

end

end Forward

theorem lower_loopFree {function : Function} {Y : Layouts} {ir : IRFunction}
    (hf : blockLoopFree function.body = true)
    (hlower : IRLowerer.lower function Y.structFieldOrder Y.enumVariants = .ok ir) {i j : Nat}
    (hs : ir.Succ i j) : i < j := by
  obtain ⟨-, hperm, -, -⟩ := lower_labels hlower
  have hu : (codeLabels ir.instructions).Nodup := hperm.nodup_iff.mpr (labelNames_nodup _ _)
  obtain ⟨A, S, hb, e⟩ := IRLowerer.lower_lowers hlower
  have hforward : ForwardJumps ir.instructions := by
    rw [e]
    exact (paramCode_straight 0 _).forwardJumps.append (hb.forwardJumps hf)
  cases hs with
  | next => omega
  | jump hi ho hj =>
    obtain ⟨k, hlt, hk⟩ := hforward.mem hi ho
    rwa [IRFunction.codeLabels_unique hu hj rfl hk rfl rfl]

end Oglang
end Techuila
