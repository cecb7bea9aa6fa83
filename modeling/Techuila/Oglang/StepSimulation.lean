import Techuila.Oglang.Frames

/-!
# Instructions and their code

* `Compilable`: what the code of a function relies on. A division overwrites `ecx` behind the
  allocator's back, so that `divides` is a condition on the allocation.
* `Matches.step`: the code of an instruction that does not transfer control leads to a state that
  matches the memory behind the instruction.
-/

namespace Techuila
namespace Oglang

open X86
open LivenessAnalyzer (analyze)

/-- No division reads its left operand from `ecx` alone, or has another value than its right operand
in `ecx` that is live behind it. -/
def DivisionsApart (f : IRFunction) (a : RegisterAllocation) : Prop :=
  ∀ (i : Nat) (inst : IRInstruction), f.instructions[i]? = some inst → inst.opcode = .divI32 →
    (a.location inst.left = some (.inl .rcx) → a.location inst.right = some (.inl .rcx)) ∧
      ∀ v, f.LiveAt (i + 1) v → v ≠ inst.destination → a.location v = some (.inl .rcx) →
        v = inst.right

/-- A function whose code does what it says. -/
structure Compilable (f : IRFunction) (a : RegisterAllocation) : Prop where
  allocated : Allocated f a
  wellFormed : f.WellFormed
  covered : f.Covered
  divides : DivisionsApart f a

theorem Compilable.separated {f : IRFunction} {a : RegisterAllocation} (h : Compilable f a) :
    Separated f a := h.allocated.separated h.wellFormed.jumpsPlain h.covered

/-- The cells of a block are in slots behind each other. -/
theorem Allocated.block {f : IRFunction} {a : RegisterAllocation} (ha : Allocated f a) {v : Int}
    {n : Nat} (hn : a.spillSlots.find v = some n) (i : Nat) (u : Int)
    (hu : (f.block v)[i]? = some u) : a.location u = some (.inr (n + i)) := by
  unfold IRFunction.block at hu
  cases hg : f.arrayGroups.find? fun group => group.head? == some v with
  | none =>
    rw [hg] at hu
    obtain ⟨hi, rfl⟩ := List.getElem?_eq_some_iff.mp hu
    obtain rfl : i = 0 := Nat.lt_one_iff.mp hi
    refine RegisterAllocation.location_eq_inr.mpr ⟨?_, hn⟩
    rcases hr : a.registers.find v with _ | r
    · exact hr
    · rw [(ha.register hr).2] at hn
      cases hn
  | some group =>
    rw [hg] at hu
    obtain ⟨base, hbase⟩ := ha.group group (List.mem_of_find?_eq_some hg)
    have hhead := List.find?_some hg
    rw [beq_iff_eq, List.head?_eq_getElem?] at hhead
    obtain rfl : base = n := by
      rw [(hbase 0 v hhead).2] at hn
      exact Option.some.inj hn
    exact RegisterAllocation.location_eq_inr.mpr (hbase i u hu)

/-- `IRInstruction.step` of a binary operator. -/
theorem IRInstruction.step_binary {call : Calls} {f : IRFunction} {d : Nat} {args : List Value}
    {m : Memory} {inst : IRInstruction} {r : IRNext} (ho : inst.opcode.isBinary = true)
    (h : inst.step call f d args m = some r) :
    ∃ x y z, m.int d inst.left = some x ∧ m.int d inst.right = some y ∧
      inst.opcode.eval x y = some z ∧ r = .next (m.set d inst.destination (.int z)) := by
  have e : inst.step call f d args m = (m.int d inst.left).bind fun x =>
      (m.int d inst.right).bind fun y => (inst.opcode.eval x y).bind fun z =>
        some (.next (m.set d inst.destination (.int z))) := by
    unfold IRInstruction.step
    cases hop : inst.opcode <;> first | rfl | (rw [hop] at ho; cases ho)
  rw [e] at h
  obtain ⟨x, hx, h⟩ := Option.bind_eq_some_iff.mp h
  obtain ⟨y, hy, h⟩ := Option.bind_eq_some_iff.mp h
  obtain ⟨z, hz, h⟩ := Option.bind_eq_some_iff.mp h
  cases h
  exact ⟨x, y, z, hx, hy, hz, rfl⟩

/-- The code of the binary operators but division. -/
theorem emit_binary {a : RegisterAllocation} {top : Address} {base : Nat} (ha : a.Ok)
    (hroom : base + a.spillSlotCount + 1 < maxWords) {s : State} (hf : FrameAt top base s)
    (hs : s.regs .rsp = wordAt top (base + a.spillSlotCount)) {liveness : Table Int LiveRange}
    {index : Nat} {inst : IRInstruction} {lines : List Line}
    (h : X86Codegen.emitInstruction a liveness index inst = .ok lines)
    (hb : inst.opcode.isBinary = true) (hd : inst.opcode ≠ .divI32) {z : BitVec 32}
    (hz : inst.opcode.eval (content32 a top base s inst.left)
      (content32 a top base s inst.right) = some z) :
    ∃ s', Runs lines s s' ∧ Writes a top base inst.destination s s' ∧
      content32 a top base s' inst.destination = z := by
  cases ho : inst.opcode <;> rw [ho] at hb hd hz <;> first | cases hb; done | skip
  case divI32 => exact absurd rfl hd
  case addI32 | subI32 | mulI32 =>
    rw [X86Codegen.emitInstruction, ho] at h
    obtain ⟨s', hr, hw, e⟩ := emitBinaryOp_runs ha hroom hf hs h
    exact ⟨s', hr, hw, e.trans (Option.some.inj hz)⟩
  all_goals
    rw [X86Codegen.emitInstruction, ho] at h
    obtain ⟨s', hr, hw, e⟩ := emitCompare_runs ha hroom hf h
    exact ⟨s', hr, hw, e.trans (Option.some.inj hz)⟩

namespace Matches

variable {f : IRFunction} {F : Nat → Frame} {top : Address} {d i : Nat} {m m' : Memory} {s : State}
  {inst : IRInstruction} {lines : List Line} {n : Nat}

section Step

variable (hc : Compilable f (F d).allocation) (hst : Stacked F (d + 1) n)
  (hroom : (F d).last + (F d).allocation.registers.length + 1 < maxWords)
  (h : Matches f F top d i m s) (hrsp : s.regs .rsp = wordAt top (F d).last) (hr : f.Reaches i)
  (hi : f.instructions[i]? = some inst) (hp : inst.Proper)
  (hemit : X86Codegen.emitInstruction (F d).allocation (analyze f) i inst = .ok lines)

include hc hr hi hp h in
/-- Operands are in their locations. -/
theorem operand {v : Int} (hv : v ∈ inst.reads) {b : BitVec 32} (hb : m.int d v = some b) :
    content32 (F d).allocation top (F d).base s v = b :=
  h.int hc.separated hr (.read hi hv (hp.reads v hv)) hb

include hc hr hi hp h in
theorem pointer {v : Int} (hv : v ∈ inst.reads) {p : Pointer} (hb : m.ptr d v = some p) :
    Rep F top (d + 1) (.ptr p) (Oglang.content (F d).allocation top (F d).base s v) :=
  h.content hc.separated hr (.read hi hv (hp.reads v hv)) (Memory.ptr_eq_some.mp hb)

include hc hst h hr hi hp in
/-- A result that the code wrote to its location. -/
theorem writes_next (hres : inst.opcode.hasResult = true) {x : Value}
    (hruns : ∃ s', Runs lines s s' ∧ Writes (F d).allocation top (F d).base inst.destination s s' ∧
      Rep F top (d + 1) x (Oglang.content (F d).allocation top (F d).base s' inst.destination)) :
    ∃ s', Runs lines s s' ∧
      Advances f F top d (i + 1) m s (m.set d inst.destination x) s' := by
  obtain ⟨s', hrun, hw, hx⟩ := hruns
  have hj : inst.opcode ≠ .jump := fun e => by rw [e] at hres; cases hres
  have hret : inst.opcode ≠ .returnI32 := fun e => by rw [e] at hres; cases hres
  exact ⟨s', hrun, h.write hst hc.separated hr hi (by rw [hp.writes, if_pos hres])
    (.next hi hj hret) hw hx⟩

include hc hst hroom h hrsp hr hi hp hemit in
/-- A division: what is live behind it survives in its register, or is in `ecx` as a number. -/
theorem step_div (ho : inst.opcode = .divI32) {x y z : BitVec 32}
    (hx : m.int d inst.left = some x) (hy : m.int d inst.right = some y)
    (hz : OpCode.divI32.eval x y = some z) :
    ∃ s', Runs lines s s' ∧
      Advances f F top d (i + 1) m s (m.set d inst.destination (.int z)) s' := by
  have hok := hst.ok d (Nat.lt_succ_self d)
  have hreads : inst.reads = [inst.left, inst.right] := by rw [IRInstruction.reads, ho]; rfl
  have hw : inst.writes = some inst.destination := by
    rw [hp.writes, if_pos (by rw [ho]; rfl)]
  have hsucc : f.Succ i (i + 1) := .after hi (by rw [ho]; decide)
  obtain ⟨hlr, hrcx⟩ := hc.divides i inst hi ho
  have hl := h.operand hc hr hi hp (by rw [hreads]; exact List.mem_cons_self) hx
  have hr' := h.operand hc hr hi hp (by rw [hreads]; simp) hy
  obtain ⟨s', hrun, hrbp, hrsp', hregs, hright, hwords, e⟩ := emit_divI32 hok hemit ho h.frame hrsp
    (by unfold Frame.last at hroom; omega) hlr (by rw [hl, hr', hz])
  have hframe : FrameAt top (F d).base s' := ⟨hrbp.trans h.frame.rbp⟩
  refine ⟨s', hrun, ?_, hrsp', fun w hw _ => hwords w (hw.trans (Nat.le_add_right _ _))
    fun n _ => by omega, fun k hk v _ => by rw [Memory.set_apply, if_neg (by omega)]⟩
  refine result hst h.slots hframe hwords (fun u y' r hu hne hy' hl' => ?_) e
  have hlive : f.LiveAt i u := .later hi (by rw [hw]; simpa using hne.symm) hsucc hu
  have hd : (F d).allocation.location inst.destination ≠ some (.inl r) := by
    rw [← hl']
    exact hc.separated.kept hr hi hw hsucc hu hne.symm
  by_cases hcx : r = .rcx
  · subst hcx
    obtain rfl := hrcx u hu hne hl'
    cases hy'.symm.trans (Memory.int_eq_some.mp hy)
    have hbits : s.get32 .rcx = y := h.registers inst.right _ .rcx hlive hy' hl'
    exact (hright hl' hd).trans hbits
  · obtain ⟨q, hq, hstart, -⟩ := hc.covered i u hr hlive
    obtain ⟨q', hq', -, hstop⟩ := hc.covered (i + 1) u (hr.tail hsucc) hu
    cases hq.symm.trans hq'
    have hmem : (u, r) ∈ X86Codegen.liveAcross (F d).allocation (analyze f) i inst.destination :=
      mem_liveAcross.mpr ⟨Table.mem_of_find (RegisterAllocation.location_eq_inl.mp hl'), hne, q, hq,
        hstart, by omega⟩
    rw [hregs _ hmem hd hcx]
    exact h.registers u y' r hlive hy' hl'

variable {call : Calls} {args : List Value}

include hc hst hroom h hrsp hr hi hp hemit in
/-- The code of an instruction that does not transfer control implements it. -/
theorem step (hplain : inst.opcode ∉ transfers)
    (hstep : inst.step call f d args m = some (.next m')) :
    ∃ s', Runs lines s s' ∧ Advances f F top d (i + 1) m s m' s' := by
  have hok := hst.ok d (Nat.lt_succ_self d)
  have hroom' : (F d).base + (F d).allocation.spillSlotCount + 1 < maxWords := by
    unfold Frame.last at hroom
    omega
  by_cases hb : inst.opcode.isBinary = true
  · obtain ⟨x, y, z, hx, hy, hz, e⟩ := IRInstruction.step_binary hb hstep
    cases e
    by_cases hd : inst.opcode = .divI32
    · rw [hd] at hz
      exact step_div hc hst hroom h hrsp hr hi hp hemit hd hx hy hz
    · have hreads : inst.reads = [inst.left, inst.right] := by
        unfold IRInstruction.reads
        cases ho : inst.opcode <;> first | rfl | (rw [ho] at hb; cases hb)
      refine writes_next hc hst h hr hi hp ?_ (emit_binary hok hroom' h.frame hrsp hemit hb hd ?_)
      · cases ho : inst.opcode <;> first | rfl | (rw [ho] at hb; cases hb)
      · rw [h.operand hc hr hi hp (by rw [hreads]; exact List.mem_cons_self) hx,
          h.operand hc hr hi hp (by rw [hreads]; simp) hy, hz]
  cases ho : inst.opcode <;> rw [ho] at hb hplain <;>
    first | exact absurd rfl hb | exact absurd (by decide) hplain | skip
  case constI32 =>
    rw [IRInstruction.step, ho] at hstep
    cases hstep
    exact writes_next hc hst h hr hi hp (by rw [ho]; rfl)
      (emit_constI32 hok hroom' h.frame hemit ho)
  case paramI32 => exact absurd ho hp.notParam
  case moveI32 =>
    have hreads : inst.left ∈ inst.reads := by rw [IRInstruction.reads, ho]; simp
    rw [IRInstruction.step, ho] at hstep
    obtain ⟨x, hx, hstep⟩ := Option.bind_eq_some_iff.mp hstep
    cases hstep
    obtain ⟨s', hrun, hw, e⟩ := emit_moveI32 hok hroom' h.frame hemit ho
    exact writes_next hc hst h hr hi hp (by rw [ho]; rfl)
      ⟨s', hrun, hw, e.trans (h.operand hc hr hi hp hreads hx)⟩
  case addressOfI32 =>
    rw [IRInstruction.step, ho] at hstep
    cases hstep
    obtain ⟨l, hl, s', hrun, hw, e⟩ := emit_addressOfI32 hok hroom' h.frame hemit ho
    refine writes_next hc hst h hr hi hp (by rw [ho]; rfl) ⟨s', hrun, hw, Nat.lt_succ_self d, l, ?_,
      hc.allocated.block hl⟩
    rw [e]
    exact (BitVec.sub_zero _).symm
  case loadI32 =>
    have hreads : inst.left ∈ inst.reads := by rw [IRInstruction.reads, ho]; simp
    rw [IRInstruction.step, ho] at hstep
    obtain ⟨p, hptr, hstep⟩ := Option.bind_eq_some_iff.mp hstep
    obtain ⟨c, hcell, hstep⟩ := Option.bind_eq_some_iff.mp hstep
    obtain ⟨x, hx, hstep⟩ := Option.bind_eq_some_iff.mp hstep
    cases hstep
    obtain ⟨hdepth, l, hl, e⟩ := (h.pointer hc hr hi hp hreads hptr).cell hcell
    obtain ⟨s', hrun, hw, e'⟩ := emit_loadI32 hok hroom' h.frame hemit ho e
      (hst.slot_le hdepth hl).2
    exact writes_next hc hst h hr hi hp (by rw [ho]; rfl)
      ⟨s', hrun, hw, e'.trans (h.slots p.depth hdepth c _ l (Memory.int_eq_some.mp hx) hl)⟩
  case storeI32 =>
    have hleft : inst.left ∈ inst.reads := by rw [IRInstruction.reads, ho]; simp
    have hright : inst.right ∈ inst.reads := by rw [IRInstruction.reads, ho]; simp
    rw [IRInstruction.step, ho] at hstep
    obtain ⟨p, hptr, hstep⟩ := Option.bind_eq_some_iff.mp hstep
    obtain ⟨x, hx, hstep⟩ := Option.bind_eq_some_iff.mp hstep
    obtain ⟨c, hcell, hstep⟩ := Option.bind_eq_some_iff.mp hstep
    obtain ⟨_, -, hstep⟩ := Option.bind_eq_some_iff.mp hstep
    cases hstep
    obtain ⟨hdepth, l, hl, e⟩ := (h.pointer hc hr hi hp hleft hptr).cell hcell
    obtain ⟨s', hrun, hregs, hwords, e'⟩ := emit_storeI32 hok hroom' h.frame hemit ho e
      (hst.slot_le hdepth hl).2
    exact ⟨s', hrun, h.store hst hi (by rw [hp.writes, ho]; rfl)
      (.after hi (by rw [ho]; decide)) hdepth hl hregs hwords
      (e'.trans (h.operand hc hr hi hp hright hx))⟩
  case ptrSubI32 =>
    have hleft : inst.left ∈ inst.reads := by rw [IRInstruction.reads, ho]; simp
    have hright : inst.right ∈ inst.reads := by rw [IRInstruction.reads, ho]; simp
    rw [IRInstruction.step, ho] at hstep
    obtain ⟨p, hptr, hstep⟩ := Option.bind_eq_some_iff.mp hstep
    obtain ⟨x, hx, hstep⟩ := Option.bind_eq_some_iff.mp hstep
    cases hstep
    obtain ⟨hdepth, l, e, hblock⟩ := h.pointer hc hr hi hp hleft hptr
    obtain ⟨s', hrun, hw, e'⟩ := emit_ptrSubI32 hok hroom' h.frame hemit ho
    refine writes_next hc hst h hr hi hp (by rw [ho]; rfl) ⟨s', hrun, hw, hdepth, l, ?_, hblock⟩
    rw [e', e, h.operand hc hr hi hp hright hx, BitVec.signExtend, BitVec.ofInt_add]
    ring
  case inlineAsmI32 =>
    rw [IRInstruction.step, ho] at hstep
    cases hstep

end Step

end Matches

end Oglang
end Techuila
