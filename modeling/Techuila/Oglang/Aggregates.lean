import Techuila.Oglang.Accesses
import Techuila.Oglang.Codegen
import Techuila.Oglang.Semantics

/-!
# Arrays and struct variables in the frame

* `FrameOk`: spill slots lie in the reserved frame and do not overlap.
* `FrameStep`: a run of the intermediate code over 64-bit cells at the addresses of a frame. What
  it leaves open (memory, calls, inline assembly) may do anything to the cells.
* `access_in_slot`: every access computes the address of its slot, or ends the run.
-/

namespace Techuila
namespace Oglang

open X86Codegen (slotDisp)

/-! ## The frame -/

/-- Spill slots, as ranges of 8 bytes at offsets from `rbp`, lie in the reserved frame and do not
overlap. -/
structure FrameOk (allocation : RegisterAllocation) : Prop where
  inside : ∀ {v n}, allocation.spillSlots.find v = some n →
    -(allocation.spillSlotCount * 8 : Int) ≤ slotDisp n ∧ slotDisp n + 8 ≤ 0
  apart : ∀ {v u n m}, v ≠ u → allocation.spillSlots.find v = some n →
    allocation.spillSlots.find u = some m →
      slotDisp n + 8 ≤ slotDisp m ∨ slotDisp m + 8 ≤ slotDisp n

theorem frameOk_of_slotsOk {allocation : RegisterAllocation}
    (h : RegisterAllocator.SlotsOk allocation) : FrameOk allocation where
  inside {v n} hv := by
    have := h.lt hv
    unfold slotDisp
    omega
  apart {v u n m} hne hv hu := by
    have : n ≠ m := fun e => hne (h.inj hv (e ▸ hu))
    unfold slotDisp
    omega

/-- Where the value lives, if it has a slot. -/
def cellAddress (allocation : RegisterAllocation) (rbp : Address) (v : Int) : Option Address :=
  (allocation.spillSlots.find v).map fun n => rbp + BitVec.ofInt 64 (slotDisp n)

/-! ## Runs in a frame -/

/-- The 64 bits that each value holds; a 32-bit value is in the lower half. -/
abbrev Cells := Int → BitVec 64

def low (c : Cells) (v : Int) : BitVec 32 := (c v).setWidth 32

/-- The 32-bit result `n` goes to `d`; the upper half is left open. -/
def SetsLow (c : Cells) (d : Int) (n : BitVec 32) (c' : Cells) : Prop :=
  (∀ v, v ≠ d → c' v = c v) ∧ low c' d = n

structure FrameState where
  pc : Nat
  cells : Cells

inductive FrameResult where
  | next (s : FrameState)
  | exit (status : Nat)

/-- One step of a function whose spilled values live at `address`. -/
inductive FrameStep (f : IRFunction) (address : Int → Option Address) (s : FrameState) :
    FrameResult → Prop
  | const {inst c} : f.instructions[s.pc]? = some inst → inst.opcode = .constI32 →
      SetsLow s.cells inst.destination (BitVec.ofInt 32 inst.value) c →
      FrameStep f address s (.next ⟨s.pc + 1, c⟩)
  | binary {inst n c} : f.instructions[s.pc]? = some inst →
      inst.opcode.eval (low s.cells inst.left) (low s.cells inst.right) = some n →
      SetsLow s.cells inst.destination n c → FrameStep f address s (.next ⟨s.pc + 1, c⟩)
  | addressOf {inst a} : f.instructions[s.pc]? = some inst → inst.opcode = .addressOfI32 →
      address inst.left = some a →
      FrameStep f address s (.next ⟨s.pc + 1, Function.update s.cells inst.destination a⟩)
  | ptrSub {inst} : f.instructions[s.pc]? = some inst → inst.opcode = .ptrSubI32 →
      FrameStep f address s (.next ⟨s.pc + 1, Function.update s.cells inst.destination
        (s.cells inst.left - (low s.cells inst.right).signExtend 64)⟩)
  | inBounds {inst} : f.instructions[s.pc]? = some inst → inst.opcode = .boundsCheckI32 →
      (low s.cells inst.left).ult (BitVec.ofInt 32 inst.value) = true →
      FrameStep f address s (.next ⟨s.pc + 1, s.cells⟩)
  | outOfBounds {inst} : f.instructions[s.pc]? = some inst → inst.opcode = .boundsCheckI32 →
      (low s.cells inst.left).ult (BitVec.ofInt 32 inst.value) = false →
      FrameStep f address s (.exit 101)
  | label {inst} : f.instructions[s.pc]? = some inst → inst.opcode = .label →
      FrameStep f address s (.next ⟨s.pc + 1, s.cells⟩)
  | jump {inst j} : f.instructions[s.pc]? = some inst → inst.opcode = .jump →
      f.LabelAt inst.label j → FrameStep f address s (.next ⟨j, s.cells⟩)
  | jumpIfZero {inst j} : f.instructions[s.pc]? = some inst → inst.opcode = .jumpIfZero →
      low s.cells inst.left = 0 → f.LabelAt inst.label j → FrameStep f address s (.next ⟨j, s.cells⟩)
  | noJump {inst} : f.instructions[s.pc]? = some inst → inst.opcode = .jumpIfZero →
      low s.cells inst.left ≠ 0 → FrameStep f address s (.next ⟨s.pc + 1, s.cells⟩)
  /-- What depends on memory, on callers and callees or on raw assembly. -/
  | other {inst c} : f.instructions[s.pc]? = some inst →
      inst.opcode ∈ [.paramI32, .moveI32, .loadI32, .storeI32, .call, .inlineAsmI32] →
      FrameStep f address s (.next ⟨s.pc + 1, c⟩)

/-- `n` steps lead from `s` to `s'`. -/
def FrameSteps (f : IRFunction) (address : Int → Option Address) :
    Nat → FrameState → FrameState → Prop
  | 0, s, s' => s' = s
  | n + 1, s, s' => ∃ s₁, FrameStep f address s (.next s₁) ∧ FrameSteps f address n s₁ s'

/-- The next `n` steps can be made, and whichever way they go they leave `a` in `d`. -/
def Computes (f : IRFunction) (address : Int → Option Address) (s : FrameState) (n : Nat) (d : Int)
    (a : Address) : Prop :=
  (∃ s', FrameSteps f address n s s') ∧
    ∀ s', FrameSteps f address n s s' → s'.pc = s.pc + n ∧ s'.cells d = a

section Steps

variable {f : IRFunction} {address : Int → Option Address} {s : FrameState} {r : FrameResult}

theorem step_const {d n : Int} (hi : f.instructions[s.pc]? = some (.constI32 d n)) :
    FrameStep f address s r ↔
      ∃ c, SetsLow s.cells d (BitVec.ofInt 32 n) c ∧ r = .next ⟨s.pc + 1, c⟩ := by
  constructor
  · intro h
    cases h with
    | const h _ hc => cases hi.symm.trans h; exact ⟨_, hc, rfl⟩
    | binary h he _ => cases hi.symm.trans h; cases he
    | addressOf h ho _ | ptrSub h ho | inBounds h ho _ | outOfBounds h ho _ | label h ho
    | jump h ho _ | jumpIfZero h ho _ _ | noJump h ho _ | other h ho =>
      cases hi.symm.trans h; simp [IRInstruction.constI32] at ho
  · rintro ⟨c, hc, rfl⟩
    exact .const hi rfl hc

theorem step_mul {d v u : Int} (hi : f.instructions[s.pc]? = some (.binary .mulI32 d v u)) :
    FrameStep f address s r ↔
      ∃ c, SetsLow s.cells d (low s.cells v * low s.cells u) c ∧ r = .next ⟨s.pc + 1, c⟩ := by
  constructor
  · intro h
    cases h with
    | binary h he hc => cases hi.symm.trans h; cases he; exact ⟨_, hc, rfl⟩
    | const h ho _ | addressOf h ho _ | ptrSub h ho | inBounds h ho _ | outOfBounds h ho _
    | label h ho | jump h ho _ | jumpIfZero h ho _ _ | noJump h ho _ | other h ho =>
      cases hi.symm.trans h; simp [IRInstruction.binary] at ho
  · rintro ⟨c, hc, rfl⟩
    exact .binary hi rfl hc

theorem step_addressOf {d v : Int} {a : Address} (ha : address v = some a)
    (hi : f.instructions[s.pc]? = some (.addressOfI32 d v)) :
    FrameStep f address s r ↔ r = .next ⟨s.pc + 1, Function.update s.cells d a⟩ := by
  constructor
  · intro h
    cases h with
    | addressOf h _ ha' =>
      cases hi.symm.trans h
      cases ha.symm.trans ha'
      rfl
    | binary h he _ => cases hi.symm.trans h; cases he
    | const h ho _ | ptrSub h ho | inBounds h ho _ | outOfBounds h ho _ | label h ho
    | jump h ho _ | jumpIfZero h ho _ _ | noJump h ho _ | other h ho =>
      cases hi.symm.trans h; simp [IRInstruction.addressOfI32] at ho
  · rintro rfl
    exact .addressOf hi rfl ha

theorem step_ptrSub {d v u : Int} (hi : f.instructions[s.pc]? = some (.ptrSubI32 d v u)) :
    FrameStep f address s r ↔ r = .next ⟨s.pc + 1,
      Function.update s.cells d (s.cells v - (low s.cells u).signExtend 64)⟩ := by
  constructor
  · intro h
    cases h with
    | ptrSub h _ => cases hi.symm.trans h; rfl
    | binary h he _ => cases hi.symm.trans h; cases he
    | const h ho _ | addressOf h ho _ | inBounds h ho _ | outOfBounds h ho _ | label h ho
    | jump h ho _ | jumpIfZero h ho _ _ | noJump h ho _ | other h ho =>
      cases hi.symm.trans h; simp [IRInstruction.ptrSubI32] at ho
  · rintro rfl
    exact .ptrSub hi rfl

theorem step_boundsCheck {v n : Int} (hi : f.instructions[s.pc]? = some (.boundsCheckI32 v n)) :
    FrameStep f address s r ↔
      r = if (low s.cells v).ult (BitVec.ofInt 32 n) then .next ⟨s.pc + 1, s.cells⟩
        else .exit 101 := by
  constructor
  · intro h
    cases h with
    | inBounds h _ hu => cases hi.symm.trans h; exact (if_pos hu).symm
    | outOfBounds h _ hu =>
      cases hi.symm.trans h
      exact (if_neg (Bool.eq_false_iff.mp hu)).symm
    | binary h he _ => cases hi.symm.trans h; cases he
    | const h ho _ | addressOf h ho _ | ptrSub h ho | label h ho
    | jump h ho _ | jumpIfZero h ho _ _ | noJump h ho _ | other h ho =>
      cases hi.symm.trans h; simp [IRInstruction.boundsCheckI32] at ho
  · rintro rfl
    split
    · exact .inBounds hi rfl ‹_›
    · exact .outOfBounds hi rfl (Bool.eq_false_iff.mpr ‹_›)

end Steps

/-! ## Accesses compute slots -/

/-- The slots below a slot are at lower addresses. -/
theorem slot_sub (rbp : Address) (base i : Nat) {n : BitVec 32} (hn : n.toInt = i * 8) :
    rbp + BitVec.ofInt 64 (slotDisp base) - n.signExtend 64 =
      rbp + BitVec.ofInt 64 (slotDisp (base + i)) := by
  have hd : slotDisp (base + i) = slotDisp base - i * 8 := by
    unfold slotDisp
    omega
  rw [hd, BitVec.signExtend, hn, Int.sub_eq_add_neg, BitVec.ofInt_add, BitVec.ofInt_neg,
    ← BitVec.add_assoc, BitVec.sub_eq_add_neg]

theorem getElem?_of_prefix {α : Type} {code l : List α} {p i : Nat} (h : code <+: l.drop p)
    {x : α} (hi : code[i]? = some x) : l[p + i]? = some x := by
  obtain ⟨rest, hr⟩ := h
  rw [← List.getElem?_drop, ← hr, List.getElem?_append_left (List.getElem?_eq_some_iff.mp hi).1]
  exact hi

/-- An access computes the address of the element with the index, or ends the run with status 101;
a field access computes the address of the field. -/
def Access.Correct (f : IRFunction) (allocation : RegisterAllocation) (rbp : Address)
    (s : FrameState) : Access → Prop
  | .element elements index k =>
    let i := (low s.cells index).toInt
    if 0 ≤ i ∧ i < elements.length then
      ∃ v a, elements[i.toNat]? = some v ∧ cellAddress allocation rbp v = some a ∧
        Computes f (cellAddress allocation rbp) s 5 (k + 3) a
    else ∀ r, FrameStep f (cellAddress allocation rbp) s r ↔ r = .exit 101
  | .field fields i k =>
    ∃ v a, fields[i]? = some v ∧ cellAddress allocation rbp v = some a ∧
      Computes f (cellAddress allocation rbp) s 3 (k + 2) a

/-- A group has the slots from `base` on. -/
def GroupAt (allocation : RegisterAllocation) (group : List Int) (base : Nat) : Prop :=
  ∀ (i : Nat) (v : Int), group[i]? = some v → allocation.spillSlots.find v = some (base + i)

section Correct

variable {f : IRFunction} {allocation : RegisterAllocation} {rbp : Address} {s : FrameState}

theorem GroupAt.cellAddress {group : List Int} {base : Nat} (h : GroupAt allocation group base)
    {i : Nat} {v : Int} (hi : group[i]? = some v) : cellAddress allocation rbp v =
      some (rbp + BitVec.ofInt 64 (slotDisp (base + i))) := by
  rw [Oglang.cellAddress, h i v hi, Option.map_some]

/-- `headD` of a group with an element is its first cell. -/
theorem GroupAt.head {group : List Int} {base : Nat} (h : GroupAt allocation group base)
    {i : Nat} (hi : i < group.length) (rbp : BitVec 64) :
    Oglang.cellAddress allocation rbp (group.headD (-1)) = some (rbp + BitVec.ofInt 64 (slotDisp base)) := by
  cases group with
  | nil => cases hi
  | cons v group => exact h.cellAddress (i := 0) rfl

theorem field_correct {fields : List Int} {i : Nat} {k : Int} {base : Nat}
    (hbase : GroupAt allocation fields base) (hi : i < fields.length)
    (hsize : fields.length < 2 ^ 28) (hcode : fieldCode fields i k <+: f.instructions.drop s.pc) :
    (Access.field fields i k).Correct f allocation rbp s := by
  have hv : fields[i]? = some fields[i] := List.getElem?_eq_getElem hi
  refine ⟨_, _, hv, hbase.cellAddress hv, ?_⟩
  have h₀ : f.instructions[s.pc]? = some (.constI32 k (i * 8)) :=
    getElem?_of_prefix (i := 0) hcode rfl
  have h₁ : f.instructions[s.pc + 1]? = some (.addressOfI32 (k + 1) (fields.headD (-1))) :=
    getElem?_of_prefix (i := 1) hcode rfl
  have h₂ : f.instructions[s.pc + 2]? = some (.ptrSubI32 (k + 2) (k + 1) k) :=
    getElem?_of_prefix (i := 2) hcode rfl
  have ha := hbase.head hi rbp
  have hn : (BitVec.ofInt 32 (i * 8)).toInt = i * 8 := by
    rw [BitVec.toInt_ofInt, Int.bmod_eq_of_le] <;> omega
  have hsub := slot_sub rbp base i hn
  have hlast : ∀ c, SetsLow s.cells k (BitVec.ofInt 32 (i * 8)) c →
      let c' := Function.update c (k + 1) (rbp + BitVec.ofInt 64 (slotDisp base))
      c' (k + 1) - (low c' k).signExtend 64 = rbp + BitVec.ofInt 64 (slotDisp (base + i)) := by
    rintro c ⟨-, hc⟩
    dsimp only
    have hk : low (Function.update c (k + 1) (rbp + BitVec.ofInt 64 (slotDisp base))) k =
        low c k := by
      rw [low, Function.update_of_ne (by omega)]; rfl
    rw [Function.update_self, hk, hc, hsub]
  constructor
  · refine ⟨_, ⟨s.pc + 1, Function.update s.cells k ((BitVec.ofInt 32 (i * 8)).setWidth 64)⟩, ?_,
      _, (step_addressOf ha h₁).mpr rfl, _, (step_ptrSub h₂).mpr rfl, rfl⟩
    refine (step_const h₀).mpr ⟨_, ⟨fun v hv => Function.update_of_ne hv _ _, ?_⟩, rfl⟩
    rw [low, Function.update_self]
    exact BitVec.setWidth_setWidth_of_le _ (by decide)
  · rintro s' ⟨s₁, hs₁, s₂, hs₂, s₃, hs₃, rfl⟩
    obtain ⟨c, hc, e⟩ := (step_const h₀).mp hs₁
    cases e
    cases (step_addressOf ha h₁).mp hs₂
    cases (step_ptrSub h₂).mp hs₃
    exact ⟨rfl, (Function.update_self _ _ _).trans (hlast c hc)⟩

/-- The unsigned comparison with a small size also rejects negative indices. -/
theorem ult_size {n : BitVec 32} {size : Nat} (hsize : size < 2 ^ 28) :
    n.ult (BitVec.ofInt 32 size) = true ↔ 0 ≤ n.toInt ∧ n.toInt < size := by
  have hs : (BitVec.ofInt 32 (size : Int)).toNat = size := by
    rw [BitVec.ofInt_natCast, BitVec.toNat_ofNat, Nat.mod_eq_of_lt (by omega)]
  have hn := n.isLt
  rw [BitVec.ult_iff_lt, BitVec.lt_def, hs, BitVec.toInt_eq_toNat_cond]
  split <;> omega

theorem mul_eight {n : BitVec 32} {size : Nat} (hsize : size < 2 ^ 28) (h0 : 0 ≤ n.toInt)
    (hlt : n.toInt < size) : (n * BitVec.ofInt 32 8).toInt = n.toInt.toNat * 8 := by
  have h8 : (BitVec.ofInt 32 8).toInt = 8 := by decide
  rw [BitVec.toInt_mul, h8, Int.bmod_eq_of_le (by omega) (by omega)]
  omega

theorem element_correct {elements : List Int} {index k : Int} {base : Nat}
    (hbase : GroupAt allocation elements base) (hindex : index < k)
    (hsize : elements.length < 2 ^ 28)
    (hcode : elementCode elements index k <+: f.instructions.drop s.pc) :
    (Access.element elements index k).Correct f allocation rbp s := by
  have h₀ : f.instructions[s.pc]? = some (.boundsCheckI32 index elements.length) :=
    getElem?_of_prefix (i := 0) hcode rfl
  have h₁ : f.instructions[s.pc + 1]? = some (.constI32 k 8) :=
    getElem?_of_prefix (i := 1) hcode rfl
  have h₂ : f.instructions[s.pc + 2]? = some (.binary .mulI32 (k + 1) index k) :=
    getElem?_of_prefix (i := 2) hcode rfl
  have h₃ : f.instructions[s.pc + 3]? = some (.addressOfI32 (k + 2) (elements.headD (-1))) :=
    getElem?_of_prefix (i := 3) hcode rfl
  have h₄ : f.instructions[s.pc + 4]? = some (.ptrSubI32 (k + 3) (k + 2) (k + 1)) :=
    getElem?_of_prefix (i := 4) hcode rfl
  have hbounds := fun r => @step_boundsCheck f (cellAddress allocation rbp) s r _ _ h₀
  unfold Access.Correct
  dsimp only
  by_cases hi : 0 ≤ (low s.cells index).toInt ∧ (low s.cells index).toInt < elements.length
  · rw [if_pos hi]
    simp only [(ult_size hsize).mpr hi, if_true] at hbounds
    have hlt : (low s.cells index).toInt.toNat < elements.length := by omega
    have hv := List.getElem?_eq_getElem hlt
    have ha := hbase.head hlt rbp
    have hsub := slot_sub rbp base _ (mul_eight hsize hi.1 hi.2)
    refine ⟨_, _, hv, hbase.cellAddress hv, ?_⟩
    -- the index is read after `k` was written, and the offset after `k + 2` was
    have hlast : ∀ c c₂, SetsLow s.cells k (BitVec.ofInt 32 8) c →
        SetsLow c (k + 1) (low c index * low c k) c₂ →
        let c' := Function.update c₂ (k + 2) (rbp + BitVec.ofInt 64 (slotDisp base))
        c' (k + 2) - (low c' (k + 1)).signExtend 64 =
          rbp + BitVec.ofInt 64 (slotDisp (base + (low s.cells index).toInt.toNat)) := by
      rintro c c₂ ⟨hne, hc⟩ ⟨-, hc₂⟩
      dsimp only
      have hk : low (Function.update c₂ (k + 2) (rbp + BitVec.ofInt 64 (slotDisp base))) (k + 1) =
          low c₂ (k + 1) := by
        rw [low, Function.update_of_ne (by omega)]; rfl
      have hx : low c index = low s.cells index := by rw [low, hne index (by omega)]; rfl
      rw [Function.update_self, hk, hc₂, hx, hc, hsub]
    have hset : ∀ (c : Cells) (d : Int) (n : BitVec 32),
        SetsLow c d n (Function.update c d (n.setWidth 64)) := fun c d n =>
      ⟨fun v hv => Function.update_of_ne hv _ _, by
        rw [low, Function.update_self]
        exact BitVec.setWidth_setWidth_of_le _ (by decide)⟩
    constructor
    · exact ⟨_, _, (hbounds _).mpr rfl, _, (step_const h₁).mpr ⟨_, hset _ _ _, rfl⟩,
        _, (step_mul h₂).mpr ⟨_, hset _ _ _, rfl⟩, _, (step_addressOf ha h₃).mpr rfl,
        _, (step_ptrSub h₄).mpr rfl, rfl⟩
    · rintro s' ⟨s₁, hs₁, s₂, hs₂, s₃, hs₃, s₄, hs₄, s₅, hs₅, rfl⟩
      cases (hbounds _).mp hs₁
      obtain ⟨c, hc, e⟩ := (step_const h₁).mp hs₂
      cases e
      obtain ⟨c₂, hc₂, e⟩ := (step_mul h₂).mp hs₃
      cases e
      cases (step_addressOf ha h₃).mp hs₄
      cases (step_ptrSub h₄).mp hs₅
      exact ⟨rfl, (Function.update_self _ _ _).trans (hlast c c₂ hc hc₂)⟩
  · rw [if_neg hi]
    intro r
    rw [hbounds r, if_neg fun h => hi ((ult_size hsize).mp h)]

end Correct

/-- What holds of the aggregates of a lowered function and its allocation. -/
structure AggregatesSafe (function : Function) (Y : Layouts) (ir : IRFunction)
    (allocation : RegisterAllocation) : Prop where
  frame : FrameOk allocation
  distinct : ir.arrayGroups.flatten.Nodup
  located : ∀ v ∈ ir.arrayGroups.flatten, ∃ n, allocation.spillSlots.find v = some n
  access : ∀ x ∈ IRLowerer.functionAccesses function Y, x.code <:+: ir.instructions ∧
    x.cells ∈ ir.arrayGroups ∧ ∀ (rbp : Address) (s : FrameState),
      x.code <+: ir.instructions.drop s.pc → x.Correct ir allocation rbp s

/-- In every lowered function whose arrays and struct variables have fewer than 2^28 cells,
elements, fields and scalars have their own slots of the frame, and at every access, in whatever
state it is reached, the address is that of the slot of the element with the evaluated index, or
of the field; an index out of range ends the run. -/
theorem access_in_slot {function : Function} {Y : Layouts} {ir : IRFunction}
    {iter : List Int → List Int} (hiter : RegisterAllocator.IterOrder iter)
    (hlower : IRLowerer.lower function Y.structFieldOrder Y.enumVariants = .ok ir)
    (hsize : ∀ group ∈ ir.arrayGroups, group.length < 2 ^ 28) :
    AggregatesSafe function Y ir (RegisterAllocator.allocationOf iter ir) := by
  have hgroups := lower_ok hlower
  have hbase : ∀ group ∈ ir.arrayGroups,
      ∃ base, GroupAt (RegisterAllocator.allocationOf iter ir) group base := by
    intro group hg
    obtain ⟨base, hb⟩ := RegisterAllocator.allocate_group hiter
      (InterferenceAnalyzer.build_ok _) (RegisterAllocator.build_symm _)
      ir.addressTakenValues hgroups hg
    exact ⟨base, fun i v hi => (hb i v hi).1⟩
  refine ⟨frameOk_of_slotsOk (RegisterAllocator.allocate_slotsOk _ _ _ _), hgroups, ?_,
    fun x hx => ?_⟩
  · intro v hv
    obtain ⟨group, hg, hv⟩ := List.mem_flatten.mp hv
    obtain ⟨base, hb⟩ := hbase group hg
    obtain ⟨i, hi⟩ := List.mem_iff_getElem?.mp hv
    exact ⟨_, hb i v hi⟩
  · obtain ⟨hcode, hcells, hfits⟩ := IRLowerer.functionAccesses_placed hlower x hx
    obtain ⟨base, hb⟩ := hbase _ hcells
    refine ⟨hcode, hcells, fun rbp s hs => ?_⟩
    cases x with
    | element elements index k => exact element_correct hb hfits (hsize _ hcells) hs
    | field fields i k => exact field_correct hb hfits (hsize _ hcells) hs

/-- `fn main() -> i32 { let a: [i32; 2]; return a[1]; }` -/
def secondElement : Function :=
  ⟨"main", [], "i32", [.arrayDecl "a" "i32" 2, .returnStmt (.index "a" (.integer 1))]⟩

theorem access_in_slot_secondElement : ∃ ir,
    IRLowerer.lower secondElement [] [] = .ok ir ∧
      AggregatesSafe secondElement ⟨[], []⟩ ir (RegisterAllocator.allocationOf id ir) :=
  ⟨_, rfl, access_in_slot (fun _ => .refl _) rfl (by decide)⟩

end Oglang
end Techuila
