import Techuila.Oglang.Semantics

/-!
# Runs of the intermediate code

A value is a 32-bit number or a pointer. Every activation has its own cells; a pointer names the
activation, a block of cells that follow each other in the frame, and an offset in bytes. The
32-bit operations have no meaning on a pointer: a move, a store, a return and a parameter on the
stack cut an address. Inline assembly has none either.

* `IRInstruction.step`: one instruction, with the calls as a parameter.
* `IRFunction.exec`: an activation; `IRProgram.run`: a call in a program.
-/

namespace Techuila
namespace Oglang

/-- A place `offset` bytes below the first cell of a block in the activation at `depth`. -/
structure Pointer where
  depth : Nat
  block : List Int
  offset : Int
  deriving DecidableEq, Repr

inductive Value where
  | int (n : BitVec 32)
  | ptr (p : Pointer)
  deriving DecidableEq, Repr

/-- The cells of each activation, by depth; `none` where nothing was written. -/
abbrev Memory := Nat → Int → Option Value

namespace Value

def int? : Value → Option (BitVec 32)
  | int n => some n
  | ptr _ => none

def ptr? : Value → Option Pointer
  | int _ => none
  | ptr p => some p

@[simp] theorem int?_eq_some {x : Value} {n : BitVec 32} : x.int? = some n ↔ x = .int n := by
  cases x <;> simp [int?]

@[simp] theorem ptr?_eq_some {x : Value} {p : Pointer} : x.ptr? = some p ↔ x = .ptr p := by
  cases x <;> simp [ptr?]

end Value

/-- The cell that a pointer points to: cells are 8 bytes apart. -/
def Pointer.cell (p : Pointer) : Option Int :=
  if p.offset % 8 = 0 ∧ 0 ≤ p.offset then p.block[(p.offset / 8).toNat]? else none

namespace Memory

/-- The number in a cell. -/
def int (m : Memory) (d : Nat) (v : Int) : Option (BitVec 32) := (m d v).bind Value.int?

/-- The pointer in a cell. -/
def ptr (m : Memory) (d : Nat) (v : Int) : Option Pointer := (m d v).bind Value.ptr?

def set (m : Memory) (d : Nat) (v : Int) (x : Value) : Memory :=
  Function.update m d (Function.update (m d) v (some x))

/-- A new activation, with nothing in its cells. -/
def enter (m : Memory) (d : Nat) : Memory := Function.update m d fun _ => none

@[simp] theorem enter_self (m : Memory) (d : Nat) (v : Int) : m.enter d d v = none := by
  simp [enter]

theorem enter_of_ne {m : Memory} {d k : Nat} (h : k ≠ d) : m.enter d k = m k := by simp [enter, h]

theorem set_apply (m : Memory) (d : Nat) (v : Int) (x : Value) (k : Nat) (u : Int) :
    m.set d v x k u = if k = d ∧ u = v then some x else m k u := by
  by_cases hk : k = d
  · subst hk
    by_cases hu : u = v
    · subst hu
      simp [set]
    · simp [set, hu]
  · simp [set, hk]

@[simp] theorem set_self (m : Memory) (d : Nat) (v : Int) (x : Value) :
    m.set d v x d v = some x := by simp [set]

theorem set_of_ne {m : Memory} {d : Nat} {v u : Int} {x : Value} (h : u ≠ v) :
    m.set d v x d u = m d u := by simp [set, h]

@[simp] theorem int_eq_some {m : Memory} {d : Nat} {v : Int} {n : BitVec 32} :
    m.int d v = some n ↔ m d v = some (.int n) := by
  simp [int, Option.bind_eq_some_iff]

@[simp] theorem ptr_eq_some {m : Memory} {d : Nat} {v : Int} {p : Pointer} :
    m.ptr d v = some p ↔ m d v = some (.ptr p) := by
  simp [ptr, Option.bind_eq_some_iff]

end Memory

theorem mapM_eq_some {α β : Type} {g : α → Option β} {l : List α} {r : List β}
    (h : l.mapM g = some r) : l.Forall₂ (fun a b => g a = some b) r := by
  induction l generalizing r with
  | nil =>
    cases h
    exact .nil
  | cons a l ih =>
    rw [List.mapM_cons] at h
    obtain ⟨b, hb, h⟩ := Option.bind_eq_some_iff.mp h
    obtain ⟨bs, hbs, h⟩ := Option.bind_eq_some_iff.mp h
    cases h
    exact .cons hb (ih hbs)

/-- How an activation ends: with a result, or with a failed bounds check. -/
inductive IROutcome where
  | returned (n : BitVec 32) (m : Memory)
  | trapped

/-- What an instruction does; `none` stands for no meaning. -/
inductive IRNext where
  | next (m : Memory)
  | jump (label : String) (m : Memory)
  | stop (o : IROutcome)

/-- The block that the address of a cell points to: its group if it is the first of one. -/
def IRFunction.block (f : IRFunction) (v : Int) : List Int :=
  (f.arrayGroups.find? fun group => group.head? == some v).getD [v]

/-- The number of arguments that are passed in registers. -/
def registerArgs : Nat := 4

section Run

/-- A call from the activation at a depth. -/
abbrev Calls := String → List Value → Memory → Option IROutcome

variable (call : Calls) (f : IRFunction) (d : Nat) (args : List Value)

/-- The opcodes whose code may transfer control or is the target of a transfer. -/
def transfers : List OpCode := [.call, .boundsCheckI32, .label, .jump, .jumpIfZero, .returnI32]

namespace IRInstruction

/-- One instruction of the activation at depth `d` that was called with `args`. -/
def step (m : Memory) (inst : IRInstruction) : Option IRNext :=
  match inst.opcode with
  | .constI32 => some (.next (m.set d inst.destination (.int (BitVec.ofInt 32 inst.value))))
  | .moveI32 => do
    let n ← m.int d inst.left
    some (.next (m.set d inst.destination (.int n)))
  | .paramI32 =>
    if inst.value < 0 then none
    else do
      let x ← args[inst.value.toNat]?
      if inst.value < registerArgs then some (.next (m.set d inst.destination x))
      else do
        let n ← x.int?
        some (.next (m.set d inst.destination (.int n)))
  | .addressOfI32 => some (.next (m.set d inst.destination (.ptr ⟨d, f.block inst.left, 0⟩)))
  | .loadI32 => do
    let p ← m.ptr d inst.left
    let c ← p.cell
    let n ← m.int p.depth c
    some (.next (m.set d inst.destination (.int n)))
  | .storeI32 => do
    let p ← m.ptr d inst.left
    let n ← m.int d inst.right
    let c ← p.cell
    let _ ← m.int p.depth c
    some (.next (m.set p.depth c (.int n)))
  | .ptrSubI32 => do
    let p ← m.ptr d inst.left
    let n ← m.int d inst.right
    some (.next (m.set d inst.destination (.ptr { p with offset := p.offset + n.toInt })))
  | .boundsCheckI32 => do
    let n ← m.int d inst.left
    some (if n.ult (BitVec.ofInt 32 inst.value) then .next m else .stop .trapped)
  | .call => do
    let vs ← inst.args.mapM (m d)
    match call inst.label vs m with
    | none => none
    | some .trapped => some (.stop .trapped)
    | some (.returned n m) => some (.next (m.set d inst.destination (.int n)))
  | .label => some (.next m)
  | .jump => some (.jump inst.label m)
  | .jumpIfZero => do
    let n ← m.int d inst.left
    some (if n = 0 then .jump inst.label m else .next m)
  | .returnI32 => do
    let n ← m.int d inst.left
    some (.stop (.returned n m))
  | .inlineAsmI32 => none
  | opcode => do
    let a ← m.int d inst.left
    let b ← m.int d inst.right
    let n ← opcode.eval a b
    some (.next (m.set d inst.destination (.int n)))

variable {call f d args}

/-- The other instructions go on to the next one. -/
theorem step_next {m : Memory} {inst : IRInstruction} {r : IRNext} (h : inst.opcode ∉ transfers)
    (hs : inst.step call f d args m = some r) : ∃ m', r = .next m' := by
  unfold step at hs
  split at hs
  all_goals
    try simp only [Option.bind_eq_bind, Option.bind_eq_some_iff, Option.some.injEq] at hs
    grind [Option.bind_eq_some_iff, transfers]

section Transfers

variable {m : Memory} {inst : IRInstruction} {r : IRNext}
  (hs : inst.step call f d args m = some r)

include hs

theorem step_call (ho : inst.opcode = .call) : ∃ vs, inst.args.mapM (m d) = some vs ∧
    ((call inst.label vs m = some .trapped ∧ r = .stop .trapped) ∨
      ∃ n m', call inst.label vs m = some (.returned n m') ∧
        r = .next (m'.set d inst.destination (.int n))) := by
  rw [step, ho] at hs
  obtain ⟨vs, hvs, hs⟩ := Option.bind_eq_some_iff.mp hs
  refine ⟨vs, hvs, ?_⟩
  split at hs
  · cases hs
  · rename_i hcall
    cases hs
    exact .inl ⟨hcall, rfl⟩
  · rename_i n m' hcall
    cases hs
    exact .inr ⟨n, m', hcall, rfl⟩

theorem step_boundsCheckI32 (ho : inst.opcode = .boundsCheckI32) :
    ∃ n, m.int d inst.left = some n ∧
      r = if n.ult (BitVec.ofInt 32 inst.value) then .next m else .stop .trapped := by
  rw [step, ho] at hs
  obtain ⟨n, hn, hs⟩ := Option.bind_eq_some_iff.mp hs
  exact ⟨n, hn, (Option.some.inj hs).symm⟩

theorem step_label (ho : inst.opcode = .label) : r = .next m := by
  rw [step, ho] at hs
  exact (Option.some.inj hs).symm

theorem step_jump (ho : inst.opcode = .jump) : r = .jump inst.label m := by
  rw [step, ho] at hs
  exact (Option.some.inj hs).symm

theorem step_jumpIfZero (ho : inst.opcode = .jumpIfZero) :
    ∃ n, m.int d inst.left = some n ∧ r = if n = 0 then .jump inst.label m else .next m := by
  rw [step, ho] at hs
  obtain ⟨n, hn, hs⟩ := Option.bind_eq_some_iff.mp hs
  exact ⟨n, hn, (Option.some.inj hs).symm⟩

theorem step_returnI32 (ho : inst.opcode = .returnI32) :
    ∃ n, m.int d inst.left = some n ∧ r = .stop (.returned n m) := by
  rw [step, ho] at hs
  obtain ⟨n, hn, hs⟩ := Option.bind_eq_some_iff.mp hs
  exact ⟨n, hn, (Option.some.inj hs).symm⟩

end Transfers

end IRInstruction

namespace IRFunction

/-- The position of a label. -/
def position (l : String) : Option Nat := f.instructions.findIdx? (· == .labelAt l)

/-- At most `n` instructions, from position `pc` on. -/
def exec : (n pc : Nat) → Memory → Option IROutcome
  | 0, _, _ => none
  | n + 1, pc, m =>
    match f.instructions[pc]? with
    | none => none
    | some inst =>
      match inst.step call f d args m with
      | none => none
      | some (.next m) => exec n (pc + 1) m
      | some (.jump l m) =>
        match f.position l with
        | none => none
        | some j => exec n j m
      | some (.stop o) => some o

variable {call f d args}

theorem labelAt_of_position {l : String} {j : Nat} (h : f.position l = some j) : f.LabelAt l j := by
  obtain ⟨hj, hl, -⟩ := List.findIdx?_eq_some_iff_getElem.mp h
  rw [beq_iff_eq] at hl
  exact List.getElem?_eq_some_iff.mpr ⟨hj, hl⟩

variable (call f d args) in
/-- How a run of at most `k` further instructions ends after the instruction at `pc`. -/
def Continues (k pc : Nat) (o : IROutcome) : IRNext → Prop
  | .next m => f.exec call d args k (pc + 1) m = some o
  | .jump l m => ∃ j, f.LabelAt l j ∧ f.exec call d args k j m = some o
  | .stop o' => o' = o

/-- The first instruction of a run. -/
theorem exec_cases {n pc : Nat} {m : Memory} {o : IROutcome}
    (h : f.exec call d args n pc m = some o) :
    ∃ k inst r, n = k + 1 ∧ f.instructions[pc]? = some inst ∧
      inst.step call f d args m = some r ∧ f.Continues call d args k pc o r := by
  cases n with
  | zero => cases h
  | succ k =>
    rw [exec] at h
    split at h
    · cases h
    rename_i inst hi
    split at h
    · cases h
    · rename_i m' hstep
      exact ⟨k, inst, _, rfl, hi, hstep, h⟩
    · rename_i l m' hstep
      split at h
      · cases h
      · rename_i j hj
        exact ⟨k, inst, _, rfl, hi, hstep, j, labelAt_of_position hj, h⟩
    · rename_i o' hstep
      exact ⟨k, inst, _, rfl, hi, hstep, Option.some.inj h⟩

end IRFunction

end Run

/-- The functions of a program, by name. -/
abbrev IRProgram := String → Option IRFunction

/-- A call at depth `d`, with at most `n` activations inside each other and at most `steps`
instructions in each. -/
def IRProgram.run (P : IRProgram) (steps : Nat) : (n d : Nat) → Calls
  | 0, _, _, _, _ => none
  | n + 1, d, name, args, m =>
    match P name with
    | none => none
    | some f =>
      if args.length = f.paramCount then
        f.exec (IRProgram.run P steps n (d + 1)) d args steps 0 (m.enter d)
      else none

end Oglang
end Techuila
