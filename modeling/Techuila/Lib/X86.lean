import Techuila.Lib.ByteMemory

/-!
# A subset of x86-64

Nine registers with their 64-, 32- and 8-bit views, a byte-addressed memory and four flags. A
32-bit write clears the upper half of its register.

* `Instr.exec`: one instruction that does not transfer control; `none` is a fault.
* `run`: a piece of assembly text from its first line on. A jump to a label further down goes on
  there, any other one leaves the piece. Called functions and raw assembly are parameters.
* `State.holds`: what the conditions mean after a comparison.
-/

namespace Techuila
namespace X86

inductive Reg where
  | rax
  | rcx
  | rdx
  | rsi
  | rdi
  | rbx
  | r8
  | rsp
  | rbp
  deriving DecidableEq, Repr

/-- A register, or the memory at `disp(%base)`. -/
inductive Operand where
  | reg (r : Reg)
  | mem (base : Reg) (disp : Int)
  deriving DecidableEq, Repr

inductive AluOp where
  | add
  | sub
  | imul
  deriving DecidableEq, Repr

/-- The conditions of `setcc`. -/
inductive Cond where
  | e
  | ne
  | g
  | l
  | ge
  | le
  deriving DecidableEq, Repr

/-- Source before destination, as in AT&T syntax. -/
inductive Instr where
  | movl (src dst : Operand)
  | movlImm (imm : Int) (dst : Reg)
  | movq (src dst : Operand)
  | movslq (src dst : Reg)
  /-- From the low byte of a register to its 32 bits. -/
  | movzbl (r : Reg)
  | leaq (base : Reg) (disp : Int) (dst : Reg)
  | pushq (src : Operand)
  | popq (dst : Operand)
  | alul (op : AluOp) (src : Operand) (dst : Reg)
  | subq (src dst : Reg)
  | addqImm (imm : Int) (dst : Reg)
  | subqImm (imm : Int) (dst : Reg)
  | cmpl (src dst : Reg)
  | cmplImm (imm : Int) (dst : Reg)
  | testl (src dst : Reg)
  | setcc (c : Cond) (r : Reg)
  | cdq
  | idivl (r : Reg)
  | leave
  | jmp (target : String)
  | jz (target : String)
  | jb (target : String)
  | call (target : String)
  | ret
  | syscall
  deriving DecidableEq, Repr

/-- A line of assembly text. -/
inductive Line where
  | instr (i : Instr)
  | label (name : String)
  | global (name : String)
  | text
  | raw (template : String)
  | blank
  deriving DecidableEq, Repr

namespace Line

/-- The label that the line defines. -/
def label? : Line → Option String
  | .label name => some name
  | _ => none

/-- The label that the line may jump to. -/
def target? : Line → Option String
  | .instr (.jmp l) | .instr (.jz l) | .instr (.jb l) => some l
  | _ => none

attribute [simp] label? target?

end Line

/-- The labels that the lines define, in order. -/
def labels (lines : List Line) : List String := lines.filterMap Line.label?

/-- The labels that the lines jump to. -/
def targets (lines : List Line) : List String := lines.filterMap Line.target?

@[simp] theorem labels_append (a b : List Line) : labels (a ++ b) = labels a ++ labels b :=
  List.filterMap_append

@[simp] theorem targets_append (a b : List Line) : targets (a ++ b) = targets a ++ targets b :=
  List.filterMap_append

structure State where
  regs : Reg → BitVec 64
  mem : ByteMemory
  zero : Bool
  sign : Bool
  overflow : Bool
  carry : Bool

namespace State

def get64 (s : State) (r : Reg) : BitVec 64 := s.regs r

def get32 (s : State) (r : Reg) : BitVec 32 := (s.regs r).setWidth 32

def set64 (s : State) (r : Reg) (v : BitVec 64) : State :=
  { s with regs := Function.update s.regs r v }

def set32 (s : State) (r : Reg) (v : BitVec 32) : State := s.set64 r (v.setWidth 64)

def address (s : State) (base : Reg) (disp : Int) : Address :=
  s.regs base + BitVec.ofInt 64 disp

def load32 (s : State) (a : Address) : BitVec 32 := BitVec.ofNat 32 (s.mem.load a 4)

def load64 (s : State) (a : Address) : BitVec 64 := BitVec.ofNat 64 (s.mem.load a 8)

def store32 (s : State) (a : Address) (v : BitVec 32) : State :=
  { s with mem := s.mem.store a 4 v.toNat }

def store64 (s : State) (a : Address) (v : BitVec 64) : State :=
  { s with mem := s.mem.store a 8 v.toNat }

def read32 (s : State) : Operand → BitVec 32
  | .reg r => s.get32 r
  | .mem base disp => s.load32 (s.address base disp)

def read64 (s : State) : Operand → BitVec 64
  | .reg r => s.get64 r
  | .mem base disp => s.load64 (s.address base disp)

def write32 (s : State) (o : Operand) (v : BitVec 32) : State :=
  match o with
  | .reg r => s.set32 r v
  | .mem base disp => s.store32 (s.address base disp) v

def write64 (s : State) (o : Operand) (v : BitVec 64) : State :=
  match o with
  | .reg r => s.set64 r v
  | .mem base disp => s.store64 (s.address base disp) v

def push (s : State) (v : BitVec 64) : State :=
  (s.set64 .rsp (s.get64 .rsp - 8)).store64 (s.get64 .rsp - 8) v

/-- The flags of `a - b`. -/
def cmp (s : State) (a b : BitVec 32) : State :=
  { s with
    zero := a == b
    sign := (a - b).msb
    overflow := (a - b).toInt != a.toInt - b.toInt
    carry := a.ult b }

def holds (s : State) : Cond → Bool
  | .e => s.zero
  | .ne => !s.zero
  | .g => !s.zero && (s.sign == s.overflow)
  | .l => s.sign != s.overflow
  | .ge => s.sign == s.overflow
  | .le => s.zero || (s.sign != s.overflow)

end State

def AluOp.apply : AluOp → BitVec 32 → BitVec 32 → BitVec 32
  | .add, a, b => a + b
  | .sub, a, b => a - b
  | .imul, a, b => a * b

/-- The effect of an instruction that does not transfer control. The flags that `add`, `sub` and
`imul` leave are not modelled: they keep the old ones. -/
def Instr.exec (s : State) : Instr → Option State
  | .movl src dst => some (s.write32 dst (s.read32 src))
  | .movlImm imm dst => some (s.set32 dst (BitVec.ofInt 32 imm))
  | .movq src dst => some (s.write64 dst (s.read64 src))
  | .movslq src dst => some (s.set64 dst ((s.get32 src).signExtend 64))
  | .movzbl r => some (s.set64 r (((s.get64 r).setWidth 8).setWidth 64))
  | .leaq base disp dst => some (s.set64 dst (s.address base disp))
  | .pushq src => some (s.push (s.read64 src))
  | .popq dst =>
    let s' := s.set64 .rsp (s.get64 .rsp + 8)
    some (s'.write64 dst (s.load64 (s.get64 .rsp)))
  | .alul op src dst => some (s.set32 dst (op.apply (s.get32 dst) (s.read32 src)))
  | .subq src dst => some (s.set64 dst (s.get64 dst - s.get64 src))
  | .addqImm imm dst => some (s.set64 dst (s.get64 dst + BitVec.ofInt 64 imm))
  | .subqImm imm dst => some (s.set64 dst (s.get64 dst - BitVec.ofInt 64 imm))
  | .cmpl src dst => some (s.cmp (s.get32 dst) (s.get32 src))
  | .cmplImm imm dst => some (s.cmp (s.get32 dst) (BitVec.ofInt 32 imm))
  | .testl src dst => some (s.cmp (s.get32 dst &&& s.get32 src) 0)
  | .setcc c r =>
    let bit : BitVec 64 := if s.holds c then 1 else 0
    some (s.set64 r ((s.get64 r >>> 8) <<< 8 ||| bit))
  | .cdq => some (s.set32 .rdx (if (s.get32 .rax).msb then -1 else 0))
  | .idivl r =>
    -- the dividend is edx:eax; a zero divisor and a quotient out of range fault
    let dividend := ((s.get32 .rdx).setWidth 64 <<< 32 ||| (s.get32 .rax).setWidth 64).toInt
    let divisor := (s.get32 r).toInt
    let quotient := dividend.tdiv divisor
    if divisor = 0 ∨ quotient < -2 ^ 31 ∨ 2 ^ 31 ≤ quotient then none
    else some ((s.set32 .rax (BitVec.ofInt 32 quotient)).set32 .rdx
      (BitVec.ofInt 32 (dividend.tmod divisor)))
  | .leave =>
    let s' := s.set64 .rsp (s.get64 .rbp + 8)
    some (s'.set64 .rbp (s.load64 (s.get64 .rbp)))
  | .jmp _ | .jz _ | .jb _ | .call _ | .ret | .syscall => none

/-- What is outside a piece of assembly text: the functions that it calls, up to their return, and
raw assembly. `none` is a run that does not come back. -/
structure Outside where
  call : String → State → Option State
  raw : String → State → Option State

/-- How a piece of assembly text ends: after its last line, at a label outside, at a return (with
the return address popped), with an exit status, or with a fault. -/
inductive Outcome where
  | done (s : State)
  | jumped (target : String) (s : State)
  | returned (s : State)
  | exited (status : BitVec 32)
  | stuck

/-- Runs the lines in order; with `skip = some l`, only from the label `l` on. -/
def run (env : Outside) : (skip : Option String) → List Line → State → Outcome
  | none, [], s => .done s
  | some l, [], s => .jumped l s
  | some l, .label name :: lines, s => run env (if name = l then none else some l) lines s
  | some l, _ :: lines, s => run env (some l) lines s
  | none, .instr i :: lines, s =>
    match i with
    | .jmp l => run env (some l) lines s
    | .jz l => run env (if s.zero then some l else none) lines s
    | .jb l => run env (if s.carry then some l else none) lines s
    | .call f =>
      match env.call f s with
      | none => .stuck
      | some s => run env none lines s
    | .ret => .returned (s.set64 .rsp (s.get64 .rsp + 8))
    | .syscall => if s.get32 .rax = 60 then .exited (s.get32 .rdi) else .stuck
    | i =>
      match i.exec s with
      | none => .stuck
      | some s => run env none lines s
  | none, .raw t :: lines, s =>
    match env.raw t s with
    | none => .stuck
    | some s => run env none lines s
  | none, _ :: lines, s => run env none lines s

end X86
end Techuila
