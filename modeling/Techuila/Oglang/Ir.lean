import Mathlib.Data.List.Basic

/-!
# The intermediate representation (`ir/ir.hpp`)

A value is a mutable cell named by its id (`ValueId`, an `Int`); an absent operand is `-1`. The
instructions of a function are executed in order, except for `jump`, `jumpIfZero` and
`returnI32`.

* `IRInstruction.constI32` and the other constructors: the shapes that the lowering emits.
* `IRInstruction.reads`, `IRInstruction.writes`: the cells of an instruction.
* `IRFunction.Succ`: where execution may go on after an instruction.
-/

namespace Techuila
namespace Oglang

inductive OpCode where
  | constI32
  | addI32
  | subI32
  | mulI32
  | divI32
  | cmpEqI32
  | cmpNeI32
  | cmpGtI32
  | cmpLtI32
  | cmpGeI32
  | cmpLeI32
  | paramI32
  | moveI32
  | call
  | addressOfI32
  | loadI32
  | storeI32
  | ptrSubI32
  | boundsCheckI32
  | label
  | jump
  | jumpIfZero
  | returnI32
  | inlineAsmI32
  deriving DecidableEq, Repr

structure IRInstruction where
  opcode : OpCode
  destination : Int
  left : Int
  right : Int
  value : Int
  args : List Int
  label : String
  deriving DecidableEq, Repr

structure IRFunction where
  name : String
  paramCount : Nat := 0
  instructions : List IRInstruction := []
  addressTakenValues : List Int := []
  arrayGroups : List (List Int) := []
  deriving DecidableEq, Repr

namespace OpCode

/-- The opcodes of `BinaryExpr`. -/
def isBinary : OpCode → Bool
  | addI32 | subI32 | mulI32 | divI32 => true
  | cmpEqI32 | cmpNeI32 | cmpGtI32 | cmpLtI32 | cmpGeI32 | cmpLeI32 => true
  | _ => false

/-- The opcodes that transfer control or are the target of a transfer. -/
def isControl : OpCode → Bool
  | label | jump | jumpIfZero | returnI32 => true
  | _ => false

theorem isControl_of_isBinary {opcode : OpCode} (h : opcode.isBinary = true) :
    opcode.isControl = false := by
  cases opcode <;> first | rfl | cases h

end OpCode

namespace IRInstruction

def constI32 (destination : Int) (value : Int) : IRInstruction :=
  ⟨.constI32, destination, -1, -1, value, [], ""⟩

def binary (opcode : OpCode) (destination left right : Int) : IRInstruction :=
  ⟨opcode, destination, left, right, 0, [], ""⟩

def paramI32 (destination : Int) (i : Nat) : IRInstruction :=
  ⟨.paramI32, destination, -1, -1, i, [], ""⟩

def moveI32 (destination left : Int) : IRInstruction :=
  ⟨.moveI32, destination, left, -1, 0, [], ""⟩

def call (destination : Int) (callee : String) (args : List Int) : IRInstruction :=
  ⟨.call, destination, -1, -1, 0, args, callee⟩

def addressOfI32 (destination left : Int) : IRInstruction :=
  ⟨.addressOfI32, destination, left, -1, 0, [], ""⟩

def loadI32 (destination left : Int) : IRInstruction :=
  ⟨.loadI32, destination, left, -1, 0, [], ""⟩

def storeI32 (left right : Int) : IRInstruction := ⟨.storeI32, -1, left, right, 0, [], ""⟩

def ptrSubI32 (destination left right : Int) : IRInstruction :=
  ⟨.ptrSubI32, destination, left, right, 0, [], ""⟩

def boundsCheckI32 (left : Int) (size : Int) : IRInstruction :=
  ⟨.boundsCheckI32, -1, left, -1, size, [], ""⟩

def labelAt (label : String) : IRInstruction := ⟨.label, -1, -1, -1, 0, [], label⟩

def jump (label : String) : IRInstruction := ⟨.jump, -1, -1, -1, 0, [], label⟩

def jumpIfZero (left : Int) (label : String) : IRInstruction :=
  ⟨.jumpIfZero, -1, left, -1, 0, [], label⟩

def returnI32 (left : Int) : IRInstruction := ⟨.returnI32, -1, left, -1, 0, [], ""⟩

def inlineAsmI32 (destination : Int) (template : String) : IRInstruction :=
  ⟨.inlineAsmI32, destination, -1, -1, 0, [], template⟩

/-- The cells whose contents the instruction reads. -/
def reads (inst : IRInstruction) : List Int :=
  match inst.opcode with
  | .moveI32 | .loadI32 | .boundsCheckI32 | .jumpIfZero | .returnI32 => [inst.left]
  | .storeI32 | .ptrSubI32 => [inst.left, inst.right]
  | .call => inst.args
  | op => if op.isBinary then [inst.left, inst.right] else []

/-- The cell that the instruction writes. -/
def writes (inst : IRInstruction) : Option Int :=
  if 0 ≤ inst.destination then some inst.destination else none

end IRInstruction

namespace IRFunction

/-- `j` is the position of the label `l`. -/
def LabelAt (f : IRFunction) (l : String) (j : Nat) : Prop :=
  f.instructions[j]? = some (.labelAt l)

/-- After the instruction at `i`, execution may go on at `j`. A failed bounds check and a return
end it. -/
inductive Succ (f : IRFunction) (i : Nat) : Nat → Prop
  | next {inst : IRInstruction} : f.instructions[i]? = some inst → inst.opcode ≠ .jump →
      inst.opcode ≠ .returnI32 → Succ f i (i + 1)
  | jump {inst : IRInstruction} {j : Nat} : f.instructions[i]? = some inst →
      inst.opcode = .jump ∨ inst.opcode = .jumpIfZero → f.LabelAt inst.label j → Succ f i j

end IRFunction

end Oglang
end Techuila
