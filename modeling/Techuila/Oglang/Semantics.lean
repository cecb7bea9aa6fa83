import Mathlib.Data.BitVec
import Techuila.Oglang.Ir

/-!
# Arithmetic of the intermediate representation

`OpCode.eval`: the 32-bit result of a binary operator; division by zero and the one quotient that
does not fit have none.
-/

namespace Techuila
namespace Oglang

/-- 1 for true, 0 for false. -/
def boolWord (b : Bool) : BitVec 32 := if b then 1 else 0

namespace OpCode

def eval (opcode : OpCode) (a b : BitVec 32) : Option (BitVec 32) :=
  match opcode with
  | addI32 => some (a + b)
  | subI32 => some (a - b)
  | mulI32 => some (a * b)
  | divI32 =>
    if b = 0 ∨ (a = BitVec.intMin 32 ∧ b = -1) then none
    else some (BitVec.ofInt 32 (a.toInt.tdiv b.toInt))
  | cmpEqI32 => some (boolWord (a == b))
  | cmpNeI32 => some (boolWord (a != b))
  | cmpGtI32 => some (boolWord (decide (b.toInt < a.toInt)))
  | cmpLtI32 => some (boolWord (decide (a.toInt < b.toInt)))
  | cmpGeI32 => some (boolWord (decide (b.toInt ≤ a.toInt)))
  | cmpLeI32 => some (boolWord (decide (a.toInt ≤ b.toInt)))
  | _ => none

end OpCode

end Oglang
end Techuila
