import Techuila.Lib.X86
import Techuila.Oglang.RegisterAllocator

/-!
# Code generation (`codegen/x86_64.cpp`)

The assembly text as a list of lines, with an operand for each of the texts that the source builds.
`slotOperand` is where a value lives in the frame; the scratch registers `ebx`, `edi` and `r8d` are
outside the allocator's pool.
-/

namespace Techuila
namespace Oglang

open X86 (Reg Operand Instr Line AluOp Cond)

/-- Integer argument registers, in order. -/
def abiArgRegisters : List Reg := [.rdi, .rsi, .rdx, .rcx]

namespace X86Codegen

def generateEntryPoint (entryFunction : String) : List Line :=
  [.text, .global "_start", .label "_start", .instr (.call entryFunction),
    .instr (.movl (.reg .rax) (.reg .rdi)), .instr (.movlImm 60 .rax), .instr .syscall, .blank]

section Generate

variable (allocation : RegisterAllocation)

/-- Slot `n` lives at `-8*(n+1)(%rbp)`. -/
def slotDisp (n : Nat) : Int := -((n + 1) * 8)

def slotOperand (n : Nat) : Operand := .mem .rbp (slotDisp n)

def spillSlot (value : Int) : Except String Nat :=
  match allocation.spillSlots.find value with
  | none => .error "Value has no spill slot"
  | some n => .ok n

def spillAddress (value : Int) : Except String Operand := do
  let n ← spillSlot allocation value
  .ok (slotOperand n)

def isSpilled (value : Int) : Bool := (allocation.registers.find value).isNone

/-- The register that holds `value`, after loading it into `scratch` if it is spilled. -/
def loadRead (value : Int) (scratch : Reg) : Except String (List Line × Reg) :=
  match allocation.registers.find value with
  | some r => .ok ([], r)
  | none => do
    let slot ← spillAddress allocation value
    .ok ([.instr (.movl slot (.reg scratch))], scratch)

/-- The register to compute a result in. -/
def writeTarget (value : Int) (scratch : Reg) : Reg :=
  match allocation.registers.find value with
  | some r => r
  | none => scratch

def storeIfSpilled (value : Int) (scratch : Reg) : Except String (List Line) :=
  if isSpilled allocation value then do
    let slot ← spillAddress allocation value
    .ok [.instr (.movl (.reg scratch) slot)]
  else .ok []

/-- The register with the 64-bit pointer, after loading it into `rbx` if it is spilled. -/
def loadPointer (value : Int) : Except String (List Line × Reg) :=
  match allocation.registers.find value with
  | some r => .ok ([], r)
  | none => do
    let slot ← spillAddress allocation value
    .ok ([.instr (.movq slot (.reg .rbx))], .rbx)

def storePointerIfSpilled (value : Int) : Except String (List Line) :=
  if isSpilled allocation value then do
    let slot ← spillAddress allocation value
    .ok [.instr (.movq (.reg .rbx) slot)]
  else .ok []

/-- Register-allocated values other than `exclude` with a range around `index`, by value. -/
def liveAcross (liveness : Table Int LiveRange) (index : Nat) (exclude : Int) :
    List (Int × Reg) :=
  (allocation.registers.filter fun e : Int × Reg =>
    e.1 != exclude && match liveness.find e.1 with
      | none => false
      | some r => decide (r.start < index) && decide (index < r.stop)).insertionSort
    fun a b => a.1 ≤ b.1

def emitBinaryOp (op : AluOp) (destination left right : Int) : Except String (List Line) := do
  let (loadLeft, leftLoc) ← loadRead allocation left .rbx
  let (loadRight, rightLoc) ← loadRead allocation right .rdi
  let destLoc := writeTarget allocation destination .r8
  let store ← storeIfSpilled allocation destination .r8
  let compute : List Line :=
    if destLoc = rightLoc ∧ destLoc ≠ leftLoc then
      [.instr (.pushq (.reg rightLoc)), .instr (.movl (.reg leftLoc) (.reg destLoc)),
        .instr (.alul op (.mem .rsp 0) destLoc), .instr (.addqImm 8 .rsp)]
    else
      (if destLoc ≠ leftLoc then [.instr (.movl (.reg leftLoc) (.reg destLoc))] else []) ++
        [.instr (.alul op (.reg rightLoc) destLoc)]
  .ok (loadLeft ++ loadRight ++ compute ++ store)

def emitCompare (c : Cond) (destination left right : Int) : Except String (List Line) := do
  let (loadLeft, leftLoc) ← loadRead allocation left .rbx
  let (loadRight, rightLoc) ← loadRead allocation right .rdi
  let destLoc := writeTarget allocation destination .r8
  let store ← storeIfSpilled allocation destination .r8
  .ok (loadLeft ++ loadRight ++
    [.instr (.cmpl rightLoc leftLoc), .instr (.setcc c destLoc), .instr (.movzbl destLoc)] ++ store)

/-- `movl %eax, destLoc` and the flush of a spilled result, shared by division, calls and inline
assembly. -/
def takeEax (destination : Int) : Except String (List Line) := do
  let destLoc := writeTarget allocation destination .rbx
  let store ← storeIfSpilled allocation destination .rbx
  .ok ((if destLoc ≠ .rax then [.instr (.movl (.reg .rax) (.reg destLoc))] else []) ++ store)

/-- Restores saved registers in reverse push order, discarding the one that the destination
reclaimed. -/
def restore (destination : Int) (saved : List (Int × Reg)) : List Line :=
  saved.reverse.map fun e =>
    if !isSpilled allocation destination && writeTarget allocation destination .rbx = e.2 then
      .instr (.addqImm 8 .rsp)
    else .instr (.popq (.reg e.2))

def save (saved : List (Int × Reg)) : List Line :=
  saved.map fun e => .instr (.pushq (.reg e.2))

def emitDiv (liveness : Table Int LiveRange) (index : Nat) (destination left right : Int) :
    Except String (List Line) := do
  let (loadRight, rightLoc) ← loadRead allocation right .rdi
  let (loadLeft, leftLoc) ← loadRead allocation left .rbx
  let toSave := (liveAcross allocation liveness index destination).filter fun e =>
    e.2 = .rax ∨ e.2 = .rdx
  let take ← takeEax allocation destination
  .ok (loadRight ++ loadLeft ++ save toSave ++
    [.instr (.movl (.reg rightLoc) (.reg .rcx)), .instr (.movl (.reg leftLoc) (.reg .rax)),
      .instr .cdq, .instr (.idivl .rcx)] ++ take ++ restore allocation destination toSave)

def pushArgValue (arg : Int) : Except String Line :=
  match allocation.registers.find arg with
  | some r => .ok (.instr (.pushq (.reg r)))
  | none => do
    let slot ← spillAddress allocation arg
    .ok (.instr (.pushq slot))

def emitCall (liveness : Table Int LiveRange) (index : Nat) (destination : Int) (callee : String)
    (args : List Int) : Except String (List Line) := do
  let registerArgCount := min args.length abiArgRegisters.length
  let stackArgCount := args.length - registerArgCount
  let saved := liveAcross allocation liveness index destination
  let pushStack ← (args.drop registerArgCount).reverse.mapM (pushArgValue allocation)
  let pushRegs ← (args.take registerArgCount).mapM (pushArgValue allocation)
  let popRegs : List Line :=
    (abiArgRegisters.take registerArgCount).reverse.map fun r => .instr (.popq (.reg r))
  let cleanup : List Line :=
    if stackArgCount > 0 then [.instr (.addqImm (stackArgCount * 8) .rsp)] else []
  let take ← takeEax allocation destination
  .ok (save saved ++ pushStack ++ pushRegs ++ popRegs ++ [.instr (.call callee)] ++ cleanup ++
    take ++ restore allocation destination saved)

def emitAsm (liveness : Table Int LiveRange) (index : Nat) (destination : Int)
    (template : String) : Except String (List Line) := do
  let saved := liveAcross allocation liveness index destination
  let take ← takeEax allocation destination
  .ok (save saved ++ [.raw template] ++ take ++ restore allocation destination saved)

def okLabel (index : Nat) : String := ".Lboundsok" ++ toString index

/-- The lines of the instruction at position `index`. -/
def emitInstruction (liveness : Table Int LiveRange) (index : Nat) (inst : IRInstruction) :
    Except String (List Line) :=
  match inst.opcode with
  | .constI32 => do
    let destLoc := writeTarget allocation inst.destination .rbx
    let store ← storeIfSpilled allocation inst.destination .rbx
    .ok (.instr (.movlImm inst.value destLoc) :: store)
  | .addI32 => emitBinaryOp allocation .add inst.destination inst.left inst.right
  | .subI32 => emitBinaryOp allocation .sub inst.destination inst.left inst.right
  | .mulI32 => emitBinaryOp allocation .imul inst.destination inst.left inst.right
  | .moveI32 => do
    let (load, srcLoc) ← loadRead allocation inst.left .rbx
    let destLoc := writeTarget allocation inst.destination .rbx
    let store ← storeIfSpilled allocation inst.destination .rbx
    .ok (load ++ (if destLoc ≠ srcLoc then [.instr (.movl (.reg srcLoc) (.reg destLoc))] else []) ++
      store)
  | .addressOfI32 => do
    let destReg := writeTarget allocation inst.destination .rbx
    let n ← spillSlot allocation inst.left
    let store ← storePointerIfSpilled allocation inst.destination
    .ok (.instr (.leaq .rbp (slotDisp n) destReg) :: store)
  | .loadI32 => do
    let (load, pointerReg) ← loadPointer allocation inst.left
    let destLoc := writeTarget allocation inst.destination .r8
    let store ← storeIfSpilled allocation inst.destination .r8
    .ok (load ++ [.instr (.movl (.mem pointerReg 0) (.reg destLoc))] ++ store)
  | .storeI32 => do
    let (load, pointerReg) ← loadPointer allocation inst.left
    let (loadValue, valueLoc) ← loadRead allocation inst.right .rdi
    .ok (load ++ loadValue ++ [.instr (.movl (.reg valueLoc) (.mem pointerReg 0))])
  | .ptrSubI32 => do
    let (load, pointerReg) ← loadPointer allocation inst.left
    let (loadOffset, offsetLoc) ← loadRead allocation inst.right .rdi
    let destReg := writeTarget allocation inst.destination .rbx
    let store ← storePointerIfSpilled allocation inst.destination
    .ok (load ++ loadOffset ++ [.instr (.movslq offsetLoc .rdi)] ++
      (if destReg ≠ pointerReg then [.instr (.movq (.reg pointerReg) (.reg destReg))] else []) ++
      [.instr (.subq .rdi destReg)] ++ store)
  | .divI32 => emitDiv allocation liveness index inst.destination inst.left inst.right
  | .cmpEqI32 => emitCompare allocation .e inst.destination inst.left inst.right
  | .cmpNeI32 => emitCompare allocation .ne inst.destination inst.left inst.right
  | .cmpGtI32 => emitCompare allocation .g inst.destination inst.left inst.right
  | .cmpLtI32 => emitCompare allocation .l inst.destination inst.left inst.right
  | .cmpGeI32 => emitCompare allocation .ge inst.destination inst.left inst.right
  | .cmpLeI32 => emitCompare allocation .le inst.destination inst.left inst.right
  | .paramI32 =>
    if inst.value < 0 then .error "Invalid parameter index"
    else if inst.value < abiArgRegisters.length then .ok []
    else do
      let stackIndex := inst.value - abiArgRegisters.length
      let destLoc := writeTarget allocation inst.destination .rbx
      let store ← storeIfSpilled allocation inst.destination .rbx
      .ok (.instr (.movl (.mem .rbp (16 + stackIndex * 8)) (.reg destLoc)) :: store)
  | .call => emitCall allocation liveness index inst.destination inst.label inst.args
  | .inlineAsmI32 => emitAsm allocation liveness index inst.destination inst.label
  | .boundsCheckI32 => do
    let (load, indexLoc) ← loadRead allocation inst.left .rbx
    .ok (load ++ [.instr (.cmplImm inst.value indexLoc), .instr (.jb (okLabel index)),
      .instr (.movlImm 60 .rax), .instr (.movlImm 101 .rdi), .instr .syscall,
      .label (okLabel index)])
  | .label => .ok [.label inst.label]
  | .jump => .ok [.instr (.jmp inst.label)]
  | .jumpIfZero => do
    let (load, condLoc) ← loadRead allocation inst.left .rbx
    .ok (load ++ [.instr (.testl condLoc condLoc), .instr (.jz inst.label)])
  | .returnI32 => do
    let (load, valueLoc) ← loadRead allocation inst.left .rbx
    .ok (load ++ (if valueLoc ≠ .rax then [.instr (.movl (.reg valueLoc) (.reg .rax))] else []) ++
      [.instr .leave, .instr .ret])

/-- The lines of the instructions from position `index` on. -/
def emitFrom (liveness : Table Int LiveRange) (index : Nat) :
    List IRInstruction → Except String (List Line)
  | [] => .ok []
  | inst :: rest => do
    let lines ← emitInstruction allocation liveness index inst
    let more ← emitFrom liveness (index + 1) rest
    .ok (lines ++ more)

/-- Pops the register parameters `dests` into their places. -/
def popParam (dest : Int) : Except String Line :=
  match allocation.registers.find dest with
  | some r => .ok (.instr (.popq (.reg r)))
  | none => do
    let slot ← spillAddress allocation dest
    .ok (.instr (.popq slot))

/-- The frame, and the register parameters through the stack into their places. -/
def prologue (ir : IRFunction) : Except String (List Line) := do
  let registerParamCount := min ir.paramCount abiArgRegisters.length
  let pops ← ((ir.instructions.take registerParamCount).map IRInstruction.destination).mapM
    (popParam allocation)
  .ok ([.global ir.name, .label ir.name, .instr (.pushq (.reg .rbp)),
      .instr (.movq (.reg .rsp) (.reg .rbp))] ++
    (if allocation.spillSlotCount * 8 > 0 then
      [.instr (.subqImm (allocation.spillSlotCount * 8) .rsp)] else []) ++
    ((abiArgRegisters.take registerParamCount).reverse.map fun r => .instr (.pushq (.reg r))) ++
    pops)

def generate (ir : IRFunction) (liveness : Table Int LiveRange) : Except String (List Line) := do
  let start ← prologue allocation ir
  let body ← emitFrom allocation liveness 0 ir.instructions
  .ok (start ++ body ++ [.blank])

end Generate

end X86Codegen

end Oglang
end Techuila
