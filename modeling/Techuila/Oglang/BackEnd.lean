import Techuila.Lib.X86Machine
import Techuila.Oglang.StepSimulation

/-!
# Activations on the machine

* `Placed`: the code of a function in the text.
* `Ends`: what a machine run has to do for the outcome of an activation.
* `exec_ends`: a run of the intermediate code is a run of the machine, given that for the calls.
-/

namespace Techuila
namespace Oglang

open X86
open LivenessAnalyzer (analyze)

/-! ## Code in the text -/

/-- The code of the instruction at each position stands at its place in the text. -/
def Placed (img : Image) (f : IRFunction) (a : RegisterAllocation) (place : Nat → Nat) : Prop :=
  ∀ (i : Nat) (inst : IRInstruction), f.instructions[i]? = some inst → ∃ lines rest,
    X86Codegen.emitInstruction a (analyze f) i inst = .ok lines ∧
      img.At (place i) (lines ++ rest) ∧ place (i + 1) = place i + lines.length

theorem emitFrom_places {img : Image} {a : RegisterAllocation} {liveness : Table Int LiveRange}
    (code : List IRInstruction) {index : Nat} {lines rest : List Line}
    (h : X86Codegen.emitFrom a liveness index code = .ok lines) {pc : Nat}
    (hat : img.At pc (lines ++ rest)) :
    ∃ place : Nat → Nat, place 0 = pc ∧ ∀ (i : Nat) (inst : IRInstruction), code[i]? = some inst →
      ∃ lines rest, X86Codegen.emitInstruction a liveness (index + i) inst = .ok lines ∧
        img.At (place i) (lines ++ rest) ∧ place (i + 1) = place i + lines.length := by
  induction code generalizing index lines pc with
  | nil => exact ⟨fun _ => pc, rfl, by simp⟩
  | cons inst code ih =>
    obtain ⟨first, hf, h⟩ := bind_eq_ok.mp h
    obtain ⟨more, hm, h⟩ := bind_eq_ok.mp h
    cases h
    rw [List.append_assoc] at hat
    obtain ⟨place, h0, hplace⟩ := ih hm hat.right
    refine ⟨fun i => i.casesOn pc place, rfl, fun i x hi => ?_⟩
    cases i with
    | zero =>
      cases hi
      exact ⟨first, _, hf, hat, h0⟩
    | succ i =>
      rw [List.getElem?_cons_succ] at hi
      obtain ⟨ls, r, he, ha, hp⟩ := hplace i x hi
      exact ⟨ls, r, by rw [← he]; congr 1; omega, ha, hp⟩

/-! ## Transfers of control -/

section Code

variable {a : RegisterAllocation} {top : Address} {base : Nat} (ha : a.Ok) {s : State}
  (hf : FrameAt top base s) {liveness : Table Int LiveRange} {index : Nat}
  {inst : IRInstruction} {lines : List Line}
  (h : X86Codegen.emitInstruction a liveness index inst = .ok lines)

include hf h

/-- The jump is taken if the operand is zero. -/
theorem emit_jumpIfZero (ho : inst.opcode = .jumpIfZero) :
    ∃ code s', lines = code ++ [.instr (.jz inst.label)] ∧ Runs code s s' ∧
      Touches scratch top (base + a.spillSlotCount) s s' ∧
      s'.zero = decide (content32 a top base s inst.left = 0) := by
  rw [X86Codegen.emitInstruction, ho] at h
  obtain ⟨l, hl, h⟩ := bind_eq_ok.mp h
  cases h
  obtain ⟨-, s₁, hr₁, ht₁, e₁⟩ := loadRead_runs hl hf
  have ht : Touches scratch top (base + a.spillSlotCount) s
      (s₁.cmp (s₁.get32 l.2 &&& s₁.get32 l.2) 0) :=
    (ht₁.mono (by decide)).trans ⟨fun _ _ => rfl, fun _ _ => rfl⟩
  refine ⟨_, _, (List.append_assoc l.1 [_] [_]).symm, hr₁.append (.single rfl), ht, ?_⟩
  rw [← e₁, BitVec.and_self]
  rfl

/-- The jump over the exit is taken if the operand is below the size. -/
theorem emit_boundsCheckI32 (ho : inst.opcode = .boundsCheckI32) :
    ∃ code s', lines = code ++ .instr (.jb (X86Codegen.okLabel index)) ::
        [.instr (.movlImm 60 .rax), .instr (.movlImm 101 .rdi), .instr .syscall,
          .label (X86Codegen.okLabel index)] ∧ Runs code s s' ∧
      Touches scratch top (base + a.spillSlotCount) s s' ∧
      s'.carry = (content32 a top base s inst.left).ult (BitVec.ofInt 32 inst.value) := by
  rw [X86Codegen.emitInstruction, ho] at h
  obtain ⟨l, hl, h⟩ := bind_eq_ok.mp h
  cases h
  obtain ⟨-, s₁, hr₁, ht₁, e₁⟩ := loadRead_runs hl hf
  have ht : Touches scratch top (base + a.spillSlotCount) s
      (s₁.cmp (s₁.get32 l.2) (BitVec.ofInt 32 inst.value)) :=
    (ht₁.mono (by decide)).trans ⟨fun _ _ => rfl, fun _ _ => rfl⟩
  refine ⟨l.1 ++ [.instr (.cmplImm inst.value l.2)], _, (List.append_assoc l.1 [_] _).symm,
    hr₁.append (.single rfl), ht, ?_⟩
  rw [← e₁]
  rfl

/-- A return leaves the frame with the result in `eax`. -/
theorem emit_returnI32 (ho : inst.opcode = .returnI32) (hb : 0 < base) :
    ∃ code s', lines = code ++ [.instr .ret] ∧ Runs code s s' ∧
      (∀ w ≤ base, s'.word top w = s.word top w) ∧
      s'.regs .rsp = wordAt top (base - 1) ∧ s'.regs .rbp = s.word top base ∧
      s'.get32 .rax = content32 a top base s inst.left := by
  rw [X86Codegen.emitInstruction, ho] at h
  obtain ⟨l, hl, h⟩ := bind_eq_ok.mp h
  cases h
  obtain ⟨-, s₁, hr₁, ht₁, e₁⟩ := loadRead_runs hl hf
  have hleave : ∀ {code : List Line} {s₂ : State}, Runs code s₁ s₂ →
      Touches [.rax] top (base + a.spillSlotCount) s₁ s₂ →
      s₂.get32 .rax = s₁.get32 l.2 →
      ∃ lines s', l.1 ++ code ++ [.instr .leave, .instr .ret] = lines ++ [.instr .ret] ∧
        Runs lines s s' ∧ (∀ w ≤ base, s'.word top w = s.word top w) ∧
        s'.regs .rsp = wordAt top (base - 1) ∧ s'.regs .rbp = s.word top base ∧
        s'.get32 .rax = content32 a top base s inst.left := by
    intro code s₂ hr₂ ht₂ e₂
    have hrbp : s₂.regs .rbp = wordAt top base := by
      rw [ht₂.regs _ (by decide), ht₁.regs _ (by decide), hf.rbp]
    have hword : ∀ w ≤ base, s₂.word top w = s.word top w := fun w hw => by
      rw [ht₂.words w (by omega), ht₁.words w (by omega)]
    have hexec : Instr.leave.exec s₂ = some
        ((s₂.set64 .rsp (s₂.regs .rbp + 8)).set64 .rbp (s₂.load64 (s₂.regs .rbp))) := rfl
    refine ⟨l.1 ++ code ++ [.instr .leave], _, by simp, (hr₁.append hr₂).append (.single hexec),
      fun w hw => ?_, ?_, ?_, ?_⟩
    · rw [State.word_set64, State.word_set64, hword w hw]
    · obtain ⟨b, rfl⟩ := Nat.exists_eq_succ_of_ne_zero hb.ne'
      simp only [State.regs_set64, hrbp]
      exact wordAt_pred top b
    · simp only [State.regs_set64, Function.update_self, hrbp]
      exact hword base le_rfl
    · simp only [State.get32_set64]
      exact e₂.trans e₁
  split
  · exact hleave (.single rfl) ((Touches.refl _ _ _ _).set32 (List.mem_singleton_self _) _)
      (State.get32_set32_self _ _ _)
  · rename_i heq
    exact hleave .nil (.refl _ _ _ _) (by rw [not_not.mp heq])

end Code

/-! ## Activations -/

/-- What the machine does for an outcome: it goes to the line `back` with the result in `eax`, the
words up to `n` kept, `rsp` at the last of them and the caller's `rbp`; or it exits. -/
def Ends (img : Image) (F : Nat → Frame) (top : Address) (d back n : Nat) (rbp : BitVec 64)
    (m : Memory) (c : Config) : IROutcome → Prop
  | .trapped => img.Exits c 101
  | .returned b m' => ∃ s', img.Steps c ⟨back, s'⟩ ∧ s'.get32 .rax = b ∧
      s'.regs .rsp = wordAt top n ∧ s'.regs .rbp = rbp ∧ KeptWords F top d n c.state s' ∧
      Holds F top d m' s' ∧ KeptCells F d m m'

/-- The machine state at the label of a function that is called at depth `d`: the return address is
in word `n + 1`, and the arguments are where they belong. -/
structure Called (img : Image) (F : Nat → Frame) (top : Address) (d n back : Nat)
    (args : List Value) (m : Memory) (s : State) : Prop where
  argsBelow : args.length - registerArgs ≤ n
  stacked : Stacked F d (n + 1 - (args.length - registerArgs))
  rsp : s.regs .rsp = wordAt top (n + 1)
  call : ∃ i, img.lines[back]? = some (.instr i)
  back : s.word top (n + 1) = img.address (back + 1)
  slots : Holds F top d m s
  inRegisters : ∀ (i : Nat) (r : Reg) (x : Value), abiArgRegisters[i]? = some r →
    args[i]? = some x → Rep F top d x (s.regs r)
  onStack : ∀ (j : Nat) (b : BitVec 32), args[registerArgs + j]? = some (.int b) →
    (s.word top (n - j)).setWidth 32 = b

/-- With `room` words behind the caller, the machine does what the calls at depth `d` say. -/
def CallsEnd (img : Image) (top : Address) (d room : Nat) (call : Calls) : Prop :=
  ∀ name args m o, call name args m = some o → ∃ e rest, img.At e (.label name :: rest) ∧
    ∀ F n back s, Called img F top d n back args m s → n + room < maxWords →
      Ends img F top d (back + 1) n (s.regs .rbp) m ⟨e, s⟩ o

theorem Ends.of_steps {img : Image} {F : Nat → Frame} {top : Address} {d back n : Nat}
    {rbp : BitVec 64} {m m₁ : Memory} {c c₁ : Config} {o : IROutcome} (hs : img.Steps c c₁)
    (hw : KeptWords F top d n c.state c₁.state) (hm : KeptCells F d m m₁)
    (h : Ends img F top d back n rbp m₁ c₁ o) : Ends img F top d back n rbp m c o := by
  cases o with
  | trapped => exact Image.Exits.of_steps hs h
  | returned b m' =>
    obtain ⟨s', hs', hb, hrsp, hrbp, hw', hslots, hm'⟩ := h
    exact ⟨s', hs.trans hs', hb, hrsp, hrbp, hw.trans hw', hslots, hm.trans hm'⟩

theorem Ends.congr {img : Image} {F G : Nat → Frame} {top : Address} {d back n : Nat}
    {rbp : BitVec 64} {m : Memory} {c : Config} {o : IROutcome}
    (h : Ends img F top d back n rbp m c o) (hFG : ∀ k < d, G k = F k) :
    Ends img G top d back n rbp m c o := by
  cases o with
  | trapped => exact h
  | returned b m' =>
    obtain ⟨s', hs', hb, hrsp, hrbp, hw, hslots, hm⟩ := h
    exact ⟨s', hs', hb, hrsp, hrbp, hw.congr hFG, hslots.congr hFG, hm.congr hFG⟩

/-- An activation at depth `d` that was called in `s₀` with the return address in word `n + 1`. -/
structure Activation (img : Image) (f : IRFunction) (F : Nat → Frame) (top : Address)
    (d n back size room : Nat) (args : List Value) (place : Nat → Nat) (s₀ : State) : Prop where
  placed : Placed img f (F d).allocation place
  compilable : Compilable f (F d).allocation
  stacked : Stacked F (d + 1) ((F d).last + 1)
  base : (F d).base = n + 2
  argsBelow : args.length - registerArgs ≤ n
  below : ∀ k < d, (F k).last + (args.length - registerArgs) ≤ n
  fits : ∀ inst ∈ f.instructions, (F d).allocation.spillSlotCount +
    (F d).allocation.registers.length + inst.args.length + 8 ≤ size
  room : n + size + room < maxWords
  call : ∃ i, img.lines[back]? = some (.instr i)
  back : s₀.word top (n + 1) = img.address (back + 1)
  onStack : ∀ (j : Nat) (b : BitVec 32), args[registerArgs + j]? = some (.int b) →
    (s₀.word top (n - j)).setWidth 32 = b

/-- The machine state of the activation at position `i`. -/
structure Active (f : IRFunction) (F : Nat → Frame) (top : Address) (d : Nat) (s₀ : State) (i : Nat)
    (m : Memory) (s : State) : Prop where
  here : Matches f F top d i m s
  rsp : s.regs .rsp = wordAt top (F d).last
  kept : KeptWords F top d (F d).base s₀ s

theorem Active.advance {f : IRFunction} {F : Nat → Frame} {top : Address} {d i j : Nat}
    {s₀ s s' : State} {m m' : Memory} (h : Active f F top d s₀ i m s)
    (ha : Advances f F top d j m s m' s') : Active f F top d s₀ j m' s' :=
  ⟨ha.here, ha.rsp.trans h.rsp, h.kept.trans ha.words⟩

/-- Control goes from position `i` to `j`. -/
def GoesOn (img : Image) (f : IRFunction) (F : Nat → Frame) (top : Address) (d : Nat)
    (place : Nat → Nat) (i : Nat) (m : Memory) (s : State) (j : Nat) (m' : Memory) : Prop :=
  ∃ s', img.Steps ⟨place i, s⟩ ⟨place j, s'⟩ ∧ Advances f F top d j m s m' s'

namespace Activation

variable {img : Image} {f : IRFunction} {F : Nat → Frame} {top : Address}
  {d n back size room : Nat} {args : List Value} {place : Nat → Nat} {s₀ : State}
  (hA : Activation img f F top d n back size room args place s₀)
  (hu : (labels img.lines).Nodup) {i : Nat} {m : Memory} {s : State}
  (h : Active f F top d s₀ i m s) (hr : f.Reaches i) {inst : IRInstruction}
  (hi : f.instructions[i]? = some inst)

include hA

theorem last_lt (hi : f.instructions[i]? = some inst) :
    (F d).last + (F d).allocation.registers.length + inst.args.length + room + 4 < maxWords := by
  have h₁ := hA.fits inst (List.mem_of_getElem? hi)
  have h₂ := hA.room
  have h₃ := hA.base
  unfold Frame.last
  omega

include h hr hi

/-- An instruction that does not transfer control. -/
theorem straight {call : Calls} {m' : Memory} (hp : inst.Proper) (hplain : inst.opcode ∉ transfers)
    (hstep : inst.step call f d args m = some (.next m')) :
    GoesOn img f F top d place i m s (i + 1) m' := by
  obtain ⟨lines, rest, he, hat, hplace⟩ := hA.placed i inst hi
  obtain ⟨s', hrun, hadv⟩ := h.here.step hA.compilable hA.stacked
    (by have := hA.last_lt hi; omega) h.rsp hr hi hp he hplain hstep
  exact ⟨s', by rw [hplace]; exact hat.runs hrun, hadv⟩

/-- A parameter on the stack. -/
theorem stackParam {call : Calls} {m' : Memory} (hpar : inst = .paramI32 i i)
    (h4 : registerArgs ≤ i) (hstep : inst.step call f d args m = some (.next m')) :
    GoesOn img f F top d place i m s (i + 1) m' := by
  obtain ⟨lines, rest, he, hat, hplace⟩ := hA.placed i inst hi
  have hok := hA.stacked.ok d (Nat.lt_succ_self d)
  have hlt := hA.last_lt hi
  subst hpar
  obtain ⟨k, rfl⟩ := Nat.exists_eq_add_of_le h4
  have h0 : ¬ ((registerArgs + k : Nat) : Int) < 0 := by omega
  have h4 : ¬ ((registerArgs + k : Nat) : Int) < registerArgs := by omega
  simp only [IRInstruction.step, IRInstruction.paramI32, h0, h4, if_false,
    Int.toNat_natCast] at hstep
  obtain ⟨x, hx, hstep⟩ := Option.bind_eq_some_iff.mp hstep
  obtain ⟨b, hb, hstep⟩ := Option.bind_eq_some_iff.mp hstep
  obtain rfl := Value.int?_eq_some.mp hb
  cases hstep
  have hk := (List.getElem?_eq_some_iff.mp hx).1
  have hbelow := hA.argsBelow
  obtain ⟨s', hrun, hw, e⟩ := emit_stackParam hok (by unfold Frame.last at hlt; omega)
    h.here.frame he rfl (k := k) (by simp [IRInstruction.paramI32, registerArgs]) (by rw [hA.base]; omega)
  have hword : s.word top ((F d).base - (k + 2)) = s₀.word top (n - k) := by
    rw [hA.base, show n + 2 - (k + 2) = n - k by omega]
    refine h.kept _ (by rw [hA.base]; omega) fun j hj => .inr ?_
    have := hA.below j hj
    omega
  exact ⟨s', by rw [hplace]; exact hat.runs hrun,
    h.here.write hA.stacked hA.compilable.separated hr hi (if_pos (Int.natCast_nonneg _)) (.after hi (by simp [IRInstruction.paramI32])) hw
    (e.trans (by rw [hword]; exact hA.onStack k b hx))⟩

omit hr in
/-- A label. -/
theorem label (ho : inst.opcode = .label) (hp : inst.Proper) :
    GoesOn img f F top d place i m s (i + 1) m := by
  obtain ⟨lines, rest, he, hat, hplace⟩ := hA.placed i inst hi
  rw [X86Codegen.emitInstruction, ho] at he
  cases he
  refine ⟨s, by rw [hplace]; exact hat.skip (by simp) (by simp) s,
    h.here.move hA.stacked (fun v hv => ?_) (.refl _ _ _ _)⟩
  exact .later hi (hp.writes_ne (by rw [ho]; rfl) v)
    (.after hi (by rw [ho]; decide)) hv

include hu

omit hr in
/-- A jump. -/
theorem jump (ho : inst.opcode = .jump) (hp : inst.Proper) {j : Nat}
    (hj : f.LabelAt inst.label j) : GoesOn img f F top d place i m s j m := by
  obtain ⟨lines, rest, he, hat, -⟩ := hA.placed i inst hi
  obtain ⟨lines', rest', he', hat', -⟩ := hA.placed j _ hj
  rw [X86Codegen.emitInstruction, ho] at he
  rw [X86Codegen.emitInstruction] at he'
  cases he
  cases he'
  refine ⟨s, hat.jmp hu hat' s, h.here.move hA.stacked (fun v hv => ?_) (.refl _ _ _ _)⟩
  exact .later hi (hp.writes_ne (by rw [ho]; rfl) v) (.jump hi (.inl ho) hj) hv

/-- A conditional jump that is taken. -/
theorem jumpIfZero (ho : inst.opcode = .jumpIfZero) (hp : inst.Proper)
    (hb : m.int d inst.left = some 0) {j : Nat} (hj : f.LabelAt inst.label j) :
    GoesOn img f F top d place i m s j m := by
  obtain ⟨lines, rest, he, hat, -⟩ := hA.placed i inst hi
  obtain ⟨lines', rest', he', hat', -⟩ := hA.placed j _ hj
  rw [X86Codegen.emitInstruction] at he'
  cases he'
  obtain ⟨code, s₁, rfl, hrun, ht, hz⟩ := emit_jumpIfZero h.here.frame he ho
  rw [h.here.operand hA.compilable hr hi hp (by rw [IRInstruction.reads, ho]; simp) hb] at hz
  rw [List.append_assoc] at hat
  refine ⟨s₁, (hat.runs hrun).trans (hat.right.jz hu hat' hz),
    h.here.move hA.stacked (fun v hv => ?_) ht⟩
  exact .later hi (hp.writes_ne (by rw [ho]; rfl) v) (.jump hi (.inr ho) hj) hv

omit hu in
/-- A conditional jump that is not taken. -/
theorem jumpIfZero_next (ho : inst.opcode = .jumpIfZero) (hp : inst.Proper) {b : BitVec 32}
    (hb : m.int d inst.left = some b) (h0 : b ≠ 0) :
    GoesOn img f F top d place i m s (i + 1) m := by
  obtain ⟨lines, rest, he, hat, hplace⟩ := hA.placed i inst hi
  obtain ⟨code, s₁, rfl, hrun, ht, hz⟩ := emit_jumpIfZero h.here.frame he ho
  rw [h.here.operand hA.compilable hr hi hp (by rw [IRInstruction.reads, ho]; simp) hb,
    decide_eq_false h0] at hz
  rw [List.append_assoc] at hat
  rw [List.length_append, ← Nat.add_assoc] at hplace
  refine ⟨s₁, by rw [hplace]; exact (hat.runs hrun).trans (hat.right.jz_next hz),
    h.here.move hA.stacked (fun v hv => ?_) ht⟩
  exact .later hi (hp.writes_ne (by rw [ho]; rfl) v)
    (.after hi (by rw [ho]; decide)) hv

/-- A bounds check that passes. -/
theorem boundsCheck (ho : inst.opcode = .boundsCheckI32) (hp : inst.Proper) {b : BitVec 32}
    (hb : m.int d inst.left = some b) (hlt : b.ult (BitVec.ofInt 32 inst.value) = true) :
    GoesOn img f F top d place i m s (i + 1) m := by
  obtain ⟨lines, rest, he, hat, hplace⟩ := hA.placed i inst hi
  obtain ⟨code, s₁, rfl, hrun, ht, hcarry⟩ := emit_boundsCheckI32 h.here.frame he ho
  rw [h.here.operand hA.compilable hr hi hp (by rw [IRInstruction.reads, ho]; simp) hb,
    hlt] at hcarry
  rw [List.append_assoc] at hat
  have hok : img.At (place i + code.length + 4) (.label (X86Codegen.okLabel i) :: rest) :=
    hat.right.right (a := [_, _, _, _])
  rw [List.length_append] at hplace
  refine ⟨s₁, ?_, h.here.move hA.stacked (fun v hv => ?_) ht⟩
  · rw [hplace]
    exact ((hat.runs hrun).trans (hat.right.jb hu hok hcarry)).trans
      (hok.skip (by simp) (by simp) s₁)
  · exact .later hi (hp.writes_ne (by rw [ho]; rfl) v)
      (.after hi (by rw [ho]; decide)) hv

omit hu in
/-- A bounds check that fails. -/
theorem boundsCheck_exits (ho : inst.opcode = .boundsCheckI32) (hp : inst.Proper) {b : BitVec 32}
    (hb : m.int d inst.left = some b) (hlt : b.ult (BitVec.ofInt 32 inst.value) = false) :
    img.Exits ⟨place i, s⟩ 101 := by
  obtain ⟨lines, rest, he, hat, -⟩ := hA.placed i inst hi
  obtain ⟨code, s₁, rfl, hrun, -, hcarry⟩ := emit_boundsCheckI32 h.here.frame he ho
  rw [h.here.operand hA.compilable hr hi hp (by rw [IRInstruction.reads, ho]; simp) hb,
    hlt] at hcarry
  rw [List.append_assoc] at hat
  have hexit : img.At (place i + code.length + 1) ([.instr (.movlImm 60 .rax),
      .instr (.movlImm 101 .rdi)] ++ (.instr .syscall :: .label (X86Codegen.okLabel i) :: rest)) :=
    hat.right.tail
  have hcode : Runs [.instr (.movlImm 60 .rax), .instr (.movlImm 101 .rdi)] s₁
      ((s₁.set32 .rax 60).set32 .rdi 101) := .cons rfl (.single rfl)
  refine .of_steps (((hat.runs hrun).trans (hat.right.jb_next hcarry)).trans (hexit.runs hcode)) ?_
  exact hexit.right.exits (s := (s₁.set32 .rax 60).set32 .rdi 101) (State.get32_set32 _ _ _ _)

omit hu in
/-- A return. -/
theorem returns (ho : inst.opcode = .returnI32) (hp : inst.Proper) {b : BitVec 32}
    (hb : m.int d inst.left = some b) :
    Ends img F top d (back + 1) n (s₀.word top (n + 2)) m ⟨place i, s⟩ (.returned b m) := by
  obtain ⟨lines, rest, he, hat, -⟩ := hA.placed i inst hi
  have hbase := hA.base
  obtain ⟨code, s₁, rfl, hrun, hwords, hrsp, hrbp, hrax⟩ := emit_returnI32 h.here.frame he ho
    (by omega)
  rw [h.here.operand hA.compilable hr hi hp (by rw [IRInstruction.reads, ho]; simp) hb] at hrax
  rw [List.append_assoc] at hat
  have hlow : ∀ k < d, (F k).last ≤ n := fun k hk => by
    have := hA.below k hk
    omega
  have hkept : ∀ w ≤ n + 2, n < w → s.word top w = s₀.word top w := fun w hw hn =>
    h.kept w (by omega) fun k hk => .inr ((hlow k hk).trans_lt hn)
  rw [hbase, show n + 2 - 1 = n + 1 by omega] at hrsp
  have hback : s₁.load64 (s₁.regs .rsp) = img.address (back + 1) := by
    rw [hrsp, ← hA.back, ← hkept (n + 1) (by omega) (by omega)]
    exact hwords (n + 1) (by omega)
  obtain ⟨call, hcall⟩ := hA.call
  refine ⟨_, (hat.runs hrun).trans (hat.right.ret hcall hback), ?_, ?_, ?_, fun w hw _ => ?_,
    fun k hk v x l hx hl => ?_, .refl F d m⟩
  · rw [State.get32_set64]
    exact hrax
  · rw [State.regs_set64, Function.update_self, hrsp, wordAt_pred]
  · rw [State.regs_set64, Function.update_of_ne (by decide), hrbp, hbase,
      hkept (n + 2) le_rfl (by omega)]
  · rw [State.word_set64, hwords w (by omega)]
  · have hle := (hA.stacked.slot_le (by omega) hl).1
    have := hlow k hk
    rw [State.word_set64, hwords _ (by omega)]
    exact h.here.slots k (by omega) v x l hx hl

/-! ### Calls -/

/-- The machine state at the label of a callee, and what is behind the call. -/
theorem called {call : Calls} (ho : inst.opcode = .call) (hp : inst.Proper) {vs : List Value}
    (hvs : inst.args.mapM (m d) = some vs)
    (hcalls : CallsEnd img top (d + 1) room call) {o : IROutcome}
    (hcall : call inst.label vs m = some o) :
    ∃ saved take p rest c, saved = X86Codegen.liveAcross (F d).allocation (analyze f) i
        inst.destination ∧
      X86Codegen.takeEax (F d).allocation inst.destination = .ok take ∧
      img.At (p + 1) (cleanup (inst.args.length - 4) ++
        (take ++ X86Codegen.restore (F d).allocation inst.destination saved) ++ rest) ∧
      place (i + 1) = p + 1 + (cleanup (inst.args.length - 4) ++
        (take ++ X86Codegen.restore (F d).allocation inst.destination saved)).length ∧
      img.Steps ⟨place i, s⟩ c ∧ c.state.regs .rbp = s.regs .rbp ∧
      (∀ w ≤ (F d).last, c.state.word top w = s.word top w) ∧
      (∀ (k : Nat) (e : Int × Reg), saved[k]? = some e →
        c.state.word top ((F d).last + 1 + k) = s.regs e.2) ∧
      Ends img F top (d + 1) (p + 1) ((F d).last + saved.length + (inst.args.length - 4))
        (s.regs .rbp) m c o := by
  obtain ⟨lines, rest, he, hat, hplace⟩ := hA.placed i inst hi
  have hok := hA.stacked.ok d (Nat.lt_succ_self d)
  have hfits := hA.fits inst (List.mem_of_getElem? hi)
  have hbase := hA.base
  have hroom := hA.room
  have hlast : (F d).last = (F d).base + (F d).allocation.spillSlotCount := rfl
  rw [X86Codegen.emitInstruction, ho] at he
  obtain ⟨pushStack, pushRegs, take, hps, hpr, htake, rfl⟩ := emitCall_eq he
  generalize hsaved : X86Codegen.liveAcross (F d).allocation (analyze f) i inst.destination = saved
    at *
  have hlen : saved.length ≤ (F d).allocation.registers.length := by
    rw [← hsaved]
    exact length_liveAcross _ _ _
  have hne : ∀ e ∈ saved, e.2 ≠ .rsp := by
    rw [← hsaved]
    exact fun e he => (pool_spec (hok.pool e (mem_liveAcross.mp he).1)).2.2
  obtain ⟨hlvs, hget⟩ := List.forall₂_iff_get.mp (mapM_eq_some hvs)
  have hvalue : ∀ (j : Nat) (v : Int) (x : Value), inst.args[j]? = some v → vs[j]? = some x →
      Rep F top (d + 1) x (content (F d).allocation top (F d).base s v) := by
    intro j v x hv hx
    obtain ⟨hj, rfl⟩ := List.getElem?_eq_some_iff.mp hv
    obtain ⟨hj', rfl⟩ := List.getElem?_eq_some_iff.mp hx
    have hmem : inst.args[j] ∈ inst.reads := by
      rw [IRInstruction.reads, ho]
      exact List.getElem_mem hj
    exact h.here.content hA.compilable.separated hr (.read hi hmem (hp.reads _ hmem))
      (hget j hj hj')
  obtain ⟨s₁, hrun, hrbp, hrsp, hwords, hold, hin, hon⟩ := beforeCall_runs hok hne hps hpr
    (by omega) h.here.frame h.rsp
  rw [← hlast] at hrsp hwords hold hon
  generalize hn' : (F d).last + saved.length + (inst.args.length - 4) = n' at *
  obtain ⟨e, rest', hate, hends⟩ := hcalls _ _ _ _ hcall
  rw [List.append_assoc] at hat
  generalize hp' : place i + (X86Codegen.save saved ++ pushStack ++ pushRegs ++
    popRegs (min inst.args.length 4)).length = p at *
  have hcallAt := hp' ▸ hat.right
  have hregs : ∀ r, r ≠ .rsp → (s₁.push (img.address (p + 1))).regs r = s₁.regs r := fun r hr => by
    rw [State.regs_push hrsp, Function.update_of_ne hr]
  have hword : ∀ w ≤ n', (s₁.push (img.address (p + 1))).word top w = s₁.word top w :=
    fun w hw => by
      rw [State.word_push hrsp _ (by omega) (by omega), if_neg (by omega)]
  refine ⟨saved, take, p, rest, ⟨e, s₁.push (img.address (p + 1))⟩, rfl, htake, hcallAt.tail, ?_,
    (hp' ▸ hat.runs hrun).trans (hcallAt.call hu hate s₁), ?_, fun w hw => ?_, fun k x hk => ?_, ?_⟩
  · rw [hplace, List.length_append, ← Nat.add_assoc, hp', List.length_cons]
    omega
  · exact (hregs _ (by decide)).trans hrbp
  · exact (hword w (by omega)).trans (hwords w hw)
  · have hlt := (List.getElem?_eq_some_iff.mp hk).1
    exact (hword _ (by omega)).trans (hold k x hk)
  · have hcaller : s.regs .rbp = (s₁.push (img.address (p + 1))).regs .rbp :=
      ((hregs _ (by decide)).trans hrbp).symm
    rw [hcaller, hn']
    refine hends F n' p _ ⟨by rw [← hlvs]; unfold registerArgs; omega, ?_, ?_,
      ⟨_, hcallAt.head⟩, ?_, fun k hk v x l hx hl => ?_, fun j r x hj hx => ?_, fun j b hx => ?_⟩
      (by omega)
    · refine ⟨hA.stacked.ok, hA.stacked.order, fun k hk => (hA.stacked.below k hk).trans_le ?_⟩
      rw [← hlvs]
      unfold registerArgs
      omega
    · rw [State.regs_push hrsp, Function.update_self]
    · rw [State.word_push hrsp _ (by omega) (by omega), if_pos rfl]
    · have hle := (hA.stacked.slot_le hk hl).2
      rw [hword _ (by omega), hwords _ hle]
      exact h.here.slots k hk v x l hx hl
    · have hj4 : r ≠ .rsp := by
        rintro rfl
        exact absurd (List.mem_of_getElem? hj) (by decide)
      have hlt := (List.getElem?_eq_some_iff.mp hx).1
      have hv : inst.args[j]? = some inst.args[j] := List.getElem?_eq_getElem (by omega)
      rw [hregs r hj4, hin j r _ hj hv]
      exact hvalue j _ x hv hx
    · have hlt := (List.getElem?_eq_some_iff.mp hx).1
      have hv : inst.args[registerArgs + j]? = some inst.args[registerArgs + j] :=
        List.getElem?_eq_getElem (by omega)
      rw [hword _ (by omega), hon j _ hv]
      exact hvalue _ _ _ hv hx

/-- A call that returns: the saved registers come back, and the result reaches its location. -/
theorem call_next {call : Calls} (ho : inst.opcode = .call) (hp : inst.Proper) {vs : List Value}
    (hvs : inst.args.mapM (m d) = some vs) (hcalls : CallsEnd img top (d + 1) room call)
    {b : BitVec 32} {m₁ : Memory} (hcall : call inst.label vs m = some (.returned b m₁)) :
    GoesOn img f F top d place i m s (i + 1) (m₁.set d inst.destination (.int b)) := by
  obtain ⟨saved, take, p, rest, c, hsaved, htake, hat, hplace, hsteps, hrbp, hwords, hold,
    s₂, hsteps₂, hrax₂, hrsp₂, hrbp₂, hwords₂, hslots₂, hcells₂⟩ :=
    hA.called hu h hr hi ho hp hvs hcalls hcall
  have hok := hA.stacked.ok d (Nat.lt_succ_self d)
  have hlt := hA.last_lt hi
  have hlast : (F d).last = (F d).base + (F d).allocation.spillSlotCount := rfl
  have hpool : ∀ e ∈ saved, e.2 ∈ RegisterAllocator.pool := by
    rw [hsaved]
    exact fun e he => hok.pool e (mem_liveAcross.mp he).1
  have hlen : saved.length ≤ (F d).allocation.registers.length := by
    rw [hsaved]
    exact length_liveAcross _ _ _
  -- the words behind the frame are no slots
  have hsaved₂ : ∀ (k : Nat) (e : Int × Reg), saved[k]? = some e →
      s₂.word top ((F d).last + 1 + k) = s.regs e.2 := by
    intro k e hk
    have hlt := (List.getElem?_eq_some_iff.mp hk).1
    rw [hwords₂ _ (by omega) fun j hj => .inr ?_]
    · exact hold k e hk
    · have := hA.stacked.below j hj
      omega
  obtain ⟨s', hrun, hrbp', hrsp', hback, hwords', e⟩ := afterCall_runs hok htake hpool (by omega)
    (⟨hrbp₂.trans h.here.frame.rbp⟩ : FrameAt top (F d).base s₂) hrsp₂ hsaved₂
  have hw : inst.writes = some inst.destination := by
    rw [hp.writes, if_pos (by rw [ho]; rfl)]
  have hsucc : f.Succ i (i + 1) := .after hi (by rw [ho]; decide)
  refine ⟨s', ?_, ?_, hrsp'.trans h.rsp.symm, fun w hw hk => ?_, fun k hk v hv => ?_⟩
  · rw [hplace]
    exact (hsteps.trans hsteps₂).trans (hat.runs hrun)
  · refine Matches.result hA.stacked hslots₂ ⟨(hrbp'.trans hrbp₂).trans h.here.frame.rbp⟩ hwords'
      (fun u y r hu hne hy hl => ?_) (x := .int b) (e.trans hrax₂)
    have hlive : f.LiveAt i u := .later hi (by rw [hw]; simpa using hne.symm) hsucc hu
    have hd : (F d).allocation.location inst.destination ≠ some (.inl r) := by
      rw [← hl]
      exact hA.compilable.separated.kept hr hi hw hsucc hu hne.symm
    obtain ⟨q, hq, hstart, -⟩ := hA.compilable.covered i u hr hlive
    obtain ⟨q', hq', -, hstop⟩ := hA.compilable.covered (i + 1) u (hr.tail hsucc) hu
    cases hq.symm.trans hq'
    have hmem : (u, r) ∈ saved := by
      rw [hsaved]
      exact mem_liveAcross.mpr ⟨Table.mem_of_find (RegisterAllocation.location_eq_inl.mp hl), hne,
        q, hq, hstart, by omega⟩
    rw [hback _ hmem hd]
    refine h.here.registers u y r hlive ?_ hl
    rw [← hcells₂ d (Nat.lt_succ_self d) u (by simp [hl])]
    exact hy
  · have hle : w ≤ (F d).last := by omega
    rw [hwords' w hle fun n _ => by omega, hwords₂ w (by omega), hwords w hle]
    intro k hk'
    rcases Nat.lt_succ_iff_lt_or_eq.mp hk' with hkd | rfl
    · exact hk k hkd
    · exact .inl hw
  · rw [Memory.set_apply, if_neg (by omega)]
    exact hcells₂ k (by omega) v hv

omit hi in
/-- The outcome of an activation, from any position behind the register parameters. -/
theorem ends {call : Calls} (hcalls : CallsEnd img top (d + 1) room call) (k : Nat)
    (h4 : min f.paramCount registerArgs ≤ i) {o : IROutcome}
    (hexec : f.exec call d args k i m = some o) :
    Ends img F top d (back + 1) n (s₀.word top (n + 2)) m ⟨place i, s⟩ o := by
  induction k generalizing i m s with
  | zero => cases hexec
  | succ k ih =>
    obtain ⟨k', inst, r, hk, hi, hstep, hcont⟩ := IRFunction.exec_cases hexec
    cases hk
    have hgo : ∀ {j : Nat} {m' : Memory}, GoesOn img f F top d place i m s j m' → f.Succ i j →
        min f.paramCount registerArgs ≤ j → f.exec call d args k j m' = some o →
        Ends img F top d (back + 1) n (s₀.word top (n + 2)) m ⟨place i, s⟩ o := by
      rintro j m' ⟨s', hsteps, hadv⟩ hs hj hx
      exact .of_steps hsteps (fun w hw hk => hadv.words w (by rw [hA.base]; omega) hk) hadv.cells
        (ih (h.advance hadv) (hr.tail hs) hj hx)
    have hnext : inst.opcode ∉ [OpCode.jump, .returnI32] → f.Succ i (i + 1) := .after hi
    rcases hA.compilable.wellFormed.cases hi with ⟨hlt, hpar⟩ | ⟨hge, hp⟩
    · have hnot : inst.opcode ∉ transfers := by
        subst hpar
        exact (by decide : OpCode.paramI32 ∉ transfers)
      obtain ⟨m', rfl⟩ := IRInstruction.step_next hnot hstep
      exact hgo (hA.stackParam h hr hi hpar (by omega) hstep)
        (hnext (by simp [hpar, IRInstruction.paramI32])) (by omega) hcont
    have hj : ∀ {l : String} {j : Nat}, f.LabelAt l j → min f.paramCount registerArgs ≤ j := by
      intro l j hj
      rcases hA.compilable.wellFormed.cases hj with ⟨-, e⟩ | ⟨hge, -⟩
      · cases e
      · omega
    by_cases hplain : inst.opcode ∉ transfers
    · obtain ⟨m', rfl⟩ := IRInstruction.step_next hplain hstep
      exact hgo (hA.straight h hr hi hp hplain hstep)
        (hnext fun e => hplain (by rcases List.mem_pair.mp e with e | e <;> rw [e] <;> decide))
        (by omega) hcont
    simp only [transfers, List.mem_cons, List.not_mem_nil, or_false, not_not] at hplain
    rcases hplain with ho | ho | ho | ho | ho | ho
    · obtain ⟨vs, hvs, ⟨hcall, rfl⟩ | ⟨b, m', hcall, rfl⟩⟩ := IRInstruction.step_call hstep ho
      · obtain rfl := hcont
        obtain ⟨_, _, _, _, c, -, -, -, -, hsteps, -, -, -, hexits⟩ :=
          hA.called hu h hr hi ho hp hvs hcalls hcall
        exact Image.Exits.of_steps hsteps hexits
      · exact hgo (hA.call_next hu h hr hi ho hp hvs hcalls hcall)
          (hnext (by rw [ho]; decide)) (by omega) hcont
    · obtain ⟨b, hb, rfl⟩ := IRInstruction.step_boundsCheckI32 hstep ho
      split at hcont
      · rename_i hlt
        exact hgo (hA.boundsCheck hu h hr hi ho hp hb hlt)
          (hnext (by rw [ho]; decide)) (by omega) hcont
      · rename_i hlt
        obtain rfl := hcont
        exact hA.boundsCheck_exits h hr hi ho hp hb (Bool.eq_false_iff.mpr hlt)
    · obtain rfl := IRInstruction.step_label hstep ho
      exact hgo (hA.label h hi ho hp) (hnext (by rw [ho]; decide)) (by omega)
        hcont
    · obtain rfl := IRInstruction.step_jump hstep ho
      obtain ⟨j, hl, hx⟩ := hcont
      exact hgo (hA.jump hu h hi ho hp hl) (.jump hi (.inl ho) hl) (hj hl) hx
    · obtain ⟨b, hb, rfl⟩ := IRInstruction.step_jumpIfZero hstep ho
      split at hcont
      · rename_i h0
        obtain ⟨j, hl, hx⟩ := hcont
        exact hgo (hA.jumpIfZero hu h hr hi ho hp (by rw [hb, h0]) hl) (.jump hi (.inr ho) hl)
          (hj hl) hx
      · rename_i h0
        exact hgo (hA.jumpIfZero_next h hr hi ho hp hb h0)
          (hnext (by rw [ho]; decide)) (by omega) hcont
    · obtain ⟨b, hb, rfl⟩ := IRInstruction.step_returnI32 hstep ho
      obtain rfl := hcont
      exact hA.returns h hr hi ho hp hb

end Activation

end Oglang
end Techuila
