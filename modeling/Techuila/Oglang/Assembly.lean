import Techuila.Oglang.BackEnd
import Techuila.Oglang.Driver

/-!
# Programs on the machine

* `frame_runs`: the prologue up to the frame, with the register parameters on the stack.
* `params_run`: the pops of the prologue are the first instructions of the intermediate code.
* `run_callsEnd`: every call of a program is a run of the machine.
-/

namespace Techuila
namespace Oglang

open X86
open X86Codegen (popParam)
open LivenessAnalyzer (analyze)

/-! ## The prologue -/

section Prologue

variable {a : RegisterAllocation} {top : Address}

/-- The pushes of the first `k` argument registers. -/
def pushParams (k : Nat) : List Line :=
  ((abiArgRegisters.take k).reverse.map Operand.reg).map fun o => .instr (.pushq o)

/-- The instructions that set up a frame and push the first `k` parameters. -/
def frameCode (a : RegisterAllocation) (k : Nat) : List Line :=
  [.instr (.pushq (.reg .rbp)), .instr (.movq (.reg .rsp) (.reg .rbp))] ++
    ((if a.spillSlotCount * 8 > 0 then [.instr (.subqImm (a.spillSlotCount * 8) .rsp)] else []) ++
      pushParams k)

theorem prologue_eq {f : IRFunction} {lines : List Line}
    (h : X86Codegen.prologue a f = .ok lines) :
    ∃ pops, ((f.instructions.take (min f.paramCount registerArgs)).map
        IRInstruction.destination).mapM (popParam a) = .ok pops ∧
      lines = .global f.name :: .label f.name ::
        (frameCode a (min f.paramCount registerArgs) ++ pops) := by
  obtain ⟨pops, hp, h⟩ := bind_eq_ok.mp h
  cases h
  refine ⟨pops, hp, ?_⟩
  simp [frameCode, pushParams, registerArgs, abiArgRegisters]

/-- The frame is set up, and the parameters are on the stack behind it, the first one last. -/
theorem frame_runs {n k : Nat} (hk : k ≤ registerArgs)
    (hroom : n + a.spillSlotCount + registerArgs + 2 < maxWords) {s : State}
    (hs : s.regs .rsp = wordAt top (n + 1)) :
    ∃ s', Runs (frameCode a k) s s' ∧ FrameAt top (n + 2) s' ∧
      s'.regs .rsp = wordAt top (n + 2 + a.spillSlotCount + k) ∧
      s'.word top (n + 2) = s.regs .rbp ∧ (∀ w ≤ n + 1, s'.word top w = s.word top w) ∧
      ∀ (j : Nat) (r : Reg), j < k → abiArgRegisters[j]? = some r →
        s'.word top (n + 2 + a.spillSlotCount + (k - j)) = s.regs r := by
  have hregs₁ := State.regs_push hs (s.regs .rbp)
  have hword₁ := fun {w : Nat} => State.word_push hs (s.regs .rbp) (by omega) (w := w)
  obtain ⟨s₂, hr₂, hrbp₂, hrsp₂, hkeep₂, hmem₂⟩ : ∃ s₂, Runs [.instr (.pushq (.reg .rbp)),
      .instr (.movq (.reg .rsp) (.reg .rbp))] s s₂ ∧ s₂.regs .rbp = wordAt top (n + 2) ∧
      s₂.regs .rsp = wordAt top (n + 2) ∧ (∀ r, r ≠ .rsp → r ≠ .rbp → s₂.regs r = s.regs r) ∧
      s₂.mem = (s.push (s.regs .rbp)).mem := by
    refine ⟨_, .cons rfl (.single rfl), ?_, ?_, fun r hr hr' => ?_, rfl⟩ <;>
      simp [*]
  obtain ⟨s₃, hr₃, hrsp₃, hkeep₃, hmem₃⟩ : ∃ s₃, Runs (if a.spillSlotCount * 8 > 0 then
      [.instr (.subqImm (a.spillSlotCount * 8) .rsp)] else []) s₂ s₃ ∧
      s₃.regs .rsp = wordAt top (n + 2 + a.spillSlotCount) ∧
      (∀ r, r ≠ .rsp → s₃.regs r = s₂.regs r) ∧ s₃.mem = s₂.mem := by
    split
    · refine ⟨_, .single rfl, ?_, fun r hr => ?_, rfl⟩
      · rw [State.regs_set64, Function.update_self, State.get64, hrsp₂, BitVec.sub_eq_add_neg,
          ← BitVec.ofInt_neg]
        exact wordAt_add_ofInt top (by push_cast; ring)
      · rw [State.regs_set64, Function.update_of_ne hr]
    · have h0 : a.spillSlotCount = 0 := by omega
      exact ⟨s₂, .nil, by rw [hrsp₂, h0, Nat.add_zero], fun _ _ => rfl, rfl⟩
  have hlen : ((abiArgRegisters.take k).reverse.map Operand.reg).length = k := by
    simp only [List.length_map, List.length_reverse, List.length_take]
    exact min_eq_left hk
  have hne : ∀ r ∈ abiArgRegisters, r ≠ .rsp ∧ r ≠ .rbp := by decide
  obtain ⟨s', hr', hrsp', hkeep', hwords', hpushed⟩ := pushes_runs
    ((abiArgRegisters.take k).reverse.map Operand.reg) hrsp₃ (by omega) fun o ho s' hregs _ => by
      obtain ⟨r, hr, rfl⟩ := List.mem_map.mp ho
      exact hregs r (hne r (List.mem_of_mem_take (List.mem_reverse.mp hr))).1
  have hword₃ : ∀ w, s₃.word top w = (s.push (s.regs .rbp)).word top w := fun w =>
    State.word_of_mem (hmem₃.trans hmem₂) top w
  refine ⟨s', hr₂.append (hr₃.append hr'), ⟨?_⟩, by rw [hrsp', hlen], ?_, fun w hw => ?_,
    fun j r hj hr => ?_⟩
  · rw [hkeep' _ (by decide), hkeep₃ _ (by decide), hrbp₂]
  · rw [hwords' _ (by omega), hword₃, hword₁ (by omega), if_pos rfl]
  · rw [hwords' w (by omega), hword₃, hword₁ (by omega), if_neg (by omega)]
  · have hlt := (List.getElem?_eq_some_iff.mp hr).1
    have h4 : abiArgRegisters.length = 4 := rfl
    have hmem := hne r (List.mem_of_getElem? hr)
    have hget : ((abiArgRegisters.take k).reverse.map Operand.reg)[k - 1 - j]? = some (.reg r) := by
      unfold registerArgs at hk
      rw [List.getElem?_map, List.getElem?_reverse (by rw [List.length_take]; omega),
        List.length_take, List.getElem?_take_of_lt (by omega),
        show min k abiArgRegisters.length - 1 - (k - 1 - j) = j by omega, hr, Option.map_some]
    rw [show n + 2 + a.spillSlotCount + (k - j) = n + 2 + a.spillSlotCount + 1 + (k - 1 - j) by
      omega, hpushed _ _ hget, State.read64_reg, hkeep₃ r hmem.1, hkeep₂ r hmem.1 hmem.2]

/-- A parameter is popped into its location. -/
theorem popParam_eq {v : Int} {line : Line} (h : popParam a v = .ok line) :
    ∃ o, ArgOperand a v o ∧ line = .instr (.popq o) := by
  unfold popParam at h
  split at h
  · rename_i r hr
    cases h
    exact ⟨_, .inl ⟨r, hr, rfl⟩, rfl⟩
  · rename_i hr
    obtain ⟨o, ho, e⟩ := bind_eq_ok.mp h
    cases e
    obtain ⟨n, hn, rfl⟩ := spillAddress_eq ho
    exact ⟨_, .inr ⟨hr, n, hn, rfl⟩, rfl⟩

theorem pop_exec {base : Nat} (ha : a.Ok) {v : Int} {o : Operand} (ho : ArgOperand a v o)
    {s : State} (hf : FrameAt top base s) {w : Nat} (hs : s.regs .rsp = wordAt top (w + 1))
    (hroom : base + a.spillSlotCount < maxWords) :
    ∃ s', (Instr.popq o).exec s = some s' ∧ FrameAt top base s' ∧ s'.regs .rsp = wordAt top w ∧
      content a top base s' v = s.word top (w + 1) ∧
      (∀ r, r ≠ .rsp → a.location v ≠ some (.inl r) → s'.regs r = s.regs r) ∧
      ∀ u < maxWords, (∀ n, a.location v = some (.inr n) → u ≠ base + n + 1) →
        s'.word top u = s.word top u := by
  have hload : s.load64 (s.regs .rsp) = s.word top (w + 1) := by rw [hs, State.word]
  have hrsp : s.regs .rsp + 8 = wordAt top w := by rw [hs, wordAt_pred]
  have hf' : FrameAt top base (s.set64 .rsp (s.regs .rsp + 8)) := ⟨hf.rbp⟩
  rcases ho with ⟨r, hr, rfl⟩ | ⟨hr, n, hn, rfl⟩
  · have hl := RegisterAllocation.location_eq_inl.mpr hr
    obtain ⟨-, hbp, hsp⟩ := pool_spec (ha.register hr).1
    refine ⟨_, rfl, ⟨?_⟩, ?_, ?_, fun q hq hne => ?_, fun _ _ _ => rfl⟩
    · simpa [Function.update_of_ne hbp.symm] using hf.rbp
    · simpa [Function.update_of_ne hsp.symm, State.get64] using hrsp
    · rw [content_register hr]
      simpa [State.get64] using hload
    · have hqr : q ≠ r := fun e => hne (e ▸ hl)
      simp [hqr, hq]
  · have hl := RegisterAllocation.location_eq_inr.mpr ⟨hr, hn⟩
    have hlt := ha.slots.lt hn
    have hexec : (Instr.popq (X86Codegen.slotOperand n)).exec s = some
        ((s.set64 .rsp (s.regs .rsp + 8)).store64 (wordAt top (base + n + 1))
          (s.load64 (s.regs .rsp))) := congrArg some (hf'.write64 n _)
    refine ⟨_, hexec, ⟨?_⟩, ?_, ?_, fun q hq _ => ?_, fun u hu hne => ?_⟩
    · simpa using hf.rbp
    · simpa using hrsp
    · rw [content_slot hr hn, State.word_store64 _ _ _ (by omega) (by omega), if_pos rfl, hload]
    · simp [hq]
    · rw [State.word_store64 _ _ _ (by omega) hu, if_neg (hne n hl), State.word_set64]

end Prologue

/-! ## Parameters -/

section Parameters

variable {img : Image} {f : IRFunction} {F : Nat → Frame} {top : Address} {d : Nat}
  {call : Calls} {args : List Value}

/-- The first instructions of a function are its parameters. -/
theorem param_step (hwf : f.WellFormed) {j steps : Nat} (hj : j < min f.paramCount registerArgs)
    {m : Memory} {o : IROutcome} (h : f.exec call d args steps j m = some o) :
    ∃ steps' x, f.instructions[j]? = some (.paramI32 j j) ∧ args[j]? = some x ∧
      f.exec call d args steps' (j + 1) (m.set d j x) = some o := by
  obtain ⟨k, inst, r, rfl, hi, hstep, hcont⟩ := IRFunction.exec_cases h
  rcases hwf.cases hi with ⟨-, rfl⟩ | ⟨hge, -⟩
  · have h0 : ¬ (j : Int) < 0 := by omega
    have h4 : (j : Int) < registerArgs := by omega
    simp only [IRInstruction.step, IRInstruction.paramI32, h0, h4, if_false, if_true,
      Int.toNat_natCast] at hstep
    obtain ⟨x, hx, hstep⟩ := Option.bind_eq_some_iff.mp hstep
    cases hstep
    exact ⟨k, x, hi, hx, hcont⟩
  · omega

/-- The pops from the `j`-th one on. -/
theorem params_run (hc : Compilable f (F d).allocation)
    (hst : Stacked F (d + 1) ((F d).last + 1)) (hroom : (F d).last + registerArgs < maxWords)
    {pops rest : List Line} {k : Nat} (hk : k = min f.paramCount registerArgs)
    (hpops : ∀ j < k, ∃ o, pops[j]? = some (.instr (.popq o)) ∧
      ArgOperand (F d).allocation j o) {pc : Nat} (hat : img.At pc (pops ++ rest)) (n : Nat)
    {j : Nat} (hn : j + n = k) {steps : Nat} {m : Memory} {s : State} {o : IROutcome}
    (hexec : f.exec call d args steps j m = some o) (h : Matches f F top d j m s)
    (hr : f.Reaches j) (hrsp : s.regs .rsp = wordAt top ((F d).last + n))
    (hargs : ∀ (i : Nat) (x : Value), i < n → args[k - 1 - i]? = some x →
      Rep F top (d + 1) x (s.word top ((F d).last + 1 + i))) :
    ∃ steps' m' s', img.Steps ⟨pc + j, s⟩ ⟨pc + k, s'⟩ ∧
      f.exec call d args steps' k m' = some o ∧ Matches f F top d k m' s' ∧ f.Reaches k ∧
      s'.regs .rsp = wordAt top (F d).last ∧ KeptWords F top d (F d).base s s' ∧
      KeptCells F d m m' := by
  induction n generalizing j steps m s with
  | zero =>
    obtain rfl : j = k := hn
    exact ⟨steps, m, s, .refl, hexec, h, hr, hrsp, .refl _ _ _ _ _, .refl _ _ _⟩
  | succ n ih =>
    have hok := hst.ok d (Nat.lt_succ_self d)
    obtain ⟨steps', x, hi, hx, hexec'⟩ := param_step hc.wellFormed (by omega) hexec
    obtain ⟨op, hline, hop⟩ := hpops j (by omega)
    obtain ⟨s₁, hs₁, hf₁, hrsp₁, hcontent, hregs, hwords⟩ :=
      pop_exec hok hop h.frame (w := (F d).last + n) hrsp (by unfold Frame.last at hroom; omega)
    have hlast : (F d).last = (F d).base + (F d).allocation.spillSlotCount := rfl
    have hw : (IRInstruction.paramI32 (j : Int) j).writes = some (j : Int) :=
      if_pos (Int.natCast_nonneg j)
    have hsucc : f.Succ j (j + 1) := .after hi (by simp [IRInstruction.paramI32])
    have hslot : ∀ l, (F d).allocation.location j = some (.inr l) →
        (F d).base + l + 1 ≤ (F d).last := fun l hl => (hst.slot_le (Nat.lt_succ_self d) hl).1
    have hx' : Rep F top (d + 1) x (content (F d).allocation top (F d).base s₁ j) := by
      rw [hcontent, show (F d).last + n + 1 = (F d).last + 1 + n by omega]
      exact hargs n x (Nat.lt_succ_self n) (by rw [← hx]; congr 1; omega)
    have here : Matches f F top d (j + 1) (m.set d j x) s₁ := by
      refine Matches.result hst h.slots hf₁ (fun w hw hne => hwords w (by omega) hne)
        (fun u y r hu hne hy hl => ?_) hx'
      rw [hregs r (pool_spec (hok.register (RegisterAllocation.location_eq_inl.mp hl)).1).2.2]
      · exact h.registers u y r (.later hi (by rw [hw]; simpa using hne.symm) hsucc hu) hy hl
      · rw [← hl]
        exact hc.separated.kept hr hi hw hsucc hu hne.symm
    obtain ⟨steps₂, m', s', hsteps, hx₂, h', hr', hrsp', hkept, hcells⟩ := ih (by omega) hexec' here
      (hr.tail hsucc) hrsp₁ fun i y hi hy => by
        rw [hwords _ (by omega) fun l hl => by have := hslot l hl; omega]
        exact hargs i y (by omega) hy
    have hlen := (List.getElem?_eq_some_iff.mp hline).1
    have hpc : img.At (pc + j) ([.instr (.popq op)] ++ (pops.drop (j + 1) ++ rest)) := by
      rw [← List.take_append_drop j pops, List.append_assoc, List.drop_eq_getElem_cons hlen,
        (List.getElem?_eq_some_iff.mp hline).2] at hat
      have := hat.right
      rwa [List.length_take, min_eq_left hlen.le] at this
    refine ⟨steps₂, m', s', (hpc.runs (.single hs₁)).trans hsteps, hx₂, h', hr', hrsp', ?_, ?_⟩
    · refine .trans (fun w hw _ => hwords w (by omega) fun l hl => by omega) hkept
    · refine .trans (fun i hi v _ => ?_) hcells
      rw [Memory.set_apply, if_neg (by omega)]

end Parameters

/-! ## Programs -/

/-- The code of a function does what the function says, in frames of at most `size` words. -/
structure Sound (f : IRFunction) (a : RegisterAllocation) (size : Nat) : Prop
    extends Compilable f a where
  fits : ∀ inst ∈ f.instructions,
    a.spillSlotCount + a.registers.length + inst.args.length + 8 ≤ size

/-- The text has the code of every function of the program. -/
structure Assembled (img : Image) (P : IRProgram) (size : Nat) : Prop where
  labels : (labels img.lines).Nodup
  placed : ∀ name f, P name = some f → f.name = name ∧ ∃ a pc lines rest, Sound f a size ∧
    X86Codegen.generate a f (analyze f) = .ok lines ∧ img.At pc (lines ++ rest)

/-- The register parameters have no code in the body. -/
theorem Placed.params {img : Image} {f : IRFunction} {a : RegisterAllocation} {place : Nat → Nat}
    (h : Placed img f a place) (hwf : f.WellFormed) {j : Nat}
    (hj : j ≤ min f.paramCount registerArgs) : place j = place 0 := by
  induction j with
  | zero => rfl
  | succ j ih =>
    have h0 : ¬ (j : Int) < 0 := by omega
    have h4 : (j : Int) < abiArgRegisters.length := by
      have : abiArgRegisters.length = 4 := rfl
      unfold registerArgs at hj
      omega
    obtain ⟨lines, rest, he, -, hplace⟩ := h j _ (hwf.param (by omega))
    simp only [X86Codegen.emitInstruction, IRInstruction.paramI32, h0, h4, if_false, if_true] at he
    cases he
    rw [hplace, ih (by omega)]
    rfl

/-- A call of a function, from behind its label. -/
theorem called_ends {img : Image} (hu : (labels img.lines).Nodup) {f : IRFunction}
    {a : RegisterAllocation} {size room : Nat} (hc : Sound f a size)
    {k : Nat} (hk : min f.paramCount registerArgs = k) {os : List Operand}
    (hos : ((f.instructions.take k).map IRInstruction.destination).Forall₂ (ArgOperand a) os)
    {body rest : List Line} (hbody : X86Codegen.emitFrom a (analyze f) 0 f.instructions = .ok body)
    {pc : Nat} (hat : img.At pc
      (frameCode a k ++ (os.map (fun o => Line.instr (.popq o)) ++ (body ++ rest))))
    {F : Nat → Frame} {top : Address} {d n back : Nat} {args : List Value} {m : Memory} {s : State}
    (hcalled : Called img F top d n back args m s) (hroom : n + size + room < maxWords)
    {call : Calls} (hcalls : CallsEnd img top (d + 1) room call) {steps : Nat} {o : IROutcome}
    (hexec : f.exec call d args steps 0 (m.enter d) = some o) :
    Ends img F top d (back + 1) n (s.regs .rbp) m ⟨pc, s⟩ o := by
  have h4 : registerArgs = 4 := rfl
  have hk4 : k ≤ registerArgs := by omega
  have hsize : a.spillSlotCount + a.registers.length + 8 ≤ size := by
    obtain ⟨_, inst, _, -, hi, -, -⟩ := IRFunction.exec_cases hexec
    have := hc.fits inst (List.mem_of_getElem? hi)
    omega
  generalize hG : Function.update F d ⟨a, n + 2⟩ = G
  have hGd : G d = ⟨a, n + 2⟩ := by rw [← hG, Function.update_self]
  have hGk : ∀ j < d, G j = F j := fun j hj => by rw [← hG, Function.update_of_ne (by omega)]
  have hlast : (G d).last = n + 2 + a.spillSlotCount := by rw [hGd]; rfl
  have hbelow : ∀ j < d, (F j).last + (args.length - registerArgs) ≤ n := fun j hj => by
    have := hcalled.stacked.below j hj
    have := hcalled.argsBelow
    omega
  have hst : Stacked G (d + 1) ((G d).last + 1) := by
    refine ⟨fun j hj => ?_, fun i j hij hj => ?_, fun j hj => ?_⟩ <;>
      rcases Nat.lt_succ_iff_lt_or_eq.mp hj with hj | rfl
    · rw [hGk j hj]
      exact hcalled.stacked.ok j hj
    · rw [hGd]
      exact hc.allocated.toOk
    · rw [hGk j hj, hGk i (by omega)]
      exact hcalled.stacked.order i j hij hj
    · rw [hGd, hGk i hij]
      have := hbelow i hij
      show (F i).last < n + 2
      omega
    · rw [hGk j hj, hlast]
      have := hbelow j hj
      omega
    · omega
  obtain ⟨s₁, hr₁, hf₁, hrsp₁, hrbp₁, hwords₁, hpushed₁⟩ := frame_runs (a := a) hk4 (by omega)
    hcalled.rsp
  have here : Matches f G top d 0 (m.enter d) s₁ := by
    refine ⟨by rw [hGd]; exact hf₁, fun j hj v x l hx hl => ?_, fun v x r _ hx => ?_⟩
    · rcases Nat.lt_succ_iff_lt_or_eq.mp hj with hj | rfl
      · rw [Memory.enter_of_ne (by omega)] at hx
        rw [hGk j hj] at hl ⊢
        have hle := (hst.slot_le (k := j) (by omega) (by rwa [hGk j hj])).1
        have := hbelow j hj
        rw [hGk j hj] at hle
        rw [hwords₁ _ (by omega)]
        exact (hcalled.slots j hj v x l hx hl).congr fun i hi => hGk i (by omega)
      · rw [Memory.enter_self] at hx
        cases hx
    · rw [Memory.enter_self] at hx
      cases hx
  have hpops : ∀ j < k, ∃ o, (os.map fun o => Line.instr (.popq o))[j]? = some (.instr (.popq o)) ∧
      ArgOperand (G d).allocation j o := by
    intro j hj
    obtain ⟨hlen, hget⟩ := List.forall₂_iff_get.mp hos
    have hparam := hc.wellFormed.param (i := j) (by omega)
    have hlt := (List.getElem?_eq_some_iff.mp hparam).1
    have hj' : j < ((f.instructions.take k).map IRInstruction.destination).length := by
      rw [List.length_map, List.length_take]
      omega
    have hdest : ((f.instructions.take k).map IRInstruction.destination)[j] = (j : Int) := by
      rw [List.getElem_map, List.getElem_take, (List.getElem?_eq_some_iff.mp hparam).2]
      rfl
    refine ⟨os[j], by rw [List.getElem?_map, List.getElem?_eq_getElem (by omega)]; rfl, ?_⟩
    have := hget j hj' (by omega)
    rw [List.get_eq_getElem, hdest] at this
    rw [hGd]
    exact this
  have hroom₁ : (G d).last + registerArgs < maxWords := by
    unfold registerArgs
    omega
  obtain ⟨steps', m₂, s₂, hsteps₂, hexec₂, here₂, hreach₂, hrsp₂, hwords₂, hcells₂⟩ :=
    params_run (F := G) (by rw [hGd]; exact hc.toCompilable) hst hroom₁ hk.symm hpops hat.right k
      (Nat.zero_add k)
      hexec here .refl (by rw [hrsp₁, hlast]) fun i x hi hx => by
        obtain ⟨r, hr⟩ : ∃ r, abiArgRegisters[k - 1 - i]? = some r := by
          have h4 : abiArgRegisters.length = 4 := rfl
          unfold registerArgs at hk4
          exact ⟨_, List.getElem?_eq_getElem (by omega)⟩
        rw [hlast, show n + 2 + a.spillSlotCount + 1 + i =
          n + 2 + a.spillSlotCount + (k - (k - 1 - i)) by omega, hpushed₁ _ r (by omega) hr]
        exact ((hcalled.inRegisters _ r x hr hx).congr hGk).mono (Nat.le_succ d)
  obtain ⟨place, h0, hplace⟩ := emitFrom_places f.instructions hbody hat.right.right
  have hplaced : Placed img f a place := by
    intro i inst hi
    obtain ⟨lines, rest, he, hat, hp⟩ := hplace i inst hi
    exact ⟨lines, rest, by rwa [Nat.zero_add] at he, hat, hp⟩
  have hlen : (os.map fun o => Line.instr (.popq o)).length = k := by
    have := hc.wellFormed.paramCount_le
    rw [List.length_map, ← hos.length_eq, List.length_map, List.length_take]
    omega
  have hA : Activation img f G top d n back size room args place s₁ := by
    refine ⟨by rw [hGd]; exact hplaced, by rw [hGd]; exact hc.toCompilable, hst, by rw [hGd],
      hcalled.argsBelow, fun j hj => by rw [hGk j hj]; exact hbelow j hj, by rw [hGd]; exact hc.fits,
      hroom, hcalled.call, ?_,
      fun j b hb => ?_⟩
    · rw [hwords₁ _ le_rfl, hcalled.back]
    · rw [hwords₁ _ (by omega)]
      exact hcalled.onStack j b hb
  have hends := hA.ends hu (i := k) ⟨here₂, hrsp₂, hwords₂⟩ hreach₂ hcalls steps' (by omega) hexec₂
  rw [hplaced.params hc.wellFormed (by omega), h0, hlen, hrbp₁] at hends
  refine (Ends.of_steps ((hat.runs hr₁).trans hsteps₂) (fun w hw hk => ?_) ?_ hends).congr
    fun j hj => (hGk j hj).symm
  · rw [hwords₂ w (by rw [hGd]; show w ≤ n + 2; omega) hk, hwords₁ w (by omega)]
  · refine .trans (fun j hj v _ => ?_) hcells₂
    rw [Memory.enter_of_ne (by omega)]

/-- Every call of a program is a run of the machine. -/
theorem run_callsEnd {img : Image} {P : IRProgram} {size : Nat} (h : Assembled img P size)
    (top : Address) (steps n : Nat) : ∀ d, CallsEnd img top d (n * size) (P.run steps n d) := by
  induction n with
  | zero => exact fun d name args m o hrun => by cases hrun
  | succ n ih =>
    intro d name args m o hrun
    rw [IRProgram.run] at hrun
    split at hrun
    · cases hrun
    rename_i f hf
    split at hrun
    swap
    · cases hrun
    obtain ⟨hname, a, pc, lines, rest, hc, hgen, hat⟩ := h.placed name f hf
    obtain ⟨start, hstart, hgen⟩ := bind_eq_ok.mp hgen
    obtain ⟨body, hbody, hgen⟩ := bind_eq_ok.mp hgen
    cases hgen
    obtain ⟨pops, hpops, rfl⟩ := prologue_eq hstart
    obtain ⟨os, hos, rfl⟩ := operands_eq popParam_eq hpops
    simp only [List.cons_append, List.append_assoc] at hat
    refine ⟨pc + 1, _, by rw [← hname]; exact hat.tail, fun F w back s hcalled hroom => ?_⟩
    rw [Nat.succ_mul, Nat.add_comm _ size, ← Nat.add_assoc] at hroom
    exact .of_steps (hat.tail.skip (by simp) (by simp) s) (.refl _ _ _ _ _) (.refl _ _ _)
      (called_ends h.labels hc rfl hos hbody hat.tail.tail hcalled hroom (ih (d + 1)) hrun)

/-- The exit status of a program. -/
def IROutcome.status : IROutcome → BitVec 32
  | .returned b _ => b
  | .trapped => 101

/-- From the entry point, the machine exits with the result of the entry function. -/
theorem entry_exits {img : Image} {P : IRProgram} {size : Nat} (h : Assembled img P size)
    {entry : String} {rest : List Line}
    (hat : img.At 0 (X86Codegen.generateEntryPoint entry ++ rest)) {steps n : Nat} {m : Memory}
    {o : IROutcome} (hrun : P.run steps n 0 entry [] m = some o) (hroom : n * size < maxWords)
    (s : State) : img.Exits ⟨0, s⟩ o.status := by
  have hskip : img.Steps ⟨0, s⟩ ⟨3, s⟩ :=
    ((hat.skip (by simp) (by simp) s).trans (hat.tail.skip (by simp) (by simp) s)).trans
      (hat.tail.tail.skip (by simp) (by simp) s)
  have hcall := hat.tail.tail.tail
  have htop : s.regs .rsp = wordAt (s.regs .rsp) 0 := (BitVec.sub_zero _).symm
  obtain ⟨e, rest', hate, hends⟩ := run_callsEnd h (s.regs .rsp) steps n 0 _ _ _ _ hrun
  have hpush := State.regs_push htop (img.address (3 + 1))
  have hends := hends (fun _ => ⟨{}, 0⟩) 0 3 (s.push (img.address (3 + 1)))
    { argsBelow := Nat.zero_le _
      stacked := ⟨nofun, nofun, nofun⟩
      rsp := by rw [hpush, Function.update_self]
      call := ⟨_, hcall.head⟩
      back := by rw [State.word_push htop _ (by decide) (by decide), if_pos rfl]
      slots := nofun
      inRegisters := fun _ _ _ _ hx => by simp at hx
      onStack := fun _ _ hx => by simp at hx } (by omega)
  refine .of_steps (hskip.trans (hcall.call h.labels hate s)) ?_
  cases o with
  | trapped => exact hends
  | returned b m' =>
    obtain ⟨s', hsteps, hb, -⟩ := hends
    have hexit : img.At 4 ([.instr (.movl (.reg .rax) (.reg .rdi)), .instr (.movlImm 60 .rax)] ++
        ([.instr .syscall, .blank] ++ rest)) := hcall.tail
    have hcode : Runs [.instr (.movl (.reg .rax) (.reg .rdi)), .instr (.movlImm 60 .rax)] s'
        ((s'.set32 .rdi (s'.get32 .rax)).set32 .rax 60) := .cons rfl (.single rfl)
    refine .of_steps (hsteps.trans (hexit.runs hcode)) ?_
    have hstatus : ((s'.set32 .rdi (s'.get32 .rax)).set32 .rax 60).get32 .rdi = b := by
      rw [State.get32_set32, if_neg (by decide), State.get32_set32_self, hb]
    rw [IROutcome.status, ← hstatus]
    exact hexit.right.exits (State.get32_set32_self _ _ _)

end Oglang
end Techuila
