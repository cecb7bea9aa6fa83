import Techuila.Oglang.SavedRegisters

/-!
# Calls and bounds checks

A call saves what is live across it, lays out the arguments behind the saved registers, pops the
first four into the argument registers, and undoes all of it behind the call.

* `pushArgs_runs`: arguments on the stack.
* `beforeCall_runs`, `afterCall_runs`: the two halves. `emitCall_eq`: the code is the two halves
  around the call.
-/

namespace Techuila
namespace Oglang

open X86
open X86Codegen (slotOperand pushArgValue)

section Arguments

variable {a : RegisterAllocation} {top : Address} {base : Nat}

/-- The operand that an argument is pushed from. -/
def ArgOperand (a : RegisterAllocation) (v : Int) (o : Operand) : Prop :=
  (∃ r, a.registers.find v = some r ∧ o = .reg r) ∨
    (a.registers.find v = none ∧ ∃ n, a.spillSlots.find v = some n ∧ o = slotOperand n)

theorem pushArgValue_eq {v : Int} {line : Line} (h : pushArgValue a v = .ok line) :
    ∃ o, ArgOperand a v o ∧ line = .instr (.pushq o) := by
  unfold pushArgValue at h
  split at h
  · rename_i r hr
    cases h
    exact ⟨_, .inl ⟨r, hr, rfl⟩, rfl⟩
  · rename_i hr
    obtain ⟨o, ho, e⟩ := bind_eq_ok.mp h
    cases e
    obtain ⟨n, hn, rfl⟩ := spillAddress_eq ho
    exact ⟨_, .inr ⟨hr, n, hn, rfl⟩, rfl⟩

/-- A row of instructions with one operand for each value. -/
theorem operands_eq {g : Int → Except String Line} {mk : Operand → Instr}
    (hg : ∀ {v line}, g v = .ok line → ∃ o, ArgOperand a v o ∧ line = .instr (mk o))
    {vs : List Int} {lines : List Line} (h : vs.mapM g = .ok lines) :
    ∃ os, vs.Forall₂ (ArgOperand a) os ∧ lines = os.map fun o => .instr (mk o) := by
  induction vs generalizing lines with
  | nil =>
    cases h
    exact ⟨[], .nil, rfl⟩
  | cons v vs ih =>
    rw [List.mapM_cons] at h
    obtain ⟨line, hl, h⟩ := bind_eq_ok.mp h
    obtain ⟨more, hm, h⟩ := bind_eq_ok.mp h
    cases h
    obtain ⟨o, ho, rfl⟩ := hg hl
    obtain ⟨os, hos, rfl⟩ := ih hm
    exact ⟨o :: os, .cons ho hos, rfl⟩

/-- Such an operand holds the argument. -/
theorem ArgOperand.read {v : Int} {o : Operand} (h : ArgOperand a v o) {s : State}
    (hf : FrameAt top base s) : s.read64 o = content a top base s v := by
  rcases h with ⟨r, hr, rfl⟩ | ⟨hr, n, hn, rfl⟩
  · exact (content_register hr).symm
  · rw [content_slot hr hn, hf.read64]

/-- Pushes do not change what is in the frame. -/
theorem content_of_push (ha : a.Ok) {n : Nat} (hn : base + a.spillSlotCount ≤ n) {s s' : State}
    (hregs : ∀ r, r ≠ .rsp → s'.regs r = s.regs r)
    (hwords : ∀ w ≤ n, s'.word top w = s.word top w) (v : Int) :
    content a top base s' v = content a top base s v := by
  have ht : Touches [.rsp] top (base + a.spillSlotCount) s s' :=
    ⟨fun r hr => hregs r (mt List.mem_singleton.mpr hr), fun w hw => hwords w (hw.trans hn)⟩
  exact content_of_touches ha ht (fun _ hr e => (pool_spec hr).2.2 (List.mem_singleton.mp e)) v

/-- The arguments stand in order behind the first `n` words. -/
theorem pushArgs_runs (ha : a.Ok) {vs : List Int} {lines : List Line}
    (h : vs.mapM (pushArgValue a) = .ok lines) {n : Nat} (hn : base + a.spillSlotCount ≤ n)
    (hroom : n + vs.length < maxWords) {s : State} (hf : FrameAt top base s)
    (hs : s.regs .rsp = wordAt top n) :
    ∃ s', Runs lines s s' ∧ s'.regs .rsp = wordAt top (n + vs.length) ∧
      (∀ r, r ≠ .rsp → s'.regs r = s.regs r) ∧ (∀ w ≤ n, s'.word top w = s.word top w) ∧
      ∀ (i : Nat) (v : Int), vs[i]? = some v →
        s'.word top (n + 1 + i) = content a top base s v := by
  obtain ⟨os, hos, rfl⟩ := operands_eq pushArgValue_eq h
  obtain ⟨hlen, hget⟩ := List.forall₂_iff_get.mp hos
  obtain ⟨s', hrun, hrsp, hregs, hwords, hpushed⟩ := pushes_runs os hs (by rwa [← hlen])
    fun o ho s' hregs hwords => by
      obtain ⟨i, hi, rfl⟩ := List.getElem_of_mem ho
      have hvo : ArgOperand a vs[i] os[i] := hget i (by omega) hi
      rw [hvo.read hf, hvo.read (s := s') ⟨(hregs _ (by decide)).trans hf.rbp⟩,
        content_of_push ha hn hregs hwords]
  refine ⟨s', hrun, by rw [hrsp, hlen], hregs, hwords, fun i v hi => ?_⟩
  obtain ⟨hlt, rfl⟩ := List.getElem?_eq_some_iff.mp hi
  have hvo : ArgOperand a vs[i] os[i] := hget i hlt (by omega)
  rw [hpushed i os[i] (List.getElem?_eq_getElem (by omega)), hvo.read hf]

end Arguments

/-! ## Calls -/

section Call

variable {a : RegisterAllocation} {top : Address} {base : Nat} {d : Int} {callee : String}
  {args : List Int} {saved : List (Int × Reg)} {pushStack pushRegs : List Line}

/-- The pops into the argument registers. -/
def popRegs (n : Nat) : List Line :=
  (abiArgRegisters.take n).reverse.map fun r => .instr (.popq (.reg r))

/-- What removes `n` arguments from the stack. -/
def cleanup (n : Nat) : List Line :=
  if n > 0 then [.instr (.addqImm (n * 8) .rsp)] else []

theorem emitCall_eq {liveness : Table Int LiveRange} {index : Nat} {lines : List Line}
    (h : X86Codegen.emitCall a liveness index d callee args = .ok lines) :
    ∃ pushStack pushRegs take, (args.drop 4).reverse.mapM (pushArgValue a) = .ok pushStack ∧
      (args.take 4).mapM (pushArgValue a) = .ok pushRegs ∧
      X86Codegen.takeEax a d = .ok take ∧
      lines = (X86Codegen.save (X86Codegen.liveAcross a liveness index d) ++ pushStack ++ pushRegs ++
        popRegs (min args.length 4)) ++ .instr (.call callee) :: (cleanup (args.length - 4) ++ (take ++
          X86Codegen.restore a d (X86Codegen.liveAcross a liveness index d))) := by
  obtain ⟨pushStack, hps, h⟩ := bind_eq_ok.mp h
  obtain ⟨pushRegs, hpr, h⟩ := bind_eq_ok.mp h
  obtain ⟨take, ht, h⟩ := bind_eq_ok.mp h
  cases h
  have hn : abiArgRegisters.length = 4 := rfl
  rw [hn] at hps hpr
  refine ⟨pushStack, pushRegs, take, ?_, ?_, ht, ?_⟩
  · rw [← hps]
    congr 2
    rcases Nat.le_total args.length 4 with h | h
    · rw [min_eq_left h, List.drop_length, List.drop_eq_nil_of_le h]
    · rw [min_eq_right h]
  · rw [← hpr]
    congr 1
    rcases Nat.le_total args.length 4 with h | h
    · rw [min_eq_left h, List.take_length, List.take_of_length_le h]
    · rw [min_eq_right h]
  · have hm : args.length - min args.length 4 = args.length - 4 := by omega
    simp only [popRegs, cleanup, hn, hm, List.append_assoc, List.cons_append, List.nil_append]

/-- Before the call the saved registers, then the arguments from the fifth on, last one first, are
behind the frame, and the others are in their registers. -/
theorem beforeCall_runs (ha : a.Ok) (hsp : ∀ e ∈ saved, e.2 ≠ .rsp)
    (hstack : (args.drop 4).reverse.mapM (pushArgValue a) = .ok pushStack)
    (hregs : (args.take 4).mapM (pushArgValue a) = .ok pushRegs)
    (hroom : base + a.spillSlotCount + saved.length + args.length < maxWords) {s : State}
    (hf : FrameAt top base s) (hs : s.regs .rsp = wordAt top (base + a.spillSlotCount)) :
    ∃ s', Runs (X86Codegen.save saved ++ pushStack ++ pushRegs ++ popRegs (min args.length 4)) s s' ∧
      s'.regs .rbp = s.regs .rbp ∧
      s'.regs .rsp = wordAt top (base + a.spillSlotCount + saved.length + (args.length - 4)) ∧
      (∀ w ≤ base + a.spillSlotCount, s'.word top w = s.word top w) ∧
      (∀ (i : Nat) (e : Int × Reg), saved[i]? = some e →
        s'.word top (base + a.spillSlotCount + 1 + i) = s.regs e.2) ∧
      (∀ (i : Nat) (r : Reg) (v : Int), abiArgRegisters[i]? = some r → args[i]? = some v →
        s'.regs r = content a top base s v) ∧
      ∀ (j : Nat) (v : Int), args[4 + j]? = some v → s'.word top
        (base + a.spillSlotCount + saved.length + (args.length - 4) - j) =
          content a top base s v := by
  generalize hS : base + a.spillSlotCount + saved.length = S at *
  have hdrop : (args.drop 4).reverse.length = args.length - 4 := by simp
  have htake : (args.take 4).length = min args.length 4 := by
    rw [List.length_take, Nat.min_comm]
  obtain ⟨s₁, hr₁, hrsp₁, hkeep₁, hwords₁, hsaved₁⟩ := save_runs top saved hsp hs (by omega)
  have hf₁ : FrameAt top base s₁ := ⟨(hkeep₁ _ (by decide)).trans hf.rbp⟩
  have hc₁ := content_of_push ha le_rfl hkeep₁ hwords₁
  rw [hS] at hrsp₁
  obtain ⟨s₂, hr₂, hrsp₂, hkeep₂, hwords₂, hpushed₂⟩ := pushArgs_runs ha hstack (by omega)
    (by omega) hf₁ hrsp₁
  have hf₂ : FrameAt top base s₂ := ⟨(hkeep₂ _ (by decide)).trans hf₁.rbp⟩
  have hc₂ : ∀ v, content a top base s₂ v = content a top base s₁ v :=
    content_of_push ha (by omega) hkeep₂ hwords₂
  rw [hdrop] at hrsp₂
  obtain ⟨s₃, hr₃, hrsp₃, hkeep₃, hwords₃, hpushed₃⟩ := pushArgs_runs ha hregs (by omega)
    (by omega) hf₂ hrsp₂
  have hlen : (abiArgRegisters.take (min args.length 4)).reverse.length = min args.length 4 := by
    simp [abiArgRegisters]
  have hnodup : (abiArgRegisters.take (min args.length 4)).reverse.Nodup :=
    List.nodup_reverse.mpr ((by decide : abiArgRegisters.Nodup).sublist (List.take_sublist _ _))
  have hnot : ∀ r ∉ abiArgRegisters, r ∉ (abiArgRegisters.take (min args.length 4)).reverse :=
    fun r hr h => hr (List.mem_of_mem_take (List.mem_reverse.mp h))
  obtain ⟨s₄, hr₄, hrsp₄, hmem₄, hkeep₄, hpopped₄⟩ := pops_runs top
    (abiArgRegisters.take (min args.length 4)).reverse hnodup (hnot _ (by decide))
    (n := S + (args.length - 4)) (s := s₃) (by rw [hrsp₃, htake, hlen])
  have hword₄ : ∀ w, s₄.word top w = s₃.word top w := fun w => State.word_of_mem hmem₄ top w
  refine ⟨s₄, ((hr₁.append hr₂).append hr₃).append hr₄, ?_, hrsp₄, fun w hw => ?_, fun i e hi => ?_,
    fun i r v hr hv => ?_, fun j v hv => ?_⟩
  · rw [hkeep₄ _ (by decide) (hnot _ (by decide)), hkeep₃ _ (by decide), hkeep₂ _ (by decide),
      hkeep₁ _ (by decide)]
  · rw [hword₄, hwords₃ w (by omega), hwords₂ w (by omega), hwords₁ w hw]
  · have hlt := (List.getElem?_eq_some_iff.mp hi).1
    rw [hword₄, hwords₃ _ (by omega), hwords₂ _ (by omega), hsaved₁ i e hi]
  · -- the last register is popped first
    have hi := (List.getElem?_eq_some_iff.mp hr).1
    have hi' := (List.getElem?_eq_some_iff.mp hv).1
    have h4 : abiArgRegisters.length = 4 := rfl
    have hpop := hpopped₄ (min args.length 4 - 1 - i) r (by
      rw [List.getElem?_reverse (by rw [List.length_take, h4]; omega), List.length_take, h4,
        List.getElem?_take_of_lt (by omega), ← hr]
      congr 1
      omega)
    rw [hpop, hlen, show S + (args.length - 4) + min args.length 4 - (min args.length 4 - 1 - i) =
      S + (args.length - 4) + 1 + i by omega, hpushed₃ i v (by
        rw [List.getElem?_take_of_lt (by omega), hv]), hc₂, hc₁]
  · -- the last argument is pushed first
    have hj := (List.getElem?_eq_some_iff.mp hv).1
    have hpush := hpushed₂ (args.length - 4 - 1 - j) v (by
      rw [List.getElem?_reverse (by rw [List.length_drop]; omega), List.length_drop,
        List.getElem?_drop, ← hv]
      congr 1
      omega)
    rw [hword₄, hwords₃ _ (by omega), ← hc₁, ← hpush]
    congr 1
    omega

/-- Behind the call everything is as before it, but for the result in the destination. -/
theorem afterCall_runs (ha : a.Ok) {take : List Line} (h : X86Codegen.takeEax a d = .ok take)
    (hpool : ∀ e ∈ saved, e.2 ∈ RegisterAllocator.pool) {n : Nat}
    (hroom : base + a.spillSlotCount + saved.length + n < maxWords) {s : State}
    (hf : FrameAt top base s)
    (hs : s.regs .rsp = wordAt top (base + a.spillSlotCount + saved.length + n))
    {old : Reg → BitVec 64} (hsaved : ∀ (i : Nat) (e : Int × Reg), saved[i]? = some e →
      s.word top (base + a.spillSlotCount + 1 + i) = old e.2) :
    ∃ s', Runs (cleanup n ++ (take ++ X86Codegen.restore a d saved)) s s' ∧
      s'.regs .rbp = s.regs .rbp ∧ s'.regs .rsp = wordAt top (base + a.spillSlotCount) ∧
      (∀ e ∈ saved, a.location d ≠ some (.inl e.2) → s'.regs e.2 = old e.2) ∧
      (∀ w ≤ base + a.spillSlotCount, (∀ n, a.location d = some (.inr n) → w ≠ base + n + 1) →
        s'.word top w = s.word top w) ∧
      content32 a top base s' d = s.get32 .rax := by
  obtain ⟨s₁, hr₁, hrsp₁, hkeep₁, hmem₁⟩ : ∃ s₁, Runs (cleanup n) s s₁ ∧
      s₁.regs .rsp = wordAt top (base + a.spillSlotCount + saved.length) ∧
      (∀ r, r ≠ .rsp → s₁.regs r = s.regs r) ∧ s₁.mem = s.mem := by
    unfold cleanup
    split
    · refine ⟨_, .single rfl, ?_, fun r hr => ?_, rfl⟩
      · rw [State.regs_set64, Function.update_self, State.get64, hs]
        exact wordAt_add_ofInt top (by push_cast; ring)
      · rw [State.regs_set64, Function.update_of_ne hr]
    · obtain rfl : n = 0 := by omega
      exact ⟨s, .nil, hs, fun _ _ => rfl, rfl⟩
  have hword₁ : ∀ w, s₁.word top w = s.word top w := fun w => State.word_of_mem hmem₁ top w
  obtain ⟨s', hr', hrbp, hrsp, hback, -, hwords, e⟩ := takeRestore_runs ha h hpool (by omega)
    (s := s₁) ⟨(hkeep₁ _ (by decide)).trans hf.rbp⟩ hrsp₁ old fun i e hi => by
      rw [hword₁, hsaved i e hi]
  refine ⟨s', hr₁.append hr', hrbp.trans (hkeep₁ _ (by decide)), hrsp, hback, fun w hw hd => ?_, ?_⟩
  · rw [hwords w hw hd, hword₁]
  · rw [e, State.get32, State.get32, hkeep₁ _ (by decide)]

end Call

end Oglang
end Techuila
