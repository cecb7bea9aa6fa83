import Techuila.Oglang.Emission

/-!
# Divisions

A division uses `eax`, `ecx` and `edx`; values that are live across it in `eax` or `edx` wait on
the stack.

* `save_runs`, `restore_runs`: the pushes, and the pops that skip a register which the destination
  took over.
* `emit_divI32`: the quotient reaches the destination unless the left operand is in `ecx`, and what
  is live across stays unless it is in `ecx`.
-/

namespace Techuila
namespace Oglang

open X86

section Saved

variable {a : RegisterAllocation} (top : Address)

/-- The registers of the saved values are in the words behind the first `n`, in order. -/
theorem save_runs (saved : List (Int × Reg)) (hr : ∀ e ∈ saved, e.2 ≠ .rsp) {n : Nat} {s : State}
    (hs : s.regs .rsp = wordAt top n) (hroom : n + saved.length < maxWords) :
    ∃ s', Runs (X86Codegen.save saved) s s' ∧ s'.regs .rsp = wordAt top (n + saved.length) ∧
      (∀ r, r ≠ .rsp → s'.regs r = s.regs r) ∧ (∀ w ≤ n, s'.word top w = s.word top w) ∧
      ∀ (i : Nat) (e : Int × Reg), saved[i]? = some e → s'.word top (n + 1 + i) = s.regs e.2 := by
  obtain ⟨s', hrun, hrsp, hkeep, hwords, hsaved⟩ := pushes_runs
    (saved.map fun e => Operand.reg e.2) hs (by rwa [List.length_map]) fun o ho s' hregs _ => by
      obtain ⟨e, he, rfl⟩ := List.mem_map.mp ho
      exact hregs _ (hr e he)
  rw [List.length_map] at hrsp
  rw [List.map_map] at hrun
  exact ⟨s', hrun, hrsp, hkeep, hwords, fun i e hi =>
    hsaved i (.reg e.2) (by rw [List.getElem?_map, hi, Option.map_some])⟩

/-- The pops of `restore` in the order in which they are executed. -/
theorem restore_cons (d : Int) (e : Int × Reg) (saved : List (Int × Reg)) :
    X86Codegen.restore a d (e :: saved) =
      X86Codegen.restore a d saved ++ X86Codegen.restore a d [e] := by
  simp [X86Codegen.restore]

theorem reclaimed_iff {d : Int} {r : Reg} :
    (!X86Codegen.isSpilled a d && decide (X86Codegen.writeTarget a d .rbx = r)) = true ↔
      a.location d = some (.inl r) := by
  rw [RegisterAllocation.location_eq_inl, X86Codegen.isSpilled, X86Codegen.writeTarget]
  cases a.registers.find d <;> simp

/-- Saved registers come back, but not the one that the destination took over. -/
theorem restore_runs (d : Int) (saved : List (Int × Reg)) (hr : ∀ e ∈ saved, e.2 ≠ .rsp)
    (old : Reg → BitVec 64) {n : Nat} {s : State} (hs : s.regs .rsp = wordAt top (n + saved.length))
    (hsaved : ∀ (i : Nat) (e : Int × Reg), saved[i]? = some e →
      s.word top (n + 1 + i) = old e.2) :
    ∃ s', Runs (X86Codegen.restore a d saved) s s' ∧ s'.regs .rsp = wordAt top n ∧
      s'.mem = s.mem ∧
      (∀ e ∈ saved, a.location d ≠ some (.inl e.2) → s'.regs e.2 = old e.2) ∧
      ∀ r, r ≠ .rsp → (∀ e ∈ saved, e.2 ≠ r) ∨ a.location d = some (.inl r) →
        s'.regs r = s.regs r := by
  induction saved generalizing n s with
  | nil => exact ⟨s, .nil, hs, rfl, nofun, fun _ _ _ => rfl⟩
  | cons e saved ih =>
    obtain ⟨he, hr⟩ := List.forall_mem_cons.mp hr
    obtain ⟨s₁, hrun, hrsp, hmem, hback, hkeep⟩ := ih hr (n := n + 1)
      (by rw [hs, List.length_cons]; congr 1; omega) fun i x hi => by
        rw [← hsaved (i + 1) x (by rwa [List.getElem?_cons_succ])]
        congr 1
        omega
    rw [restore_cons]
    have hfirst : s₁.load64 (s₁.get64 .rsp) = old e.2 := by
      rw [State.get64, hrsp]
      exact (State.word_of_mem hmem top (n + 1)).trans (hsaved 0 e rfl)
    by_cases hd : a.location d = some (.inl e.2)
    · have hline : X86Codegen.restore a d [e] = [.instr (.addqImm 8 .rsp)] := by
        simp only [X86Codegen.restore, List.reverse_singleton, List.map_cons, List.map_nil]
        rw [if_pos (reclaimed_iff.mpr hd)]
      rw [hline]
      refine ⟨_, hrun.trans_single rfl, ?_, hmem, fun x hx hne => ?_, fun r hr' hor => ?_⟩
      · rw [State.regs_set64, Function.update_self, State.get64, hrsp]
        exact wordAt_pred top n
      · rcases List.mem_cons.mp hx with rfl | hx
        · exact absurd hd hne
        · rw [State.regs_set64, Function.update_of_ne (hr x hx), hback x hx hne]
      · rw [State.regs_set64, Function.update_of_ne hr']
        exact hkeep r hr' (hor.imp_left fun h x hx => h x (List.mem_cons_of_mem _ hx))
    · have hline : X86Codegen.restore a d [e] = [.instr (.popq (.reg e.2))] := by
        simp only [X86Codegen.restore, List.reverse_singleton, List.map_cons, List.map_nil]
        rw [if_neg (mt reclaimed_iff.mp hd)]
      rw [hline]
      refine ⟨_, hrun.trans_single rfl, ?_, hmem, fun x hx hne => ?_, fun r hr' hor => ?_⟩
      · rw [State.write64_reg, State.regs_set64, Function.update_of_ne he.symm, State.regs_set64,
          Function.update_self, State.get64, hrsp]
        exact wordAt_pred top n
      · rw [State.write64_reg, State.regs_set64]
        by_cases hxe : x.2 = e.2
        · rw [hxe, Function.update_self, hfirst]
        · rcases List.mem_cons.mp hx with rfl | hx
          · exact absurd rfl hxe
          · rw [Function.update_of_ne hxe, State.regs_set64, Function.update_of_ne (hr x hx),
              hback x hx hne]
      · have hre : r ≠ e.2 := by
          rintro rfl
          rcases hor with h | h
          · exact h e List.mem_cons_self rfl
          · exact hd h
        rw [State.write64_reg, State.regs_set64, Function.update_of_ne hre, State.regs_set64,
          Function.update_of_ne hr']
        exact hkeep r hr' (hor.imp_left fun h x hx => h x (List.mem_cons_of_mem _ hx))

variable {top}

/-- The result in `eax` reaches the destination. -/
theorem takeEax_runs {base : Nat} (ha : a.Ok) (hroom : base + a.spillSlotCount < maxWords) {d : Int}
    {lines : List Line} (h : X86Codegen.takeEax a d = .ok lines) {s : State}
    (hf : FrameAt top base s) :
    ∃ s', Runs lines s s' ∧
      (∀ r, r ≠ .rbx → a.location d ≠ some (.inl r) → s'.regs r = s.regs r) ∧
      (∀ w < maxWords, (∀ n, a.location d = some (.inr n) → w ≠ base + n + 1) →
        s'.word top w = s.word top w) ∧
      content32 a top base s' d = s.get32 .rax := by
  obtain ⟨store, hst, e⟩ := bind_eq_ok.mp h
  cases e
  unfold X86Codegen.storeIfSpilled at hst
  split at hst
  · rename_i hsp
    obtain ⟨o, ho, e⟩ := bind_eq_ok.mp hst
    cases e
    obtain ⟨n, hn, rfl⟩ := spillAddress_eq ho
    have hd := location_of_isSpilled hn hsp
    have hlt := ha.slots.lt hn
    have htarget : X86Codegen.writeTarget a d .rbx = .rbx := by
      rw [X86Codegen.writeTarget, Option.isNone_iff_eq_none.mp hsp]
    have hf₁ : FrameAt top base (s.set32 .rbx (s.get32 .rax)) := ⟨hf.rbp⟩
    rw [htarget, if_pos (by decide)]
    refine ⟨_, .cons rfl (.single (congrArg some (hf₁.write32 n _))), fun r hr _ => ?_,
      fun w hw hne => ?_, ?_⟩
    · rw [State.regs_store32, State.regs_set32, Function.update_of_ne hr]
    · rw [State.word_store32 _ _ _ (by omega) hw (hne n hd), State.word_set32]
    · rw [content32, content, hd]
      simp only [State.word_store32_self, State.read32_reg, State.write32_reg,
        State.get32_set32_self]
  · rename_i hsp
    cases hst
    obtain ⟨r, hr⟩ := Option.isSome_iff_exists.mp
      (Option.isNone_eq_false_iff.mp (Bool.eq_false_iff.mpr hsp))
    have hd : a.location d = some (.inl r) := RegisterAllocation.location_eq_inl.mpr hr
    have htarget : X86Codegen.writeTarget a d .rbx = r := by rw [X86Codegen.writeTarget, hr]
    rw [htarget, List.append_nil]
    split
    · refine ⟨_, .single rfl, fun q _ hq => ?_, fun _ _ _ => rfl, ?_⟩
      · have hne : q ≠ r := by
          rintro rfl
          exact hq hd
        rw [State.write32_reg, State.regs_set32, Function.update_of_ne hne]
      · rw [content32, content_register hr]
        exact State.get32_set32_self _ _ _
    · rename_i hrax
      refine ⟨s, .nil, fun _ _ _ => rfl, fun _ _ _ => rfl, ?_⟩
      rw [content32, content_register hr, not_not.mp hrax]
      rfl

/-- The result reaches the destination, and the saved registers come back. -/
theorem takeRestore_runs {base : Nat} (ha : a.Ok) {d : Int} {lines : List Line}
    (h : X86Codegen.takeEax a d = .ok lines) {saved : List (Int × Reg)}
    (hpool : ∀ e ∈ saved, e.2 ∈ RegisterAllocator.pool)
    (hroom : base + a.spillSlotCount + saved.length < maxWords) {s : State}
    (hf : FrameAt top base s)
    (hs : s.regs .rsp = wordAt top (base + a.spillSlotCount + saved.length))
    (old : Reg → BitVec 64) (hsaved : ∀ (i : Nat) (e : Int × Reg), saved[i]? = some e →
      s.word top (base + a.spillSlotCount + 1 + i) = old e.2) :
    ∃ s', Runs (lines ++ X86Codegen.restore a d saved) s s' ∧ s'.regs .rbp = s.regs .rbp ∧
      s'.regs .rsp = wordAt top (base + a.spillSlotCount) ∧
      (∀ e ∈ saved, a.location d ≠ some (.inl e.2) → s'.regs e.2 = old e.2) ∧
      (∀ r ∈ RegisterAllocator.pool, (∀ e ∈ saved, e.2 ≠ r) → a.location d ≠ some (.inl r) →
        s'.regs r = s.regs r) ∧
      (∀ w ≤ base + a.spillSlotCount, (∀ n, a.location d = some (.inr n) → w ≠ base + n + 1) →
        s'.word top w = s.word top w) ∧
      content32 a top base s' d = s.get32 .rax := by
  have hdpool : ∀ r ∉ RegisterAllocator.pool, a.location d ≠ some (.inl r) :=
    fun r hr e => hr (ha.register (RegisterAllocation.location_eq_inl.mp e)).1
  obtain ⟨s₁, hr₁, hkeep₁, hwords₁, e₁⟩ := takeEax_runs ha (by omega) h hf
  obtain ⟨s', hr', hrsp, hmem, hback, hkeep⟩ := restore_runs (a := a) top d saved
    (fun e he => (pool_spec (hpool e he)).2.2) old (n := base + a.spillSlotCount) (s := s₁)
    (by rw [hkeep₁ _ (by decide) (hdpool _ (by decide)), hs])
    fun i e hi => by
      have hlt := (List.getElem?_eq_some_iff.mp hi).1
      rw [hwords₁ _ (by omega) fun n hn => by
        have := ha.slots.lt (RegisterAllocation.location_eq_inr.mp hn).2
        omega, hsaved i e hi]
  have hword : ∀ w, s'.word top w = s₁.word top w := fun w => State.word_of_mem hmem top w
  have hdest : content a top base s' d = content a top base s₁ d := by
    unfold content
    rcases hd : a.location d with _ | x | n
    · rfl
    · have hx := (ha.register (RegisterAllocation.location_eq_inl.mp hd)).1
      exact hkeep x (pool_spec hx).2.2 (.inr hd)
    · exact hword _
  refine ⟨s', hr₁.append hr', ?_, hrsp, hback, fun r hr hother hd => ?_, fun w hw hd => ?_, ?_⟩
  · rw [hkeep _ (by decide) (.inl fun e he h => (pool_spec (hpool e he)).2.1 h),
      hkeep₁ _ (by decide) (hdpool _ (by decide))]
  · rw [hkeep _ (pool_spec hr).2.2 (.inl hother),
      hkeep₁ r (by rintro rfl; exact absurd hr (by decide)) hd]
  · rw [hword, hwords₁ w (by omega) hd]
  · rw [content32, hdest, ← content32, e₁]

/-- What is saved across an instruction. -/
theorem mem_liveAcross {liveness : Table Int LiveRange} {index : Nat} {exclude : Int}
    {e : Int × Reg} : e ∈ X86Codegen.liveAcross a liveness index exclude ↔
      e ∈ a.registers ∧ e.1 ≠ exclude ∧
        ∃ r, liveness.find e.1 = some r ∧ r.start < index ∧ index < r.stop := by
  rw [X86Codegen.liveAcross, List.mem_insertionSort, List.mem_filter, Bool.and_eq_true,
    bne_iff_ne]
  cases liveness.find e.1 <;> simp

theorem length_liveAcross (liveness : Table Int LiveRange) (index : Nat) (exclude : Int) :
    (X86Codegen.liveAcross a liveness index exclude).length ≤ a.registers.length := by
  rw [X86Codegen.liveAcross, List.length_insertionSort]
  exact List.length_filter_le _ _

end Saved

/-! ## Divisions -/

/-- The instructions that divide `l` by `r`. -/
theorem idiv_runs {s : State} {l r : Reg} (hlr : l = .rcx → r = .rcx) {q : BitVec 32}
    (hq : OpCode.divI32.eval (s.get32 l) (s.get32 r) = some q) :
    ∃ s', Runs [.instr (.movl (.reg r) (.reg .rcx)), .instr (.movl (.reg l) (.reg .rax)),
        .instr .cdq, .instr (.idivl .rcx)] s s' ∧ s'.mem = s.mem ∧
      (∀ r, r ∉ [Reg.rax, .rcx, .rdx] → s'.regs r = s.regs r) ∧ s'.get32 .rax = q ∧
      s'.get32 .rcx = s.get32 r := by
  rw [OpCode.eval] at hq
  split at hq
  · cases hq
  rename_i hc
  cases hq
  obtain ⟨h0, hex⟩ := not_or.mp hc
  obtain ⟨hb, hlo, hhi⟩ := tdiv_fits h0 hex
  have hleft : (s.set32 .rcx (s.get32 r)).get32 l = s.get32 l := by
    rw [State.get32_set32]
    split
    · rename_i e
      rw [hlr e, e]
    · rfl
  have hexec : Instr.exec (((s.set32 .rcx (s.get32 r)).set32 .rax (s.get32 l)).set32 .rdx
      (if (s.get32 l).msb then -1 else 0)) (.idivl .rcx) =
        some (((((s.set32 .rcx (s.get32 r)).set32 .rax (s.get32 l)).set32 .rdx
          (if (s.get32 l).msb then -1 else 0)).set32 .rax
            (BitVec.ofInt 32 ((s.get32 l).toInt.tdiv (s.get32 r).toInt))).set32 .rdx
              (BitVec.ofInt 32 ((s.get32 l).toInt.tmod (s.get32 r).toInt))) := by
    have hrdx : (((s.set32 .rcx (s.get32 r)).set32 .rax (s.get32 l)).set32 .rdx
      (if (s.get32 l).msb then -1 else 0)).get32 .rdx = if (s.get32 l).msb then -1 else 0 :=
      State.get32_set32_self _ _ _
    have hrax : (((s.set32 .rcx (s.get32 r)).set32 .rax (s.get32 l)).set32 .rdx
      (if (s.get32 l).msb then -1 else 0)).get32 .rax = s.get32 l := by simp [State.get32_set32]
    have hrcx : (((s.set32 .rcx (s.get32 r)).set32 .rax (s.get32 l)).set32 .rdx
      (if (s.get32 l).msb then -1 else 0)).get32 .rcx = s.get32 r := by simp [State.get32_set32]
    rw [Instr.exec, hrdx, hrax, hrcx, cdq_dividend, if_neg (by omega)]
  refine ⟨_, .cons rfl (.cons (congrArg some (congrArg _ hleft)) (.cons (congrArg some ?_)
    (.single hexec))), rfl, fun q hq => ?_, ?_, ?_⟩
  · simp only [State.write32_reg, State.read32_reg, State.get32_set32_self]
  · simp only [List.mem_cons, List.not_mem_nil, or_false, not_or] at hq
    simp [State.regs_set32, hq]
  · simp [State.get32_set32]
  · simp [State.get32_set32]

section Division

variable {a : RegisterAllocation} {top : Address} {base : Nat} (ha : a.Ok)

include ha

/-- A division leaves the quotient in the destination, unless the left operand alone is in `ecx`,
and keeps what is live across it, unless it is in `ecx`. -/
theorem emit_divI32 {liveness : Table Int LiveRange} {index : Nat} {inst : IRInstruction}
    {lines : List Line} (h : X86Codegen.emitInstruction a liveness index inst = .ok lines)
    (ho : inst.opcode = .divI32) {s : State} (hf : FrameAt top base s)
    (hs : s.regs .rsp = wordAt top (base + a.spillSlotCount))
    (hroom : base + a.spillSlotCount + a.registers.length < maxWords)
    (hlr : a.location inst.left = some (.inl .rcx) → a.location inst.right = some (.inl .rcx))
    {q : BitVec 32} (hq : OpCode.divI32.eval (content32 a top base s inst.left)
      (content32 a top base s inst.right) = some q) :
    ∃ s', Runs lines s s' ∧ s'.regs .rbp = s.regs .rbp ∧ s'.regs .rsp = s.regs .rsp ∧
      (∀ e ∈ X86Codegen.liveAcross a liveness index inst.destination,
        a.location inst.destination ≠ some (.inl e.2) → e.2 ≠ .rcx →
          s'.regs e.2 = s.regs e.2) ∧
      (a.location inst.right = some (.inl .rcx) →
        a.location inst.destination ≠ some (.inl .rcx) → s'.get32 .rcx = s.get32 .rcx) ∧
      (∀ w ≤ base + a.spillSlotCount,
        (∀ n, a.location inst.destination = some (.inr n) → w ≠ base + n + 1) →
          s'.word top w = s.word top w) ∧
      content32 a top base s' inst.destination = q := by
  rw [X86Codegen.emitInstruction, ho] at h
  obtain ⟨r, hr, h⟩ := bind_eq_ok.mp h
  obtain ⟨l, hl, h⟩ := bind_eq_ok.mp h
  obtain ⟨take, htake, h⟩ := bind_eq_ok.mp h
  cases h
  generalize hsaved : (X86Codegen.liveAcross a liveness index inst.destination).filter
    (fun e => decide (e.2 = .rax ∨ e.2 = .rdx)) = saved
  have hmem : ∀ e ∈ saved, e.2 = .rax ∨ e.2 = .rdx := by
    intro e he
    rw [← hsaved] at he
    exact of_decide_eq_true (List.mem_filter.mp he).2
  have hpool : ∀ e ∈ saved, e.2 ∈ RegisterAllocator.pool := by
    intro e he
    rcases hmem e he with h | h <;> rw [h] <;> decide
  have hne : ∀ e ∈ saved, e.2 ≠ .rsp := fun e he => (pool_spec (hpool e he)).2.2
  have hlen : saved.length ≤ a.registers.length := by
    rw [← hsaved]
    exact (List.length_filter_le _ _).trans (length_liveAcross _ _ _)
  -- the operands
  obtain ⟨hreadr, s₁, hr₁, ht₁, e₁⟩ := loadRead_runs hr hf
  have hf₁ := hf.of_touches ht₁ (by decide)
  obtain ⟨hreadl, s₂, hr₂, ht₂, e₂⟩ := loadRead_runs hl hf₁
  have hcontent : content32 a top base s₁ inst.left = content32 a top base s inst.left := by
    rw [content32, content_of_touches ha ht₁ fun q hq e =>
      (pool_spec hq).1 (List.mem_singleton.mp e ▸ by decide), content32]
  have hrbx : r.2 ≠ .rbx := by
    rcases hreadr.mem ha with h | h
    · rintro e
      exact (pool_spec h).1 (e ▸ by decide)
    · rw [h]
      decide
  have e₁' : s₂.get32 r.2 = content32 a top base s inst.right := by
    rw [ht₂.get32 (by simpa using hrbx), e₁]
  have ht : Touches scratch top (base + a.spillSlotCount) s s₂ :=
    (ht₁.mono (by decide)).trans (ht₂.mono (by decide))
  have hlr' : l.2 = .rcx → r.2 = .rcx := by
    intro e
    rcases hreadl with h | ⟨-, h⟩
    · have := RegisterAllocation.location_eq_inl.mp
        (hlr (RegisterAllocation.location_eq_inl.mpr (e ▸ h)))
      rcases hreadr with h' | ⟨h', -⟩
      · exact (Option.some.inj (h'.symm.trans this))
      · rw [h'] at this
        cases this
    · rw [h] at e
      cases e
  -- the saved registers, the quotient, its place, and the saved registers again
  obtain ⟨s₃, hr₃, hrsp₃, hkeep₃, hwords₃, hsaved₃⟩ := save_runs top saved hne
    ((ht.regs _ (by decide)).trans hs) (by omega)
  have hget : ∀ {q : Reg}, q ≠ .rsp → s₃.get32 q = s₂.get32 q := fun hq => by
    rw [State.get32, State.get32, hkeep₃ _ hq]
  have hl' := (hreadl.ne ha (by decide)).2
  have hr' := (hreadr.ne ha (by decide)).2
  obtain ⟨s₄, hr₄, hmem₄, hkeep₄, hrax₄, hrcx₄⟩ := idiv_runs hlr' (s := s₃) (q := q)
    (by rw [hget hl', hget hr', e₂, hcontent, e₁', hq])
  have hrbp₄ : s₄.regs .rbp = s.regs .rbp := by
    rw [hkeep₄ _ (by decide), hkeep₃ _ (by decide), ht.regs _ (by decide)]
  have hword₄ : ∀ w, s₄.word top w = s₃.word top w := fun w => State.word_of_mem hmem₄ top w
  obtain ⟨s', hr₅, hrbp₅, hrsp₅, hback₅, hkeep₅, hwords₅, e₅⟩ := takeRestore_runs ha htake hpool
    (by omega) (s := s₄) ⟨hrbp₄.trans hf.rbp⟩ (by rw [hkeep₄ _ (by decide), hrsp₃]) s₂.regs
    fun i e hi => by rw [hword₄, hsaved₃ i e hi]
  refine ⟨s', ?_, hrbp₅.trans hrbp₄, hrsp₅.trans hs.symm, ?_, ?_, fun w hw hd => ?_,
    e₅.trans hrax₄⟩
  · rw [List.append_assoc _ take]
    exact (((hr₁.append hr₂).append hr₃).append hr₄).append hr₅
  · intro e he hd hrcx
    have hscr := pool_spec (ha.pool e (mem_liveAcross.mp he).1)
    have hs₂ : s₂.regs e.2 = s.regs e.2 := ht.regs _ hscr.1
    by_cases hsv : e.2 = .rax ∨ e.2 = .rdx
    · rw [hback₅ e (hsaved ▸ List.mem_filter.mpr ⟨he, decide_eq_true hsv⟩) hd, hs₂]
    · rw [hkeep₅ _ (ha.pool e (mem_liveAcross.mp he).1) (fun x hx h => hsv (h ▸ hmem x hx)) hd,
        hkeep₄ _ (by simp; grind), hkeep₃ _ hscr.2.2, hs₂]
  · intro hright hd
    have hr2 : r.2 = .rcx := by
      have hx := RegisterAllocation.location_eq_inl.mp hright
      rcases hreadr with h | ⟨h, -⟩
      · exact Option.some.inj (h.symm.trans hx)
      · rw [h] at hx
        cases hx
    rw [State.get32, hkeep₅ _ (by decide) (fun x hx h => by
      rcases hmem x hx with h' | h' <;> cases h ▸ h') hd, ← State.get32, hrcx₄, hr2,
      hget (by decide), ht.get32 (by decide)]
  · rw [hwords₅ w hw hd, hword₄, hwords₃ w hw, ht.words w hw]

end Division

end Oglang
end Techuila
