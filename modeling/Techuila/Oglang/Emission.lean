import Techuila.Lib.Result
import Techuila.Lib.X86Stack
import Techuila.Oglang.Codegen
import Techuila.Oglang.Liveness
import Techuila.Oglang.Semantics

/-!
# The code of one instruction

A frame starts at the word `base` below the top of the stack, where `rbp` points to; slot `n` is
the word `base + n + 1`, and `rsp` points to the last slot.

* `content`: the 64 bits in the location of a value.
* `Touches`: registers that code may change, the words of the frame kept. `Writes`: the location of
  one value changed, and scratch registers.
* `emitBinaryOp_runs` and so on: the code of each opcode computes its result from the contents of
  the operands and writes it to the destination.
-/

namespace Techuila
namespace Oglang

open X86
open X86Codegen (slotDisp slotOperand)

/-! ## Frames -/

/-- `rbp` points to the frame at `base`. -/
structure FrameAt (top : Address) (base : Nat) (s : State) : Prop where
  rbp : s.regs .rbp = wordAt top base

/-- The 64 bits in the location of a value. -/
def content (a : RegisterAllocation) (top : Address) (base : Nat) (s : State) (v : Int) :
    BitVec 64 :=
  match a.location v with
  | some (.inl r) => s.regs r
  | some (.inr n) => s.word top (base + n + 1)
  | none => 0

/-- The 32 bits in the location of a value. -/
def content32 (a : RegisterAllocation) (top : Address) (base : Nat) (s : State) (v : Int) :
    BitVec 32 := (content a top base s v).setWidth 32

/-- Nothing but the registers `rs` and words behind the first `n` changes. -/
structure Touches (rs : List Reg) (top : Address) (n : Nat) (s s' : State) : Prop where
  regs : ∀ r ∉ rs, s'.regs r = s.regs r
  words : ∀ w ≤ n, s'.word top w = s.word top w

/-- The registers outside the pool that the code of an instruction computes in. -/
def scratch : List Reg := [.rbx, .rdi, .r8]

/-- Nothing changes in the frame and in the pool but the location of `d`. -/
structure Writes (a : RegisterAllocation) (top : Address) (base : Nat) (d : Int) (s s' : State) :
    Prop where
  rbp : s'.regs .rbp = s.regs .rbp
  rsp : s'.regs .rsp = s.regs .rsp
  regs : ∀ r ∈ RegisterAllocator.pool, a.location d ≠ some (.inl r) → s'.regs r = s.regs r
  words : ∀ w ≤ base + a.spillSlotCount, (∀ n, a.location d = some (.inr n) → w ≠ base + n + 1) →
    s'.word top w = s.word top w

namespace Touches

variable {rs rs' : List Reg} {top : Address} {n : Nat} {s s₁ s' : State}

theorem refl (rs : List Reg) (top : Address) (n : Nat) (s : State) : Touches rs top n s s :=
  ⟨fun _ _ => rfl, fun _ _ => rfl⟩

theorem trans (h : Touches rs top n s s₁) (h' : Touches rs top n s₁ s') : Touches rs top n s s' :=
  ⟨fun r hr => (h'.regs r hr).trans (h.regs r hr), fun w hw => (h'.words w hw).trans (h.words w hw)⟩

theorem mono (h : Touches rs top n s s') (hrs : ∀ r ∈ rs, r ∈ rs') : Touches rs' top n s s' :=
  ⟨fun r hr => h.regs r fun e => hr (hrs r e), h.words⟩

theorem set64 {r : Reg} (hr : r ∈ rs) (h : Touches rs top n s s') (v : BitVec 64) :
    Touches rs top n s (s'.set64 r v) where
  regs r' hr' := by
    have hne : r' ≠ r := by
      rintro rfl
      exact hr' hr
    rw [State.regs_set64, Function.update_of_ne hne]
    exact h.regs r' hr'
  words := h.words

theorem set32 {r : Reg} (hr : r ∈ rs) (h : Touches rs top n s s') (v : BitVec 32) :
    Touches rs top n s (s'.set32 r v) := h.set64 hr _

theorem get32 (h : Touches rs top n s s') {r : Reg} (hr : r ∉ rs) : s'.get32 r = s.get32 r := by
  rw [State.get32, State.get32, h.regs r hr]

end Touches

theorem FrameAt.of_touches {top : Address} {base n : Nat} {s s' : State} {rs : List Reg}
    (h : FrameAt top base s) (ht : Touches rs top n s s') (hp : .rbp ∉ rs) : FrameAt top base s' :=
  ⟨(ht.regs _ hp).trans h.rbp⟩

theorem FrameAt.of_writes {a : RegisterAllocation} {top : Address} {base : Nat} {d : Int}
    {s s' : State} (h : FrameAt top base s) (hw : Writes a top base d s s') :
    FrameAt top base s' := ⟨hw.rbp.trans h.rbp⟩

/-- The operand of a slot. -/
theorem FrameAt.address {top : Address} {base : Nat} {s : State}
    (h : FrameAt top base s) (n : Nat) :
    s.address .rbp (slotDisp n) = wordAt top (base + n + 1) := by
  rw [State.address, h.rbp]
  apply wordAt_add_ofInt
  unfold slotDisp
  push_cast
  ring

theorem FrameAt.write32 {top : Address} {base : Nat} {s : State}
    (h : FrameAt top base s) (n : Nat) (v : BitVec 32) :
    s.write32 (slotOperand n) v = s.store32 (wordAt top (base + n + 1)) v := by
  rw [slotOperand, State.write32, h.address]

theorem FrameAt.write64 {top : Address} {base : Nat} {s : State}
    (h : FrameAt top base s) (n : Nat) (v : BitVec 64) :
    s.write64 (slotOperand n) v = s.store64 (wordAt top (base + n + 1)) v := by
  rw [slotOperand, State.write64, h.address]

theorem FrameAt.read32 {top : Address} {base : Nat} {s : State}
    (h : FrameAt top base s) (n : Nat) :
    s.read32 (slotOperand n) = (s.word top (base + n + 1)).setWidth 32 := by
  rw [slotOperand, State.read32, h.address, State.load32_word]

theorem FrameAt.read64 {top : Address} {base : Nat} {s : State}
    (h : FrameAt top base s) (n : Nat) :
    s.read64 (slotOperand n) = s.word top (base + n + 1) := by
  rw [slotOperand, State.read64, h.address, State.word]

/-! ## Operands -/

section Emit

variable {a : RegisterAllocation} {top : Address} {base : Nat}

theorem content_register {s : State} {v : Int} {r : Reg} (h : a.registers.find v = some r) :
    content a top base s v = s.regs r := by
  rw [content, RegisterAllocation.location_eq_inl.mpr h]

theorem content_slot {s : State} {v : Int} {n : Nat} (h : a.registers.find v = none)
    (hn : a.spillSlots.find v = some n) : content a top base s v = s.word top (base + n + 1) := by
  rw [content, RegisterAllocation.location_eq_inr.mpr ⟨h, hn⟩]

theorem spillSlot_eq {v : Int} {n : Nat} (h : X86Codegen.spillSlot a v = .ok n) :
    a.spillSlots.find v = some n := by
  unfold X86Codegen.spillSlot at h
  split at h
  · cases h
  · cases h
    assumption

theorem spillAddress_eq {v : Int} {o : Operand} (h : X86Codegen.spillAddress a v = .ok o) :
    ∃ n, a.spillSlots.find v = some n ∧ o = slotOperand n := by
  obtain ⟨n, hn, e⟩ := bind_eq_ok.mp h
  cases e
  exact ⟨n, spillSlot_eq hn, rfl⟩

/-- The register `r` that an operand `v` is read from: its own, or the scratch register. -/
def ReadFrom (a : RegisterAllocation) (v : Int) (scr r : Reg) : Prop :=
  a.registers.find v = some r ∨ (a.registers.find v = none ∧ r = scr)

/-- After `loadRead`, the operand's 32 bits are in the register. -/
theorem loadRead_runs {v : Int} {scr : Reg} {lines : List Line} {r : Reg}
    (h : X86Codegen.loadRead a v scr = .ok (lines, r)) {s : State} (hf : FrameAt top base s) :
    ReadFrom a v scr r ∧ ∃ s', Runs lines s s' ∧
      Touches [scr] top (base + a.spillSlotCount) s s' ∧ s'.get32 r = content32 a top base s v := by
  unfold X86Codegen.loadRead at h
  split at h
  · rename_i hr
    cases h
    refine ⟨.inl hr, s, .nil, .refl _ _ _ _, ?_⟩
    rw [content32, content_register hr]
    rfl
  · rename_i hr
    obtain ⟨o, ho, e⟩ := bind_eq_ok.mp h
    cases e
    obtain ⟨n, hn, rfl⟩ := spillAddress_eq ho
    refine ⟨.inr ⟨hr, rfl⟩, _, .single rfl, (Touches.refl _ _ _ _).set32 List.mem_cons_self _, ?_⟩
    rw [State.write32_reg, State.get32_set32_self, content32, content_slot hr hn, hf.read32]

/-- After `loadPointer`, the operand's 64 bits are in the register. -/
theorem loadPointer_runs {v : Int} {lines : List Line} {r : Reg}
    (h : X86Codegen.loadPointer a v = .ok (lines, r)) {s : State} (hf : FrameAt top base s) :
    ReadFrom a v .rbx r ∧ ∃ s', Runs lines s s' ∧
      Touches [.rbx] top (base + a.spillSlotCount) s s' ∧ s'.regs r = content a top base s v := by
  unfold X86Codegen.loadPointer at h
  split at h
  · rename_i hr
    cases h
    exact ⟨.inl hr, s, .nil, .refl _ _ _ _, (content_register hr).symm⟩
  · rename_i hr
    obtain ⟨o, ho, e⟩ := bind_eq_ok.mp h
    cases e
    obtain ⟨n, hn, rfl⟩ := spillAddress_eq ho
    refine ⟨.inr ⟨hr, rfl⟩, _, .single rfl, (Touches.refl _ _ _ _).set64 List.mem_cons_self _, ?_⟩
    rw [State.write64_reg, State.regs_set64, Function.update_self, content_slot hr hn, hf.read64]

/-- Code that keeps the pool and the frame keeps what values are. -/
theorem content_of_touches (ha : a.Ok) {rs : List Reg} {s s' : State}
    (ht : Touches rs top (base + a.spillSlotCount) s s')
    (hrs : ∀ r ∈ RegisterAllocator.pool, r ∉ rs) (v : Int) :
    content a top base s' v = content a top base s v := by
  unfold content
  rcases hl : a.location v with _ | r | n
  · rfl
  · exact ht.regs r (hrs r (ha.register (RegisterAllocation.location_eq_inl.mp hl)).1)
  · have := ha.slots.lt (RegisterAllocation.location_eq_inr.mp hl).2
    exact ht.words _ (by omega)

/-- The registers outside the frame's own and the scratch registers are the pool. -/
theorem pool_spec {r : Reg} (h : r ∈ RegisterAllocator.pool) :
    r ∉ scratch ∧ r ≠ .rbp ∧ r ≠ .rsp := by
  simp only [RegisterAllocator.pool, List.mem_cons, List.not_mem_nil, or_false] at h
  rcases h with rfl | rfl | rfl | rfl <;> decide

theorem ReadFrom.mem {v : Int} {scr r : Reg} (ha : a.Ok) (h : ReadFrom a v scr r) :
    r ∈ RegisterAllocator.pool ∨ r = scr :=
  h.imp (fun h => (ha.register h).1) And.right

theorem writeTarget_mem (ha : a.Ok) (d : Int) (scr : Reg) :
    X86Codegen.writeTarget a d scr ∈ RegisterAllocator.pool ∨
      X86Codegen.writeTarget a d scr = scr := by
  unfold X86Codegen.writeTarget
  split
  · exact .inl (ha.register ‹_›).1
  · exact .inr rfl

/-- `rbp` and `rsp` are no targets. -/
theorem writeTarget_ne (ha : a.Ok) (d : Int) {scr : Reg} (hs : scr ∈ scratch) :
    X86Codegen.writeTarget a d scr ≠ .rbp ∧ X86Codegen.writeTarget a d scr ≠ .rsp := by
  rcases writeTarget_mem ha d scr with h | h
  · exact (pool_spec h).2
  · rw [h]
    simp only [scratch, List.mem_cons, List.not_mem_nil, or_false] at hs
    rcases hs with rfl | rfl | rfl <;> decide

/-! ## Results -/

/-- The registers that the code of an instruction with the destination `d` may use. -/
def used (a : RegisterAllocation) (d : Int) (scr : Reg) : List Reg :=
  X86Codegen.writeTarget a d scr :: scratch

theorem writes_of_touches {d : Int} {scr : Reg} {s s' : State} (ha : a.Ok) (hs : scr ∈ scratch)
    (ht : Touches (used a d scr) top (base + a.spillSlotCount) s s') : Writes a top base d s s' := by
  obtain ⟨hp, hr⟩ := writeTarget_ne ha d hs
  refine ⟨ht.regs _ ?_, ht.regs _ ?_, fun r hr hne => ht.regs r ?_, fun w hw _ => ht.words w hw⟩
  · exact not_or.mpr ⟨hp.symm, by decide⟩ ∘ List.mem_cons.mp
  · exact not_or.mpr ⟨hr.symm, by decide⟩ ∘ List.mem_cons.mp
  · refine not_or.mpr ⟨?_, (pool_spec hr).1⟩ ∘ List.mem_cons.mp
    rintro rfl
    rcases hd : a.registers.find d with _ | r'
    · have e : X86Codegen.writeTarget a d scr = scr := by rw [X86Codegen.writeTarget, hd]
      exact (pool_spec hr).1 (e.symm ▸ hs)
    · have e : X86Codegen.writeTarget a d scr = r' := by rw [X86Codegen.writeTarget, hd]
      exact hne (RegisterAllocation.location_eq_inl.mpr (by rw [hd, e]))

theorem Writes.store {d : Int} {n : Nat} {s s₁ s' : State} (h : Writes a top base d s s₁)
    (hd : a.location d = some (.inr n)) (hregs : s'.regs = s₁.regs)
    (hwords : ∀ w ≤ base + a.spillSlotCount, w ≠ base + n + 1 → s'.word top w = s₁.word top w) :
    Writes a top base d s s' where
  rbp := by rw [hregs, h.rbp]
  rsp := by rw [hregs, h.rsp]
  regs r hr hne := by rw [hregs, h.regs r hr hne]
  words w hw hne := by rw [hwords w hw (hne n hd), h.words w hw hne]

theorem location_of_isSpilled {d : Int} {n : Nat} (hn : a.spillSlots.find d = some n)
    (h : X86Codegen.isSpilled a d = true) : a.location d = some (.inr n) :=
  RegisterAllocation.location_eq_inr.mpr ⟨Option.isNone_iff_eq_none.mp h, hn⟩

section Store

variable (ha : a.Ok) (hroom : base + a.spillSlotCount < maxWords)

include ha hroom

/-- A computed 32-bit result reaches its location. -/
theorem storeIfSpilled_runs {d : Int} {scr : Reg} {lines : List Line} {s s₁ : State}
    (hs : scr ∈ scratch) (hf : FrameAt top base s)
    (ht : Touches (used a d scr) top (base + a.spillSlotCount) s s₁)
    (h : X86Codegen.storeIfSpilled a d scr = .ok lines) :
    ∃ s', Runs lines s₁ s' ∧ Writes a top base d s s' ∧
      content32 a top base s' d = s₁.get32 (X86Codegen.writeTarget a d scr) := by
  have hw := writes_of_touches ha hs ht
  unfold X86Codegen.storeIfSpilled at h
  split at h
  · rename_i hsp
    obtain ⟨o, ho, e⟩ := bind_eq_ok.mp h
    cases e
    obtain ⟨n, hn, rfl⟩ := spillAddress_eq ho
    have hd := location_of_isSpilled hn hsp
    have hlt := ha.slots.lt hn
    have hf₁ := hf.of_writes hw
    have htarget : X86Codegen.writeTarget a d scr = scr := by
      rw [X86Codegen.writeTarget, Option.isNone_iff_eq_none.mp hsp]
    refine ⟨_, .single (congrArg some (hf₁.write32 n _)), hw.store hd rfl fun w hw' hne => ?_, ?_⟩
    · exact State.word_store32 _ _ _ (by omega) (by omega) hne
    · rw [content32, content, hd, htarget, State.word_store32_self, State.read32_reg]
  · rename_i hsp
    cases h
    refine ⟨s₁, .nil, hw, ?_⟩
    obtain ⟨r, hr⟩ := Option.isSome_iff_exists.mp
      (Option.isNone_eq_false_iff.mp (Bool.eq_false_iff.mpr hsp))
    rw [content32, content_register hr, X86Codegen.writeTarget, hr]
    rfl

/-- A computed pointer reaches its location. -/
theorem storePointerIfSpilled_runs {d : Int} {lines : List Line} {s s₁ : State}
    (hf : FrameAt top base s)
    (ht : Touches (used a d .rbx) top (base + a.spillSlotCount) s s₁)
    (h : X86Codegen.storePointerIfSpilled a d = .ok lines) :
    ∃ s', Runs lines s₁ s' ∧ Writes a top base d s s' ∧
      content a top base s' d = s₁.regs (X86Codegen.writeTarget a d .rbx) := by
  have hw := writes_of_touches ha (by decide) ht
  unfold X86Codegen.storePointerIfSpilled at h
  split at h
  · rename_i hsp
    obtain ⟨o, ho, e⟩ := bind_eq_ok.mp h
    cases e
    obtain ⟨n, hn, rfl⟩ := spillAddress_eq ho
    have hd := location_of_isSpilled hn hsp
    have hlt := ha.slots.lt hn
    have hf₁ := hf.of_writes hw
    have htarget : X86Codegen.writeTarget a d .rbx = .rbx := by
      rw [X86Codegen.writeTarget, Option.isNone_iff_eq_none.mp hsp]
    refine ⟨_, .single (congrArg some (hf₁.write64 n _)), hw.store hd rfl fun w hw' hne => ?_, ?_⟩
    · rw [State.word_store64 _ _ _ (by omega) (by omega), if_neg hne]
    · simp only [content, hd, htarget]
      rw [State.word_store64 _ _ _ (by omega) (by omega), if_pos rfl, State.read64_reg]
  · rename_i hsp
    cases h
    refine ⟨s₁, .nil, hw, ?_⟩
    obtain ⟨r, hr⟩ := Option.isSome_iff_exists.mp
      (Option.isNone_eq_false_iff.mp (Bool.eq_false_iff.mpr hsp))
    rw [content_register hr, X86Codegen.writeTarget, hr]

end Store

/-! ## Arithmetic -/

/-- Two operands in registers that do not overlap the scratch register of the other. -/
theorem loadTwo_runs (ha : a.Ok) {left right : Int} {l r : List Line × Reg}
    (hl : X86Codegen.loadRead a left .rbx = .ok l)
    (hr : X86Codegen.loadRead a right .rdi = .ok r) {s : State} (hf : FrameAt top base s) :
    ReadFrom a left .rbx l.2 ∧ ReadFrom a right .rdi r.2 ∧ ∃ s', Runs (l.1 ++ r.1) s s' ∧
      Touches scratch top (base + a.spillSlotCount) s s' ∧
      s'.get32 l.2 = content32 a top base s left ∧ s'.get32 r.2 = content32 a top base s right := by
  obtain ⟨hreadl, s₁, hr₁, ht₁, e₁⟩ := loadRead_runs hl hf
  have hf₁ := hf.of_touches ht₁ (by decide)
  obtain ⟨hreadr, s₂, hr₂, ht₂, e₂⟩ := loadRead_runs hr hf₁
  refine ⟨hreadl, hreadr, s₂, hr₁.append hr₂,
    (ht₁.mono (by decide)).trans (ht₂.mono (by decide)), ?_, ?_⟩
  · rw [ht₂.get32, e₁]
    rcases hreadl.mem ha with h | h
    · exact fun e => (pool_spec h).1 (List.mem_singleton.mp e ▸ by decide)
    · rw [h]
      decide
  · rw [e₂, content32, content_of_touches ha ht₁ fun r hr e =>
      (pool_spec hr).1 (List.mem_singleton.mp e ▸ by decide), content32]

theorem ReadFrom.ne {v : Int} {scr r : Reg} (ha : a.Ok) (h : ReadFrom a v scr r)
    (hs : scr ∈ scratch) : r ≠ .rbp ∧ r ≠ .rsp := by
  rcases h.mem ha with h | rfl
  · exact (pool_spec h).2
  · simp only [scratch, List.mem_cons, List.not_mem_nil, or_false] at hs
    rcases hs with rfl | rfl | rfl <;> decide

/-- The staged form: the right operand waits on the stack while the left one is moved. -/
theorem staged_runs (op : AluOp) {s : State} {l r : Reg} {n : Nat} (hn : n + 1 < maxWords)
    (hs : s.regs .rsp = wordAt top n) (hl : l ≠ .rsp) (hr : r ≠ .rsp) :
    ∃ s', Runs [.instr (.pushq (.reg r)), .instr (.movl (.reg l) (.reg r)),
        .instr (.alul op (.mem .rsp 0) r), .instr (.addqImm 8 .rsp)] s s' ∧
      Touches [r] top n s s' ∧ s'.get32 r = op.apply (s.get32 l) (s.get32 r) := by
  have hregs := State.regs_push hs (s.regs r)
  have hword := fun {w : Nat} => State.word_push hs (s.regs r) hn (w := w)
  have hl' : (s.push (s.regs r)).get32 l = s.get32 l := by
    rw [State.get32, hregs, Function.update_of_ne hl, State.get32]
  refine ⟨_, .cons rfl (.cons rfl (.cons rfl (.single rfl))), ⟨fun q hq => ?_, fun w hw => ?_⟩, ?_⟩
  · have hq : q ≠ r := fun e => hq (List.mem_singleton.mpr e)
    by_cases h : q = .rsp
    · subst h
      simp [State.regs_set32, State.get64, hregs, hr.symm, hs]
      exact wordAt_pred top n
    · simp [State.regs_set32, hregs, hq, h]
  · simp only [State.word_set64, State.write32_reg, State.word_set32, State.read64_reg]
    rw [hword (by omega), if_neg (by omega)]
  · have hload : ((s.push (s.regs r)).set32 r (s.get32 l)).load32
        (((s.push (s.regs r)).set32 r (s.get32 l)).address .rsp 0) = s.get32 r := by
      have e : ((s.push (s.regs r)).set32 r (s.get32 l)).address .rsp 0 = wordAt top (n + 1) := by
        rw [State.address, State.regs_set32, Function.update_of_ne hr.symm, hregs,
          Function.update_self]
        exact BitVec.add_zero _
      rw [e, State.load32_word, State.word_set32, hword hn, if_pos rfl, State.get32]
    simp only [State.get32_set64, hr, if_false, State.get32_set32_self, State.read32,
      State.read64_reg, State.write32_reg, hl', hload]

section Arithmetic

variable (ha : a.Ok) (hroom : base + a.spillSlotCount + 1 < maxWords) {s : State}
  (hf : FrameAt top base s) {lines : List Line} {d left right : Int}

include ha hroom hf

theorem emitBinaryOp_runs {op : AluOp} (hs : s.regs .rsp = wordAt top (base + a.spillSlotCount))
    (h : X86Codegen.emitBinaryOp a op d left right = .ok lines) :
    ∃ s', Runs lines s s' ∧ Writes a top base d s s' ∧ content32 a top base s' d =
      op.apply (content32 a top base s left) (content32 a top base s right) := by
  obtain ⟨l, hl, h⟩ := bind_eq_ok.mp h
  obtain ⟨r, hr, h⟩ := bind_eq_ok.mp h
  obtain ⟨store, hst, h⟩ := bind_eq_ok.mp h
  cases h
  obtain ⟨hreadl, hreadr, s₁, hr₁, ht₁, e₁, e₂⟩ := loadTwo_runs ha hl hr hf
  have hused : ∀ q ∈ scratch, q ∈ used a d .r8 := fun q hq => List.mem_cons_of_mem _ hq
  have hcompute : ∀ {compute : List Line} {s₂ : State}, Runs compute s₁ s₂ →
      Touches (used a d .r8) top (base + a.spillSlotCount) s₁ s₂ →
      s₂.get32 (X86Codegen.writeTarget a d .r8) = op.apply (s₁.get32 l.2) (s₁.get32 r.2) →
      ∃ s', Runs (l.1 ++ r.1 ++ compute ++ store) s s' ∧ Writes a top base d s s' ∧
        content32 a top base s' d =
          op.apply (content32 a top base s left) (content32 a top base s right) := by
    intro compute s₂ hr₂ ht₂ e₃
    obtain ⟨s', hr₃, hw, e⟩ := storeIfSpilled_runs ha (by omega) (by decide) hf
      ((ht₁.mono hused).trans ht₂) hst
    exact ⟨s', (hr₁.append hr₂).append hr₃, hw, by rw [e, e₃, e₁, e₂]⟩
  split
  · rename_i hstage
    rw [hstage.1]
    obtain ⟨s₂, hr₂, ht₂, e₃⟩ := staged_runs op hroom
      ((ht₁.regs _ (by decide)).trans hs)
      (hreadl.ne ha (by decide)).2 (hreadr.ne ha (by decide)).2
    exact hcompute hr₂ (ht₂.mono fun q hq => by
      rw [List.mem_singleton.mp hq, ← hstage.1]
      exact List.mem_cons_self) (by rw [hstage.1]; exact e₃)
  · rename_i hstage
    split
    · rename_i hne
      refine hcompute (.cons rfl (.single rfl)) ((Touches.refl _ _ _ _).set32 List.mem_cons_self _
        |>.set32 List.mem_cons_self _) ?_
      have hr' : r.2 ≠ X86Codegen.writeTarget a d .r8 := fun e => hstage ⟨e.symm, hne⟩
      simp [State.get32_set32, hr']
    · rename_i heq
      rw [not_not.mp heq]
      refine hcompute (.single rfl) ((Touches.refl _ _ _ _).set32 ?_ _) ?_
      · rw [← not_not.mp heq]
        exact List.mem_cons_self
      · rw [not_not.mp heq]
        simp

/-- A condition as 32 bits. -/
theorem emitCompare_runs {c : Cond} (h : X86Codegen.emitCompare a c d left right = .ok lines) :
    ∃ s', Runs lines s s' ∧ Writes a top base d s s' ∧ content32 a top base s' d =
      boolWord (c.compare (content32 a top base s left) (content32 a top base s right)) := by
  obtain ⟨l, hl, h⟩ := bind_eq_ok.mp h
  obtain ⟨r, hr, h⟩ := bind_eq_ok.mp h
  obtain ⟨store, hst, h⟩ := bind_eq_ok.mp h
  cases h
  obtain ⟨-, -, s₁, hr₁, ht₁, e₁, e₂⟩ := loadTwo_runs ha hl hr hf
  have hused : ∀ q ∈ scratch, q ∈ used a d .r8 := fun q hq => List.mem_cons_of_mem _ hq
  have ht₂ : Touches (used a d .r8) top (base + a.spillSlotCount) s₁
      (s₁.cmp (s₁.get32 l.2) (s₁.get32 r.2)) := ⟨fun _ _ => rfl, fun _ _ => rfl⟩
  obtain ⟨s', hr₃, hw, e⟩ := storeIfSpilled_runs ha (by omega) (by decide) hf
    (((ht₁.mono hused).trans ht₂).set64 List.mem_cons_self _ |>.set64 List.mem_cons_self _) hst
  refine ⟨s', (hr₁.append (.cons rfl (.cons rfl (.single rfl)))).append hr₃, hw, ?_⟩
  rw [e, ← e₁, ← e₂, ← holds_cmp s₁]
  simp only [State.get32_set64, if_true, State.get64, State.regs_set64, Function.update_self]
  rw [setcc_movzbl]
  cases (s₁.cmp (s₁.get32 l.2) (s₁.get32 r.2)).holds c <;> rfl

end Arithmetic

/-! ## Moves and memory -/

section Instruction

variable (ha : a.Ok) (hroom : base + a.spillSlotCount + 1 < maxWords) {s : State}
  (hf : FrameAt top base s) {liveness : Table Int LiveRange} {index : Nat}
  {inst : IRInstruction} {lines : List Line}
  (h : X86Codegen.emitInstruction a liveness index inst = .ok lines)

include ha hroom hf h

theorem emit_constI32 (ho : inst.opcode = .constI32) :
    ∃ s', Runs lines s s' ∧ Writes a top base inst.destination s s' ∧
      content32 a top base s' inst.destination = BitVec.ofInt 32 inst.value := by
  rw [X86Codegen.emitInstruction, ho] at h
  obtain ⟨store, hst, h⟩ := bind_eq_ok.mp h
  cases h
  obtain ⟨s', hr, hw, e⟩ := storeIfSpilled_runs ha (by omega) (by decide) hf
    ((Touches.refl _ _ _ _).set32 List.mem_cons_self _) hst
  exact ⟨s', .cons rfl hr, hw, by rw [e, State.get32_set32_self]⟩

theorem emit_moveI32 (ho : inst.opcode = .moveI32) :
    ∃ s', Runs lines s s' ∧ Writes a top base inst.destination s s' ∧
      content32 a top base s' inst.destination = content32 a top base s inst.left := by
  rw [X86Codegen.emitInstruction, ho] at h
  obtain ⟨l, hl, h⟩ := bind_eq_ok.mp h
  obtain ⟨store, hst, h⟩ := bind_eq_ok.mp h
  cases h
  obtain ⟨-, s₁, hr₁, ht₁, e₁⟩ := loadRead_runs hl hf
  have ht₁ : Touches (used a inst.destination .rbx) top (base + a.spillSlotCount) s s₁ :=
    ht₁.mono fun q hq => List.mem_cons_of_mem _ (List.mem_singleton.mp hq ▸ by decide)
  split
  · obtain ⟨s', hr, hw, e⟩ := storeIfSpilled_runs ha (by omega) (by decide) hf
      (ht₁.set32 List.mem_cons_self (s₁.get32 l.2)) hst
    exact ⟨s', (hr₁.append (.single rfl)).append hr, hw, by rw [e, State.get32_set32_self, e₁]⟩
  · rename_i heq
    obtain ⟨s', hr, hw, e⟩ := storeIfSpilled_runs ha (by omega) (by decide) hf ht₁ hst
    exact ⟨s', (hr₁.append .nil).append hr, hw, by rw [e, not_not.mp heq, e₁]⟩

theorem emit_addressOfI32 (ho : inst.opcode = .addressOfI32) :
    ∃ n, a.spillSlots.find inst.left = some n ∧
      ∃ s', Runs lines s s' ∧ Writes a top base inst.destination s s' ∧
        content a top base s' inst.destination = wordAt top (base + n + 1) := by
  rw [X86Codegen.emitInstruction, ho] at h
  obtain ⟨n, hn, h⟩ := bind_eq_ok.mp h
  obtain ⟨store, hst, h⟩ := bind_eq_ok.mp h
  cases h
  obtain ⟨s', hr, hw, e⟩ := storePointerIfSpilled_runs ha (by omega) hf
    ((Touches.refl _ _ _ _).set64 List.mem_cons_self (s.address .rbp (slotDisp n))) hst
  exact ⟨n, spillSlot_eq hn, s', .cons rfl hr, hw,
    by rw [e, State.regs_set64, Function.update_self, hf.address]⟩

/-- A load from a word of the frame or behind it. -/
theorem emit_loadI32 (ho : inst.opcode = .loadI32) {w : Nat}
    (hp : content a top base s inst.left = wordAt top w) (hw : w ≤ base + a.spillSlotCount) :
    ∃ s', Runs lines s s' ∧ Writes a top base inst.destination s s' ∧
      content32 a top base s' inst.destination = (s.word top w).setWidth 32 := by
  rw [X86Codegen.emitInstruction, ho] at h
  obtain ⟨l, hl, h⟩ := bind_eq_ok.mp h
  obtain ⟨store, hst, h⟩ := bind_eq_ok.mp h
  cases h
  obtain ⟨-, s₁, hr₁, ht₁, e₁⟩ := loadPointer_runs hl hf
  have hload : s₁.load32 (s₁.address l.2 0) = (s.word top w).setWidth 32 := by
    have e : s₁.address l.2 0 = wordAt top w := by
      rw [State.address, e₁, hp]
      exact BitVec.add_zero _
    rw [e, State.load32_word, ht₁.words w hw]
  have ht₁ : Touches (used a inst.destination .r8) top (base + a.spillSlotCount) s s₁ :=
    ht₁.mono fun q hq => List.mem_cons_of_mem _ (List.mem_singleton.mp hq ▸ by decide)
  obtain ⟨s', hr, hw, e⟩ := storeIfSpilled_runs ha (by omega) (by decide) hf
    (ht₁.set32 List.mem_cons_self (s₁.load32 (s₁.address l.2 0))) hst
  exact ⟨s', (hr₁.append (.single rfl)).append hr, hw,
    by rw [e, State.get32_set32_self, hload]⟩

theorem emit_ptrSubI32 (ho : inst.opcode = .ptrSubI32) :
    ∃ s', Runs lines s s' ∧ Writes a top base inst.destination s s' ∧
      content a top base s' inst.destination = content a top base s inst.left -
        (content32 a top base s inst.right).signExtend 64 := by
  rw [X86Codegen.emitInstruction, ho] at h
  obtain ⟨l, hl, h⟩ := bind_eq_ok.mp h
  obtain ⟨r, hr, h⟩ := bind_eq_ok.mp h
  obtain ⟨store, hst, h⟩ := bind_eq_ok.mp h
  cases h
  obtain ⟨hreadl, s₁, hr₁, ht₁, e₁⟩ := loadPointer_runs hl hf
  have hf₁ := hf.of_touches ht₁ (by decide)
  obtain ⟨hreadr, s₂, hr₂, ht₂, e₂⟩ := loadRead_runs hr hf₁
  have hrdi : l.2 ≠ .rdi := by
    rcases hreadl.mem ha with h | h
    · rintro e
      exact (pool_spec h).1 (e ▸ by decide)
    · rw [h]
      decide
  have e₂' : s₂.get32 r.2 = content32 a top base s inst.right := by
    rw [e₂, content32, content_of_touches ha ht₁ fun q hq e =>
      (pool_spec hq).1 (List.mem_singleton.mp e ▸ by decide), content32]
  have hpointer : s₂.regs l.2 = content a top base s inst.left := by
    rw [ht₂.regs _ (by simpa using hrdi), e₁]
  have ht : Touches (used a inst.destination .rbx) top (base + a.spillSlotCount) s
      (s₂.set64 .rdi ((s₂.get32 r.2).signExtend 64)) :=
    ((ht₁.mono fun q hq => List.mem_cons_of_mem _ (List.mem_singleton.mp hq ▸ by decide)).trans
      (ht₂.mono fun q hq => List.mem_cons_of_mem _ (List.mem_singleton.mp hq ▸ by decide))).set64
      (List.mem_cons_of_mem _ (by decide)) _
  -- the offset is in `rdi`, which is no target
  have htarget : X86Codegen.writeTarget a inst.destination .rbx ≠ .rdi := by
    rcases writeTarget_mem ha inst.destination .rbx with h | h
    · intro e
      exact (pool_spec h).1 (e ▸ by decide)
    · rw [h]
      decide
  split
  · obtain ⟨s', hr, hw, e⟩ := storePointerIfSpilled_runs ha (by omega) hf
      ((ht.set64 List.mem_cons_self _).set64 List.mem_cons_self _) hst
    refine ⟨s', ((((hr₁.append hr₂).append (.single rfl)).append (.single rfl)).append
      (.single rfl)).append hr, hw, ?_⟩
    simp [e, State.get64, htarget.symm, hrdi, hpointer, e₂']
  · rename_i heq
    have heq := not_not.mp heq
    obtain ⟨s', hr, hw, e⟩ := storePointerIfSpilled_runs ha (by omega) hf
      (ht.set64 List.mem_cons_self _) hst
    refine ⟨s', ((((hr₁.append hr₂).append (.single rfl)).append .nil).append
      (.single rfl)).append hr, hw, ?_⟩
    simp [e, State.get64, heq, hrdi, hpointer, e₂']

/-- A store to a word of the frame or behind it. -/
theorem emit_storeI32 (ho : inst.opcode = .storeI32) {w : Nat}
    (hp : content a top base s inst.left = wordAt top w) (hw : w ≤ base + a.spillSlotCount) :
    ∃ s', Runs lines s s' ∧
      (∀ r, r ∉ scratch → s'.regs r = s.regs r) ∧
      (∀ w' ≤ base + a.spillSlotCount, w' ≠ w → s'.word top w' = s.word top w') ∧
      (s'.word top w).setWidth 32 = content32 a top base s inst.right := by
  rw [X86Codegen.emitInstruction, ho] at h
  obtain ⟨l, hl, h⟩ := bind_eq_ok.mp h
  obtain ⟨r, hr, h⟩ := bind_eq_ok.mp h
  cases h
  obtain ⟨hreadl, s₁, hr₁, ht₁, e₁⟩ := loadPointer_runs hl hf
  have hf₁ := hf.of_touches ht₁ (by decide)
  obtain ⟨hreadr, s₂, hr₂, ht₂, e₂⟩ := loadRead_runs hr hf₁
  have hrdi : l.2 ≠ .rdi := by
    rcases hreadl.mem ha with h | h
    · rintro e
      exact (pool_spec h).1 (e ▸ by decide)
    · rw [h]
      decide
  have e₂' : s₂.get32 r.2 = content32 a top base s inst.right := by
    rw [e₂, content32, content_of_touches ha ht₁ fun q hq e =>
      (pool_spec hq).1 (List.mem_singleton.mp e ▸ by decide), content32]
  have ht : Touches scratch top (base + a.spillSlotCount) s s₂ :=
    (ht₁.mono (by decide)).trans (ht₂.mono (by decide))
  have haddr : s₂.write32 (.mem l.2 0) (s₂.get32 r.2) =
      s₂.store32 (wordAt top w) (s₂.get32 r.2) := by
    have e : s₂.address l.2 0 = wordAt top w := by
      rw [State.address, ht₂.regs _ (by simpa using hrdi), e₁, hp]
      exact BitVec.add_zero _
    rw [State.write32, e]
  refine ⟨_, (hr₁.append hr₂).append (.single (congrArg some haddr)), fun q hq => ht.regs q hq,
    fun w' hw' hne => ?_, ?_⟩
  · rw [State.word_store32 _ _ _ (by omega) (by omega) hne, ht.words w' hw']
  · rw [State.word_store32_self, e₂']

/-- A parameter on the stack, above the return address. -/
theorem emit_stackParam (ho : inst.opcode = .paramI32) {k : Nat} (hv : inst.value = 4 + k)
    (hk : k + 2 ≤ base) :
    ∃ s', Runs lines s s' ∧ Writes a top base inst.destination s s' ∧
      content32 a top base s' inst.destination = (s.word top (base - (k + 2))).setWidth 32 := by
  rw [X86Codegen.emitInstruction, ho] at h
  simp only [hv] at h
  rw [if_neg (by omega), if_neg (by simp only [abiArgRegisters, List.length]; omega)] at h
  obtain ⟨store, hst, h⟩ := bind_eq_ok.mp h
  cases h
  have haddr : wordAt top base + BitVec.ofInt 64 (16 + (4 + (k : Int) - abiArgRegisters.length) * 8) =
      wordAt top (base - (k + 2)) := wordAt_add_ofInt top (by
    simp only [abiArgRegisters, List.length]
    omega)
  have hload : s.read32 (.mem .rbp (16 + (4 + (k : Int) - abiArgRegisters.length) * 8)) =
      (s.word top (base - (k + 2))).setWidth 32 := by
    rw [State.read32, State.address, hf.rbp, haddr, State.load32_word]
  obtain ⟨s', hr, hw, e⟩ := storeIfSpilled_runs ha (by omega) (by decide) hf
    ((Touches.refl _ _ _ _).set32 List.mem_cons_self (s.read32 _)) hst
  exact ⟨s', .cons rfl hr, hw, by rw [e, State.get32_set32_self, hload]⟩

end Instruction

end Emit

end Oglang
end Techuila
