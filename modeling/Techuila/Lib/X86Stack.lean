import Techuila.Lib.X86

/-!
# The stack as a sequence of words

`wordAt top w` is the word `w` places below `top`. In a stack of fewer than 2^60 words, a store to
one word leaves the others alone, so that pushes, pops and frame slots are updates of a sequence.

* `word_store64`, `word_store32`: what a store does to the words.
* `Runs`: the effect of a list of instructions that do not transfer control; `run_of_runs`.
  `pushes_runs`, `pops_runs`: rows of pushes and pops.
* `holds_cmp`: what the conditions mean after a comparison.
-/

namespace Techuila
namespace X86

open ByteMemory

/-! ## Registers -/

namespace State

variable (s : State) (r r' : Reg) (a : Address) (v : BitVec 64) (n m : BitVec 32)

@[simp] theorem regs_set64 : (s.set64 r v).regs = Function.update s.regs r v := rfl

@[simp] theorem mem_set64 : (s.set64 r v).mem = s.mem := rfl

@[simp] theorem mem_set32 : (s.set32 r n).mem = s.mem := rfl

@[simp] theorem regs_store32 : (s.store32 a n).regs = s.regs := rfl

@[simp] theorem regs_store64 : (s.store64 a v).regs = s.regs := rfl

@[simp] theorem regs_cmp : (s.cmp n m).regs = s.regs := rfl

@[simp] theorem mem_cmp : (s.cmp n m).mem = s.mem := rfl

theorem regs_set32 : (s.set32 r n).regs = Function.update s.regs r (n.setWidth 64) := rfl

@[simp] theorem read32_reg : s.read32 (.reg r) = s.get32 r := rfl

@[simp] theorem read64_reg : s.read64 (.reg r) = s.regs r := rfl

@[simp] theorem write32_reg : s.write32 (.reg r) n = s.set32 r n := rfl

@[simp] theorem write64_reg : s.write64 (.reg r) v = s.set64 r v := rfl

@[simp] theorem low_setWidth : (n.setWidth 64).setWidth 32 = n :=
  BitVec.setWidth_setWidth_of_le n (by decide)

@[simp] theorem get32_set32_self : (s.set32 r n).get32 r = n := by simp [get32, regs_set32]

theorem get32_set32 : (s.set32 r n).get32 r' = if r' = r then n else s.get32 r' := by
  by_cases h : r' = r <;> simp [get32, regs_set32, h]

theorem get32_set64 : (s.set64 r v).get32 r' = if r' = r then v.setWidth 32 else s.get32 r' := by
  by_cases h : r' = r <;> simp [get32, h]

@[simp] theorem get32_cmp : (s.cmp n m).get32 r = s.get32 r := rfl

@[simp] theorem get32_store32 : (s.store32 a n).get32 r = s.get32 r := rfl

end State

/-! ## Words -/

/-- The address of the word `w` places below `top`. -/
def wordAt (top : Address) (w : Nat) : Address := top - BitVec.ofNat 64 (8 * w)

/-- Sequences below this number of words do not wrap around. -/
def maxWords : Nat := 2 ^ 60

theorem wordAt_add_ofInt (top : Address) {w w' : Nat} {x : Int} (h : x + 8 * w' = 8 * w) :
    wordAt top w + BitVec.ofInt 64 x = wordAt top w' := by
  have e : x = 8 * w - 8 * w' := by omega
  subst e
  have h₁ : BitVec.ofInt 64 (8 * (w : Int)) = BitVec.ofNat 64 (8 * w) := by
    rw [← BitVec.ofInt_natCast]; norm_cast
  have h₂ : BitVec.ofInt 64 (8 * (w' : Int)) = BitVec.ofNat 64 (8 * w') := by
    rw [← BitVec.ofInt_natCast]; norm_cast
  rw [wordAt, wordAt, Int.sub_eq_add_neg, BitVec.ofInt_add, BitVec.ofInt_neg, h₁, h₂]
  ring

theorem wordAt_succ (top : Address) (w : Nat) : wordAt top w - 8 = wordAt top (w + 1) := by
  rw [wordAt, wordAt, Nat.mul_add, BitVec.ofNat_add]
  show _ - 8#64 = top - (_ + 8#64)
  ring

theorem wordAt_pred (top : Address) (w : Nat) : wordAt top (w + 1) + 8 = wordAt top w := by
  rw [← wordAt_succ]
  ring

/-- Bytes of different words have different addresses. -/
theorem wordAt_byte_ne (top : Address) {w w' i j : Nat} (hw : w < maxWords) (hw' : w' < maxWords)
    (hi : i < 8) (hj : j < 8) (h : w' ≠ w) :
    wordAt top w + BitVec.ofNat 64 i ≠ wordAt top w' + BitVec.ofNat 64 j := by
  unfold maxWords at hw hw'
  intro e
  have e' : BitVec.ofNat 64 (i + 8 * w') = BitVec.ofNat 64 (j + 8 * w) := by
    rw [BitVec.ofNat_add, BitVec.ofNat_add]
    unfold wordAt at e
    generalize BitVec.ofNat 64 (8 * w) = x at *
    generalize BitVec.ofNat 64 (8 * w') = y at *
    rw [sub_add_eq_add_sub, sub_eq_iff_eq_add] at e
    rw [← add_left_cancel_iff (a := top), ← add_assoc, ← add_assoc, e]
    ring
  have := congrArg BitVec.toNat e'
  rw [BitVec.toNat_ofNat, BitVec.toNat_ofNat, Nat.mod_eq_of_lt (by omega),
    Nat.mod_eq_of_lt (by omega)] at this
  omega

namespace State

/-- The word `w` places below `top`. -/
def word (s : State) (top : Address) (w : Nat) : BitVec 64 := s.load64 (wordAt top w)

theorem word_of_mem {s s' : State} (h : s'.mem = s.mem) (top : Address) (w : Nat) :
    s'.word top w = s.word top w := by
  rw [word, word, load64, load64, h]

@[simp] theorem word_set64 (s : State) (r : Reg) (v : BitVec 64) (top : Address) (w : Nat) :
    (s.set64 r v).word top w = s.word top w := rfl

@[simp] theorem word_set32 (s : State) (r : Reg) (n : BitVec 32) (top : Address) (w : Nat) :
    (s.set32 r n).word top w = s.word top w := rfl

@[simp] theorem word_cmp (s : State) (n m : BitVec 32) (top : Address) (w : Nat) :
    (s.cmp n m).word top w = s.word top w := rfl

theorem word_store (s : State) {top : Address} {n v : Nat} (hn : n ≤ 8) {w w' : Nat}
    (hw : w < maxWords) (hw' : w' < maxWords) (h : w' ≠ w) :
    ({ s with mem := s.mem.store (wordAt top w) n v } : State).word top w' = s.word top w' := by
  rw [word, word, load64, load64]
  congr 1
  exact load_congr fun j hj => store_of_apart fun i hi =>
    wordAt_byte_ne top hw hw' (by omega) hj h

theorem word_store64 (s : State) (top : Address) (v : BitVec 64) {w w' : Nat} (hw : w < maxWords)
    (hw' : w' < maxWords) :
    (s.store64 (wordAt top w) v).word top w' = if w' = w then v else s.word top w' := by
  split
  · rename_i h
    subst h
    have e := load_store_offset s.mem (wordAt top w') (j := 0) (k := 8) v.toNat le_rfl (by decide)
    rw [BitVec.add_zero, pow_zero, Nat.div_one] at e
    rw [word, store64, load64, e]
    apply BitVec.eq_of_toNat_eq
    rw [BitVec.toNat_ofNat]
    have := v.isLt
    omega
  · exact word_store s le_rfl hw hw' ‹_›

theorem load64_low (s : State) (a : Address) : (s.load64 a).setWidth 32 = s.load32 a := by
  apply BitVec.eq_of_toNat_eq
  simp only [load64, load32, load, BitVec.toNat_setWidth, BitVec.toNat_ofNat]
  have h₀ := (s.mem a).isLt
  have h₁ := (s.mem (a + 1)).isLt
  have h₂ := (s.mem (a + 1 + 1)).isLt
  have h₃ := (s.mem (a + 1 + 1 + 1)).isLt
  omega

theorem load32_word (s : State) (top : Address) (w : Nat) :
    s.load32 (wordAt top w) = (s.word top w).setWidth 32 := (s.load64_low _).symm

/-- The lower half of a word, after a 32-bit store to it. -/
theorem word_store32_self (s : State) (top : Address) (n : BitVec 32) (w : Nat) :
    ((s.store32 (wordAt top w) n).word top w).setWidth 32 = n := by
  have e := load_store_offset s.mem (wordAt top w) (j := 0) (n := 4) (k := 4) n.toNat le_rfl
    (by decide)
  rw [BitVec.add_zero, pow_zero, Nat.div_one] at e
  rw [word, load64_low, store32, load32, e]
  apply BitVec.eq_of_toNat_eq
  rw [BitVec.toNat_ofNat]
  have := n.isLt
  omega

theorem word_store32 (s : State) (top : Address) (n : BitVec 32) {w w' : Nat} (hw : w < maxWords)
    (hw' : w' < maxWords) (h : w' ≠ w) :
    (s.store32 (wordAt top w) n).word top w' = s.word top w' :=
  word_store s (by decide) hw hw' h

/-! ### Pushes -/

variable {s : State} {top : Address} {n : Nat}

theorem regs_push (h : s.regs .rsp = wordAt top n) (v : BitVec 64) :
    (s.push v).regs = Function.update s.regs .rsp (wordAt top (n + 1)) := by
  rw [push, regs_store64, regs_set64, get64, h, wordAt_succ]

theorem word_push (h : s.regs .rsp = wordAt top n) (v : BitVec 64) {w : Nat}
    (hn : n + 1 < maxWords) (hw : w < maxWords) :
    (s.push v).word top w = if w = n + 1 then v else s.word top w := by
  rw [push, get64, h, wordAt_succ, word_store64 _ _ _ hn hw, word_set64]

end State

/-! ## Comparisons -/

theorem sign_ne_overflow (a b : BitVec 32) :
    ((a - b).msb != ((a - b).toInt != a.toInt - b.toInt)) = decide (a.toInt < b.toInt) := by
  have ha := a.toInt_lt
  have ha' := a.le_toInt
  have hb := b.toInt_lt
  have hb' := b.le_toInt
  have hd := (a - b).toInt_lt
  have hd' := (a - b).le_toInt
  have hm : (a - b).msb = decide ((a - b).toInt < 0) := (a - b).msb_eq_toInt
  have hs : (a - b).toInt = (a.toInt - b.toInt).bmod (2 ^ 32) := BitVec.toInt_sub ..
  have hk : ∃ k : Int, (a - b).toInt = a.toInt - b.toInt + k * 2 ^ 32 := by
    refine ⟨((a - b).toInt - (a.toInt - b.toInt)) / 2 ^ 32, ?_⟩
    have hmod := Int.bmod_emod (x := a.toInt - b.toInt) (m := 2 ^ 32)
    rw [← hs] at hmod
    omega
  obtain ⟨k, hk⟩ := hk
  rw [hm]
  generalize (a - b).toInt = d at *
  generalize a.toInt = x at *
  generalize b.toInt = y at *
  rw [Bool.eq_iff_iff, bne_iff_ne, Ne, Bool.eq_iff_iff, decide_eq_true_iff, bne_iff_ne,
    decide_eq_true_iff]
  omega

/-- What the conditions say about the signed numbers that were compared. -/
def Cond.compare : Cond → BitVec 32 → BitVec 32 → Bool
  | .e, a, b => a == b
  | .ne, a, b => a != b
  | .g, a, b => decide (b.toInt < a.toInt)
  | .l, a, b => decide (a.toInt < b.toInt)
  | .ge, a, b => decide (b.toInt ≤ a.toInt)
  | .le, a, b => decide (a.toInt ≤ b.toInt)

theorem holds_cmp (s : State) (a b : BitVec 32) (c : Cond) :
    (s.cmp a b).holds c = c.compare a b := by
  have hlt := sign_ne_overflow a b
  have heq : (a == b) = decide (a.toInt = b.toInt) := by
    rw [Bool.eq_iff_iff, beq_iff_eq, decide_eq_true_iff, BitVec.toInt_inj]
  have hge : ((a - b).msb == ((a - b).toInt != a.toInt - b.toInt)) =
      decide (b.toInt ≤ a.toInt) := by
    rw [← Bool.not_inj_iff, ← bne, hlt, ← decide_not, decide_eq_decide]
    omega
  cases c with
  | e => rfl
  | ne => rfl
  | l => exact hlt
  | ge => exact hge
  | g =>
    simp only [State.holds, State.cmp, Cond.compare, hge, heq]
    rw [Bool.eq_iff_iff, Bool.and_eq_true, Bool.not_eq_true', decide_eq_false_iff_not,
      decide_eq_true_iff, decide_eq_true_iff]
    omega
  | le =>
    simp only [State.holds, State.cmp, Cond.compare, hlt, heq]
    rw [Bool.eq_iff_iff, Bool.or_eq_true, decide_eq_true_iff, decide_eq_true_iff,
      decide_eq_true_iff]
    omega

/-- What `setcc` and `movzbl` leave in a register. -/
theorem setcc_movzbl (v : BitVec 64) (b : Bool) :
    (((v >>> 8) <<< 8 ||| (if b then 1 else 0) : BitVec 64).setWidth 8).setWidth 64 =
      (if b then 1 else 0 : BitVec 64) := by
  have h : ∀ w : BitVec 64, (((v >>> 8) <<< 8 ||| w).setWidth 8) = w.setWidth 8 := by
    intro w
    ext i hi
    simp
  rw [h]
  cases b <;> rfl

/-- The dividend of `idivl` behind `cdq`. -/
theorem cdq_dividend (x : BitVec 32) :
    (((if x.msb then -1 else 0 : BitVec 32).setWidth 64 <<< 32 ||| x.setWidth 64).toInt) =
      x.toInt := by
  have e : ((if x.msb then -1 else 0 : BitVec 32).setWidth 64 <<< 32 ||| x.setWidth 64) =
      x.signExtend 64 := by
    have hones : (-1 : BitVec 32) = BitVec.allOnes 32 := rfl
    rw [hones]
    apply BitVec.eq_of_getLsbD_eq
    intro i hi
    rw [BitVec.getLsbD_signExtend, BitVec.getLsbD_or, BitVec.getLsbD_shiftLeft,
      BitVec.getLsbD_setWidth, BitVec.getLsbD_setWidth]
    by_cases h : i < 32
    · simp [h, hi]
    · have hge : x.getLsbD i = false := BitVec.getLsbD_of_ge _ _ (by omega)
      have hlt : i - 32 < 32 := by omega
      have hlt' : i - 32 < 64 := by omega
      cases x.msb <;> simp only [h, hge, hlt, hlt', hi, BitVec.getLsbD_allOnes, decide_true, decide_false,
        Bool.not_false, Bool.true_and, Bool.or_false, if_true, if_false, Bool.false_eq_true, Bool.and_false]
      exact BitVec.getLsbD_zero
  rw [e, BitVec.toInt_signExtend_of_le (by decide)]

/-- A quotient that is not the one exception fits. -/
theorem tdiv_fits {a b : BitVec 32} (h0 : b ≠ 0) (h : ¬ (a = BitVec.intMin 32 ∧ b = -1)) :
    b.toInt ≠ 0 ∧ -2 ^ 31 ≤ a.toInt.tdiv b.toInt ∧ a.toInt.tdiv b.toInt < 2 ^ 31 := by
  have ha := a.toInt_lt
  have ha' := a.le_toInt
  have hb : b.toInt ≠ 0 := fun e => h0 (BitVec.toInt_inj.mp (e.trans rfl))
  have hne : ¬ (a.toInt = -2 ^ 31 ∧ b.toInt = -1) := fun e =>
    h ⟨BitVec.toInt_inj.mp (e.1.trans rfl), BitVec.toInt_inj.mp (e.2.trans rfl)⟩
  have habs := Int.natAbs_tdiv_le_natAbs a.toInt b.toInt
  have hdiv := Int.mul_tdiv_add_tmod a.toInt b.toInt
  have hmod := Int.natAbs_tmod a.toInt b.toInt
  have hlt : (a.toInt.tmod b.toInt).natAbs < b.toInt.natAbs := by
    rw [hmod]
    exact Nat.mod_lt _ (Int.natAbs_pos.mpr hb)
  refine ⟨hb, by omega, ?_⟩
  by_contra hge
  have hq : a.toInt.tdiv b.toInt = 2 ^ 31 := by omega
  rw [hq] at hdiv
  omega

/-! ## Straight-line code -/

/-- Executing the lines, instructions that do not transfer control, leads from `s` to `s'`. -/
inductive Runs : List Line → State → State → Prop
  | nil {s} : Runs [] s s
  | cons {i s s₁ s' lines} : i.exec s = some s₁ → Runs lines s₁ s' →
      Runs (.instr i :: lines) s s'

namespace Runs

theorem single {i : Instr} {s s' : State} (h : i.exec s = some s') : Runs [.instr i] s s' :=
  .cons h .nil

theorem append {a b : List Line} {s s₁ s' : State} (h : Runs a s s₁) (h' : Runs b s₁ s') :
    Runs (a ++ b) s s' := by
  induction h with
  | nil => exact h'
  | cons hi _ ih => exact .cons hi (ih h')

theorem trans_single {a : List Line} {i : Instr} {s s₁ s' : State} (h : Runs a s s₁)
    (hi : i.exec s₁ = some s') : Runs (a ++ [.instr i]) s s' := h.append (.single hi)

end Runs

/-- Pushes lay out what the operands hold, in order, behind the first `n` words. -/
theorem pushes_runs {top : Address} (os : List Operand) {n : Nat} {s : State}
    (hs : s.regs .rsp = wordAt top n) (hroom : n + os.length < maxWords)
    (hstable : ∀ o ∈ os, ∀ s' : State, (∀ r, r ≠ .rsp → s'.regs r = s.regs r) →
      (∀ w ≤ n, s'.word top w = s.word top w) → s'.read64 o = s.read64 o) :
    ∃ s', Runs (os.map fun o => .instr (.pushq o)) s s' ∧
      s'.regs .rsp = wordAt top (n + os.length) ∧ (∀ r, r ≠ .rsp → s'.regs r = s.regs r) ∧
      (∀ w ≤ n, s'.word top w = s.word top w) ∧
      ∀ (i : Nat) (o : Operand), os[i]? = some o → s'.word top (n + 1 + i) = s.read64 o := by
  induction os generalizing n s with
  | nil => exact ⟨s, .nil, hs, fun _ _ => rfl, fun _ _ => rfl, nofun⟩
  | cons o os ih =>
    rw [List.length_cons] at hroom
    have hregs : ∀ r, r ≠ .rsp → (s.push (s.read64 o)).regs r = s.regs r := fun r hr => by
      rw [State.regs_push hs, Function.update_of_ne hr]
    have hword := fun {w : Nat} => State.word_push hs (s.read64 o) (by omega) (w := w)
    have hold : ∀ w ≤ n, (s.push (s.read64 o)).word top w = s.word top w := fun w hw => by
      rw [hword (by omega), if_neg (by omega)]
    obtain ⟨s', hrun, hrsp, hkeep, hwords, hpushed⟩ := ih (n := n + 1) (s := s.push (s.read64 o))
      (by rw [State.regs_push hs, Function.update_self]) (by omega) fun x hx s' hr hw => by
        rw [hstable x (List.mem_cons_of_mem _ hx) s' (fun r h => (hr r h).trans (hregs r h))
          fun w h => (hw w (by omega)).trans (hold w h),
          hstable x (List.mem_cons_of_mem _ hx) _ hregs hold]
    refine ⟨s', .cons rfl hrun, ?_, fun r hr => (hkeep r hr).trans (hregs r hr),
      fun w hw => (hwords w (by omega)).trans (hold w hw), fun i x hi => ?_⟩
    · rw [hrsp, List.length_cons]
      congr 1
      omega
    · cases i with
      | zero =>
        cases hi
        rw [Nat.add_zero, hwords (n + 1) le_rfl, hword (by omega), if_pos rfl]
      | succ i =>
        rw [List.getElem?_cons_succ] at hi
        rw [show n + 1 + (i + 1) = n + 1 + 1 + i by omega, hpushed i x hi,
          hstable x (List.mem_cons_of_mem _ (List.mem_of_getElem? hi)) _ hregs hold]

/-- Pops take the words from the last one on into different registers. -/
theorem pops_runs (top : Address) (rs : List Reg) (hu : rs.Nodup) (hr : .rsp ∉ rs) {n : Nat}
    {s : State} (hs : s.regs .rsp = wordAt top (n + rs.length)) :
    ∃ s', Runs (rs.map fun r => .instr (.popq (.reg r))) s s' ∧ s'.regs .rsp = wordAt top n ∧
      s'.mem = s.mem ∧ (∀ r, r ≠ .rsp → r ∉ rs → s'.regs r = s.regs r) ∧
      ∀ (i : Nat) (r : Reg), rs[i]? = some r → s'.regs r = s.word top (n + rs.length - i) := by
  induction rs generalizing s with
  | nil => exact ⟨s, .nil, hs, rfl, fun _ _ _ => rfl, nofun⟩
  | cons r rs ih =>
    obtain ⟨hnew, hu⟩ := List.nodup_cons.mp hu
    obtain ⟨hsp, hr⟩ := not_or.mp (mt List.mem_cons.mpr hr)
    rw [List.length_cons, ← Nat.add_assoc] at hs
    have hexec : (Instr.popq (.reg r)).exec s = some
        ((s.set64 .rsp (s.regs .rsp + 8)).set64 r (s.load64 (s.regs .rsp))) := rfl
    obtain ⟨s', hrun, hrsp, hmem, hkeep, hpopped⟩ := ih hu hr
      (s := (s.set64 .rsp (s.regs .rsp + 8)).set64 r (s.load64 (s.regs .rsp)))
      (by rw [State.regs_set64, Function.update_of_ne hsp, State.regs_set64,
        Function.update_self, hs, wordAt_pred])
    refine ⟨s', .cons hexec hrun, hrsp, hmem, fun q hq hnot => ?_, fun i q hi => ?_⟩
    · obtain ⟨h₁, h₂⟩ := not_or.mp (mt List.mem_cons.mpr hnot)
      rw [hkeep q hq h₂, State.regs_set64, Function.update_of_ne h₁, State.regs_set64,
        Function.update_of_ne hq]
    · cases i with
      | zero =>
        cases hi
        rw [hkeep r (Ne.symm hsp) hnew, State.regs_set64, Function.update_self, hs, List.length_cons]
        rfl
      | succ i =>
        rw [List.getElem?_cons_succ] at hi
        rw [hpopped i q hi, List.length_cons, State.word_set64, State.word_set64]
        congr 1
        omega

/-- Control goes through straight-line code. -/
theorem run_of_runs (env : Outside) {lines rest : List Line} {s s' : State} (h : Runs lines s s') :
    run env none (lines ++ rest) s = run env none rest s' := by
  induction h with
  | nil => rfl
  | @cons i s s₁ s' lines hi _ ih =>
    rw [List.cons_append, ← ih]
    cases i <;> first | (simp only [Instr.exec] at hi; cases hi; done) | simp only [run, hi]

end X86
end Techuila
