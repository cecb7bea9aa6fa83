import Techuila.Oglang.CallCode
import Techuila.Oglang.Execution

/-!
# The stack of a compiled program

How the cells of the activations lie on the machine's stack: each activation has a frame, a value
in a slot of an older frame is there whoever runs, and a pointer is the address of a slot.

* `Rep`: a value as 64 bits. `Holds`: the slots of the frames hold the memory.
* `Matches`: the machine state of an activation at a position.
* `Matches.write`, `Matches.store`: what a result in its location and a store through a pointer keep.
* `Matches.step`: the code of an instruction that does not transfer control implements it.
-/

namespace Techuila
namespace Oglang

open X86

/-- Where an activation keeps its values. -/
structure Frame where
  allocation : RegisterAllocation
  base : Nat

/-- The last word of a frame. -/
def Frame.last (fr : Frame) : Nat := fr.base + fr.allocation.spillSlotCount

/-- Each of the first `d` frames ends before the next one begins, and the last one before `n`. -/
structure Stacked (F : Nat → Frame) (d n : Nat) : Prop where
  ok : ∀ k < d, (F k).allocation.Ok
  order : ∀ j k, j < k → k < d → (F j).last < (F k).base
  below : ∀ k < d, (F k).last < n

/-- A slot of a frame is inside the stack. -/
theorem Stacked.slot_le {F : Nat → Frame} {d n k : Nat} (h : Stacked F (d + 1) n) (hk : k < d + 1)
    {v : Int} {l : Nat} (hl : (F k).allocation.location v = some (.inr l)) :
    (F k).base + l + 1 ≤ (F k).last ∧ (F k).base + l + 1 ≤ (F d).last := by
  have hlt := (h.ok k hk).slots.lt (RegisterAllocation.location_eq_inr.mp hl).2
  have hle : (F k).last ≤ (F d).last := by
    rcases Nat.lt_succ_iff_lt_or_eq.mp hk with hkd | rfl
    · exact (h.order k d hkd (Nat.lt_succ_self d)).le.trans (Nat.le_add_right _ _)
    · exact le_rfl
  refine ⟨?_, le_trans ?_ hle⟩ <;> unfold Frame.last <;> omega

/-- Different slots are different words. -/
theorem Stacked.slot_inj {F : Nat → Frame} {d n k j : Nat} (h : Stacked F (d + 1) n)
    (hk : k < d + 1) (hj : j < d + 1) {v u : Int} {l l' : Nat}
    (hl : (F k).allocation.location v = some (.inr l))
    (hl' : (F j).allocation.location u = some (.inr l'))
    (e : (F k).base + l + 1 = (F j).base + l' + 1) : k = j ∧ v = u := by
  have hv := h.slot_le hk hl
  have hu := h.slot_le hj hl'
  rcases Nat.lt_trichotomy k j with hkj | rfl | hjk
  · have := h.order k j hkj hj
    omega
  · obtain rfl : l = l' := by omega
    exact ⟨rfl, (h.ok k hk).slots.inj (RegisterAllocation.location_eq_inr.mp hl).2
      (RegisterAllocation.location_eq_inr.mp hl').2⟩
  · have := h.order j k hjk hk
    omega

/-- The 64 bits represent the value, for pointers into the first `d` frames. -/
def Rep (F : Nat → Frame) (top : Address) (d : Nat) : Value → BitVec 64 → Prop
  | .int n, w => w.setWidth 32 = n
  | .ptr p, w => p.depth < d ∧ ∃ n, w = wordAt top ((F p.depth).base + n + 1) -
      BitVec.ofInt 64 p.offset ∧ ∀ (i : Nat) (v : Int), p.block[i]? = some v →
        (F p.depth).allocation.location v = some (.inr (n + i))

/-- What the memory has in the slots of the first `d` frames is there. -/
def Holds (F : Nat → Frame) (top : Address) (d : Nat) (m : Memory) (s : State) : Prop :=
  ∀ k < d, ∀ v x n, m k v = some x → (F k).allocation.location v = some (.inr n) →
    Rep F top (k + 1) x (s.word top ((F k).base + n + 1))

/-- The first `n` words are the same outside the slots of the first `d` frames. -/
def KeptWords (F : Nat → Frame) (top : Address) (d n : Nat) (s s' : State) : Prop :=
  ∀ w ≤ n, (∀ k < d, w ≤ (F k).base ∨ (F k).last < w) → s'.word top w = s.word top w

/-- What the first `d` activations have in registers is the same. -/
def KeptCells (F : Nat → Frame) (d : Nat) (m m' : Memory) : Prop :=
  ∀ k < d, ∀ v, (∀ n, (F k).allocation.location v ≠ some (.inr n)) → m' k v = m k v

theorem KeptWords.refl (F : Nat → Frame) (top : Address) (d n : Nat) (s : State) :
    KeptWords F top d n s s := fun _ _ _ => rfl

theorem KeptWords.trans {F : Nat → Frame} {top : Address} {d n : Nat} {s s₁ s' : State}
    (h : KeptWords F top d n s s₁) (h' : KeptWords F top d n s₁ s') : KeptWords F top d n s s' :=
  fun w hw hk => (h' w hw hk).trans (h w hw hk)

theorem KeptCells.refl (F : Nat → Frame) (d : Nat) (m : Memory) : KeptCells F d m m :=
  fun _ _ _ _ => rfl

theorem KeptCells.trans {F : Nat → Frame} {d : Nat} {m m₁ m' : Memory} (h : KeptCells F d m m₁)
    (h' : KeptCells F d m₁ m') : KeptCells F d m m' :=
  fun k hk v hv => (h' k hk v hv).trans (h k hk v hv)

section Rep

variable {F G : Nat → Frame} {top : Address} {d : Nat}

theorem Rep.mono {d' : Nat} {x : Value} {w : BitVec 64} (h : Rep F top d x w) (hd : d ≤ d') :
    Rep F top d' x w := by
  cases x with
  | int n => exact h
  | ptr p => exact ⟨h.1.trans_le hd, h.2⟩

/-- A newer frame changes no older value. -/
theorem Rep.congr {x : Value} {w : BitVec 64} (h : Rep F top d x w) (hFG : ∀ k < d, G k = F k) :
    Rep G top d x w := by
  cases x with
  | int n => exact h
  | ptr p =>
    obtain ⟨hd, h⟩ := h
    rw [← hFG _ hd] at h
    exact ⟨hd, h⟩

theorem Holds.congr {m : Memory} {s : State} (h : Holds F top d m s)
    (hFG : ∀ k < d, G k = F k) : Holds G top d m s := by
  intro k hk v x n hx hn
  rw [hFG k hk] at hn ⊢
  exact (h k hk v x n hx hn).congr fun j hj => hFG j (by omega)

theorem KeptWords.congr {n : Nat} {s s' : State} (h : KeptWords F top d n s s')
    (hFG : ∀ k < d, G k = F k) : KeptWords G top d n s s' :=
  fun w hw hk => h w hw fun k hkd => by
    rw [← hFG k hkd]
    exact hk k hkd

theorem KeptCells.congr {m m' : Memory} (h : KeptCells F d m m') (hFG : ∀ k < d, G k = F k) :
    KeptCells G d m m' := fun k hk v hv => h k hk v (by rwa [hFG k hk] at hv)

/-- The address of the cell that a pointer points to. -/
theorem Rep.cell {p : Pointer} {w : BitVec 64} (h : Rep F top d (.ptr p) w) {c : Int}
    (hc : p.cell = some c) : p.depth < d ∧ ∃ n,
      (F p.depth).allocation.location c = some (.inr n) ∧ w = wordAt top ((F p.depth).base + n + 1) := by
  obtain ⟨hd, n, rfl, hblock⟩ := h
  unfold Pointer.cell at hc
  split at hc
  · rename_i ho
    refine ⟨hd, n + (p.offset / 8).toNat, hblock _ _ hc, ?_⟩
    rw [BitVec.sub_eq_add_neg, ← BitVec.ofInt_neg]
    apply wordAt_add_ofInt
    push_cast
    omega
  · cases hc

end Rep

/-! ## An activation -/

/-- The machine state of the activation at depth `d` of `f` at position `i`: slots and live registers
hold the memory. -/
structure Matches (f : IRFunction) (F : Nat → Frame) (top : Address) (d i : Nat) (m : Memory)
    (s : State) : Prop where
  frame : FrameAt top (F d).base s
  slots : Holds F top (d + 1) m s
  registers : ∀ v x r, f.LiveAt i v → m d v = some x →
    (F d).allocation.location v = some (.inl r) → Rep F top (d + 1) x (s.regs r)

/-- From `s` to `s'` the activation goes on to position `i`, and the older ones keep what is
theirs. -/
structure Advances (f : IRFunction) (F : Nat → Frame) (top : Address) (d i : Nat) (m : Memory)
    (s : State) (m' : Memory) (s' : State) : Prop where
  here : Matches f F top d i m' s'
  rsp : s'.regs .rsp = s.regs .rsp
  words : KeptWords F top d (F d).base s s'
  cells : KeptCells F d m m'

namespace Matches

variable {f : IRFunction} {F : Nat → Frame} {top : Address} {d i : Nat} {m : Memory} {s : State}

/-- What is live is in its location. -/
theorem content (h : Matches f F top d i m s) (hs : Separated f (F d).allocation)
    (hr : f.Reaches i) {v : Int} (hv : f.LiveAt i v) {x : Value} (hx : m d v = some x) :
    Rep F top (d + 1) x (Oglang.content (F d).allocation top (F d).base s v) := by
  unfold Oglang.content
  rcases hl : (F d).allocation.location v with _ | r | n
  · exact absurd hl (hs.located hr hv)
  · exact h.registers v x r hv hx hl
  · exact h.slots d (Nat.lt_succ_self d) v x n hx hl

theorem int (h : Matches f F top d i m s) (hs : Separated f (F d).allocation) (hr : f.Reaches i)
    {v : Int} (hv : f.LiveAt i v) {n : BitVec 32} (hn : m.int d v = some n) :
    content32 (F d).allocation top (F d).base s v = n :=
  h.content hs hr hv (Memory.int_eq_some.mp hn)

/-- A result in its location, with the other slots and the live registers as they were. -/
theorem result {s₁ : State} {v : Int} {n : Nat} (hst : Stacked F (d + 1) n)
    (hslots : Holds F top (d + 1) m s₁) (hframe : FrameAt top (F d).base s)
    (hwords : ∀ w ≤ (F d).last, (∀ n, (F d).allocation.location v = some (.inr n) →
      w ≠ (F d).base + n + 1) → s.word top w = s₁.word top w)
    (hregs : ∀ u y r, f.LiveAt i u → u ≠ v → m d u = some y →
      (F d).allocation.location u = some (.inl r) → Rep F top (d + 1) y (s.regs r))
    {x : Value} (hx : Rep F top (d + 1) x (Oglang.content (F d).allocation top (F d).base s v)) :
    Matches f F top d i (m.set d v x) s where
  frame := hframe
  slots k hk u y l hy hl := by
    rw [Memory.set_apply] at hy
    split at hy
    · rename_i e
      obtain ⟨rfl, rfl⟩ := e
      cases hy
      rwa [Oglang.content, hl] at hx
    · rename_i hne
      rw [hwords _ (hst.slot_le hk hl).2 fun l' hl' e =>
        hne (hst.slot_inj hk (Nat.lt_succ_self d) hl hl' e)]
      exact hslots k hk u y l hy hl
  registers u y r hu hy hr := by
    rw [Memory.set_apply] at hy
    split at hy
    · rename_i e
      obtain ⟨-, rfl⟩ := e
      cases hy
      rwa [Oglang.content, hr] at hx
    · rename_i hne
      exact hregs u y r hu (fun e => hne ⟨rfl, e⟩) hy hr

/-- The code of an instruction changed nothing but the location of its destination. -/
theorem write {n : Nat} (h : Matches f F top d i m s) (hst : Stacked F (d + 1) n)
    (hs : Separated f (F d).allocation) (hr : f.Reaches i) {inst : IRInstruction}
    (hi : f.instructions[i]? = some inst) (hw : inst.writes = some inst.destination)
    (hsucc : f.Succ i (i + 1)) {s' : State}
    (hwrites : Writes (F d).allocation top (F d).base inst.destination s s') {x : Value}
    (hx : Rep F top (d + 1) x (Oglang.content (F d).allocation top (F d).base s' inst.destination)) :
    Advances f F top d (i + 1) m s (m.set d inst.destination x) s' where
  here := by
    have hok := hst.ok d (Nat.lt_succ_self d)
    refine result hst h.slots (h.frame.of_writes hwrites) hwrites.words (fun u y r hu hne hy hl => ?_)
      hx
    have hlive : f.LiveAt i u := .later hi (by rw [hw]; simpa using hne.symm) hsucc hu
    rw [hwrites.regs r (hok.register (RegisterAllocation.location_eq_inl.mp hl)).1]
    · exact h.registers u y r hlive hy hl
    · rw [← hl]
      exact hs.kept hr hi hw hsucc hu hne.symm
  rsp := hwrites.rsp
  words w hw hk := hwrites.words w (hw.trans (Nat.le_add_right _ _)) fun n _ => by omega
  cells k hk v _ := by
    rw [Memory.set_apply, if_neg (by omega)]

/-- Control moves on, and only scratch registers change. -/
theorem move {n : Nat} (h : Matches f F top d i m s) (hst : Stacked F (d + 1) n) {j : Nat}
    (hlive : ∀ v, f.LiveAt j v → f.LiveAt i v) {s' : State}
    (ht : Touches scratch top (F d).last s s') : Advances f F top d j m s m s' where
  here := {
    frame := h.frame.of_touches ht (by decide)
    slots := by
      intro k hk v x l hx hl
      rw [ht.words _ (hst.slot_le hk hl).2]
      exact h.slots k hk v x l hx hl
    registers := by
      intro v x r hv hx hl
      have hok := hst.ok d (Nat.lt_succ_self d)
      rw [ht.regs r (pool_spec (hok.register (RegisterAllocation.location_eq_inl.mp hl)).1).1]
      exact h.registers v x r (hlive v hv) hx hl }
  rsp := ht.regs _ (by decide)
  words w hw _ := ht.words w (hw.trans (Nat.le_add_right _ _))
  cells := .refl F d m

/-- A store through a pointer to a slot. -/
theorem store {n : Nat} (h : Matches f F top d i m s) (hst : Stacked F (d + 1) n)
    {inst : IRInstruction} (hi : f.instructions[i]? = some inst) (hw : inst.writes = none)
    (hsucc : f.Succ i (i + 1)) {k : Nat} (hk : k < d + 1) {c : Int} {n' : Nat}
    (hc : (F k).allocation.location c = some (.inr n')) {s' : State}
    (hregs : ∀ r, r ∉ scratch → s'.regs r = s.regs r)
    (hwords : ∀ w ≤ (F d).last, w ≠ (F k).base + n' + 1 → s'.word top w = s.word top w)
    {b : BitVec 32} (hb : (s'.word top ((F k).base + n' + 1)).setWidth 32 = b) :
    Advances f F top d (i + 1) m s (m.set k c (.int b)) s' where
  here := {
    frame := ⟨(hregs _ (by decide)).trans h.frame.rbp⟩
    slots := by
      intro j hj u y l hy hl
      rw [Memory.set_apply] at hy
      split at hy
      · rename_i e
        obtain ⟨rfl, rfl⟩ := e
        cases hy
        cases hc.symm.trans hl
        exact hb
      · rename_i hne
        rw [hwords _ (hst.slot_le hj hl).2 fun e => hne (hst.slot_inj hj hk hl hc e)]
        exact h.slots j hj u y l hy hl
    registers := by
      intro u y r hu hy hl
      have hok := hst.ok d (Nat.lt_succ_self d)
      rw [Memory.set_apply, if_neg] at hy
      · rw [hregs r (pool_spec (hok.register (RegisterAllocation.location_eq_inl.mp hl)).1).1]
        exact h.registers u y r (.later hi (by rw [hw]; exact nofun) hsucc hu) hy hl
      · rintro ⟨rfl, rfl⟩
        rw [hl] at hc
        cases hc }
  rsp := hregs _ (by decide)
  words w hw hkept := by
    have hle := (hst.slot_le hk hc).1
    refine hwords w (hw.trans (Nat.le_add_right _ _)) fun e => ?_
    rcases Nat.lt_succ_iff_lt_or_eq.mp hk with hkd | rfl
    · have := hkept k hkd
      omega
    · omega
  cells j hj v hv := by
    rw [Memory.set_apply, if_neg]
    rintro ⟨rfl, rfl⟩
    exact hv n' hc

end Matches

end Oglang
end Techuila
