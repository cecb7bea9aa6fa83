import Mathlib.Logic.Relation
import Techuila.Lib.X86Stack

/-!
# A machine that executes an assembly text

The whole text is in memory: a call pushes the address behind it, a return pops an address and goes
on there, and a jump goes to the first label of that name. Raw assembly has no meaning here.

* `Image.step`, `Image.exec`: one step, and the exit status of a run.
* `Image.At`: a piece of the text. `At.runs`, `At.jmp`, `At.call`, `At.ret`: steps in a piece.
-/

namespace Techuila
namespace X86

/-- An assembly text with the address of each line. Labels have no bytes, instructions have. -/
structure Image where
  lines : List Line
  address : Nat → Address
  behind : ∀ {p i q}, lines[p]? = some (.instr i) → q ≤ p → address q ≠ address (p + 1)

/-- The next line and the state. -/
structure Config where
  pc : Nat
  state : State

inductive Result where
  | next (c : Config)
  | exited (status : BitVec 32)
  | stuck

namespace Image

/-- The number of instructions before a line. -/
def instrsBefore (lines : List Line) (p : Nat) : Nat :=
  (lines.take p).countP fun line => match line with
    | .instr _ => true
    | _ => false

theorem instrsBefore_le (lines : List Line) {p q : Nat} (h : q ≤ p) :
    instrsBefore lines q ≤ instrsBefore lines p :=
  (List.take_sublist_take_left h).countP_le

theorem instrsBefore_succ {lines : List Line} {p : Nat} {i : Instr}
    (h : lines[p]? = some (.instr i)) :
    instrsBefore lines (p + 1) = instrsBefore lines p + 1 := by
  rw [instrsBefore, List.take_add_one, h, List.countP_append]
  rfl

/-- The text with the instructions one byte apart. -/
def ofLines (lines : List Line) (h : lines.length < 2 ^ 64) : Image where
  lines := lines
  address p := BitVec.ofNat 64 (instrsBefore lines p)
  behind := by
    intro p i q hp hq e
    have hle := instrsBefore_le lines hq
    have hsucc := instrsBefore_succ hp
    have hlen : instrsBefore lines (p + 1) ≤ lines.length :=
      List.countP_le_length.trans (List.length_take_le' _ _)
    have e := congrArg BitVec.toNat e
    rw [BitVec.toNat_ofNat, BitVec.toNat_ofNat, Nat.mod_eq_of_lt (by omega),
      Nat.mod_eq_of_lt (by omega)] at e
    omega

variable (img : Image)

/-- The first line that defines the label. -/
def position (l : String) : Option Nat := img.lines.findIdx? fun line => line.label? == some l

def goto (l : String) (s : State) : Result :=
  match img.position l with
  | none => .stuck
  | some p => .next ⟨p, s⟩

/-- The first line at the address. -/
def lineAt (a : Address) : Option Nat :=
  (List.range (img.lines.length + 1)).find? fun p => img.address p == a

def step (c : Config) : Result :=
  match img.lines[c.pc]? with
  | none => .stuck
  | some (.raw _) => .stuck
  | some (.instr i) =>
    match i with
    | .jmp l => img.goto l c.state
    | .jz l => if c.state.zero then img.goto l c.state else .next ⟨c.pc + 1, c.state⟩
    | .jb l => if c.state.carry then img.goto l c.state else .next ⟨c.pc + 1, c.state⟩
    | .call f => img.goto f (c.state.push (img.address (c.pc + 1)))
    | .ret =>
      match img.lineAt (c.state.load64 (c.state.get64 .rsp)) with
      | none => .stuck
      | some p => .next ⟨p, c.state.set64 .rsp (c.state.get64 .rsp + 8)⟩
    | .syscall => if c.state.get32 .rax = 60 then .exited (c.state.get32 .rdi) else .stuck
    | i =>
      match i.exec c.state with
      | none => .stuck
      | some s => .next ⟨c.pc + 1, s⟩
  | some _ => .next ⟨c.pc + 1, c.state⟩

/-- The exit status of a run of at most `n` steps. -/
def exec : Nat → Config → Option (BitVec 32)
  | 0, _ => none
  | n + 1, c =>
    match img.step c with
    | .next c' => exec n c'
    | .exited status => some status
    | .stuck => none

/-- Some steps lead from `c` to `c'`. -/
def Steps : Config → Config → Prop := Relation.ReflTransGen fun c c' => img.step c = .next c'

/-- The run from `c` on ends with the exit status. -/
def Exits (c : Config) (status : BitVec 32) : Prop := ∃ n, img.exec n c = some status

variable {img}

theorem Exits.of_step {c c' : Config} {status : BitVec 32} (h : img.step c = .next c')
    (h' : img.Exits c' status) : img.Exits c status := by
  obtain ⟨n, hn⟩ := h'
  exact ⟨n + 1, by rw [exec, h]; exact hn⟩

theorem Exits.of_steps {c c' : Config} {status : BitVec 32} (h : img.Steps c c')
    (h' : img.Exits c' status) : img.Exits c status := by
  induction h using Relation.ReflTransGen.head_induction_on with
  | refl => exact h'
  | head hs _ ih => exact .of_step hs ih

/-! ## Pieces of the text -/

variable (img) in
/-- The lines stand in the text from `pc` on. -/
def At (pc : Nat) (lines : List Line) : Prop := lines <+: img.lines.drop pc

namespace At

variable {pc : Nat} {a b : List Line} {line : Line}

theorem left (h : img.At pc (a ++ b)) : img.At pc a := (List.prefix_append a b).trans h

theorem right (h : img.At pc (a ++ b)) : img.At (pc + a.length) b := by
  obtain ⟨t, ht⟩ := h
  refine ⟨t, ?_⟩
  rw [← List.drop_drop, ← ht, List.append_assoc, List.drop_left]

theorem head (h : img.At pc (line :: b)) : img.lines[pc]? = some line := by
  obtain ⟨t, ht⟩ := h
  rw [← List.head?_drop, ← ht]
  rfl

theorem tail (h : img.At pc (line :: b)) : img.At (pc + 1) b := h.right (a := [line])

theorem runs (h : img.At pc (a ++ b)) {s s' : State} (hr : Runs a s s') :
    img.Steps ⟨pc, s⟩ ⟨pc + a.length, s'⟩ := by
  induction hr generalizing pc with
  | nil => exact .refl
  | @cons i s s₁ s' lines hi _ ih =>
    have hstep : img.step ⟨pc, s⟩ = .next ⟨pc + 1, s₁⟩ := by
      simp only [step, h.head]
      cases i <;> first | (simp only [Instr.exec] at hi; cases hi; done) | simp only [hi]
    refine .head hstep ?_
    have e : pc + (Line.instr i :: lines).length = pc + 1 + lines.length := by
      rw [List.length_cons]
      omega
    rw [e]
    exact ih h.tail

theorem skip (h : img.At pc (line :: b)) (hl : ∀ i, line ≠ .instr i) (hr : ∀ t, line ≠ .raw t)
    (s : State) : img.Steps ⟨pc, s⟩ ⟨pc + 1, s⟩ := by
  refine .single ?_
  cases line with
  | instr i => exact absurd rfl (hl i)
  | raw t => exact absurd rfl (hr t)
  | label | global | text | blank => simp only [step, h.head]

end At

/-! ## Labels -/

/-- Where no two lines define the same label, a label has one position. -/
theorem position_eq {lines : List Line} (hu : (labels lines).Nodup) {p : Nat} {l : String}
    (h : lines[p]? = some (.label l)) :
    lines.findIdx? (fun line => line.label? == some l) = some p := by
  induction lines generalizing p with
  | nil => cases h
  | cons line lines ih =>
    cases p with
    | zero =>
      cases h
      simp [List.findIdx?_cons]
    | succ p =>
      rw [List.getElem?_cons_succ] at h
      have hmem : l ∈ labels lines :=
        List.mem_filterMap.mpr ⟨_, List.mem_of_getElem? h, rfl⟩
      have hne : line.label? ≠ some l := by
        intro e
        rw [labels, List.filterMap_cons_some e] at hu
        exact (List.nodup_cons.mp hu).1 hmem
      have hu' : (labels lines).Nodup := by
        refine hu.sublist ?_
        rw [labels, labels]
        exact (List.sublist_cons_self line lines).filterMap _
      rw [List.findIdx?_cons, ih hu' h, if_neg (by rwa [beq_iff_eq])]
      rfl

/-- A jump to a label of the text gets there. -/
theorem goto_eq (hu : (labels img.lines).Nodup) {p : Nat} {l : String} {b : List Line}
    (h : img.At p (.label l :: b)) (s : State) : img.goto l s = .next ⟨p, s⟩ := by
  rw [goto, position, position_eq hu h.head]

namespace At

variable {pc : Nat} {b : List Line}

theorem jmp (hu : (labels img.lines).Nodup) {p : Nat} {l : String} {b' : List Line}
    (h : img.At pc (.instr (.jmp l) :: b)) (hl : img.At p (.label l :: b')) (s : State) :
    img.Steps ⟨pc, s⟩ ⟨p, s⟩ := by
  refine .single ?_
  simp only [step, h.head]
  exact goto_eq hu hl s

theorem jz (hu : (labels img.lines).Nodup) {p : Nat} {l : String} {b' : List Line}
    (h : img.At pc (.instr (.jz l) :: b)) (hl : img.At p (.label l :: b')) {s : State}
    (hz : s.zero = true) : img.Steps ⟨pc, s⟩ ⟨p, s⟩ := by
  refine .single ?_
  simp only [step, h.head, goto_eq hu hl, hz, if_true]

theorem jz_next {l : String} (h : img.At pc (.instr (.jz l) :: b)) {s : State}
    (hz : s.zero = false) : img.Steps ⟨pc, s⟩ ⟨pc + 1, s⟩ := by
  refine .single ?_
  simp only [step, h.head, hz, Bool.false_eq_true, if_false]

theorem jb (hu : (labels img.lines).Nodup) {p : Nat} {l : String} {b' : List Line}
    (h : img.At pc (.instr (.jb l) :: b)) (hl : img.At p (.label l :: b')) {s : State}
    (hc : s.carry = true) : img.Steps ⟨pc, s⟩ ⟨p, s⟩ := by
  refine .single ?_
  simp only [step, h.head, goto_eq hu hl, hc, if_true]

theorem jb_next {l : String} (h : img.At pc (.instr (.jb l) :: b)) {s : State}
    (hc : s.carry = false) : img.Steps ⟨pc, s⟩ ⟨pc + 1, s⟩ := by
  refine .single ?_
  simp only [step, h.head, hc, Bool.false_eq_true, if_false]

/-- The exit system call. -/
theorem exits (h : img.At pc (.instr .syscall :: b)) {s : State} (hs : s.get32 .rax = 60) :
    img.Exits ⟨pc, s⟩ (s.get32 .rdi) := by
  refine ⟨1, ?_⟩
  simp only [exec, step, h.head, hs, if_true]

theorem call (hu : (labels img.lines).Nodup) {p : Nat} {f : String} {b' : List Line}
    (h : img.At pc (.instr (.call f) :: b)) (hf : img.At p (.label f :: b')) (s : State) :
    img.Steps ⟨pc, s⟩ ⟨p, s.push (img.address (pc + 1))⟩ := by
  refine .single ?_
  simp only [step, h.head]
  exact goto_eq hu hf _

/-- A return to the address behind a call. -/
theorem ret (h : img.At pc (.instr .ret :: b)) {p : Nat} {i : Instr}
    (hp : img.lines[p]? = some (.instr i)) {s : State}
    (ha : s.load64 (s.regs .rsp) = img.address (p + 1)) :
    img.Steps ⟨pc, s⟩ ⟨p + 1, s.set64 .rsp (s.regs .rsp + 8)⟩ := by
  have hlt : p < img.lines.length := (List.getElem?_eq_some_iff.mp hp).1
  have e : img.lineAt (img.address (p + 1)) = some (p + 1) := by
    rw [lineAt, List.find?_range_eq_some]
    refine ⟨beq_self_eq_true _, by rw [List.mem_range]; omega, fun q hq => ?_⟩
    rw [Bool.not_eq_true', beq_eq_false_iff_ne]
    exact img.behind hp (Nat.lt_succ_iff.mp hq)
  refine .single ?_
  simp only [step, h.head, State.get64, ha, e]

end At

end Image

end X86
end Techuila
