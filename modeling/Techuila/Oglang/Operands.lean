import Mathlib.Data.List.Pairwise
import Techuila.Oglang.Representation

/-!
# Operands and addresses

* `Denotes`: the cell in which the value of an operand is, now or when it is read.
* `IRFunction.Stored`: a function with its name tables.
* `elementCode_goes`, `fieldCode_goes`: the code of an address.
-/

namespace Techuila
namespace Oglang

/-! ## Operands -/

/-- The operand is in the cell `v`: a variable in its own cell, a value in one from `k` on and
before `k'`. -/
def Denotes (F : Nat → Names) (d : Nat) (k k' : Int) (m : Memory) (v : Int) : Referent → Prop
  | .var name => (F d).cell (.var name) = some v
  | .datum x => (k ≤ v ∧ v < k') ∧ ∃ w, m d v = some w ∧ Represents F (d + 1) x w

namespace Denotes

variable {F : Nat → Names} {d : Nat} {k k' : Int} {s s' : Activations} {m m' : Memory} {v : Int}
  {x : Referent}

theorem mono (h : Denotes F d k k' m v x) {l l' : Int} (hl : l ≤ k) (hl' : k' ≤ l') :
    Denotes F d l l' m v x := by
  cases x with
  | var => exact h
  | datum => exact ⟨by have := h.1; omega, h.2⟩

/-- The value is not lost while later operands are evaluated. -/
theorem keep (h : Denotes F d k k' m v x) {l : Int} (hl : k' ≤ l)
    (hk : Keeps F (d + 1) (· < l) s m s' m') (hc : Clear F s d k k') :
    Denotes F d k k' m' v x := by
  cases x with
  | var => exact h
  | datum =>
    obtain ⟨⟨hv, hv'⟩, w, hm, hw⟩ := h
    refine ⟨⟨hv, hv'⟩, w, ?_, hw⟩
    rw [hk.kept d (Nat.lt_succ_self d) v (fun _ => hv'.trans_le hl), hm]
    intro ho
    have := hc v ho
    omega

theorem read (h : Denotes F d k k' m v x) (hs : Stores F (d + 1) s m) {y : Datum}
    (hy : x.read s d = some y) : ∃ w, m d v = some w ∧ Represents F (d + 1) y w := by
  cases x with
  | var name =>
    obtain ⟨c, w, hc, hm, hw⟩ := hs.contents d (Nat.lt_succ_self d) _ y hy
    cases hc.symm.trans h
    exact ⟨w, hm, hw⟩
  | datum =>
    cases hy
    exact h.2

theorem number (h : Denotes F d k k' m v x) (hs : Stores F (d + 1) s m) {b : BitVec 32}
    (hb : (x.read s d).bind Datum.int? = some b) : m d v = some (.int b) := by
  obtain ⟨y, hy, hb⟩ := Option.bind_eq_some_iff.mp hb
  obtain rfl := Datum.int?_eq_some.mp hb
  obtain ⟨w, hm, rfl⟩ := h.read hs hy
  exact hm

theorem address (h : Denotes F d k k' m v x) (hs : Stores F (d + 1) s m) {r : Nat × String}
    (hr : (x.read s d).bind Datum.ref? = some r) : r.1 < d + 1 ∧ ∃ p c, m d v = some (.ptr p) ∧
      p.depth = r.1 ∧ p.cell = some c ∧ (F r.1).cell (.var r.2) = some c := by
  obtain ⟨y, hy, hr⟩ := Option.bind_eq_some_iff.mp hr
  obtain rfl := Datum.ref?_eq_some.mp hr
  obtain ⟨w, hm, hlt, block, c, rfl, hb, hc⟩ := h.read hs hy
  exact ⟨hlt, _, c, hm, rfl, by simpa [Pointer.cell] using hb, hc⟩

end Denotes

/-! ## Addresses -/

namespace IRFunction

/-- The tables `T` name cells of the function. -/
structure Stored (f : IRFunction) (Y : Layouts) (T : Names) : Prop where
  tidy : ∃ D, T.Tidy Y D
  arrays : ∀ x cells, T.arrays.find x = some cells → cells ∈ f.arrayGroups
  structVars : ∀ x cells, T.structVars.find x = some cells → cells ∈ f.arrayGroups ∧
    ∃ structType fieldOrder, T.structVarTypes.find x = some structType ∧
      Y.structFieldOrder.find structType = some fieldOrder ∧ cells.length = fieldOrder.length
  groups : f.arrayGroups.flatten.Nodup
  labels : (codeLabels f.instructions).Nodup

section Field

variable {f : IRFunction} {Y : Layouts} {T U : Names} {x fieldName : String} {cells : List Int}
  {i : Nat} (hf : f.Stored Y U) (hT : T.Le U) (hi : IsField Y T x fieldName cells i)

include hT hi

/-- The place of a field that the lowering knows. -/
theorem field_eq {F : Nat → Names} {d : Nat} {s : Activations} {m : Memory} (hU : F d = U)
    (hs : Stores F (d + 1) s m) {p : Place} (hp : s.field Y d x fieldName = some p) :
    p = .field x i := by
  obtain ⟨structType, ht, hp⟩ := Option.bind_eq_some_iff.mp hp
  obtain ⟨fieldOrder, ho, hp⟩ := Option.bind_eq_some_iff.mp hp
  obtain ⟨j, hj, hp⟩ := Option.bind_eq_some_iff.mp hp
  cases hp
  obtain ⟨-, t, fo, ht', ho', hi'⟩ := hi
  have ht := (hs.structVars d (Nat.lt_succ_self d) x _ ht).1
  rw [hU] at ht
  cases ht.symm.trans (hT.structVarTypes _ _ ht')
  cases ho.symm.trans ho'
  cases hj.symm.trans hi'
  rfl

include hf

theorem Stored.field : U.structVars.find x = some cells ∧ cells ∈ f.arrayGroups ∧
    cells.length < maxCells ∧ i < cells.length ∧ Y.enumVariants.find x = none := by
  obtain ⟨hx, t, fo, ht, ho, hj⟩ := hi
  have hx := hT.structVars _ _ hx
  obtain ⟨hg, t', fo', ht', ho', hlen⟩ := hf.structVars _ _ hx
  cases ht'.symm.trans (hT.structVarTypes _ _ ht)
  cases ho'.symm.trans ho
  obtain ⟨D, hD⟩ := hf.tidy
  obtain ⟨hmax, hY⟩ := hD.structVars _ _ hx
  refine ⟨hx, hg, hmax, ?_, hY⟩
  rw [hlen]
  exact (List.idxOf?_eq_some_iff.mp hj).choose

end Field

/-- The address of the first cell of a group is that of the group. -/
theorem block_head {f : IRFunction} (hg : f.arrayGroups.flatten.Nodup) {group : List Int}
    (hmem : group ∈ f.arrayGroups) {v : Int} (hv : group.head? = some v) : f.block v = group := by
  have hsome : (f.arrayGroups.find? fun group => group.head? == some v).isSome :=
    List.find?_isSome.mpr ⟨group, hmem, by simp [hv]⟩
  obtain ⟨g, hfind⟩ := Option.isSome_iff_exists.mp hsome
  have hgv : g.head? = some v := beq_iff_eq.mp (List.find?_some hfind :)
  rw [block, hfind, Option.getD_some]
  by_contra hne
  have : Std.Symm (@List.Disjoint Int) := ⟨fun _ _ h => h.symm⟩
  exact (List.nodup_flatten.mp hg).2.forall (List.mem_of_find?_eq_some hfind) hmem hne
    (List.mem_of_mem_head? hgv) (List.mem_of_mem_head? hv)

/-- The block of a cell begins with the cell. -/
theorem block_zero (f : IRFunction) (v : Int) : (f.block v)[0]? = some v := by
  unfold block
  cases h : f.arrayGroups.find? fun group => group.head? == some v with
  | none => rfl
  | some group =>
    have hv : group.head? = some v := beq_iff_eq.mp (List.find?_some h :)
    rw [Option.getD_some, ← List.head?_eq_getElem?, hv]

section Address

variable {f : IRFunction} {C : Nat → Calls} {d : Nat} {V : List Value} {pc : Nat} {m : Memory}
  {code : List IRInstruction} {k : Int} {cells : List Int}

/-- The address of a cell of a group, with the offset in `u`. -/
theorem offset_goes (hg : f.arrayGroups.flatten.Nodup) (hmem : cells ∈ f.arrayGroups) {v v' u : Int}
    (h : f.CodeAt pc (.addressOfI32 v (cells.headD (-1)) :: .ptrSubI32 v' v u :: code))
    (hu : u ≠ v) {i : Nat} (hi : i < cells.length) {n : BitVec 32} (hn : n.toInt = 8 * i)
    (hm : m d u = some (.int n)) :
    ∃ w p, f.Goes C d V pc m (pc + 2) ((m.set d v w).set d v' (.ptr p)) ∧ p.depth = d ∧
      p.cell = cells[i]? := by
  have hblock : f.block (cells.headD (-1)) = cells := by
    refine block_head hg hmem ?_
    cases cells with
    | nil => cases hi
    | cons => rfl
  have hgo := (addressOfI32_goes (C := C) (V := V) h).trans
    (ptrSubI32_goes h.tail (Memory.set_self _ _ _ _) ((Memory.set_of_ne hu).trans hm))
  refine ⟨_, _, hgo, rfl, ?_⟩
  simp only [Pointer.cell, hblock, hn, Int.zero_add]
  rw [if_pos ⟨by omega, by omega⟩, show (8 * (i : Int) / 8).toNat = i by omega]

theorem toInt_mul_eight {i : BitVec 32} (hi : i.toNat < maxCells) :
    (i * BitVec.ofInt 32 8).toInt = 8 * i.toNat := by
  have h8 : (BitVec.ofInt 32 8).toNat = 8 := by decide
  unfold maxCells at hi
  rw [BitVec.toInt_eq_toNat_of_lt] <;> rw [BitVec.toNat_mul, h8, Nat.mod_eq_of_lt] <;> omega

section Element

variable (hmem : cells ∈ f.arrayGroups) (hlen : cells.length < maxCells) {index : Int}
  (h : f.CodeAt pc (elementCode cells index k ++ code)) {i : BitVec 32}
  (hm : m d index = some (.int i))

include hlen h hm

/-- An index that is out of bounds. -/
theorem elementCode_finishes (hi : ¬ i.toNat < cells.length) :
    f.Finishes C d V pc m .trapped := by
  refine boundsCheckI32_finishes h hm ?_
  unfold maxCells at hlen
  rw [BitVec.ofInt_natCast, BitVec.ult, BitVec.toNat_ofNat, Nat.mod_eq_of_lt (by omega)]
  exact decide_eq_false hi

include hmem

/-- An index in bounds: the address of the element is in `k + 3`. -/
theorem elementCode_goes (hg : f.arrayGroups.flatten.Nodup) (hindex : index < k)
    (hi : i.toNat < cells.length) :
    ∃ m' p, f.Goes C d V pc m (pc + 5) m' ∧ Scratch d k (k + 4) m m' ∧
      m' d (k + 3) = some (.ptr p) ∧ p.depth = d ∧ p.cell = cells[i.toNat]? := by
  have hult : i.ult (BitVec.ofInt 32 cells.length) = true := by
    unfold maxCells at hlen
    rw [BitVec.ofInt_natCast, BitVec.ult, BitVec.toNat_ofNat, Nat.mod_eq_of_lt (by omega)]
    exact decide_eq_true hi
  have hgo := (boundsCheckI32_goes (C := C) (V := V) h hm hult).trans
    ((constI32_goes h.tail).trans (binary_goes (by rfl) h.tail.tail
      ((Memory.set_of_ne (Int.ne_of_lt hindex)).trans hm) (Memory.set_self _ _ _ _) rfl))
  obtain ⟨w, p, hgo', hp⟩ := offset_goes hg hmem h.tail.tail.tail (by omega) hi
    (toInt_mul_eight (hi.trans hlen)) (Memory.set_self _ _ _ _)
  refine ⟨_, p, hgo.trans hgo', ?_, Memory.set_self _ _ _ _, hp⟩
  exact (((Scratch.refl.set le_rfl (by omega)).set (by omega) (by omega)).set (by omega)
    (by omega)).set (by omega) (by omega)

end Element

/-- The address of the field with the index `i` is in `k + 2`. -/
theorem fieldCode_goes (hg : f.arrayGroups.flatten.Nodup) (hmem : cells ∈ f.arrayGroups)
    (hlen : cells.length < maxCells) {i : Nat} (h : f.CodeAt pc (fieldCode cells i k ++ code))
    (hi : i < cells.length) :
    ∃ m' p, f.Goes C d V pc m (pc + 3) m' ∧ Scratch d k (k + 3) m m' ∧
      m' d (k + 2) = some (.ptr p) ∧ p.depth = d ∧ p.cell = cells[i]? := by
  have hn : (BitVec.ofInt 32 (i * 8)).toInt = 8 * i := by
    unfold maxCells at hlen
    rw [BitVec.toInt_ofInt, Int.bmod_eq_of_le (by omega) (by omega)]
    ring
  obtain ⟨w, p, hgo, hp⟩ := offset_goes (C := C) (V := V) hg hmem h.tail (by omega) hi hn
    (Memory.set_self m d k _)
  refine ⟨_, p, (constI32_goes h).trans hgo, ?_, Memory.set_self _ _ _ _, hp⟩
  exact ((Scratch.refl.set le_rfl (by omega)).set (by omega) (by omega)).set (by omega) (by omega)

end Address

end IRFunction

end Oglang
end Techuila
