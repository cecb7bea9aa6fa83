import Mathlib.Data.Int.Order.Basic
import Mathlib.Order.Basic
import Techuila.Oglang.Lowering

/-!
# The values of a lowered function

Which values a scope knows: `Scope.Ok` says that the name tables of a scope hold values below
`nextValue`, and that arrays and struct variables are groups of the function.

* `LowersExpr.bounds`: the value of an expression is below the next one.
* `LowersStmt.ok`, `LowersBlock.ok`: every scope of a lowered body is of this kind.
* `lower_ok`: so is the last one, for the groups of the whole function.
-/

namespace Techuila
namespace Oglang

/-- The tables and the groups that the function has so far belong together. -/
structure Scope.Ok (Y : Layouts) (groups : List (List Int)) (S : Scope) : Prop where
  nonneg : 0 ≤ S.nextValue
  vars : ∀ name v, S.names.vars.find name = some v → 0 ≤ v ∧ v < S.nextValue
  arrays : ∀ name elements, S.names.arrays.find name = some elements → elements ∈ groups
  structVars : ∀ name fields, S.names.structVars.find name = some fields → fields ∈ groups ∧
    ∃ structType fieldOrder, S.names.structVarTypes.find name = some structType ∧
      Y.structFieldOrder.find structType = some fieldOrder ∧ fields.length = fieldOrder.length
  values : ∀ group ∈ groups, ∀ v ∈ group, 0 ≤ v ∧ v < S.nextValue
  nodup : groups.flatten.Nodup

theorem mem_zeroCells {k v : Int} {n : Nat} : v ∈ zeroCells k n ↔ k ≤ v ∧ v < k + n := by
  rw [zeroCells, List.mem_map]
  constructor
  · rintro ⟨i, hi, rfl⟩
    have := List.mem_range.mp hi
    omega
  · intro h
    exact ⟨(v - k).toNat, List.mem_range.mpr (by omega), by omega⟩

theorem zeroCells_nodup (k : Int) (n : Nat) : (zeroCells k n).Nodup :=
  List.nodup_range.map fun i j h => by
    have h : k + (i : Int) = k + j := h
    omega

namespace Scope.Ok

variable {Y : Layouts} {groups : List (List Int)} {S : Scope}

/-- More values, the same names. -/
theorem mono (h : S.Ok Y groups) {k : Int} (hk : S.nextValue ≤ k) {n : Nat} :
    Scope.Ok Y groups ⟨S.names, k, n⟩ where
  nonneg := h.nonneg.trans hk
  vars name v hv := ⟨(h.vars name v hv).1, (h.vars name v hv).2.trans_le hk⟩
  arrays := h.arrays
  structVars := h.structVars
  values group hg v hv := ⟨(h.values group hg v hv).1, (h.values group hg v hv).2.trans_le hk⟩
  nodup := h.nodup

/-- A new group of fresh cells. -/
theorem addGroup (h : S.Ok Y groups) (n : Nat) :
    Scope.Ok Y (groups ++ [zeroCells S.nextValue n])
      ⟨S.names, S.nextValue + n, S.nextLabel⟩ where
  nonneg := by have := h.nonneg; show 0 ≤ S.nextValue + (n : Int); omega
  vars name v hv := by
    have := h.vars name v hv
    exact ⟨this.1, this.2.trans_le (by show S.nextValue ≤ S.nextValue + (n : Int); omega)⟩
  arrays name elements he := List.mem_append_left _ (h.arrays name elements he)
  structVars name fields hf :=
    ⟨List.mem_append_left _ (h.structVars name fields hf).1, (h.structVars name fields hf).2⟩
  values group hg v hv := by
    show 0 ≤ v ∧ v < S.nextValue + (n : Int)
    have h0 := h.nonneg
    rcases List.mem_append.mp hg with hg | hg
    · have := h.values group hg v hv
      omega
    · obtain rfl := List.mem_singleton.mp hg
      have := mem_zeroCells.mp hv
      omega
  nodup := by
    rw [List.flatten_append, List.flatten_singleton]
    refine List.nodup_append.mpr ⟨h.nodup, zeroCells_nodup _ _, ?_⟩
    rintro v hv u hu rfl
    obtain ⟨group, hg, hv⟩ := List.mem_flatten.mp hv
    have := (h.values group hg v hv).2
    have := (mem_zeroCells.mp hu).1
    omega

end Scope.Ok

section Bounds

variable {Y : Layouts} {T : Names}

/-- The variables of `T` are below `k`. -/
def VarsBelow (T : Names) (k : Int) : Prop :=
  ∀ name v, T.vars.find name = some v → 0 ≤ v ∧ v < k

theorem VarsBelow.mono {k k' : Int} (h : VarsBelow T k) (hk : k ≤ k') : VarsBelow T k' :=
  fun name v hv => ⟨(h name v hv).1, (h name v hv).2.trans_le hk⟩

mutual

/-- Values are counted upwards, and that of an expression is one of those used so far. -/
theorem LowersExpr.bounds {k : Int} {e : Expr} {code : List IRInstruction} {taken : List Int}
    {v k' : Int} : LowersExpr Y T k e code taken v k' → 0 ≤ k → VarsBelow T k →
      k ≤ k' ∧ 0 ≤ v ∧ v < k'
  | .integer, h0, _ | .addressOf _, h0, _ | .enumVariant _ _ _, h0, _ | .asm, h0, _ => by
    omega
  | .variable hv, h0, hT => by
    have := hT _ _ hv
    omega
  | .unary h, h0, hT => by
    have := h.bounds h0 hT
    omega
  | .deref h, h0, hT => by
    have := h.bounds h0 hT
    omega
  | .index _ h, h0, hT => by
    have := h.bounds h0 hT
    omega
  | .fieldAccess _, h0, _ => by
    omega
  | .call h, h0, hT => by
    have := (h.bounds h0 hT).1
    omega
  | .binary _ h₁ h₂, h0, hT => by
    have h₁ := h₁.bounds h0 hT
    have := h₂.bounds (h0.trans h₁.1) (hT.mono h₁.1)
    omega

theorem LowersArgs.bounds {k : Int} {args : List Expr} {code : List IRInstruction}
    {taken vs : List Int} {k' : Int} : LowersArgs Y T k args code taken vs k' → 0 ≤ k →
      VarsBelow T k → k ≤ k' ∧ ∀ v ∈ vs, 0 ≤ v ∧ v < k'
  | .nil, _, _ => ⟨le_rfl, fun _ h => absurd h List.not_mem_nil⟩
  | .cons h₁ h₂, h0, hT => by
    have h₁ := h₁.bounds h0 hT
    have h₂ := h₂.bounds (h0.trans h₁.1) (hT.mono h₁.1)
    exact ⟨h₁.1.trans h₂.1, List.forall_mem_cons.mpr ⟨⟨h₁.2.1, h₁.2.2.trans_le h₂.1⟩, h₂.2⟩⟩

end

end Bounds

section Ok

variable {Y : Layouts}

theorem Scope.Ok.expr {groups : List (List Int)} {S : Scope} (hS : S.Ok Y groups) {e : Expr}
    {code : List IRInstruction} {taken : List Int} {v k : Int}
    (h : LowersExpr Y S.names S.nextValue e code taken v k) :
    S.nextValue ≤ k ∧ 0 ≤ v ∧ v < k := h.bounds hS.nonneg hS.vars

mutual

theorem LowersStmt.ok {groups : List (List Int)} {S S' : Scope} {statement : Statement}
    {A : Fragment} : LowersStmt Y S statement A S' → S.Ok Y groups →
      S.nextValue ≤ S'.nextValue ∧ S'.Ok Y (groups ++ A.groups)
  | .letStmt h, hS => by
    obtain ⟨hk, hv⟩ := hS.expr h
    have hS' := hS.mono hk (n := S.nextLabel)
    rw [List.append_nil]
    refine ⟨hk, { hS' with vars := fun name u hu => ?_ }⟩
    rw [Table.find_insert] at hu
    split at hu
    · cases hu; exact hv
    · exact hS'.vars name u hu
  | .assignStmt _ h, hS => by
    rw [List.append_nil]
    exact ⟨(hS.expr h).1, hS.mono (hS.expr h).1⟩
  | .storeStmt h₁ h₂, hS => by
    have h₁ := hS.expr h₁
    have h₂ := (hS.mono (n := S.nextLabel) h₁.1).expr h₂
    rw [List.append_nil]
    exact ⟨h₁.1.trans h₂.1, hS.mono (h₁.1.trans h₂.1)⟩
  | .arrayDecl, hS => by
    refine ⟨Int.le_add_of_nonneg_right (Int.natCast_nonneg _), { hS.addGroup _ with
      arrays := fun name elements he => ?_ }⟩
    rw [Table.find_insert] at he
    split at he
    · cases he
      exact List.mem_append_right _ (List.mem_singleton_self _)
    · exact List.mem_append_left _ (hS.arrays name elements he)
  | .structVarDecl ho, hS => by
    refine ⟨Int.le_add_of_nonneg_right (Int.natCast_nonneg _), { hS.addGroup _ with
      structVars := fun name fields hf => ?_ }⟩
    rw [Table.find_insert] at hf
    simp only [Table.find_insert]
    split at hf
    · rename_i hn
      cases hf
      exact ⟨List.mem_append_right _ (List.mem_singleton_self _), _, _, if_pos hn, ho,
        zeroCells_length _ _⟩
    · rename_i hn
      obtain ⟨hg, structType, fieldOrder, ht, hY, hl⟩ := hS.structVars name fields hf
      exact ⟨List.mem_append_left _ hg, structType, fieldOrder, (if_neg hn).trans ht, hY, hl⟩
  | .fieldStore _ h, hS => by
    have h := (hS.mono (n := S.nextLabel) (k := S.nextValue + 3) (by omega)).expr h
    have hk : S.nextValue ≤ _ := (by omega : S.nextValue ≤ S.nextValue + 3).trans h.1
    rw [List.append_nil]
    exact ⟨hk, hS.mono hk⟩
  | .indexStore _ h₁ h₂, hS => by
    have h₁ := hS.expr h₁
    have hk := h₁.1.trans (Int.le_add_of_nonneg_right (b := 4) (by omega))
    have h₂ := (hS.mono (n := S.nextLabel) hk).expr h₂
    rw [List.append_nil]
    exact ⟨hk.trans h₂.1, hS.mono (hk.trans h₂.1)⟩
  | .returnStmt h, hS => by
    rw [List.append_nil]
    exact ⟨(hS.expr h).1, hS.mono (hS.expr h).1⟩
  | .whileStmt h hb, hS => by
    have h := hS.expr h
    have hb := hb.ok (hS.mono h.1)
    exact ⟨h.1.trans hb.1, hb.2⟩
  | .ifThen h hb, hS => by
    have h := hS.expr h
    have hb := hb.ok (hS.mono h.1)
    exact ⟨h.1.trans hb.1, hb.2⟩
  | .ifElse _ h hb hb', hS => by
    have h := hS.expr h
    have hb := hb.ok (hS.mono h.1)
    have hb' := hb'.ok hb.2
    rw [List.append_assoc] at hb'
    exact ⟨h.1.trans (hb.1.trans hb'.1), hb'.2⟩

theorem LowersBlock.ok {groups : List (List Int)} {S S' : Scope} {body : List Statement}
    {A : Fragment} : LowersBlock Y S body A S' → S.Ok Y groups →
      S.nextValue ≤ S'.nextValue ∧ S'.Ok Y (groups ++ A.groups)
  | .nil, hS => by
    rw [List.append_nil]
    exact ⟨le_rfl, hS⟩
  | .cons hs hb, hS => by
    have hs := hs.ok hS
    have hb := hb.ok hs.2
    rw [Fragment.append_eq, ← List.append_assoc]
    exact ⟨hs.1.trans hb.1, hb.2⟩

end

theorem paramVars_bounds (params : List Param) {i : Nat} {t : Table String Int}
    (ht : ∀ name v, t.find name = some v → 0 ≤ v ∧ v < (i : Int)) :
    ∀ name v, (IRLowerer.paramVars i t params).find name = some v →
      0 ≤ v ∧ v < ((i + params.length : Nat) : Int) := by
  induction params generalizing i t with
  | nil => exact ht
  | cons param params ih =>
    intro name v hv
    have := ih (i := i + 1) (t := t.insert param.name i) ?_ name v hv
    · rw [List.length_cons]
      omega
    · intro name v hv
      rw [Table.find_insert] at hv
      split at hv
      · cases hv
        omega
      · have := ht name v hv
        omega

theorem bodyScope_ok (params : List Param) : (IRLowerer.bodyScope params).Ok Y [] where
  nonneg := Int.natCast_nonneg _
  vars name v hv := by
    have := paramVars_bounds params (i := 0) (t := []) (fun _ _ h => by cases h) name v hv
    rwa [Nat.zero_add] at this
  arrays _ _ h := by cases h
  structVars _ _ h := by cases h
  values _ h := absurd h List.not_mem_nil
  nodup := List.nodup_nil

end Ok

theorem lower_ok {function : Function} {Y : Layouts} {ir : IRFunction}
    (h : IRLowerer.lower function Y.structFieldOrder Y.enumVariants = .ok ir) :
    ir.arrayGroups.flatten.Nodup := by
  obtain ⟨A, S, hb, rfl⟩ := IRLowerer.lower_lowers h
  exact (hb.ok (bodyScope_ok _)).2.nodup

end Oglang
end Techuila
