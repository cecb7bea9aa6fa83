import Mathlib.Logic.Relation
import Techuila.Oglang.Driver
import Techuila.Oglang.Labels

/-!
# Checked functions return

Control never passes the last instruction of a checked function, whatever the branches do. The
checker looks at the last statement of each block; what it says about control is `Encloses`: from
the first instruction of the block's code, control reaches no position behind the code.

* `CodeAt.stays`: control leaves the code of any statement only at its end.
* `LowersBlock.encloses`: it does not leave the code of a block that always returns.
* `lower_returns`: executions of a function end at a return or a failed bounds check, and every
  jump has one target.
-/

namespace Techuila
namespace Oglang

namespace IRFunction

/-- Some execution, for some outcomes of its branches, comes from the first instruction to the one
at `i`. -/
def Reaches (f : IRFunction) (i : Nat) : Prop := Relation.ReflTransGen f.Succ 0 i

/-- An execution may end at `i`: no instruction follows, or a bounds check fails. -/
def Stops (f : IRFunction) (i : Nat) : Prop :=
  (∀ j, ¬ f.Succ i j) ∨ ∃ inst, f.instructions[i]? = some inst ∧ inst.opcode = .boundsCheckI32

/-- Control stays in the function until a return or a failed bounds check. -/
structure Returns (f : IRFunction) : Prop where
  inside : ∀ i, f.Reaches i → i < f.instructions.length
  stops : ∀ i, f.Reaches i → f.Stops i → ∃ inst, f.instructions[i]? = some inst ∧
    (inst.opcode = .returnI32 ∨ inst.opcode = .boundsCheckI32)
  targets : ∀ inst ∈ f.instructions, inst.opcode = .jump ∨ inst.opcode = .jumpIfZero →
    (codeLabels f.instructions).count inst.label = 1

/-! ## Code in a function -/

/-- The code stands in the function from position `lo` on. -/
def CodeAt (f : IRFunction) (lo : Nat) (code : List IRInstruction) : Prop :=
  ∀ k inst, code[k]? = some inst → f.instructions[lo + k]? = some inst

namespace CodeAt

variable {f : IRFunction} {lo : Nat}

theorem head {inst : IRInstruction} {code : List IRInstruction} (h : f.CodeAt lo (inst :: code)) :
    f.instructions[lo]? = some inst := h 0 inst rfl

theorem tail {inst : IRInstruction} {code : List IRInstruction} (h : f.CodeAt lo (inst :: code)) :
    f.CodeAt (lo + 1) code := by
  intro k i hk
  rw [Nat.add_assoc, Nat.add_comm 1 k]
  exact h (k + 1) i hk

theorem left {a b : List IRInstruction} (h : f.CodeAt lo (a ++ b)) : f.CodeAt lo a :=
  fun k inst hk => h k inst (by rw [List.getElem?_append_left (List.getElem?_eq_some_iff.mp hk).1, hk])

theorem right {a b : List IRInstruction} (h : f.CodeAt lo (a ++ b)) :
    f.CodeAt (lo + a.length) b := by
  intro k inst hk
  rw [Nat.add_assoc]
  refine h (a.length + k) inst ?_
  rw [List.getElem?_append_right (Nat.le_add_right _ _), Nat.add_sub_cancel_left, hk]

end CodeAt

/-- A label names one position. -/
theorem codeLabels_unique {code : List IRInstruction} (h : (codeLabels code).Nodup) {i j : Nat}
    {a b : IRInstruction} (hi : code[i]? = some a) (ha : a.opcode = .label)
    (hj : code[j]? = some b) (hb : b.opcode = .label) (hab : a.label = b.label) : i = j := by
  have hmem : ∀ {code : List IRInstruction} {k : Nat} {c : IRInstruction}, code[k]? = some c →
      c.opcode = .label → c.label ∈ codeLabels code := fun hk hc =>
    List.mem_map.mpr ⟨_, List.mem_filter.mpr ⟨List.mem_of_getElem? hk, decide_eq_true hc⟩, rfl⟩
  induction code generalizing i j with
  | nil => cases hi
  | cons inst code ih =>
    rw [codeLabels_cons] at h
    obtain ⟨-, hcode, hdis⟩ := List.nodup_append.mp h
    cases i with
    | zero =>
      cases j with
      | zero => rfl
      | succ j =>
        cases hi
        exact absurd hab (hdis _ (by rw [if_pos ha]; exact List.mem_singleton_self _) _ (hmem hj hb))
    | succ i =>
      cases j with
      | zero =>
        cases hj
        exact absurd hab.symm
          (hdis _ (by rw [if_pos hb]; exact List.mem_singleton_self _) _ (hmem hi ha))
      | succ j => exact congrArg (· + 1) (ih hcode hi hj)

/-- From the positions between `lo` and `hi`, control goes to these or to `hi`. -/
def Stays (f : IRFunction) (lo hi : Nat) : Prop :=
  ∀ i j, lo ≤ i → i < hi → f.Succ i j → lo ≤ j ∧ j ≤ hi

/-- The jumps of the code go to its own labels, so that control leaves it at its end. -/
theorem CodeAt.stays {f : IRFunction} (hu : (codeLabels f.instructions).Nodup) {lo : Nat}
    {code : List IRInstruction} (h : f.CodeAt lo code) (ht : codeTargets code ⊆ codeLabels code) :
    f.Stays lo (lo + code.length) := by
  intro i j hlo hi hs
  cases hs with
  | next _ _ _ => omega
  | @jump inst _ hinst hop hl =>
    obtain ⟨k, rfl⟩ := Nat.le.dest hlo
    have hk : code[k]? = some inst := by
      have hk : k < code.length := by omega
      rw [← hinst, List.getElem?_eq_getElem hk, h k _ (List.getElem?_eq_getElem hk)]
    have hmem : inst.label ∈ codeTargets code :=
      List.mem_map.mpr ⟨_, List.mem_filter.mpr ⟨List.mem_of_getElem? hk, decide_eq_true hop⟩, rfl⟩
    obtain ⟨target, htarget, hlabel⟩ := List.mem_map.mp (ht hmem)
    obtain ⟨hm, hop'⟩ := List.mem_filter.mp htarget
    obtain ⟨m, hm⟩ := List.mem_iff_getElem?.mp hm
    have hlt := (List.getElem?_eq_some_iff.mp hm).1
    have e : lo + m = j := codeLabels_unique hu (h m _ hm) (of_decide_eq_true hop') hl rfl hlabel
    omega

/-! ## Control that does not leave -/

/-- Control that starts at `lo` stays before `hi`. -/
def Encloses (f : IRFunction) (lo hi : Nat) : Prop :=
  ∀ i, Relation.ReflTransGen f.Succ lo i → i < hi

theorem Encloses.mono {f : IRFunction} {lo hi hi' : Nat} (h : f.Encloses lo hi) (hle : hi ≤ hi') :
    f.Encloses lo hi' := fun i hi => (h i hi).trans_le hle

theorem Encloses.of_succ {f : IRFunction} {lo hi : Nat} (hlt : lo < hi)
    (h : ∀ j, f.Succ lo j → f.Encloses j hi) : f.Encloses lo hi := by
  intro i hi
  rcases hi.cases_head with rfl | ⟨j, hj, hji⟩
  · exact hlt
  · exact h j hj i hji

/-- Code that control leaves only at its end, before code that it does not leave. -/
theorem Stays.encloses {f : IRFunction} {lo mid hi : Nat} (hs : f.Stays lo mid)
    (hle : lo ≤ mid) (h : f.Encloses mid hi) : f.Encloses lo hi := by
  have hmid := h mid .refl
  have hall : ∀ i, Relation.ReflTransGen f.Succ lo i →
      (lo ≤ i ∧ i < mid) ∨ Relation.ReflTransGen f.Succ mid i := by
    intro i hi
    induction hi with
    | refl =>
      rcases hle.lt_or_eq with hlt | rfl
      · exact .inl ⟨le_rfl, hlt⟩
      · exact .inr .refl
    | tail _ hij ih =>
      rcases ih with ⟨hlo, hlt⟩ | hr
      · obtain ⟨hlo', hle'⟩ := hs _ _ hlo hlt hij
        rcases hle'.lt_or_eq with hlt' | rfl
        · exact .inl ⟨hlo', hlt'⟩
        · exact .inr .refl
      · exact .inr (hr.tail hij)
  intro i hi
  rcases hall i hi with ⟨-, hlt⟩ | hr
  · exact hlt.trans hmid
  · exact h i hr

end IRFunction

/-! ## Blocks that always return -/

theorem encloses_returnI32 {f : IRFunction} {lo : Nat} {v : Int}
    (h : f.instructions[lo]? = some (.returnI32 v)) :
    f.Encloses lo (lo + 1) := by
  refine .of_succ (Nat.lt_succ_self _) fun j hj => ?_
  cases hj with
  | next hi _ hne =>
    rw [h] at hi
    cases hi
    exact absurd rfl hne
  | jump hi hop _ =>
    rw [h] at hi
    cases hi
    rcases hop with e | e <;> cases e

theorem encloses_labelAt {f : IRFunction} {lo hi : Nat} {l : String}
    (h : f.instructions[lo]? = some (.labelAt l)) (hlt : lo < hi) (hrest : f.Encloses (lo + 1) hi) : f.Encloses lo hi := by
  refine .of_succ hlt fun j hj => ?_
  cases hj with
  | next _ _ _ => exact hrest
  | jump hi hop _ =>
    rw [h] at hi
    cases hi
    rcases hop with e | e <;> cases e

section Encloses

variable {Y : Layouts} {f : IRFunction} (hu : (codeLabels f.instructions).Nodup)

include hu

/-- Straight code in front of code that control does not leave. -/
theorem encloses_straight {code : List IRInstruction} (h : Straight code) {lo hi : Nat}
    (hat : f.CodeAt lo code) (hrest : f.Encloses (lo + code.length) hi) : f.Encloses lo hi :=
  (hat.stays hu (by rw [h.codeTargets]; exact List.nil_subset _)).encloses
    (Nat.le_add_right _ _) hrest

/-- Both ways on from a branch. -/
theorem encloses_jumpIfZero {lo hi k : Nat} {v : Int} {l : String}
    (h : f.instructions[lo]? = some (.jumpIfZero v l)) (hl : f.LabelAt l k) (hlt : lo < hi)
    (hnext : f.Encloses (lo + 1) hi) (hjump : f.Encloses k hi) : f.Encloses lo hi := by
  refine .of_succ hlt fun j hj => ?_
  cases hj with
  | next _ _ _ => exact hnext
  | jump hi _ hl' =>
    rw [h] at hi
    cases hi
    obtain rfl : k = j := IRFunction.codeLabels_unique hu hl rfl hl' rfl rfl
    exact hjump

mutual

theorem LowersStmt.encloses {S S' : Scope} {statement : Statement} {A : Fragment} :
    LowersStmt Y S statement A S' → alwaysReturns statement = true → ∀ {lo : Nat},
      f.CodeAt lo A.code → f.Encloses lo (lo + A.code.length)
  | .returnStmt h, _, lo, hat => by
    refine encloses_straight hu h.straight hat.left ?_
    rw [List.length_append, ← Nat.add_assoc]
    exact encloses_returnI32 hat.right.head
  | .ifElse (B := B) he h hb hb', hret, lo, hat => by
    rw [alwaysReturns, Bool.and_eq_true, Bool.and_eq_true] at hret
    obtain ⟨⟨-, hthen⟩, helse⟩ := hret
    refine encloses_straight hu h.straight hat.left ?_
    have hbranch := hat.right
    have hthenAt := hbranch.tail.left
    have helseAt := hbranch.tail.right.tail
    refine encloses_jumpIfZero hu hbranch.head helseAt.head ?_ ?_ ?_
    · simp only [List.length_append, List.length_cons]
      omega
    · refine (hb.encloses hthen hthenAt).mono ?_
      simp only [List.length_append, List.length_cons]
      omega
    · refine encloses_labelAt helseAt.head ?_ ((hb'.encloses helse helseAt.tail.left).mono ?_)
      · simp only [List.length_append, List.length_cons]
        omega
      · simp only [List.length_append, List.length_cons]
        omega
  | .ifThen h hb, hret, _, _ => by
    rw [alwaysReturns] at hret
    cases hret

/-- Control does not leave the code of a block whose last statement always returns. -/
theorem LowersBlock.encloses {S S' : Scope} {body : List Statement} {A : Fragment} :
    LowersBlock Y S body A S' → blockAlwaysReturns body = true → ∀ {lo : Nat},
      f.CodeAt lo A.code → f.Encloses lo (lo + A.code.length)
  | @LowersBlock.cons _ _ _ [] A _ B _ hs hb, hret, lo, hat => by
    have hlast := hs.encloses hret (hat.left (a := A.code) (b := B.code))
    refine hlast.mono ?_
    rw [Fragment.append_eq, List.length_append]
    omega
  | @LowersBlock.cons _ _ _ (next :: body) A _ B _ hs hb, hret, lo, hat => by
    have hstays := (hat.left (a := A.code) (b := B.code)).stays hu hs.targets
    have hrest := hb.encloses hret (hat.right (a := A.code) (b := B.code))
    refine hstays.encloses (Nat.le_add_right _ _) ?_
    rw [Nat.add_assoc] at hrest
    rw [Fragment.append_eq, List.length_append]
    exact hrest

end

end Encloses

/-! ## Targets -/

/-- A label instruction has nothing but its name. -/
def PlainLabels (code : List IRInstruction) : Prop :=
  ∀ inst ∈ code, inst.opcode = .label → inst = .labelAt inst.label

theorem plainLabels_append {a b : List IRInstruction} :
    PlainLabels (a ++ b) ↔ PlainLabels a ∧ PlainLabels b := List.forall_mem_append

theorem plainLabels_cons {inst : IRInstruction} {code : List IRInstruction} :
    PlainLabels (inst :: code) ↔
      (inst.opcode = .label → inst = .labelAt inst.label) ∧ PlainLabels code :=
  List.forall_mem_cons

theorem plainLabels_nil : PlainLabels [] := fun _ h => absurd h List.not_mem_nil

theorem plainLabels_straight {code : List IRInstruction} (h : Straight code) :
    PlainLabels code := by
  intro inst hi hop
  have := h inst hi
  rw [hop] at this
  cases this

section Targets

variable {Y : Layouts}

mutual

theorem LowersStmt.plainLabels {S S' : Scope} {statement : Statement} {A : Fragment} :
    LowersStmt Y S statement A S' → PlainLabels A.code
  | .letStmt h => plainLabels_straight h.straight
  | .assignStmt _ h => plainLabels_straight (by
      simp [h.straight, IRInstruction.moveI32, OpCode.isControl])
  | .storeStmt h₁ h₂ => plainLabels_straight (by
      simp [h₁.straight, h₂.straight, IRInstruction.storeI32, OpCode.isControl])
  | .arrayDecl => plainLabels_straight (zeroCode_straight _ _)
  | .structVarDecl _ => plainLabels_straight (zeroCode_straight _ _)
  | .fieldStore _ h => plainLabels_straight (by
      simp [fieldCode_straight, h.straight, IRInstruction.storeI32, OpCode.isControl])
  | .indexStore _ h₁ h₂ => plainLabels_straight (by
      simp [elementCode_straight, h₁.straight, h₂.straight, IRInstruction.storeI32,
        OpCode.isControl])
  | .returnStmt h => plainLabels_append.mpr ⟨plainLabels_straight h.straight,
      plainLabels_cons.mpr ⟨fun e => (by cases e), plainLabels_nil⟩⟩
  | .whileStmt h hb => by
    simp only [plainLabels_append, plainLabels_cons]
    exact ⟨fun _ => rfl, plainLabels_straight h.straight, fun e => (by cases e), hb.plainLabels,
      fun e => (by cases e), fun _ => rfl, plainLabels_nil⟩
  | .ifThen h hb => by
    simp only [plainLabels_append, plainLabels_cons]
    exact ⟨plainLabels_straight h.straight, fun e => (by cases e), hb.plainLabels, fun _ => rfl,
      plainLabels_nil⟩
  | .ifElse _ h hb hb' => by
    simp only [plainLabels_append, plainLabels_cons]
    exact ⟨plainLabels_straight h.straight, fun e => (by cases e), hb.plainLabels,
      fun e => (by cases e), fun _ => rfl, hb'.plainLabels, fun _ => rfl, plainLabels_nil⟩

theorem LowersBlock.plainLabels {S S' : Scope} {body : List Statement} {A : Fragment} :
    LowersBlock Y S body A S' → PlainLabels A.code
  | .nil => plainLabels_nil
  | .cons hs hb => plainLabels_append.mpr ⟨hs.plainLabels, hb.plainLabels⟩

end

end Targets

theorem labelNames_nodup (n : Nat) (kinds : List ControlKind) : (labelNames n kinds).Nodup :=
  (controlLabels_nodup n kinds).map fun _ _ => LocalLabel.name_inj

/-! ## Functions -/

section Mangle

variable (modulePrefix : String) (mangleThisModule : Bool)

mutual

theorem alwaysReturns_mangle : ∀ s : Statement,
    alwaysReturns (mangleCallsInStatement modulePrefix mangleThisModule s) = alwaysReturns s
  | .ifStmt condition thenBody elseBody => by
    have he : (mangleCallsInBlock modulePrefix mangleThisModule elseBody).isEmpty =
        elseBody.isEmpty := by cases elseBody <;> rfl
    rw [mangleCallsInStatement, alwaysReturns, alwaysReturns, he,
      blockAlwaysReturns_mangle thenBody, blockAlwaysReturns_mangle elseBody]
  | .letStmt _ _ _ | .returnStmt _ | .assignStmt _ _ | .storeStmt _ _ | .arrayDecl _ _ _
  | .indexStore _ _ _ | .structVarDecl _ _ | .fieldStore _ _ _ | .whileStmt _ _ => rfl

/-- Renaming callees does not change which blocks return. -/
theorem blockAlwaysReturns_mangle : ∀ body : List Statement,
    blockAlwaysReturns (mangleCallsInBlock modulePrefix mangleThisModule body) =
      blockAlwaysReturns body
  | [] => rfl
  | [last] => alwaysReturns_mangle last
  | _ :: statement :: body => blockAlwaysReturns_mangle (statement :: body)

end

end Mangle

theorem blockAlwaysReturns_of_checked {symbols : ModuleSymbols} {function : Function}
    (h : TypeChecker.checkFunction symbols function = .ok ()) :
    blockAlwaysReturns function.body = true := by
  obtain ⟨_, -, h⟩ := bind_eq_ok.mp h
  by_contra hb
  rw [Bool.not_eq_true] at hb
  rw [hb] at h
  cases h

/-- Where all jumps have targets, an execution ends only at a return or a failed check. -/
theorem IRFunction.Encloses.returns {f : IRFunction}
    (h : f.Encloses 0 f.instructions.length) (hu : (codeLabels f.instructions).Nodup)
    (hsub : codeTargets f.instructions ⊆ codeLabels f.instructions)
    (hplain : PlainLabels f.instructions) : f.Returns := by
  have htarget : ∀ inst ∈ f.instructions, inst.opcode = .jump ∨ inst.opcode = .jumpIfZero →
      inst.label ∈ codeLabels f.instructions := fun inst hinst hop =>
    hsub (List.mem_map.mpr ⟨inst, List.mem_filter.mpr ⟨hinst, decide_eq_true hop⟩, rfl⟩)
  refine ⟨h, fun i hi hstops => ?_, fun inst hinst hop =>
    List.count_eq_one_of_mem hu (htarget inst hinst hop)⟩
  have hlt := h i hi
  rcases hstops with hnone | ⟨inst, hinst, hop⟩
  · refine ⟨_, List.getElem?_eq_getElem hlt, .inl ?_⟩
    by_contra hreturn
    by_cases hjump : f.instructions[i].opcode = .jump
    · obtain ⟨target, ht, hl⟩ := List.mem_map.mp (htarget _ (List.getElem_mem hlt) (.inl hjump))
      obtain ⟨hm, hop⟩ := List.mem_filter.mp ht
      obtain ⟨j, hj⟩ := List.mem_iff_getElem?.mp hm
      refine hnone j (.jump (List.getElem?_eq_getElem hlt) (.inl hjump) ?_)
      rw [LabelAt, hj, ← hl, ← hplain target hm (of_decide_eq_true hop)]
    · exact hnone (i + 1) (.next (List.getElem?_eq_getElem hlt) hjump hreturn)
  · exact ⟨inst, hinst, .inr hop⟩

/-- The code of a function whose body always returns. -/
theorem returns_of_blockAlwaysReturns {function : Function} {Y : Layouts} {ir : IRFunction}
    (hb : blockAlwaysReturns function.body = true)
    (h : IRLowerer.lower function Y.structFieldOrder Y.enumVariants = .ok ir) : ir.Returns := by
  obtain ⟨-, hperm, hsub, -⟩ := lower_labels h
  have hu : (codeLabels ir.instructions).Nodup := hperm.nodup_iff.mpr (labelNames_nodup _ _)
  obtain ⟨A, S, hbody, hir⟩ := IRLowerer.lower_lowers h
  have hcode : ir.instructions = IRLowerer.paramCode 0 function.params.length ++ A.code := by
    rw [hir]
  have hparams := paramCode_straight 0 function.params.length
  have hat : ir.CodeAt 0 (IRLowerer.paramCode 0 function.params.length ++ A.code) :=
    fun k inst hk => by rw [Nat.zero_add, hcode, hk]
  have hencloses := encloses_straight hu hparams hat.left (hbody.encloses hu hb hat.right)
  refine IRFunction.Encloses.returns ?_ hu hsub ?_
  · rw [Nat.zero_add, ← List.length_append, ← hcode] at hencloses
    exact hencloses
  · rw [hcode]
    exact plainLabels_append.mpr ⟨plainLabels_straight hparams, hbody.plainLabels⟩

/-- A checked function, lowered as it is or after its callees were renamed: control never passes
its last instruction and ends only at a return or a failed bounds check, and every jump has one
target. -/
theorem lower_returns {symbols : ModuleSymbols} {function : Function}
    (hc : TypeChecker.checkFunction symbols function = .ok ()) {lowered : Function}
    (hl : lowered = function ∨
      ∃ unitName isEntry, lowered = mangleFunction unitName isEntry function)
    {structLayouts : StructLayouts} {enumVariants : EnumOrdinals} {ir : IRFunction}
    (h : IRLowerer.lower lowered structLayouts enumVariants = .ok ir) : ir.Returns := by
  have hb := blockAlwaysReturns_of_checked hc
  refine returns_of_blockAlwaysReturns (Y := ⟨structLayouts, enumVariants⟩) ?_ h
  rcases hl with rfl | ⟨unitName, isEntry, rfl⟩
  · exact hb
  · exact (blockAlwaysReturns_mangle _ _ _).trans hb

/-- A loop, a branch without `else` and a statement after a return, then a branch that returns. -/
def loopThenBranch : Function :=
  ⟨"f", [⟨"n", "i32"⟩], "i32",
    [.arrayDecl "a" "i32" 4,
      .whileStmt (.variable "n")
        [.ifStmt (.variable "n") [.returnStmt (.integer 1), .assignStmt "n" (.integer 2)] [],
          .assignStmt "n" (.binary '-' (.variable "n") (.integer 1))],
      .ifStmt (.index "a" (.variable "n")) [.returnStmt (.variable "n")]
        [.whileStmt (.integer 1) [], .returnStmt (.call "f" [.integer 0])]]⟩

theorem lower_returns_loopAndBranch : ∃ ir,
    IRLowerer.lower (mangleFunction "m" false loopThenBranch) [] [] = .ok ir ∧ ir.Returns := by
  have hc : TypeChecker.checkFunction ⟨[("f", ⟨["i32"], "i32"⟩)], [], []⟩ loopThenBranch = .ok () := by
    rfl
  have hok : (IRLowerer.lower (mangleFunction "m" false loopThenBranch) [] []).isOk = true := by
    decide +kernel
  cases e : IRLowerer.lower (mangleFunction "m" false loopThenBranch) [] [] with
  | error => rw [e] at hok; cases hok
  | ok ir => exact ⟨ir, rfl, lower_returns hc (.inr ⟨"m", false, rfl⟩) e⟩

end Oglang
end Techuila
