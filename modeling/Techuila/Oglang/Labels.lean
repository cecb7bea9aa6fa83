import Techuila.Oglang.Lowering

/-!
# Local labels

The control labels of a function are numbered from 0, two numbers for each loop and each branch in
the order of the text; a bounds check is numbered by its position in the intermediate code.

* `blockKinds`, `functionChecks`: what the numbers depend on, read off the syntax tree.
* `functionLabels`: the labels of a function; `functionLabels_nodup`, `labelsApart_iff`.
* `lower_labels`: the lowered code of a function has exactly these labels, and its jumps go to them.
-/

namespace Techuila
namespace Oglang

/-! ## Names of labels -/

inductive LabelKind where
  | loopStart
  | loopEnd
  | elseStart
  | branchEnd
  | boundsOk
  deriving DecidableEq

def LabelKind.stem : LabelKind → String
  | loopStart => ".Lloop"
  | loopEnd => ".Lloopend"
  | elseStart => ".Lelse"
  | branchEnd => ".Lend"
  | boundsOk => ".Lboundsok"

structure LocalLabel where
  kind : LabelKind
  number : Nat
  deriving DecidableEq

namespace LocalLabel

def name (l : LocalLabel) : String := l.kind.stem ++ toString l.number

theorem toList_name (l : LocalLabel) :
    l.name.toList = l.kind.stem.toList ++ Nat.toDigits 10 l.number := by
  simp [name]

theorem stem_inj {k k' : LabelKind} (h : k.stem = k'.stem) : k = k' := by
  cases k <;> cases k' <;> first | rfl | exact absurd h (by decide)

/-- A stem is read off a name: it is what stands before the first digit. -/
theorem takeWhile_name (l : LocalLabel) :
    l.name.toList.takeWhile (fun c => !c.isDigit) = l.kind.stem.toList := by
  have hd : (Nat.toDigits 10 l.number).takeWhile (fun c => !c.isDigit) = [] := by
    cases e : Nat.toDigits 10 l.number with
    | nil => rfl
    | cons c ds =>
      have hc : c.isDigit = true :=
        Nat.isDigit_of_mem_toDigits (by decide) (by decide) (e ▸ List.mem_cons_self)
      simp [hc]
  rw [toList_name, List.takeWhile_append_of_pos, hd, List.append_nil]
  apply List.all_eq_true.mp
  cases l.kind <;> decide

theorem name_inj {l l' : LocalLabel} (h : l.name = l'.name) : l = l' := by
  have hs : l.kind.stem.toList = l'.kind.stem.toList := by
    rw [← takeWhile_name, ← takeWhile_name, h]
  have hd : Nat.toDigits 10 l.number = Nat.toDigits 10 l'.number := by
    refine List.append_cancel_left (?_ : l.kind.stem.toList ++ _ = l.kind.stem.toList ++ _)
    rw [← toList_name, h, toList_name, hs]
  have hn : l.number = l'.number := by
    simpa using congrArg (Nat.ofDigitChars 10 · 0) hd
  cases l
  cases l'
  exact congrArg₂ _ (stem_inj (String.toList_inj.mp hs)) hn

theorem dot_mem_name (l : LocalLabel) : '.' ∈ l.name.toList := by
  rw [toList_name]
  refine List.mem_append_left _ ?_
  cases l.kind <;> decide

theorem underscore_not_mem_name (l : LocalLabel) : '_' ∉ l.name.toList := by
  rw [toList_name, List.mem_append, not_or]
  refine ⟨?_, Nat.underscore_not_in_toDigits⟩
  cases l.kind <;> decide

end LocalLabel

/-! ## What the numbers depend on -/

/-- A control statement, as far as its labels go. -/
inductive ControlKind where
  | loop
  | branch (hasElse : Bool)

namespace ControlKind

def isLoop : ControlKind → Bool
  | loop => true
  | branch _ => false

/-- The labels of a control statement that takes the numbers `n` and `n + 1`. -/
def labels (n : Nat) : ControlKind → List LocalLabel
  | loop => [⟨.loopStart, n⟩, ⟨.loopEnd, n + 1⟩]
  | branch hasElse => (if hasElse then [⟨.elseStart, n⟩] else []) ++ [⟨.branchEnd, n + 1⟩]

end ControlKind

mutual

/-- The control statements in the order in which they take numbers. -/
def stmtKinds : Statement → List ControlKind
  | .whileStmt _ body => .loop :: blockKinds body
  | .ifStmt _ thenBody elseBody =>
    .branch (!elseBody.isEmpty) :: (blockKinds thenBody ++ blockKinds elseBody)
  | _ => []

def blockKinds : List Statement → List ControlKind
  | [] => []
  | statement :: body => stmtKinds statement ++ blockKinds body

end

/-- The labels of control statements that take the numbers from `n` on. -/
def controlLabels (n : Nat) : List ControlKind → List LocalLabel
  | [] => []
  | kind :: kinds => kind.labels n ++ controlLabels (n + 2) kinds

mutual

/-- One entry for each instruction of an expression: is it a bounds check? `declared` are the names
of the struct variables so far. -/
def exprChecks (declared : List String) : Expr → List Bool
  | .integer _ => [false]
  | .variable _ => []
  | .unary _ operand => exprChecks declared operand ++ [false, false]
  | .addressOf _ => [false]
  | .deref pointer => exprChecks declared pointer ++ [false]
  | .index _ index => exprChecks declared index ++ [true, false, false, false, false, false]
  | .fieldAccess name _ => if name ∈ declared then [false, false, false, false] else [false]
  | .asm _ => [false]
  | .call _ args => argsChecks declared args ++ [false]
  | .binary _ left right => exprChecks declared left ++ (exprChecks declared right ++ [false])

def argsChecks (declared : List String) : List Expr → List Bool
  | [] => []
  | arg :: args => exprChecks declared arg ++ argsChecks declared args

end

mutual

/-- The entries of a statement, and the names declared after it. -/
def stmtChecks (Y : Layouts) (declared : List String) : Statement → List Bool × List String
  | .letStmt _ _ initializer => (exprChecks declared initializer, declared)
  | .returnStmt value => (exprChecks declared value ++ [false], declared)
  | .assignStmt _ value => (exprChecks declared value ++ [false], declared)
  | .storeStmt pointer value =>
    (exprChecks declared pointer ++ (exprChecks declared value ++ [false]), declared)
  | .arrayDecl _ _ size => (List.replicate size.toNat false, declared)
  | .structVarDecl name structType =>
    (List.replicate ((Y.structFieldOrder.find structType).getD []).length false,
      name :: declared)
  | .fieldStore _ _ value =>
    ([false, false, false] ++ (exprChecks declared value ++ [false]), declared)
  | .indexStore _ index value =>
    (exprChecks declared index ++ ([true, false, false, false, false] ++
      (exprChecks declared value ++ [false])), declared)
  | .whileStmt condition body =>
    let r := blockChecks Y declared body
    (false :: (exprChecks declared condition ++ (false :: (r.1 ++ [false, false]))), r.2)
  | .ifStmt condition thenBody elseBody =>
    let r := blockChecks Y declared thenBody
    let r' := blockChecks Y r.2 elseBody
    (exprChecks declared condition ++ (false :: (r.1 ++
      (if elseBody.isEmpty then [false] else false :: false :: (r'.1 ++ [false])))), r'.2)

def blockChecks (Y : Layouts) (declared : List String) : List Statement → List Bool × List String
  | [] => ([], declared)
  | statement :: body =>
    let r := stmtChecks Y declared statement
    let r' := blockChecks Y r.2 body
    (r.1 ++ r'.1, r'.2)

end

/-- One entry for each instruction of a function. -/
def functionChecks (Y : Layouts) (function : Function) : List Bool :=
  List.replicate function.params.length false ++ (blockChecks Y [] function.body).1

/-- The positions of the bounds checks, from position `i` on. -/
def checkPositions (i : Nat) : List Bool → List Nat
  | [] => []
  | b :: bs => if b then i :: checkPositions (i + 1) bs else checkPositions (i + 1) bs

/-- The local labels of a function. -/
def functionLabels (Y : Layouts) (function : Function) : List LocalLabel :=
  controlLabels 0 (blockKinds function.body) ++
    (checkPositions 0 (functionChecks Y function)).map (⟨.boundsOk, ·⟩)

/-! ## The labels are distinct -/

theorem controlLabels_append (n : Nat) (a b : List ControlKind) :
    controlLabels n (a ++ b) = controlLabels n a ++ controlLabels (n + 2 * a.length) b := by
  induction a generalizing n with
  | nil => simp [controlLabels]
  | cons kind a ih =>
    have hn : n + 2 + 2 * a.length = n + 2 * (a.length + 1) := by omega
    simp [controlLabels, ih, hn]

/-- Which kind and which number a label of a control statement has. -/
theorem ControlKind.mem_labels {n : Nat} {kind : ControlKind} {l : LocalLabel}
    (h : l ∈ kind.labels n) : l.kind ≠ .boundsOk ∧ (l.number = n ∨ l.number = n + 1) ∧
      (kind.isLoop = true ↔ l.kind = .loopStart ∨ l.kind = .loopEnd) := by
  cases kind with
  | loop =>
    simp only [labels, List.mem_cons, List.not_mem_nil, or_false] at h
    rcases h with rfl | rfl <;> simp [isLoop]
  | branch hasElse =>
    simp only [labels, List.mem_append, List.mem_singleton] at h
    rcases h with h | rfl
    · cases hasElse with
      | false => cases h
      | true =>
        obtain rfl := List.mem_singleton.mp h
        simp [isLoop]
    · simp [isLoop]

theorem mem_controlLabels {n : Nat} {kinds : List ControlKind} {l : LocalLabel} :
    l ∈ controlLabels n kinds ↔
      ∃ (k : Nat) (kind : ControlKind), kinds[k]? = some kind ∧ l ∈ kind.labels (n + 2 * k) := by
  induction kinds generalizing n with
  | nil => simp [controlLabels]
  | cons kind kinds ih =>
    rw [controlLabels, List.mem_append, ih]
    constructor
    · rintro (h | ⟨k, kind', hk, h⟩)
      · exact ⟨0, kind, rfl, h⟩
      · exact ⟨k + 1, kind', hk, by rwa [show n + 2 * (k + 1) = n + 2 + 2 * k by omega]⟩
    · rintro ⟨_ | k, kind', hk, h⟩
      · cases hk
        exact .inl h
      · exact .inr ⟨k, kind', hk, by rwa [show n + 2 * (k + 1) = n + 2 + 2 * k by omega] at h⟩

theorem controlLabels_nodup (n : Nat) (kinds : List ControlKind) :
    (controlLabels n kinds).Nodup := by
  induction kinds generalizing n with
  | nil => exact .nil
  | cons kind kinds ih =>
    refine List.nodup_append.mpr ⟨?_, ih _, ?_⟩
    · cases kind with
      | loop => simp [ControlKind.labels]
      | branch hasElse => cases hasElse <;> simp [ControlKind.labels]
    · rintro l hl l' hl' rfl
      obtain ⟨k, kind', -, hk⟩ := mem_controlLabels.mp hl'
      have h₁ := (ControlKind.mem_labels hl).2.1
      have h₂ := (ControlKind.mem_labels hk).2.1
      omega

theorem mem_checkPositions {i j : Nat} {flags : List Bool} :
    j ∈ checkPositions i flags ↔ i ≤ j ∧ flags[j - i]? = some true := by
  induction flags generalizing i with
  | nil => simp [checkPositions]
  | cons b bs ih =>
    have hs : j ∈ checkPositions (i + 1) bs ↔ i < j ∧ (b :: bs)[j - i]? = some true := by
      rw [ih, Nat.succ_le_iff]
      refine and_congr_right fun h => ?_
      rw [show j - i = j - (i + 1) + 1 by omega, List.getElem?_cons_succ]
    rw [checkPositions]
    cases b with
    | true =>
      rw [if_pos rfl, List.mem_cons, hs]
      constructor
      · rintro (rfl | ⟨h, h'⟩)
        · simp
        · exact ⟨Nat.le_of_lt h, h'⟩
      · rintro ⟨h, h'⟩
        rcases Nat.eq_or_lt_of_le h with e | h
        · exact .inl e.symm
        · exact .inr ⟨h, h'⟩
    | false =>
      rw [if_neg Bool.false_ne_true, hs]
      constructor
      · rintro ⟨h, h'⟩
        exact ⟨Nat.le_of_lt h, h'⟩
      · rintro ⟨h, h'⟩
        rcases Nat.eq_or_lt_of_le h with rfl | h
        · simp at h'
        · exact ⟨h, h'⟩

theorem checkPositions_nodup (i : Nat) (flags : List Bool) : (checkPositions i flags).Nodup := by
  induction flags generalizing i with
  | nil => exact .nil
  | cons b bs ih =>
    rw [checkPositions]
    split
    · refine List.nodup_cons.mpr ⟨fun h => ?_, ih _⟩
      have := (mem_checkPositions.mp h).1
      omega
    · exact ih _

theorem functionLabels_nodup (Y : Layouts) (function : Function) :
    (functionLabels Y function).Nodup := by
  refine List.nodup_append.mpr ⟨controlLabels_nodup _ _, ?_, ?_⟩
  · refine (checkPositions_nodup _ _).map fun i j h => ?_
    exact congrArg LocalLabel.number h
  · rintro l hl l' hl' rfl
    obtain ⟨k, kind, -, hk⟩ := mem_controlLabels.mp hl
    obtain ⟨j, -, rfl⟩ := List.mem_map.mp hl'
    exact (ControlKind.mem_labels hk).1 rfl

/-! ## Labels of two functions -/

/-- In no place do both functions have a loop or both have a branch, and at no position do both
have a bounds check. -/
structure LabelsApart (f g : Layouts × Function) : Prop where
  control : ∀ (k : Nat) (a b : ControlKind), (blockKinds f.2.body)[k]? = some a →
    (blockKinds g.2.body)[k]? = some b → a.isLoop ≠ b.isLoop
  checks : ∀ i : Nat, (functionChecks f.1 f.2)[i]? = some true →
    (functionChecks g.1 g.2)[i]? ≠ some true

/-- The label that every loop and the one that every branch has. -/
theorem ControlKind.last_mem (n : Nat) (kind : ControlKind) :
    ⟨if kind.isLoop then .loopEnd else .branchEnd, n + 1⟩ ∈ kind.labels n := by
  cases kind <;> simp [labels, isLoop]

theorem mem_functionLabels {Y : Layouts} {function : Function} {l : LocalLabel} :
    l ∈ functionLabels Y function ↔ l ∈ controlLabels 0 (blockKinds function.body) ∨
      (l.kind = .boundsOk ∧ (functionChecks Y function)[l.number]? = some true) := by
  rw [functionLabels, List.mem_append, List.mem_map]
  refine or_congr_right ⟨?_, fun ⟨hk, h⟩ => ⟨l.number, ?_, ?_⟩⟩
  · rintro ⟨i, hi, rfl⟩
    exact ⟨rfl, (mem_checkPositions.mp hi).2⟩
  · exact mem_checkPositions.mpr ⟨Nat.zero_le _, h⟩
  · rw [← hk]

theorem labelsApart_iff {f g : Layouts × Function} :
    LabelsApart f g ↔ (functionLabels f.1 f.2).Disjoint (functionLabels g.1 g.2) := by
  constructor
  · intro h l hf hg
    rcases mem_functionLabels.mp hf with hf | ⟨hk, hf⟩
    · obtain ⟨k, a, ha, hla⟩ := mem_controlLabels.mp hf
      obtain ⟨hb, hn, hl⟩ := ControlKind.mem_labels hla
      rcases mem_functionLabels.mp hg with hg | ⟨hk, -⟩
      · obtain ⟨k', b, hb', hlb⟩ := mem_controlLabels.mp hg
        obtain ⟨-, hn', hl'⟩ := ControlKind.mem_labels hlb
        obtain rfl : k = k' := by omega
        refine h.control k a b ha hb' ?_
        rw [Bool.eq_iff_iff, hl, hl']
      · exact hb hk
    · rcases mem_functionLabels.mp hg with hg | ⟨-, hg⟩
      · obtain ⟨k', b, -, hlb⟩ := mem_controlLabels.mp hg
        exact (ControlKind.mem_labels hlb).1 hk
      · exact h.checks _ hf hg
  · intro h
    refine ⟨fun k a b ha hb e => ?_, fun i hf hg => ?_⟩
    · have hla := ControlKind.last_mem (0 + 2 * k) a
      have hlb := ControlKind.last_mem (0 + 2 * k) b
      rw [← e] at hlb
      exact h (mem_functionLabels.mpr (.inl (mem_controlLabels.mpr ⟨k, a, ha, hla⟩)))
        (mem_functionLabels.mpr (.inl (mem_controlLabels.mpr ⟨k, b, hb, hlb⟩)))
    · exact h (a := ⟨.boundsOk, i⟩) (mem_functionLabels.mpr (.inr ⟨rfl, hf⟩))
        (mem_functionLabels.mpr (.inr ⟨rfl, hg⟩))

/-! ## Labels of lowered code -/

/-- The labels that the code defines. -/
def codeLabels (code : List IRInstruction) : List String :=
  (code.filter fun inst => inst.opcode = .label).map IRInstruction.label

/-- The labels that the code jumps to. -/
def codeTargets (code : List IRInstruction) : List String :=
  (code.filter fun inst => inst.opcode = .jump ∨ inst.opcode = .jumpIfZero).map
    IRInstruction.label

/-- Which instructions are bounds checks. -/
def checkFlags (code : List IRInstruction) : List Bool :=
  code.map fun inst => decide (inst.opcode = .boundsCheckI32)

@[simp] theorem codeLabels_append (a b : List IRInstruction) :
    codeLabels (a ++ b) = codeLabels a ++ codeLabels b := by simp [codeLabels]

@[simp] theorem codeTargets_append (a b : List IRInstruction) :
    codeTargets (a ++ b) = codeTargets a ++ codeTargets b := by simp [codeTargets]

@[simp] theorem checkFlags_append (a b : List IRInstruction) :
    checkFlags (a ++ b) = checkFlags a ++ checkFlags b := List.map_append

theorem codeLabels_cons (inst : IRInstruction) (code : List IRInstruction) :
    codeLabels (inst :: code) =
      (if inst.opcode = .label then [inst.label] else []) ++ codeLabels code := by
  by_cases h : inst.opcode = .label <;> simp [codeLabels, h]

theorem codeTargets_cons (inst : IRInstruction) (code : List IRInstruction) :
    codeTargets (inst :: code) = (if inst.opcode = .jump ∨ inst.opcode = .jumpIfZero then
      [inst.label] else []) ++ codeTargets code := by
  by_cases h : inst.opcode = .jump ∨ inst.opcode = .jumpIfZero <;> simp [codeTargets, h]

@[simp] theorem codeLabels_labelAt (l : String) (code : List IRInstruction) :
    codeLabels (.labelAt l :: code) = l :: codeLabels code := rfl

@[simp] theorem codeLabels_jump (l : String) (code : List IRInstruction) :
    codeLabels (.jump l :: code) = codeLabels code := rfl

@[simp] theorem codeLabels_jumpIfZero (v : Int) (l : String) (code : List IRInstruction) :
    codeLabels (.jumpIfZero v l :: code) = codeLabels code := rfl

@[simp] theorem codeTargets_labelAt (l : String) (code : List IRInstruction) :
    codeTargets (.labelAt l :: code) = codeTargets code := rfl

@[simp] theorem codeTargets_jump (l : String) (code : List IRInstruction) :
    codeTargets (.jump l :: code) = l :: codeTargets code := rfl

@[simp] theorem codeTargets_jumpIfZero (v : Int) (l : String) (code : List IRInstruction) :
    codeTargets (.jumpIfZero v l :: code) = l :: codeTargets code := rfl

@[simp] theorem checkFlags_cons (inst : IRInstruction) (code : List IRInstruction) :
    checkFlags (inst :: code) =
      decide (inst.opcode = .boundsCheckI32) :: checkFlags code := rfl

@[simp] theorem codeLabels_nil : codeLabels [] = [] := rfl
@[simp] theorem codeTargets_nil : codeTargets [] = [] := rfl
@[simp] theorem checkFlags_nil : checkFlags [] = [] := rfl

theorem Straight.codeLabels {code : List IRInstruction} (h : Straight code) :
    codeLabels code = [] := by
  rw [Oglang.codeLabels, List.filter_eq_nil_iff.mpr, List.map_nil]
  intro inst hi
  have := h inst hi
  cases e : inst.opcode <;> simp_all [OpCode.isControl]

theorem Straight.codeTargets {code : List IRInstruction} (h : Straight code) :
    codeTargets code = [] := by
  rw [Oglang.codeTargets, List.filter_eq_nil_iff.mpr, List.map_nil]
  intro inst hi
  have := h inst hi
  cases e : inst.opcode <;> simp_all [OpCode.isControl]

section Code

variable {Y : Layouts}

mutual

theorem LowersStmt.nextLabel {S S' : Scope} {statement : Statement} {A : Fragment} :
    LowersStmt Y S statement A S' → S'.nextLabel = S.nextLabel + 2 * (stmtKinds statement).length
  | .letStmt _ | .assignStmt _ _ | .storeStmt _ _ | .arrayDecl | .structVarDecl _
  | .fieldStore _ _ | .indexStore _ _ _ | .returnStmt _ => by simp [stmtKinds]
  | .whileStmt _ hb => by
    have := hb.nextLabel
    simp only [stmtKinds, List.length_cons] at this ⊢
    omega
  | .ifThen _ hb => by
    have := hb.nextLabel
    simp only [stmtKinds, blockKinds, List.length_cons, List.append_nil] at this ⊢
    omega
  | .ifElse _ _ hb hb' => by
    have := hb.nextLabel
    have := hb'.nextLabel
    simp only [stmtKinds, List.length_cons, List.length_append] at *
    omega

theorem LowersBlock.nextLabel {S S' : Scope} {body : List Statement} {A : Fragment} :
    LowersBlock Y S body A S' → S'.nextLabel = S.nextLabel + 2 * (blockKinds body).length
  | .nil => by simp [blockKinds]
  | .cons hs hb => by
    have := hs.nextLabel
    have := hb.nextLabel
    simp only [blockKinds, List.length_append] at *
    omega

end

/-- The names of the labels of control statements. -/
def labelNames (n : Nat) (kinds : List ControlKind) : List String :=
  (controlLabels n kinds).map LocalLabel.name

theorem labelNames_append (n : Nat) (a b : List ControlKind) :
    labelNames n (a ++ b) = labelNames n a ++ labelNames (n + 2 * a.length) b := by
  rw [labelNames, controlLabels_append, List.map_append, labelNames, labelNames]

theorem labelNames_loop (n : Nat) (kinds : List ControlKind) :
    labelNames n (.loop :: kinds) = loopLabel n :: loopEndLabel (n + 1) ::
      labelNames (n + 2) kinds := rfl

theorem labelNames_else (n : Nat) (kinds : List ControlKind) :
    labelNames n (.branch true :: kinds) = elseLabel n :: endLabel (n + 1) ::
      labelNames (n + 2) kinds := rfl

theorem isEmpty_eq_false {α : Type} {l : List α} (h : l ≠ []) : l.isEmpty = false := by
  cases l with
  | nil => exact absurd rfl h
  | cons => rfl

mutual

/-- The code of a statement defines the labels of its control statements, each once. -/
theorem LowersStmt.labels {S S' : Scope} {statement : Statement} {A : Fragment} :
    LowersStmt Y S statement A S' →
      (codeLabels A.code).Perm (labelNames S.nextLabel (stmtKinds statement))
  | .letStmt h => by rw [h.straight.codeLabels]; exact .nil
  | .assignStmt _ h => by
    rw [codeLabels_append, h.straight.codeLabels]; exact .nil
  | .storeStmt h₁ h₂ => by
    rw [codeLabels_append, codeLabels_append, h₁.straight.codeLabels, h₂.straight.codeLabels]
    exact .nil
  | .arrayDecl => by rw [(zeroCode_straight _ _).codeLabels]; exact .nil
  | .structVarDecl _ => by rw [(zeroCode_straight _ _).codeLabels]; exact .nil
  | .fieldStore _ h => by
    rw [codeLabels_append, codeLabels_append, (fieldCode_straight _ _ _).codeLabels,
      h.straight.codeLabels]
    exact .nil
  | .indexStore _ h₁ h₂ => by
    rw [codeLabels_append, codeLabels_append, codeLabels_append,
      (elementCode_straight _ _ _).codeLabels, h₁.straight.codeLabels, h₂.straight.codeLabels]
    exact .nil
  | .returnStmt h => by rw [codeLabels_append, h.straight.codeLabels]; exact .nil
  | .whileStmt h hb => by
    simp only [codeLabels_labelAt, codeLabels_append, h.straight.codeLabels, codeLabels_jumpIfZero,
      codeLabels_jump, codeLabels_nil, List.nil_append, stmtKinds, labelNames_loop]
    exact .cons _ (List.perm_append_comm.trans (.cons _ hb.labels))
  | .ifThen h hb => by
    simp only [codeLabels_labelAt, codeLabels_append, h.straight.codeLabels, codeLabels_jumpIfZero,
      codeLabels_nil, List.nil_append, stmtKinds, blockKinds, List.append_nil]
    exact List.perm_append_comm.trans (.cons _ hb.labels)
  | .ifElse he h hb hb' => by
    have hn := hb.nextLabel
    simp only [codeLabels_labelAt, codeLabels_append, h.straight.codeLabels, codeLabels_jumpIfZero,
      codeLabels_jump, codeLabels_nil, List.nil_append, stmtKinds, isEmpty_eq_false he,
      Bool.not_false, labelNames_else, labelNames_append]
    rw [← hn]
    refine List.perm_middle.trans (.cons _ ?_)
    rw [← List.append_assoc]
    exact List.perm_append_comm.trans (.cons _ (hb.labels.append hb'.labels))

theorem LowersBlock.labels {S S' : Scope} {body : List Statement} {A : Fragment} :
    LowersBlock Y S body A S' →
      (codeLabels A.code).Perm (labelNames S.nextLabel (blockKinds body))
  | .nil => .nil
  | .cons hs hb => by
    rw [Fragment.append_eq, codeLabels_append, blockKinds, labelNames_append, ← hs.nextLabel]
    exact hs.labels.append hb.labels

end

mutual

/-- Every jump of a statement goes to a label of the statement. -/
theorem LowersStmt.targets {S S' : Scope} {statement : Statement} {A : Fragment} :
    LowersStmt Y S statement A S' → codeTargets A.code ⊆ codeLabels A.code
  | .letStmt h => by rw [h.straight.codeTargets]; exact List.nil_subset _
  | .assignStmt _ h => by
    rw [codeTargets_append, h.straight.codeTargets]; exact List.nil_subset _
  | .storeStmt h₁ h₂ => by
    rw [codeTargets_append, codeTargets_append, h₁.straight.codeTargets, h₂.straight.codeTargets]
    exact List.nil_subset _
  | .arrayDecl => by rw [(zeroCode_straight _ _).codeTargets]; exact List.nil_subset _
  | .structVarDecl _ => by rw [(zeroCode_straight _ _).codeTargets]; exact List.nil_subset _
  | .fieldStore _ h => by
    rw [codeTargets_append, codeTargets_append, (fieldCode_straight _ _ _).codeTargets,
      h.straight.codeTargets]
    exact List.nil_subset _
  | .indexStore _ h₁ h₂ => by
    rw [codeTargets_append, codeTargets_append, codeTargets_append,
      (elementCode_straight _ _ _).codeTargets, h₁.straight.codeTargets, h₂.straight.codeTargets]
    exact List.nil_subset _
  | .returnStmt h => by
    rw [codeTargets_append, h.straight.codeTargets]; exact List.nil_subset _
  | .whileStmt h hb => by
    intro l hl
    have hb : l ∈ codeTargets _ → l ∈ codeLabels _ := fun h => hb.targets h
    simp [h.straight.codeTargets, h.straight.codeLabels] at hl ⊢
    tauto
  | .ifThen h hb => by
    intro l hl
    have hb : l ∈ codeTargets _ → l ∈ codeLabels _ := fun h => hb.targets h
    simp [h.straight.codeTargets, h.straight.codeLabels] at hl ⊢
    tauto
  | .ifElse _ h hb hb' => by
    intro l hl
    have hb : l ∈ codeTargets _ → l ∈ codeLabels _ := fun h => hb.targets h
    have hb' : l ∈ codeTargets _ → l ∈ codeLabels _ := fun h => hb'.targets h
    simp [h.straight.codeTargets, h.straight.codeLabels] at hl ⊢
    tauto

theorem LowersBlock.targets {S S' : Scope} {body : List Statement} {A : Fragment} :
    LowersBlock Y S body A S' → codeTargets A.code ⊆ codeLabels A.code
  | .nil => List.nil_subset _
  | .cons hs hb => by
    rw [Fragment.append_eq, codeTargets_append, codeLabels_append]
    exact List.append_subset.mpr ⟨List.subset_append_of_subset_left _ hs.targets,
      List.subset_append_of_subset_right _ hb.targets⟩

end

/-- `declared` are the struct variables of `T`. -/
def Declares (declared : List String) (T : Names) : Prop :=
  ∀ name, name ∈ declared ↔ ∃ fields, T.structVars.find name = some fields

@[simp] theorem checkFlags_elementCode (elements : List Int) (index k : Int) :
    checkFlags (elementCode elements index k) = [true, false, false, false, false] := rfl

@[simp] theorem checkFlags_fieldCode (fields : List Int) (i : Nat) (k : Int) :
    checkFlags (fieldCode fields i k) = [false, false, false] := rfl

theorem checkFlags_binary {opcode : OpCode} (h : opcode.isBinary = true) (k v u : Int) :
    checkFlags [.binary opcode k v u] = [false] := by
  cases opcode <;> first | rfl | cases h

theorem checkFlags_zeroCode (k : Int) (n : Nat) :
    checkFlags (zeroCode k n) = List.replicate n false := by
  refine List.eq_replicate_iff.mpr ⟨by simp [checkFlags, zeroCode, zeroCells], ?_⟩
  intro b hb
  simp only [checkFlags, zeroCode, List.mem_map] at hb
  obtain ⟨_, ⟨_, -, rfl⟩, rfl⟩ := hb
  rfl

mutual

theorem LowersExpr.checks {T : Names} {declared : List String} (hd : Declares declared T)
    {k : Int} {e : Expr} {code : List IRInstruction} {taken : List Int} {v k' : Int} :
    LowersExpr Y T k e code taken v k' → checkFlags code = exprChecks declared e
  | .integer | .variable _ | .addressOf _ | .asm => rfl
  | .unary h => by rw [checkFlags_append, h.checks hd, exprChecks]; rfl
  | .deref h => by rw [checkFlags_append, h.checks hd, exprChecks]; rfl
  | .index _ h => by
    rw [checkFlags_append, checkFlags_append, h.checks hd, exprChecks]; rfl
  | .enumVariant hn _ _ => by
    rw [exprChecks, if_neg]
    · rfl
    · intro h
      obtain ⟨_, h⟩ := (hd _).mp h
      rw [hn] at h
      cases h
  | .fieldAccess hf => by
    rw [exprChecks, if_pos ((hd _).mpr ⟨_, hf.1⟩)]; rfl
  | .call h => by rw [checkFlags_append, h.checks hd, exprChecks]; rfl
  | .binary hop h₁ h₂ => by
    rw [checkFlags_append, checkFlags_append, h₁.checks hd, h₂.checks hd, exprChecks,
      checkFlags_binary (binaryOpcode_isBinary hop)]

theorem LowersArgs.checks {T : Names} {declared : List String} (hd : Declares declared T)
    {k : Int} {args : List Expr} {code : List IRInstruction} {taken vs : List Int} {k' : Int} :
    LowersArgs Y T k args code taken vs k' → checkFlags code = argsChecks declared args
  | .nil => rfl
  | .cons h₁ h₂ => by rw [checkFlags_append, h₁.checks hd, h₂.checks hd, argsChecks]

end

mutual

theorem LowersStmt.checks {S S' : Scope} {declared : List String} {statement : Statement}
    {A : Fragment} : LowersStmt Y S statement A S' → Declares declared S.names →
      checkFlags A.code = (stmtChecks Y declared statement).1 ∧
      Declares (stmtChecks Y declared statement).2 S'.names
  | .letStmt h, hd => ⟨h.checks hd, hd⟩
  | .assignStmt _ h, hd => ⟨by rw [checkFlags_append, h.checks hd, stmtChecks]; rfl, hd⟩
  | .storeStmt h₁ h₂, hd => ⟨by
      rw [checkFlags_append, checkFlags_append, h₁.checks hd, h₂.checks hd, stmtChecks]; rfl, hd⟩
  | .arrayDecl, hd => ⟨by rw [stmtChecks, checkFlags_zeroCode], hd⟩
  | .structVarDecl ho, hd => by
    refine ⟨by rw [stmtChecks, checkFlags_zeroCode, ho]; rfl, fun name => ?_⟩
    rw [stmtChecks, List.mem_cons, hd name, Table.find_insert]
    split <;> simp [*]
  | .fieldStore _ h, hd => ⟨by
      rw [checkFlags_append, checkFlags_append, h.checks hd, stmtChecks]; rfl, hd⟩
  | .indexStore _ h₁ h₂, hd => ⟨by
      rw [checkFlags_append, checkFlags_append, checkFlags_append, h₁.checks hd, h₂.checks hd,
        stmtChecks]; rfl, hd⟩
  | .returnStmt h, hd => ⟨by rw [checkFlags_append, h.checks hd, stmtChecks]; rfl, hd⟩
  | .whileStmt h hb, hd => by
    obtain ⟨hc, hd'⟩ := hb.checks hd
    refine ⟨?_, hd'⟩
    simp only [checkFlags_cons, checkFlags_append, h.checks hd, hc, stmtChecks]
    rfl
  | .ifThen h hb, hd => by
    obtain ⟨hc, hd'⟩ := hb.checks hd
    refine ⟨?_, hd'⟩
    simp only [checkFlags_cons, checkFlags_append, h.checks hd, hc, stmtChecks]
    rfl
  | .ifElse he h hb hb', hd => by
    obtain ⟨hc, hd'⟩ := hb.checks hd
    obtain ⟨hc', hd''⟩ := hb'.checks hd'
    refine ⟨?_, hd''⟩
    simp only [checkFlags_cons, checkFlags_append, h.checks hd, hc, hc', stmtChecks,
      isEmpty_eq_false he]
    rfl

theorem LowersBlock.checks {S S' : Scope} {declared : List String} {body : List Statement}
    {A : Fragment} : LowersBlock Y S body A S' → Declares declared S.names →
      checkFlags A.code = (blockChecks Y declared body).1 ∧
      Declares (blockChecks Y declared body).2 S'.names
  | .nil, hd => ⟨rfl, hd⟩
  | .cons hs hb, hd => by
    obtain ⟨hc, hd'⟩ := hs.checks hd
    obtain ⟨hc', hd''⟩ := hb.checks hd'
    refine ⟨?_, hd''⟩
    rw [Fragment.append_eq, checkFlags_append, hc, hc', blockChecks]

end

end Code

theorem checkFlags_paramCode (i n : Nat) :
    checkFlags (IRLowerer.paramCode i n) = List.replicate n false := by
  refine List.eq_replicate_iff.mpr ⟨by simp [checkFlags, IRLowerer.paramCode], ?_⟩
  intro b hb
  simp only [checkFlags, IRLowerer.paramCode, List.mem_map] at hb
  obtain ⟨_, ⟨_, -, rfl⟩, rfl⟩ := hb
  rfl

theorem paramCode_straight (i n : Nat) : Straight (IRLowerer.paramCode i n) := by
  intro inst h
  obtain ⟨j, -, rfl⟩ := List.mem_map.mp h
  rfl

/-- The labels, the jumps and the bounds checks of a function's intermediate code. -/
theorem lower_labels {Y : Layouts} {function : Function} {ir : IRFunction}
    (h : IRLowerer.lower function Y.structFieldOrder Y.enumVariants = .ok ir) :
    ir.name = function.name ∧
      (codeLabels ir.instructions).Perm (labelNames 0 (blockKinds function.body)) ∧
      codeTargets ir.instructions ⊆ codeLabels ir.instructions ∧
      checkFlags ir.instructions = functionChecks Y function := by
  obtain ⟨A, S, hb, rfl⟩ := IRLowerer.lower_lowers h
  have hp := paramCode_straight 0 function.params.length
  have hd : Declares [] (IRLowerer.bodyScope function.params).names := fun name => by
    simp [IRLowerer.bodyScope]
  refine ⟨rfl, ?_, ?_, ?_⟩
  · rw [codeLabels_append, hp.codeLabels]
    exact hb.labels
  · rw [codeTargets_append, codeLabels_append, hp.codeTargets, hp.codeLabels]
    exact hb.targets
  · rw [checkFlags_append, checkFlags_paramCode, functionChecks, (hb.checks hd).1]

end Oglang
end Techuila
