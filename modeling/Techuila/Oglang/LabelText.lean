import Techuila.Oglang.Driver
import Techuila.Oglang.Labels

/-!
# Labels of the assembly text

* `compileFunction_labels`: the labels and the jumps of the text of one function.
* `labels_resolve`: when the labels of a whole file are unique.
-/

namespace Techuila
namespace Oglang

open X86 (Line labels targets)

/-! ## Labels of the text -/

/-- Lines that define no label and do not jump, none of them blank. -/
def Plain (lines : List Line) : Prop :=
  ∀ line ∈ lines, line.label? = none ∧ line.target? = none ∧ line ≠ .blank

namespace Plain

@[simp] theorem nil : Plain [] := fun _ h => absurd h List.not_mem_nil

@[simp] theorem cons_iff {line : Line} {lines : List Line} : Plain (line :: lines) ↔
    (line.label? = none ∧ line.target? = none ∧ line ≠ .blank) ∧ Plain lines :=
  List.forall_mem_cons

@[simp] theorem append_iff {a b : List Line} : Plain (a ++ b) ↔ Plain a ∧ Plain b :=
  List.forall_mem_append

theorem labels {lines : List Line} (h : Plain lines) : labels lines = [] :=
  List.filterMap_eq_nil_iff.mpr fun line hl => (h line hl).1

theorem targets {lines : List Line} (h : Plain lines) : targets lines = [] :=
  List.filterMap_eq_nil_iff.mpr fun line hl => (h line hl).2.1

theorem blank {lines : List Line} (h : Plain lines) : Line.blank ∉ lines :=
  fun hl => (h _ hl).2.2 rfl

end Plain

namespace X86Codegen

variable {allocation : RegisterAllocation}

theorem loadRead_plain {value : Int} {scratch : X86.Reg} {r : List Line × X86.Reg}
    (h : loadRead allocation value scratch = .ok r) : Plain r.1 := by
  unfold loadRead at h
  split at h
  · cases h; exact .nil
  · obtain ⟨_, -, h⟩ := bind_eq_ok.mp h
    cases h
    simp

theorem loadPointer_plain {value : Int} {r : List Line × X86.Reg}
    (h : loadPointer allocation value = .ok r) : Plain r.1 := by
  unfold loadPointer at h
  split at h
  · cases h; exact .nil
  · obtain ⟨_, -, h⟩ := bind_eq_ok.mp h
    cases h
    simp

theorem storeIfSpilled_plain {value : Int} {scratch : X86.Reg} {lines : List Line}
    (h : storeIfSpilled allocation value scratch = .ok lines) : Plain lines := by
  unfold storeIfSpilled at h
  split at h
  · obtain ⟨_, -, h⟩ := bind_eq_ok.mp h
    cases h
    simp
  · cases h; exact .nil

theorem storePointerIfSpilled_plain {value : Int} {lines : List Line}
    (h : storePointerIfSpilled allocation value = .ok lines) : Plain lines := by
  unfold storePointerIfSpilled at h
  split at h
  · obtain ⟨_, -, h⟩ := bind_eq_ok.mp h
    cases h
    simp
  · cases h; exact .nil

theorem takeEax_plain {destination : Int} {lines : List Line}
    (h : takeEax allocation destination = .ok lines) : Plain lines := by
  obtain ⟨store, hs, h⟩ := bind_eq_ok.mp h
  cases h
  refine Plain.append_iff.mpr ⟨?_, storeIfSpilled_plain hs⟩
  split <;> simp

theorem save_plain (saved : List (Int × X86.Reg)) : Plain (save saved) := by
  intro line hl
  obtain ⟨_, -, rfl⟩ := List.mem_map.mp hl
  simp

theorem restore_plain (destination : Int) (saved : List (Int × X86.Reg)) :
    Plain (restore allocation destination saved) := by
  intro line hl
  obtain ⟨_, -, rfl⟩ := List.mem_map.mp hl
  split <;> simp

/-- One line for each value. -/
theorem mapM_plain {f : Int → Except String Line}
    (hf : ∀ v line, f v = .ok line → Plain [line]) (vs : List Int) {lines : List Line}
    (h : vs.mapM f = .ok lines) : Plain lines := by
  induction vs generalizing lines with
  | nil => cases h; exact .nil
  | cons v vs ih =>
    rw [List.mapM_cons] at h
    obtain ⟨line, hl, h⟩ := bind_eq_ok.mp h
    obtain ⟨more, hm, h⟩ := bind_eq_ok.mp h
    cases h
    exact Plain.cons_iff.mpr ⟨(Plain.cons_iff.mp (hf v line hl)).1, ih hm⟩

theorem pushArgValue_plain {arg : Int} {line : Line} (h : pushArgValue allocation arg = .ok line) :
    Plain [line] := by
  unfold pushArgValue at h
  split at h
  · cases h; simp
  · obtain ⟨_, -, h⟩ := bind_eq_ok.mp h
    cases h; simp

theorem emitBinaryOp_plain {op : X86.AluOp} {destination left right : Int} {lines : List Line}
    (h : emitBinaryOp allocation op destination left right = .ok lines) : Plain lines := by
  obtain ⟨⟨load, leftLoc⟩, h₁, h⟩ := bind_eq_ok.mp h
  obtain ⟨⟨load', rightLoc⟩, h₂, h⟩ := bind_eq_ok.mp h
  obtain ⟨store, hs, h⟩ := bind_eq_ok.mp h
  cases h
  simp only [Plain.append_iff]
  refine ⟨⟨⟨loadRead_plain h₁, loadRead_plain h₂⟩, ?_⟩, storeIfSpilled_plain hs⟩
  split
  · simp
  · split <;> simp

theorem emitCompare_plain {c : X86.Cond} {destination left right : Int} {lines : List Line}
    (h : emitCompare allocation c destination left right = .ok lines) : Plain lines := by
  obtain ⟨⟨load, leftLoc⟩, h₁, h⟩ := bind_eq_ok.mp h
  obtain ⟨⟨load', rightLoc⟩, h₂, h⟩ := bind_eq_ok.mp h
  obtain ⟨store, hs, h⟩ := bind_eq_ok.mp h
  cases h
  simp only [Plain.append_iff]
  exact ⟨⟨⟨loadRead_plain h₁, loadRead_plain h₂⟩, by simp⟩,
    storeIfSpilled_plain hs⟩

theorem emitDiv_plain {liveness : Table Int LiveRange} {index : Nat}
    {destination left right : Int} {lines : List Line}
    (h : emitDiv allocation liveness index destination left right = .ok lines) : Plain lines := by
  obtain ⟨⟨load, rightLoc⟩, h₁, h⟩ := bind_eq_ok.mp h
  obtain ⟨⟨load', leftLoc⟩, h₂, h⟩ := bind_eq_ok.mp h
  obtain ⟨take, ht, h⟩ := bind_eq_ok.mp h
  cases h
  simp only [Plain.append_iff]
  exact ⟨⟨⟨⟨⟨loadRead_plain h₁, loadRead_plain h₂⟩, save_plain _⟩,
    by simp⟩, takeEax_plain ht⟩, restore_plain _ _⟩

theorem emitCall_plain {liveness : Table Int LiveRange} {index : Nat} {destination : Int}
    {callee : String} {args : List Int} {lines : List Line}
    (h : emitCall allocation liveness index destination callee args = .ok lines) :
    Plain lines := by
  obtain ⟨pushStack, h₁, h⟩ := bind_eq_ok.mp h
  obtain ⟨pushRegs, h₂, h⟩ := bind_eq_ok.mp h
  obtain ⟨take, ht, h⟩ := bind_eq_ok.mp h
  cases h
  simp only [Plain.append_iff]
  have hpush : ∀ v line, pushArgValue allocation v = .ok line → Plain [line] :=
    fun _ _ => pushArgValue_plain
  refine ⟨⟨⟨⟨⟨⟨⟨save_plain _, mapM_plain hpush _ h₁⟩, mapM_plain hpush _ h₂⟩, ?_⟩, ?_⟩, ?_⟩,
    takeEax_plain ht⟩, restore_plain _ _⟩
  · intro line hl
    obtain ⟨_, -, rfl⟩ := List.mem_map.mp hl
    simp
  · simp
  · split <;> simp

theorem emitAsm_plain {liveness : Table Int LiveRange} {index : Nat} {destination : Int}
    {template : String} {lines : List Line}
    (h : emitAsm allocation liveness index destination template = .ok lines) : Plain lines := by
  obtain ⟨take, ht, h⟩ := bind_eq_ok.mp h
  cases h
  simp only [Plain.append_iff]
  exact ⟨⟨⟨save_plain _, by simp⟩, takeEax_plain ht⟩,
    restore_plain _ _⟩

/-- The labels that the lines of the instruction at `index` define. -/
def instLabels (index : Nat) (inst : IRInstruction) : List String :=
  (if inst.opcode = .label then [inst.label] else []) ++
    (if inst.opcode = .boundsCheckI32 then [okLabel index] else [])

/-- The labels that they jump to. -/
def instTargets (index : Nat) (inst : IRInstruction) : List String :=
  (if inst.opcode = .jump ∨ inst.opcode = .jumpIfZero then [inst.label] else []) ++
    (if inst.opcode = .boundsCheckI32 then [okLabel index] else [])

/-- What the lines of one instruction are to the rest of the file. -/
structure Emits (lines : List Line) (labels targets : List String) : Prop where
  labels : X86.labels lines = labels
  targets : X86.targets lines = targets
  blank : Line.blank ∉ lines

theorem Emits.plain {lines : List Line} (h : Plain lines) : Emits lines [] [] :=
  ⟨h.labels, h.targets, h.blank⟩

theorem Emits.append {a b : List Line} {l t l' t' : List String} (h : Emits a l t)
    (h' : Emits b l' t') : Emits (a ++ b) (l ++ l') (t ++ t') where
  labels := by rw [X86.labels_append, h.labels, h'.labels]
  targets := by rw [X86.targets_append, h.targets, h'.targets]
  blank := by rw [List.mem_append, not_or]; exact ⟨h.blank, h'.blank⟩

/-- Only labels, jumps and bounds checks have a part in the labels. -/
theorem emitInstruction_plain {liveness : Table Int LiveRange} {index : Nat}
    {inst : IRInstruction} {lines : List Line}
    (h : emitInstruction allocation liveness index inst = .ok lines)
    (hl : inst.opcode ≠ .label) (hj : inst.opcode ≠ .jump) (hz : inst.opcode ≠ .jumpIfZero)
    (hb : inst.opcode ≠ .boundsCheckI32) : Plain lines := by
  unfold emitInstruction at h
  split at h
  · obtain ⟨store, hs, h⟩ := bind_eq_ok.mp h
    cases h
    simp [storeIfSpilled_plain hs]
  · exact emitBinaryOp_plain h
  · exact emitBinaryOp_plain h
  · exact emitBinaryOp_plain h
  · obtain ⟨⟨load, srcLoc⟩, h₁, h⟩ := bind_eq_ok.mp h
    obtain ⟨store, hs, h⟩ := bind_eq_ok.mp h
    cases h
    simp only [Plain.append_iff]
    refine ⟨⟨loadRead_plain h₁, ?_⟩, storeIfSpilled_plain hs⟩
    split <;> simp
  · obtain ⟨n, -, h⟩ := bind_eq_ok.mp h
    obtain ⟨store, hs, h⟩ := bind_eq_ok.mp h
    cases h
    simp [storePointerIfSpilled_plain hs]
  · obtain ⟨⟨load, pointerReg⟩, h₁, h⟩ := bind_eq_ok.mp h
    obtain ⟨store, hs, h⟩ := bind_eq_ok.mp h
    cases h
    simp only [Plain.append_iff]
    exact ⟨⟨loadPointer_plain h₁, by simp⟩, storeIfSpilled_plain hs⟩
  · obtain ⟨⟨load, pointerReg⟩, h₁, h⟩ := bind_eq_ok.mp h
    obtain ⟨⟨loadValue, valueLoc⟩, h₂, h⟩ := bind_eq_ok.mp h
    cases h
    simp only [Plain.append_iff]
    exact ⟨⟨loadPointer_plain h₁, loadRead_plain h₂⟩, by simp⟩
  · obtain ⟨⟨load, pointerReg⟩, h₁, h⟩ := bind_eq_ok.mp h
    obtain ⟨⟨loadOffset, offsetLoc⟩, h₂, h⟩ := bind_eq_ok.mp h
    obtain ⟨store, hs, h⟩ := bind_eq_ok.mp h
    cases h
    simp only [Plain.append_iff]
    refine ⟨⟨⟨⟨⟨loadPointer_plain h₁, loadRead_plain h₂⟩, ?_⟩, ?_⟩, ?_⟩,
      storePointerIfSpilled_plain hs⟩
    · simp
    · split <;> simp
    · simp
  · exact emitDiv_plain h
  · exact emitCompare_plain h
  · exact emitCompare_plain h
  · exact emitCompare_plain h
  · exact emitCompare_plain h
  · exact emitCompare_plain h
  · exact emitCompare_plain h
  · split at h
    · cases h
    split at h
    · cases h; exact .nil
    · obtain ⟨store, hs, h⟩ := bind_eq_ok.mp h
      cases h
      simp [storeIfSpilled_plain hs]
  · exact emitCall_plain h
  · exact emitAsm_plain h
  · rename_i e; exact absurd e hb
  · rename_i e; exact absurd e hl
  · rename_i e; exact absurd e hj
  · rename_i e; exact absurd e hz
  · obtain ⟨⟨load, valueLoc⟩, h₁, h⟩ := bind_eq_ok.mp h
    cases h
    simp only [Plain.append_iff]
    refine ⟨⟨loadRead_plain h₁, ?_⟩, by simp⟩
    split <;> simp

theorem emitInstruction_emits {liveness : Table Int LiveRange} {index : Nat}
    {inst : IRInstruction} {lines : List Line}
    (h : emitInstruction allocation liveness index inst = .ok lines) :
    Emits lines (instLabels index inst) (instTargets index inst) := by
  by_cases hl : inst.opcode = .label
  · simp only [emitInstruction, hl] at h
    cases h
    simp only [instLabels, instTargets, hl]
    exact ⟨rfl, rfl, by simp⟩
  by_cases hj : inst.opcode = .jump
  · simp only [emitInstruction, hj] at h
    cases h
    simp only [instLabels, instTargets, hj]
    exact ⟨rfl, rfl, by simp⟩
  by_cases hz : inst.opcode = .jumpIfZero
  · simp only [emitInstruction, hz] at h
    obtain ⟨⟨load, condLoc⟩, h₁, h⟩ := bind_eq_ok.mp h
    cases h
    simp only [instLabels, instTargets, hz]
    exact (Emits.plain (loadRead_plain h₁)).append ⟨rfl, rfl, by simp⟩
  by_cases hb : inst.opcode = .boundsCheckI32
  · simp only [emitInstruction, hb] at h
    obtain ⟨⟨load, indexLoc⟩, h₁, h⟩ := bind_eq_ok.mp h
    cases h
    simp only [instLabels, instTargets, hb]
    exact (Emits.plain (loadRead_plain h₁)).append ⟨rfl, rfl, by simp⟩
  · rw [instLabels, instTargets, if_neg hl, if_neg hb, if_neg fun h => h.elim hj hz]
    exact .plain (emitInstruction_plain h hl hj hz hb)

/-- The names of the labels of the bounds checks from position `i` on. -/
def okLabels (i : Nat) (code : List IRInstruction) : List String :=
  (checkPositions i (checkFlags code)).map okLabel

theorem okLabels_cons (i : Nat) (inst : IRInstruction) (code : List IRInstruction) :
    okLabels i (inst :: code) =
      (if inst.opcode = .boundsCheckI32 then [okLabel i] else []) ++ okLabels (i + 1) code := by
  by_cases h : inst.opcode = .boundsCheckI32 <;> simp [okLabels, checkPositions, h]

theorem emitFrom_emits {liveness : Table Int LiveRange} (code : List IRInstruction) {i : Nat}
    {lines : List Line} (h : emitFrom allocation liveness i code = .ok lines) :
    ∃ ls ts, Emits lines ls ts ∧ ls.Perm (codeLabels code ++ okLabels i code) ∧
      ts ⊆ codeTargets code ++ okLabels i code := by
  induction code generalizing i lines with
  | nil =>
    cases h
    exact ⟨[], [], .plain .nil, .nil, List.nil_subset _⟩
  | cons inst rest ih =>
    obtain ⟨a, ha, h⟩ := bind_eq_ok.mp h
    obtain ⟨b, hb, h⟩ := bind_eq_ok.mp h
    cases h
    obtain ⟨ls, ts, he, hl, ht⟩ := ih hb
    refine ⟨_, _, (emitInstruction_emits ha).append he, ?_, ?_⟩
    · rw [codeLabels_cons, okLabels_cons, instLabels, List.append_assoc, List.append_assoc]
      refine .append_left _ ((hl.append_left _).trans ?_)
      rw [← List.append_assoc, ← List.append_assoc]
      exact .append_right _ List.perm_append_comm
    · rw [codeTargets_cons, okLabels_cons, instTargets]
      intro l h
      have := @ht l
      simp only [List.mem_append] at h this ⊢
      tauto

theorem popParam_plain {dest : Int} {line : Line} (h : popParam allocation dest = .ok line) :
    Plain [line] := by
  unfold popParam at h
  split at h
  · cases h; simp
  · obtain ⟨_, -, h⟩ := bind_eq_ok.mp h
    cases h; simp

theorem prologue_emits {ir : IRFunction} {lines : List Line}
    (h : prologue allocation ir = .ok lines) : Emits lines [ir.name] [] := by
  obtain ⟨pops, hp, h⟩ := bind_eq_ok.mp h
  cases h
  rw [List.append_assoc, List.append_assoc]
  have ha : Emits [.global ir.name, .label ir.name, .instr (.pushq (.reg .rbp)),
      .instr (.movq (.reg .rsp) (.reg .rbp))] [ir.name] [] := ⟨rfl, rfl, by simp⟩
  refine ha.append (.plain ?_)
  simp only [Plain.append_iff]
  refine ⟨?_, ?_, mapM_plain (fun _ _ => popParam_plain) _ hp⟩
  · split <;> simp
  · intro line hl
    obtain ⟨_, -, rfl⟩ := List.mem_map.mp hl
    simp

end X86Codegen

theorem okLabels_eq (Y : Layouts) (function : Function) {code : List IRInstruction}
    (h : checkFlags code = functionChecks Y function) :
    labelNames 0 (blockKinds function.body) ++ X86Codegen.okLabels 0 code =
      (functionLabels Y function).map LocalLabel.name := by
  rw [X86Codegen.okLabels, h, functionLabels, List.map_append, List.map_map]
  rfl

/-- The text of a function defines its name and its local labels, jumps only to these labels, and
ends with its only blank line. -/
theorem compileFunction_labels {iter : List Int → List Int} {f : Layouts × Function}
    {text : List Line} (h : compileFunction iter f.1 f.2 = .ok text) :
    ∃ lines, text = lines ++ [.blank] ∧ .blank ∉ lines ∧
      (labels lines).Perm (f.2.name :: (functionLabels f.1 f.2).map LocalLabel.name) ∧
      targets lines ⊆ (functionLabels f.1 f.2).map LocalLabel.name := by
  obtain ⟨ir, hir, h⟩ := bind_eq_ok.mp h
  obtain ⟨start, hs, h⟩ := bind_eq_ok.mp h
  obtain ⟨body, hb, h⟩ := bind_eq_ok.mp h
  cases h
  obtain ⟨hname, hl, ht, hc⟩ := lower_labels hir
  obtain ⟨ls, ts, he, hls, hts⟩ := X86Codegen.emitFrom_emits _ hb
  have hse := (X86Codegen.prologue_emits hs).append he
  have hp : ls.Perm ((functionLabels f.1 f.2).map LocalLabel.name) := by
    rw [← okLabels_eq _ _ hc]
    exact hls.trans (hl.append_right _)
  refine ⟨start ++ body, rfl, hse.blank, ?_, ?_⟩
  · rw [hse.labels, hname]
    exact .cons _ hp
  · rw [hse.targets]
    intro l hlt
    refine hp.mem_iff.mp (hls.mem_iff.mpr ?_)
    rcases List.mem_append.mp (hts hlt) with h | h
    · exact List.mem_append_left _ (ht h)
    · exact List.mem_append_right _ h

/-! ## Labels of the file -/

/-- The texts between the blank lines: the entry point, then one for each function. -/
def functionTexts (lines : List Line) : List (List Line) := lines.splitOn .blank

/-- No local label is defined twice in the file, and every jump of a function goes to a label that
is defined once, in the same function. -/
structure LabelsResolve (lines : List Line) : Prop where
  unique : ∀ l : LocalLabel, (labels lines).count l.name ≤ 1
  resolve : ∀ text ∈ functionTexts lines, ∀ l ∈ targets text,
    (labels lines).count l = 1 ∧ l ∈ labels text

theorem Identifier.ne_name {name : String} (h : Identifier name) (l : LocalLabel) :
    name ≠ l.name := by
  rintro rfl
  exact absurd (h '.' l.dot_mem_name) (by decide)

theorem mangled_ne_name (unitName name : String) (l : LocalLabel) :
    unitName ++ "__" ++ name ≠ l.name := by
  intro h
  refine l.underscore_not_mem_name ?_
  rw [← h]
  simp

/-- No function has the name of a local label. -/
theorem Source.Parsed.ne_name {source : Source} (h : source.Parsed) :
    ∀ f ∈ source.functions, ∀ l : LocalLabel, f.2.name ≠ l.name := by
  intro f hf l
  cases source with
  | file program =>
    obtain ⟨function, hm, rfl⟩ := List.mem_map.mp hf
    exact (h.functions function hm).ne_name l
  | modules units =>
    obtain ⟨unit, hu, hf⟩ := List.mem_flatMap.mp hf
    obtain ⟨function, hm, rfl⟩ := List.mem_map.mp hf
    cases units with
    | nil => cases hu
    | cons entry rest =>
      rcases List.mem_cons.mp hu with rfl | hu
      · obtain ⟨declared, hd, rfl⟩ := List.mem_map.mp hm
        exact ((h entry List.mem_cons_self).functions declared hd).ne_name l
      · obtain ⟨unit, -, rfl⟩ := List.mem_map.mp hu
        obtain ⟨function, -, rfl⟩ := List.mem_map.mp hm
        exact mangled_ne_name _ _ l

theorem functionTexts_flatten {texts : List (List Line)} (h : ∀ text ∈ texts, .blank ∉ text) :
    functionTexts (texts.map (· ++ [Line.blank])).flatten = texts ++ [[]] := by
  induction texts with
  | nil => rfl
  | cons text texts ih =>
    obtain ⟨ht, h⟩ := List.forall_mem_cons.mp h
    rw [functionTexts, List.map_cons, List.flatten_cons, List.append_assoc, List.singleton_append,
      List.splitOn_append_cons_self_of_not_mem ht]
    exact congrArg _ (ih h)

/-- What the text of a function, up to its blank line, has in common with the function. -/
structure TextOf (f : Layouts × Function) (text : List Line) : Prop where
  blank : .blank ∉ text
  labels : (labels text).Perm (f.2.name :: (functionLabels f.1 f.2).map LocalLabel.name)
  targets : targets text ⊆ (functionLabels f.1 f.2).map LocalLabel.name

/-- The lines of the entry point up to its blank line. -/
def entryLines : List Line :=
  [.text, .global "_start", .label "_start", .instr (.call "main"),
    .instr (.movl (.reg .rax) (.reg .rdi)), .instr (.movlImm 60 .rax), .instr .syscall]

theorem compile_texts {iter : List Int → List Int} {source : Source} {lines : List Line}
    (h : source.compile iter = .ok lines) : ∃ texts, source.functions.Forall₂ TextOf texts ∧
      lines = ((entryLines :: texts).map (· ++ [Line.blank])).flatten := by
  obtain ⟨texts, ht, rfl⟩ := Source.compile_texts h
  have hs : ∀ (fs : List (Layouts × Function)) (texts : List (List Line)),
      fs.Forall₂ (fun f text => compileFunction iter f.1 f.2 = .ok text) texts →
      ∃ ts, fs.Forall₂ TextOf ts ∧ texts = ts.map (· ++ [Line.blank]) := by
    intro fs texts h
    induction h with
    | nil => exact ⟨[], .nil, rfl⟩
    | cons hf _ ih =>
      obtain ⟨ts, hts, rfl⟩ := ih
      obtain ⟨text, rfl, hb, hl, ht⟩ := compileFunction_labels hf
      exact ⟨text :: ts, .cons ⟨hb, hl, ht⟩ hts, rfl⟩
  obtain ⟨ts, hts, rfl⟩ := hs _ _ ht
  exact ⟨ts, hts, rfl⟩

theorem exists_textOf {fs : List (Layouts × Function)} {texts : List (List Line)}
    (h : fs.Forall₂ TextOf texts) : ∀ text ∈ texts, ∃ f ∈ fs, TextOf f text := by
  induction h with
  | nil => exact fun _ h => absurd h List.not_mem_nil
  | cons hf _ ih =>
    refine List.forall_mem_cons.mpr ⟨⟨_, List.mem_cons_self, hf⟩, fun text hm => ?_⟩
    obtain ⟨f, hf, ht⟩ := ih text hm
    exact ⟨f, List.mem_cons_of_mem _ hf, ht⟩

theorem labels_flatten {fs : List (Layouts × Function)} {texts : List (List Line)}
    (h : fs.Forall₂ TextOf texts) :
    (labels ((texts.map (· ++ [Line.blank])).flatten)).Perm
      (fs.flatMap fun f => f.2.name :: (functionLabels f.1 f.2).map LocalLabel.name) := by
  induction h with
  | nil => exact .nil
  | cons hf _ ih =>
    rw [List.map_cons, List.flatten_cons, X86.labels_append, X86.labels_append, List.flatMap_cons]
    refine List.Perm.append ?_ ih
    have hb : labels [Line.blank] = [] := rfl
    rw [hb, List.append_nil]
    exact hf.labels

/-- How often a local label is defined in the file. -/
theorem count_label {fs : List (Layouts × Function)} (hname : ∀ f ∈ fs, ∀ l : LocalLabel,
    f.2.name ≠ l.name) {texts : List (List Line)} (h : fs.Forall₂ TextOf texts) (l : LocalLabel) :
    (labels ((entryLines :: texts).map (· ++ [Line.blank])).flatten).count l.name =
      (fs.flatMap fun f => functionLabels f.1 f.2).count l := by
  have hc : ∀ fs : List (Layouts × Function), (∀ f ∈ fs, ∀ l : LocalLabel, f.2.name ≠ l.name) →
      (fs.flatMap fun f => f.2.name :: (functionLabels f.1 f.2).map LocalLabel.name).count l.name =
        (fs.flatMap fun f => functionLabels f.1 f.2).count l := by
    intro fs hname
    induction fs with
    | nil => rfl
    | cons f fs ih =>
      obtain ⟨hf, hfs⟩ := List.forall_mem_cons.mp hname
      rw [List.flatMap_cons, List.flatMap_cons, List.count_append, List.count_append, ih hfs,
        List.count_cons_of_ne (hf l),
        List.count_map_of_injective _ _ fun _ _ => LocalLabel.name_inj]
  have he : (labels (entryLines ++ [Line.blank])).count l.name = 0 := by
    refine List.count_eq_zero.mpr fun hm => ?_
    obtain h : l.name = "_start" := List.mem_singleton.mp hm
    refine l.underscore_not_mem_name ?_
    rw [h]
    decide
  rw [List.map_cons, List.flatten_cons, X86.labels_append, List.count_append, he, Nat.zero_add,
    (labels_flatten h).count_eq, hc fs hname]

/-- The labels of the file are unique and every jump resolves within its function if and only if
no two functions have a loop or a branch in the same place, or a bounds check at the same
position. -/
theorem labels_resolve {iter : List Int → List Int} {source : Source} {lines : List Line}
    (hsource : source.Parsed) (h : source.compile iter = .ok lines) :
    LabelsResolve lines ↔ source.functions.Pairwise LabelsApart := by
  obtain ⟨texts, ht, rfl⟩ := compile_texts h
  have hcount := count_label hsource.ne_name ht
  have hnodup : (∀ l : LocalLabel, (labels ((entryLines :: texts).map
      (· ++ [Line.blank])).flatten).count l.name ≤ 1) ↔
        source.functions.Pairwise LabelsApart := by
    simp only [hcount, ← List.nodup_iff_count_le_one, List.nodup_flatMap]
    rw [and_iff_right fun (f : Layouts × Function) _ => functionLabels_nodup f.1 f.2]
    exact List.Pairwise.iff fun _ _ => labelsApart_iff.symm
  refine ⟨fun hr => hnodup.mp hr.unique, fun hp => ⟨hnodup.mpr hp, ?_⟩⟩
  have hunique := hnodup.mpr hp
  have hblank : ∀ text ∈ entryLines :: texts, Line.blank ∉ text := by
    refine List.forall_mem_cons.mpr ⟨by decide, fun text hm => ?_⟩
    obtain ⟨f, -, hf⟩ := exists_textOf ht _ hm
    exact hf.blank
  rw [functionTexts_flatten hblank]
  intro text hm l hl
  rcases List.mem_append.mp hm with hm | hm
  · rcases List.mem_cons.mp hm with rfl | hm
    · exact absurd hl List.not_mem_nil
    · obtain ⟨f, hf, hft⟩ := exists_textOf ht _ hm
      obtain ⟨L, hL, rfl⟩ := List.mem_map.mp (hft.targets hl)
      refine ⟨le_antisymm (hunique L) ?_, hft.labels.mem_iff.mpr
        (List.mem_cons_of_mem _ (List.mem_map_of_mem hL))⟩
      rw [hcount]
      exact List.count_pos_iff.mpr (List.mem_flatMap.mpr ⟨f, hf, hL⟩)
  · obtain rfl := List.mem_singleton.mp hm
    cases hl

/-- `fn name(n: i32) -> i32 { <statement> return n; }` -/
def controlFunction (name : String) (statement : Statement) : Function :=
  ⟨name, [⟨"n", "i32"⟩], "i32", [statement, .returnStmt (.variable "n")]⟩

/-- `while (n) { n = n - 1; }` -/
def countdownLoop : Statement :=
  .whileStmt (.variable "n")
    [.assignStmt "n" (.binary '-' (.variable "n") (.integer 1))]

/-- `if (n) { n = 0; }` -/
def resetBranch : Statement :=
  .ifStmt (.variable "n") [.assignStmt "n" (.integer 0)] []

def loopAndBranch : Source :=
  .file ⟨[], [], [], [controlFunction "helper" resetBranch, controlFunction "main" countdownLoop]⟩

def twoLoops : Source :=
  .file ⟨[], [], [],
    [controlFunction "helper" countdownLoop, controlFunction "main" countdownLoop]⟩

theorem file_parsed {functions : List Function}
    (h : functions.all (fun function => decide (Identifier function.name)) = true) :
    (Source.file ⟨[], [], [], functions⟩).Parsed where
  functions function hf := of_decide_eq_true (List.all_eq_true.mp h function hf)
  imports _ h := absurd h List.not_mem_nil

theorem labels_resolve_loopAndBranch :
    ∃ lines, loopAndBranch.compile id = .ok lines ∧ LabelsResolve lines := by
  have hc : (loopAndBranch.compile id).isOk = true := by decide +kernel
  cases e : loopAndBranch.compile id with
  | error => rw [e] at hc; cases hc
  | ok lines =>
    refine ⟨lines, rfl, (labels_resolve (file_parsed (by decide)) e).mpr ?_⟩
    refine .cons (fun g hg => ?_) (List.pairwise_singleton ..)
    obtain rfl := List.mem_singleton.mp hg
    refine ⟨fun k a b ha hb => ?_, fun i hf => ?_⟩
    · cases k with
      | zero => cases ha; cases hb; decide
      | succ k => cases ha
    · exact absurd (List.mem_of_getElem? hf) (by decide)

theorem labels_resolve_counterexample : ∃ lines, twoLoops.Parsed ∧
    twoLoops.compile id = .ok lines ∧ ¬ LabelsResolve lines := by
  have hc : (twoLoops.compile id).toOption.any (fun lines =>
    (labels lines).count (LocalLabel.name ⟨.loopStart, 0⟩) == 2) = true := by decide +kernel
  cases e : twoLoops.compile id with
  | error => rw [e] at hc; cases hc
  | ok lines =>
    rw [e] at hc
    refine ⟨lines, file_parsed (by decide), rfl, fun h => ?_⟩
    have := h.unique ⟨.loopStart, 0⟩
    rw [beq_iff_eq.mp hc] at this
    omega

end Oglang
end Techuila
