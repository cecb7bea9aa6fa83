import Mathlib.Data.List.Pairwise
import Techuila.Oglang.Modules

/-!
# Assembly symbols of modules

* `exprCalls`, `blockCalls`: the call sites of a tree, and what mangling does to them.
* `Resolves`: the function that the checker's signature of a callee comes from; `resolves_of_find`,
  `Resolves.unique`.
* `mangle_eq_iff`: which pairs of a module and a function have one symbol.
* `mangling_sound`: when symbols are distinct and calls reach their functions.
-/

namespace Techuila
namespace Oglang

/-! ## Call sites -/

mutual

/-- The callees of an expression. -/
def exprCalls : Expr → List String
  | .call callee args => callee :: argsCalls args
  | .binary _ left right => exprCalls left ++ exprCalls right
  | .unary _ operand => exprCalls operand
  | .deref pointer => exprCalls pointer
  | .index _ index => exprCalls index
  | .integer _ | .variable _ | .addressOf _ | .fieldAccess _ _ | .asm _ => []

def argsCalls : List Expr → List String
  | [] => []
  | arg :: args => exprCalls arg ++ argsCalls args

end

mutual

def stmtCalls : Statement → List String
  | .letStmt _ _ initializer => exprCalls initializer
  | .returnStmt value => exprCalls value
  | .assignStmt _ value => exprCalls value
  | .storeStmt pointer value => exprCalls pointer ++ exprCalls value
  | .indexStore _ index value => exprCalls index ++ exprCalls value
  | .fieldStore _ _ value => exprCalls value
  | .whileStmt condition body => exprCalls condition ++ blockCalls body
  | .ifStmt condition thenBody elseBody =>
    exprCalls condition ++ (blockCalls thenBody ++ blockCalls elseBody)
  | .arrayDecl _ _ _ | .structVarDecl _ _ => []

def blockCalls : List Statement → List String
  | [] => []
  | statement :: body => stmtCalls statement ++ blockCalls body

end

section Mangle

variable (modulePrefix : String) (mangleThisModule : Bool)

mutual

theorem exprCalls_mangle : ∀ e : Expr,
    exprCalls (mangleCallsInExpr modulePrefix mangleThisModule e) =
      (exprCalls e).map (mangleCallee modulePrefix mangleThisModule)
  | .call callee args => by
    rw [mangleCallsInExpr, exprCalls, exprCalls, List.map_cons, argsCalls_mangle]
  | .binary op left right => by
    rw [mangleCallsInExpr, exprCalls, exprCalls, List.map_append, exprCalls_mangle left,
      exprCalls_mangle right]
  | .unary op operand => by rw [mangleCallsInExpr, exprCalls, exprCalls, exprCalls_mangle operand]
  | .deref pointer => by rw [mangleCallsInExpr, exprCalls, exprCalls, exprCalls_mangle pointer]
  | .index arrayName index => by
    rw [mangleCallsInExpr, exprCalls, exprCalls, exprCalls_mangle index]
  | .integer _ | .variable _ | .addressOf _ | .fieldAccess _ _ | .asm _ => by
    simp [mangleCallsInExpr, exprCalls]

theorem argsCalls_mangle : ∀ args : List Expr,
    argsCalls (mangleCallsInArgs modulePrefix mangleThisModule args) =
      (argsCalls args).map (mangleCallee modulePrefix mangleThisModule)
  | [] => rfl
  | arg :: args => by
    rw [mangleCallsInArgs, argsCalls, argsCalls, List.map_append, exprCalls_mangle arg,
      argsCalls_mangle args]

end

mutual

theorem stmtCalls_mangle : ∀ s : Statement,
    stmtCalls (mangleCallsInStatement modulePrefix mangleThisModule s) =
      (stmtCalls s).map (mangleCallee modulePrefix mangleThisModule)
  | .letStmt name type initializer => by
    rw [mangleCallsInStatement, stmtCalls, stmtCalls, exprCalls_mangle]
  | .returnStmt value => by rw [mangleCallsInStatement, stmtCalls, stmtCalls, exprCalls_mangle]
  | .assignStmt name value => by
    rw [mangleCallsInStatement, stmtCalls, stmtCalls, exprCalls_mangle]
  | .storeStmt pointer value => by
    simp only [mangleCallsInStatement, stmtCalls, exprCalls_mangle, List.map_append]
  | .indexStore arrayName index value => by
    simp only [mangleCallsInStatement, stmtCalls, exprCalls_mangle, List.map_append]
  | .fieldStore structVarName fieldName value => by
    rw [mangleCallsInStatement, stmtCalls, stmtCalls, exprCalls_mangle]
  | .whileStmt condition body => by
    simp only [mangleCallsInStatement, stmtCalls, exprCalls_mangle, List.map_append,
      blockCalls_mangle body]
  | .ifStmt condition thenBody elseBody => by
    simp only [mangleCallsInStatement, stmtCalls, exprCalls_mangle, List.map_append,
      blockCalls_mangle thenBody, blockCalls_mangle elseBody]
  | .arrayDecl _ _ _ | .structVarDecl _ _ => by simp [mangleCallsInStatement, stmtCalls]

theorem blockCalls_mangle : ∀ body : List Statement,
    blockCalls (mangleCallsInBlock modulePrefix mangleThisModule body) =
      (blockCalls body).map (mangleCallee modulePrefix mangleThisModule)
  | [] => rfl
  | statement :: body => by
    rw [mangleCallsInBlock, blockCalls, blockCalls, List.map_append, stmtCalls_mangle statement,
      blockCalls_mangle body]

end

end Mangle

/-! ## Checked callees have a signature -/

namespace Checker

mutual

theorem checkExpr_calls (c : Checker) : ∀ (e : Expr) {type : String},
    c.checkExpr e = .ok type → ∀ callee ∈ exprCalls e, ∃ sig, c.signatures.find callee = some sig
  | .call callee args, type, h => by
    rw [checkExpr] at h
    split at h
    · cases h
    rename_i sig hs
    obtain ⟨-, h⟩ := ite_error_eq_ok.mp h
    obtain ⟨⟨⟩, ha, -⟩ := bind_eq_ok.mp h
    exact List.forall_mem_cons.mpr ⟨⟨sig, hs⟩, checkArgs_calls c args ha⟩
  | .binary op left right, type, h => by
    obtain ⟨leftType, hl, h⟩ := bind_eq_ok.mp h
    obtain ⟨rightType, hr, -⟩ := bind_eq_ok.mp h
    exact List.forall_mem_append.mpr ⟨checkExpr_calls c left hl, checkExpr_calls c right hr⟩
  | .unary op operand, type, h => by
    obtain ⟨operandType, ho, -⟩ := bind_eq_ok.mp h
    exact checkExpr_calls c operand ho
  | .deref pointer, type, h => by
    obtain ⟨pointerType, hp, -⟩ := bind_eq_ok.mp h
    exact checkExpr_calls c pointer hp
  | .index arrayName index, type, h => by
    rw [checkExpr] at h
    split at h
    · cases h
    obtain ⟨indexType, hi, -⟩ := bind_eq_ok.mp h
    exact checkExpr_calls c index hi
  | .integer _, _, _ | .variable _, _, _ | .addressOf _, _, _ | .fieldAccess _ _, _, _
  | .asm _, _, _ => by simp [exprCalls]

theorem checkArgs_calls (c : Checker) : ∀ (args : List Expr) {callee : String} {i : Nat}
    {types : List String}, c.checkArgs callee i args types = .ok () →
      ∀ name ∈ argsCalls args, ∃ sig, c.signatures.find name = some sig
  | [], _, _, _, _ => by simp [argsCalls]
  | arg :: args, callee, i, types, h => by
    rw [checkArgs] at h
    obtain ⟨argType, ha, h⟩ := bind_eq_ok.mp h
    obtain ⟨-, h⟩ := ite_error_eq_ok.mp h
    exact List.forall_mem_append.mpr ⟨checkExpr_calls c arg ha, checkArgs_calls c args h⟩

end

mutual

theorem checkStatement_calls {functionReturnType : String} : ∀ (s : Statement) {c c' : Checker},
    checkStatement functionReturnType c s = .ok c' → c'.signatures = c.signatures ∧
      ∀ callee ∈ stmtCalls s, ∃ sig, c.signatures.find callee = some sig
  | .letStmt name type initializer, c, c', h => by
    obtain ⟨actual, ha, h⟩ := bind_eq_ok.mp h
    obtain ⟨-, h⟩ := ite_error_eq_ok.mp h
    cases h
    exact ⟨rfl, checkExpr_calls c _ ha⟩
  | .returnStmt value, c, c', h => by
    obtain ⟨actual, ha, h⟩ := bind_eq_ok.mp h
    obtain ⟨-, h⟩ := ite_error_eq_ok.mp h
    cases h
    exact ⟨rfl, checkExpr_calls c _ ha⟩
  | .assignStmt name value, c, c', h => by
    rw [checkStatement] at h
    split at h
    · cases h
    obtain ⟨actual, ha, h⟩ := bind_eq_ok.mp h
    obtain ⟨-, h⟩ := ite_error_eq_ok.mp h
    cases h
    exact ⟨rfl, checkExpr_calls c _ ha⟩
  | .storeStmt pointer value, c, c', h => by
    obtain ⟨pointerType, hp, h⟩ := bind_eq_ok.mp h
    obtain ⟨-, h⟩ := ite_error_eq_ok.mp h
    obtain ⟨-, h⟩ := ite_error_eq_ok.mp h
    obtain ⟨valueType, hv, h⟩ := bind_eq_ok.mp h
    obtain ⟨-, h⟩ := ite_error_eq_ok.mp h
    cases h
    exact ⟨rfl, List.forall_mem_append.mpr ⟨checkExpr_calls c _ hp, checkExpr_calls c _ hv⟩⟩
  | .indexStore arrayName index value, c, c', h => by
    rw [checkStatement] at h
    split at h
    · cases h
    obtain ⟨indexType, hi, h⟩ := bind_eq_ok.mp h
    obtain ⟨-, h⟩ := ite_error_eq_ok.mp h
    obtain ⟨valueType, hv, h⟩ := bind_eq_ok.mp h
    obtain ⟨-, h⟩ := ite_error_eq_ok.mp h
    cases h
    exact ⟨rfl, List.forall_mem_append.mpr ⟨checkExpr_calls c _ hi, checkExpr_calls c _ hv⟩⟩
  | .fieldStore structVarName fieldName value, c, c', h => by
    obtain ⟨fieldType, -, h⟩ := bind_eq_ok.mp h
    obtain ⟨valueType, hv, h⟩ := bind_eq_ok.mp h
    obtain ⟨-, h⟩ := ite_error_eq_ok.mp h
    cases h
    exact ⟨rfl, checkExpr_calls c _ hv⟩
  | .whileStmt condition body, c, c', h => by
    obtain ⟨condType, hc, h⟩ := bind_eq_ok.mp h
    obtain ⟨-, h⟩ := ite_error_eq_ok.mp h
    obtain ⟨hs, hb⟩ := checkBlock_calls body h
    exact ⟨hs, List.forall_mem_append.mpr ⟨checkExpr_calls c _ hc, hb⟩⟩
  | .ifStmt condition thenBody elseBody, c, c', h => by
    obtain ⟨condType, hc, h⟩ := bind_eq_ok.mp h
    obtain ⟨-, h⟩ := ite_error_eq_ok.mp h
    obtain ⟨c₁, h₁, h⟩ := bind_eq_ok.mp h
    obtain ⟨hs, hb⟩ := checkBlock_calls thenBody h₁
    obtain ⟨hs', hb'⟩ := checkBlock_calls elseBody h
    rw [hs] at hs' hb'
    exact ⟨hs', List.forall_mem_append.mpr
      ⟨checkExpr_calls c _ hc, List.forall_mem_append.mpr ⟨hb, hb'⟩⟩⟩
  | .arrayDecl name elementType size, c, c', h => by
    rw [checkStatement, ite_error_eq_ok, ite_error_eq_ok] at h
    cases h.2.2
    exact ⟨rfl, by simp [stmtCalls]⟩
  | .structVarDecl name structType, c, c', h => by
    rw [checkStatement] at h
    split at h
    · cases h
      exact ⟨rfl, by simp [stmtCalls]⟩
    · cases h

theorem checkBlock_calls {functionReturnType : String} : ∀ (body : List Statement)
    {c c' : Checker}, checkBlock functionReturnType c body = .ok c' →
      c'.signatures = c.signatures ∧
        ∀ callee ∈ blockCalls body, ∃ sig, c.signatures.find callee = some sig
  | [], c, c', h => by
    cases h
    exact ⟨rfl, by simp [blockCalls]⟩
  | statement :: body, c, c', h => by
    rw [checkBlock] at h
    obtain ⟨c₁, h₁, h⟩ := bind_eq_ok.mp h
    obtain ⟨hs, hc⟩ := checkStatement_calls statement h₁
    obtain ⟨hs', hc'⟩ := checkBlock_calls body h
    rw [hs] at hs' hc'
    exact ⟨hs', List.forall_mem_append.mpr ⟨hc, hc'⟩⟩

end

end Checker

theorem checkFunction_calls {symbols : ModuleSymbols} {function : Function}
    (h : TypeChecker.checkFunction symbols function = .ok ()) :
    ∀ callee ∈ blockCalls function.body, ∃ sig, symbols.signatures.find callee = some sig := by
  obtain ⟨c, hc, -⟩ := bind_eq_ok.mp h
  exact (Checker.checkBlock_calls _ hc).2

/-! ## Names -/

theorem Identifier.dot_not_mem {name : String} (h : Identifier name) : '.' ∉ name.toList :=
  fun hm => absurd (h '.' hm) (by decide)

/-- A qualified name determines its parts. -/
theorem qualified_inj {m n f g : String} (hm : Identifier m) (hf : Identifier f)
    (h : m ++ "." ++ f = n ++ "." ++ g) : m = n ∧ f = g := by
  have h := congrArg String.toList h
  simp only [String.toList_append, List.append_assoc] at h
  obtain ⟨hmn, -, hfg⟩ :=
    (List.append_cons_inj_of_notMem hm.dot_not_mem hf.dot_not_mem).mp h
  exact ⟨String.toList_inj.mp hmn, String.toList_inj.mp hfg⟩

theorem qualified_not_identifier (m f : String) : ¬ Identifier (m ++ "." ++ f) := by
  intro h
  refine h.dot_not_mem ?_
  simp

/-- How a call site of a module spells the symbol of a qualified callee. -/
theorem mangleCallee_qualified {m f : String} (hm : Identifier m) (hf : Identifier f)
    (modulePrefix : String) (mangleThisModule : Bool) :
    mangleCallee modulePrefix mangleThisModule (m ++ "." ++ f) = m ++ "__" ++ f := by
  have hr : ∀ l : List Char, '.' ∉ l →
      l.flatMap (fun d => if d = '.' then "__".toList else [d]) = l := by
    intro l hl
    induction l with
    | nil => rfl
    | cons c l ih =>
      obtain ⟨hc, hl⟩ := not_or.mp fun e => hl (List.mem_cons.mpr e)
      rw [List.flatMap_cons, ih hl, if_neg (Ne.symm hc), List.singleton_append]
  have hdot : '.' ∈ (m ++ "." ++ f).toList := by simp
  rw [mangleCallee, if_pos hdot, replaceAll]
  refine String.toList_inj.mp ?_
  simp only [String.toList_append, String.toList_ofList, List.flatMap_append,
    hr _ hm.dot_not_mem, hr _ hf.dot_not_mem]
  rfl

theorem mangleCallee_own {f : String} (hf : Identifier f) (modulePrefix : String) (isEntry : Bool) :
    mangleCallee modulePrefix (!isEntry) f = mangleDeclaration modulePrefix isEntry f := by
  rw [mangleCallee, if_neg hf.dot_not_mem, mangleDeclaration]
  cases isEntry <;> rfl

/-- `m__f` and `n__g` overlap although the modules differ: `n` continues into `f`. -/
def Overlap (m f n g : String) : Prop :=
  (n = m ++ "_" ∧ f = "_" ++ g) ∨ ∃ y, n = m ++ "__" ++ y ∧ f = y ++ "__" ++ g

theorem append_overlap {a b x y : List Char} (h : a ++ '_' :: '_' :: x = b ++ '_' :: '_' :: y)
    (hlt : a.length < b.length) : (b = a ++ ['_'] ∧ x = '_' :: y) ∨
      ∃ z, b = a ++ '_' :: '_' :: z ∧ x = z ++ '_' :: '_' :: y := by
  rcases List.append_eq_append_iff.mp h with ⟨e, rfl, he⟩ | ⟨e, rfl, -⟩
  · match e, he with
    | [], _ => simp at hlt
    | [c], he =>
      simp only [List.cons_append, List.nil_append, List.cons.injEq] at he
      obtain ⟨rfl, -, rfl⟩ := he
      exact .inl ⟨rfl, rfl⟩
    | c :: d :: z, he =>
      simp only [List.cons_append, List.cons.injEq] at he
      obtain ⟨rfl, rfl, rfl⟩ := he
      exact .inr ⟨z, rfl, rfl⟩
  · simp at hlt

theorem overlap_of_lt {m f n g : String} (h : m ++ "__" ++ f = n ++ "__" ++ g)
    (hlt : m.toList.length < n.toList.length) : Overlap m f n g := by
  have h := congrArg String.toList h
  simp only [String.toList_append, List.append_assoc] at h
  rcases append_overlap (x := f.toList) (y := g.toList) h hlt with ⟨hn, hf⟩ | ⟨z, hn, hf⟩
  · refine .inl ⟨String.toList_inj.mp ?_, String.toList_inj.mp ?_⟩
    · rw [hn, String.toList_append]; rfl
    · rw [hf, String.toList_append]; rfl
  · refine .inr ⟨String.ofList z, String.toList_inj.mp ?_, String.toList_inj.mp ?_⟩
    · simp only [String.toList_append, String.toList_ofList, hn, List.append_assoc]; rfl
    · simp only [String.toList_append, String.toList_ofList, hf, List.append_assoc]; rfl

theorem Overlap.eq {m f n g : String} (h : Overlap m f n g) :
    m ++ "__" ++ f = n ++ "__" ++ g := by
  rcases h with ⟨rfl, rfl⟩ | ⟨y, rfl, rfl⟩
  · refine String.toList_inj.mp ?_
    simp only [String.toList_append, List.append_assoc]
    rfl
  · simp only [String.append_assoc]

/-- Which modules and functions have the same symbol. -/
theorem mangle_eq_iff {m f n g : String} : m ++ "__" ++ f = n ++ "__" ++ g ↔
    (m = n ∧ f = g) ∨ Overlap m f n g ∨ Overlap n g m f := by
  constructor
  · intro h
    rcases Nat.lt_trichotomy m.toList.length n.toList.length with hlt | he | hlt
    · exact .inr (.inl (overlap_of_lt h hlt))
    · have h := congrArg String.toList h
      simp only [String.toList_append, List.append_assoc] at h
      obtain ⟨hmn, h⟩ := List.append_inj h he
      exact .inl ⟨String.toList_inj.mp hmn, String.toList_inj.mp (List.append_cancel_left h)⟩
    · exact .inr (.inr (overlap_of_lt h.symm hlt))
  · rintro (⟨rfl, rfl⟩ | h | h)
    · rfl
    · exact h.eq
    · exact h.eq.symm

theorem mangled_ne_self (m f : String) : m ++ "__" ++ f ≠ f := by
  intro h
  have := congrArg (fun s : String => s.toList.length) h
  simp at this
  omega

theorem mangled_ne_start (m f : String) : m ++ "__" ++ f ≠ "_start" := by
  intro h
  have := congrArg (fun s : String => s.toList.count '_') h
  simp only [String.toList_append, List.count_append] at this
  have h₁ : "__".toList.count '_' = 2 := by decide
  have h₂ : "_start".toList.count '_' = 1 := by decide
  omega

/-! ## Resolution -/

/-- The callee in unit `i` names the function of unit `j`: an own function by its name, or a
function of an imported module by its qualified name. -/
inductive Resolves (units : List ModuleUnit) (i : Nat) (callee : String) : Nat → Function → Prop
  | own {unit : ModuleUnit} {function : Function} : units[i]? = some unit →
      function ∈ unit.program.functions → function.name = callee →
      Resolves units i callee i function
  | imported {unit dep : ModuleUnit} {imp : ImportDecl} {j : Nat} {function : Function} :
      units[i]? = some unit → imp ∈ unit.program.imports → units[j]? = some dep →
      dep.name = imp.moduleName → function ∈ dep.program.functions →
      callee = dep.name ++ "." ++ function.name → Resolves units i callee j function

section Accepted

variable {units : List ModuleUnit} {t : Table String Nat}

theorem getElem?_inj_of_nodup {names : List String} (h : names.Nodup) {i j : Nat} {name : String}
    (hi : names[i]? = some name) (hj : names[j]? = some name) : i = j :=
  (List.getElem?_inj (List.getElem?_eq_some_iff.mp hi).1 h).mp (hi.trans hj.symm)

theorem Accepted.unit_inj (ha : Accepted units t) {i j : Nat} {unit unit' : ModuleUnit}
    (hi : units[i]? = some unit) (hj : units[j]? = some unit') (h : unit.name = unit'.name) :
    i = j := by
  have hi : (units.map (·.name))[i]? = some unit.name := by rw [List.getElem?_map, hi]; rfl
  have hj : (units.map (·.name))[j]? = some unit.name := by rw [List.getElem?_map, hj, h]; rfl
  exact getElem?_inj_of_nodup ha.names hi hj

theorem Accepted.function_inj (ha : Accepted units t) {unit : ModuleUnit} (hu : unit ∈ units)
    {f g : Function} (hf : f ∈ unit.program.functions) (hg : g ∈ unit.program.functions)
    (h : f.name = g.name) : f = g :=
  List.inj_on_of_nodup_map (TypeChecker.collectModuleSymbols_spec (ha.symbols unit hu)).1 hf hg h

theorem Resolves.unique (ha : Accepted units t) (hp : ∀ unit ∈ units, unit.program.Parsed)
    {i j j' : Nat} {callee : String} {f f' : Function} (h : Resolves units i callee j f)
    (h' : Resolves units i callee j' f') : j = j' ∧ f = f' := by
  have hid : ∀ {k : Nat} {unit : ModuleUnit} {g : Function}, units[k]? = some unit →
      g ∈ unit.program.functions → Identifier g.name := fun hk hg =>
    (hp _ (List.mem_of_getElem? hk)).functions _ hg
  cases h with
  | own hu hf hn =>
    cases h' with
    | own hu' hf' hn' =>
      rw [hu] at hu'
      cases hu'
      exact ⟨rfl, ha.function_inj (List.mem_of_getElem? hu) hf hf' (hn.trans hn'.symm)⟩
    | imported _ _ _ _ _ hc =>
      exact absurd (hc ▸ hn ▸ hid hu hf) (qualified_not_identifier _ _)
  | imported hu himp hd hdn hf hc =>
    cases h' with
    | own hu' hf' hn' => exact absurd (hc ▸ hn' ▸ hid hu' hf') (qualified_not_identifier _ _)
    | imported hu' himp' hd' hdn' hf' hc' =>
      have hi := (hp _ (List.mem_of_getElem? hu)).imports _ himp
      obtain ⟨hn, hfn⟩ := qualified_inj (hdn ▸ hi) (hid hd hf) (hc.symm.trans hc')
      obtain rfl := ha.unit_inj hd hd' hn
      rw [hd] at hd'
      cases hd'
      exact ⟨rfl, ha.function_inj (List.mem_of_getElem? hd) hf hf' hfn⟩

theorem externalSymbols_find (own : List ModuleSymbols) (imports : List ImportDecl)
    {external : ModuleSymbols} {callee : String} {sig : FunctionSignature}
    (h : (externalSymbols units t own imports external).signatures.find callee = some sig) :
    (∃ imp ∈ imports, ∃ e ∈ ((own[(t.find imp.moduleName).getD 0]?).getD {}).signatures,
      ((units[(t.find imp.moduleName).getD 0]?).map ModuleUnit.name).getD "" ++ "." ++ e.1 =
        callee ∧ e.2 = sig) ∨ external.signatures.find callee = some sig := by
  induction imports generalizing external with
  | nil => exact .inr h
  | cons imp rest ih =>
    rcases ih h with ⟨imp', hi, he⟩ | h
    · exact .inl ⟨imp', List.mem_cons_of_mem _ hi, he⟩
    · rcases Table.find_insertAll h with ⟨e, he, hk⟩ | h
      · exact .inl ⟨imp, List.mem_cons_self, e, he, hk⟩
      · exact .inr h

/-- A signature that the checker finds is that of the function that the callee names. -/
theorem resolves_of_find (ha : Accepted units t) {i : Nat} {unit : ModuleUnit}
    (hi : units[i]? = some unit) {callee : String} {sig : FunctionSignature}
    (h : (symbolsOf units t unit).signatures.find callee = some sig) :
    ∃ j function, Resolves units i callee j function ∧ function.signature = sig := by
  rcases Table.find_insertAll h with ⟨e, he, hn, hs⟩ | h
  · obtain ⟨function, hf, hfn, hfs⟩ :=
      (TypeChecker.collectModuleSymbols_spec (ha.symbols unit (List.mem_of_getElem? hi))).2 e he
    exact ⟨i, function, .own hi hf (hfn.trans hn), hfs.trans hs⟩
  · rcases externalSymbols_find _ _ h with ⟨imp, himp, e, he, hn, hs⟩ | h
    · obtain ⟨j, hj, -⟩ := ha.imports i unit hi imp himp
      obtain ⟨dep, hd, hdn⟩ := ha.index _ _ hj
      rw [hj, Option.getD_some, allSymbols, List.getElem?_map, hd] at he
      rw [hj, Option.getD_some, hd] at hn
      obtain ⟨function, hf, hfn, hfs⟩ :=
        (TypeChecker.collectModuleSymbols_spec (ha.symbols dep (List.mem_of_getElem? hd))).2 e he
      refine ⟨j, function, .imported hi himp hd hdn hf ?_, hfs.trans hs⟩
      rw [hfn]
      exact hn.symm
    · cases h

end Accepted

/-! ## Symbols and call sites after mangling -/

/-- The symbol at a call site in unit `i` is that of the function that the checker's signature of
the callee comes from. -/
def OnTarget (units : List ModuleUnit) (t : Table String Nat) (i : Nat) (callee symbol : String) :
    Prop :=
  ∃ (unit : ModuleUnit) (sig : FunctionSignature) (j : Nat) (dep : ModuleUnit)
    (function : Function), units[i]? = some unit ∧
      (symbolsOf units t unit).signatures.find callee = some sig ∧
      Resolves units i callee j function ∧ function.signature = sig ∧ units[j]? = some dep ∧
      symbol = mangleDeclaration dep.name (j == 0) function.name

/-- Symbols are distinct, and every call site has the symbol of its function. -/
structure Mangled (units : List ModuleUnit) (t : Table String Nat) : Prop where
  distinct : ("_start" :: (mangleUnits units).flatMap fun unit =>
    unit.program.functions.map Function.name).Nodup
  onTarget : ∀ (i : Nat) (unit unit' : ModuleUnit), units[i]? = some unit →
    (mangleUnits units)[i]? = some unit' → unit.program.functions.Forall₂
      (fun function function' =>
        (blockCalls function.body).Forall₂ (OnTarget units t i) (blockCalls function'.body))
      unit'.program.functions

/-- No function of the entry module is called `_start` or like the symbol of another function, no
two modules overlap, and nobody calls into the entry module. -/
structure NamesApart (entry : ModuleUnit) (rest : List ModuleUnit) : Prop where
  start : ∀ f ∈ entry.program.functions, f.name ≠ "_start"
  apart : ∀ f ∈ entry.program.functions, ∀ unit ∈ rest, ∀ g ∈ unit.program.functions,
    f.name ≠ unit.name ++ "__" ++ g.name
  overlap : ∀ unit ∈ rest, ∀ unit' ∈ rest, ∀ f ∈ unit.program.functions,
    ∀ g ∈ unit'.program.functions, ¬ Overlap unit.name f.name unit'.name g.name
  calls : ∀ unit ∈ rest, ∀ function ∈ unit.program.functions,
    ∀ callee ∈ blockCalls function.body, ∀ name, callee ≠ entry.name ++ "." ++ name

/-- The symbols of a unit's functions. -/
def unitSymbols (isEntry : Bool) (unit : ModuleUnit) : List String :=
  unit.program.functions.map fun function => mangleDeclaration unit.name isEntry function.name

theorem mangleUnit_symbols (unit : ModuleUnit) (isEntry : Bool) :
    (mangleUnit unit isEntry).program.functions.map Function.name = unitSymbols isEntry unit := by
  simp [mangleUnit, unitSymbols, mangleFunction, Function.comp_def]

theorem mem_unitSymbols {isEntry : Bool} {unit : ModuleUnit} {symbol : String} :
    symbol ∈ unitSymbols isEntry unit ↔ ∃ f ∈ unit.program.functions,
      mangleDeclaration unit.name isEntry f.name = symbol := List.mem_map

theorem mangleDeclaration_inj {unitName f g : String} {isEntry : Bool}
    (h : mangleDeclaration unitName isEntry f = mangleDeclaration unitName isEntry g) : f = g := by
  cases isEntry with
  | true => exact h
  | false =>
    have h := congrArg String.toList (show unitName ++ "__" ++ f = unitName ++ "__" ++ g from h)
    simp only [String.toList_append] at h
    exact String.toList_inj.mp (List.append_cancel_left h)

section Accepted

variable {units : List ModuleUnit} {t : Table String Nat}

theorem Accepted.unitSymbols_nodup (ha : Accepted units t) {unit : ModuleUnit}
    (hu : unit ∈ units) (isEntry : Bool) : (unitSymbols isEntry unit).Nodup := by
  have hn := (TypeChecker.collectModuleSymbols_spec (ha.symbols unit hu)).1
  have : unitSymbols isEntry unit =
      (unit.program.functions.map Function.name).map (mangleDeclaration unit.name isEntry) := by
    simp [unitSymbols, Function.comp_def]
  rw [this]
  exact hn.map fun _ _ => mangleDeclaration_inj

theorem symbols_nodup_iff {entry : ModuleUnit} {rest : List ModuleUnit}
    (ha : Accepted (entry :: rest) t) :
    ("_start" :: (mangleUnits (entry :: rest)).flatMap fun unit =>
      unit.program.functions.map Function.name).Nodup ↔
      (∀ f ∈ entry.program.functions, f.name ≠ "_start") ∧
      (∀ f ∈ entry.program.functions, ∀ unit ∈ rest, ∀ g ∈ unit.program.functions,
        f.name ≠ unit.name ++ "__" ++ g.name) ∧
      ∀ unit ∈ rest, ∀ unit' ∈ rest, ∀ f ∈ unit.program.functions,
        ∀ g ∈ unit'.program.functions, ¬ Overlap unit.name f.name unit'.name g.name := by
  have hsymbols : ((mangleUnits (entry :: rest)).flatMap fun unit =>
      unit.program.functions.map Function.name) =
        unitSymbols true entry ++ rest.flatMap (unitSymbols false) := by
    simp only [mangleUnits, List.flatMap_cons, mangleUnit_symbols, List.flatMap_map]
  have hname := List.nodup_cons.mp ha.names
  have hrest : (rest.flatMap (unitSymbols false)).Nodup ↔
      ∀ unit ∈ rest, ∀ unit' ∈ rest, ∀ f ∈ unit.program.functions,
        ∀ g ∈ unit'.program.functions, ¬ Overlap unit.name f.name unit'.name g.name := by
    rw [List.nodup_flatMap]
    constructor
    · rintro ⟨-, h⟩ unit hu unit' hu' f hf g hg ho
      have hne : unit ≠ unit' := by
        rintro rfl
        rcases ho with ⟨e, -⟩ | ⟨y, e, -⟩
        · have := congrArg (fun s : String => s.toList.length) e
          simp at this
        · have := congrArg (fun s : String => s.toList.length) e
          simp at this
      have hsymm : Std.Symm (Function.onFun List.Disjoint (unitSymbols false)) :=
        ⟨fun a b h => h.symm⟩
      exact h.forall hu hu' hne (mem_unitSymbols.mpr ⟨f, hf, rfl⟩)
        (mem_unitSymbols.mpr ⟨g, hg, ho.eq.symm⟩)
    · intro h
      refine ⟨fun unit hu => ha.unitSymbols_nodup (List.mem_cons_of_mem _ hu) _, ?_⟩
      refine (List.Nodup.of_map _ hname.2).pairwise_of_forall_ne fun unit hu unit' hu' hne => ?_
      intro symbol hs hs'
      obtain ⟨f, hf, rfl⟩ := mem_unitSymbols.mp hs
      obtain ⟨g, hg, e⟩ := mem_unitSymbols.mp hs'
      rcases mangle_eq_iff.mp e with ⟨e, -⟩ | ho | ho
      · exact hne (List.inj_on_of_nodup_map hname.2 hu hu' e.symm)
      · exact h unit' hu' unit hu g hg f hf ho
      · exact h unit hu unit' hu' f hf g hg ho
  rw [hsymbols, List.nodup_cons, List.nodup_append, List.mem_append, not_or, hrest]
  constructor
  · rintro ⟨⟨hs, -⟩, -, hr, hd⟩
    refine ⟨fun f hf e => hs (mem_unitSymbols.mpr ⟨f, hf, e⟩), fun f hf unit hu g hg e => ?_, hr⟩
    exact hd _ (mem_unitSymbols.mpr ⟨f, hf, rfl⟩) _
      (List.mem_flatMap.mpr ⟨unit, hu, mem_unitSymbols.mpr ⟨g, hg, rfl⟩⟩) e
  · rintro ⟨hs, he, hr⟩
    refine ⟨⟨fun hm => ?_, fun hm => ?_⟩, ha.unitSymbols_nodup List.mem_cons_self _, hr, ?_⟩
    · obtain ⟨f, hf, e⟩ := mem_unitSymbols.mp hm
      exact hs f hf e
    · obtain ⟨unit, -, hm⟩ := List.mem_flatMap.mp hm
      obtain ⟨f, -, e⟩ := mem_unitSymbols.mp hm
      exact mangled_ne_start _ _ e
    · rintro _ hm _ hm' rfl
      obtain ⟨f, hf, e⟩ := mem_unitSymbols.mp hm
      obtain ⟨unit, hu, hm'⟩ := List.mem_flatMap.mp hm'
      obtain ⟨g, hg, e'⟩ := mem_unitSymbols.mp hm'
      exact he f hf unit hu g hg (e.trans e'.symm)

end Accepted

/-! ## When mangling is sound -/

section Accepted

variable {units : List ModuleUnit} {t : Table String Nat}

/-- A checked callee is spelled as the symbol of its function unless it is a qualified function of
the entry module. -/
theorem onTarget_iff (ha : Accepted units t) (hp : ∀ unit ∈ units, unit.program.Parsed)
    {entry : ModuleUnit} (hentry : units[0]? = some entry) {i : Nat} {unit : ModuleUnit}
    (hi : units[i]? = some unit) {callee : String} {sig : FunctionSignature}
    (hs : (symbolsOf units t unit).signatures.find callee = some sig) :
    OnTarget units t i callee (mangleCallee unit.name (!(i == 0)) callee) ↔
      ∀ name, callee ≠ entry.name ++ "." ++ name := by
  obtain ⟨j, function, hr, hsig⟩ := resolves_of_find ha hi hs
  have hiff : ∀ dep : ModuleUnit, units[j]? = some dep →
      (OnTarget units t i callee (mangleCallee unit.name (!(i == 0)) callee) ↔
        mangleCallee unit.name (!(i == 0)) callee =
          mangleDeclaration dep.name (j == 0) function.name) := by
    intro dep hd
    constructor
    · rintro ⟨unit', sig', j', dep', function', hi', -, hr', -, hd', e⟩
      obtain ⟨rfl, rfl⟩ := hr.unique ha hp hr'
      rw [hd] at hd'
      cases hd'
      exact e
    · exact fun e => ⟨unit, sig, j, dep, function, hi, hs, hr, hsig, hd, e⟩
  have hid : ∀ {k : Nat} {u : ModuleUnit} {g : Function}, units[k]? = some u →
      g ∈ u.program.functions → Identifier g.name := fun hk hg =>
    (hp _ (List.mem_of_getElem? hk)).functions _ hg
  cases hr with
  | own hu hf hn =>
    rw [hi] at hu
    cases hu
    have hcallee : Identifier callee := hn ▸ hid hi hf
    refine iff_of_true ((hiff unit hi).mpr ?_) fun name e =>
      qualified_not_identifier _ _ (e ▸ hcallee)
    rw [mangleCallee_own hcallee, hn]
  | imported hu himp hd hdn hf hc =>
    rename_i unit' dep imp
    have hdep : Identifier dep.name := hdn ▸ (hp _ (List.mem_of_getElem? hu)).imports _ himp
    have hfn := hid hd hf
    rw [hiff dep hd, hc, mangleCallee_qualified hdep hfn]
    by_cases hj : j = 0
    · subst hj
      rw [hentry] at hd
      cases hd
      exact iff_of_false (mangled_ne_self _ _) fun h => h _ rfl
    · have hj' : (j == 0) = false := beq_false_of_ne hj
      refine iff_of_true (by rw [hj']; rfl) fun name e => ?_
      exact hj (ha.unit_inj hd hentry (qualified_inj hdep hfn e).1)

/-- The entry module cannot call itself by its qualified name. -/
theorem entry_calls (ha : Accepted units t) (hp : ∀ unit ∈ units, unit.program.Parsed)
    {entry : ModuleUnit} (hentry : units[0]? = some entry) {callee : String}
    {sig : FunctionSignature}
    (hs : (symbolsOf units t entry).signatures.find callee = some sig) (name : String) :
    callee ≠ entry.name ++ "." ++ name := by
  rintro rfl
  obtain ⟨j, function, hr, -⟩ := resolves_of_find ha hentry hs
  have hid : ∀ {k : Nat} {u : ModuleUnit} {g : Function}, units[k]? = some u →
      g ∈ u.program.functions → Identifier g.name := fun hk hg =>
    (hp _ (List.mem_of_getElem? hk)).functions _ hg
  cases hr with
  | own hu hf hn => exact qualified_not_identifier _ _ (hn ▸ hid hu hf)
  | imported hu himp hd hdn hf hc =>
    have hdep := hdn ▸ (hp _ (List.mem_of_getElem? hu)).imports _ himp
    have hname := (qualified_inj hdep (hid hd hf) hc.symm).1
    obtain ⟨k, hk, hne⟩ := ha.imports 0 _ hu _ himp
    obtain ⟨dep', hd', hdn'⟩ := ha.index _ _ hk
    exact hne (ha.unit_inj hd' hentry (hdn'.trans (hdn.symm.trans hname)))

theorem mangleUnits_getElem? {i : Nat} {unit : ModuleUnit} (h : units[i]? = some unit) :
    (mangleUnits units)[i]? = some (mangleUnit unit (i == 0)) := by
  cases units with
  | nil => cases h
  | cons entry rest =>
    cases i with
    | zero => cases h; rfl
    | succ i =>
      rw [mangleUnits, List.getElem?_cons_succ, List.getElem?_map]
      rw [List.getElem?_cons_succ] at h
      rw [h]
      rfl

/-- After mangling, all functions have distinct symbols and every call site has the symbol of the
function that the checker resolved its callee to, if and only if the names are apart. -/
theorem mangling_sound {entry : ModuleUnit} {rest : List ModuleUnit} {t : Table String Nat}
    (hparsed : ∀ unit ∈ entry :: rest, unit.program.Parsed)
    (h : checkModules (entry :: rest) = .ok t) :
    Mangled (entry :: rest) t ↔ NamesApart entry rest := by
  have ha := checkModules_spec h
  have hcall : ∀ {i : Nat} {unit : ModuleUnit}, (entry :: rest)[i]? = some unit →
      ∀ function ∈ unit.program.functions, ∀ callee ∈ blockCalls function.body,
        ∃ sig, (symbolsOf (entry :: rest) t unit).signatures.find callee = some sig :=
    fun hi function hf => checkFunction_calls (ha.checked _ (List.mem_of_getElem? hi) function hf)
  constructor
  · intro hm
    obtain ⟨hstart, hapart, hoverlap⟩ := (symbols_nodup_iff ha).mp hm.distinct
    refine ⟨hstart, hapart, hoverlap, fun unit hu function hf callee hc => ?_⟩
    obtain ⟨i, hi⟩ := List.mem_iff_getElem?.mp (List.mem_cons_of_mem entry hu)
    obtain ⟨sig, hs⟩ := hcall hi function hf callee hc
    have ht := hm.onTarget i unit _ hi (mangleUnits_getElem? hi)
    rw [mangleUnit, List.forall₂_map_right_iff, List.forall₂_same] at ht
    have ht := ht function hf
    rw [mangleFunction, blockCalls_mangle, List.forall₂_map_right_iff, List.forall₂_same] at ht
    exact (onTarget_iff ha hparsed rfl hi hs).mp (ht callee hc)
  · intro hn
    refine ⟨(symbols_nodup_iff ha).mpr ⟨hn.start, hn.apart, hn.overlap⟩, ?_⟩
    intro i unit unit' hi hi'
    rw [mangleUnits_getElem? hi] at hi'
    cases hi'
    rw [mangleUnit, List.forall₂_map_right_iff, List.forall₂_same]
    intro function hf
    rw [mangleFunction, blockCalls_mangle, List.forall₂_map_right_iff, List.forall₂_same]
    intro callee hc
    obtain ⟨sig, hs⟩ := hcall hi function hf callee hc
    refine (onTarget_iff ha hparsed rfl hi hs).mpr ?_
    rcases List.mem_cons.mp (List.mem_of_getElem? hi) with rfl | hu
    · exact entry_calls ha hparsed rfl hs
    · exact hn.calls unit hu function hf callee hc

end Accepted

/-- `fn name() -> i32 { return value; }` -/
def valueFunction (name : String) (value : Expr) : Function :=
  ⟨name, [], "i32", [.returnStmt value]⟩

/-- A module of one file with these functions. -/
def moduleUnit (name : String) (imports : List String) (functions : List Function) : ModuleUnit :=
  ⟨name, name ++ ".og", ⟨imports.map ImportDecl.mk, [], [], functions⟩⟩

/-- `main` calls a function of a module. -/
def callingModules : List ModuleUnit :=
  [moduleUnit "main" ["util"] [valueFunction "main" (.call "util.one" [])],
    moduleUnit "util" [] [valueFunction "one" (.integer 1)]]

/-- The function `b__c` of module `a` and the function `c` of module `a__b`. -/
def overlappingModules : List ModuleUnit :=
  [moduleUnit "main" ["a", "a__b"]
      [valueFunction "main" (.binary '+' (.call "a.b__c" []) (.call "a__b.c" []))],
    moduleUnit "a" [] [valueFunction "b__c" (.integer 1)],
    moduleUnit "a__b" [] [valueFunction "c" (.integer 2)]]

theorem moduleUnit_parsed {name : String} {imports : List String} {functions : List Function}
    (hf : functions.all (fun function => decide (Identifier function.name)) = true)
    (hi : imports.all (fun moduleName => decide (Identifier moduleName)) = true) :
    (moduleUnit name imports functions).program.Parsed where
  functions function h := of_decide_eq_true (List.all_eq_true.mp hf function h)
  imports imp h := by
    obtain ⟨moduleName, hm, rfl⟩ := List.mem_map.mp h
    exact of_decide_eq_true (List.all_eq_true.mp hi moduleName hm)

theorem mangling_sound_callingModules :
    ∃ t, checkModules callingModules = .ok t ∧ Mangled callingModules t := by
  have hc : (checkModules callingModules).isOk = true := by decide
  cases e : checkModules callingModules with
  | error => rw [e] at hc; cases hc
  | ok t =>
    refine ⟨t, rfl, (mangling_sound ?_ e).mpr ?_⟩
    · exact List.forall_mem_cons.mpr ⟨moduleUnit_parsed (by decide) (by decide),
        List.forall_mem_singleton.mpr (moduleUnit_parsed (by decide) (by decide))⟩
    · refine ⟨by decide, by decide, fun unit hu unit' hu' f hf g hg ho => ?_, ?_⟩
      · obtain rfl := List.mem_singleton.mp hu
        obtain rfl := List.mem_singleton.mp hu'
        obtain rfl := List.mem_singleton.mp hf
        obtain rfl := List.mem_singleton.mp hg
        rcases ho with ⟨h, -⟩ | ⟨y, h, -⟩
        · exact absurd h (by decide)
        · have := congrArg (fun s : String => s.toList.length) h
          simp [moduleUnit] at this
      · intro unit hu function hf callee hcallee
        obtain rfl := List.mem_singleton.mp hu
        obtain rfl := List.mem_singleton.mp hf
        cases hcallee

theorem mangling_sound_counterexample :
    (∀ unit ∈ overlappingModules, unit.program.Parsed) ∧
      ∃ t, checkModules overlappingModules = .ok t ∧ ¬ Mangled overlappingModules t := by
  constructor
  · exact List.forall_mem_cons.mpr ⟨moduleUnit_parsed (by decide) (by decide),
      List.forall_mem_cons.mpr ⟨moduleUnit_parsed (by decide) (by decide),
        List.forall_mem_singleton.mpr
          (moduleUnit_parsed (by decide) (by decide))⟩⟩
  · have hc : (checkModules overlappingModules).isOk = true := by decide
    cases e : checkModules overlappingModules with
    | error => rw [e] at hc; cases hc
    | ok t => exact ⟨t, rfl, fun h => absurd h.distinct (by decide)⟩

end Oglang
end Techuila
