import Techuila.Lib.Result
import Techuila.Oglang.Codegen
import Techuila.Oglang.Lowering
import Techuila.Oglang.TypeChecker

/-!
# The driver (`main.cpp`)

From parsed programs to the assembly text; lexing, parsing, assembling and linking are outside. An
error is the text of the diagnostic. `iter` is the iteration order of the allocator's maps.

* `mangleCallsInExpr`, `mangleCallsInStatement`, `mangleUnit`: call sites and declarations get
  assembly symbols.
* `compileSingleFile`, `compileModules`: the two modes. `checkModules` is everything that
  `compileModules` does before mangling.
* `Source.compile_texts`: the assembly text is the entry point and one text for each function.
-/

namespace Techuila
namespace Oglang

open X86 (Line)

/-! ## Mangling -/

/-- `replaceAll` of one character. -/
def replaceAll (text : String) (c : Char) (replacement : String) : String :=
  String.ofList (text.toList.flatMap fun d => if d = c then replacement.toList else [d])

/-- The symbol of a callee at a call site of the module `modulePrefix`. -/
def mangleCallee (modulePrefix : String) (mangleThisModule : Bool) (callee : String) : String :=
  if '.' ∈ callee.toList then replaceAll callee '.' "__"
  else if mangleThisModule then modulePrefix ++ "__" ++ callee
  else callee

section Mangle

variable (modulePrefix : String) (mangleThisModule : Bool)

mutual

def mangleCallsInExpr : Expr → Expr
  | .call callee args =>
    .call (mangleCallee modulePrefix mangleThisModule callee) (mangleCallsInArgs args)
  | .binary op left right => .binary op (mangleCallsInExpr left) (mangleCallsInExpr right)
  | .unary op operand => .unary op (mangleCallsInExpr operand)
  | .deref pointer => .deref (mangleCallsInExpr pointer)
  | .index arrayName index => .index arrayName (mangleCallsInExpr index)
  | .integer value => .integer value
  | .variable name => .variable name
  | .addressOf name => .addressOf name
  | .fieldAccess structVarName fieldName => .fieldAccess structVarName fieldName
  | .asm templateText => .asm templateText

def mangleCallsInArgs : List Expr → List Expr
  | [] => []
  | arg :: args => mangleCallsInExpr arg :: mangleCallsInArgs args

end

mutual

def mangleCallsInStatement : Statement → Statement
  | .letStmt name type initializer =>
    .letStmt name type (mangleCallsInExpr modulePrefix mangleThisModule initializer)
  | .returnStmt value => .returnStmt (mangleCallsInExpr modulePrefix mangleThisModule value)
  | .assignStmt name value =>
    .assignStmt name (mangleCallsInExpr modulePrefix mangleThisModule value)
  | .storeStmt pointer value =>
    .storeStmt (mangleCallsInExpr modulePrefix mangleThisModule pointer)
      (mangleCallsInExpr modulePrefix mangleThisModule value)
  | .indexStore arrayName index value =>
    .indexStore arrayName (mangleCallsInExpr modulePrefix mangleThisModule index)
      (mangleCallsInExpr modulePrefix mangleThisModule value)
  | .fieldStore structVarName fieldName value =>
    .fieldStore structVarName fieldName (mangleCallsInExpr modulePrefix mangleThisModule value)
  | .whileStmt condition body =>
    .whileStmt (mangleCallsInExpr modulePrefix mangleThisModule condition)
      (mangleCallsInBlock body)
  | .ifStmt condition thenBody elseBody =>
    .ifStmt (mangleCallsInExpr modulePrefix mangleThisModule condition)
      (mangleCallsInBlock thenBody) (mangleCallsInBlock elseBody)
  | .arrayDecl name elementType size => .arrayDecl name elementType size
  | .structVarDecl name structType => .structVarDecl name structType

def mangleCallsInBlock : List Statement → List Statement
  | [] => []
  | statement :: body => mangleCallsInStatement statement :: mangleCallsInBlock body

end

end Mangle

structure ModuleUnit where
  name : String
  path : String
  program : Program

/-- The symbol of a function that the unit declares. -/
def mangleDeclaration (unitName : String) (isEntry : Bool) (name : String) : String :=
  if isEntry then name else unitName ++ "__" ++ name

def mangleFunction (unitName : String) (isEntry : Bool) (function : Function) : Function :=
  { function with
    name := mangleDeclaration unitName isEntry function.name
    body := mangleCallsInBlock unitName (!isEntry) function.body }

def mangleUnit (unit : ModuleUnit) (isEntry : Bool) : ModuleUnit :=
  { unit with
    program := { unit.program with
      functions := unit.program.functions.map (mangleFunction unit.name isEntry) } }

/-- Every unit mangled; the first one is the entry module. -/
def mangleUnits : List ModuleUnit → List ModuleUnit
  | [] => []
  | entry :: rest => mangleUnit entry true :: rest.map (mangleUnit · false)

/-! ## Layouts and code -/

def variantOrdinals (i : Nat) (t : Table String Int) : List String → Table String Int
  | [] => t
  | variant :: rest => variantOrdinals (i + 1) (t.insert variant i) rest

def collectLayouts (program : Program) : Layouts where
  structFieldOrder := program.structs.foldl
    (fun t structDecl => t.insert structDecl.name (structDecl.fields.map Param.name)) []
  enumVariants := program.enums.foldl
    (fun t enumDecl => t.insert enumDecl.name (variantOrdinals 0 [] enumDecl.variants)) []

/-- The assembly text of one function. -/
def compileFunction (iter : List Int → List Int) (layouts : Layouts) (function : Function) :
    Except String (List Line) := do
  let ir ← IRLowerer.lower function layouts.structFieldOrder layouts.enumVariants
  X86Codegen.generate (RegisterAllocator.allocationOf iter ir) ir (LivenessAnalyzer.analyze ir)

def compileFunctions (iter : List Int → List Int) (layouts : Layouts) :
    List Function → Except String (List Line)
  | [] => .ok []
  | function :: rest => do
    let lines ← compileFunction iter layouts function
    let more ← compileFunctions iter layouts rest
    .ok (lines ++ more)

def compileProgramToAssembly (iter : List Int → List Int) (program : Program)
    (layouts : Layouts) : Except String (List Line) :=
  compileFunctions iter layouts program.functions

def compileSingleFile (iter : List Int → List Int) (program : Program) :
    Except String (List Line) := do
  TypeChecker.check program
  let assembly ← compileProgramToAssembly iter program (collectLayouts program)
  .ok (X86Codegen.generateEntryPoint "main" ++ assembly)

/-! ## Modules -/

/-- The module table; two modules of one name are an error. -/
def indexModules (i : Nat) (t : Table String Nat) :
    List ModuleUnit → Except String (Table String Nat)
  | [] => .ok t
  | unit :: rest =>
    if t.contains unit.name then .error ("Duplicate module name '" ++ unit.name ++ "'")
    else indexModules (i + 1) (t.insert unit.name i) rest

/-- The indices that unit `i` imports. -/
def resolveImports (t : Table String Nat) (i : Nat) (unitName : String) :
    List ImportDecl → Except String (List Nat)
  | [] => .ok []
  | imp :: rest =>
    match t.find imp.moduleName with
    | none => .error ("Unknown module in import: '" ++ imp.moduleName ++
        "' (imported by module '" ++ unitName ++ "')")
    | some j =>
      if j = i then .error ("Module '" ++ unitName ++ "' imports itself")
      else do
        let more ← resolveImports t i unitName rest
        .ok (j :: more)

def buildAdjacency (t : Table String Nat) (i : Nat) :
    List ModuleUnit → Except String (List (List Nat))
  | [] => .ok []
  | unit :: rest => do
    let deps ← resolveImports t i unit.name unit.program.imports
    let more ← buildAdjacency t (i + 1) rest
    .ok (deps :: more)

/-- The depth-first search for a cycle, with the gray nodes in `path` (innermost last) and the
black ones in `black`. A node is gray once on a path, so `fuel` bounds the depth. -/
def dfs (units : List ModuleUnit) (adjacency : List (List Nat)) :
    (fuel : Nat) → (path black : List Nat) → (node : Nat) → Except String (List Nat)
  | 0, _, black, _ => .ok black
  | fuel + 1, path, black, node => do
    let path := path ++ [node]
    let visit (black : List Nat) (next : Nat) : Except String (List Nat) :=
      if next ∈ path then
        let chain := (path.dropWhile (· ≠ next) ++ [next]).map fun n =>
          ((units[n]?).map ModuleUnit.name).getD ""
        .error ("Circular module import detected: " ++ " -> ".intercalate chain)
      else if next ∈ black then .ok black
      else dfs units adjacency fuel path black next
    let black ← (adjacency.getD node []).foldlM visit black
    .ok (node :: black)

/-- The search from every node. -/
def checkCycles (units : List ModuleUnit) (adjacency : List (List Nat)) : Except String Unit := do
  let _ ← (List.range units.length).foldlM (fun black i =>
    if i ∈ black then .ok black else dfs units adjacency (units.length + 1) [] black i) []
  .ok ()

/-- The first module that is not in `order` while all its imports are. -/
def nextModule (adjacency : List (List Nat)) (order : List Nat) : Nat :=
  ((List.range adjacency.length).find? fun i =>
    !order.contains i && (adjacency.getD i []).all fun j => order.contains j).getD
    adjacency.length

/-- Kahn's algorithm, with `n` rounds to go. -/
def topologicalOrder (adjacency : List (List Nat)) : (n : Nat) → (order : List Nat) → List Nat
  | 0, order => order
  | n + 1, order => topologicalOrder adjacency n (order ++ [nextModule adjacency order])

def moduleError (unit : ModuleUnit) (e : String) : String :=
  "Compilation error in module '" ++ unit.name ++ "' (" ++ unit.path ++ "): " ++ e

/-- Entries under their qualified names. -/
def qualify {α : Type} (moduleName : String) (own external : Table String α) : Table String α :=
  own.foldl (fun t e => t.insert (moduleName ++ "." ++ e.1) e.2) external

/-- The symbols that the imports make visible, under their qualified names. -/
def externalSymbols (units : List ModuleUnit) (t : Table String Nat)
    (ownSymbols : List ModuleSymbols) : List ImportDecl → ModuleSymbols → ModuleSymbols
  | [], external => external
  | imp :: rest, external =>
    let depIndex := (t.find imp.moduleName).getD 0
    let depName := ((units[depIndex]?).map ModuleUnit.name).getD ""
    let own := (ownSymbols[depIndex]?).getD {}
    externalSymbols units t ownSymbols rest
      ⟨qualify depName own.signatures external.signatures,
        qualify depName own.structs external.structs, qualify depName own.enums external.enums⟩

/-- Enters the own symbols of the units with indices `order` into `own`. -/
def collectAll (units : List ModuleUnit) :
    (order : List Nat) → (own : List ModuleSymbols) → Except String (List ModuleSymbols)
  | [], own => .ok own
  | idx :: order, own =>
    match units[idx]? with
    | none => .error IRLowerer.outOfRange
    | some unit => do
      let symbols ← (TypeChecker.collectModuleSymbols unit.program).mapError (moduleError unit)
      collectAll units order (own.set idx symbols)

/-- Type-checks the units with indices `order`. -/
def checkUnits (units : List ModuleUnit) (t : Table String Nat) (ownSymbols : List ModuleSymbols) :
    (order : List Nat) → Except String Unit
  | [] => .ok ()
  | idx :: order =>
    match units[idx]? with
    | none => .error IRLowerer.outOfRange
    | some unit => do
      (TypeChecker.checkModule unit.program
        (externalSymbols units t ownSymbols unit.program.imports {}) (idx == 0)).mapError
        (moduleError unit)
      checkUnits units t ownSymbols order

/-- Everything before mangling: the module table. -/
def checkModules (units : List ModuleUnit) : Except String (Table String Nat) := do
  let t ← indexModules 0 [] units
  let adjacency ← buildAdjacency t 0 units
  checkCycles units adjacency
  let order := topologicalOrder adjacency units.length []
  let ownSymbols ← collectAll units order (units.map fun _ => {})
  checkUnits units t ownSymbols order
  .ok t

/-- A unit's own layouts, and those of its imports under qualified names. -/
def unitLayouts (units : List ModuleUnit) (t : Table String Nat) :
    List ImportDecl → Layouts → Layouts
  | [], layouts => layouts
  | imp :: rest, layouts =>
    let depIndex := (t.find imp.moduleName).getD 0
    match units[depIndex]? with
    | none => unitLayouts units t rest layouts
    | some dep =>
      let depLayouts := collectLayouts dep.program
      unitLayouts units t rest
        ⟨qualify dep.name depLayouts.structFieldOrder layouts.structFieldOrder,
          qualify dep.name depLayouts.enumVariants layouts.enumVariants⟩

def compileUnits (iter : List Int → List Int) (units : List ModuleUnit) (t : Table String Nat) :
    List ModuleUnit → Except String (List Line)
  | [] => .ok []
  | unit :: rest => do
    let layouts := unitLayouts units t unit.program.imports (collectLayouts unit.program)
    let lines ← compileProgramToAssembly iter unit.program layouts
    let more ← compileUnits iter units t rest
    .ok (lines ++ more)

def compileModules (iter : List Int → List Int) (units : List ModuleUnit) :
    Except String (List Line) := do
  let t ← checkModules units
  let mangled := mangleUnits units
  let assembly ← compileUnits iter mangled t mangled
  .ok (X86Codegen.generateEntryPoint "main" ++ assembly)

/-! ## The compiler -/

/-- What the compiler is given: one file, or several modules with the entry module first. -/
inductive Source where
  | file (program : Program)
  | modules (units : List ModuleUnit)

namespace Source

/-- The programs come from the parser. -/
def Parsed : Source → Prop
  | file program => program.Parsed
  | modules units => ∀ unit ∈ units, unit.program.Parsed

def compile (iter : List Int → List Int) : Source → Except String (List Line)
  | file program => compileSingleFile iter program
  | modules units => compileModules iter units

/-- The functions in the order of their texts, under their assembly symbols, each with the layouts
that it is lowered with. -/
def functions : Source → List (Layouts × Function)
  | file program => program.functions.map (collectLayouts program, ·)
  | modules units =>
    let t := ((indexModules 0 [] units).toOption).getD []
    (mangleUnits units).flatMap fun unit => unit.program.functions.map
      (unitLayouts (mangleUnits units) t unit.program.imports (collectLayouts unit.program), ·)

end Source

theorem compileFunctions_texts {iter : List Int → List Int} {layouts : Layouts}
    (functions : List Function) {lines : List Line}
    (h : compileFunctions iter layouts functions = .ok lines) :
    ∃ texts, (functions.map (layouts, ·)).Forall₂
        (fun f text => compileFunction iter f.1 f.2 = .ok text) texts ∧ lines = texts.flatten := by
  induction functions generalizing lines with
  | nil =>
    cases h
    exact ⟨[], .nil, rfl⟩
  | cons function rest ih =>
    obtain ⟨text, ht, h⟩ := bind_eq_ok.mp h
    obtain ⟨more, hm, h⟩ := bind_eq_ok.mp h
    obtain ⟨texts, hts, rfl⟩ := ih hm
    cases h
    exact ⟨text :: texts, .cons ht hts, rfl⟩

theorem compileUnits_texts {iter : List Int → List Int} {units : List ModuleUnit}
    {t : Table String Nat} (rest : List ModuleUnit) {lines : List Line}
    (h : compileUnits iter units t rest = .ok lines) :
    ∃ texts, (rest.flatMap fun unit => unit.program.functions.map
        (unitLayouts units t unit.program.imports (collectLayouts unit.program), ·)).Forall₂
        (fun f text => compileFunction iter f.1 f.2 = .ok text) texts ∧ lines = texts.flatten := by
  induction rest generalizing lines with
  | nil =>
    cases h
    exact ⟨[], .nil, rfl⟩
  | cons unit rest ih =>
    obtain ⟨text, ht, h⟩ := bind_eq_ok.mp h
    obtain ⟨more, hm, h⟩ := bind_eq_ok.mp h
    obtain ⟨texts, hts, rfl⟩ := ih hm
    obtain ⟨texts', hts', rfl⟩ := compileFunctions_texts _ ht
    cases h
    exact ⟨texts' ++ texts, List.rel_append hts' hts, by simp⟩

/-- The text is the entry point and one text for each function. -/
theorem Source.compile_texts {iter : List Int → List Int} {source : Source} {lines : List Line}
    (h : source.compile iter = .ok lines) :
    ∃ texts, source.functions.Forall₂ (fun f text => compileFunction iter f.1 f.2 = .ok text)
      texts ∧ lines = X86Codegen.generateEntryPoint "main" ++ texts.flatten := by
  cases source with
  | file program =>
    obtain ⟨_, -, h⟩ := bind_eq_ok.mp h
    obtain ⟨assembly, ha, h⟩ := bind_eq_ok.mp h
    obtain ⟨texts, ht, rfl⟩ := compileFunctions_texts _ ha
    cases h
    exact ⟨texts, ht, rfl⟩
  | modules units =>
    obtain ⟨t, ht, h⟩ := bind_eq_ok.mp h
    obtain ⟨assembly, ha, h⟩ := bind_eq_ok.mp h
    obtain ⟨texts, hts, rfl⟩ := compileUnits_texts _ ha
    obtain ⟨t', hi, ht⟩ := bind_eq_ok.mp ht
    obtain ⟨_, -, ht⟩ := bind_eq_ok.mp ht
    obtain ⟨_, -, ht⟩ := bind_eq_ok.mp ht
    obtain ⟨_, -, ht⟩ := bind_eq_ok.mp ht
    obtain ⟨_, -, ht⟩ := bind_eq_ok.mp ht
    cases ht
    cases h
    refine ⟨texts, ?_, rfl⟩
    rw [Source.functions, hi]
    exact hts

end Oglang
end Techuila
