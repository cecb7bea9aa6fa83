import Techuila.Oglang.Mangling

/-!
# The structs and enums that a module sees

A module sees its own structs and enums by their names and those of its imports by qualified names.
The checker and the lowering look them up in different tables.

* `Visible`: the declaration that a name stands for in a module; there is only one
  (`Visible.unique`).
* `collectModuleSymbols_types`: the checker's tables of one module.
* `qualifyImports`: how both passes enter the declarations of the imports.
* `file_typesAgree`, `Accepted.typesAgree`: the checker and the lowering see the same declarations.
-/

namespace Techuila
namespace Oglang

variable {δ α : Type}

/-- In `program`, the name stands for the declaration: an own one, or one of an imported module. -/
inductive Visible (declared : Program → List δ) (nameOf : δ → String) (units : List ModuleUnit)
    (program : Program) (name : String) (d : δ) : Prop
  | own : d ∈ declared program → nameOf d = name → Visible declared nameOf units program name d
  | imported {imp : ImportDecl} {dep : ModuleUnit} : imp ∈ program.imports → dep ∈ units →
      dep.name = imp.moduleName → d ∈ declared dep.program → dep.name ++ "." ++ nameOf d = name →
      Visible declared nameOf units program name d

abbrev VisibleStruct := Visible Program.structs StructDecl.name
abbrev VisibleEnum := Visible Program.enums EnumDecl.name

/-- The declarations have distinct names, which are identifiers. -/
structure Named (declared : Program → List δ) (nameOf : δ → String) (program : Program) : Prop where
  identifier : ∀ d ∈ declared program, Identifier (nameOf d)
  nodup : ((declared program).map nameOf).Nodup

section Unique

variable {declared : Program → List δ} {nameOf : δ → String} {units : List ModuleUnit}
  {program : Program}

theorem Visible.unique (hunits : (units.map ModuleUnit.name).Nodup)
    (himports : ∀ imp ∈ program.imports, Identifier imp.moduleName)
    (hown : Named declared nameOf program)
    (hdeps : ∀ dep ∈ units, Named declared nameOf dep.program) {name : String} {d d' : δ}
    (h : Visible declared nameOf units program name d)
    (h' : Visible declared nameOf units program name d') : d = d' := by
  cases h with
  | own hd hn =>
    cases h' with
    | own hd' hn' => exact List.inj_on_of_nodup_map hown.nodup hd hd' (hn.trans hn'.symm)
    | imported _ _ _ _ hn' =>
      exact absurd (hn'.trans hn.symm ▸ hown.identifier _ hd) (qualified_not_identifier _ _)
  | imported himp hdep hname hd hn =>
    cases h' with
    | own hd' hn' =>
      exact absurd (hn.trans hn'.symm ▸ hown.identifier _ hd') (qualified_not_identifier _ _)
    | imported himp' hdep' hname' hd' hn' =>
      obtain ⟨hm, hf⟩ := qualified_inj (hname ▸ himports _ himp)
        ((hdeps _ hdep).identifier _ hd) (hn.trans hn'.symm)
      obtain rfl := List.inj_on_of_nodup_map hunits hdep hdep' hm
      exact List.inj_on_of_nodup_map (hdeps _ hdep).nodup hd hd' hf

end Unique

/-! ## The tables of one module -/

/-- The declarations `l` are entered into a table one after the other, each under a new name and
with a value of its own. -/
inductive Collects (nameOf : δ → String) (R : δ → α → Prop) :
    Table String α → List δ → Table String α → Prop
  | nil {t} : Collects nameOf R t [] t
  | cons {t d l v t'} : t.find (nameOf d) = none → R d v →
      Collects nameOf R (t.insert (nameOf d) v) l t' → Collects nameOf R t (d :: l) t'

theorem Collects.spec {nameOf : δ → String} {R : δ → α → Prop} {t t' : Table String α}
    {l : List δ} (h : Collects nameOf R t l t') :
    (l.map nameOf).Nodup ∧ (∀ d ∈ l, t.find (nameOf d) = none ∧ ∃ v, R d v) ∧
      ∀ e ∈ t', e ∈ t ∨ ∃ d ∈ l, nameOf d = e.1 ∧ R d e.2 := by
  induction h with
  | nil => exact ⟨.nil, fun _ h => absurd h List.not_mem_nil, fun _ h => .inl h⟩
  | @cons t d l v t' hnew hv _ ih =>
    obtain ⟨hnodup, hfresh, hmem⟩ := ih
    have hne : ∀ d' ∈ l, nameOf d' ≠ nameOf d ∧ t.find (nameOf d') = none := by
      intro d' hd'
      have hfind := (hfresh d' hd').1
      rw [Table.find_insert] at hfind
      split at hfind
      · cases hfind
      · rename_i hn
        exact ⟨hn, hfind⟩
    refine ⟨List.nodup_cons.mpr ⟨fun hm => ?_, hnodup⟩, ?_, fun e he => ?_⟩
    · obtain ⟨d', hd', hn⟩ := List.mem_map.mp hm
      exact (hne d' hd').1 hn
    · exact List.forall_mem_cons.mpr
        ⟨⟨hnew, v, hv⟩, fun d' hd' => ⟨(hne d' hd').2, (hfresh d' hd').2⟩⟩
    · rcases hmem e he with he | ⟨d', hd', hn⟩
      · rcases List.mem_cons.mp he with rfl | he
        · exact .inr ⟨d, List.mem_cons_self, rfl, hv⟩
        · exact .inl (List.mem_of_mem_filter he)
      · exact .inr ⟨d', List.mem_cons_of_mem _ hd', hn⟩

/-- The types of the fields. -/
def StructDecl.fieldTypes (structDecl : StructDecl) : Table String String :=
  structDecl.fields.foldl (fun t field => t.insert field.name field.type) []

/-- The ordinals of the variants. -/
def EnumDecl.ordinals (enumDecl : EnumDecl) : Table String Int :=
  variantOrdinals 0 [] enumDecl.variants

namespace TypeChecker

theorem collectVariants_spec {enumName : String} (variants : List String) {i : Nat}
    {t t' : Table String Int} (h : collectVariants enumName i t variants = .ok t') :
    t' = variantOrdinals i t variants ∧ variants.Nodup ∧ ∀ v ∈ variants, t.find v = none := by
  induction variants generalizing i t with
  | nil =>
    cases h
    exact ⟨rfl, .nil, fun _ h => absurd h List.not_mem_nil⟩
  | cons variant rest ih =>
    rw [collectVariants, ite_error_eq_ok] at h
    obtain ⟨hnew, h⟩ := h
    obtain ⟨he, hnodup, hfresh⟩ := ih h
    have hne : ∀ v ∈ rest, v ≠ variant ∧ t.find v = none := by
      intro v hv
      have hfind := hfresh v hv
      rw [Table.find_insert] at hfind
      split at hfind
      · cases hfind
      · rename_i hn
        exact ⟨hn, hfind⟩
    exact ⟨he, List.nodup_cons.mpr ⟨fun hm => (hne _ hm).1 rfl, hnodup⟩, List.forall_mem_cons.mpr
      ⟨Table.not_contains_iff.mp (Bool.eq_false_iff.mpr hnew), fun v hv => (hne v hv).2⟩⟩

theorem collectFields_collects {structName : String} (fields : List Param)
    {t t' : Table String String} (h : collectFields structName t fields = .ok t') :
    t' = fields.foldl (fun t field => t.insert field.name field.type) t ∧
      Collects Param.name (fun field type => field.type = type) t fields t' := by
  induction fields generalizing t with
  | nil =>
    cases h
    exact ⟨rfl, .nil⟩
  | cons field rest ih =>
    rw [collectFields, ite_error_eq_ok, ite_error_eq_ok] at h
    obtain ⟨hnew, -, h⟩ := h
    obtain ⟨he, hc⟩ := ih h
    exact ⟨he, .cons (Table.not_contains_iff.mp (Bool.eq_false_iff.mpr hnew)) rfl hc⟩

theorem collectEnums_collects (enums : List EnumDecl) {result symbols : ModuleSymbols}
    (h : collectEnums result enums = .ok symbols) :
    symbols.structs = result.structs ∧
      Collects EnumDecl.name (fun d ordinals => d.ordinals = ordinals ∧ d.variants.Nodup)
        result.enums enums symbols.enums := by
  induction enums generalizing result with
  | nil =>
    cases h
    exact ⟨rfl, .nil⟩
  | cons enumDecl rest ih =>
    rw [collectEnums, ite_error_eq_ok] at h
    obtain ⟨hnew, h⟩ := h
    obtain ⟨variants, hv, h⟩ := bind_eq_ok.mp h
    obtain ⟨he, hnodup, -⟩ := collectVariants_spec _ hv
    obtain ⟨hs, hc⟩ := ih h
    exact ⟨hs, .cons (Table.not_contains_iff.mp (Bool.eq_false_iff.mpr hnew)) ⟨he.symm, hnodup⟩ hc⟩

theorem collectStructs_collects (structs : List StructDecl) {result symbols : ModuleSymbols}
    (h : collectStructs result structs = .ok symbols) :
    symbols.enums = result.enums ∧
      Collects StructDecl.name
        (fun d types => d.fieldTypes = types ∧ (d.fields.map Param.name).Nodup)
        result.structs structs symbols.structs := by
  induction structs generalizing result with
  | nil =>
    cases h
    exact ⟨rfl, .nil⟩
  | cons structDecl rest ih =>
    rw [collectStructs, ite_error_eq_ok, ite_error_eq_ok] at h
    obtain ⟨hnew, -, h⟩ := h
    obtain ⟨fields, hf, h⟩ := bind_eq_ok.mp h
    obtain ⟨he, hfields⟩ := collectFields_collects _ hf
    obtain ⟨hs, hc⟩ := ih h
    exact ⟨hs, .cons (Table.not_contains_iff.mp (Bool.eq_false_iff.mpr hnew))
      ⟨he.symm, hfields.spec.1⟩ hc⟩

theorem collectFunctions_types (functions : List Function) {result symbols : ModuleSymbols}
    (h : collectFunctions result functions = .ok symbols) :
    symbols.structs = result.structs ∧ symbols.enums = result.enums := by
  induction functions generalizing result with
  | nil => cases h; exact ⟨rfl, rfl⟩
  | cons function rest ih =>
    rw [collectFunctions, ite_error_eq_ok] at h
    obtain ⟨paramTypes, -, h⟩ := bind_eq_ok.mp h.2
    obtain ⟨-, h⟩ := ite_error_eq_ok.mp h
    obtain ⟨hs, he⟩ := ih h
    exact ⟨hs, he⟩

end TypeChecker

/-- The checker's tables of the structs and enums of a module. -/
structure TypesCollected (program : Program) (symbols : ModuleSymbols) : Prop where
  structNames : (program.structs.map StructDecl.name).Nodup
  enumNames : (program.enums.map EnumDecl.name).Nodup
  fields : ∀ d ∈ program.structs, (d.fields.map Param.name).Nodup
  variants : ∀ d ∈ program.enums, d.variants.Nodup
  structs : ∀ e ∈ symbols.structs, ∃ d ∈ program.structs, d.name = e.1 ∧ d.fieldTypes = e.2
  enums : ∀ e ∈ symbols.enums, ∃ d ∈ program.enums, d.name = e.1 ∧ d.ordinals = e.2

theorem collectModuleSymbols_types {program : Program} {symbols : ModuleSymbols}
    (h : TypeChecker.collectModuleSymbols program = .ok symbols) :
    TypesCollected program symbols := by
  obtain ⟨r₁, h₁, h⟩ := bind_eq_ok.mp h
  obtain ⟨r₂, h₂, h⟩ := bind_eq_ok.mp h
  obtain ⟨hs₁, hc₁⟩ := TypeChecker.collectEnums_collects _ h₁
  obtain ⟨he₂, hc₂⟩ := TypeChecker.collectStructs_collects _ h₂
  obtain ⟨hs₃, he₃⟩ := TypeChecker.collectFunctions_types _ h
  obtain ⟨hen, hev, hem⟩ := hc₁.spec
  obtain ⟨hsn, hsv, hsm⟩ := hc₂.spec
  refine ⟨hsn, hen, fun d hd => ?_, fun d hd => ?_, fun e he => ?_, fun e he => ?_⟩
  · obtain ⟨-, v, -, hv⟩ := hsv d hd
    exact hv
  · obtain ⟨-, v, -, hv⟩ := hev d hd
    exact hv
  · rw [hs₃] at he
    rcases hsm e he with he | ⟨d, hd, hn, hv, -⟩
    · rw [hs₁] at he
      cases he
    · exact ⟨d, hd, hn, hv⟩
  · rw [he₃, he₂] at he
    rcases hem e he with he | ⟨d, hd, hn, hv, -⟩
    · cases he
    · exact ⟨d, hd, hn, hv⟩

/-! ## The imports -/

section Imports

variable (units : List ModuleUnit) (t : Table String Nat) (table : ModuleUnit → Table String α)

/-- Enters the tables of the imports under qualified names. -/
def qualifyImports : List ImportDecl → Table String α → Table String α
  | [], external => external
  | imp :: rest, external =>
    match units[(t.find imp.moduleName).getD 0]? with
    | none => qualifyImports rest external
    | some dep => qualifyImports rest (qualify dep.name (table dep) external)

variable {units t table}

theorem qualifyImports_find {imports : List ImportDecl} {external : Table String α} {k : String}
    {v : α} (h : (qualifyImports units t table imports external).find k = some v) :
    (∃ imp ∈ imports, ∃ dep, units[(t.find imp.moduleName).getD 0]? = some dep ∧
      ∃ e ∈ table dep, dep.name ++ "." ++ e.1 = k ∧ e.2 = v) ∨ external.find k = some v := by
  induction imports generalizing external with
  | nil => exact .inr h
  | cons imp rest ih =>
    have hrest : ∀ {external}, (qualifyImports units t table rest external).find k = some v →
        (∃ imp' ∈ imp :: rest, ∃ dep, units[(t.find imp'.moduleName).getD 0]? = some dep ∧
          ∃ e ∈ table dep, dep.name ++ "." ++ e.1 = k ∧ e.2 = v) ∨ external.find k = some v :=
      fun h => (ih h).imp_left fun ⟨imp', hi, hd⟩ => ⟨imp', List.mem_cons_of_mem _ hi, hd⟩
    rw [qualifyImports] at h
    split at h
    · exact hrest h
    · rename_i dep hd
      rcases hrest h with h | h
      · exact .inl h
      · rcases Table.find_insertAll h with h | h
        · exact .inl ⟨imp, List.mem_cons_self, dep, hd, h⟩
        · exact .inr h

theorem qualifyImports_contains {imports : List ImportDecl} {external : Table String α}
    {k : String} (h : (∃ imp ∈ imports, ∃ dep, units[(t.find imp.moduleName).getD 0]? = some dep ∧
      ∃ e ∈ table dep, dep.name ++ "." ++ e.1 = k) ∨ external.contains k = true) :
    (qualifyImports units t table imports external).contains k = true := by
  induction imports generalizing external with
  | nil => exact h.resolve_left fun ⟨_, hi, _⟩ => absurd hi List.not_mem_nil
  | cons imp rest ih =>
    rw [qualifyImports]
    split
    · rename_i hn
      refine ih (h.imp_left ?_)
      rintro ⟨imp', hi, dep, hd, he⟩
      rcases List.mem_cons.mp hi with rfl | hi
      · rw [hn] at hd
        cases hd
      · exact ⟨imp', hi, dep, hd, he⟩
    · rename_i dep hd
      refine ih ?_
      rcases h with ⟨imp', hi, dep', hd', he⟩ | h
      · rcases List.mem_cons.mp hi with rfl | hi
        · rw [hd] at hd'
          cases hd'
          exact .inr (Table.contains_insertAll (.inl he))
        · exact .inl ⟨imp', hi, dep', hd', he⟩
      · exact .inr (Table.contains_insertAll (.inr h))

end Imports

theorem externalSymbols_types (units : List ModuleUnit) (t : Table String Nat)
    (imports : List ImportDecl) (external : ModuleSymbols) :
    (externalSymbols units t (allSymbols units) imports external).structs =
        qualifyImports units t (fun unit => (ownSymbols unit).structs) imports external.structs ∧
      (externalSymbols units t (allSymbols units) imports external).enums =
        qualifyImports units t (fun unit => (ownSymbols unit).enums) imports external.enums := by
  induction imports generalizing external with
  | nil => exact ⟨rfl, rfl⟩
  | cons imp rest ih =>
    rw [externalSymbols, qualifyImports, qualifyImports]
    rw [(ih _).1, (ih _).2, allSymbols, List.getElem?_map]
    cases units[(t.find imp.moduleName).getD 0]? with
    | none => exact ⟨rfl, rfl⟩
    | some dep => exact ⟨rfl, rfl⟩

theorem mangleUnits_getElem?_none {units : List ModuleUnit} {i : Nat} (h : units[i]? = none) :
    (mangleUnits units)[i]? = none := by
  rw [List.getElem?_eq_none_iff] at h ⊢
  cases units with
  | nil => exact h
  | cons entry rest => simpa [mangleUnits] using h

theorem unitLayouts_mangled (units : List ModuleUnit) (t : Table String Nat)
    (imports : List ImportDecl) (Y : Layouts) :
    unitLayouts (mangleUnits units) t imports Y =
      ⟨qualifyImports units t (fun unit => (collectLayouts unit.program).structFieldOrder) imports
          Y.structFieldOrder,
        qualifyImports units t (fun unit => (collectLayouts unit.program).enumVariants) imports
          Y.enumVariants⟩ := by
  induction imports generalizing Y with
  | nil => rfl
  | cons imp rest ih =>
    rw [unitLayouts, qualifyImports, qualifyImports]
    cases e : units[(t.find imp.moduleName).getD 0]? with
    | none => rw [mangleUnits_getElem?_none e]; exact ih Y
    | some dep => rw [mangleUnits_getElem? e]; exact ih _

/-! ## What the tables hold -/

section Tables

variable {declared : Program → List δ} {nameOf : δ → String} {value : δ → α}
  {units : List ModuleUnit} {t : Table String Nat} {program : Program}

/-- The imports of the program are units. -/
def Indexed (units : List ModuleUnit) (t : Table String Nat) (program : Program) : Prop :=
  ∀ imp ∈ program.imports, ∃ dep,
    units[(t.find imp.moduleName).getD 0]? = some dep ∧ dep.name = imp.moduleName

/-- An entry of the table of a module's imports, or of its own one, is a visible declaration. -/
theorem qualifyImports_sound (hindex : Indexed units t program)
    {table : ModuleUnit → Table String α} (htable : ∀ unit ∈ units, ∀ e ∈ table unit,
      ∃ d ∈ declared unit.program, nameOf d = e.1 ∧ value d = e.2)
    {own : Table String α} (hown : ∀ e ∈ own, ∃ d ∈ declared program, nameOf d = e.1 ∧ value d = e.2)
    {name : String} {v : α}
    (h : (qualifyImports units t table program.imports own).find name = some v) :
    ∃ d, Visible declared nameOf units program name d ∧ value d = v := by
  rcases qualifyImports_find h with ⟨imp, himp, dep, hdep, e, he, hk, hv⟩ | h
  · obtain ⟨dep', hdep', hname⟩ := hindex imp himp
    rw [hdep] at hdep'
    cases hdep'
    obtain ⟨d, hd, hn, hval⟩ := htable dep (List.mem_of_getElem? hdep) e he
    exact ⟨d, .imported himp (List.mem_of_getElem? hdep) hname hd (hn ▸ hk), hval.trans hv⟩
  · obtain ⟨d, hd, hn, hval⟩ := hown _ (Table.mem_of_find h)
    exact ⟨d, .own hd hn, hval⟩

theorem qualifyImports_complete (hindex : Indexed units t program)
    (hunits : (units.map ModuleUnit.name).Nodup) {table : ModuleUnit → Table String α}
    (htable : ∀ unit ∈ units, ∀ d ∈ declared unit.program, (table unit).contains (nameOf d) = true)
    {own : Table String α} (hown : ∀ d ∈ declared program, own.contains (nameOf d) = true)
    {name : String} {d : δ} (h : Visible declared nameOf units program name d) :
    (qualifyImports units t table program.imports own).contains name = true := by
  refine qualifyImports_contains ?_
  cases h with
  | own hd hn => exact .inr (hn ▸ hown d hd)
  | @imported imp dep himp hdep hname hd hn =>
    obtain ⟨dep', hdep', hname'⟩ := hindex imp himp
    obtain rfl := List.inj_on_of_nodup_map hunits hdep (List.mem_of_getElem? hdep')
      (hname.trans hname'.symm)
    obtain ⟨v, hv⟩ := Table.contains_iff.mp (htable dep hdep d hd)
    exact .inl ⟨imp, himp, dep, hdep', _, Table.mem_of_find hv, hn⟩

end Tables

theorem collectLayouts_structs (program : Program) :
    (∀ e ∈ (collectLayouts program).structFieldOrder,
      ∃ d ∈ program.structs, d.name = e.1 ∧ d.fields.map Param.name = e.2) ∧
      ∀ d ∈ program.structs, (collectLayouts program).structFieldOrder.contains d.name = true :=
  ⟨fun _ he => (Table.mem_insertAll he).resolve_right List.not_mem_nil,
    fun d hd => Table.contains_insertAll (.inl ⟨d, hd, rfl⟩)⟩

theorem collectLayouts_enums (program : Program) :
    (∀ e ∈ (collectLayouts program).enumVariants,
      ∃ d ∈ program.enums, d.name = e.1 ∧ d.ordinals = e.2) ∧
      ∀ d ∈ program.enums, (collectLayouts program).enumVariants.contains d.name = true :=
  ⟨fun _ he => (Table.mem_insertAll he).resolve_right List.not_mem_nil,
    fun d hd => Table.contains_insertAll (.inl ⟨d, hd, rfl⟩)⟩

/-- What the two passes know of the structs and enums of a module: the checker's tables `symbols`
hold visible declarations only, and the layouts of the lowering have an entry for each of them. -/
structure TypesAgree (units : List ModuleUnit) (program : Program) (symbols : ModuleSymbols)
    (Y : Layouts) : Prop where
  struct : ∀ name types, symbols.structs.find name = some types → ∃ d,
    VisibleStruct units program name d ∧ (∀ d', VisibleStruct units program name d' → d' = d) ∧
      (d.fields.map Param.name).Nodup ∧ d.fieldTypes = types ∧
      Y.structFieldOrder.find name = some (d.fields.map Param.name)
  enum : ∀ name ordinals, symbols.enums.find name = some ordinals → ∃ d,
    VisibleEnum units program name d ∧ (∀ d', VisibleEnum units program name d' → d' = d) ∧
      d.variants.Nodup ∧ d.ordinals = ordinals ∧ Y.enumVariants.find name = some ordinals

section Agree

variable {declared : Program → List δ} {nameOf : δ → String} {β : Type} {value : δ → α}
  {value' : δ → β} {units : List ModuleUnit} {t : Table String Nat} {program : Program}

/-- Two tables, one with visible declarations only and one with all of them, agree on a name of the
first. -/
theorem find_agree {checked : Table String α} {layout : Table String β}
    (hunique : ∀ name d d', Visible declared nameOf units program name d →
      Visible declared nameOf units program name d' → d' = d)
    (hchecked : ∀ name v, checked.find name = some v →
      ∃ d, Visible declared nameOf units program name d ∧ value d = v)
    (hsound : ∀ name v, layout.find name = some v →
      ∃ d, Visible declared nameOf units program name d ∧ value' d = v)
    (hcomplete : ∀ name d, Visible declared nameOf units program name d →
      layout.contains name = true) {name : String} {v : α} (h : checked.find name = some v) :
    ∃ d, Visible declared nameOf units program name d ∧
      (∀ d', Visible declared nameOf units program name d' → d' = d) ∧ value d = v ∧
      layout.find name = some (value' d) := by
  obtain ⟨d, hd, hv⟩ := hchecked name v h
  obtain ⟨v', hv'⟩ := Table.contains_iff.mp (hcomplete name d hd)
  obtain ⟨d', hd', hval⟩ := hsound name v' hv'
  obtain rfl := hunique name d d' hd hd'
  exact ⟨d', hd, fun d'' => hunique name d' d'' hd, hv, hval ▸ hv'⟩

/-- Every entry of the table is one of the module's own table or of that of its imports. -/
def MergedFrom (own external table : Table String α) : Prop :=
  ∀ name v, table.find name = some v → (∃ e ∈ own, e.1 = name ∧ e.2 = v) ∨
    external.find name = some v

theorem MergedFrom.sound (hindex : Indexed units t program)
    {table : ModuleUnit → Table String α} (htable : ∀ unit ∈ units, ∀ e ∈ table unit,
      ∃ d ∈ declared unit.program, nameOf d = e.1 ∧ value d = e.2)
    {own : Table String α} (hown : ∀ e ∈ own, ∃ d ∈ declared program, nameOf d = e.1 ∧ value d = e.2)
    {checked : Table String α}
    (hc : MergedFrom own (qualifyImports units t table program.imports []) checked)
    (name : String) (v : α) (h : checked.find name = some v) :
    ∃ d, Visible declared nameOf units program name d ∧ value d = v := by
  rcases hc name v h with ⟨e, he, hn, hv⟩ | h
  · obtain ⟨d, hd, hn', hv'⟩ := hown e he
    exact ⟨d, .own hd (hn'.trans hn), hv'.trans hv⟩
  · exact qualifyImports_sound hindex htable (fun _ he => absurd he List.not_mem_nil) h

end Agree

theorem Program.WellFormed.structNamed {program : Program} (hp : program.WellFormed)
    (h : (program.structs.map StructDecl.name).Nodup) :
    Named Program.structs StructDecl.name program := ⟨hp.structNames, h⟩

theorem Program.WellFormed.enumNamed {program : Program} (hp : program.WellFormed)
    (h : (program.enums.map EnumDecl.name).Nodup) :
    Named Program.enums EnumDecl.name program := ⟨hp.enumNames, h⟩

/-- The module sees its own declarations and those of the units that it imports. -/
theorem typesAgree_of_collected {units : List ModuleUnit} {t : Table String Nat}
    {program : Program} (hunits : (units.map ModuleUnit.name).Nodup)
    (hindex : Indexed units t program) (hp : program.WellFormed)
    (hps : ∀ unit ∈ units, unit.program.WellFormed) {own : ModuleSymbols}
    (hown : TypesCollected program own)
    (hall : ∀ unit ∈ units, TypesCollected unit.program (ownSymbols unit))
    {symbols : ModuleSymbols}
    (hstructs : MergedFrom own.structs (qualifyImports units t
      (fun unit => (ownSymbols unit).structs) program.imports []) symbols.structs)
    (henums : MergedFrom own.enums (qualifyImports units t
      (fun unit => (ownSymbols unit).enums) program.imports []) symbols.enums) :
    TypesAgree units program symbols
      (unitLayouts (mangleUnits units) t program.imports (collectLayouts program)) := by
  rw [unitLayouts_mangled]
  constructor
  · intro name types h
    have hunique : ∀ name d d', Visible Program.structs StructDecl.name units program name d →
        Visible Program.structs StructDecl.name units program name d' → d' = d :=
      fun name d d' h h' => (Visible.unique hunits hp.imports (hp.structNamed hown.structNames)
        (fun dep hd => (hps dep hd).structNamed (hall dep hd).structNames) h h').symm
    obtain ⟨d, hd, hu, hv, hl⟩ := find_agree hunique
      (MergedFrom.sound hindex (fun unit hu => (hall unit hu).structs) hown.structs hstructs)
      (fun name v h => qualifyImports_sound hindex
        (fun unit _ => (collectLayouts_structs unit.program).1) (collectLayouts_structs program).1 h)
      (fun name d h => qualifyImports_complete hindex hunits
        (fun unit _ => (collectLayouts_structs unit.program).2) (collectLayouts_structs program).2 h)
      h
    refine ⟨d, hd, hu, ?_, hv, hl⟩
    cases hd with
    | own hd _ => exact hown.fields d hd
    | imported _ hdep _ hd _ => exact (hall _ hdep).fields d hd
  · intro name ordinals h
    have hunique : ∀ name d d', Visible Program.enums EnumDecl.name units program name d →
        Visible Program.enums EnumDecl.name units program name d' → d' = d :=
      fun name d d' h h' => (Visible.unique hunits hp.imports (hp.enumNamed hown.enumNames)
        (fun dep hd => (hps dep hd).enumNamed (hall dep hd).enumNames) h h').symm
    obtain ⟨d, hd, hu, hv, hl⟩ := find_agree hunique
      (MergedFrom.sound hindex (fun unit hu => (hall unit hu).enums) hown.enums henums)
      (fun name v h => qualifyImports_sound hindex
        (fun unit _ => (collectLayouts_enums unit.program).1) (collectLayouts_enums program).1 h)
      (fun name d h => qualifyImports_complete hindex hunits
        (fun unit _ => (collectLayouts_enums unit.program).2) (collectLayouts_enums program).2 h)
      h
    refine ⟨d, hd, hu, ?_, hv, hv ▸ hl⟩
    cases hd with
    | own hd _ => exact hown.variants d hd
    | imported _ hdep _ hd _ => exact (hall _ hdep).variants d hd

theorem Accepted.typesAgree {units : List ModuleUnit} {t : Table String Nat}
    (ha : Accepted units t) (hps : ∀ unit ∈ units, unit.program.WellFormed) {unit : ModuleUnit}
    (hu : unit ∈ units) :
    TypesAgree units unit.program (symbolsOf units t unit)
      (unitLayouts (mangleUnits units) t unit.program.imports (collectLayouts unit.program)) := by
  have hall : ∀ unit ∈ units, TypesCollected unit.program (ownSymbols unit) :=
    fun unit hu => collectModuleSymbols_types (ha.symbols unit hu)
  have hindex : Indexed units t unit.program := by
    intro imp himp
    obtain ⟨i, hi⟩ := List.mem_iff_getElem?.mp hu
    obtain ⟨j, hj, -⟩ := ha.imports i unit hi imp himp
    rw [hj]
    exact ha.index _ j hj
  obtain ⟨hs, he⟩ := externalSymbols_types units t unit.program.imports {}
  exact typesAgree_of_collected ha.names hindex (hps unit hu) hps (hall unit hu) hall
    (fun name v h => hs ▸ Table.find_insertAll h) (fun name v h => he ▸ Table.find_insertAll h)

theorem file_typesAgree {program : Program} (hp : program.WellFormed)
    (himports : program.imports = []) {symbols : ModuleSymbols}
    (h : TypeChecker.collectModuleSymbols program = .ok symbols) :
    TypesAgree [] program symbols (collectLayouts program) := by
  have hindex : Indexed [] [] program := by
    rw [Indexed, himports]
    exact fun _ h => absurd h List.not_mem_nil
  have hunits : (([] : List ModuleUnit).map ModuleUnit.name).Nodup := .nil
  have hagree := typesAgree_of_collected hunits hindex hp (fun _ h => absurd h List.not_mem_nil)
    (collectModuleSymbols_types h) (fun _ h => absurd h List.not_mem_nil)
    (fun name v h => .inl ⟨_, Table.mem_of_find h, rfl, rfl⟩)
    (fun name v h => .inl ⟨_, Table.mem_of_find h, rfl, rfl⟩)
  rw [himports] at hagree
  exact hagree

end Oglang
end Techuila
