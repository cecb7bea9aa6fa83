import Techuila.Oglang.Driver

/-!
# What `compileModules` checks

* `collectModuleSymbols_spec`: the signatures of a module are those of its functions, whose names
  are distinct.
* `checkModules_spec`: an accepted list of modules has distinct names, every import names one of
  them, and every function was checked against the signatures of its module and its imports.
-/

namespace Techuila
namespace Oglang

def Function.signature (function : Function) : FunctionSignature :=
  ⟨function.params.map Param.type, function.returnType⟩

namespace TypeChecker

theorem collectParams_types {functionName : String} (params : List Param) {types : List String}
    (h : collectParams functionName params = .ok types) : types = params.map Param.type := by
  induction params generalizing types with
  | nil => cases h; rfl
  | cons param params ih =>
    rw [collectParams, ite_error_eq_ok] at h
    obtain ⟨rest, hr, h⟩ := bind_eq_ok.mp h.2
    cases h
    rw [ih hr, List.map_cons]

theorem collectFunctions_spec (functions : List Function) {result symbols : ModuleSymbols}
    (h : collectFunctions result functions = .ok symbols) :
    (functions.map Function.name).Nodup ∧
      (∀ function ∈ functions, result.signatures.find function.name = none) ∧
      ∀ e ∈ symbols.signatures, e ∈ result.signatures ∨
        ∃ function ∈ functions, function.name = e.1 ∧ function.signature = e.2 := by
  induction functions generalizing result with
  | nil =>
    cases h
    exact ⟨.nil, fun _ h => absurd h List.not_mem_nil, fun _ h => .inl h⟩
  | cons function rest ih =>
    rw [collectFunctions, ite_error_eq_ok] at h
    obtain ⟨hnew, h⟩ := h
    obtain ⟨paramTypes, hp, h⟩ := bind_eq_ok.mp h
    obtain ⟨-, h⟩ := ite_error_eq_ok.mp h
    obtain ⟨hnodup, hfresh, hmem⟩ := ih h
    rw [collectParams_types _ hp] at hfresh hmem
    have hne : ∀ f ∈ rest, f.name ≠ function.name ∧ result.signatures.find f.name = none := by
      intro f hf
      have := hfresh f hf
      rw [Table.find_insert] at this
      split at this
      · cases this
      · rename_i hne; exact ⟨hne, this⟩
    refine ⟨?_, ?_, ?_⟩
    · refine List.nodup_cons.mpr ⟨fun hm => ?_, hnodup⟩
      obtain ⟨f, hf, he⟩ := List.mem_map.mp hm
      exact (hne f hf).1 he
    · refine List.forall_mem_cons.mpr ⟨?_, fun f hf => (hne f hf).2⟩
      exact Table.not_contains_iff.mp (Bool.eq_false_iff.mpr hnew)
    · intro e he
      rcases hmem e he with he | ⟨f, hf, he⟩
      · rcases List.mem_cons.mp he with rfl | he
        · exact .inr ⟨function, List.mem_cons_self, rfl, rfl⟩
        · exact .inl (List.mem_of_mem_filter he)
      · exact .inr ⟨f, List.mem_cons_of_mem _ hf, he⟩

theorem collectEnums_signatures (enums : List EnumDecl) {result symbols : ModuleSymbols}
    (h : collectEnums result enums = .ok symbols) : symbols.signatures = result.signatures := by
  induction enums generalizing result with
  | nil => cases h; rfl
  | cons enumDecl rest ih =>
    rw [collectEnums, ite_error_eq_ok] at h
    obtain ⟨variants, -, h⟩ := bind_eq_ok.mp h.2
    rw [ih h]

theorem collectStructs_signatures (structs : List StructDecl) {result symbols : ModuleSymbols}
    (h : collectStructs result structs = .ok symbols) :
    symbols.signatures = result.signatures := by
  induction structs generalizing result with
  | nil => cases h; rfl
  | cons structDecl rest ih =>
    rw [collectStructs, ite_error_eq_ok, ite_error_eq_ok] at h
    obtain ⟨fields, -, h⟩ := bind_eq_ok.mp h.2.2
    rw [ih h]

theorem collectModuleSymbols_spec {program : Program} {symbols : ModuleSymbols}
    (h : collectModuleSymbols program = .ok symbols) :
    (program.functions.map Function.name).Nodup ∧
      ∀ e ∈ symbols.signatures,
        ∃ function ∈ program.functions, function.name = e.1 ∧ function.signature = e.2 := by
  obtain ⟨r₁, h₁, h⟩ := bind_eq_ok.mp h
  obtain ⟨r₂, h₂, h⟩ := bind_eq_ok.mp h
  obtain ⟨hnodup, -, hmem⟩ := collectFunctions_spec _ h
  refine ⟨hnodup, fun e he => (hmem e he).resolve_left fun hr => ?_⟩
  rw [collectStructs_signatures _ h₂, collectEnums_signatures _ h₁] at hr
  cases hr

theorem checkFunctions_iff {symbols : ModuleSymbols} (functions : List Function) :
    checkFunctions symbols functions = .ok () ↔
      ∀ function ∈ functions, checkFunction symbols function = .ok () := by
  induction functions with
  | nil => exact iff_of_true rfl fun _ h => absurd h List.not_mem_nil
  | cons function rest ih =>
    rw [checkFunctions, bind_eq_ok, List.forall_mem_cons, ← ih]
    constructor
    · rintro ⟨⟨⟩, h, h'⟩
      exact ⟨h, h'⟩
    · rintro ⟨h, h'⟩
      exact ⟨(), h, h'⟩

end TypeChecker

/-! ## The module table -/

theorem indexModules_spec (units : List ModuleUnit) {i : Nat} {t t' : Table String Nat}
    (h : indexModules i t units = .ok t') : (units.map ModuleUnit.name).Nodup ∧
      (∀ unit ∈ units, t.find unit.name = none) ∧
      ∀ name j, t'.find name = some j → t.find name = some j ∨
        ∃ (k : Nat) (unit : ModuleUnit), units[k]? = some unit ∧ unit.name = name ∧ j = i + k := by
  induction units generalizing i t with
  | nil =>
    cases h
    exact ⟨.nil, fun _ h => absurd h List.not_mem_nil, fun _ _ h => .inl h⟩
  | cons unit rest ih =>
    rw [indexModules, ite_error_eq_ok] at h
    obtain ⟨hnodup, hfresh, hfind⟩ := ih h.2
    have hne : ∀ u ∈ rest, u.name ≠ unit.name ∧ t.find u.name = none := by
      intro u hu
      have := hfresh u hu
      rw [Table.find_insert] at this
      split at this
      · cases this
      · rename_i hne; exact ⟨hne, this⟩
    refine ⟨?_, ?_, ?_⟩
    · refine List.nodup_cons.mpr ⟨fun hm => ?_, hnodup⟩
      obtain ⟨u, hu, he⟩ := List.mem_map.mp hm
      exact (hne u hu).1 he
    · refine List.forall_mem_cons.mpr ⟨?_, fun u hu => (hne u hu).2⟩
      exact Table.not_contains_iff.mp (Bool.eq_false_iff.mpr h.1)
    · intro name j hj
      rcases hfind name j hj with hj | ⟨k, u, hk, hn, rfl⟩
      · rw [Table.find_insert] at hj
        split at hj
        · rename_i hn
          cases hj
          exact .inr ⟨0, unit, rfl, hn.symm, rfl⟩
        · exact .inl hj
      · exact .inr ⟨k + 1, u, hk, hn, by omega⟩

theorem resolveImports_spec {t : Table String Nat} {i : Nat} {unitName : String}
    (imports : List ImportDecl) {deps : List Nat}
    (h : resolveImports t i unitName imports = .ok deps) :
    ∀ imp ∈ imports, ∃ j, t.find imp.moduleName = some j ∧ j ≠ i := by
  induction imports generalizing deps with
  | nil => exact fun _ h => absurd h List.not_mem_nil
  | cons imp rest ih =>
    rw [resolveImports] at h
    split at h
    · cases h
    rename_i j hj
    obtain ⟨hne, h⟩ := ite_error_eq_ok.mp h
    obtain ⟨more, hm, h⟩ := bind_eq_ok.mp h
    exact List.forall_mem_cons.mpr ⟨⟨j, hj, hne⟩, ih hm⟩

theorem buildAdjacency_spec {t : Table String Nat} (units : List ModuleUnit) {i : Nat}
    {adjacency : List (List Nat)} (h : buildAdjacency t i units = .ok adjacency) :
    adjacency.length = units.length ∧ ∀ (k : Nat) (unit : ModuleUnit), units[k]? = some unit →
      ∀ imp ∈ unit.program.imports, ∃ j, t.find imp.moduleName = some j ∧ j ≠ i + k := by
  induction units generalizing i adjacency with
  | nil =>
    cases h
    exact ⟨rfl, fun k unit hk => by cases hk⟩
  | cons unit rest ih =>
    obtain ⟨deps, hd, h⟩ := bind_eq_ok.mp h
    obtain ⟨more, hm, h⟩ := bind_eq_ok.mp h
    cases h
    obtain ⟨hlen, hrest⟩ := ih hm
    refine ⟨by simp [hlen], fun k u hk => ?_⟩
    cases k with
    | zero =>
      cases hk
      exact resolveImports_spec _ hd
    | succ k =>
      rw [show i + (k + 1) = i + 1 + k by omega]
      exact hrest k u hk

/-! ## The order -/

theorem nextModule_not_mem {adjacency : List (List Nat)} {order : List Nat}
    (h : nextModule adjacency order < adjacency.length) : nextModule adjacency order ∉ order := by
  unfold nextModule at h ⊢
  cases e : (List.range adjacency.length).find? fun i =>
      !order.contains i && (adjacency.getD i []).all fun j => order.contains j with
  | none =>
    rw [e] at h
    exact absurd h (Nat.lt_irrefl _)
  | some i =>
    have := List.find?_some e
    simp only [Bool.and_eq_true, Bool.not_eq_true', List.contains_eq_mem, decide_eq_false_iff_not]
      at this
    exact this.1

theorem topologicalOrder_eq (adjacency : List (List Nat)) (n : Nat) (order : List Nat) :
    ∃ more, topologicalOrder adjacency n order = order ++ more ∧ more.length = n := by
  induction n generalizing order with
  | zero => exact ⟨[], (List.append_nil order).symm, rfl⟩
  | succ n ih =>
    obtain ⟨more, hm, hn⟩ := ih (order ++ [nextModule adjacency order])
    exact ⟨nextModule adjacency order :: more, by rw [topologicalOrder, hm]; simp, by simp [hn]⟩

/-- The order lists distinct indices, if a ready module was found in each round. -/
theorem topologicalOrder_nodup {adjacency : List (List Nat)} (n : Nat) {order : List Nat}
    (horder : order.Nodup) (h : ∀ i ∈ topologicalOrder adjacency n order, i < adjacency.length) :
    (topologicalOrder adjacency n order).Nodup := by
  induction n generalizing order with
  | zero => exact horder
  | succ n ih =>
    refine ih ?_ h
    obtain ⟨more, hm, -⟩ := topologicalOrder_eq adjacency n (order ++ [nextModule adjacency order])
    have hx : nextModule adjacency order < adjacency.length := by
      refine h _ ?_
      rw [topologicalOrder, hm]
      simp
    exact List.nodup_append.mpr ⟨horder, List.nodup_singleton _, by
      rintro a ha b hb rfl
      exact nextModule_not_mem hx (List.mem_singleton.mp hb ▸ ha)⟩

/-- Then it lists all of them. -/
theorem mem_topologicalOrder {adjacency : List (List Nat)}
    (h : ∀ i ∈ topologicalOrder adjacency adjacency.length [], i < adjacency.length) {i : Nat}
    (hi : i < adjacency.length) : i ∈ topologicalOrder adjacency adjacency.length [] := by
  have hnodup := topologicalOrder_nodup _ List.nodup_nil h
  obtain ⟨more, hm, hlen⟩ := topologicalOrder_eq adjacency adjacency.length []
  have hsub : topologicalOrder adjacency adjacency.length [] ⊆ List.range adjacency.length :=
    fun i hi => List.mem_range.mpr (h i hi)
  have hperm := (hnodup.subperm hsub).perm_of_length_le (by rw [hm]; simp [hlen])
  exact hperm.mem_iff.mpr (List.mem_range.mpr hi)

theorem checkUnits_spec {units : List ModuleUnit} {t : Table String Nat}
    {ownSymbols : List ModuleSymbols} (order : List Nat)
    (h : checkUnits units t ownSymbols order = .ok ()) :
    ∀ i ∈ order, ∃ unit, units[i]? = some unit ∧ TypeChecker.checkModule unit.program
      (externalSymbols units t ownSymbols unit.program.imports {}) (i == 0) = .ok () := by
  induction order with
  | nil => exact fun _ h => absurd h List.not_mem_nil
  | cons i order ih =>
    rw [checkUnits] at h
    split at h
    · cases h
    rename_i unit hu
    obtain ⟨⟨⟩, hc, h⟩ := bind_eq_ok.mp h
    exact List.forall_mem_cons.mpr ⟨⟨unit, hu, mapError_eq_ok.mp hc⟩, ih h⟩

/-- The own symbols of a unit; none if it has an error. -/
def ownSymbols (unit : ModuleUnit) : ModuleSymbols :=
  ((TypeChecker.collectModuleSymbols unit.program).toOption).getD {}

theorem collectAll_spec {units : List ModuleUnit} (order : List Nat) {own result :
    List ModuleSymbols} (h : collectAll units order own = .ok result) :
    result.length = own.length ∧ ∀ (i : Nat) (unit : ModuleUnit), units[i]? = some unit →
      i < own.length → i ∈ order ∨ own[i]? = some (ownSymbols unit) →
      result[i]? = some (ownSymbols unit) := by
  induction order generalizing own with
  | nil =>
    cases h
    exact ⟨rfl, fun i unit _ _ h => h.resolve_left List.not_mem_nil⟩
  | cons j order ih =>
    rw [collectAll] at h
    split at h
    · cases h
    rename_i unit hu
    obtain ⟨symbols, hs, h⟩ := bind_eq_ok.mp h
    have hs := mapError_eq_ok.mp hs
    have hown : symbols = ownSymbols unit := by rw [ownSymbols, hs]; rfl
    obtain ⟨hlen, hget⟩ := ih h
    rw [List.length_set] at hlen hget
    refine ⟨hlen, fun i u hi hlt hm => hget i u hi hlt ?_⟩
    by_cases hij : i = j
    · subst hij
      rw [hu] at hi
      cases hi
      exact .inr (by rw [List.getElem?_set_self hlt, hown])
    · rw [List.getElem?_set_ne (Ne.symm hij)]
      refine hm.imp_left fun h => (List.mem_cons.mp h).resolve_left hij

/-! ## Accepted modules -/

/-- The own symbols of all units. -/
def allSymbols (units : List ModuleUnit) : List ModuleSymbols := units.map ownSymbols

/-- What the functions of a unit are checked against: the module's own symbols over those of its
imports under their qualified names. -/
def symbolsOf (units : List ModuleUnit) (t : Table String Nat) (unit : ModuleUnit) :
    ModuleSymbols :=
  let external := externalSymbols units t (allSymbols units) unit.program.imports {}
  let own := ownSymbols unit
  ⟨TypeChecker.merge external.signatures own.signatures,
    TypeChecker.merge external.structs own.structs, TypeChecker.merge external.enums own.enums⟩

/-- What acceptance says of a list of modules. -/
structure Accepted (units : List ModuleUnit) (t : Table String Nat) : Prop where
  names : (units.map ModuleUnit.name).Nodup
  index : ∀ name i, t.find name = some i → ∃ unit, units[i]? = some unit ∧ unit.name = name
  imports : ∀ (i : Nat) (unit : ModuleUnit), units[i]? = some unit →
    ∀ imp ∈ unit.program.imports, ∃ j, t.find imp.moduleName = some j ∧ j ≠ i
  symbols : ∀ unit ∈ units, TypeChecker.collectModuleSymbols unit.program = .ok (ownSymbols unit)
  checked : ∀ unit ∈ units, ∀ function ∈ unit.program.functions,
    TypeChecker.checkFunction (symbolsOf units t unit) function = .ok ()

theorem checkModules_spec {units : List ModuleUnit} {t : Table String Nat}
    (h : checkModules units = .ok t) : Accepted units t := by
  obtain ⟨t', ht, h⟩ := bind_eq_ok.mp h
  obtain ⟨adjacency, ha, h⟩ := bind_eq_ok.mp h
  obtain ⟨_, -, h⟩ := bind_eq_ok.mp h
  obtain ⟨own, hown, h⟩ := bind_eq_ok.mp h
  obtain ⟨⟨⟩, hc, h⟩ := bind_eq_ok.mp h
  cases h
  obtain ⟨hnames, -, hindex⟩ := indexModules_spec units ht
  obtain ⟨hlen, himports⟩ := buildAdjacency_spec units ha
  have hchecked := checkUnits_spec _ hc
  rw [← hlen] at hown hc hchecked
  have hlt : ∀ i ∈ topologicalOrder adjacency adjacency.length [], i < adjacency.length := by
    intro i hi
    obtain ⟨unit, hu, -⟩ := hchecked i hi
    rw [hlen]
    exact (List.getElem?_eq_some_iff.mp hu).1
  have hall : own = allSymbols units := by
    obtain ⟨hl, hget⟩ := collectAll_spec _ hown
    refine List.ext_getElem? fun i => ?_
    rw [List.length_map] at hl hget
    rw [allSymbols, List.getElem?_map]
    cases e : units[i]? with
    | none => exact List.getElem?_eq_none (hl.symm ▸ List.getElem?_eq_none_iff.mp e)
    | some unit =>
      have hi : i < units.length := (List.getElem?_eq_some_iff.mp e).1
      exact hget i unit e hi (.inl (mem_topologicalOrder hlt (hlen ▸ hi)))
  subst hall
  have hunit : ∀ unit ∈ units, TypeChecker.collectModuleSymbols unit.program =
      .ok (ownSymbols unit) ∧ ∀ function ∈ unit.program.functions,
        TypeChecker.checkFunction (symbolsOf units t unit) function = .ok () := by
    intro unit hu
    obtain ⟨i, hi⟩ := List.mem_iff_getElem?.mp hu
    have hi' : i < units.length := (List.getElem?_eq_some_iff.mp hi).1
    obtain ⟨unit', hu', hm⟩ := hchecked i (mem_topologicalOrder hlt (hlen ▸ hi'))
    rw [hi] at hu'
    cases hu'
    obtain ⟨own, ho, hm⟩ := bind_eq_ok.mp hm
    obtain ⟨-, hm⟩ := ite_error_eq_ok.mp hm
    have hown : ownSymbols unit = own := by rw [ownSymbols, ho]; rfl
    refine ⟨by rw [hown, ho], ?_⟩
    rw [← hown] at hm
    exact (TypeChecker.checkFunctions_iff _).mp hm
  refine ⟨hnames, fun name i hi => ?_, fun i unit hu imp himp => ?_, fun unit hu => (hunit unit hu).1,
    fun unit hu => (hunit unit hu).2⟩
  · rcases hindex name i hi with h | ⟨k, unit, hk, hn, rfl⟩
    · cases h
    · exact ⟨unit, by rwa [Nat.zero_add], hn⟩
  · obtain ⟨j, hj, hne⟩ := himports i unit hu imp himp
    exact ⟨j, hj, by rwa [Nat.zero_add] at hne⟩

end Oglang
end Techuila
