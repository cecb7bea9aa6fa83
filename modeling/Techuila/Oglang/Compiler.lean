import Techuila.Oglang.Assembly
import Techuila.Oglang.LiveTable

/-!
# The compiler from its intermediate code on

* `Source.lowered`: the intermediate code of a source, by assembly symbol.
* `compile_assembled`: the text of a compiled source has the code of all its functions.
* `compile_exits`: the machine exits with what the intermediate code returns.
-/

namespace Techuila
namespace Oglang

open X86
open LivenessAnalyzer (analyze)
open RegisterAllocator (allocationOf)

/-- The intermediate code of the functions, by name. -/
def Source.lowered (source : Source) : IRProgram := fun name =>
  (source.functions.find? fun f => f.2.name == name).bind fun f =>
    (IRLowerer.lower f.2 f.1.structFieldOrder f.1.enumVariants).toOption

theorem Supported.sound {iter : List Int → List Int} (hiter : RegisterAllocator.IterOrder iter)
    {function : Function} {Y : Layouts} {ir : IRFunction}
    (hlower : IRLowerer.lower function Y.structFieldOrder Y.enumVariants = .ok ir) {size : Nat}
    (h : Supported iter ir size) : Sound ir (allocationOf iter ir) size where
  allocated := RegisterAllocator.allocationOf_allocated hiter (lower_ok hlower)
  wellFormed := lower_wellFormed hlower
  covered := h.covered
  divides := h.divides
  fits := h.fits

/-- The check of every function of a source. -/
def Source.supports (iter : List Int → List Int) (source : Source) (size n : Nat) : Bool :=
  source.functions.all fun f =>
    match IRLowerer.lower f.2 f.1.structFieldOrder f.1.enumVariants with
    | .error _ => true
    | .ok ir => Oglang.supports iter ir size n

theorem Source.supported_of_check {iter : List Int → List Int} {source : Source} {size n : Nat}
    (h : source.supports iter size n = true) {name : String} {ir : IRFunction}
    (hir : source.lowered name = some ir) : Supported iter ir size := by
  obtain ⟨f, hf, hlower⟩ := Option.bind_eq_some_iff.mp hir
  have hf := List.all_eq_true.mp h f (List.mem_of_find?_eq_some hf)
  cases hl : IRLowerer.lower f.2 f.1.structFieldOrder f.1.enumVariants with
  | error e =>
    rw [hl] at hlower
    cases hlower
  | ok ir' =>
    rw [hl] at hlower hf
    cases hlower
    exact Oglang.supported_of_check hf

theorem flatten_infix {α : Type} {l : List α} {ls : List (List α)} (h : l ∈ ls) :
    ∃ a b, ls.flatten = a ++ (l ++ b) := by
  obtain ⟨s, t, rfl⟩ := List.append_of_mem h
  exact ⟨s.flatten, t.flatten, by simp⟩

theorem compile_assembled {iter : List Int → List Int} (hiter : RegisterAllocator.IterOrder iter)
    {source : Source} {lines : List Line} (h : source.compile iter = .ok lines) {img : Image}
    (himg : img.lines = lines) (hu : (labels lines).Nodup) {size : Nat}
    (hs : ∀ name ir, source.lowered name = some ir → Supported iter ir size) :
    Assembled img source.lowered size ∧
      ∃ rest, img.At 0 (X86Codegen.generateEntryPoint "main" ++ rest) := by
  obtain ⟨texts, htexts, rfl⟩ := source.compile_texts h
  have h0 : img.At 0 (X86Codegen.generateEntryPoint "main" ++ texts.flatten) := by
    rw [Image.At, List.drop_zero, himg]
  refine ⟨⟨by rwa [himg], fun name ir hir => ?_⟩, _, h0⟩
  obtain ⟨f, hf, hlower⟩ := Option.bind_eq_some_iff.mp hir
  have hname : f.2.name = name := beq_iff_eq.mp (List.find?_some hf :)
  cases hl : IRLowerer.lower f.2 f.1.structFieldOrder f.1.enumVariants with
  | error e =>
    rw [hl] at hlower
    cases hlower
  | ok ir' =>
    rw [hl] at hlower
    cases hlower
    obtain ⟨text, htext, hmem⟩ : ∃ text, compileFunction iter f.1 f.2 = .ok text ∧ text ∈ texts := by
      obtain ⟨i, hi, hget⟩ := List.getElem_of_mem (List.mem_of_find?_eq_some hf)
      obtain ⟨hlen, hall⟩ := List.forall₂_iff_get.mp htexts
      refine ⟨texts[i], ?_, List.getElem_mem (by omega)⟩
      have := hall i hi (by omega)
      rwa [List.get_eq_getElem, hget] at this
    obtain ⟨ir', hl', hgen⟩ := bind_eq_ok.mp htext
    cases hl.symm.trans hl'
    obtain ⟨a, b, e⟩ := flatten_infix hmem
    refine ⟨?_, _, _, _, b, (hs name ir hir).sound hiter hl, hgen, (e ▸ h0.right).right⟩
    obtain ⟨A, S, -, rfl⟩ := IRLowerer.lower_lowers hl
    exact hname

/-- Where the text of a compiled source defines every label once, the machine exits with what the
intermediate code of `main` returns, or with 101 where a bounds check fails. -/
theorem compile_exits {iter : List Int → List Int} (hiter : RegisterAllocator.IterOrder iter)
    {source : Source} {lines : List Line} (h : source.compile iter = .ok lines) {img : Image}
    (himg : img.lines = lines) (hu : (labels lines).Nodup) {size : Nat}
    (hs : ∀ name ir, source.lowered name = some ir → Supported iter ir size) {steps n : Nat}
    {m : Memory} {o : IROutcome} (hrun : source.lowered.run steps n 0 "main" [] m = some o)
    (hroom : n * size < maxWords) (s : State) : img.Exits ⟨0, s⟩ o.status := by
  obtain ⟨ha, rest, hat⟩ := compile_assembled hiter h himg hu hs
  exact entry_exits ha hat hrun hroom s

/-- `fn last(i: i32) -> i32 { let a: [i32; 3]; a[i] = 40; return a[i] + 2; }` -/
def lastElement : Function :=
  ⟨"last", [⟨"i", "i32"⟩], "i32", [.arrayDecl "a" "i32" 3,
    .indexStore "a" (.variable "i") (.integer 40),
    .returnStmt (.binary '+' (.index "a" (.variable "i")) (.integer 2))]⟩

/-- `fn main() -> i32 { return last(2); }` -/
def callsLast : Source :=
  .file ⟨[], [], [], [lastElement, ⟨"main", [], "i32", [.returnStmt (.call "last" [.integer 2])]⟩]⟩

theorem compile_exits_callsLast : ∃ lines, ∃ h : lines.length < 2 ^ 64,
    callsLast.compile id = .ok lines ∧ ∀ s, (Image.ofLines lines h).Exits ⟨0, s⟩ 42 := by
  have hc : (callsLast.compile id).toOption.any (fun lines =>
    decide (lines.length < 2 ^ 64) && decide (labels lines).Nodup) = true := by decide +kernel
  have hs : callsLast.supports id 100 30 = true := by decide +kernel
  have hr : (callsLast.lowered.run 40 2 0 "main" [] fun _ _ => none).map IROutcome.status =
    some 42 := by decide +kernel
  obtain ⟨o, ho, hstatus⟩ := Option.map_eq_some_iff.mp hr
  cases e : callsLast.compile id with
  | error => rw [e] at hc; cases hc
  | ok lines =>
    rw [e] at hc
    obtain ⟨hlen, hu⟩ := Bool.and_eq_true_iff.mp hc
    refine ⟨lines, of_decide_eq_true hlen, rfl, fun s => ?_⟩
    rw [← hstatus]
    exact compile_exits (fun ks => .refl ks) e rfl (of_decide_eq_true hu)
      (fun name ir => Source.supported_of_check hs) ho (by decide) s

end Oglang
end Techuila
