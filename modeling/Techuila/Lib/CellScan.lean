import Mathlib.Data.List.ProdSigma

/-!
# Scans over cells

A state has cells. A step at a cell changes that cell only, by its old content.

* `Local`: such steps. `Local.foldlM`: a scan over different cells changes each of them once.
* `foldlM_product`: a loop in a loop is such a scan.
-/

namespace Techuila
namespace CellScan

variable {σ κ β : Type} [DecidableEq κ]

/-- At the cells of `dom` the step succeeds, and changes that cell by `f`. -/
def Local (dom : κ → Prop) (cell : σ → κ → β) (step : σ → κ → Option σ) (f : κ → β → β) : Prop :=
  ∀ s k, dom k → ∃ s', step s k = some s' ∧
    ∀ k', dom k' → cell s' k' = if k' = k then f k (cell s k) else cell s k'

variable {dom : κ → Prop} {cell : σ → κ → β} {step : σ → κ → Option σ} {f : κ → β → β}

/-- Each cell of the list is changed once, the others are as they were. -/
theorem Local.foldlM (h : Local dom cell step f) {keys : List κ} (hnodup : keys.Nodup)
    (hdom : ∀ k ∈ keys, dom k) (s : σ) : ∃ s', keys.foldlM step s = some s' ∧
      ∀ k, dom k → cell s' k = if k ∈ keys then f k (cell s k) else cell s k := by
  induction keys generalizing s with
  | nil => exact ⟨s, rfl, fun k _ => (if_neg List.not_mem_nil).symm⟩
  | cons k₀ keys ih =>
    obtain ⟨hnew, hnodup⟩ := List.nodup_cons.mp hnodup
    obtain ⟨hk₀, hdom⟩ := List.forall_mem_cons.mp hdom
    obtain ⟨s₁, hstep, hcell₁⟩ := h s k₀ hk₀
    obtain ⟨s₂, hrun, hcell₂⟩ := ih hnodup hdom s₁
    refine ⟨s₂, ?_, fun k hk => ?_⟩
    · rw [List.foldlM_cons, hstep]
      exact hrun
    · rw [hcell₂ k hk, hcell₁ k hk]
      by_cases heq : k = k₀
      · rw [if_neg (heq ▸ hnew), if_pos heq, if_pos (heq ▸ List.mem_cons_self), heq]
      · have hmem : k ∈ k₀ :: keys ↔ k ∈ keys :=
          ⟨fun hm => (List.mem_cons.mp hm).resolve_left heq, List.mem_cons_of_mem _⟩
        simp only [if_neg heq, hmem]

omit [DecidableEq κ] in
/-- Two loops, one in the other, are one over the pairs. -/
theorem foldlM_product {γ : Type} (f : σ → κ → γ → Option σ) (l₁ : List κ) (l₂ : List γ) (s : σ) :
    (l₁.product l₂).foldlM (fun s p => f s p.1 p.2) s =
      l₁.foldlM (fun s a => l₂.foldlM (fun s b => f s a b) s) s := by
  induction l₁ generalizing s with
  | nil => rfl
  | cons a l₁ ih =>
    have hcons : (a :: l₁).product l₂ = l₂.map (Prod.mk a) ++ l₁.product l₂ := rfl
    rw [hcons, List.foldlM_append, List.foldlM_map, List.foldlM_cons]
    exact Option.bind_congr fun s _ => ih s

end CellScan
end Techuila
