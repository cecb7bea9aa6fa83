/-!
# Leaving inputs out

A machine takes inputs and answers each. Some of the inputs are kept, others are left out.

* `Along`: a property of each step of a run.
* `results_kept`: where an input that is left out leads to a related state, and kept inputs keep
  states related and answer the same, the answers to the kept inputs do not depend on the others.
-/

namespace Techuila
namespace Purge

variable {σ α ρ : Type}

/-- The state after some inputs. -/
def run (step : σ → α → σ × ρ) (s : σ) (inputs : List α) : σ :=
  inputs.foldl (fun s a => (step s a).1) s

def results (step : σ → α → σ × ρ) : σ → List α → List ρ
  | _, [] => []
  | s, a :: inputs => (step s a).2 :: results step (step s a).1 inputs

/-- The inputs that are kept, each by the state that it comes in. -/
def kept (step : σ → α → σ × ρ) (keep : σ → α → Bool) : σ → List α → List α
  | _, [] => []
  | s, a :: inputs =>
    if keep s a then a :: kept step keep (step s a).1 inputs else kept step keep (step s a).1 inputs

/-- The answers to the inputs that are kept. -/
def keptResults (step : σ → α → σ × ρ) (keep : σ → α → Bool) : σ → List α → List ρ
  | _, [] => []
  | s, a :: inputs =>
    if keep s a then (step s a).2 :: keptResults step keep (step s a).1 inputs
    else keptResults step keep (step s a).1 inputs

/-- Each step of the run has the property. -/
def Along (step : σ → α → σ × ρ) (P : σ → α → Prop) : σ → List α → Prop
  | _, [] => True
  | s, a :: inputs => P s a ∧ Along step P (step s a).1 inputs

variable {step : σ → α → σ × ρ} {P : σ → α → Prop}

theorem results_kept {keep : σ → α → Bool} {R : σ → σ → Prop}
    (hdrop : ∀ s t a, R s t → P s a → keep s a = false → R (step s a).1 t)
    (hkeep : ∀ s t a, R s t → R (step s a).1 (step t a).1 ∧ (step s a).2 = (step t a).2)
    {s t : σ} (hR : R s t) {inputs : List α} (h : Along step P s inputs) :
    results step t (kept step keep s inputs) = keptResults step keep s inputs := by
  induction inputs generalizing s t with
  | nil => rfl
  | cons a inputs ih =>
    rw [kept, keptResults]
    by_cases hk : keep s a = true
    · obtain ⟨hnext, hresult⟩ := hkeep s t a hR
      rw [if_pos hk, if_pos hk, results, hresult, ih hnext h.2]
    · rw [if_neg hk, if_neg hk]
      exact ih (hdrop s t a hR h.1 (by simpa using hk)) h.2

end Purge
end Techuila
