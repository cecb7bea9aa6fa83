import Mathlib.Logic.Basic

/-!
# Computations that may fail

`bind_eq_ok` takes a successful sequence of steps apart, `ite_error_eq_ok` a passed check, and
`foldlM_cases` a loop.
-/

namespace Techuila

section

variable {ε α β : Type}

theorem bind_eq_ok {x : Except ε α} {f : α → Except ε β} {b : β} :
    (x >>= f) = .ok b ↔ ∃ a, x = .ok a ∧ f a = .ok b := by
  cases x with
  | error e => simp [bind, Except.bind]
  | ok a => simp [bind, Except.bind]

theorem ite_error_eq_ok {c : Prop} [Decidable c] {e : ε} {x : Except ε α} {a : α} :
    (if c then .error e else x) = .ok a ↔ ¬ c ∧ x = .ok a := by
  by_cases h : c <;> simp [h]

theorem mapError_eq_ok {ε' : Type} {x : Except ε α} {f : ε → ε'} {a : α} :
    x.mapError f = .ok a ↔ x = .ok a := by
  cases x with
  | error e => exact ⟨fun h => (by cases h), fun h => (by cases h)⟩
  | ok a => exact ⟨fun h => (by cases h; rfl), fun h => (by cases h; rfl)⟩

/-- A loop that may fail, with an invariant over what it has done. -/
theorem foldlM_cases {f : β → α → Except ε β} {P : List α → β → Prop} {Q : ε → Prop} {l : List α}
    (hstep : ∀ l₁ a l₂ b, l = l₁ ++ a :: l₂ → P l₁ b →
      (∃ e, f b a = .error e ∧ Q e) ∨ ∃ b', f b a = .ok b' ∧ P (l₁ ++ [a]) b')
    {b : β} (h : P [] b) :
    (∃ e, l.foldlM f b = .error e ∧ Q e) ∨ ∃ b', l.foldlM f b = .ok b' ∧ P l b' := by
  have hrest : ∀ l₂ l₁ b, l = l₁ ++ l₂ → P l₁ b →
      (∃ e, l₂.foldlM f b = .error e ∧ Q e) ∨ ∃ b', l₂.foldlM f b = .ok b' ∧ P l b' := by
    intro l₂
    induction l₂ with
    | nil =>
      intro l₁ b he hb
      rw [List.append_nil] at he
      exact .inr ⟨b, rfl, he ▸ hb⟩
    | cons a l₂ ih =>
      intro l₁ b he hb
      rw [List.foldlM_cons]
      rcases hstep l₁ a l₂ b he hb with ⟨e, hf, hq⟩ | ⟨b', hf, hp⟩
      · exact .inl ⟨e, by rw [hf]; rfl, hq⟩
      · rw [hf]
        exact ih (l₁ ++ [a]) b' (by rw [he, List.append_assoc]; rfl) hp
  exact hrest l [] b rfl h

end

end Techuila
