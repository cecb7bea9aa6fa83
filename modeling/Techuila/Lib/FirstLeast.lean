import Mathlib.Order.Lattice

/-!
# The first least of a list

Some elements of a list have a key. One pass finds the first of those with the least key.

* `better`: one step of the pass. `IsFirst`: what is to be found. `isFirst_foldl`: it is.
* `IsFirst.perm`: in another order the least key is the same.
-/

namespace Techuila
namespace FirstLeast

variable {α κ : Type} [LinearOrder κ]

/-- An element whose key is less takes the place of the best one. -/
def better (key : α → Option κ) (best : Option (α × κ)) (a : α) : Option (α × κ) :=
  match key a with
  | none => best
  | some k => if best.all fun b => k < b.2 then some (a, k) else best

/-- The result is the first of the elements with the least key, or none has a key. -/
def IsFirst (key : α → Option κ) (l : List α) : Option (α × κ) → Prop
  | none => ∀ a ∈ l, key a = none
  | some (a, k) => ∃ pre post, l = pre ++ a :: post ∧ key a = some k ∧
      (∀ b ∈ pre, ∀ k', key b = some k' → k < k') ∧ ∀ b ∈ post, ∀ k', key b = some k' → k ≤ k'

variable {key : α → Option κ} {l l' : List α} {best best' : Option (α × κ)}

/-- The best is an element, and no key is less. -/
theorem IsFirst.least {a : α} {k : κ} (h : IsFirst key l (some (a, k))) :
    a ∈ l ∧ key a = some k ∧ ∀ b ∈ l, ∀ k', key b = some k' → k ≤ k' := by
  obtain ⟨pre, post, rfl, hkey, hpre, hpost⟩ := h
  refine ⟨List.mem_append_right _ List.mem_cons_self, hkey, fun b hb k' hk' => ?_⟩
  rcases List.mem_append.mp hb with hb | hb
  · exact le_of_lt (hpre b hb k' hk')
  · rcases List.mem_cons.mp hb with rfl | hb
    · exact Option.some_inj.mp (hkey.symm.trans hk') ▸ le_refl k
    · exact hpost b hb k' hk'

theorem IsFirst.concat (h : IsFirst key l best) (a : α) :
    IsFirst key (l ++ [a]) (better key best a) := by
  unfold better
  cases hkey : key a with
  | none =>
    cases best with
    | none =>
      intro b hb
      rcases List.mem_append.mp hb with hb | hb
      · exact h b hb
      · rw [List.mem_singleton.mp hb, hkey]
    | some best =>
      obtain ⟨pre, post, rfl, hbest, hpre, hpost⟩ := h
      refine ⟨pre, post ++ [a], by simp, hbest, hpre, fun b hb k' hk' => ?_⟩
      rcases List.mem_append.mp hb with hb | hb
      · exact hpost b hb k' hk'
      · rw [List.mem_singleton.mp hb, hkey] at hk'
        cases hk'
  | some k =>
    dsimp only
    by_cases hless : best.all (fun b => decide (k < b.2)) = true
    · rw [if_pos hless]
      refine ⟨l, [], rfl, hkey, fun b hb k' hk' => ?_, fun _ hb => absurd hb List.not_mem_nil⟩
      cases best with
      | none =>
        rw [h b hb] at hk'
        cases hk'
      | some best => exact lt_of_lt_of_le (of_decide_eq_true hless) (h.least.2.2 b hb k' hk')
    · rw [if_neg hless]
      cases best with
      | none => exact absurd rfl hless
      | some best =>
        obtain ⟨pre, post, rfl, hbest, hpre, hpost⟩ := h
        refine ⟨pre, post ++ [a], by simp, hbest, hpre, fun b hb k' hk' => ?_⟩
        rcases List.mem_append.mp hb with hb | hb
        · exact hpost b hb k' hk'
        · rw [List.mem_singleton.mp hb, hkey] at hk'
          cases hk'
          exact le_of_not_gt fun hlt => hless (decide_eq_true hlt)

/-- One pass finds it. -/
theorem isFirst_foldl (key : α → Option κ) (l : List α) :
    IsFirst key l (l.foldl (better key) none) := by
  have hpass : ∀ (post pre : List α) (best : Option (α × κ)), IsFirst key pre best →
      IsFirst key (pre ++ post) (post.foldl (better key) best) := by
    intro post
    induction post with
    | nil =>
      intro pre best h
      rwa [List.append_nil]
    | cons a post ih =>
      intro pre best h
      have hnext := ih _ _ (h.concat a)
      rwa [List.append_assoc] at hnext
  exact hpass l [] none fun _ ha => absurd ha List.not_mem_nil

/-- In another order the least key is the same, and the best elements both have it. -/
theorem IsFirst.perm (hl : l.Perm l') (h : IsFirst key l best)
    (h' : IsFirst key l' best') : best.map Prod.snd = best'.map Prod.snd := by
  cases best with
  | none =>
    cases best' with
    | none => rfl
    | some best' =>
      obtain ⟨hmem, hkey, -⟩ := h'.least
      rw [h _ (hl.mem_iff.mpr hmem)] at hkey
      cases hkey
  | some best =>
    obtain ⟨hmem, hkey, hleast⟩ := h.least
    cases best' with
    | none =>
      rw [h' _ (hl.mem_iff.mp hmem)] at hkey
      cases hkey
    | some best' =>
      obtain ⟨hmem', hkey', hleast'⟩ := h'.least
      exact congrArg some (le_antisymm (hleast _ (hl.mem_iff.mpr hmem') _ hkey')
        (hleast' _ (hl.mem_iff.mp hmem) _ hkey))

end FirstLeast
end Techuila
