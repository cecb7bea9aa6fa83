import Mathlib.Data.List.Range

/-!
# Scans that rewrite pairs in place

A scan goes over the indices of a vector. At some of them it rewrites the entry there together with
the entry of a partner.

* `visit`: what is done at one index. A read outside of the vector is `none`.
* `Partners`: partners are other entries, and are told apart by them.
* `scan_spec`: each pair is rewritten once, from its old entries, and no other entry is.
-/

namespace Techuila
namespace PairScan

variable {α : Type} {N : Nat}

/-- The entries at an index and at its partner are rewritten, where the index leads its pair. -/
def visit (leads : Nat → Bool) (partner : Nat → Nat) (F : α → α → α × α) (v : Vector α N) (i : Nat) :
    Option (Vector α N) :=
  if leads i then do
    let a ← v[i]?
    let b ← v[partner i]?
    some ((v.setIfInBounds i (F a b).1).setIfInBounds (partner i) (F a b).2)
  else some v

def scan (leads : Nat → Bool) (partner : Nat → Nat) (F : α → α → α × α) (v : Vector α N) :
    Option (Vector α N) :=
  (List.range N).foldlM (visit leads partner F) v

/-- A partner is an entry that leads no pair, and is the partner of one entry. -/
structure Partners (N : Nat) (leads : Nat → Bool) (partner : Nat → Nat) : Prop where
  lt : ∀ i < N, leads i = true → partner i < N
  follows : ∀ i < N, leads i = true → leads (partner i) = false
  inj : ∀ i < N, ∀ j < N, leads i = true → leads j = true → partner i = partner j → i = j

/-- The pairs that are led from below `k` are rewritten, and the other entries are the old ones. -/
structure Scanned (leads : Nat → Bool) (partner : Nat → Nat) (F : α → α → α × α) (v : Vector α N)
    (k : Nat) (v' : Vector α N) : Prop where
  pair : ∀ i < k, leads i = true → ∀ a b, v[i]? = some a → v[partner i]? = some b →
    v'[i]? = some (F a b).1 ∧ v'[partner i]? = some (F a b).2
  rest : ∀ j, (∀ i < k, leads i = true → j ≠ i ∧ j ≠ partner i) → v'[j]? = v[j]?

variable {leads : Nat → Bool} {partner : Nat → Nat} {F : α → α → α × α} {v v' : Vector α N}

theorem Scanned.zero : Scanned leads partner F v 0 v :=
  ⟨fun _ h => absurd h (Nat.not_lt_zero _), fun _ _ => rfl⟩

/-- An index finds its pair as it was. -/
theorem Scanned.visit (hp : Partners N leads partner) {k : Nat} (hk : k < N)
    (h : Scanned leads partner F v k v') :
    ∃ v'', visit leads partner F v' k = some v'' ∧ Scanned leads partner F v (k + 1) v'' := by
  by_cases hl : leads k = true
  · have hlt := hp.lt k hk hl
    have hne : partner k ≠ k := fun he => by
      have hf := hp.follows k hk hl
      rw [he, hl] at hf
      cases hf
    obtain ⟨a, ha⟩ : ∃ a, v[k]? = some a := ⟨_, Vector.getElem?_eq_getElem hk⟩
    obtain ⟨b, hb⟩ : ∃ b, v[partner k]? = some b := ⟨_, Vector.getElem?_eq_getElem hlt⟩
    have hold : ∀ i < k, leads i = true →
        (k ≠ i ∧ k ≠ partner i) ∧ partner k ≠ i ∧ partner k ≠ partner i := by
      intro i hi hli
      have hiN := hi.trans hk
      refine ⟨⟨by omega, fun he => ?_⟩, fun he => ?_, fun he => ?_⟩
      · have hf := hp.follows i hiN hli
        rw [← he, hl] at hf
        cases hf
      · have hf := hp.follows k hk hl
        rw [he, hli] at hf
        cases hf
      · have heq := hp.inj k hk i hiN hl hli he
        omega
    have ha' : v'[k]? = some a := (h.rest k fun i hi hli => (hold i hi hli).1).trans ha
    have hb' : v'[partner k]? = some b :=
      (h.rest (partner k) fun i hi hli => (hold i hi hli).2).trans hb
    have hvisit : PairScan.visit leads partner F v' k =
        some ((v'.setIfInBounds k (F a b).1).setIfInBounds (partner k) (F a b).2) := by
      simp only [PairScan.visit, hl, if_true, ha', hb', Option.bind_eq_bind, Option.bind_some]
    refine ⟨_, hvisit, fun i hi hli x y hx hy => ?_, fun j hj => ?_⟩
    · rcases Nat.lt_succ_iff_lt_or_eq.mp hi with hi | rfl
      · obtain ⟨hx', hy'⟩ := h.pair i hi hli x y hx hy
        obtain ⟨⟨hki, hkp⟩, hpi, hpp⟩ := hold i hi hli
        rw [Vector.getElem?_setIfInBounds_ne hpi, Vector.getElem?_setIfInBounds_ne hki,
          Vector.getElem?_setIfInBounds_ne hpp, Vector.getElem?_setIfInBounds_ne hkp]
        exact ⟨hx', hy'⟩
      · cases ha.symm.trans hx
        cases hb.symm.trans hy
        rw [Vector.getElem?_setIfInBounds_ne hne, Vector.getElem?_setIfInBounds_self_of_lt hk,
          Vector.getElem?_setIfInBounds_self_of_lt hlt]
        exact ⟨rfl, rfl⟩
    · obtain ⟨hjk, hjp⟩ := hj k (Nat.lt_succ_self k) hl
      rw [Vector.getElem?_setIfInBounds_ne (Ne.symm hjp), Vector.getElem?_setIfInBounds_ne (Ne.symm hjk)]
      exact h.rest j fun i hi => hj i (Nat.lt_succ_of_lt hi)
  · refine ⟨v', by simp only [PairScan.visit, hl, if_false, Bool.false_eq_true], fun i hi hli => ?_,
      fun j hj => h.rest j fun i hi => hj i (Nat.lt_succ_of_lt hi)⟩
    rcases Nat.lt_succ_iff_lt_or_eq.mp hi with hi | rfl
    · exact h.pair i hi hli
    · exact absurd hli hl

theorem scan_range (hp : Partners N leads partner) {k : Nat} (hk : k ≤ N) (v : Vector α N) :
    ∃ v', (List.range k).foldlM (visit leads partner F) v = some v' ∧
      Scanned leads partner F v k v' := by
  induction k with
  | zero => exact ⟨v, rfl, .zero⟩
  | succ k ih =>
    obtain ⟨v', hrun, hscanned⟩ := ih (Nat.le_of_succ_le hk)
    obtain ⟨v'', hvisit, hnext⟩ := hscanned.visit hp hk
    refine ⟨v'', ?_, hnext⟩
    rw [List.range_succ, List.foldlM_append, hrun, Option.bind_eq_bind, Option.bind_some,
      List.foldlM_cons, hvisit]
    rfl

/-- A loop whose steps on the indices of the vector are visits. -/
theorem scan_eq {f : Vector α N → Nat → Option (Vector α N)}
    (hf : ∀ v, ∀ i < N, f v i = visit leads partner F v i) (v : Vector α N) :
    (List.range N).foldlM f v = scan leads partner F v := by
  have hlist : ∀ (l : List Nat) (v : Vector α N), (∀ i ∈ l, i < N) →
      l.foldlM f v = l.foldlM (visit leads partner F) v := by
    intro l
    induction l with
    | nil => exact fun _ _ => rfl
    | cons i l ih =>
      intro v hl
      obtain ⟨hi, hl⟩ := List.forall_mem_cons.mp hl
      rw [List.foldlM_cons, List.foldlM_cons, hf v i hi]
      exact Option.bind_congr fun v' _ => ih v' hl
  exact hlist _ v fun i => List.mem_range.mp

/-- Each pair is rewritten once, from its old entries. -/
theorem scan_spec (hp : Partners N leads partner) (v : Vector α N) :
    ∃ v', scan leads partner F v = some v' ∧ Scanned leads partner F v N v' :=
  scan_range hp (Nat.le_refl N) v

end PairScan
end Techuila
