import Mathlib.Data.Nat.ModEq
import Mathlib.Data.UInt
import Mathlib.Algebra.BigOperators.Group.List.Basic
import Mathlib.Tactic.Ring

/-!
# One's-complement sums

Words are numbers up to `m`, of which the last one is a second zero.

* `sum`: words added with the carry out of the top brought back in at the bottom.
* `Folds`: a word is congruent to a number, and the first zero only for the number zero. It is so of
  one word: `Folds.unique`.
* `sum_folds`: what the words of a list add up to is such a word for their sum.
* `total`: the sum of the 16-bit words of a byte string. `total_set_ne`: it tells byte strings apart
  that differ in one byte.
-/

namespace Techuila
namespace OnesComplement

variable {m s s' r r' : ℕ}

/-- The carry out of the top comes back in at the bottom. -/
def fold (m s : ℕ) : ℕ := s % (m + 1) + s / (m + 1)

def sum (m : ℕ) (words : List ℕ) : ℕ := words.foldl (fun acc x => fold m (acc + x)) 0

/-- The word that a number is folded to. -/
structure Folds (m s r : ℕ) : Prop where
  le : r ≤ m
  modEq : r ≡ s [MOD m]
  zero : r = 0 ↔ s = 0

theorem fold_modEq (m s : ℕ) : fold m s ≡ s [MOD m] := by
  have hone : m + 1 ≡ 1 [MOD m] := by simp [Nat.ModEq]
  calc fold m s ≡ s % (m + 1) + (m + 1) * (s / (m + 1)) [MOD m] := by
        simpa [fold] using (Nat.ModEq.mul_right (s / (m + 1)) hone).symm.add_left (s % (m + 1))
    _ = s := Nat.mod_add_div s (m + 1)

theorem fold_eq_zero : fold m s = 0 ↔ s = 0 := by
  have hsplit := Nat.mod_add_div s (m + 1)
  constructor
  · intro h
    obtain ⟨hmod, hdiv⟩ := Nat.add_eq_zero_iff.mp h
    rw [hmod, hdiv] at hsplit
    exact hsplit.symm
  · rintro rfl
    simp [fold]

theorem Folds.of_fold (h : Folds m (fold m s) r) : Folds m s r :=
  ⟨h.le, h.modEq.trans (fold_modEq m s), h.zero.trans fold_eq_zero⟩

theorem Folds.refl (h : s ≤ m) : Folds m s s :=
  ⟨h, .refl s, .rfl⟩

/-- A number is folded to one word. -/
theorem Folds.unique (h : Folds m s r) (h' : Folds m s r') : r = r' := by
  by_cases hs : s = 0
  · rw [h.zero.mpr hs, h'.zero.mpr hs]
  · have hr : r ≠ 0 := fun e => hs (h.zero.mp e)
    have hr' : r' ≠ 0 := fun e => hs (h'.zero.mp e)
    have hle := h.le
    have hle' := h'.le
    have hpred : r - 1 ≡ r' - 1 [MOD m] := by
      refine Nat.ModEq.add_right_cancel' 1 ?_
      rw [Nat.sub_add_cancel (Nat.pos_of_ne_zero hr), Nat.sub_add_cancel (Nat.pos_of_ne_zero hr')]
      exact h.modEq.trans h'.modEq.symm
    have := hpred.eq_of_lt_of_lt (by omega) (by omega)
    omega

/-- The two zeros are the words of the multiples. -/
theorem Folds.isZero (h : Folds m s r) : r = 0 ∨ r = m ↔ s ≡ 0 [MOD m] := by
  constructor
  · rintro (hr | hr)
    · rw [h.zero.mp hr]
    · exact (h.modEq.symm.trans (hr ▸ Nat.modEq_zero_iff_dvd.mpr dvd_rfl))
  · intro hs
    obtain ⟨k, hk⟩ := Nat.modEq_zero_iff_dvd.mp (h.modEq.trans hs)
    have hle := h.le
    rcases k with _ | k
    · exact .inl hk
    · refine .inr (Nat.le_antisymm hle ?_)
      rw [hk]
      exact Nat.le_mul_of_pos_right m (Nat.succ_pos k)

/-- A word and a word more give one carry at most. -/
theorem Folds.add (h : Folds m s r) {x : ℕ} (hx : x ≤ m) : Folds m (s + x) (fold m (r + x)) := by
  have hle := h.le
  refine ⟨?_, (fold_modEq m _).trans (h.modEq.add_right x), ?_⟩
  · by_cases hlt : r + x < m + 1
    · rw [fold, Nat.mod_eq_of_lt hlt, Nat.div_eq_of_lt hlt]
      omega
    · have hdiv : (r + x) / (m + 1) = 1 :=
        (Nat.div_eq_iff (by omega)).mpr ⟨by omega, by omega⟩
      have hsplit := Nat.mod_add_div (r + x) (m + 1)
      rw [hdiv] at hsplit
      rw [fold, hdiv]
      omega
  · rw [fold_eq_zero, Nat.add_eq_zero_iff, Nat.add_eq_zero_iff, h.zero]

theorem sum_folds {words : List ℕ} (h : ∀ x ∈ words, x ≤ m) : Folds m words.sum (sum m words) := by
  suffices hgen : ∀ s acc, Folds m s acc →
      Folds m (s + words.sum) (words.foldl (fun acc x => fold m (acc + x)) acc) by
    simpa [sum] using hgen 0 0 (.refl (Nat.zero_le m))
  induction words with
  | nil =>
    intro s acc hacc
    exact hacc
  | cons x words ih =>
    intro s acc hacc
    have hx := h x List.mem_cons_self
    have hstep := ih (fun y hy => h y (List.mem_cons_of_mem x hy)) (s + x) _ (hacc.add hx)
    rwa [Nat.add_assoc, ← List.sum_cons] at hstep

/-! ### The words of a byte string -/

/-- The 16-bit words, most significant byte first. An odd last byte is the high one of its word. -/
def words : List UInt8 → List ℕ
  | [] => []
  | [high] => [256 * high.toNat]
  | high :: low :: bytes => (256 * high.toNat + low.toNat) :: words bytes

def total (bytes : List UInt8) : ℕ := (words bytes).sum

/-- What a byte counts for at its place. -/
def weight : ℕ → ℕ
  | 0 => 256
  | 1 => 1
  | i + 2 => weight i

theorem words_le {bytes : List UInt8} : ∀ x ∈ words bytes, x ≤ 65535 := by
  induction bytes using words.induct with
  | case1 => simp [words]
  | case2 high =>
    have := high.toNat_lt
    simp only [words, List.mem_singleton, forall_eq]
    omega
  | case3 high low bytes ih =>
    have := high.toNat_lt
    have := low.toNat_lt
    rintro x (_ | ⟨_, hx⟩)
    · omega
    · exact ih x hx

theorem total_folds (bytes : List UInt8) :
    Folds 65535 (total bytes) (sum 65535 (words bytes)) :=
  sum_folds words_le

@[simp] theorem total_nil : total [] = 0 := rfl

@[simp] theorem total_cons_cons (high low : UInt8) (bytes : List UInt8) :
    total (high :: low :: bytes) = 256 * high.toNat + low.toNat + total bytes := by
  simp [total, words]

theorem total_singleton (high : UInt8) : total [high] = 256 * high.toNat := by
  simp [total, words]

theorem total_append {bytes : List UInt8} (heven : bytes.length % 2 = 0) (rest : List UInt8) :
    total (bytes ++ rest) = total bytes + total rest := by
  induction bytes using words.induct with
  | case1 => simp
  | case2 high => simp at heven
  | case3 high low bytes ih =>
    rw [List.length_cons, List.length_cons] at heven
    simp [ih (by omega), Nat.add_assoc]

theorem total_le (bytes : List UInt8) : total bytes ≤ 65535 * ((bytes.length + 1) / 2) := by
  induction bytes using words.induct with
  | case1 => simp
  | case2 high =>
    have := high.toNat_lt
    simp only [total_singleton, List.length_singleton]
    omega
  | case3 high low bytes ih =>
    have := high.toNat_lt
    have := low.toNat_lt
    have hlen : ((high :: low :: bytes).length + 1) / 2 = (bytes.length + 1) / 2 + 1 := by
      simp only [List.length_cons]
      omega
    rw [total_cons_cons, hlen]
    omega

theorem total_eq_zero {bytes : List UInt8} : total bytes = 0 ↔ ∀ b ∈ bytes, b = 0 := by
  have hzero : ∀ b : UInt8, b.toNat = 0 ↔ b = 0 := fun b => @UInt8.toNat_inj b 0
  induction bytes using words.induct with
  | case1 => simp
  | case2 high => simp [total_singleton, hzero]
  | case3 high low bytes ih =>
    simp [ih, Nat.add_eq_zero_iff, hzero, and_assoc]

theorem weight_cases : ∀ i, weight i = 256 ∨ weight i = 1
  | 0 => .inl rfl
  | 1 => .inr rfl
  | i + 2 => weight_cases i

/-- What one byte more or less does to the sum. -/
theorem total_set {bytes : List UInt8} {i : ℕ} {old : UInt8} (h : bytes[i]? = some old)
    (b : UInt8) :
    total (bytes.set i b) + weight i * old.toNat = total bytes + weight i * b.toNat := by
  induction bytes using words.induct generalizing i with
  | case1 => cases h
  | case2 high =>
    rcases i with _ | i
    · cases h
      simp [total_singleton, weight, Nat.add_comm]
    · cases h
  | case3 high low bytes ih =>
    rcases i with _ | _ | i
    · cases h
      simp only [List.set_cons_zero, total_cons_cons, weight]
      omega
    · cases h
      simp only [List.set_cons_succ, List.set_cons_zero, total_cons_cons, weight]
      omega
    · have := ih h
      simp only [List.set_cons_succ, total_cons_cons, weight]
      omega

/-- Another byte at one place makes another sum, also up to what is folded. -/
theorem total_set_ne {bytes : List UInt8} {i : ℕ} {old b : UInt8} (h : bytes[i]? = some old)
    (hne : b ≠ old) : ¬ total (bytes.set i b) ≡ total bytes [MOD 65535] := by
  intro hmod
  have hset := total_set h b
  have hsame : total bytes + weight i * old.toNat ≡ total bytes + weight i * b.toNat [MOD 65535] :=
    (hmod.symm.add_right _).trans (hset ▸ .refl _)
  have hbytes : weight i * old.toNat ≡ weight i * b.toNat [MOD 65535] :=
    Nat.ModEq.add_left_cancel' (total bytes) hsame
  have hold := old.toNat_lt
  have hb := b.toNat_lt
  refine hne (UInt8.toNat_inj.mp ?_)
  rcases weight_cases i with hw | hw <;> rw [hw] at hbytes
  · have := hbytes.eq_of_lt_of_lt (by omega) (by omega)
    omega
  · have := hbytes.eq_of_lt_of_lt (by omega) (by omega)
    omega

end OnesComplement
end Techuila
