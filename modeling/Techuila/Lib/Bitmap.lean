import Mathlib.Data.Nat.Bitwise
import Mathlib.Logic.Function.Basic

/-!
# Bitmaps

A bit for each index, eight of them in a byte.

* `test_mark`, `test_clear`: setting and clearing one bit.
-/

namespace Techuila

abbrev Bitmap := Nat → UInt8

namespace Bitmap

def bit (i : Nat) : UInt8 := 1 <<< UInt8.ofNat (i % 8)

def mark (b : Bitmap) (i : Nat) : Bitmap := Function.update b (i / 8) (b (i / 8) ||| bit i)

def clear (b : Bitmap) (i : Nat) : Bitmap := Function.update b (i / 8) (b (i / 8) &&& ~~~ bit i)

def test (b : Bitmap) (i : Nat) : Bool := b (i / 8) &&& bit i != 0

theorem bit_toNat (i : Nat) : (bit i).toNat = 2 ^ (i % 8) := by
  have h : ∀ j : Fin 8, ((1 : UInt8) <<< UInt8.ofNat j.val).toNat = 2 ^ j.val := by decide
  exact h ⟨i % 8, Nat.mod_lt _ (by decide)⟩

/-- A bit of the map is a bit of the number in its byte. -/
theorem test_eq_testBit (b : Bitmap) (i : Nat) : b.test i = (b (i / 8)).toNat.testBit (i % 8) := by
  unfold test
  rw [Bool.eq_iff_iff, bne_iff_ne, ne_eq, ← UInt8.toNat_inj, UInt8.toNat_and, bit_toNat,
    Nat.and_two_pow]
  cases (b (i / 8)).toNat.testBit (i % 8) <;> simp

theorem test_mark (b : Bitmap) (i j : Nat) : (b.mark i).test j = (decide (j = i) || b.test j) := by
  rw [test_eq_testBit, test_eq_testBit, mark]
  by_cases hbyte : j / 8 = i / 8
  · rw [hbyte, Function.update_self, UInt8.toNat_or, bit_toNat, Nat.testBit_or,
      Nat.testBit_two_pow, Bool.or_comm]
    congr 1
    rw [decide_eq_decide]
    omega
  · rw [Function.update_of_ne hbyte, decide_eq_false (by rintro rfl; exact hbyte rfl),
      Bool.false_or]

theorem test_clear (b : Bitmap) (i j : Nat) :
    (b.clear i).test j = (decide (j ≠ i) && b.test j) := by
  rw [test_eq_testBit, test_eq_testBit, clear]
  by_cases hbyte : j / 8 = i / 8
  · have hnot : (~~~ bit i).toNat = 2 ^ 8 - (2 ^ (i % 8) + 1) := by
      rw [UInt8.toNat_not, bit_toNat, Nat.sub_sub, Nat.add_comm]
      rfl
    have hlt : 2 ^ (i % 8) < 2 ^ 8 := Nat.pow_lt_pow_right (by decide) (Nat.mod_lt _ (by decide))
    rw [hbyte, Function.update_self, UInt8.toNat_and, hnot, Nat.testBit_and,
      Nat.testBit_two_pow_sub_succ hlt, Nat.testBit_two_pow, Bool.and_comm,
      decide_eq_true (Nat.mod_lt j (by decide)), Bool.true_and, ← decide_not]
    congr 1
    rw [decide_eq_decide]
    omega
  · rw [Function.update_of_ne hbyte, decide_eq_true (by rintro rfl; exact hbyte rfl),
      Bool.true_and]

@[simp] theorem test_zero (i : Nat) : test (fun _ => 0) i = false := by
  simp [test]

/-- Marking a range of indices. -/
theorem test_foldl_mark (b : Bitmap) (l : List Nat) (j : Nat) :
    (l.foldl mark b).test j = (decide (j ∈ l) || b.test j) := by
  induction l generalizing b with
  | nil => simp
  | cons i l ih =>
    rw [List.foldl_cons, ih, test_mark, ← Bool.or_assoc, ← Bool.decide_or]
    congr 1
    rw [decide_eq_decide, List.mem_cons, or_comm]

end Bitmap

end Techuila
