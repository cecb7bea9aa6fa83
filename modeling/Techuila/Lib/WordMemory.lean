import Mathlib.Data.Nat.Basic
import Mathlib.Logic.Function.Basic
import Mathlib.Tactic.Ring

/-!
# A byte-addressed memory with 32-bit words

Bytes at natural addresses; words are little-endian and need no alignment.

* `load32_store32`, `load32_store32_of_apart`: what a store does to the words of the memory.
* `load32_congr`: a word depends on its four bytes only.
* `storeBytes_apply`, `load32_storeWords`, `load32_copyWords`: what the loops over a range leave in it.
-/

namespace Techuila

/-- One byte for each address. -/
abbrev WordMemory := Nat → UInt8

namespace WordMemory

/-- The word in the four bytes from `a` on. -/
def load32 (m : WordMemory) (a : Nat) : Nat :=
  (m a).toNat + 256 * (m (a + 1)).toNat + 65536 * (m (a + 2)).toNat +
    16777216 * (m (a + 3)).toNat

/-- The memory with the low 32 bits of `v` in the four bytes from `a` on. -/
def store32 (m : WordMemory) (a v : Nat) : WordMemory := fun x =>
  if a ≤ x ∧ x < a + 4 then .ofNat (v / 256 ^ (x - a)) else m x

/-- The memory with a byte at `a`. -/
def store8 (m : WordMemory) (a : Nat) (b : UInt8) : WordMemory := fun x =>
  if x = a then b else m x

theorem load32_lt (m : WordMemory) (a : Nat) : m.load32 a < 2 ^ 32 := by
  have h₀ := (m a).toNat_lt
  have h₁ := (m (a + 1)).toNat_lt
  have h₂ := (m (a + 2)).toNat_lt
  have h₃ := (m (a + 3)).toNat_lt
  unfold load32
  omega

theorem load32_congr {m m' : WordMemory} {a : Nat}
    (h : ∀ x, a ≤ x → x < a + 4 → m x = m' x) : m.load32 a = m'.load32 a := by
  unfold load32
  rw [h a (by omega) (by omega), h (a + 1) (by omega) (by omega),
    h (a + 2) (by omega) (by omega), h (a + 3) (by omega) (by omega)]

theorem store32_of_apart {m : WordMemory} {a v x : Nat} (h : x < a ∨ a + 4 ≤ x) :
    m.store32 a v x = m x := by
  rw [store32, if_neg (by omega)]

theorem store8_of_ne {m : WordMemory} {a x : Nat} {b : UInt8} (h : x ≠ a) :
    m.store8 a b x = m x := if_neg h

theorem store8_self (m : WordMemory) (a : Nat) (b : UInt8) : m.store8 a b a = b := if_pos rfl

theorem load32_store32 (m : WordMemory) (a : Nat) {v : Nat} (h : v < 2 ^ 32) :
    (m.store32 a v).load32 a = v := by
  have hb : ∀ i < 4, m.store32 a v (a + i) = .ofNat (v / 256 ^ i) := by
    intro i hi
    rw [store32, if_pos (by omega), Nat.add_sub_cancel_left]
  unfold load32
  rw [show m.store32 a v a = _ from hb 0 (by omega), hb 1 (by omega), hb 2 (by omega),
    hb 3 (by omega)]
  simp only [UInt8.toNat_ofNat', Nat.reducePow, Nat.div_one]
  omega

theorem load32_store32_of_apart {m : WordMemory} {a b v : Nat} (h : b + 4 ≤ a ∨ a + 4 ≤ b) :
    (m.store32 a v).load32 b = m.load32 b :=
  load32_congr fun _ _ _ => store32_of_apart (by omega)

theorem load32_store8_of_apart {m : WordMemory} {a b : Nat} {v : UInt8}
    (h : b + 4 ≤ a ∨ a < b) : (m.store8 a v).load32 b = m.load32 b :=
  load32_congr fun _ _ _ => store8_of_ne (by omega)

/-! ## Loops -/

/-- `n` bytes from `a` on, in a loop. -/
def storeBytes (m : WordMemory) (a : Nat) (f : Nat → UInt8) : Nat → WordMemory
  | 0 => m
  | n + 1 => (storeBytes m a f n).store8 (a + n) (f n)

/-- `n` words from `a` on, in a loop. -/
def storeWords (m : WordMemory) (a : Nat) (f : Nat → Nat) : Nat → WordMemory
  | 0 => m
  | n + 1 => (storeWords m a f n).store32 (a + 4 * n) (f n)

/-- `n` words from `src` on copied to `dst`, in a loop. -/
def copyWords (m : WordMemory) (src dst : Nat) : Nat → WordMemory
  | 0 => m
  | n + 1 =>
    let m := copyWords m src dst n
    m.store32 (dst + 4 * n) (m.load32 (src + 4 * n))

theorem storeBytes_apply (m : WordMemory) (a : Nat) (f : Nat → UInt8) (n x : Nat) :
    m.storeBytes a f n x = if a ≤ x ∧ x < a + n then f (x - a) else m x := by
  induction n with
  | zero => rw [storeBytes, if_neg (by omega)]
  | succ n ih =>
    rw [storeBytes]
    by_cases h : x = a + n
    · rw [h, store8_self, if_pos (by omega), Nat.add_sub_cancel_left]
    · rw [store8_of_ne h, ih]
      by_cases h' : a ≤ x ∧ x < a + n
      · rw [if_pos h', if_pos (by omega)]
      · rw [if_neg h', if_neg (by omega)]

theorem storeWords_of_apart {m : WordMemory} {a : Nat} {f : Nat → Nat} {n x : Nat}
    (h : x < a ∨ a + 4 * n ≤ x) : m.storeWords a f n x = m x := by
  induction n with
  | zero => rfl
  | succ n ih => rw [storeWords, store32_of_apart (by omega), ih (by omega)]

theorem load32_storeWords (m : WordMemory) (a : Nat) {f : Nat → Nat} {n i : Nat}
    (hf : ∀ i < n, f i < 2 ^ 32) (h : i < n) : (m.storeWords a f n).load32 (a + 4 * i) = f i := by
  induction n with
  | zero => exact absurd h (Nat.not_lt_zero i)
  | succ n ih =>
    rw [storeWords]
    by_cases hi : i = n
    · rw [hi, load32_store32 _ _ (hf n (Nat.lt_succ_self n))]
    · rw [load32_store32_of_apart (by omega), ih (fun i hi => hf i (by omega)) (by omega)]

theorem copyWords_of_apart {m : WordMemory} {src dst n x : Nat} (h : x < dst ∨ dst + 4 * n ≤ x) :
    m.copyWords src dst n x = m x := by
  induction n with
  | zero => rfl
  | succ n ih => rw [copyWords, store32_of_apart (by omega), ih (by omega)]

/-- A copy between ranges that are apart. -/
theorem load32_copyWords (m : WordMemory) {src dst n : Nat} (h : src + 4 * n ≤ dst ∨ dst + 4 * n ≤ src)
    {i : Nat} (hi : i < n) : (m.copyWords src dst n).load32 (dst + 4 * i) = m.load32 (src + 4 * i) := by
  induction n with
  | zero => exact absurd hi (Nat.not_lt_zero i)
  | succ n ih =>
    rw [copyWords]
    by_cases he : i = n
    · rw [he, load32_store32 _ _ (load32_lt _ _)]
      exact load32_congr fun x _ _ => copyWords_of_apart (by omega)
    · rw [load32_store32_of_apart (by omega), ih (by omega) (by omega)]

end WordMemory

end Techuila
