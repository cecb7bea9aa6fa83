import Mathlib.Data.BitVec
import Mathlib.Tactic.Ring

/-!
# A byte-addressed memory with 64-bit addresses

Little-endian loads and stores of any number of bytes. Addresses wrap around.

* `load_congr`: a load depends on its bytes only.
* `load_store_offset`: a load inside a stored range reads its bytes back.
-/

namespace Techuila

abbrev Address := BitVec 64

/-- A memory: one byte for each address. -/
abbrev ByteMemory := Address → BitVec 8

namespace ByteMemory

/-- The little-endian number in the `n` bytes from `a` on. -/
def load (m : ByteMemory) (a : Address) : Nat → Nat
  | 0 => 0
  | n + 1 => (m a).toNat + 256 * load m (a + 1) n

/-- The memory with the low `n` bytes of `v` from `a` on. -/
def store (m : ByteMemory) (a : Address) (n : Nat) (v : Nat) : ByteMemory := fun b =>
  if (b - a).toNat < n then BitVec.ofNat 8 (v / 256 ^ (b - a).toNat) else m b

/-- A load depends on its bytes only. -/
theorem load_congr {m m' : ByteMemory} {a : Address} {n : Nat}
    (h : ∀ i < n, m (a + BitVec.ofNat 64 i) = m' (a + BitVec.ofNat 64 i)) :
    m.load a n = m'.load a n := by
  induction n generalizing a with
  | zero => rfl
  | succ n ih =>
    have h₀ := h 0 (Nat.succ_pos n)
    simp only [BitVec.add_zero] at h₀
    rw [load, load, h₀, ih fun i hi => ?_]
    have hs := h (i + 1) (by omega)
    have e : a + 1 + BitVec.ofNat 64 i = a + BitVec.ofNat 64 (i + 1) := by
      rw [BitVec.add_assoc, Nat.add_comm i 1, BitVec.ofNat_add]; rfl
    rw [e]; exact hs

theorem store_of_apart {m : ByteMemory} {a b : Address} {n : Nat} {v : Nat}
    (h : ∀ i < n, a + BitVec.ofNat 64 i ≠ b) : m.store a n v b = m b := by
  rw [store, if_neg]
  intro hlt
  refine h _ hlt ?_
  rw [BitVec.ofNat_toNat, BitVec.setWidth_eq]
  exact add_sub_cancel a b

theorem store_at (m : ByteMemory) (a : Address) {n i : Nat} (v : Nat) (hi : i < n)
    (hn : n ≤ 2 ^ 64) :
    m.store a n v (a + BitVec.ofNat 64 i) = BitVec.ofNat 8 (v / 256 ^ i) := by
  have e : (a + BitVec.ofNat 64 i - a).toNat = i := by
    rw [add_sub_cancel_left, BitVec.toNat_ofNat, Nat.mod_eq_of_lt (by omega)]
  rw [store, e, if_pos hi]

/-- The `k` bytes at offset `j` of a stored range. -/
theorem load_store_offset (m : ByteMemory) (a : Address) {n j k : Nat} (v : Nat) (h : j + k ≤ n)
    (hn : n ≤ 2 ^ 64) :
    (m.store a n v).load (a + BitVec.ofNat 64 j) k = v / 256 ^ j % 256 ^ k := by
  induction k generalizing j with
  | zero => simp [load, Nat.mod_one]
  | succ k ih =>
    have e : a + BitVec.ofNat 64 j + 1 = a + BitVec.ofNat 64 (j + 1) := by
      rw [BitVec.ofNat_add, ← BitVec.add_assoc]; rfl
    have ej : 256 ^ (j + 1) = 256 ^ j * 256 := pow_succ 256 j
    have ek : 256 ^ (k + 1) = 256 * 256 ^ k := pow_succ' 256 k
    rw [load, store_at m a v (by omega) hn, e, ih (by omega), BitVec.toNat_ofNat, ej,
      ← Nat.div_div_eq_div_mul, ek, Nat.mod_mul]

end ByteMemory

end Techuila
