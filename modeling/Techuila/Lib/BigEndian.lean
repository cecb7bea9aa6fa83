import Mathlib.Data.List.Basic
import Mathlib.Tactic.Ring

/-!
# Big-endian byte strings

Fixed-width big-endian encodings of natural numbers over `UInt8`, the arithmetic behind every
binary format that writes integers most significant byte first.

* `beBytes k v`: the `k` bytes of `v mod 256^k`; `ofBE`: the number a byte string denotes.
* `ofBE_beBytes`: reading back gives `v mod 256^k`; `beBytes_ofBE`: a byte string is the encoding
  of its number, so the encoding is onto.
* `flatMap_injective_of_width`: records of one width are told apart.
-/

namespace Techuila

/-- The `k` bytes of `v mod 256^k`, most significant first. -/
def beBytes : Nat → Nat → List UInt8
  | 0, _ => []
  | k + 1, v => UInt8.ofNat (v / 256 ^ k) :: beBytes k v

/-- The number that a big-endian byte string denotes. -/
def ofBE (bs : List UInt8) : Nat := bs.foldl (fun acc b => acc * 256 + b.toNat) 0

@[simp] theorem length_beBytes (k v : Nat) : (beBytes k v).length = k := by
  induction k with
  | zero => rfl
  | succ k ih => simp [beBytes, ih]

/-- The running value of the fold: the bytes read so far shift left by the rest. -/
theorem foldl_be (bs : List UInt8) (acc : Nat) :
    bs.foldl (fun acc b => acc * 256 + b.toNat) acc = acc * 256 ^ bs.length + ofBE bs := by
  induction bs generalizing acc with
  | nil => simp [ofBE]
  | cons b bs ih =>
    simp only [ofBE, List.foldl_cons, List.length_cons]
    rw [ih, ih (0 * 256 + b.toNat)]
    ring

theorem ofBE_cons (b : UInt8) (bs : List UInt8) :
    ofBE (b :: bs) = b.toNat * 256 ^ bs.length + ofBE bs := by
  have h := foldl_be bs (0 * 256 + b.toNat)
  simpa [ofBE] using h

theorem ofBE_lt (bs : List UInt8) : ofBE bs < 256 ^ bs.length := by
  induction bs with
  | nil => simp [ofBE]
  | cons b bs ih =>
    have hb : b.toNat + 1 ≤ 256 := b.toNat_lt
    have hm := Nat.mul_le_mul_right (256 ^ bs.length) hb
    rw [Nat.add_mul] at hm
    rw [ofBE_cons, List.length_cons, Nat.pow_succ]
    omega

theorem ofBE_beBytes (k v : Nat) : ofBE (beBytes k v) = v % 256 ^ k := by
  induction k with
  | zero => simp [beBytes, ofBE, Nat.mod_one]
  | succ k ih =>
    rw [beBytes, ofBE_cons, ih, length_beBytes, UInt8.toNat_ofNat']
    have hp : 256 ^ (k + 1) = 256 ^ k * 256 := Nat.pow_succ ..
    rw [hp, Nat.mod_mul]
    ring

/-- Bytes above the encoded width do not matter. -/
theorem beBytes_mod (k v w : Nat) : beBytes k (v + w * 256 ^ k) = beBytes k v := by
  induction k generalizing w with
  | zero => rfl
  | succ k ih =>
    have hp : w * 256 ^ (k + 1) = (w * 256) * 256 ^ k := by ring
    have hd : (v + w * 256 ^ (k + 1)) / 256 ^ k = v / 256 ^ k + w * 256 := by
      rw [hp, Nat.add_mul_div_right _ _ (Nat.pow_pos (by decide))]
    rw [beBytes, beBytes, hd, hp, ih]
    congr 1
    apply UInt8.toNat_inj.mp
    simp only [UInt8.toNat_ofNat', Nat.reducePow]
    omega

theorem beBytes_mod_pow (k v : Nat) : beBytes k (v % 256 ^ k) = beBytes k v := by
  have h := beBytes_mod k (v % 256 ^ k) (v / 256 ^ k)
  rwa [Nat.mul_comm, Nat.mod_add_div, eq_comm] at h

theorem beBytes_ofBE (bs : List UInt8) : beBytes bs.length (ofBE bs) = bs := by
  induction bs with
  | nil => rfl
  | cons b bs ih =>
    have hlt := ofBE_lt bs
    have hd : (b.toNat * 256 ^ bs.length + ofBE bs) / 256 ^ bs.length = b.toNat := by
      rw [Nat.add_comm, Nat.add_mul_div_right _ _ (Nat.pow_pos (by decide)),
        Nat.div_eq_of_lt hlt, Nat.zero_add]
    rw [List.length_cons, ofBE_cons, beBytes, hd, Nat.add_comm, beBytes_mod, ih]
    simp

/-- Records of one width are told apart in their concatenation. -/
theorem flatMap_injective_of_width {α : Type} {f : α → List UInt8} {width : Nat} (hpos : 0 < width)
    (hlen : ∀ a, (f a).length = width) (hf : Function.Injective f) :
    Function.Injective fun as : List α => as.flatMap f := by
  intro as
  induction as with
  | nil =>
    intro bs h
    cases bs with
    | nil => rfl
    | cons b bs =>
      have := congrArg List.length h
      simp only [List.flatMap_nil, List.flatMap_cons, List.length_append, hlen] at this
      exact absurd this.symm (by simp; omega)
  | cons a as ih =>
    intro bs h
    cases bs with
    | nil =>
      have := congrArg List.length h
      simp only [List.flatMap_nil, List.flatMap_cons, List.length_append, hlen] at this
      exact absurd this (by simp; omega)
    | cons b bs =>
      simp only [List.flatMap_cons] at h
      obtain ⟨hhead, htail⟩ := List.append_inj h (by rw [hlen, hlen])
      rw [hf hhead, ih htail]

end Techuila
