import Mathlib.Data.List.Basic
import Mathlib.Data.Nat.Find
import Techuila.Lib.BigEndian

/-!
# The secure hash SHA-256

The function that FIPS 180-4 defines, on messages of whole bytes.

* `pad`: the message, the byte `0x80`, the least number of zeros that leaves room for the length in
  the last block, and the length in bits.
* `compress`: the hash value after one more block, from the message schedule `W` and 64 rounds.
* `zeros_spec`, `zeros_least`: how many zeros these are.
* `blocks_flatten`: the blocks that a padded message was put together from.
-/

namespace Techuila
namespace Sha2

abbrev Word := BitVec 32

/-! ## Functions and constants -/

def ch (x y z : Word) : Word := (x &&& y) ^^^ (~~~x &&& z)

def maj (x y z : Word) : Word := (x &&& y) ^^^ (x &&& z) ^^^ (y &&& z)

def bigSigma0 (x : Word) : Word := x.rotateRight 2 ^^^ x.rotateRight 13 ^^^ x.rotateRight 22

def bigSigma1 (x : Word) : Word := x.rotateRight 6 ^^^ x.rotateRight 11 ^^^ x.rotateRight 25

def sigma0 (x : Word) : Word := x.rotateRight 7 ^^^ x.rotateRight 18 ^^^ x >>> 3

def sigma1 (x : Word) : Word := x.rotateRight 17 ^^^ x.rotateRight 19 ^^^ x >>> 10

/-- The constants of the rounds. -/
def constants : List Word :=
  [0x428a2f98, 0x71374491, 0xb5c0fbcf, 0xe9b5dba5, 0x3956c25b, 0x59f111f1, 0x923f82a4, 0xab1c5ed5,
    0xd807aa98, 0x12835b01, 0x243185be, 0x550c7dc3, 0x72be5d74, 0x80deb1fe, 0x9bdc06a7, 0xc19bf174,
    0xe49b69c1, 0xefbe4786, 0x0fc19dc6, 0x240ca1cc, 0x2de92c6f, 0x4a7484aa, 0x5cb0a9dc, 0x76f988da,
    0x983e5152, 0xa831c66d, 0xb00327c8, 0xbf597fc7, 0xc6e00bf3, 0xd5a79147, 0x06ca6351, 0x14292967,
    0x27b70a85, 0x2e1b2138, 0x4d2c6dfc, 0x53380d13, 0x650a7354, 0x766a0abb, 0x81c2c92e, 0x92722c85,
    0xa2bfe8a1, 0xa81a664b, 0xc24b8b70, 0xc76c51a3, 0xd192e819, 0xd6990624, 0xf40e3585, 0x106aa070,
    0x19a4c116, 0x1e376c08, 0x2748774c, 0x34b0bcb5, 0x391c0cb3, 0x4ed8aa4a, 0x5b9cca4f, 0x682e6ff3,
    0x748f82ee, 0x78a5636f, 0x84c87814, 0x8cc70208, 0x90befffa, 0xa4506ceb, 0xbef9a3f7, 0xc67178f2]

/-- The eight words of a hash value, and the working variables of the rounds. -/
structure Hash where
  a : Word
  b : Word
  c : Word
  d : Word
  e : Word
  f : Word
  g : Word
  h : Word
  deriving DecidableEq

namespace Hash

def initial : Hash :=
  ⟨0x6a09e667, 0xbb67ae85, 0x3c6ef372, 0xa54ff53a, 0x510e527f, 0x9b05688c, 0x1f83d9ab, 0x5be0cd19⟩

def add (s t : Hash) : Hash :=
  ⟨s.a + t.a, s.b + t.b, s.c + t.c, s.d + t.d, s.e + t.e, s.f + t.f, s.g + t.g, s.h + t.h⟩

theorem add_comm (s t : Hash) : s.add t = t.add s := by simp only [add, BitVec.add_comm]

/-- The words of a hash value one after the other, in big-endian order. -/
def toBytes (s : Hash) : List UInt8 :=
  [s.a, s.b, s.c, s.d, s.e, s.f, s.g, s.h].flatMap fun w => beBytes 4 w.toNat

end Hash

/-! ## One block -/

/-- The word `t` of a block. -/
def word (block : List UInt8) (t : Nat) : Word := .ofNat 32 (ofBE ((block.drop (4 * t)).take 4))

/-- The message schedule of a block. -/
def W (block : List UInt8) (t : Nat) : Word :=
  if t < 16 then word block t
  else
    sigma1 (W block (t - 2)) + W block (t - 7) + sigma0 (W block (t - 15)) + W block (t - 16)
termination_by t

/-- Round `t` with the schedule `w`. -/
def round (w : Nat → Word) (s : Hash) (t : Nat) : Hash :=
  let t1 := s.h + bigSigma1 s.e + ch s.e s.f s.g + constants.getD t 0 + w t
  let t2 := bigSigma0 s.a + maj s.a s.b s.c
  ⟨t1 + t2, s.a, s.b, s.c, s.d + t1, s.e, s.f, s.g⟩

def compress (s : Hash) (block : List UInt8) : Hash :=
  ((List.range 64).foldl (round (W block)) s).add s

/-! ## The whole message -/

theorem exists_zeros (n : Nat) : ∃ k, (n + 1 + k) % 64 = 56 := ⟨119 - n % 64, by omega⟩

/-- The least number of zero bytes after which a message of `n` bytes and the byte `0x80` leave eight
bytes of a block. -/
def zeros (n : Nat) : Nat := Nat.find (exists_zeros n)

def pad (message : List UInt8) : List UInt8 :=
  message ++ 0x80 :: List.replicate (zeros message.length) 0 ++ beBytes 8 (8 * message.length)

/-- The blocks of 64 bytes that a padded message consists of. -/
def blocks (padded : List UInt8) : List (List UInt8) :=
  (List.range (padded.length / 64)).map fun i => (padded.drop (64 * i)).take 64

def digest (message : List UInt8) : List UInt8 :=
  ((blocks (pad message)).foldl compress .initial).toBytes

theorem zeros_spec (n : Nat) : (n + 1 + zeros n) % 64 = 56 := Nat.find_spec (exists_zeros n)

theorem zeros_least {n j : Nat} (h : j < zeros n) : (n + 1 + j) % 64 ≠ 56 :=
  Nat.find_min (exists_zeros n) h

theorem zeros_lt (n : Nat) : zeros n < 64 :=
  (Nat.find_lt_iff (exists_zeros n) 64).mpr ⟨(119 - n % 64) % 64, by omega, by omega⟩

theorem blocks_cons {block rest : List UInt8} (h : block.length = 64) :
    blocks (block ++ rest) = block :: blocks rest := by
  have hlen : (block ++ rest).length / 64 = rest.length / 64 + 1 := by
    rw [List.length_append, h]
    omega
  rw [blocks, hlen, List.range_succ_eq_map, List.map_cons, List.map_map, blocks]
  refine List.cons_eq_cons.mpr ⟨?_, List.map_congr_left fun i _ => ?_⟩
  · rw [Nat.mul_zero, List.drop_zero, List.take_left' h]
  · have hi : 64 * (i + 1) = 64 + 64 * i := by omega
    rw [Function.comp_apply, Nat.succ_eq_add_one, hi, ← List.drop_drop, List.drop_left' h]

/-- What is put together from blocks is cut into these again. -/
theorem blocks_flatten (bs : List (List UInt8)) (h : ∀ b ∈ bs, b.length = 64) :
    blocks bs.flatten = bs := by
  induction bs with
  | nil => rfl
  | cons b bs ih =>
    rw [List.flatten_cons, blocks_cons (h b List.mem_cons_self),
      ih fun b hb => h b (List.mem_cons_of_mem _ hb)]

theorem W_lt {block : List UInt8} {t : Nat} (h : t < 16) : W block t = word block t := by
  rw [W, if_pos h]

theorem W_ge {block : List UInt8} {t : Nat} (h : 16 ≤ t) :
    W block t =
      sigma1 (W block (t - 2)) + W block (t - 7) + sigma0 (W block (t - 15)) + W block (t - 16) := by
  rw [W, if_neg (Nat.not_lt.mpr h)]

end Sha2
end Techuila
