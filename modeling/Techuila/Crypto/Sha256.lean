import Techuila.Dist.Serialization

/-!
# SHA-256 (`10-cryptography/hashing/sha256.cpp`)

The streaming hasher: `update` fills blocks of 64 bytes, `finish` pads and writes the digest.

* `updateLoop_add`: the round count of the loop in `update` is always enough.
-/

namespace Techuila
namespace Crypto

open Techuila.Dist (Bytes)

/-- The round constants. -/
def K : List UInt32 :=
  [0x428a2f98, 0x71374491, 0xb5c0fbcf, 0xe9b5dba5, 0x3956c25b, 0x59f111f1, 0x923f82a4, 0xab1c5ed5,
    0xd807aa98, 0x12835b01, 0x243185be, 0x550c7dc3, 0x72be5d74, 0x80deb1fe, 0x9bdc06a7, 0xc19bf174,
    0xe49b69c1, 0xefbe4786, 0x0fc19dc6, 0x240ca1cc, 0x2de92c6f, 0x4a7484aa, 0x5cb0a9dc, 0x76f988da,
    0x983e5152, 0xa831c66d, 0xb00327c8, 0xbf597fc7, 0xc6e00bf3, 0xd5a79147, 0x06ca6351, 0x14292967,
    0x27b70a85, 0x2e1b2138, 0x4d2c6dfc, 0x53380d13, 0x650a7354, 0x766a0abb, 0x81c2c92e, 0x92722c85,
    0xa2bfe8a1, 0xa81a664b, 0xc24b8b70, 0xc76c51a3, 0xd192e819, 0xd6990624, 0xf40e3585, 0x106aa070,
    0x19a4c116, 0x1e376c08, 0x2748774c, 0x34b0bcb5, 0x391c0cb3, 0x4ed8aa4a, 0x5b9cca4f, 0x682e6ff3,
    0x748f82ee, 0x78a5636f, 0x84c87814, 0x8cc70208, 0x90befffa, 0xa4506ceb, 0xbef9a3f7, 0xc67178f2]

def rotr (x n : UInt32) : UInt32 := (x >>> n) ||| (x <<< (32 - n))

/-- The four bytes from `p` on, most significant first. -/
def readU32BE (p : Bytes) : UInt32 :=
  (p.getD 0 0).toUInt32 <<< (24 : UInt32) ||| (p.getD 1 0).toUInt32 <<< (16 : UInt32) |||
    (p.getD 2 0).toUInt32 <<< (8 : UInt32) ||| (p.getD 3 0).toUInt32

def writeU32BE (value : UInt32) : Bytes :=
  [((value >>> 24) &&& 0xFF).toUInt8, ((value >>> 16) &&& 0xFF).toUInt8,
    ((value >>> 8) &&& 0xFF).toUInt8, (value &&& 0xFF).toUInt8]

def writeU64BE (value : UInt64) : Bytes :=
  ([0, 1, 2, 3, 4, 5, 6, 7] : List UInt64).map fun i => ((value >>> (56 - 8 * i)) &&& 0xFF).toUInt8

def SHA256_BLOCK_SIZE : Nat := 64

/-- `a`, …, `h` of the compression function, and the state between blocks. -/
structure Words where
  a : UInt32
  b : UInt32
  c : UInt32
  d : UInt32
  e : UInt32
  f : UInt32
  g : UInt32
  h : UInt32
  deriving DecidableEq, Repr

namespace Words

def add (s t : Words) : Words :=
  ⟨s.a + t.a, s.b + t.b, s.c + t.c, s.d + t.d, s.e + t.e, s.f + t.f, s.g + t.g, s.h + t.h⟩

def toList (s : Words) : List UInt32 := [s.a, s.b, s.c, s.d, s.e, s.f, s.g, s.h]

/-- One round with its constant and its word of the schedule. -/
def round (s : Words) (kw : UInt32 × UInt32) : Words :=
  let S1 := rotr s.e 6 ^^^ rotr s.e 11 ^^^ rotr s.e 25
  let ch := (s.e &&& s.f) ^^^ ((~~~s.e) &&& s.g)
  let temp1 := s.h + S1 + ch + kw.1 + kw.2
  let S0 := rotr s.a 2 ^^^ rotr s.a 13 ^^^ rotr s.a 22
  let maj := (s.a &&& s.b) ^^^ (s.a &&& s.c) ^^^ (s.b &&& s.c)
  let temp2 := S0 + maj
  ⟨temp1 + temp2, s.a, s.b, s.c, s.d + temp1, s.e, s.f, s.g⟩

end Words

/-- The word that the schedule goes on with after the words `w`. -/
def nextWord (w : List UInt32) : UInt32 :=
  let i := w.length
  let w15 := w.getD (i - 15) 0
  let w2 := w.getD (i - 2) 0
  let s0 := rotr w15 7 ^^^ rotr w15 18 ^^^ (w15 >>> 3)
  let s1 := rotr w2 17 ^^^ rotr w2 19 ^^^ (w2 >>> 10)
  w.getD (i - 16) 0 + s0 + w.getD (i - 7) 0 + s1

/-- The message schedule of a block. -/
def schedule (block : Bytes) : List UInt32 :=
  (List.range 48).foldl (fun w _ => w ++ [nextWord w])
    ((List.range 16).map fun i => readU32BE (block.drop (i * 4)))

def processBlock (state : Words) (block : Bytes) : Words :=
  state.add ((K.zip (schedule block)).foldl Words.round state)

/-- `buffer` holds the first `bufferLength` bytes of the member. -/
structure Sha256 where
  state : Words :=
    ⟨0x6a09e667, 0xbb67ae85, 0x3c6ef372, 0xa54ff53a, 0x510e527f, 0x9b05688c, 0x1f83d9ab, 0x5be0cd19⟩
  buffer : Bytes := []
  totalLength : UInt64 := 0
  deriving DecidableEq, Repr

namespace Sha256

/-- The loop of `update`, with at most `n` rounds to go: fill the buffer, process it when full. -/
def updateLoop : Nat → Sha256 → Bytes → Sha256
  | 0, hasher, _ => hasher
  | n + 1, hasher, data =>
    if data = [] then hasher
    else
      let toCopy := min (SHA256_BLOCK_SIZE - hasher.buffer.length) data.length
      let buffer := hasher.buffer ++ data.take toCopy
      if buffer.length = SHA256_BLOCK_SIZE then
        updateLoop n { hasher with state := processBlock hasher.state buffer, buffer := [] }
          (data.drop toCopy)
      else updateLoop n { hasher with buffer := buffer } (data.drop toCopy)

def update (hasher : Sha256) (data : Bytes) : Sha256 :=
  updateLoop data.length { hasher with totalLength := hasher.totalLength + .ofNat data.length } data

/-- The zeros of the padding, at most `n` of them. -/
def padZeros : Nat → Sha256 → Sha256
  | 0, hasher => hasher
  | n + 1, hasher =>
    if hasher.buffer.length ≠ SHA256_BLOCK_SIZE - 8 then padZeros n (hasher.update [0])
    else hasher

/-- The digest. -/
def finish (hasher : Sha256) : Bytes :=
  let bitLength := hasher.totalLength * 8
  let hasher := padZeros SHA256_BLOCK_SIZE (hasher.update [0x80])
  (processBlock hasher.state (hasher.buffer ++ writeU64BE bitLength)).toList.flatMap writeU32BE

/-- More rounds than bytes make no difference. -/
theorem updateLoop_add (n m : Nat) {hasher : Sha256} {data : Bytes}
    (hb : hasher.buffer.length < SHA256_BLOCK_SIZE) (hn : data.length ≤ n) :
    updateLoop (n + m) hasher data = updateLoop n hasher data := by
  induction n generalizing hasher data with
  | zero =>
    obtain rfl := List.length_eq_zero_iff.mp (Nat.le_zero.mp hn)
    cases m <;> simp [updateLoop]
  | succ n ih =>
    rw [Nat.add_right_comm, updateLoop, updateLoop]
    by_cases hd : data = []
    · rw [if_pos hd, if_pos hd]
    rw [if_neg hd, if_neg hd]
    have hpos := List.length_pos_of_ne_nil hd
    unfold SHA256_BLOCK_SIZE at *
    have hdrop : (data.drop (min (64 - hasher.buffer.length) data.length)).length ≤ n := by
      rw [List.length_drop]
      omega
    dsimp only
    split
    · exact ih (by simp) hdrop
    · rename_i hne
      refine ih ?_ hdrop
      simp only [List.length_append, List.length_take] at hne ⊢
      omega

end Sha256

def sha256 (data : Bytes) : Bytes := (({} : Sha256).update data).finish

theorem length_sha256Finish (hasher : Sha256) : hasher.finish.length = 32 := rfl

end Crypto
end Techuila
