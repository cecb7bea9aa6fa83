import Mathlib.Data.List.Basic

/-!
# Keyed hashing for message authentication

The construction of RFC 2104 over a hash function with blocks of `B` bytes.

* `length_blockKey`: every key fills a block where the hash value does not exceed one.
-/

namespace Techuila
namespace Hmac

variable (hash : List UInt8 → List UInt8) (B : Nat)

/-- A key longer than a block is hashed first, and zeros fill the block. -/
def blockKey (key : List UInt8) : List UInt8 :=
  let short := if key.length > B then hash key else key
  short ++ List.replicate (B - short.length) 0

/-- A block with every byte of the key changed by `pad`. -/
def padded (pad : UInt8) (key : List UInt8) : List UInt8 := (blockKey hash B key).map (· ^^^ pad)

def hmac (key text : List UInt8) : List UInt8 :=
  hash (padded hash B 0x5c key ++ hash (padded hash B 0x36 key ++ text))

variable {hash B}

theorem length_blockKey (h : ∀ text, (hash text).length ≤ B) (key : List UInt8) :
    (blockKey hash B key).length = B := by
  have hshort : (if key.length > B then hash key else key).length ≤ B := by
    split
    · exact h key
    · omega
  rw [blockKey, List.length_append, List.length_replicate]
  omega

end Hmac
end Techuila
