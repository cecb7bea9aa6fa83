import Mathlib.Data.List.Forall2
import Techuila.Crypto.Streaming
import Techuila.Lib.Hmac

/-!
# Authenticated messages (`10-cryptography/mac/hmac_sha256.cpp`, `07-distributed-systems/rpc/auth.cpp`)

A message with its tag behind it.

* `hmacSha256_eq`: the tag is the one of RFC 2104 over SHA-256.
* `constantTimeEquals_iff`: the accumulated comparison is equality.
* `verifyAndExtractMessage_iff`: the receiver takes exactly what the sender makes.
-/

namespace Techuila
namespace Crypto

open Techuila.Dist (Bytes)

def HMAC_SHA256_OUTPUT_SIZE : Nat := 32

/-- The key at the start of a block of zeros, hashed first if it is longer than the block. -/
def keyBlock (key : Bytes) : Bytes :=
  let block := List.replicate SHA256_BLOCK_SIZE (0 : UInt8)
  if key.length > SHA256_BLOCK_SIZE then sha256 key ++ block.drop (sha256 key).length
  else key ++ block.drop key.length

def hmacSha256 (key message : Bytes) : Bytes :=
  let innerPad := (keyBlock key).map (· ^^^ 0x36)
  let outerPad := (keyBlock key).map (· ^^^ 0x5C)
  let innerDigest := ((({} : Sha256).update innerPad).update message).finish
  ((({} : Sha256).update outerPad).update innerDigest).finish

def constantTimeEquals (a b : Bytes) : Bool :=
  if a.length ≠ b.length then false
  else (a.zip b).foldl (fun diff p => diff ||| (p.1 ^^^ p.2)) 0 == 0

def authenticateMessage (message key : Bytes) : Bytes := message ++ hmacSha256 key message

/-- Whether the tag is right, and `messageOut` after the call. -/
def verifyAndExtractMessage (authenticated key messageOut : Bytes) : Bool × Bytes :=
  if authenticated.length < HMAC_SHA256_OUTPUT_SIZE then (false, messageOut)
  else
    let messageLength := authenticated.length - HMAC_SHA256_OUTPUT_SIZE
    let messageBytes := authenticated.take messageLength
    let claimedTag := authenticated.drop messageLength
    if !constantTimeEquals claimedTag (hmacSha256 key messageBytes) then (false, messageOut)
    else (true, messageBytes)

/-! ## The tag -/

theorem keyBlock_eq (key : Bytes) :
    keyBlock key = Hmac.blockKey Sha2.digest SHA256_BLOCK_SIZE key := by
  rw [keyBlock, Hmac.blockKey, sha256_eq_digest]
  split <;> simp

/-- The loops over the pads read no byte outside the block. -/
theorem length_keyBlock (key : Bytes) : (keyBlock key).length = SHA256_BLOCK_SIZE := by
  rw [keyBlock_eq]
  exact Hmac.length_blockKey (fun text => by rw [← sha256_eq_digest]; exact (by decide : 32 ≤ 64)) key

/-- Two pieces of a message. -/
theorem finish_update_update (first second : Bytes) :
    ((({} : Sha256).update first).update second).finish = Sha2.digest (first ++ second) :=
  ((Absorbed.new.update first).update second).finish

theorem hmacSha256_eq (key message : Bytes) :
    hmacSha256 key message = Hmac.hmac Sha2.digest SHA256_BLOCK_SIZE key message := by
  simp only [hmacSha256, finish_update_update, keyBlock_eq, Hmac.hmac, Hmac.padded]

theorem length_hmacSha256 (key message : Bytes) :
    (hmacSha256 key message).length = HMAC_SHA256_OUTPUT_SIZE := length_sha256Finish _

/-! ## The comparison -/

/-- The accumulator is zero at the end exactly where every pair was one of equal bytes. -/
theorem foldl_diff (ps : List (UInt8 × UInt8)) (diff : UInt8) :
    ps.foldl (fun diff p => diff ||| (p.1 ^^^ p.2)) diff = 0 ↔ diff = 0 ∧ ∀ p ∈ ps, p.1 = p.2 := by
  induction ps generalizing diff with
  | nil => simp
  | cons p ps ih =>
    rw [List.foldl_cons, ih, UInt8.or_eq_zero_iff, UInt8.xor_eq_zero_iff, and_assoc, List.forall_mem_cons]

theorem constantTimeEquals_iff {a b : Bytes} : constantTimeEquals a b = true ↔ a = b := by
  rw [constantTimeEquals]
  by_cases hlen : a.length = b.length
  · have hzip : (∀ p ∈ a.zip b, p.1 = p.2) ↔ List.Forall₂ Eq a b := by
      rw [List.forall₂_iff_zip]
      exact ⟨fun h => ⟨hlen, fun hp => h _ hp⟩, fun h p hp => h.2 hp⟩
    rw [if_neg (not_not.mpr hlen), beq_iff_eq, foldl_diff, hzip, List.forall₂_eq_eq_eq]
    exact and_iff_right rfl
  · rw [if_pos hlen]
    exact ⟨nofun, fun h => absurd (congrArg List.length h) hlen⟩

/-! ## The envelope -/

theorem authenticateMessage_eq (message key : Bytes) : authenticateMessage message key =
    message ++ Hmac.hmac Sha2.digest SHA256_BLOCK_SIZE key message := by
  rw [authenticateMessage, hmacSha256_eq]

/-- What the sender makes is taken. -/
theorem verifyAndExtractMessage_authenticate (message key messageOut : Bytes) :
    verifyAndExtractMessage (authenticateMessage message key) key messageOut = (true, message) := by
  have htag := length_hmacSha256 key message
  have hlen : (authenticateMessage message key).length =
      message.length + HMAC_SHA256_OUTPUT_SIZE := by
    rw [authenticateMessage, List.length_append, htag]
  rw [verifyAndExtractMessage, if_neg (by omega)]
  simp only [hlen, Nat.add_sub_cancel]
  rw [authenticateMessage, List.take_left' rfl, List.drop_left' rfl,
    constantTimeEquals_iff.mpr rfl]
  rfl

/-- What is taken is what the sender makes. -/
theorem authenticated_eq {authenticated key messageOut message : Bytes}
    (h : verifyAndExtractMessage authenticated key messageOut = (true, message)) :
    authenticated = authenticateMessage message key := by
  rw [verifyAndExtractMessage] at h
  split at h
  · cases h
  dsimp only at h
  split at h
  · cases h
  rename_i hverify
  obtain ⟨-, rfl⟩ := Prod.mk.inj h
  rw [Bool.not_eq_true, Bool.not_eq_false'] at hverify
  rw [authenticateMessage, ← constantTimeEquals_iff.mp hverify, List.take_append_drop]

theorem messageOut_kept {authenticated key messageOut : Bytes}
    (h : (verifyAndExtractMessage authenticated key messageOut).1 = false) :
    (verifyAndExtractMessage authenticated key messageOut).2 = messageOut := by
  unfold verifyAndExtractMessage at h ⊢
  split
  · rfl
  rename_i hlong
  rw [if_neg hlong] at h
  dsimp only at h ⊢
  split
  · rfl
  · rename_i hverify
    rw [if_neg hverify] at h
    cases h

/-- The receiver takes a message exactly where the bytes are what the sender makes of it, with the tag
of RFC 2104, and otherwise leaves the output as it was. -/
theorem verifyAndExtractMessage_iff (authenticated key messageOut message : Bytes) :
    (verifyAndExtractMessage authenticated key messageOut = (true, message) ↔
      authenticated = authenticateMessage message key) ∧
    authenticateMessage message key =
      message ++ Hmac.hmac Sha2.digest SHA256_BLOCK_SIZE key message ∧
    ((verifyAndExtractMessage authenticated key messageOut).1 = false →
      (verifyAndExtractMessage authenticated key messageOut).2 = messageOut) := by
  refine ⟨⟨authenticated_eq, ?_⟩, authenticateMessage_eq message key, messageOut_kept⟩
  rintro rfl
  exact verifyAndExtractMessage_authenticate message key messageOut

end Crypto
end Techuila
