import Techuila.Crypto.Streaming
import Techuila.Lib.ArrayWrites

/-!
# The hasher and its buffer

The class as `sha256.hpp` declares it: a buffer of 64 bytes that is written byte by byte and keeps
what earlier blocks have left in it, and the number of its bytes that count.

* `Represents`: the members of a hasher of `Crypto.Sha256`.
* `streaming_digest`: from any members, `reset` and any pieces of a message give its digest, no write
  misses the buffer and no loop runs on.
-/

namespace Techuila
namespace Crypto

open Techuila.Dist (Bytes)
open ArrayWrites (putAll putAll_some)

/-- The members of the class. -/
structure Members where
  state : Words
  buffer : Vector UInt8 SHA256_BLOCK_SIZE
  bufferLength : UInt32
  totalLength : UInt64

namespace Members

/-- The buffer is left as it is. -/
def reset (m : Members) : Members :=
  { m with
    state := ({} : Sha256).state
    bufferLength := 0
    totalLength := 0 }

/-- How many bytes one round of `update` copies. -/
def toCopy (m : Members) (data : Bytes) : UInt32 :=
  let toCopy := UInt32.ofNat SHA256_BLOCK_SIZE - m.bufferLength
  if toCopy.toNat > data.length then .ofNat data.length else toCopy

/-- The loop of `update`. It is `none` where a write misses the buffer, and where the data is not used
up after `n` rounds. -/
def updateLoop : Nat → Members → Bytes → Option Members
  | 0, m, data => if data = [] then some m else none
  | n + 1, m, data =>
    if data = [] then some m
    else do
      let toCopy := m.toCopy data
      let buffer ← putAll m.buffer m.bufferLength.toNat (data.take toCopy.toNat)
      let bufferLength := m.bufferLength + toCopy
      if bufferLength.toNat = SHA256_BLOCK_SIZE then
        let state := processBlock m.state buffer.toList
        updateLoop n { m with state := state, buffer := buffer, bufferLength := 0 }
          (data.drop toCopy.toNat)
      else
        updateLoop n { m with buffer := buffer, bufferLength := bufferLength }
          (data.drop toCopy.toNat)

def update (m : Members) (data : Bytes) : Option Members :=
  updateLoop data.length { m with totalLength := m.totalLength + .ofNat data.length } data

/-- The zeros of the padding, `none` where `n` of them do not reach the place of the length. -/
def padZeros : Nat → Members → Option Members
  | 0, _ => none
  | n + 1, m =>
    if m.bufferLength.toNat ≠ SHA256_BLOCK_SIZE - 8 then do
      let m ← m.update [0]
      padZeros n m
    else some m

/-- The digest. -/
def finish (m : Members) : Option Bytes := do
  let bitLength := m.totalLength * 8
  let m ← m.update [0x80]
  let m ← padZeros SHA256_BLOCK_SIZE m
  let buffer ← putAll m.buffer m.bufferLength.toNat (writeU64BE bitLength)
  some ((processBlock m.state buffer.toList).toList.flatMap writeU32BE)

end Members

/-- Only the first bytes of the buffer count. -/
structure Represents (m : Members) (hasher : Sha256) : Prop where
  state : m.state = hasher.state
  bufferLength : m.bufferLength.toNat = hasher.buffer.length
  buffer : m.buffer.toList.take hasher.buffer.length = hasher.buffer
  totalLength : m.totalLength = hasher.totalLength

namespace Represents

variable {m : Members} {hasher : Sha256}

theorem reset (m : Members) : Represents m.reset {} := ⟨rfl, rfl, List.take_zero .., rfl⟩

/-- Bytes that fit behind those of the buffer. -/
theorem putAll (h : Represents m hasher) (bytes : Bytes)
    (hlen : hasher.buffer.length + bytes.length ≤ SHA256_BLOCK_SIZE) :
    ∃ buffer, ArrayWrites.putAll m.buffer m.bufferLength.toNat bytes = some buffer ∧
      buffer.toList.take (hasher.buffer ++ bytes).length = hasher.buffer ++ bytes := by
  rw [h.bufferLength]
  obtain ⟨buffer, e, hbuffer⟩ := putAll_some hlen
  refine ⟨buffer, e, ?_⟩
  rw [hbuffer, h.buffer, List.take_left' rfl]

theorem toNat_toCopy (h : Represents m hasher)
    (hlt : hasher.buffer.length < SHA256_BLOCK_SIZE) (data : Bytes) :
    (m.toCopy data).toNat = min (SHA256_BLOCK_SIZE - hasher.buffer.length) data.length := by
  have hbuffer := h.bufferLength
  have hfree : (UInt32.ofNat SHA256_BLOCK_SIZE - m.bufferLength).toNat =
      SHA256_BLOCK_SIZE - hasher.buffer.length := by
    rw [← hbuffer] at hlt ⊢
    exact UInt32.toNat_sub_of_le _ _ (UInt32.le_iff_toNat_le.mpr (Nat.le_of_lt hlt))
  rw [Members.toCopy]
  unfold SHA256_BLOCK_SIZE at *
  split
  · rw [UInt32.toNat_ofNat']
    omega
  · omega

theorem updateLoop (n : Nat) {data : Bytes} (h : Represents m hasher)
    (hlt : hasher.buffer.length < SHA256_BLOCK_SIZE) (hn : data.length ≤ n) :
    ∃ m', Members.updateLoop n m data = some m' ∧
      Represents m' (Sha256.updateLoop n hasher data) := by
  induction n generalizing m hasher data with
  | zero =>
    obtain rfl := List.length_eq_zero_iff.mp (Nat.le_zero.mp hn)
    exact ⟨m, rfl, h⟩
  | succ n ih =>
    rw [Members.updateLoop, Sha256.updateLoop]
    by_cases hd : data = []
    · rw [if_pos hd, if_pos hd]
      exact ⟨m, rfl, h⟩
    rw [if_neg hd, if_neg hd]
    have hpos := List.length_pos_of_ne_nil hd
    have hcopy := h.toNat_toCopy hlt data
    set toCopy := min (SHA256_BLOCK_SIZE - hasher.buffer.length) data.length with htoCopy
    have hrest : (data.drop toCopy).length ≤ n := by
      rw [List.length_drop]
      omega
    have hfit : (hasher.buffer ++ data.take toCopy).length = hasher.buffer.length + toCopy := by
      rw [List.length_append, List.length_take]
      omega
    have hlength : (m.bufferLength + m.toCopy data).toNat =
        (hasher.buffer ++ data.take toCopy).length := by
      rw [UInt32.toNat_add, h.bufferLength, hcopy, hfit]
      unfold SHA256_BLOCK_SIZE at *
      omega
    obtain ⟨buffer, e, hbuffer⟩ := h.putAll (data.take toCopy) (by
      rw [← List.length_append, hfit]
      omega)
    simp only [hcopy, e, hlength, Option.bind_eq_bind, Option.bind_some]
    split
    · rename_i hfull
      have hwhole : buffer.toList = hasher.buffer ++ data.take toCopy := by
        rw [← hbuffer, hfull, List.take_of_length_le (by simp)]
      rw [hwhole, h.state]
      exact ih ⟨rfl, rfl, rfl, h.totalLength⟩ (Nat.zero_lt_succ 63) hrest
    · rename_i hne
      exact ih ⟨h.state, hlength, hbuffer, h.totalLength⟩ (by dsimp only; omega) hrest

theorem update (h : Represents m hasher) (hlt : hasher.buffer.length < SHA256_BLOCK_SIZE)
    (data : Bytes) : ∃ m', m.update data = some m' ∧ Represents m' (hasher.update data) := by
  refine Represents.updateLoop data.length ⟨h.state, h.bufferLength, h.buffer, ?_⟩ hlt (Nat.le_refl _)
  rw [h.totalLength]

/-- The place of the length is reached where `k` more zeros are enough for it. -/
theorem padZeros {message : Bytes} {k : Nat} (n : Nat) (h : Represents m hasher)
    (ha : Absorbed hasher message) (hk : k < n) (hend : (message.length + k) % 64 = 56) :
    ∃ m', m.padZeros n = some m' ∧ Represents m' (hasher.padZeros n) := by
  induction n generalizing m hasher message k with
  | zero => exact absurd hk (Nat.not_lt_zero k)
  | succ n ih =>
    rw [Members.padZeros, Sha256.padZeros, h.bufferLength]
    split
    · rename_i hne
      obtain ⟨m', e, h'⟩ := h.update ha.buffer [0]
      cases k with
      | zero => exact absurd (ha.length.symm.trans hend) hne
      | succ k =>
        rw [e]
        refine ih h' (ha.update [0]) (Nat.lt_of_succ_lt_succ hk) ?_
        rw [List.length_append, List.length_singleton, Nat.add_assoc, Nat.add_comm 1, hend]
    · exact ⟨m, rfl, h⟩

theorem finish {message : Bytes} (h : Represents m hasher) (ha : Absorbed hasher message) :
    m.finish = some hasher.finish := by
  obtain ⟨m₁, e₁, h₁⟩ := h.update ha.buffer [0x80]
  have hlen : (message ++ [(0x80 : UInt8)]).length = message.length + 1 := by simp
  have hzeros : ((message ++ [(0x80 : UInt8)]).length + Sha2.zeros message.length) % 64 = 56 := by
    rw [hlen, Sha2.zeros_spec]
  have hleast : ∀ j < Sha2.zeros message.length,
      ((message ++ [(0x80 : UInt8)]).length + j) % 64 ≠ 56 := by
    intro j hj
    rw [hlen]
    exact Sha2.zeros_least hj
  have hlt := Sha2.zeros_lt message.length
  obtain ⟨m₂, e₂, h₂⟩ := h₁.padZeros SHA256_BLOCK_SIZE (ha.update [0x80]) hlt hzeros
  have h56 := ((ha.update [0x80]).padZeros SHA256_BLOCK_SIZE hlt hzeros hleast).2
  have hlast : ((Sha256.padZeros SHA256_BLOCK_SIZE (hasher.update [0x80])).buffer ++
      writeU64BE (m.totalLength * 8)).length = SHA256_BLOCK_SIZE := by
    rw [List.length_append, h56]
    rfl
  obtain ⟨buffer, e₃, hbuffer⟩ := h₂.putAll (writeU64BE (m.totalLength * 8))
    (by rw [← List.length_append, hlast])
  rw [hlast, List.take_of_length_le (by simp)] at hbuffer
  simp only [Members.finish, e₁, e₂, e₃, Option.bind_eq_bind, Option.bind_some, Sha256.finish]
  rw [h₂.state, hbuffer, h.totalLength]

theorem updates {message : Bytes} (h : Represents m hasher) (ha : Absorbed hasher message)
    (chunks : List Bytes) : ∃ m', chunks.foldlM Members.update m = some m' ∧
      Represents m' (chunks.foldl Sha256.update hasher) := by
  induction chunks generalizing m hasher message with
  | nil => exact ⟨m, rfl, h⟩
  | cons chunk chunks ih =>
    obtain ⟨m₁, e₁, h₁⟩ := h.update ha.buffer chunk
    obtain ⟨m₂, e₂, h₂⟩ := ih h₁ (ha.update chunk)
    exact ⟨m₂, by rw [List.foldlM_cons, e₁]; exact e₂, h₂⟩

end Represents

/-- However a message is split, the hasher gives its digest, as the one-shot function does. -/
theorem streaming_digest (m : Members) (chunks : List Bytes) :
    (do
      let m ← chunks.foldlM Members.update m.reset
      m.finish) = some (Sha2.digest chunks.flatten) ∧
    sha256 chunks.flatten = Sha2.digest chunks.flatten := by
  obtain ⟨m', e, h⟩ := (Represents.reset m).updates .new chunks
  refine ⟨?_, sha256_eq_digest _⟩
  rw [e, Option.bind_eq_bind, Option.bind_some, h.finish (Absorbed.new.updates chunks),
    (Absorbed.new.updates chunks).finish, List.nil_append]

end Crypto
end Techuila
