import Techuila.Crypto.Sha256
import Techuila.Lib.Sha2

/-!
# The digest of a message in pieces

* `toHash_processBlock`: the compression function is that of the standard.
* `Absorbed`: the hasher has taken in a message, whatever the pieces were.
* `Absorbed.finish`: the digest is then the one of the message.
* `sha256_eq_digest`: the one-shot function.
-/

namespace Techuila
namespace Crypto

open Techuila.Dist (Bytes or_bytes_eq)

/-! ## Words -/

theorem toBitVec_rotr (x : UInt32) {n : UInt32} (hpos : 0 < n.toNat) (h : n.toNat < 32) :
    (rotr x n).toBitVec = x.toBitVec.rotateRight n.toNat := by
  have hn : (n.toBitVec % 32).toNat = n.toNat := by
    rw [BitVec.toNat_umod]
    exact Nat.mod_eq_of_lt h
  have hleft : ((32 - n).toBitVec % 32).toNat = 32 - n.toNat := by
    rw [BitVec.toNat_umod, UInt32.toNat_toBitVec, UInt32.toNat_sub_of_le]
    · exact Nat.mod_eq_of_lt (Nat.sub_lt (by decide) hpos)
    · exact UInt32.le_iff_toNat_le.mpr (Nat.le_of_lt h)
  rw [rotr, UInt32.toBitVec_or, UInt32.toBitVec_shiftRight, UInt32.toBitVec_shiftLeft,
    BitVec.rotateRight_def, Nat.mod_eq_of_lt h, BitVec.ushiftRight_eq', BitVec.shiftLeft_eq', hn,
    hleft]

/-- Reading four bytes that are there. -/
theorem readU32BE_eq {p : Bytes} (h : 4 ≤ p.length) :
    readU32BE p = .ofNat (ofBE (p.take 4)) := by
  match p, h with
  | _ :: _ :: _ :: _ :: _, _ => exact or_bytes_eq

theorem writeU32BE_eq (value : UInt32) : writeU32BE value = beBytes 4 value.toNat :=
  Dist.writeU32_buffer {} value

/-- Loops that shift by the same amounts take the same bytes. -/
theorem map_shift_congr {f g : UInt64 → UInt64} {is js : List UInt64} (h : is.map f = js.map g)
    (value : UInt64) : is.map (fun i => ((value >>> f i) &&& 0xFF).toUInt8) =
      js.map fun j => ((value >>> g j) &&& 0xFF).toUInt8 := by
  have h := congrArg (List.map fun s => ((value >>> s) &&& 0xFF).toUInt8) h
  rwa [List.map_map, List.map_map] at h

theorem writeU64BE_eq (value : UInt64) : writeU64BE value = beBytes 8 value.toNat := by
  have hshift : ([0, 1, 2, 3, 4, 5, 6, 7] : List UInt64).map (fun i => 56 - 8 * i) =
      ([7, 6, 5, 4, 3, 2, 1, 0] : List UInt64).map (fun i => i * 8) := by decide
  exact (map_shift_congr hshift value).trans (Dist.writeU64_buffer {} value)

namespace Words

def toHash (s : Words) : Sha2.Hash :=
  ⟨s.a.toBitVec, s.b.toBitVec, s.c.toBitVec, s.d.toBitVec, s.e.toBitVec, s.f.toBitVec,
    s.g.toBitVec, s.h.toBitVec⟩

theorem toHash_add (s t : Words) : (s.add t).toHash = s.toHash.add t.toHash := rfl

theorem toBytes_toHash (s : Words) : s.toHash.toBytes = s.toList.flatMap writeU32BE := by
  have hw : (fun w : UInt32 => beBytes 4 w.toNat) = writeU32BE :=
    funext fun w => (writeU32BE_eq w).symm
  rw [← hw]
  rfl

/-- One round, with the schedule in the machine's words. -/
theorem toHash_round (s : Words) (w : Nat → Sha2.Word) (t : Nat) :
    (s.round (K.getD t 0, .ofBitVec (w t))).toHash = Sha2.round w s.toHash t := by
  have hK : (K.getD t 0).toBitVec = Sha2.constants.getD t 0 := by
    rw [show Sha2.constants = K.map UInt32.toBitVec from rfl, List.getD_eq_getElem?_getD,
      List.getD_eq_getElem?_getD, List.getElem?_map]
    cases K[t]? <;> rfl
  simp only [round, toHash, Sha2.round, Sha2.bigSigma0, Sha2.bigSigma1, Sha2.ch, Sha2.maj,
    UInt32.toBitVec_add, UInt32.toBitVec_xor, UInt32.toBitVec_and, UInt32.toBitVec_not, ← hK]
  rw [toBitVec_rotr s.e, toBitVec_rotr s.e, toBitVec_rotr s.e, toBitVec_rotr s.a,
    toBitVec_rotr s.a, toBitVec_rotr s.a]
  all_goals first | rfl | decide

end Words

/-! ## One block -/

/-- The word `t` of the schedule, as the machine's word. -/
def scheduleWord (block : Bytes) (t : Nat) : UInt32 := .ofBitVec (Sha2.W block t)

theorem scheduleWord_lt {block : Bytes} (hb : block.length = SHA256_BLOCK_SIZE) {t : Nat}
    (h : t < 16) : readU32BE (block.drop (t * 4)) = scheduleWord block t := by
  have hlen : 4 ≤ (block.drop (t * 4)).length := by
    rw [List.length_drop, hb, SHA256_BLOCK_SIZE]
    omega
  rw [readU32BE_eq hlen, scheduleWord, Sha2.W_lt h, Sha2.word, Nat.mul_comm t 4]
  rfl

theorem nextWord_eq {block : Bytes} {n : Nat} (h : 16 ≤ n) :
    nextWord ((List.range n).map (scheduleWord block)) = scheduleWord block n := by
  have hget : ∀ k, 0 < k → k ≤ 16 →
      ((List.range n).map (scheduleWord block)).getD (n - k) 0 = scheduleWord block (n - k) := by
    intro k hpos hk
    rw [List.getD_eq_getElem?_getD, List.getElem?_map, List.getElem?_range (by omega)]
    rfl
  apply UInt32.toBitVec_inj.mp
  simp only [nextWord, List.length_map, List.length_range]
  rw [hget 15 (by decide) (by decide), hget 2 (by decide) (by decide),
    hget 16 (by decide) (by decide), hget 7 (by decide) (by decide), scheduleWord, scheduleWord,
    scheduleWord, scheduleWord, scheduleWord, Sha2.W_ge h]
  simp only [UInt32.toBitVec_add, UInt32.toBitVec_xor, Sha2.sigma0, Sha2.sigma1]
  rw [toBitVec_rotr, toBitVec_rotr, toBitVec_rotr, toBitVec_rotr]
  · simp only [UInt32.toBitVec_shiftRight]
    ac_rfl
  all_goals decide

theorem schedule_eq {block : Bytes} (hb : block.length = SHA256_BLOCK_SIZE) :
    schedule block = (List.range 64).map (scheduleWord block) := by
  have hstart : ((List.range 16).map fun i => readU32BE (block.drop (i * 4))) =
      (List.range 16).map (scheduleWord block) :=
    List.map_congr_left fun i hi => scheduleWord_lt hb (List.mem_range.mp hi)
  have hloop : ∀ n, (List.range n).foldl (fun w _ => w ++ [nextWord w])
      ((List.range 16).map (scheduleWord block)) =
        (List.range (16 + n)).map (scheduleWord block) := by
    intro n
    induction n with
    | zero => rfl
    | succ n ih =>
      rw [List.range_succ (n := n), List.foldl_concat, ih, nextWord_eq (Nat.le_add_right 16 n),
        ← Nat.add_assoc, List.range_succ (n := 16 + n), List.map_append]
      rfl
  rw [schedule, hstart, hloop 48]

theorem toHash_processBlock (state : Words) {block : Bytes}
    (hb : block.length = SHA256_BLOCK_SIZE) :
    (processBlock state block).toHash = Sha2.compress state.toHash block := by
  have hK : K = (List.range 64).map fun t => K.getD t 0 := by decide
  have hrounds : ((K.zip (schedule block)).foldl Words.round state).toHash =
      (List.range 64).foldl (Sha2.round (Sha2.W block)) state.toHash := by
    rw [schedule_eq hb, hK, List.zip_map', List.foldl_map]
    exact (List.foldl_hom Words.toHash fun s t => (s.toHash_round (Sha2.W block) t).symm).symm
  rw [processBlock, Words.toHash_add, hrounds, Sha2.compress, Sha2.Hash.add_comm]

theorem toHash_blocks {bs : List Bytes} (hbs : ∀ b ∈ bs, b.length = SHA256_BLOCK_SIZE)
    (state : Words) :
    (bs.foldl processBlock state).toHash = bs.foldl Sha2.compress state.toHash := by
  induction bs generalizing state with
  | nil => rfl
  | cons b bs ih =>
    rw [List.foldl_cons, ih (fun b hb => hbs b (List.mem_cons_of_mem _ hb)),
      toHash_processBlock _ (hbs b List.mem_cons_self), List.foldl_cons]

/-! ## The message so far -/

/-- Whole blocks of the message are in the state, and the rest of it is in the buffer. -/
structure Held (hasher : Sha256) (message : Bytes) : Prop where
  blocks : ∃ bs : List Bytes, (∀ b ∈ bs, b.length = SHA256_BLOCK_SIZE) ∧
    message = bs.flatten ++ hasher.buffer ∧
    hasher.state = bs.foldl processBlock ({} : Sha256).state
  buffer : hasher.buffer.length < SHA256_BLOCK_SIZE

namespace Held

variable {hasher : Sha256} {message : Bytes}

theorem length (h : Held hasher message) :
    message.length % SHA256_BLOCK_SIZE = hasher.buffer.length := by
  obtain ⟨bs, hbs, e, -⟩ := h.blocks
  have hflat : bs.flatten.length = bs.length * SHA256_BLOCK_SIZE := by
    rw [List.length_flatten, List.map_congr_left hbs, List.map_const', List.sum_replicate_nat]
  rw [e, List.length_append, hflat, Nat.mul_add_mod', Nat.mod_eq_of_lt h.buffer]

/-- More bytes that leave the buffer short of a block. -/
theorem fill {bytes : Bytes} (h : Held hasher message)
    (hlt : (hasher.buffer ++ bytes).length < SHA256_BLOCK_SIZE) :
    Held { hasher with buffer := hasher.buffer ++ bytes } (message ++ bytes) := by
  obtain ⟨bs, hbs, e, hstate⟩ := h.blocks
  exact ⟨⟨bs, hbs, by rw [e, List.append_assoc], hstate⟩, hlt⟩

/-- More bytes that complete a block. -/
theorem flush {bytes : Bytes} (h : Held hasher message)
    (hlen : (hasher.buffer ++ bytes).length = SHA256_BLOCK_SIZE) :
    Held { hasher with
      state := processBlock hasher.state (hasher.buffer ++ bytes), buffer := [] }
      (message ++ bytes) := by
  obtain ⟨bs, hbs, e, hstate⟩ := h.blocks
  refine ⟨⟨bs ++ [hasher.buffer ++ bytes], ?_, ?_, ?_⟩, Nat.zero_lt_succ 63⟩
  · intro b hb
    rcases List.mem_append.mp hb with hb | hb
    · exact hbs b hb
    · rw [List.mem_singleton.mp hb, hlen]
  · simp [e]
  · rw [List.foldl_concat, hstate]

theorem updateLoop (n : Nat) {data : Bytes} (h : Held hasher message) (hn : data.length ≤ n) :
    Held (Sha256.updateLoop n hasher data) (message ++ data) := by
  induction n generalizing hasher message data with
  | zero =>
    obtain rfl := List.length_eq_zero_iff.mp (Nat.le_zero.mp hn)
    rwa [List.append_nil]
  | succ n ih =>
    rw [Sha256.updateLoop]
    split
    · rename_i hd
      rwa [hd, List.append_nil]
    rename_i hd
    have hpos := List.length_pos_of_ne_nil hd
    have hbuffer := h.buffer
    set toCopy := min (SHA256_BLOCK_SIZE - hasher.buffer.length) data.length with hcopy
    have hrest : (data.drop toCopy).length ≤ n := by
      rw [List.length_drop]
      omega
    have hmessage : message ++ data = message ++ data.take toCopy ++ data.drop toCopy := by
      rw [List.append_assoc, List.take_append_drop]
    rw [hmessage]
    dsimp only
    split
    · exact ih (h.flush ‹_›) hrest
    · refine ih (h.fill ?_) hrest
      rename_i hne
      rw [List.length_append, List.length_take] at hne ⊢
      omega

end Held

/-- The hasher has taken in the message. -/
structure Absorbed (hasher : Sha256) (message : Bytes) : Prop extends Held hasher message where
  total : hasher.totalLength = .ofNat message.length

theorem updateLoop_total (n : Nat) (hasher : Sha256) (data : Bytes) :
    (Sha256.updateLoop n hasher data).totalLength = hasher.totalLength := by
  induction n generalizing hasher data with
  | zero => rfl
  | succ n ih =>
    rw [Sha256.updateLoop]
    split
    · rfl
    · dsimp only
      split <;> rw [ih]

namespace Absorbed

variable {hasher : Sha256} {message : Bytes}

theorem new : Absorbed {} [] where
  blocks := ⟨[], nofun, rfl, rfl⟩
  buffer := by decide
  total := rfl

theorem update (h : Absorbed hasher message) (data : Bytes) :
    Absorbed (hasher.update data) (message ++ data) where
  toHeld := Held.updateLoop data.length ⟨h.blocks, h.buffer⟩ (Nat.le_refl _)
  total := by rw [Sha256.update, updateLoop_total, h.total, List.length_append, UInt64.ofNat_add]

theorem updates (h : Absorbed hasher message) (chunks : List Bytes) :
    Absorbed (chunks.foldl Sha256.update hasher) (message ++ chunks.flatten) := by
  induction chunks generalizing hasher message with
  | nil => simpa using h
  | cons chunk chunks ih =>
    rw [List.foldl_cons, List.flatten_cons, ← List.append_assoc]
    exact ih (h.update chunk)

/-- The zeros of the padding are the least number that leaves room for the length. -/
theorem padZeros {k : Nat} (n : Nat) (h : Absorbed hasher message) (hk : k < n)
    (hend : (message.length + k) % 64 = 56) (hleast : ∀ j < k, (message.length + j) % 64 ≠ 56) :
    Absorbed (Sha256.padZeros n hasher) (message ++ List.replicate k 0) ∧
      (Sha256.padZeros n hasher).buffer.length = SHA256_BLOCK_SIZE - 8 := by
  have hlen : message.length % 64 = hasher.buffer.length := h.length
  induction n generalizing hasher message k with
  | zero => exact absurd hk (Nat.not_lt_zero k)
  | succ n ih =>
    rw [Sha256.padZeros]
    cases k with
    | zero =>
      rw [if_neg fun hne => hne (hlen.symm.trans hend)]
      exact ⟨by simpa using h, hlen.symm.trans hend⟩
    | succ k =>
      have hne : hasher.buffer.length ≠ SHA256_BLOCK_SIZE - 8 := by
        rw [← hlen]
        exact hleast 0 (Nat.succ_pos k)
      have hzero : message ++ List.replicate (k + 1) 0 =
          message ++ [0] ++ List.replicate k (0 : UInt8) := by
        rw [List.append_assoc, List.replicate_succ, List.singleton_append]
      have hsucc : ∀ j, (message ++ [(0 : UInt8)]).length + j = message.length + (j + 1) := by
        intro j
        rw [List.length_append, List.length_singleton]
        omega
      rw [if_pos hne, hzero]
      have h' := h.update [0]
      refine ih h' (Nat.lt_of_succ_lt_succ hk) (by rw [hsucc, hend]) (fun j hj => ?_) h'.length
      rw [hsucc]
      exact hleast (j + 1) (Nat.succ_lt_succ hj)

/-- The digest of the message. From 2⁶¹ bytes on, which the standard does not allow, the length
counts modulo 2⁶⁴ bits. -/
theorem finish (h : Absorbed hasher message) : hasher.finish = Sha2.digest message := by
  have hlen : (message ++ [(0x80 : UInt8)]).length = message.length + 1 := by simp
  obtain ⟨hpad, h56⟩ := (h.update [0x80]).padZeros SHA256_BLOCK_SIZE
    (Sha2.zeros_lt message.length) (by rw [hlen, Sha2.zeros_spec])
    fun j hj => by rw [hlen]; exact Sha2.zeros_least hj
  set hasher' := Sha256.padZeros SHA256_BLOCK_SIZE (hasher.update [0x80]) with hhasher
  obtain ⟨bs, hbs, e, hstate⟩ := hpad.blocks
  have hbits : writeU64BE (hasher.totalLength * 8) = beBytes 8 (8 * message.length) := by
    rw [writeU64BE_eq, h.total, UInt64.toNat_mul, UInt64.toNat_ofNat', Nat.mod_mul_mod,
      Nat.mul_comm 8]
    exact beBytes_mod_pow 8 (message.length * 8)
  have hlast : (hasher'.buffer ++ writeU64BE (hasher.totalLength * 8)).length =
      SHA256_BLOCK_SIZE := by
    rw [List.length_append, h56]
    rfl
  have hblocks : Sha2.blocks (Sha2.pad message) =
      bs ++ [hasher'.buffer ++ writeU64BE (hasher.totalLength * 8)] := by
    have hpadded : Sha2.pad message =
        (bs ++ [hasher'.buffer ++ writeU64BE (hasher.totalLength * 8)]).flatten := by
      rw [List.flatten_concat, ← List.append_assoc, ← e, hbits, Sha2.pad]
      simp
    rw [hpadded]
    refine Sha2.blocks_flatten _ fun b hb => ?_
    rcases List.mem_append.mp hb with hb | hb
    · exact hbs b hb
    · rw [List.mem_singleton.mp hb, hlast, SHA256_BLOCK_SIZE]
  have hfold : ∀ state : Words, (bs.foldl processBlock state).toHash =
      bs.foldl Sha2.compress state.toHash := toHash_blocks hbs
  rw [Sha256.finish, ← hhasher, ← Words.toBytes_toHash, toHash_processBlock _ hlast, hstate,
    hfold, Sha2.digest, hblocks, List.foldl_concat]
  rfl

end Absorbed

theorem sha256_eq_digest (data : Bytes) : sha256 data = Sha2.digest data :=
  (Absorbed.new.update data).finish

end Crypto
end Techuila
