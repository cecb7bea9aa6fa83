import Techuila.Dist.Serialization
import Techuila.Lib.RecordLog

/-!
# The write-ahead log (`08-storage/wal/crc32.cpp`, `wal.cpp`)

A log file is its bytes. A record is a length, a checksum and the payload.

* `append`: one record at the end of the file; `recoverRecords`: the payloads of the records up to
  the first place that holds no whole record.
* `readRecord_record`: a record of less than 2³² bytes reads back.
* `readRecord_torn`: a record that misses its last bytes, at the end of the file, does not.
-/

namespace Techuila
namespace Storage

open Techuila.Dist (Bytes)

/-! ## Checksums -/

/-- Entry `i` of the table. -/
def tableEntry (i : UInt32) : UInt32 :=
  (List.range 8).foldl
    (fun c _ => if c &&& 1 ≠ 0 then (0xEDB88320 : UInt32) ^^^ (c >>> 1) else c >>> 1) i

def crc32 (data : Bytes) : UInt32 :=
  data.foldl (fun crc b => tableEntry ((crc ^^^ b.toUInt32) &&& 0xFF) ^^^ (crc >>> 8))
    0xFFFFFFFF ^^^ 0xFFFFFFFF

example : crc32 (Dist.ascii "123456789") = 0xCBF43926 := by decide +kernel

/-! ## Records -/

/-- What `writeU32` writes. -/
def u32Bytes (value : UInt32) : Bytes :=
  [((value >>> 24) &&& 0xFF).toUInt8, ((value >>> 16) &&& 0xFF).toUInt8,
    ((value >>> 8) &&& 0xFF).toUInt8, (value &&& 0xFF).toUInt8]

/-- What `readU32` reads, and the rest of the stream. -/
def readU32 : Bytes → Option (UInt32 × Bytes)
  | b₀ :: b₁ :: b₂ :: b₃ :: rest =>
    some (b₀.toUInt32 <<< (24 : UInt32) ||| b₁.toUInt32 <<< (16 : UInt32) |||
      b₂.toUInt32 <<< (8 : UInt32) ||| b₃.toUInt32, rest)
  | _ => none

/-- The length is cast to `uint32_t`. -/
def recordBytes (payload : Bytes) : Bytes :=
  u32Bytes (UInt32.ofNat payload.length) ++ u32Bytes (crc32 payload) ++ payload

namespace WriteAheadLog

/-- `append`, and the file after it. `opens` says whether the file can be opened. -/
def append (opens : Bool) (file payload : Bytes) : Bool × Bytes :=
  if opens then (true, file ++ recordBytes payload) else (false, file)

/-- One round of the recovery loop. -/
def readRecord (file : Bytes) : Option (Bytes × Bytes) :=
  match readU32 file with
  | none => none
  | some (length, file) =>
    match readU32 file with
    | none => none
    | some (storedCrc, file) =>
      let payload := file.take length.toNat
      if payload.length ≠ length.toNat then none
      else if crc32 payload ≠ storedCrc then none
      else some (payload, file.drop length.toNat)

end WriteAheadLog

/-! ## Reading records back -/

theorem u32Bytes_eq (v : UInt32) : u32Bytes v = beBytes 4 v.toNat :=
  Dist.writeU32_buffer ⟨[]⟩ v

@[simp] theorem length_u32Bytes (v : UInt32) : (u32Bytes v).length = 4 := rfl

theorem length_recordBytes (payload : Bytes) :
    (recordBytes payload).length = 8 + payload.length := by
  simp only [recordBytes, List.length_append, length_u32Bytes]

theorem readU32_u32Bytes (v : UInt32) (rest : Bytes) :
    readU32 (u32Bytes v ++ rest) = some (v, rest) := by
  have hv : ofBE (beBytes 4 v.toNat) = v.toNat := by
    rw [ofBE_beBytes]
    exact Nat.mod_eq_of_lt v.toNat_lt
  have hs : ofBE (u32Bytes v) = v.toNat := by rw [u32Bytes_eq, hv]
  unfold u32Bytes at hs ⊢
  simp only [List.cons_append, List.nil_append, readU32, Dist.or_bytes_eq, hs]
  simp

theorem readU32_eq_some {l rest : Bytes} {v : UInt32} (h : readU32 l = some (v, rest)) :
    l.length = rest.length + 4 := by
  unfold readU32 at h
  split at h
  · cases h
    rfl
  · cases h

theorem readU32_short {l : Bytes} (h : l.length < 4) : readU32 l = none := by
  cases e : readU32 l with
  | none => rfl
  | some r =>
    have := readU32_eq_some e
    omega

namespace WriteAheadLog

theorem readRecord_shorter {file payload rest : Bytes}
    (h : readRecord file = some (payload, rest)) : rest.length < file.length := by
  unfold readRecord at h
  split at h
  · cases h
  · rename_i length file₁ h₁
    have h₁ := readU32_eq_some h₁
    split at h
    · cases h
    · rename_i storedCrc file₂ h₂
      have h₂ := readU32_eq_some h₂
      dsimp only at h
      split at h
      · cases h
      · split at h
        · cases h
        · cases h
          rw [List.length_drop]
          omega

/-- The reader of the recovery loop. -/
def reader : RecordReader UInt8 Bytes := ⟨readRecord, readRecord_shorter⟩

def recoverRecords (file : Bytes) : List Bytes := reader.recover file

theorem readRecord_record {payload : Bytes} (hl : payload.length < 2 ^ 32) :
    reader.Frames payload (recordBytes payload) := by
  intro rest
  have hn : (UInt32.ofNat payload.length).toNat = payload.length := by
    rw [UInt32.toNat_ofNat']
    exact Nat.mod_eq_of_lt hl
  show readRecord (recordBytes payload ++ rest) = some (payload, rest)
  unfold readRecord recordBytes
  rw [List.append_assoc, List.append_assoc, readU32_u32Bytes]
  dsimp only
  rw [readU32_u32Bytes]
  simp [hn]

/-- A record cut off before its end does not read. -/
theorem readRecord_torn {payload : Bytes} (hl : payload.length < 2 ^ 32) {k : Nat}
    (hk : k < (recordBytes payload).length) : readRecord ((recordBytes payload).take k) = none := by
  have hn : (UInt32.ofNat payload.length).toNat = payload.length := by
    rw [UInt32.toNat_ofNat']
    exact Nat.mod_eq_of_lt hl
  rw [length_recordBytes] at hk
  unfold readRecord recordBytes
  rw [List.append_assoc, List.take_append, length_u32Bytes]
  by_cases h₄ : k < 4
  · rw [readU32_short]
    simp only [List.length_append, List.length_take, length_u32Bytes]
    omega
  rw [List.take_of_length_le (by rw [length_u32Bytes]; omega), readU32_u32Bytes]
  dsimp only
  rw [List.take_append, length_u32Bytes]
  by_cases h₈ : k < 8
  · rw [readU32_short]
    simp only [List.length_append, List.length_take, length_u32Bytes]
    omega
  rw [List.take_of_length_le (by rw [length_u32Bytes]; omega), readU32_u32Bytes]
  dsimp only
  rw [if_pos]
  rw [hn, List.length_take, List.length_take]
  omega

end WriteAheadLog

end Storage
end Techuila
