import Techuila.Storage.Wal

/-!
# Recovery of a log that was cut off (`08-storage/wal/wal.cpp`)

* `logOf`: the file of an empty log after appends.
* `recoverRecords_cut`: the first bytes of the file give the payloads whose records end within them.
-/

namespace Techuila
namespace Storage

open Techuila.Dist (Bytes)

namespace WriteAheadLog

/-- The file after the payloads were appended to an empty log. -/
def logOf (payloads : List Bytes) : Bytes :=
  payloads.foldl (fun file payload => (append true file payload).2) []

theorem foldl_append (payloads : List Bytes) (file : Bytes) :
    payloads.foldl (fun file payload => (append true file payload).2) file =
      file ++ (payloads.map recordBytes).flatten := by
  induction payloads generalizing file with
  | nil => simp
  | cons payload payloads ih =>
    rw [List.foldl_cons, ih, List.map_cons, List.flatten_cons, ← List.append_assoc]
    rfl

theorem logOf_eq (payloads : List Bytes) : logOf payloads = (payloads.map recordBytes).flatten :=
  foldl_append payloads []

theorem whole_records {payloads : List Bytes} (h : ∀ payload ∈ payloads, payload.length < 2 ^ 32) :
    List.Forall₂ reader.Whole payloads (payloads.map recordBytes) := by
  induction payloads with
  | nil => exact .nil
  | cons payload payloads ih =>
    obtain ⟨hpayload, h⟩ := List.forall_mem_cons.mp h
    exact .cons ⟨readRecord_record hpayload, fun _ hn => readRecord_torn hpayload hn⟩ (ih h)

/-- What is recovered from the first `n` bytes: the payloads whose records end within them, and from
the whole file all of them. -/
theorem recoverRecords_cut {payloads : List Bytes}
    (h : ∀ payload ∈ payloads, payload.length < 2 ^ 32) :
    (∀ n ≤ (logOf payloads).length, ∃ k ≤ payloads.length,
      recoverRecords ((logOf payloads).take n) = payloads.take k ∧
        ∀ i < payloads.length, i < k ↔ (logOf (payloads.take (i + 1))).length ≤ n) ∧
      recoverRecords (logOf payloads) = payloads := by
  have hwhole := whole_records h
  refine ⟨fun n _ => ?_, ?_⟩
  · obtain ⟨k, hk, hrecover, hends⟩ := RecordReader.recover_take hwhole n
    refine ⟨k, hk, by rw [logOf_eq]; exact hrecover, fun i hi => ?_⟩
    rw [logOf_eq, List.map_take]
    exact hends i hi
  · have hrecover := RecordReader.recover_frames (hwhole.imp fun _ _ hw => hw.frames) []
    have hend : reader.recover [] = [] := RecordReader.recover_stop rfl
    rw [List.append_nil, hend, List.append_nil] at hrecover
    rw [logOf_eq]
    exact hrecover

/-- A cut in the second of two records. -/
theorem recoverRecords_cut_two : ∃ k ≤ 2,
    recoverRecords ((logOf [[], [7]]).take 12) = [[], [7]].take k ∧
      ∀ i < 2, i < k ↔ (logOf (([[], [7]] : List Bytes).take (i + 1))).length ≤ 12 :=
  (@recoverRecords_cut [[], [7]] (by decide)).1 12 (by decide)

end WriteAheadLog

end Storage
end Techuila
