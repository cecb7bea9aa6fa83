import Techuila.Storage.KvStore

/-!
# Durability of the key/value store across crashes

A session opens the store on the log that the earlier sessions left, and calls `put` and `remove`.
A crash ends it inside one more call, with some first bytes of that call's record on disk.

* `Session.run_eq`: a session appends the records of the calls that return true.
* `LogHolds`: what the log is as long as no session writes after a torn record.
* `recovered_acked`: the next open then has exactly the acknowledged mutations.
-/

namespace Techuila
namespace Storage

open Techuila.Dist (Bytes ascii)

/-- A call of `put` or `remove`, and whether the log file opens for it. -/
structure Call where
  op : Op
  opens : Bool

/-- The calls of a session; `crash` is the call in flight at its end and the number of bytes of
its record on disk. -/
structure Session where
  calls : List Call
  crash : Option (Op × Nat)

/-- One call, and the mutations that returned true so far. -/
def runCall (s : KVStore × List Op) (call : Call) : KVStore × List Op :=
  match s.1.mutate call.opens call.op with
  | (true, kv) => (kv, s.2 ++ [call.op])
  | (false, kv) => (kv, s.2)

namespace Session

/-- The bytes that the crash leaves of the record in flight. -/
def leftover (s : Session) : Bytes :=
  match s.crash with
  | none => []
  | some (op, written) => (recordBytes op.encode).take written

/-- The log file after a session, and the mutations that returned true in it. -/
def run (s : Session) (file : Bytes) : Bytes × List Op :=
  let (kv, acked) := s.calls.foldl runCall (KVStore.open file, [])
  (kv.file ++ s.leftover, acked)

/-- All mutations that the session calls for. -/
def ops (s : Session) : List Op := s.calls.map (·.op) ++ (s.crash.map (·.1)).toList

/-- The calls for which the log file opens. -/
def opened (s : Session) : List Op := (s.calls.filter (·.opens)).map (·.op)

/-- The session leaves some but not all bytes of a record. -/
def Tears (s : Session) : Prop :=
  ∃ op written, s.crash = some (op, written) ∧ 0 < written ∧
    written < (recordBytes op.encode).length

/-- The session adds bytes to the log. -/
def Writes (s : Session) : Prop := s.opened ≠ [] ∨ s.leftover ≠ []

/-- The whole record of the call in flight is on disk. -/
def LeavesRecord (s : Session) (op : Op) : Prop :=
  ∃ written, s.crash = some (op, written) ∧ (recordBytes op.encode).length ≤ written

end Session

/-- The log file after some sessions, and all mutations that returned true in them. -/
def runSessions (s : Bytes × List Op) (sessions : List Session) : Bytes × List Op :=
  sessions.foldl (fun s session => ((session.run s.1).1, s.2 ++ (session.run s.1).2)) s

/-- No session writes on a log with a torn record (`torn`: there is one already), and a record that
a crash leaves whole would not change the map (`acked`: the mutations so far). -/
def NoLateWrites (torn : Prop) (acked : List Op) : List Session → Prop
  | [] => True
  | s :: sessions =>
    (torn → ¬ s.Writes) ∧
    (∀ op, s.LeavesRecord op →
      op.apply (replayOps (acked ++ s.opened)) = replayOps (acked ++ s.opened)) ∧
    NoLateWrites (torn ∨ s.Tears) (acked ++ s.opened) sessions

/-! ## One session -/

theorem runCalls_eq (calls : List Call) (kv : KVStore) (acked : List Op) :
    (calls.foldl runCall (kv, acked)).1.file =
        kv.file ++ logBytes ((calls.filter (·.opens)).map (·.op)) ∧
      (calls.foldl runCall (kv, acked)).2 =
        acked ++ (calls.filter (·.opens)).map (·.op) := by
  induction calls generalizing kv acked with
  | nil => simp [logBytes]
  | cons call calls ih =>
    obtain ⟨op, opens⟩ := call
    cases opens with
    | true =>
      have e : runCall (kv, acked) ⟨op, true⟩ =
          (⟨kv.file ++ recordBytes op.encode, op.apply kv.data⟩, acked ++ [op]) := rfl
      rw [List.foldl_cons, e]
      refine (ih _ _).imp (fun h => h.trans ?_) fun h => h.trans ?_
      · simp [logBytes]
      · simp
    | false =>
      have e : runCall (kv, acked) ⟨op, false⟩ = (kv, acked) := rfl
      rw [List.foldl_cons, e]
      exact ih kv acked

/-- The calls that return true are those for which the log file opens, and the log grows by their
records and by what the crash leaves. -/
theorem Session.run_eq (s : Session) (file : Bytes) :
    s.run file = (file ++ logBytes s.opened ++ s.leftover, s.opened) := by
  obtain ⟨h₁, h₂⟩ := runCalls_eq s.calls (KVStore.open file) []
  unfold Session.run
  dsimp only
  rw [h₁, h₂]
  rfl

theorem Session.mem_opened {s : Session} {op : Op} (h : op ∈ s.opened) : op ∈ s.ops := by
  obtain ⟨call, hc, rfl⟩ := List.mem_map.mp h
  exact List.mem_append_left _ (List.mem_map_of_mem (List.mem_of_mem_filter hc))

/-! ## The log -/

/-- The log holds the acknowledged mutations (`torn`: a torn record may follow them). -/
def LogHolds (torn : Prop) (file : Bytes) (acked : List Op) : Prop :=
  ∃ logged tail, file = logBytes logged ++ tail ∧ (∀ op ∈ logged, op.encode.length < 2 ^ 32) ∧
    replayOps logged = replayOps acked ∧ WriteAheadLog.readRecord tail = none ∧
    (¬ torn → tail = [])

theorem replayOps_append (ops ops' : List Op) :
    replayOps (ops ++ ops') = ops'.foldl Op.apply (replayOps ops) := List.foldl_append

theorem LogHolds.data {torn : Prop} {file : Bytes} {acked : List Op}
    (h : LogHolds torn file acked) : (KVStore.open file).data = replayOps acked := by
  obtain ⟨logged, tail, rfl, hlen, hr, ht, -⟩ := h
  rw [open_records hlen ht, hr]

theorem LogHolds.session {torn : Prop} {file : Bytes} {acked : List Op}
    (h : LogHolds torn file acked) {s : Session} (hlen : ∀ op ∈ s.ops, op.encode.length < 2 ^ 32)
    (hw : torn → ¬ s.Writes)
    (hop : ∀ op, s.LeavesRecord op →
      op.apply (replayOps (acked ++ s.opened)) = replayOps (acked ++ s.opened)) :
    LogHolds (torn ∨ s.Tears) (s.run file).1 (acked ++ (s.run file).2) := by
  obtain ⟨logged, tail, rfl, hl, hr, ht, hn⟩ := h
  rw [Session.run_eq]
  by_cases htorn : torn
  · -- nothing is written, and the tail stays
    have hno := hw htorn
    have ho : s.opened = [] := by
      by_contra hne
      exact hno (.inl hne)
    have hl' : s.leftover = [] := by
      by_contra hne
      exact hno (.inr hne)
    refine ⟨logged, tail, ?_, hl, ?_, ht, fun hnot => absurd (.inl htorn) hnot⟩
    · simp [ho, hl', logBytes]
    · rw [hr, ho, List.append_nil]
  obtain rfl := hn htorn
  have hopened : ∀ op ∈ logged ++ s.opened, op.encode.length < 2 ^ 32 := fun op h =>
    (List.mem_append.mp h).elim (hl op) fun h => hlen op (Session.mem_opened h)
  have hreplay : replayOps (logged ++ s.opened) = replayOps (acked ++ s.opened) := by
    rw [replayOps_append, replayOps_append, hr]
  have hfile : logBytes logged ++ [] ++ logBytes s.opened = logBytes (logged ++ s.opened) := by
    rw [List.append_nil, logBytes_append]
  cases hc : s.crash with
  | none =>
    refine ⟨logged ++ s.opened, [], ?_, hopened, hreplay, rfl, fun _ => rfl⟩
    simp only [hfile, Session.leftover, hc]
  | some c =>
    obtain ⟨op, written⟩ := c
    have hsize : op.encode.length < 2 ^ 32 :=
      hlen op (List.mem_append_right _ (by simp [hc]))
    have hleft : s.leftover = (recordBytes op.encode).take written := by
      simp only [Session.leftover, hc]
    rw [hfile, hleft]
    by_cases hk : written < (recordBytes op.encode).length
    · refine ⟨logged ++ s.opened, _, rfl, hopened, hreplay,
        WriteAheadLog.readRecord_torn hsize hk, fun hnot => ?_⟩
      have h0 : written = 0 := by
        by_contra hne
        exact hnot (.inr ⟨op, written, hc, Nat.pos_of_ne_zero hne, hk⟩)
      rw [h0, List.take_zero]
    · -- the whole record is there, and replaying it changes nothing
      have hwhole := hop op ⟨written, hc, not_lt.mp hk⟩
      refine ⟨logged ++ s.opened ++ [op], [], ?_, ?_, ?_, rfl, fun _ => rfl⟩
      · rw [List.take_of_length_le (not_lt.mp hk), logBytes_append _ [op], List.append_nil]
        simp [logBytes]
      · intro op' h
        rcases List.mem_append.mp h with h | h
        · exact hopened op' h
        · obtain rfl := List.mem_singleton.mp h
          exact hsize
      · rw [replayOps_append, hreplay]
        exact hwhole

theorem LogHolds.sessions {sessions : List Session} {torn : Prop} {s : Bytes × List Op}
    (h : LogHolds torn s.1 s.2)
    (hlen : ∀ session ∈ sessions, ∀ op ∈ session.ops, op.encode.length < 2 ^ 32)
    (hsafe : NoLateWrites torn s.2 sessions) :
    ∃ torn', LogHolds torn' (runSessions s sessions).1 (runSessions s sessions).2 := by
  induction sessions generalizing torn s with
  | nil => exact ⟨torn, h⟩
  | cons session sessions ih =>
    obtain ⟨hw, hop, hrest⟩ := hsafe
    refine ih (h.session (hlen session List.mem_cons_self) hw hop)
      (fun s hs => hlen s (List.mem_cons_of_mem _ hs)) ?_
    show NoLateWrites _ (s.2 ++ (session.run s.1).2) sessions
    rw [Session.run_eq]
    exact hrest

/-- After any sessions that keep off torn records, the next open has exactly the mutations that
returned true. -/
theorem recovered_acked {sessions : List Session}
    (hlen : ∀ session ∈ sessions, ∀ op ∈ session.ops, op.encode.length < 2 ^ 32)
    (hsafe : NoLateWrites False [] sessions) :
    (KVStore.open (runSessions ([], []) sessions).1).data =
      replayOps (runSessions ([], []) sessions).2 := by
  have h₀ : LogHolds False [] [] := ⟨[], [], rfl, nofun, rfl, rfl, fun _ => rfl⟩
  obtain ⟨torn, h⟩ := LogHolds.sessions (s := ([], [])) h₀ hlen hsafe
  exact h.data

/-- A session that ends in the middle of a record. -/
def tornSession : Session :=
  ⟨[⟨.put (ascii "safe") (ascii "1"), true⟩], some (.put (ascii "torn") (ascii "2"), 6)⟩

theorem recovered_acked_torn :
    (KVStore.open (runSessions ([], []) [tornSession, ⟨[], none⟩]).1).data =
      replayOps (runSessions ([], []) [tornSession, ⟨[], none⟩]).2 := by
  refine recovered_acked (by decide) ⟨nofun, fun op h => ?_, fun _ h => ?_, fun op h => ?_,
    trivial⟩
  · obtain ⟨written, e, hle⟩ := h
    cases e
    exact absurd hle (by decide)
  · exact h.elim (fun h => h rfl) fun h => h rfl
  · obtain ⟨written, e, -⟩ := h
    cases e

/-- A session that writes after the torn record. -/
def lateSession : Session := ⟨[⟨.put (ascii "late") (ascii "3"), true⟩], none⟩

/-- The write of `lateSession` is acknowledged and lost. -/
theorem recovered_acked_counterexample :
    (∀ session ∈ [tornSession, lateSession], ∀ op ∈ session.ops, op.encode.length < 2 ^ 32) ∧
      (KVStore.open (runSessions ([], []) [tornSession, lateSession]).1).data ≠
        replayOps (runSessions ([], []) [tornSession, lateSession]).2 := by
  refine ⟨by decide, fun h => ?_⟩
  have hfile : (runSessions ([], []) [tornSession, lateSession]).1 =
      logBytes tornSession.opened ++ (tornSession.leftover ++ logBytes lateSession.opened) := by
    simp only [runSessions, List.foldl_cons, List.foldl_nil, Session.run_eq]
    simp [lateSession, Session.leftover]
  rw [hfile, open_records (by decide) (by decide +kernel)] at h
  have hlate := congrFun h (ascii "late")
  revert hlate
  decide

end Storage
end Techuila
