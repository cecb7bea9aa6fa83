import Techuila.Lib.PosixPath
import Techuila.Oggit.Trees

/-!
# Checking out a tree (`13-developer-ecosystem/oggit/checkout.cpp`)

* `checkoutTree` asks the operating system for its operations one by one; the system may answer each
  of them as it likes. The result is the list of the operations with the error, and there is a bound
  on the recursion, as for `flattenTree`.
* `Visited`: the entries that a checkout gets to, by the names on the way.
* `checkoutTree_confined_iff`: a checkout stays inside its destination exactly where no way of names
  of the tree leads out of it.
-/

namespace Techuila
namespace Oggit

open Techuila.Dist (Bytes ascii)
open Posix (Path Name Location Place join locate trail trailFrom segments cString isAbsolute)

inductive CheckoutError
  | none
  | treeNotFound
  | notATree
  | objectReadError
  | ioError
  deriving DecidableEq, Repr

/-- What a checkout asks of the operating system. -/
inductive FsOp
  | createDirectories (path : Path)
  | openTruncate (path : Path)
  | write (path : Path) (content : Bytes)
  deriving DecidableEq

/-- Whether an operation succeeds, after the operations before it. -/
abbrev Os := List FsOp → FsOp → Bool

def perform (os : Os) (trace : List FsOp) (op : FsOp) : Bool × List FsOp :=
  (os trace op, trace ++ [op])

/-- The file of an entry: opened, and written if there is something to write. -/
def checkoutFile (os : Os) (entryPath : Path) (blobContent : Bytes) (trace : List FsOp) :
    Bool × List FsOp :=
  let (isOpen, trace) := perform os trace (.openTruncate entryPath)
  if isOpen && blobContent ≠ [] then perform os trace (.write entryPath blobContent)
  else (isOpen, trace)

/-- The loop of `checkoutTreeInto` over the entries of a tree. `none` is a recursion beyond the
bound. -/
def checkoutEntries (store : ObjectStore) (os : Os)
    (checkout : ObjectId → Path → List FsOp → Option CheckoutError × List FsOp)
    (destination : Path) : List TreeEntry → List FsOp → Option CheckoutError × List FsOp
  | [], trace => (some .none, trace)
  | entry :: entries, trace =>
    let entryPath := join destination entry.name
    if entry.isDirectory then
      match checkout entry.id entryPath trace with
      | (some .none, trace) => checkoutEntries store os checkout destination entries trace
      | (childErr, trace) => (childErr, trace)
    else
      match store.readObject entry.id with
      | .ok (.blob, blobContent) =>
        let (out, trace) := checkoutFile os entryPath blobContent trace
        if !out then (some .ioError, trace)
        else checkoutEntries store os checkout destination entries trace
      | _ => (some .objectReadError, trace)

def checkoutTreeInto (store : ObjectStore) (os : Os) :
    Nat → ObjectId → Path → List FsOp → Option CheckoutError × List FsOp
  | 0, _, _, trace => (none, trace)
  | bound + 1, treeId, destination, trace =>
    match store.readObject treeId with
    | .error .notFound => (some .treeNotFound, trace)
    | .error _ => (some .objectReadError, trace)
    | .ok (type, content) =>
      if type ≠ .tree then (some .notATree, trace)
      else
        match parseTree content with
        | none => (some .objectReadError, trace)
        | some entries =>
          let (created, trace) := perform os trace (.createDirectories destination)
          if !created then (some .ioError, trace)
          else checkoutEntries store os (checkoutTreeInto store os bound) destination entries trace

def checkoutTree (store : ObjectStore) (os : Os) (bound : Nat) (treeId : ObjectId)
    (destinationDirectory : Path) : Option CheckoutError × List FsOp :=
  checkoutTreeInto store os bound treeId destinationDirectory []

/-! ## The entries that a checkout gets to -/

/-- What can be checked out to its end where the system refuses nothing. -/
inductive Completes (store : ObjectStore) : ObjectId → Bool → Prop
  | file {id : ObjectId} {content : Bytes} : store.readObject id = .ok (.blob, content) →
      Completes store id false
  | directory {id : ObjectId} {entries : List TreeEntry} : store.loadTree id = some entries →
      (∀ e ∈ entries, Completes store e.id e.isDirectory) → Completes store id true

/-- The names on the way to an entry before which everything can be checked out, and whether it is
a directory. -/
inductive Visited (store : ObjectStore) : ObjectId → List Name → Bool → Prop
  | file {id : ObjectId} {before after : List TreeEntry} {e : TreeEntry} {content : Bytes} :
      store.loadTree id = some (before ++ e :: after) →
      (∀ e' ∈ before, Completes store e'.id e'.isDirectory) → e.isDirectory = false →
      store.readObject e.id = .ok (.blob, content) → Visited store id [e.name] false
  | directory {id : ObjectId} {before after entries : List TreeEntry} {e : TreeEntry} :
      store.loadTree id = some (before ++ e :: after) →
      (∀ e' ∈ before, Completes store e'.id e'.isDirectory) → e.isDirectory = true →
      store.loadTree e.id = some entries → Visited store id [e.name] true
  | inside {id : ObjectId} {before after : List TreeEntry} {e : TreeEntry} {names : List Name}
      {dir : Bool} : store.loadTree id = some (before ++ e :: after) →
      (∀ e' ∈ before, Completes store e'.id e'.isDirectory) → e.isDirectory = true →
      Visited store e.id names dir → Visited store id (e.name :: names) dir

namespace FsOp

def path : FsOp → Path
  | createDirectories path => path
  | openTruncate path => path
  | write path _ => path

def isDirectory : FsOp → Bool
  | createDirectories _ => true
  | _ => false

end FsOp

variable {store : ObjectStore} {os : Os}

/-- What a checkout of `treeId` into `destination` may ask for. -/
def OpOf (store : ObjectStore) (treeId : ObjectId) (destination : Path) (op : FsOp) : Prop :=
  op = .createDirectories destination ∨
    ∃ names, Visited store treeId names op.isDirectory ∧ op.path = names.foldl join destination

theorem checkoutFile_ops (os : Os) (entryPath : Path) (content : Bytes) (trace : List FsOp) :
    ∃ new, (checkoutFile os entryPath content trace).2 = trace ++ new ∧
      ∀ op ∈ new, op.isDirectory = false ∧ op.path = entryPath := by
  unfold checkoutFile perform
  dsimp only
  split
  · refine ⟨[.openTruncate entryPath, .write entryPath content], by simp, ?_⟩
    simp [FsOp.isDirectory, FsOp.path]
  · refine ⟨[.openTruncate entryPath], rfl, ?_⟩
    simp [FsOp.isDirectory, FsOp.path]

/-- The loop over entries behind some that were checked out. -/
theorem checkoutEntries_sound {checkout : ObjectId → Path → List FsOp → Option CheckoutError × List FsOp}
    (hchild : ∀ id destination trace, ∃ new, (checkout id destination trace).2 = trace ++ new ∧
      (∀ op ∈ new, (store.loadTree id).isSome ∧ OpOf store id destination op) ∧
      ((checkout id destination trace).1 = some .none → Completes store id true))
    {id : ObjectId} {destination : Path} {before entries : List TreeEntry}
    (hload : store.loadTree id = some (before ++ entries))
    (hbefore : ∀ e ∈ before, Completes store e.id e.isDirectory) (trace : List FsOp) :
    ∃ new, (checkoutEntries store os checkout destination entries trace).2 = trace ++ new ∧
      (∀ op ∈ new, OpOf store id destination op) ∧
      ((checkoutEntries store os checkout destination entries trace).1 = some .none →
        ∀ e ∈ before ++ entries, Completes store e.id e.isDirectory) := by
  induction entries generalizing before trace with
  | nil =>
    refine ⟨[], (List.append_nil _).symm, List.forall_mem_nil _, fun _ => ?_⟩
    rw [List.append_nil]
    exact hbefore
  | cons e entries ih =>
    -- the entries behind `e` once `e` is checked out
    have hrest : Completes store e.id e.isDirectory → ∀ trace,
        ∃ new, (checkoutEntries store os checkout destination entries trace).2 = trace ++ new ∧
          (∀ op ∈ new, OpOf store id destination op) ∧
          ((checkoutEntries store os checkout destination entries trace).1 = some .none →
            ∀ e' ∈ before ++ e :: entries, Completes store e'.id e'.isDirectory) := by
      intro he trace
      have h := ih (by rw [hload, List.append_assoc]; rfl)
        (List.forall_mem_append.mpr ⟨hbefore, List.forall_mem_singleton.mpr he⟩) trace
      simpa only [List.append_assoc, List.singleton_append] using h
    by_cases hd : e.isDirectory = true
    · obtain ⟨new, htrace, hops, hdone⟩ := hchild e.id (join destination e.name) trace
      have hops' : ∀ op ∈ new, OpOf store id destination op := by
        intro op hop
        obtain ⟨hl, hop⟩ := hops op hop
        obtain ⟨entries', hl⟩ := Option.isSome_iff_exists.mp hl
        rcases hop with rfl | ⟨names, hv, hp⟩
        · exact .inr ⟨[e.name], .directory hload hbefore hd hl, rfl⟩
        · exact .inr ⟨e.name :: names, .inside hload hbefore hd hv, hp⟩
      rw [checkoutEntries, if_pos hd]
      generalize checkout e.id (join destination e.name) trace = r at htrace hdone ⊢
      obtain ⟨err, trace'⟩ := r
      simp only at htrace hdone
      subst htrace
      by_cases herr : err = some .none
      · subst herr
        obtain ⟨new', htrace', hops'', hdone'⟩ := hrest (hd ▸ hdone rfl) (trace ++ new)
        exact ⟨new ++ new', by rw [htrace', List.append_assoc],
          List.forall_mem_append.mpr ⟨hops', hops''⟩, hdone'⟩
      · have hstop : (match (err, trace ++ new) with
            | (some .none, trace) => checkoutEntries store os checkout destination entries trace
            | (childErr, trace) => (childErr, trace)) = (err, trace ++ new) := by
          split
          · rename_i heq
            cases heq
            exact absurd rfl herr
          · rename_i heq
            exact heq.symm
        rw [hstop]
        exact ⟨new, rfl, hops', fun h => absurd h herr⟩
    · have hfile : e.isDirectory = false := by simpa using hd
      rw [checkoutEntries, if_neg hd]
      split
      · rename_i content hread
        have hv : Visited store id [e.name] false := .file hload hbefore hfile hread
        obtain ⟨new, htrace, hops⟩ := checkoutFile_ops os (join destination e.name) content trace
        have hops' : ∀ op ∈ new, OpOf store id destination op := fun op hop =>
          .inr ⟨[e.name], (hops op hop).1 ▸ hv, (hops op hop).2⟩
        generalize checkoutFile os (join destination e.name) content trace = r at htrace ⊢
        obtain ⟨out, trace'⟩ := r
        simp only at htrace
        subst htrace
        cases out with
        | false => exact ⟨new, rfl, hops', fun h => by cases h⟩
        | true =>
          obtain ⟨new', htrace', hops'', hdone'⟩ := hrest (hfile ▸ .file hread) (trace ++ new)
          exact ⟨new ++ new', by rw [← List.append_assoc]; exact htrace',
            List.forall_mem_append.mpr ⟨hops', hops''⟩, hdone'⟩
      · exact ⟨[], (List.append_nil _).symm, List.forall_mem_nil _, fun h => by cases h⟩

/-- A tree that can be read: its directory first, then its entries. -/
theorem checkoutTreeInto_of_load {treeId : ObjectId} {entries : List TreeEntry}
    (hload : store.loadTree treeId = some entries) (os : Os) (bound : Nat) (destination : Path)
    (trace : List FsOp) :
    checkoutTreeInto store os (bound + 1) treeId destination trace =
      if os trace (.createDirectories destination) then
        checkoutEntries store os (checkoutTreeInto store os bound) destination entries
          (trace ++ [.createDirectories destination])
      else (some .ioError, trace ++ [.createDirectories destination]) := by
  unfold ObjectStore.loadTree at hload
  rw [checkoutTreeInto]
  split at hload
  · rename_i content hread
    rw [hread]
    cases hos : os trace (.createDirectories destination) <;> simp [hload, perform, hos]
  · cases hload

/-- A tree that cannot be read: nothing happens. -/
theorem checkoutTreeInto_of_none {treeId : ObjectId} (hload : store.loadTree treeId = none)
    (os : Os) (bound : Nat) (destination : Path) (trace : List FsOp) :
    ∃ err ≠ CheckoutError.none,
      checkoutTreeInto store os (bound + 1) treeId destination trace = (some err, trace) := by
  unfold ObjectStore.loadTree at hload
  rw [checkoutTreeInto]
  split
  · exact ⟨_, by decide, rfl⟩
  · exact ⟨_, by decide, rfl⟩
  · rename_i type content hread
    rw [hread] at hload
    cases type with
    | blob => exact ⟨.notATree, by decide, rfl⟩
    | commit => exact ⟨.notATree, by decide, rfl⟩
    | tree =>
      simp only at hload
      exact ⟨.objectReadError, by decide, by simp [hload]⟩

/-- Every operation of a checkout is one for its destination or for an entry that it gets to. -/
theorem checkoutTreeInto_sound (bound : Nat) (treeId : ObjectId) (destination : Path)
    (trace : List FsOp) : ∃ new,
      (checkoutTreeInto store os bound treeId destination trace).2 = trace ++ new ∧
      (∀ op ∈ new, (store.loadTree treeId).isSome ∧ OpOf store treeId destination op) ∧
      ((checkoutTreeInto store os bound treeId destination trace).1 = some .none →
        Completes store treeId true) := by
  induction bound generalizing treeId destination trace with
  | zero => exact ⟨[], (List.append_nil _).symm, List.forall_mem_nil _, fun h => by cases h⟩
  | succ bound ih =>
    cases hload : store.loadTree treeId with
    | none =>
      obtain ⟨err, herr, hrun⟩ := checkoutTreeInto_of_none hload os bound destination trace
      rw [hrun]
      exact ⟨[], (List.append_nil _).symm, List.forall_mem_nil _,
        fun h => absurd (Option.some_inj.mp h) herr⟩
    | some entries =>
      have hhere : OpOf store treeId destination (.createDirectories destination) := .inl rfl
      rw [checkoutTreeInto_of_load hload]
      split
      · obtain ⟨new, htrace, hops, hdone⟩ := checkoutEntries_sound ih hload (List.forall_mem_nil _)
          (trace ++ [.createDirectories destination])
        refine ⟨.createDirectories destination :: new, ?_, ?_, fun h => .directory hload (hdone h)⟩
        · rw [htrace, List.append_assoc]
          rfl
        · exact List.forall_mem_cons.mpr ⟨⟨rfl, hhere⟩, fun op hop => ⟨rfl, hops op hop⟩⟩
      · exact ⟨_, rfl, List.forall_mem_singleton.mpr ⟨rfl, hhere⟩, fun h => by cases h⟩

/-! ## Everything that can be visited is visited -/

/-- A system that refuses nothing. -/
def willing : Os := fun _ _ => true

theorem checkoutFile_willing (entryPath : Path) (content : Bytes) (trace : List FsOp) :
    (checkoutFile willing entryPath content trace).1 = true ∧
      .openTruncate entryPath ∈ (checkoutFile willing entryPath content trace).2 := by
  unfold checkoutFile perform
  dsimp only
  split <;> simp [willing]

/-- The loop passes entries that can be checked out. -/
theorem checkoutEntries_pass
    {checkout : ObjectId → Path → List FsOp → Option CheckoutError × List FsOp}
    {before : List TreeEntry} (hdir : ∀ e ∈ before, e.isDirectory = true →
      ∀ destination trace, (checkout e.id destination trace).1 = some .none)
    (hfile : ∀ e ∈ before, e.isDirectory = false →
      ∃ content, store.readObject e.id = .ok (.blob, content))
    (destination : Path) (trace : List FsOp) : ∃ trace', ∀ rest,
      checkoutEntries store willing checkout destination (before ++ rest) trace =
        checkoutEntries store willing checkout destination rest trace' := by
  induction before generalizing trace with
  | nil => exact ⟨trace, fun rest => rfl⟩
  | cons e before ih =>
    obtain ⟨hd, hdir⟩ := List.forall_mem_cons.mp hdir
    obtain ⟨hf, hfile⟩ := List.forall_mem_cons.mp hfile
    by_cases hed : e.isDirectory = true
    · have h := hd hed (join destination e.name) trace
      obtain ⟨trace', htrace⟩ := ih hdir hfile (checkout e.id (join destination e.name) trace).2
      refine ⟨trace', fun rest => ?_⟩
      rw [List.cons_append, checkoutEntries, if_pos hed, ← htrace]
      generalize checkout e.id (join destination e.name) trace = r at h ⊢
      obtain ⟨err, t⟩ := r
      cases h
      rfl
    · obtain ⟨content, hread⟩ := hf (by simpa using hed)
      have h := (checkoutFile_willing (join destination e.name) content trace).1
      obtain ⟨trace', htrace⟩ := ih hdir hfile
        (checkoutFile willing (join destination e.name) content trace).2
      refine ⟨trace', fun rest => ?_⟩
      rw [List.cons_append, checkoutEntries, if_neg hed, hread, ← htrace]
      simp only [h]
      rfl

theorem checkoutTreeInto_willing {treeId : ObjectId} {entries : List TreeEntry}
    (hload : store.loadTree treeId = some entries) (bound : Nat) (destination : Path)
    (trace : List FsOp) :
    checkoutTreeInto store willing (bound + 1) treeId destination trace =
      checkoutEntries store willing (checkoutTreeInto store willing bound) destination entries
        (trace ++ [.createDirectories destination]) :=
  checkoutTreeInto_of_load hload willing bound destination trace

theorem completes_returns {id : ObjectId} {dir : Bool} (h : Completes store id dir) :
    dir = true → ∃ n, ∀ bound ≥ n, ∀ destination trace,
      (checkoutTreeInto store willing bound id destination trace).1 = some .none := by
  induction h with
  | file => exact fun h => by cases h
  | @directory id entries hload hall ih =>
    intro _
    have hbound : ∀ e ∈ entries, ∃ n, ∀ bound ≥ n, e.isDirectory = true → ∀ destination trace,
        (checkoutTreeInto store willing bound e.id destination trace).1 = some .none := by
      intro e he
      by_cases hd : e.isDirectory = true
      · obtain ⟨n, hn⟩ := ih e he hd
        exact ⟨n, fun bound hb _ => hn bound hb⟩
      · exact ⟨0, fun _ _ h => absurd h hd⟩
    obtain ⟨n, hn⟩ := exists_bound hbound
    refine ⟨n + 1, fun bound hb destination trace => ?_⟩
    obtain ⟨k, rfl⟩ := Nat.exists_eq_add_of_le hb
    rw [Nat.add_right_comm, checkoutTreeInto_willing hload]
    obtain ⟨trace', htrace⟩ := checkoutEntries_pass
      (fun e he => hn _ (Nat.le_add_right n k) e he) (fun e he hd => by
        cases hd ▸ hall e he with
        | file hread => exact ⟨_, hread⟩) destination (trace ++ [.createDirectories destination])
    rw [← List.append_nil entries, htrace]
    rfl

/-- The bound and the pass for the entries before a visited one. -/
theorem exists_pass {before : List TreeEntry}
    (h : ∀ e ∈ before, Completes store e.id e.isDirectory) :
    ∃ n, ∀ bound ≥ n, ∀ destination trace, ∃ trace', ∀ rest,
      checkoutEntries store willing (checkoutTreeInto store willing bound) destination
          (before ++ rest) trace =
        checkoutEntries store willing (checkoutTreeInto store willing bound) destination rest
          trace' := by
  have hbound : ∀ e ∈ before, ∃ n, ∀ bound ≥ n, e.isDirectory = true → ∀ destination trace,
      (checkoutTreeInto store willing bound e.id destination trace).1 = some .none := by
    intro e he
    by_cases hd : e.isDirectory = true
    · obtain ⟨n, hn⟩ := completes_returns (h e he) hd
      exact ⟨n, fun bound hb _ => hn bound hb⟩
    · exact ⟨0, fun _ _ h => absurd h hd⟩
  obtain ⟨n, hn⟩ := exists_bound hbound
  refine ⟨n, fun bound hb destination trace => checkoutEntries_pass (fun e he => hn bound hb e he)
    (fun e he hd => ?_) destination trace⟩
  cases hd ▸ h e he with
  | file hread => exact ⟨_, hread⟩

theorem checkoutEntries_grows
    {checkout : ObjectId → Path → List FsOp → Option CheckoutError × List FsOp}
    (hchild : ∀ id destination trace, trace <+: (checkout id destination trace).2)
    (destination : Path) (entries : List TreeEntry) (trace : List FsOp) :
    trace <+: (checkoutEntries store os checkout destination entries trace).2 := by
  induction entries generalizing trace with
  | nil => exact List.prefix_refl _
  | cons e entries ih =>
    unfold checkoutEntries
    dsimp only
    split
    · have h := hchild e.id (join destination e.name) trace
      split
      · rename_i heq
        rw [heq] at h
        exact h.trans (ih _)
      · rename_i heq
        rwa [heq] at h
    · split
      · rename_i content _
        obtain ⟨new, htrace, _⟩ := checkoutFile_ops os (join destination e.name) content trace
        have h : trace <+: (checkoutFile os (join destination e.name) content trace).2 :=
          htrace ▸ List.prefix_append _ _
        split
        · exact h
        · exact h.trans (ih _)
      · exact List.prefix_refl _

theorem checkoutTreeInto_grows (bound : Nat) (id : ObjectId) (destination : Path)
    (trace : List FsOp) :
    trace <+: (checkoutTreeInto store os bound id destination trace).2 := by
  obtain ⟨new, htrace, _⟩ := checkoutTreeInto_sound bound id destination
    trace
  exact htrace ▸ List.prefix_append _ _

/-- A willing system is asked for every visited entry. -/
theorem visited_asked {treeId : ObjectId} {names : List Name} {dir : Bool}
    (h : Visited store treeId names dir) : ∃ n, ∀ bound ≥ n, ∀ destination trace,
      ∃ op ∈ (checkoutTreeInto store willing bound treeId destination trace).2,
        op.isDirectory = dir ∧ op.path = names.foldl join destination := by
  -- the entries before the visited one are passed, and what follows only adds to the trace
  have hreach : ∀ {id : ObjectId} {before after : List TreeEntry} {e : TreeEntry},
      store.loadTree id = some (before ++ e :: after) →
      (∀ e' ∈ before, Completes store e'.id e'.isDirectory) →
      ∀ {dir' : Bool} {names' : List Name}, (∃ n, ∀ bound ≥ n, ∀ destination trace,
        ∃ op ∈ (checkoutEntries store willing (checkoutTreeInto store willing bound) destination
            (e :: after) trace).2,
          op.isDirectory = dir' ∧ op.path = names'.foldl join destination) →
      ∃ n, ∀ bound ≥ n, ∀ destination trace,
        ∃ op ∈ (checkoutTreeInto store willing bound id destination trace).2,
          op.isDirectory = dir' ∧ op.path = names'.foldl join destination := by
    intro id before after e hload hbefore dir' names' ⟨n, hn⟩
    obtain ⟨k, hk⟩ := exists_pass hbefore
    refine ⟨max n k + 1, fun bound hb destination trace => ?_⟩
    obtain ⟨j, rfl⟩ := Nat.exists_eq_add_of_le hb
    rw [Nat.add_right_comm, checkoutTreeInto_willing hload]
    obtain ⟨trace', htrace⟩ := hk (max n k + j) (by omega) destination
      (trace ++ [.createDirectories destination])
    rw [htrace]
    exact hn (max n k + j) (by omega) destination trace'
  induction h with
  | @file id before after e content hload hbefore hfile hread =>
    refine hreach hload hbefore ⟨0, fun bound _ destination trace => ?_⟩
    obtain ⟨hok, hmem⟩ := checkoutFile_willing (join destination e.name) content trace
    refine ⟨.openTruncate (join destination e.name), ?_, rfl, rfl⟩
    rw [checkoutEntries, if_neg (by simp [hfile]), hread]
    simp only [hok]
    exact (checkoutEntries_grows (checkoutTreeInto_grows bound) destination after _).subset hmem
  | @directory id before after entries e hload hbefore hdir hload' =>
    refine hreach hload hbefore ⟨1, fun bound hb destination trace => ?_⟩
    obtain ⟨k, rfl⟩ := Nat.exists_eq_add_of_le hb
    refine ⟨.createDirectories (join destination e.name), ?_, rfl, rfl⟩
    have hmem : .createDirectories (join destination e.name) ∈ (checkoutTreeInto store willing
        (1 + k) e.id (join destination e.name) trace).2 := by
      rw [Nat.add_comm 1, checkoutTreeInto_willing hload']
      exact (checkoutEntries_grows (checkoutTreeInto_grows k) _ _ _).subset (by simp)
    rw [checkoutEntries, if_pos hdir]
    split
    · rename_i heq
      rw [heq] at hmem
      exact (checkoutEntries_grows (checkoutTreeInto_grows _) destination after _).subset hmem
    · rename_i heq
      rwa [heq] at hmem
  | @inside id before after e names dir hload hbefore hdir _ ih =>
    obtain ⟨n, hn⟩ := ih
    refine hreach hload hbefore ⟨n, fun bound hb destination trace => ?_⟩
    obtain ⟨op, hmem, hop, hpath⟩ := hn bound hb (join destination e.name) trace
    refine ⟨op, ?_, hop, hpath⟩
    rw [checkoutEntries, if_pos hdir]
    split
    · rename_i heq
      rw [heq] at hmem
      exact (checkoutEntries_grows (checkoutTreeInto_grows _) destination after _).subset hmem
    · rename_i heq
      rwa [heq] at hmem

/-! ## Where the operations lead -/

/-- The locations where an operation may create or change something. -/
def FsOp.targets (cwd : Location) : FsOp → List Location
  | createDirectories path => trail cwd path
  | openTruncate path => [locate cwd path]
  | write path _ => [locate cwd path]

theorem FsOp.targets_eq (cwd : Location) (op : FsOp) : op.targets cwd =
    if op.isDirectory then trail cwd op.path else [locate cwd op.path] := by
  cases op <;> rfl

/-- Every location is below the destination, or it is one of the directories above it and on the way
to it. Those exist once the destination does, and an operation changes nothing there. -/
def Confined (cwd : Location) (destination : Path) (op : FsOp) : Prop :=
  ∀ l ∈ op.targets cwd, l <+: locate cwd destination ∨ l ∈ trail cwd destination ∨
    locate cwd destination <+: l

instance (cwd : Location) (destination : Path) (op : FsOp) :
    Decidable (Confined cwd destination op) :=
  inferInstanceAs (Decidable (∀ l ∈ op.targets cwd, _))

/-- The path that names make in a directory. -/
def relativePath (names : List Name) : Path := names.foldl join []

/-- The places that an entry behind `names` leads to, as seen from the destination. -/
def places (names : List Name) (dir : Bool) : List Place :=
  let start := if isAbsolute (relativePath names) then Place.root else .here
  let segments := segments (cString (relativePath names))
  if dir then start.trail segments else [segments.foldl .enter start]

/-- The names lead out: an absolute name, or more ".." than names before them, with a name behind. -/
def LeadsOut (names : List Name) (dir : Bool) : Prop := ∃ p ∈ places names dir, p.Outside

instance (names : List Name) (dir : Bool) : Decidable (LeadsOut names dir) :=
  inferInstanceAs (Decidable (∃ p ∈ places names dir, p.Outside))

theorem foldl_join {names : List Name} (h : names ≠ []) (destination : Path) :
    names.foldl join destination = join destination (relativePath names) :=
  Posix.foldl_join h destination

theorem Visited.ne_nil {treeId : ObjectId} {names : List Name} {dir : Bool}
    (h : Visited store treeId names dir) : names ≠ [] := by
  cases h <;> exact List.cons_ne_nil _ _

/-- The targets of an operation for an entry are its places as seen from the destination, or the
destination hides the entry. -/
theorem targets_of_names {names : List Name} (hne : names ≠ []) {op : FsOp} {destination : Path}
    (hpath : op.path = names.foldl join destination) (cwd : Location) :
    (0 ∉ destination → ∀ p ∈ places names op.isDirectory,
      p.at (locate cwd destination) ∈ op.targets cwd) ∧
    ∀ l ∈ op.targets cwd, l = locate cwd destination ∨ l ∈ trail cwd destination ∨
      ∃ p ∈ places names op.isDirectory, l = p.at (locate cwd destination) := by
  rw [FsOp.targets_eq, hpath, foldl_join hne, places]
  by_cases habs : isAbsolute (relativePath names) = true
  · have hroot : ([] : Location) = Place.root.at (locate cwd destination) := rfl
    rw [Posix.join_absolute habs, if_pos habs, trail, locate, if_pos habs, hroot, Place.trail_at,
      Place.foldl_enter_at]
    split
    · exact ⟨fun _ p hp => List.mem_map.mpr ⟨p, hp, rfl⟩, fun l hl => by
        obtain ⟨p, hp, rfl⟩ := List.mem_map.mp hl
        exact .inr (.inr ⟨p, hp, rfl⟩)⟩
    · exact ⟨fun _ p hp => List.mem_singleton.mpr (by rw [List.mem_singleton.mp hp]), fun l hl =>
        .inr (.inr ⟨_, List.mem_singleton_self _, List.mem_singleton.mp hl⟩)⟩
  · have hrel : isAbsolute (relativePath names) = false := by simpa using habs
    rw [if_neg habs]
    have hhere : locate cwd destination = Place.here.at (locate cwd destination) := by
      simp [Place.at, Place.here]
    by_cases hnul : 0 ∈ destination
    · obtain ⟨htrail, hloc⟩ := Posix.trail_join_of_mem hnul hrel cwd
      rw [htrail, hloc]
      refine ⟨fun h => absurd hnul h, fun l hl => ?_⟩
      split at hl
      · exact .inr (.inl hl)
      · exact .inl (List.mem_singleton.mp hl)
    · rw [Posix.trail_join hnul hrel, Posix.locate_join hnul hrel]
      have htrail := Place.trail_at (locate cwd destination) (segments (cString (relativePath names)))
        .here
      have hloc := Place.foldl_enter_at (locate cwd destination)
        (segments (cString (relativePath names))) .here
      rw [← hhere] at htrail hloc
      rw [htrail, hloc]
      split
      · refine ⟨fun _ p hp => List.mem_append_right _ (List.mem_map.mpr ⟨p, hp, rfl⟩), fun l hl => ?_⟩
        rcases List.mem_append.mp hl with hl | hl
        · exact .inr (.inl hl)
        · obtain ⟨p, hp, rfl⟩ := List.mem_map.mp hl
          exact .inr (.inr ⟨p, hp, rfl⟩)
      · exact ⟨fun _ p hp => List.mem_singleton.mpr (by rw [List.mem_singleton.mp hp]), fun l hl =>
          .inr (.inr ⟨_, List.mem_singleton_self _, List.mem_singleton.mp hl⟩)⟩

/-- A checkout is confined to every destination, whatever the system answers, exactly where the names
of no entry that it gets to lead out. -/
theorem checkoutTree_confined_iff (store : ObjectStore) (treeId : ObjectId) :
    (∀ cwd destination os bound, ∀ op ∈ (checkoutTree store os bound treeId destination).2,
      Confined cwd destination op) ↔
    ∀ names dir, Visited store treeId names dir → ¬ LeadsOut names dir := by
  constructor
  · rintro h names dir hv ⟨p, hp, hout⟩
    obtain ⟨loc, hplain, hnot⟩ := Place.exists_not_comparable hout
    obtain ⟨hnul, hloc, htrail⟩ := Posix.absolutePath_spec hplain []
    obtain ⟨n, hn⟩ := visited_asked hv
    obtain ⟨op, hmem, hdir, hpath⟩ := hn n (Nat.le_refl n) (Posix.absolutePath loc) []
    have htarget := (targets_of_names hv.ne_nil hpath []).1 hnul p (hdir ▸ hp)
    rw [hloc] at htarget
    have hconf := h [] (Posix.absolutePath loc) willing n op hmem _ htarget
    rw [hloc] at hconf
    rcases hconf with hc | hc | hc
    · exact hnot (.inl hc)
    · exact hnot (.inl (htrail _ hc))
    · exact hnot (.inr hc)
  · intro h cwd destination os bound op hop l hl
    obtain ⟨new, htrace, hops, -⟩ := checkoutTreeInto_sound bound treeId
      destination []
    rw [checkoutTree, htrace, List.nil_append] at hop
    rcases (hops op hop).2 with rfl | ⟨names, hv, hpath⟩
    · exact .inr (.inl hl)
    · rcases (targets_of_names hv.ne_nil hpath cwd).2 l hl with rfl | hl | ⟨p, hp, rfl⟩
      · exact .inl (List.prefix_refl _)
      · exact .inr (.inl hl)
      · exact (Place.comparable_of_not_outside (fun ho => h names _ hv ⟨p, hp, ho⟩) _).elim .inl
          fun hc => .inr (.inr hc)

/-- A tree whose only file is named "../evil". -/
theorem checkoutTree_escapes : ¬ ∀ (store : ObjectStore) (treeId : ObjectId) (cwd : Location)
    (destination : Path) (os : Os) (bound : Nat),
    ∀ op ∈ (checkoutTree store os bound treeId destination).2, Confined cwd destination op := by
  intro h
  let blob := ({} : ObjectStore).writeObject .blob []
  let tree := blob.2.writeObject .tree (serializeTree [⟨ascii "../evil", blob.1, false⟩])
  have hop : .openTruncate (ascii "/d/../evil") ∈
      (checkoutTree tree.2 willing 2 tree.1 (ascii "/d")).2 := by decide +kernel
  have hconf := h tree.2 tree.1 [] (ascii "/d") willing 2 _ hop
  exact absurd hconf (by decide)

end Oggit
end Techuila
