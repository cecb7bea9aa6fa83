import Techuila.Os.Lifecycle

/-!
# The life of tasks over runs

* `issued`, `Step.switchedTo`, `Step.switchedFrom`: what a run has done with pids.
* `Pids`: pids are issued once, and a dead task's pid stays dead.
* `Traced`: where each task goes on when it is switched to.
* `waits_le`, `Run.waits`: how long a ready task waits.
* `Run.lifecycle`: all of it for every run.
-/

namespace Techuila
namespace Os

open RoundRobin (dist dist_pos dist_le)

/-! ## What a run has done -/

/-- A task that can still run. -/
def alive (state : ProcessState) : Bool := runnable state || state == .blocked

/-- The pid that a step returned for a new task. -/
def Step.issued (s : Step) : Option Nat :=
  if s.event.creates && s.result != -1 then some (s.result % 2 ^ 32).toNat else none

/-- All pids, that of the idle task last. -/
def issued (history : List Step) : List Nat := history.filterMap Step.issued ++ [1]

/-- The pid of the task that a step switches to. -/
def Step.switchedTo (s : Step) : Option Nat :=
  if s.after.currentTaskIndex = s.before.currentTaskIndex then none
  else s.after.currentTaskIndex.map fun i => (s.after.tasks i).pid

/-- The pid of the task that a step switches away from, with its stack pointer. -/
def Step.switchedFrom (s : Step) : Option (Nat × Nat) :=
  if s.after.currentTaskIndex = s.before.currentTaskIndex then none
  else do
    let (_, esp) ← s.event.switches
    let i ← s.before.currentTaskIndex
    some ((s.before.tasks i).pid, esp)

/-- The stack pointer of a task when it was last switched away from. -/
def lastEsp (history : List Step) (pid : Nat) : Option Nat :=
  (history.filterMap Step.switchedFrom).lookup pid

/-- Fewer than 2^31 tasks are created. -/
def FewTasks (history : List Step) : Prop := (history.filterMap Step.issued).length < 2 ^ 31

theorem FewTasks.of_cons {s : Step} {history : List Step} (h : FewTasks (s :: history)) :
    FewTasks history := by
  unfold FewTasks at *
  rw [List.filterMap_cons] at h
  split at h
  · exact h
  · rw [List.length_cons] at h
    omega

theorem FewTasks.issued_length {history : List Step} (h : FewTasks history) :
    (issued history).length ≤ 2 ^ 31 := by
  rw [issued, List.length_append]
  exact h

/-! ## Pids -/

structure Pids (k : Kernel) (history : List Step) : Prop where
  next : k.nextPid = (issued history).length + 1
  range : ∀ pid ∈ issued history, pid < k.nextPid
  nodup : (issued history).Nodup
  occupied : ∀ i, (k.tasks i).state ≠ .unused → (k.tasks i).pid ∈ issued history
  distinct : ∀ i j, (k.tasks i).state ≠ .unused → (k.tasks j).state ≠ .unused →
    (k.tasks i).pid = (k.tasks j).pid → i = j
  dead : ∀ s ∈ history, ∀ i, (s.after.tasks i).state = .dead →
    (s.after.tasks i).pid < k.nextPid ∧
      ∀ j, (k.tasks j).pid = (s.after.tasks i).pid → alive (k.tasks j).state = false

/-- A step that creates nothing: pids stay, and no task comes to life. -/
structure KeepsPids (k k' : Kernel) : Prop where
  next : k'.nextPid = k.nextPid
  pid : ∀ i, (k'.tasks i).pid = (k.tasks i).pid
  unused : ∀ i, (k'.tasks i).state = .unused ↔ (k.tasks i).state = .unused
  alive : ∀ i, alive (k'.tasks i).state = true → alive (k.tasks i).state = true

section
variable {I : KernelImage} {k k' : Kernel} {history : List Step} {e : Event} {r : Int}

theorem Pids.lt_next (h : Pids k history) {i : Slot} (hi : (k.tasks i).state ≠ .unused) :
    (k.tasks i).pid < k.nextPid := h.range _ (h.occupied i hi)

/-- The dead tasks of the state itself. -/
theorem dead_of_distinct {i : Slot} (hdead : (k.tasks i).state = .dead)
    (hd : ∀ i j, (k.tasks i).state ≠ .unused → (k.tasks j).state ≠ .unused →
      (k.tasks i).pid = (k.tasks j).pid → i = j) {j : Slot}
    (hj : (k.tasks j).pid = (k.tasks i).pid) : alive (k.tasks j).state = false := by
  by_cases hu : (k.tasks j).state = .unused
  · rw [hu]
    rfl
  · rw [hd j i hu (by rw [hdead]; nofun) hj, hdead]
    rfl

theorem Pids.keep (h : Pids k history) (hk : KeepsPids k k') {s : Step} (hs : s.after = k')
    (hissued : s.issued = none) : Pids k' (s :: history) := by
  have hlist : issued (s :: history) = issued history := by
    rw [issued, issued, List.filterMap_cons_none hissued]
  have hused : ∀ i, (k'.tasks i).state ≠ .unused → (k.tasks i).state ≠ .unused := fun i hi hu =>
    hi ((hk.unused i).mpr hu)
  have hdistinct : ∀ i j, (k'.tasks i).state ≠ .unused → (k'.tasks j).state ≠ .unused →
      (k'.tasks i).pid = (k'.tasks j).pid → i = j := fun i j hi hj he => by
    rw [hk.pid, hk.pid] at he
    exact h.distinct i j (hused i hi) (hused j hj) he
  refine ⟨?_, ?_, ?_, fun i hi => ?_, hdistinct, fun s' hs' i hdead => ?_⟩
  · rw [hlist, hk.next]
    exact h.next
  · rw [hlist, hk.next]
    exact h.range
  · rw [hlist]
    exact h.nodup
  · rw [hlist, hk.pid]
    exact h.occupied i (hused i hi)
  · rcases List.mem_cons.mp hs' with rfl | hs'
    · rw [hs] at hdead ⊢
      refine ⟨?_, fun j hj => dead_of_distinct hdead hdistinct hj⟩
      rw [hk.next, hk.pid]
      exact h.lt_next (hused i (by rw [hdead]; nofun))
    · obtain ⟨hlt, hnot⟩ := h.dead s' hs' i hdead
      refine ⟨hk.next ▸ hlt, fun j hj => ?_⟩
      rw [hk.pid] at hj
      exact Bool.eq_false_iff.mpr fun ha =>
        Bool.eq_false_iff.mp (hnot j hj) (hk.alive j ha)

/-- A pid is returned as a signed number. -/
theorem toInt32_emod {v : Nat} (h : v < 2 ^ 32) : (toInt32 v % 2 ^ 32).toNat = v := by
  unfold toInt32
  split <;> omega

/-- The pid of a created task, where there are few tasks. -/
theorem Pids.issued_created (h : Pids k history) {s : Step} (hc : s.event.creates = true)
    (hr : s.result = toInt32 k.nextPid) (hfew : FewTasks (s :: history)) :
    s.issued = some k.nextPid ∧ k.nextPid < 2 ^ 32 - 1 := by
  have hnext := h.next
  have hlen := hfew.of_cons.issued_length
  have hlt : k.nextPid < 2 ^ 32 - 1 := by omega
  have hne : toInt32 k.nextPid ≠ -1 := by
    unfold toInt32
    split <;> omega
  refine ⟨?_, hlt⟩
  unfold Step.issued
  rw [hc, hr, Bool.true_and, if_pos (bne_iff_ne.mpr hne), toInt32_emod (by omega)]

theorem Pids.create (h : Pids k history) {s : Step} (hs : s.after = k') (hc : s.event.creates = true)
    (hr : s.result = toInt32 k.nextPid) (hfew : FewTasks (s :: history)) {slot : Slot} {task : Task}
    (htasks : k'.tasks = Function.update k.tasks slot task) (hpid : task.pid = k.nextPid)
    (hstate : task.state = .ready) (hnext : k'.nextPid = add32 k.nextPid 1) :
    Pids k' (s :: history) := by
  obtain ⟨hissued, hlt⟩ := h.issued_created hc hr hfew
  have hnext' : k'.nextPid = k.nextPid + 1 := by
    rw [hnext, add32, Nat.mod_eq_of_lt (by omega)]
  have hlist : issued (s :: history) = k.nextPid :: issued history := by
    rw [issued, List.filterMap_cons_some hissued, List.cons_append, ← issued]
  have hslot : k'.tasks slot = task := by
    rw [htasks, Function.update_self]
  have hother : ∀ i ≠ slot, k'.tasks i = k.tasks i := fun i hi => by
    rw [htasks, Function.update_of_ne hi]
  have hold : ∀ i ≠ slot, (k'.tasks i).state ≠ .unused → (k'.tasks i).pid < k.nextPid :=
    fun i hi hu => by
      rw [hother i hi] at hu ⊢
      exact h.lt_next hu
  have hdistinct : ∀ i j, (k'.tasks i).state ≠ .unused → (k'.tasks j).state ≠ .unused →
      (k'.tasks i).pid = (k'.tasks j).pid → i = j := fun i j hi hj he => by
    by_cases hi' : i = slot
    · by_cases hj' : j = slot
      · rw [hi', hj']
      · have := hold j hj' hj
        rw [hi', hslot, hpid] at he
        omega
    · by_cases hj' : j = slot
      · have := hold i hi' hi
        rw [hj', hslot, hpid] at he
        omega
      · rw [hother i hi'] at hi he
        rw [hother j hj'] at hj he
        exact h.distinct i j hi hj he
  refine ⟨?_, fun r' hr' => ?_, ?_, fun i hi => ?_, hdistinct, fun s' hs' i hdead => ?_⟩
  · rw [hlist, List.length_cons, hnext', h.next]
  · rw [hlist] at hr'
    rcases List.mem_cons.mp hr' with rfl | hr'
    · omega
    · have := h.range r' hr'
      omega
  · rw [hlist]
    refine List.nodup_cons.mpr ⟨fun hmem => ?_, h.nodup⟩
    exact lt_irrefl _ (h.range _ hmem)
  · rw [hlist]
    by_cases hi' : i = slot
    · rw [hi', hslot, hpid]
      exact List.mem_cons_self ..
    · rw [hother i hi'] at hi ⊢
      exact List.mem_cons_of_mem _ (h.occupied i hi)
  · rcases List.mem_cons.mp hs' with rfl | hs'
    · rw [hs] at hdead ⊢
      refine ⟨?_, fun j hj => dead_of_distinct hdead hdistinct hj⟩
      have hi : i ≠ slot := by
        rintro rfl
        rw [hslot, hstate] at hdead
        cases hdead
      have := hold i hi (by rw [hdead]; nofun)
      omega
    · obtain ⟨hlt', hnot⟩ := h.dead s' hs' i hdead
      refine ⟨by omega, fun j hj => ?_⟩
      by_cases hj' : j = slot
      · rw [hj', hslot, hpid] at hj
        omega
      · rw [hother j hj'] at hj ⊢
        exact hnot j hj

/-- A task that changes keeps its pid, was alive and stays in its slot. -/
theorem KeepsPids.of_tasks (hnext : k'.nextPid = k.nextPid)
    (h : ∀ i, k'.tasks i = k.tasks i ∨ (k'.tasks i).pid = (k.tasks i).pid ∧
      Os.alive (k.tasks i).state = true ∧ (k'.tasks i).state ≠ .unused) : KeepsPids k k' := by
  refine ⟨hnext, fun i => ?_, fun i => ?_, fun i hi => ?_⟩ <;>
    rcases h i with he | ⟨hpid, halive, hused⟩
  · rw [he]
  · exact hpid
  · rw [he]
  · refine iff_of_false hused fun hu => ?_
    rw [hu] at halive
    cases halive
  · rwa [he] at hi
  · exact halive

theorem alive_of_runnable {state : ProcessState} (h : runnable state = true) : alive state = true := by
  rw [alive, h, Bool.true_or]

theorem Rescheduled.keepsPids {leave : Option ProcessState} {esp result : Nat}
    (h : Rescheduled k k' leave esp result) (hset : Settled k) (hleave : leave ≠ some .unused)
    (hnext : k'.nextPid = k.nextPid) : KeepsPids k k' := by
  have hrunning : ∀ c, k.currentTaskIndex = some c → alive (k.tasks c).state = true := fun c hc => by
    rw [(hset.running c).mpr hc]
    rfl
  refine .of_tasks hnext fun i => ?_
  cases h with
  | first _ _ htasks =>
    rw [htasks]
    by_cases hi : i = 0
    · rw [hi, Function.update_self]
      exact .inr ⟨rfl, alive_of_runnable hset.idle, nofun⟩
    · exact .inl (Function.update_of_ne hi ..)
  | stay c hcur _ _ htasks _ =>
    rw [htasks]
    by_cases hi : i = c
    · rw [hi, Function.update_self]
      refine .inr ⟨rfl, hrunning c hcur, ?_⟩
      dsimp only
      rw [(hset.running c).mpr hcur]
      exact nofun
    · exact .inl (Function.update_of_ne hi ..)
  | switch c n hcur _ _ hrun htasks _ =>
    rw [htasks]
    by_cases hi : i = n
    · rw [hi, Function.update_self]
      exact .inr ⟨rfl, alive_of_runnable hrun, nofun⟩
    rw [Function.update_of_ne hi]
    by_cases hc : i = c
    · rw [hc, Function.update_self]
      refine .inr ⟨rfl, hrunning c hcur, ?_⟩
      cases leave with
      | none => exact nofun
      | some state => exact fun he => hleave (congrArg some he)
    · exact .inl (Function.update_of_ne hc ..)

theorem TaskStep.pids (hstep : TaskStep I k k' e r) (hset : Settled k) (h : Pids k history)
    (hfew : FewTasks (⟨k, e, r, k'⟩ :: history)) : Pids k' (⟨k, e, r, k'⟩ :: history) := by
  have hnone : (e.creates = true → r = -1) → Step.issued ⟨k, e, r, k'⟩ = none := fun hr => by
    unfold Step.issued
    dsimp only
    cases hc : e.creates with
    | false => rfl
    | true =>
      rw [hr hc]
      rfl
  cases hstep with
  | still htasks _ hnext _ hr =>
    exact h.keep (.of_tasks hnext fun i => .inl (by rw [htasks])) rfl (hnone hr)
  | created slot task _ htasks hpid hstate _ _ hnext hc _ hr =>
    exact h.create rfl hc hr hfew htasks hpid hstate hnext
  | woken slot hblocked htasks _ hnext _ hc =>
    refine h.keep (.of_tasks hnext fun i => ?_) rfl (hnone (by rw [hc]; exact nofun))
    rw [htasks]
    by_cases hi : i = slot
    · rw [hi, Function.update_self, hblocked]
      exact .inr ⟨rfl, rfl, nofun⟩
    · exact .inl (Function.update_of_ne hi ..)
  | switched leave esp result _ hleave _ _ hres hnext hc =>
    refine h.keep (hres.keepsPids hset ?_ hnext) rfl (hnone (by rw [hc]; exact nofun))
    rcases hleave with rfl | rfl | rfl <;> exact nofun

/-! ## Stack pointers -/

theorem switchedTo_none {s : Step} (h : s.after.currentTaskIndex = s.before.currentTaskIndex) :
    s.switchedTo = none := if_pos h

theorem switchedFrom_none {s : Step} (h : s.after.currentTaskIndex = s.before.currentTaskIndex) :
    s.switchedFrom = none := if_pos h

/-- A task has been switched to. -/
def Visited (history : List Step) (pid : Nat) : Prop := ∃ s ∈ history, s.switchedTo = some pid

theorem visited_cons {s : Step} {pid : Nat} :
    Visited (s :: history) pid ↔ s.switchedTo = some pid ∨ Visited history pid := by
  unfold Visited
  simp only [List.mem_cons, exists_eq_or_imp]

theorem lastEsp_cons_of_none {s : Step} (h : s.switchedFrom = none) (pid : Nat) :
    lastEsp (s :: history) pid = lastEsp history pid := by
  rw [lastEsp, List.filterMap_cons_none h, lastEsp]

theorem lastEsp_cons_self {s : Step} {pid esp : Nat} (h : s.switchedFrom = some (pid, esp)) :
    lastEsp (s :: history) pid = some esp := by
  rw [lastEsp, List.filterMap_cons_some h, List.lookup_cons_self]

theorem lastEsp_cons_of_ne {s : Step} {pid pid' esp : Nat} (h : s.switchedFrom = some (pid, esp))
    (hne : pid' ≠ pid) : lastEsp (s :: history) pid' = lastEsp history pid' := by
  rw [lastEsp, List.filterMap_cons_some h, List.lookup_cons, beq_false_of_ne hne, lastEsp]

/-- Where a task that is not current goes on: in its first frame, or where it was left. -/
structure Traced (I : KernelImage) (k : Kernel) (history : List Step) : Prop where
  savedEsp : ∀ i, (k.tasks i).state ≠ .unused → k.currentTaskIndex ≠ some i →
    (k.tasks i).savedEsp = (lastEsp history (k.tasks i).pid).getD (initialFrame I i)
  left : ∀ i, (k.tasks i).state ≠ .unused → k.currentTaskIndex ≠ some i →
    (Visited history (k.tasks i).pid ↔ (lastEsp history (k.tasks i).pid).isSome = true)
  current : ∀ i, k.currentTaskIndex = some i → Visited history (k.tasks i).pid
  old : ∀ pid, Visited history pid ∨ (lastEsp history pid).isSome = true → pid < k.nextPid

/-- Steps that do not switch: a task keeps its pid and its stack pointer, or is new. -/
theorem Traced.quiet (h : Traced I k history) (hcur : k'.currentTaskIndex = k.currentTaskIndex)
    (hnext : k.nextPid ≤ k'.nextPid)
    (hcurrent : ∀ i, k.currentTaskIndex = some i → (k'.tasks i).pid = (k.tasks i).pid)
    (htask : ∀ i, (k'.tasks i).state ≠ .unused → k.currentTaskIndex ≠ some i →
      ((k.tasks i).state ≠ .unused ∧ (k'.tasks i).pid = (k.tasks i).pid ∧
        (k'.tasks i).savedEsp = (k.tasks i).savedEsp) ∨
      ((k'.tasks i).pid = k.nextPid ∧ (k'.tasks i).savedEsp = initialFrame I i)) :
    Traced I k' (⟨k, e, r, k'⟩ :: history) := by
  have hto : ∀ pid, Visited (⟨k, e, r, k'⟩ :: history) pid ↔ Visited history pid := fun pid => by
    rw [visited_cons, switchedTo_none (by exact hcur), or_iff_right (Option.some_ne_none _).symm]
  have hesp : ∀ pid, lastEsp (⟨k, e, r, k'⟩ :: history) pid = lastEsp history pid :=
    lastEsp_cons_of_none (switchedFrom_none hcur)
  -- a new pid is in no switch
  have hnew : ¬ (Visited history k.nextPid ∨ (lastEsp history k.nextPid).isSome = true) := fun hold =>
    lt_irrefl _ (h.old _ hold)
  rw [not_or, Bool.not_eq_true, Option.isSome_eq_false_iff, Option.isNone_iff_eq_none] at hnew
  refine ⟨fun i hi hne => ?_, fun i hi hne => ?_, fun i hi => ?_, fun pid hpid => ?_⟩
  · rw [hcur] at hne
    rw [hesp]
    rcases htask i hi hne with ⟨hu, hpid, hsaved⟩ | ⟨hpid, hsaved⟩
    · rw [hsaved, hpid]
      exact h.savedEsp i hu hne
    · rw [hsaved, hpid, hnew.2]
      rfl
  · rw [hcur] at hne
    rw [hesp, hto]
    rcases htask i hi hne with ⟨hu, hpid, -⟩ | ⟨hpid, -⟩
    · rw [hpid]
      exact h.left i hu hne
    · rw [hpid, hnew.2]
      exact iff_of_false hnew.1 Bool.false_ne_true
  · rw [hcur] at hi
    rw [hto, hcurrent i hi]
    exact h.current i hi
  · rw [hto, hesp] at hpid
    exact lt_of_lt_of_le (h.old pid hpid) hnext

theorem Traced.first (h : Traced I k history) (hp : Pids k history) (hset : Settled k)
    (hcur : k.currentTaskIndex = none) (hcur' : k'.currentTaskIndex = some 0)
    (htasks : k'.tasks = Function.update k.tasks 0 { k.tasks 0 with state := .running })
    (hnext : k'.nextPid = k.nextPid) : Traced I k' (⟨k, e, r, k'⟩ :: history) := by
  have hidle : (k.tasks 0).state ≠ .unused := fun hu => by
    have := hset.idle
    rw [hu] at this
    cases this
  have hpid : (k'.tasks 0).pid = (k.tasks 0).pid := by
    rw [htasks, Function.update_self]
  have hto : Step.switchedTo ⟨k, e, r, k'⟩ = some (k.tasks 0).pid := by
    unfold Step.switchedTo
    dsimp only
    rw [hcur, hcur', if_neg (Option.some_ne_none _), Option.map_some, hpid]
  have hesp : ∀ pid, lastEsp (⟨k, e, r, k'⟩ :: history) pid = lastEsp history pid :=
    lastEsp_cons_of_none (by
      unfold Step.switchedFrom
      dsimp only
      rw [hcur, hcur', if_neg (Option.some_ne_none _)]
      cases e.switches <;> rfl)
  have hother : ∀ i, k'.currentTaskIndex ≠ some i → k'.tasks i = k.tasks i ∧ i ≠ 0 := fun i hi => by
    have hne : i ≠ 0 := fun he => hi (he ▸ hcur')
    exact ⟨by rw [htasks, Function.update_of_ne hne], hne⟩
  refine ⟨fun i hi hne => ?_, fun i hi hne => ?_, fun i hi => ?_, fun pid hold => ?_⟩
  · rw [hesp, (hother i hne).1] at *
    exact h.savedEsp i hi (by rw [hcur]; exact nofun)
  · rw [hesp, visited_cons, hto, (hother i hne).1] at *
    rw [or_iff_right fun he => (hother i hne).2 (hp.distinct i 0 hi hidle (Option.some.inj he).symm)]
    exact h.left i hi (by rw [hcur]; exact nofun)
  · obtain rfl := Option.some.inj (hcur'.symm.trans hi)
    exact visited_cons.mpr (.inl (by rw [hto, hpid]))
  · rw [hesp, visited_cons, hto, Option.some.injEq, or_assoc] at hold
    rw [hnext]
    rcases hold with rfl | hold
    · exact hp.lt_next hidle
    · exact h.old pid hold

theorem Traced.switch (h : Traced I k history) (hp : Pids k history) (hset : Settled k)
    {leave : Option ProcessState} {esp : Nat} (he : e.switches = some (leave, esp)) {c n : Slot}
    (hcur : k.currentTaskIndex = some c) (hcur' : k'.currentTaskIndex = some n) (hn : n ≠ c)
    (hrun : runnable (k.tasks n).state = true) {state : ProcessState}
    (htasks : k'.tasks = Function.update (Function.update k.tasks c
      { k.tasks c with state := state, savedEsp := esp }) n { k.tasks n with state := .running })
    (hnext : k'.nextPid = k.nextPid) : Traced I k' (⟨k, e, r, k'⟩ :: history) := by
  have hc : (k.tasks c).state ≠ .unused := by
    rw [(hset.running c).mpr hcur]
    exact nofun
  have hn' : (k.tasks n).state ≠ .unused := fun hu => by
    rw [hu] at hrun
    cases hrun
  have hpid : ∀ i, (k'.tasks i).pid = (k.tasks i).pid := fun i => by
    rw [htasks]
    by_cases hi : i = n
    · rw [hi, Function.update_self]
    rw [Function.update_of_ne hi]
    by_cases hi : i = c
    · rw [hi, Function.update_self]
    · rw [Function.update_of_ne hi]
  have hchange : ¬ k'.currentTaskIndex = k.currentTaskIndex := by
    rw [hcur, hcur', Option.some.injEq]
    exact hn
  have hto : Step.switchedTo ⟨k, e, r, k'⟩ = some (k.tasks n).pid := by
    unfold Step.switchedTo
    dsimp only
    rw [if_neg hchange, hcur', Option.map_some, hpid]
  have hfrom : Step.switchedFrom ⟨k, e, r, k'⟩ = some ((k.tasks c).pid, esp) := by
    unfold Step.switchedFrom
    dsimp only
    rw [if_neg hchange, he, hcur]
    rfl
  -- of the tasks that are not current now, only the one that was has changed
  have hother : ∀ i ≠ n, i ≠ c → k'.tasks i = k.tasks i := fun i hin hic => by
    rw [htasks, Function.update_of_ne hin, Function.update_of_ne hic]
  have hpair : ∀ i ≠ n, (k.tasks i).state ≠ .unused → (k.tasks n).pid ≠ (k.tasks i).pid :=
    fun i hin hu heq => hin (hp.distinct i n hu hn' heq.symm)
  have hcn : (k'.tasks c).savedEsp = esp := by
    rw [htasks, Function.update_of_ne hn.symm, Function.update_self]
  have hne : ∀ {i}, k'.currentTaskIndex ≠ some i → i ≠ n := fun hi heq => hi (heq ▸ hcur')
  refine ⟨fun i hi hin => ?_, fun i hi hin => ?_, fun i hi => ?_, fun pid hold => ?_⟩
  · by_cases hic : i = c
    · rw [hic, hcn, hpid, lastEsp_cons_self hfrom]
      rfl
    · rw [hother i (hne hin) hic] at hi ⊢
      rw [lastEsp_cons_of_ne hfrom fun heq => hic (hp.distinct i c hi hc heq)]
      exact h.savedEsp i hi fun hcon => hic (Option.some.inj (hcur.symm.trans hcon)).symm
  · by_cases hic : i = c
    · rw [hic, hpid, lastEsp_cons_self hfrom, visited_cons]
      exact iff_of_true (.inr (h.current c hcur)) rfl
    · rw [hother i (hne hin) hic] at hi ⊢
      rw [lastEsp_cons_of_ne hfrom fun heq => hic (hp.distinct i c hi hc heq), visited_cons, hto,
        or_iff_right fun heq => hpair i (hne hin) hi (Option.some.inj heq)]
      exact h.left i hi fun hcon => hic (Option.some.inj (hcur.symm.trans hcon)).symm
  · obtain rfl := Option.some.inj (hcur'.symm.trans hi)
    exact visited_cons.mpr (.inl (by rw [hto, hpid]))
  · rw [hnext]
    rw [visited_cons, hto, Option.some.injEq] at hold
    by_cases hpc : pid = (k.tasks c).pid
    · rw [hpc]
      exact hp.lt_next hc
    · rw [lastEsp_cons_of_ne hfrom hpc, or_assoc] at hold
      rcases hold with rfl | hold
      · exact hp.lt_next hn'
      · exact h.old pid hold

theorem TaskStep.traced (hstep : TaskStep I k k' e r) (hset : Settled k) (hp : Pids k history)
    (hfew : FewTasks (⟨k, e, r, k'⟩ :: history)) (h : Traced I k history) :
    Traced I k' (⟨k, e, r, k'⟩ :: history) := by
  cases hstep with
  | still htasks hcur hnext =>
    exact h.quiet hcur hnext.ge (fun i _ => by rw [htasks]) fun i hi _ =>
      .inl (by rw [htasks] at hi ⊢; exact ⟨hi, rfl, rfl⟩)
  | created slot task hfree htasks hpid hstate hesp hcur hnext hc _ hr =>
    have hlt := (hp.issued_created (s := ⟨k, e, r, k'⟩) hc hr hfew).2
    have hslot : k.currentTaskIndex ≠ some slot := hset.not_current (by
      rcases hfree with hf | hf <;> rw [hf] <;> rfl)
    refine h.quiet hcur ?_ (fun i hi => ?_) fun i hi _ => ?_
    · rw [hnext, add32, Nat.mod_eq_of_lt (by omega)]
      omega
    · rw [htasks, Function.update_of_ne (by rintro rfl; exact hslot hi)]
    · rw [htasks] at hi ⊢
      by_cases hi' : i = slot
      · rw [hi', Function.update_self]
        exact .inr ⟨hpid, hesp⟩
      · rw [Function.update_of_ne hi'] at hi ⊢
        exact .inl ⟨hi, rfl, rfl⟩
  | woken slot hblocked htasks hcur hnext =>
    have hsame : ∀ i, (k'.tasks i).pid = (k.tasks i).pid ∧
        (k'.tasks i).savedEsp = (k.tasks i).savedEsp := fun i => by
      rw [htasks]
      by_cases hi : i = slot
      · rw [hi, Function.update_self]
        exact ⟨rfl, rfl⟩
      · rw [Function.update_of_ne hi]
        exact ⟨rfl, rfl⟩
    refine h.quiet hcur hnext.ge (fun i _ => (hsame i).1) fun i hi _ => .inl ⟨?_, hsame i⟩
    by_cases hi' : i = slot
    · rw [hi', hblocked]
      exact nofun
    · rwa [htasks, Function.update_of_ne hi'] at hi
  | switched leave esp result he _ _ _ hres hnext =>
    cases hres with
    | first hcur hcur' htasks => exact h.first hp hset hcur hcur' htasks hnext
    | stay c hcur hcur' _ htasks _ =>
      have hother : ∀ i ≠ c, k'.tasks i = k.tasks i := fun i hi => by
        rw [htasks, Function.update_of_ne hi]
      refine h.quiet (hcur'.trans hcur.symm) hnext.ge (fun i _ => ?_) fun i hi hne => ?_
      · rw [htasks]
        by_cases hi : i = c
        · rw [hi, Function.update_self]
        · rw [Function.update_of_ne hi]
      · rw [hother i fun heq => hne (heq ▸ hcur)] at hi ⊢
        exact .inl ⟨hi, rfl, rfl⟩
    | switch c n hcur hcur' hn hrun htasks _ =>
      exact h.switch hp hset he hcur hcur' hn hrun htasks hnext

/-- A switch returns the stack pointer that the task was left with, or its first frame. -/
theorem TaskStep.result_eq (hstep : TaskStep I k k' e r) (hset : Settled k) (h : Traced I k history)
    {i : Slot} (hi : k'.currentTaskIndex = some i) (hne : k.currentTaskIndex ≠ some i) :
    (k'.tasks i).pid = (k.tasks i).pid ∧
      r = (lastEsp history (k.tasks i).pid).getD (initialFrame I i) ∧
      (Visited history (k.tasks i).pid ↔ (lastEsp history (k.tasks i).pid).isSome = true) := by
  cases hstep with
  | still _ hcur => exact absurd (hcur ▸ hi) hne
  | created _ _ _ _ _ _ _ hcur => exact absurd (hcur ▸ hi) hne
  | woken _ _ _ hcur => exact absurd (hcur ▸ hi) hne
  | switched leave esp result _ _ _ hr hres =>
    -- the task switched to could run
    have hgo : ∀ j, runnable (k.tasks j).state = true → j = i → result = (k.tasks j).savedEsp →
        r = (lastEsp history (k.tasks i).pid).getD (initialFrame I i) ∧
          (Visited history (k.tasks i).pid ↔ (lastEsp history (k.tasks i).pid).isSome = true) := by
      rintro j hj rfl hres'
      have hu : (k.tasks j).state ≠ .unused := fun hu => by
        rw [hu] at hj
        cases hj
      refine ⟨?_, h.left j hu hne⟩
      rw [hr, hres', h.savedEsp j hu hne]
    cases hres with
    | first _ hcur' htasks =>
      obtain rfl := Option.some.inj (hcur'.symm.trans hi)
      exact ⟨by rw [htasks, Function.update_self], hgo 0 hset.idle rfl rfl⟩
    | stay c hcur hcur' => exact absurd (hcur.trans (hcur'.symm.trans hi)) hne
    | switch c n _ hcur' _ hrun htasks =>
      obtain rfl := Option.some.inj (hcur'.symm.trans hi)
      exact ⟨by rw [htasks, Function.update_self], hgo n hrun rfl rfl⟩

/-! ## Waiting -/

/-- How many places the table has up to a task. -/
def waits (k : Kernel) (i : Slot) : Nat := k.currentTaskIndex.elim MAX_TASKS fun c => dist c i

theorem waits_pos (k : Kernel) (i : Slot) : 0 < waits k i := by
  unfold waits
  cases k.currentTaskIndex with
  | none => exact Nat.succ_pos _
  | some c => exact dist_pos c i

theorem waits_le (k : Kernel) (i : Slot) : waits k i ≤ MAX_TASKS := by
  unfold waits
  cases k.currentTaskIndex with
  | none => exact le_rfl
  | some c => exact dist_le c i

/-- The step switches to a slot. -/
def Step.switchesTo (s : Step) (i : Slot) : Prop :=
  s.before.currentTaskIndex ≠ some i ∧ s.after.currentTaskIndex = some i

/-- A ready task is switched to, or stays ready and is closer after a switching call. -/
theorem TaskStep.waits (hstep : TaskStep I k k' e r) (hset : Settled k) {i : Slot}
    (hi : (k.tasks i).state = .ready) :
    Step.switchesTo ⟨k, e, r, k'⟩ i ∨
      (k'.tasks i).state = .ready ∧ Os.waits k' i + e.switches.isSome.toNat ≤ Os.waits k i := by
  have hnot : k.currentTaskIndex ≠ some i := fun hcur => by
    rw [(hset.running i).mpr hcur] at hi
    cases hi
  have hsame : k'.currentTaskIndex = k.currentTaskIndex → e.switches = none →
      Os.waits k' i + e.switches.isSome.toNat ≤ Os.waits k i := fun hcur hs => by
    unfold Os.waits
    rw [hcur, hs]
    exact le_rfl
  cases hstep with
  | still htasks hcur _ hs => exact .inr ⟨by rw [htasks, hi], hsame hcur hs⟩
  | created slot task hfree htasks _ _ _ hcur _ _ hs =>
    refine .inr ⟨?_, hsame hcur hs⟩
    rw [htasks, Function.update_of_ne, hi]
    rintro rfl
    rcases hfree with hf | hf <;> rw [hf] at hi <;> cases hi
  | woken slot hblocked htasks hcur _ hs =>
    refine .inr ⟨?_, hsame hcur hs⟩
    rw [htasks, Function.update_of_ne, hi]
    rintro rfl
    rw [hblocked] at hi
    cases hi
  | switched leave esp result hs _ _ _ hres =>
    have hone : e.switches.isSome.toNat = 1 := by rw [hs]; rfl
    have hc : ∀ c, k.currentTaskIndex = some c → i ≠ c := fun c hcur heq => hnot (heq ▸ hcur)
    rw [hone]
    cases hres with
    | first hcur hcur' htasks =>
      by_cases h₀ : i = 0
      · exact .inl ⟨hnot, h₀ ▸ hcur'⟩
      · refine .inr ⟨by rw [htasks, Function.update_of_ne h₀, hi], ?_⟩
        unfold Os.waits
        rw [hcur, hcur', Option.elim_none, Option.elim_some]
        have hlt := i.isLt
        have hpos : 0 < i.val := Nat.pos_of_ne_zero fun h => h₀ (Fin.ext h)
        have hdist : dist 0 i = i.val := if_pos hpos
        rw [hdist]
        exact hlt
    | stay c hcur _ _ _ hother =>
      have hstop := hother i (hc c hcur)
      rw [hi] at hstop
      cases hstop
    | switch c n hcur hcur' _ _ htasks hcloser =>
      by_cases hn : i = n
      · exact .inl ⟨hnot, hn ▸ hcur'⟩
      · refine .inr ⟨by rw [htasks, Function.update_of_ne hn, Function.update_of_ne (hc c hcur), hi], ?_⟩
        unfold Os.waits
        rw [hcur, hcur', Option.elim_some, Option.elim_some]
        exact hcloser i (hc c hcur) hn (by rw [hi]; rfl)

end

/-! ## Runs -/

section
variable {I : KernelImage} {k : Kernel} {history : List Step}

theorem boot_pids (bytes : WordMemory) : Pids (boot I bytes) [] := by
  obtain ⟨b, -, he⟩ := boot_eq I bytes
  have hzero : ∀ i, ((boot I bytes).tasks i).state ≠ .unused → i = 0 := fun i hi => by
    by_contra hne
    rw [he] at hi
    dsimp only at hi
    rw [Function.update_of_ne hne] at hi
    exact hi rfl
  have hpid : ((boot I bytes).tasks 0).pid = 1 := by
    rw [he]
    dsimp only
    rw [Function.update_self]
  have hnext : (boot I bytes).nextPid = 2 := by rw [he]
  refine ⟨hnext, fun pid hp => ?_, List.nodup_singleton 1, fun i hi => ?_, fun i j hi hj _ => ?_, nofun⟩
  · rw [List.mem_singleton.mp hp, hnext]
    decide
  · rw [hzero i hi, hpid]
    exact List.mem_singleton_self 1
  · rw [hzero i hi, hzero j hj]

theorem boot_traced (bytes : WordMemory) : Traced I (boot I bytes) [] := by
  obtain ⟨b, -, he⟩ := boot_eq I bytes
  have hnone : ∀ pid, ¬ Visited [] pid := fun _ h => by
    obtain ⟨s, hs, -⟩ := h
    exact absurd hs List.not_mem_nil
  refine ⟨fun i hi _ => ?_, fun i _ _ => iff_of_false (hnone _) nofun, fun i hi => ?_, fun pid h => ?_⟩
  · rw [he] at hi ⊢
    dsimp only at hi ⊢
    by_cases h₀ : i = 0
    · rw [h₀, Function.update_self]
      rfl
    · rw [Function.update_of_ne h₀] at hi
      exact absurd rfl hi
  · rw [he] at hi
    cases hi
  · rcases h with h | h
    · exact absurd h (hnone pid)
    · cases h

/-- The run up to a step. -/
theorem Run.cons_inv {s : Step} (h : Run I k (s :: history)) :
    Run I s.before history ∧ s.before.step I s.event = some (s.result, s.after) ∧ s.after = k := by
  cases h with
  | step h _ hs => exact ⟨h, hs, rfl⟩

theorem Run.of_append {newer : List Step} (h : Run I k (newer ++ history)) :
    ∃ k₀, Run I k₀ history := by
  induction newer generalizing k with
  | nil => exact ⟨k, h⟩
  | cons s newer ih => exact ih h.cons_inv.1

/-- The table of a run whose idle task stays. -/
theorem Run.settled (h : Run I k history) (hidle : ∀ s ∈ history, s.idleStays) : Settled k := by
  induction h with
  | boot bytes => exact boot_settled bytes
  | step h _ hs ih =>
    have hset := ih fun s hs => hidle s (List.mem_cons_of_mem _ hs)
    exact (step_taskStep h.inv hset (hidle _ (List.mem_cons_self ..)) hs).settled hset

/-- The newest step of such a run. -/
theorem Run.taskStep {s : Step} (h : Run I k (s :: history))
    (hidle : ∀ s' ∈ s :: history, s'.idleStays) :
    Settled s.before ∧ TaskStep I s.before s.after s.event s.result := by
  obtain ⟨hbefore, hs, -⟩ := h.cons_inv
  have hset := hbefore.settled fun s' hs' => hidle s' (List.mem_cons_of_mem _ hs')
  exact ⟨hset, step_taskStep hbefore.inv hset (hidle s (List.mem_cons_self ..)) hs⟩

theorem Run.pids_traced (h : Run I k history) (hidle : ∀ s ∈ history, s.idleStays)
    (hfew : FewTasks history) : Pids k history ∧ Traced I k history := by
  induction h with
  | boot bytes => exact ⟨boot_pids bytes, boot_traced bytes⟩
  | step h ha hs ih =>
    obtain ⟨hp, ht⟩ := ih (fun s hs => hidle s (List.mem_cons_of_mem _ hs)) hfew.of_cons
    obtain ⟨hset, hstep⟩ := (Run.step h ha hs).taskStep hidle
    exact ⟨hstep.pids hset hp hfew, hstep.traced hset hp hfew ht⟩

/-- A ready task is switched to, or has waited for each switching call. -/
theorem Run.waits {newer : List Step} {s : Step} (h : Run I k (newer ++ s :: history))
    (hidle : ∀ s' ∈ newer ++ s :: history, s'.idleStays) {i : Slot}
    (hi : (s.before.tasks i).state = .ready) :
    (∃ s' ∈ newer ++ [s], s'.switchesTo i) ∨
      (k.tasks i).state = .ready ∧
        Os.waits k i + (newer ++ [s]).countP (fun s' => s'.event.switches.isSome) ≤
          Os.waits s.before i := by
  induction newer generalizing k with
  | nil =>
    obtain ⟨hset, hstep⟩ := Run.taskStep h hidle
    obtain ⟨-, -, rfl⟩ := Run.cons_inv h
    rcases hstep.waits hset hi with hto | ⟨hready, hle⟩
    · exact .inl ⟨s, List.mem_cons_self .., hto⟩
    · refine .inr ⟨hready, le_of_eq_of_le ?_ hle⟩
      rw [List.nil_append, List.countP_singleton]
      cases s.event.switches <;> rfl
  | cons s' newer ih =>
    obtain ⟨hset, hstep⟩ := Run.taskStep h hidle
    obtain ⟨hbefore, -, rfl⟩ := Run.cons_inv h
    rcases ih hbefore fun t ht => hidle t (List.mem_cons_of_mem _ ht) with ⟨t, ht, hto⟩ | ⟨hready, hle⟩
    · exact .inl ⟨t, List.mem_cons_of_mem _ ht, hto⟩
    · rcases hstep.waits hset hready with hto | ⟨hready', hle'⟩
      · exact .inl ⟨s', List.mem_cons_self .., hto⟩
      · refine .inr ⟨hready', ?_⟩
        have hcount : (s' :: newer ++ [s]).countP (fun s' => s'.event.switches.isSome) =
            (newer ++ [s]).countP (fun s' => s'.event.switches.isSome) +
              s'.event.switches.isSome.toNat := by
          rw [List.cons_append, List.countP_cons]
          cases s'.event.switches <;> rfl
        omega

/-- A pid that no living task has is not unblocked. -/
theorem scheduler_unblock_eq_self {pid : Nat}
    (h : ∀ j, (k.tasks j).pid = pid → alive (k.tasks j).state = false) :
    scheduler_unblock k pid = k := by
  have hnone : indexForPid k pid = none := by
    refine List.find?_eq_none.mpr fun i _ hi => ?_
    rw [Bool.and_eq_true, beq_iff_eq] at hi
    have hdead := h i hi.1
    unfold alive runnable at hdead
    rw [hdead] at hi
    exact Bool.false_ne_true hi.2
  unfold scheduler_unblock
  rw [hnone]

/-- What holds of the tasks after a run. -/
structure Lifecycle (I : KernelImage) (k : Kernel) (history : List Step) : Prop where
  /-- The pids of occupied slots are pairwise distinct. -/
  distinct : ∀ i j, (k.tasks i).state ≠ .unused → (k.tasks j).state ≠ .unused →
    (k.tasks i).pid = (k.tasks j).pid → i = j
  /-- They were issued, and no pid was issued twice. -/
  occupied : ∀ i, (k.tasks i).state ≠ .unused → (k.tasks i).pid ∈ issued history
  nodup : (issued history).Nodup
  /-- The pid of a task that was dead is not alive again, and cannot be unblocked. -/
  dead : ∀ s ∈ history, ∀ i, (s.after.tasks i).state = .dead →
    (∀ j, (k.tasks j).pid = (s.after.tasks i).pid → alive (k.tasks j).state = false) ∧
      scheduler_unblock k (s.after.tasks i).pid = k
  running : ∀ i, (k.tasks i).state = .running ↔ k.currentTaskIndex = some i
  /-- A switch returns the prepared frame the first time, then where the task was left. -/
  switched : ∀ newer s older, history = newer ++ s :: older → ∀ i, s.switchesTo i →
    (¬ Visited older (s.after.tasks i).pid → s.result = initialFrame I i) ∧
    (Visited older (s.after.tasks i).pid →
      ∃ esp, lastEsp older (s.after.tasks i).pid = some esp ∧ s.result = esp)
  /-- Of `MAX_TASKS` switching calls from where a task is ready, one switches to it. -/
  fair : ∀ newer s older, history = newer ++ s :: older → ∀ i, (s.before.tasks i).state = .ready →
    MAX_TASKS ≤ (newer ++ [s]).countP (fun s' => s'.event.switches.isSome) →
    ∃ s' ∈ newer ++ [s], s'.switchesTo i

theorem Run.lifecycle (h : Run I k history) (hidle : ∀ s ∈ history, s.idleStays)
    (hfew : FewTasks history) : Lifecycle I k history := by
  obtain ⟨hp, -⟩ := h.pids_traced hidle hfew
  refine ⟨hp.distinct, hp.occupied, hp.nodup, fun s hs i hdead => ?_, (h.settled hidle).running,
    fun newer s older he i hi => ?_, fun newer s older he i hi hmany => ?_⟩
  · have hnot := (hp.dead s hs i hdead).2
    exact ⟨hnot, scheduler_unblock_eq_self hnot⟩
  · subst he
    obtain ⟨k₀, hrun⟩ := h.of_append
    have hidle' : ∀ s' ∈ s :: older, s'.idleStays := fun s' hs' =>
      hidle s' (List.mem_append_right _ hs')
    obtain ⟨hset, hstep⟩ := hrun.taskStep hidle'
    obtain ⟨hbefore, -⟩ := hrun.cons_inv
    have hfew' : FewTasks older := by
      unfold FewTasks at hfew ⊢
      rw [List.filterMap_append, List.length_append] at hfew
      have := (List.sublist_cons_self s older).filterMap Step.issued |>.length_le
      omega
    obtain ⟨-, ht⟩ := hbefore.pids_traced (fun s' hs' => hidle' s' (List.mem_cons_of_mem _ hs')) hfew'
    obtain ⟨hpid, hresult, hleft⟩ := hstep.result_eq hset ht hi.2 hi.1
    rw [hpid, hresult, hleft]
    cases lastEsp older (s.before.tasks i).pid with
    | none => exact ⟨fun _ => rfl, nofun⟩
    | some esp => exact ⟨fun hn => absurd rfl hn, fun _ => ⟨esp, rfl, rfl⟩⟩
  · subst he
    rcases h.waits hidle hi with hto | ⟨-, hle⟩
    · exact hto
    · have h₁ := waits_pos k i
      have h₂ := waits_le s.before i
      omega

end

/-- A task is created, and switched to from the idle task. -/
theorem Run.lifecycle_two_ticks : ∃ k history,
    history.map Step.event = [.timerTick 4096, .createTask 0x108000, .timerTick 0] ∧
      Lifecycle smallImage k history := by
  refine ⟨_, _, rfl, Run.lifecycle (.step (e := .timerTick 4096)
    (.step (e := .createTask 0x108000) (.step (e := .timerTick 0) (.boot fun _ => 0) trivial rfl)
      trivial rfl) trivial rfl)
    (fun s hs leave esp he hleave => ?_) ((List.length_filterMap_le ..).trans_lt (by decide))⟩
  rcases List.mem_cons.mp hs with rfl | hs
  · cases he
    exact absurd rfl hleave
  rcases List.mem_cons.mp hs with rfl | hs
  · cases he
  rcases List.mem_singleton.mp hs with rfl
  cases he
  exact absurd rfl hleave

end Os
end Techuila
