import Techuila.Lib.RoundRobin
import Techuila.Os.Machine

/-!
# The life of tasks

* `Rescheduled`: what a call that ends in `scheduler_on_timer_tick` does to the table.
* `Settled`: what holds of the table between steps where the idle task stays.
* `TaskStep`, `step_taskStep`: what each step does to the tasks.
-/

namespace Techuila
namespace Os

open RoundRobin (dist)

/-! ## Switching -/

/-- The calls that end in `scheduler_on_timer_tick`: what they set the state of the current task to, and the
stack pointer. -/
def Event.switches : Event → Option (Option ProcessState × Nat)
  | .timerTick esp | .yield esp => some (none, esp)
  | .exit esp | .terminateCurrent esp => some (some .dead, esp)
  | .blockSelf esp => some (some .blocked, esp)
  | _ => none

/-- The effect of such a call, with the stack pointer that it returns. -/
inductive Rescheduled (k k' : Kernel) (leave : Option ProcessState) (esp : Nat) : Nat → Prop where
  | first : k.currentTaskIndex = none → k'.currentTaskIndex = some 0 →
      k'.tasks = Function.update k.tasks 0 { k.tasks 0 with state := .running } →
      Rescheduled k k' leave esp (k.tasks 0).savedEsp
  | stay (c : Slot) : k.currentTaskIndex = some c → k'.currentTaskIndex = some c → leave = none →
      k'.tasks = Function.update k.tasks c { k.tasks c with savedEsp := esp } →
      (∀ i ≠ c, runnable (k.tasks i).state = false) → Rescheduled k k' leave esp esp
  | switch (c n : Slot) : k.currentTaskIndex = some c → k'.currentTaskIndex = some n → n ≠ c →
      runnable (k.tasks n).state = true →
      k'.tasks = Function.update (Function.update k.tasks c
          { k.tasks c with state := leave.getD .ready, savedEsp := esp })
        n { k.tasks n with state := .running } →
      (∀ i, i ≠ c → i ≠ n → runnable (k.tasks i).state = true → dist n i < dist c i) →
      Rescheduled k k' leave esp (k.tasks n).savedEsp

/-- The table when a call leaves the current task. -/
def Kernel.leaving (k : Kernel) (leave : Option ProcessState) : Kernel :=
  match leave with
  | none => k
  | some state => k.setCurrentState state

section
variable {I : KernelImage} {k k' : Kernel}

theorem step_switches {e : Event} {leave : Option ProcessState} {esp : Nat}
    (h : e.switches = some (leave, esp)) {r : Int} (hs : k.step I e = some (r, k')) :
    r = ((scheduler_on_timer_tick I (k.leaving leave) esp).1 : Int) ∧
      k' = (scheduler_on_timer_tick I (k.leaving leave) esp).2 := by
  cases e <;> cases h <;> cases hs <;> exact ⟨rfl, rfl⟩

theorem pickNext_eq (k : Kernel) (c : Slot) :
    pickNext k c = RoundRobin.next (fun i => runnable (k.tasks i).state) c := rfl

/-- A switch from the current task to another one. -/
theorem switchTo_of_ne {c n : Slot} (hcur : k.currentTaskIndex = some c) (hn : n ≠ c) :
    (switchTo I k n).1 = (k.tasks n).savedEsp ∧ (switchTo I k n).2.currentTaskIndex = some n ∧
      (switchTo I k n).2.tasks = Function.update (Function.update k.tasks c { k.tasks c with
          state := if (k.tasks c).state = .running then .ready else (k.tasks c).state })
        n { k.tasks n with state := .running } := by
  obtain ⟨k₁, hk₁⟩ : ∃ k₁, k₁ = k.setTask c fun task => { task with
      state := if (k.tasks c).state = .running then .ready else (k.tasks c).state } := ⟨_, rfl⟩
  have hleft : preempt k = k₁ := by
    unfold preempt
    rw [hcur, hk₁]
    dsimp only
    split
    · rfl
    · unfold Kernel.setTask
      rw [Function.update_eq_self]
  have hn₁ : k₁.tasks n = k.tasks n := by
    rw [hk₁, Kernel.setTask_of_ne hn]
  unfold switchTo
  rw [hleft]
  dsimp only
  rw [Kernel.setTask_same, hn₁]
  refine ⟨rfl, rfl, ?_⟩
  show Function.update k₁.tasks n { k₁.tasks n with state := .running } = _
  rw [hn₁, hk₁]
  rfl

/-- No task has run yet. -/
theorem Rescheduled.of_none {leave : Option ProcessState} (hcur : k.currentTaskIndex = none)
    (esp : Nat) : Rescheduled k (scheduler_on_timer_tick I (k.leaving leave) esp).2 leave esp
      (scheduler_on_timer_tick I (k.leaving leave) esp).1 := by
  have hk : k.leaving leave = k := by
    unfold Kernel.leaving Kernel.setCurrentState
    rw [hcur]
    cases leave <;> rfl
  rw [hk]
  unfold scheduler_on_timer_tick
  rw [hcur]
  dsimp only
  have hpreempt : preempt k = k := by
    unfold preempt
    rw [hcur]
  unfold switchTo
  rw [hpreempt]
  have hresult : ((k.setTask 0 fun task => { task with state := .running }).tasks 0).savedEsp =
      (k.tasks 0).savedEsp := by rw [Kernel.setTask_same]
  dsimp only
  rw [hresult]
  exact .first hcur rfl rfl

/-- The table when `pickNext` looks at it. -/
theorem leaving_saved {c : Slot} (hcur : k.currentTaskIndex = some c)
    (hrunning : (k.tasks c).state = .running) (leave : Option ProcessState) (esp : Nat) :
    (k.leaving leave).currentTaskIndex = some c ∧
      ((k.leaving leave).setTask c fun task => { task with savedEsp := esp }).currentTaskIndex =
        some c ∧
      ((k.leaving leave).setTask c fun task => { task with savedEsp := esp }).tasks =
        Function.update k.tasks c
          { k.tasks c with state := leave.getD .running, savedEsp := esp } := by
  cases leave with
  | none =>
    refine ⟨hcur, hcur, ?_⟩
    show Function.update k.tasks c _ = _
    congr 1
    rw [Option.getD_none, ← hrunning]
    rfl
  | some state =>
    have hset : k.leaving (some state) = k.setTask c fun task => { task with state := state } := by
      unfold Kernel.leaving Kernel.setCurrentState
      rw [hcur]
    rw [hset]
    refine ⟨hcur, hcur, ?_⟩
    unfold Kernel.setTask
    dsimp only
    rw [Function.update_idem, Function.update_self]
    rfl

/-- The current task runs, and where it stops there is another one that can. -/
theorem scheduler_on_timer_tick_rescheduled {leave : Option ProcessState}
    (hleave : ∀ state ∈ leave, runnable state = false)
    (hrun : ∀ c ∈ k.currentTaskIndex, (k.tasks c).state = .running)
    (hother : ∀ c ∈ k.currentTaskIndex, leave ≠ none → ∃ j ≠ c, runnable (k.tasks j).state = true)
    (esp : Nat) :
    Rescheduled k (scheduler_on_timer_tick I (k.leaving leave) esp).2 leave esp
      (scheduler_on_timer_tick I (k.leaving leave) esp).1 := by
  cases hcur : k.currentTaskIndex with
  | none => exact .of_none hcur esp
  | some c =>
    have hrunning := hrun c hcur
    let t : Task := { k.tasks c with state := leave.getD .running, savedEsp := esp }
    obtain ⟨k₂, hk₂⟩ : ∃ k₂, k₂ =
        (k.leaving leave).setTask c fun task => { task with savedEsp := esp } := ⟨_, rfl⟩
    obtain ⟨hcur₁, hcur₂, htasks⟩ := leaving_saved hcur hrunning leave esp
    rw [← hk₂] at hcur₂ htasks
    have htasks : k₂.tasks = Function.update k.tasks c t := htasks
    have hstate : ∀ i ≠ c, (k₂.tasks i).state = (k.tasks i).state := fun i hi => by
      rw [htasks, Function.update_of_ne hi]
    have hcstate : (k₂.tasks c).state = leave.getD .running := by
      rw [htasks, Function.update_self]
    unfold scheduler_on_timer_tick
    rw [hcur₁]
    dsimp only
    rw [← hk₂, pickNext_eq]
    -- some task can run: the current one, or the other one where it stops
    have hsome : ∃ j, runnable (k₂.tasks j).state = true := by
      cases hl : leave with
      | none => exact ⟨c, by rw [hcstate, hl]; rfl⟩
      | some state =>
        obtain ⟨j, hj, hrunj⟩ := hother c hcur (by rw [hl]; exact Option.some_ne_none _)
        exact ⟨j, by rw [hstate j hj]; exact hrunj⟩
    obtain ⟨j, hj⟩ := hsome
    obtain ⟨n, hnext⟩ := RoundRobin.next_isSome (p := fun i => runnable (k₂.tasks i).state) c hj
    obtain ⟨hrunn, hclosest⟩ := RoundRobin.next_eq_some hnext
    rw [hnext]
    dsimp only
    by_cases hn : n = c
    · rw [if_pos hn]
      subst hn
      have hnone : leave = none := by
        cases hl : leave with
        | none => rfl
        | some state =>
          have hstop := hleave state (by rw [hl]; rfl)
          rw [hcstate, hl, Option.getD_some, hstop] at hrunn
          cases hrunn
      refine .stay n hcur hcur₂ hnone ?_ fun i hi => ?_
      · rw [htasks, show t = { k.tasks n with state := leave.getD .running, savedEsp := esp } from rfl,
          hnone, Option.getD_none, ← hrunning]
      · by_contra hcon
        rw [Bool.not_eq_false] at hcon
        have hlt := RoundRobin.dist_next_lt hnext (i := i) (by rw [hstate i hi]; exact hcon) hi
        exact lt_irrefl _ hlt
    · rw [if_neg hn]
      obtain ⟨h₁, h₂, h₃⟩ := switchTo_of_ne (I := I) hcur₂ hn
      have hntask : k₂.tasks n = k.tasks n := by
        rw [htasks, Function.update_of_ne hn]
      have hctask : k₂.tasks c = t := by
        rw [htasks, Function.update_self]
      rw [h₁, hntask]
      refine .switch c n hcur h₂ hn (hntask ▸ hrunn) ?_ fun i hic hin hi => ?_
      · have hstopped : (if t.state = .running then ProcessState.ready else t.state) =
            leave.getD .ready := by
          cases leave with
          | none => rfl
          | some state =>
            refine if_neg fun he => ?_
            have hstop := hleave state rfl
            rw [show state = .running from he] at hstop
            cases hstop
        rw [h₃, hntask, hctask, htasks, Function.update_idem, hstopped]
      · exact RoundRobin.dist_next_lt hnext (i := i) (by rw [hstate i hic]; exact hi) hin

end

/-! ## One step -/

/-- Between steps: the current task runs and no other one does, and the idle task can run. -/
structure Settled (k : Kernel) : Prop where
  running : ∀ i, (k.tasks i).state = .running ↔ k.currentTaskIndex = some i
  idle : runnable (k.tasks 0).state = true

/-- The idle task neither blocks nor dies. -/
def Step.idleStays (s : Step) : Prop :=
  ∀ leave esp, s.event.switches = some (leave, esp) → leave ≠ none →
    s.before.currentTaskIndex ≠ some 0

/-- What a step does to the table, to what is current and to the pids. -/
inductive TaskStep (I : KernelImage) (k k' : Kernel) (e : Event) (r : Int) : Prop where
  | still : k'.tasks = k.tasks → k'.currentTaskIndex = k.currentTaskIndex →
      k'.nextPid = k.nextPid → e.switches = none → (e.creates = true → r = -1) →
      TaskStep I k k' e r
  | created (slot : Slot) (task : Task) :
      (k.tasks slot).state = .unused ∨ (k.tasks slot).state = .dead →
      k'.tasks = Function.update k.tasks slot task → task.pid = k.nextPid → task.state = .ready →
      task.savedEsp = initialFrame I slot → k'.currentTaskIndex = k.currentTaskIndex →
      k'.nextPid = add32 k.nextPid 1 → e.creates = true → e.switches = none →
      r = toInt32 k.nextPid → TaskStep I k k' e r
  | woken (slot : Slot) : (k.tasks slot).state = .blocked →
      k'.tasks = Function.update k.tasks slot { k.tasks slot with state := .ready } →
      k'.currentTaskIndex = k.currentTaskIndex → k'.nextPid = k.nextPid → e.switches = none →
      e.creates = false → TaskStep I k k' e r
  | switched (leave : Option ProcessState) (esp result : Nat) : e.switches = some (leave, esp) →
      (leave = none ∨ leave = some .dead ∨ leave = some .blocked) →
      (leave ≠ none → k.currentTaskIndex ≠ some 0) → r = result →
      Rescheduled k k' leave esp result → k'.nextPid = k.nextPid → e.creates = false →
      TaskStep I k k' e r

section
variable {I : KernelImage} {k k' : Kernel}

theorem NotCreated.taskStep {e : Event} {r : Int} (h : NotCreated k k') (hs : e.switches = none)
    (hr : r = -1) : TaskStep I k k' e r := by
  obtain ⟨m, rfl, -⟩ := h
  exact .still rfl rfl rfl hs fun _ => hr

theorem Created.taskStep {slot : Slot} {m₁ m₂ : Memory} {held : List Nat} {b : WordMemory}
    {task : Task} (h : Created I k k' slot m₁ m₂ held b task) {e : Event} {r : Int}
    (hc : e.creates = true) (hs : e.switches = none) (hr : r = toInt32 k.nextPid) :
    TaskStep I k k' e r := by
  obtain rfl := h.eq
  exact .created slot task h.free rfl h.pid h.state h.savedEsp rfl rfl hc hs hr

theorem scheduler_unblock_taskStep (pid : Nat) :
    TaskStep I k (scheduler_unblock k pid) (.unblock pid) 0 := by
  unfold scheduler_unblock
  split
  · exact .still rfl rfl rfl rfl nofun
  · split
    · rename_i hblocked
      exact .woken _ hblocked rfl rfl rfl rfl rfl
    · exact .still rfl rfl rfl rfl nofun

/-- The switching calls. -/
theorem switches_taskStep (hset : Settled k) {e : Event} {leave : Option ProcessState} {esp : Nat}
    (he : e.switches = some (leave, esp)) (hidle : leave ≠ none → k.currentTaskIndex ≠ some 0)
    {r : Int} (hs : k.step I e = some (r, k')) : TaskStep I k k' e r := by
  obtain ⟨rfl, rfl⟩ := step_switches he hs
  have hleave : leave = none ∨ leave = some .dead ∨ leave = some .blocked := by
    cases e <;> cases he <;> simp
  have hcreates : e.creates = false := by
    cases e <;> cases he <;> rfl
  have hnext : (scheduler_on_timer_tick I (k.leaving leave) esp).2.nextPid = k.nextPid := by
    refine (scheduler_on_timer_tick_reschedules esp).nextPid.trans ?_
    cases leave with
    | none => rfl
    | some state => exact (Reschedules.setCurrentState state).nextPid
  have hres := scheduler_on_timer_tick_rescheduled (I := I) (k := k)
    (fun state hstate => by rcases hleave with rfl | rfl | rfl <;> cases hstate <;> rfl)
    (fun c hc => (hset.running c).mpr hc)
    (fun c hc hne => ⟨0, fun h => hidle hne (h ▸ hc), hset.idle⟩) esp
  exact .switched leave esp _ he hleave hidle rfl hres hnext hcreates

/-- What each step does to the tasks. -/
theorem step_taskStep (hi : Inv I k) (hset : Settled k) {e : Event} {r : Int}
    (hidle : Step.idleStays ⟨k, e, r, k'⟩) (hs : k.step I e = some (r, k')) :
    TaskStep I k k' e r := by
  cases he : e.switches with
  | some p => exact switches_taskStep hset he (hidle p.1 p.2 he) hs
  | none =>
    have hcreates : e.creates = true → TaskStep I k k' e r := fun hc => by
      rcases step_creates hi hc hs with ⟨hr, hn, -⟩ | ⟨hr, ⟨slot, m₁, m₂, held, b, task, hcr⟩, -⟩
      · exact hn.taskStep he hr
      · exact hcr.taskStep hc he hr
    cases e with
    | createTask | createUserTask | createElfUserTask => exact hcreates rfl
    | growHeap =>
      rw [Kernel.step, Option.some.injEq, Prod.mk.injEq] at hs
      obtain ⟨-, hk⟩ := hs
      have hgrow : k.growHeap.2.tasks = k.tasks ∧
          k.growHeap.2.currentTaskIndex = k.currentTaskIndex ∧ k.growHeap.2.nextPid = k.nextPid := by
        unfold Kernel.growHeap
        split
        split <;> exact ⟨rfl, rfl, rfl⟩
      rw [hk] at hgrow
      exact .still hgrow.1 hgrow.2.1 hgrow.2.2 rfl fun hc => absurd hc Bool.false_ne_true
    | unblock pid =>
      cases hs
      exact scheduler_unblock_taskStep pid
    | write address byte =>
      cases hs
      exact .still rfl rfl rfl rfl fun hc => absurd hc Bool.false_ne_true
    | _ => cases he

/-- The current task is not in a free slot. -/
theorem Settled.not_current (h : Settled k) {i : Slot} (hi : runnable (k.tasks i).state = false) :
    k.currentTaskIndex ≠ some i := fun hcur => by
  rw [(h.running i).mpr hcur] at hi
  cases hi

theorem TaskStep.settled {e : Event} {r : Int} (hs : TaskStep I k k' e r) (h : Settled k) :
    Settled k' := by
  cases hs with
  | still htasks hcur =>
    refine ⟨fun i => ?_, ?_⟩
    · rw [htasks, hcur]
      exact h.running i
    · rw [htasks]
      exact h.idle
  | created slot task hfree htasks _ hstate _ hcur =>
    have hstopped : runnable (k.tasks slot).state = false := by
      rcases hfree with hf | hf <;> rw [hf] <;> rfl
    refine ⟨fun i => ?_, ?_⟩
    · rw [htasks, hcur]
      by_cases hi : i = slot
      · rw [hi, Function.update_self, hstate]
        exact iff_of_false nofun (h.not_current hstopped)
      · rw [Function.update_of_ne hi]
        exact h.running i
    · rw [htasks, Function.update_of_ne]
      · exact h.idle
      · rintro rfl
        rw [h.idle] at hstopped
        cases hstopped
  | woken slot hblocked htasks hcur =>
    have hstopped : runnable (k.tasks slot).state = false := by
      rw [hblocked]
      rfl
    refine ⟨fun i => ?_, ?_⟩
    · rw [htasks, hcur]
      by_cases hi : i = slot
      · rw [hi, Function.update_self]
        exact iff_of_false nofun (h.not_current hstopped)
      · rw [Function.update_of_ne hi]
        exact h.running i
    · rw [htasks]
      by_cases hi : 0 = slot
      · rw [hi, Function.update_self]
        rfl
      · rw [Function.update_of_ne hi]
        exact h.idle
  | switched leave esp result _ hleave hidle _ hres =>
    cases hres with
    | first hcur hcur' htasks =>
      refine ⟨fun i => ?_, ?_⟩
      · rw [htasks, hcur', Option.some.injEq]
        by_cases hi : i = 0
        · rw [hi, Function.update_self]
          exact iff_of_true rfl rfl
        · rw [Function.update_of_ne hi, h.running i, hcur]
          exact iff_of_false nofun (Ne.symm hi)
      · rw [htasks, Function.update_self]
        rfl
    | stay c hcur hcur' _ htasks _ =>
      have hstate : ∀ i, (k'.tasks i).state = (k.tasks i).state := fun i => by
        rw [htasks]
        by_cases hi : i = c
        · rw [hi, Function.update_self]
        · rw [Function.update_of_ne hi]
      refine ⟨fun i => ?_, ?_⟩
      · rw [hstate, hcur', ← hcur]
        exact h.running i
      · rw [hstate]
        exact h.idle
    | switch c n hcur hcur' hn _ htasks _ =>
      refine ⟨fun i => ?_, ?_⟩
      · rw [htasks, hcur', Option.some.injEq]
        by_cases hi : i = n
        · rw [hi, Function.update_self]
          exact iff_of_true rfl rfl
        rw [Function.update_of_ne hi]
        refine iff_of_false ?_ (Ne.symm hi)
        by_cases hc : i = c
        · rw [hc, Function.update_self]
          rcases hleave with rfl | rfl | rfl <;> exact nofun
        · rw [Function.update_of_ne hc, h.running i, hcur]
          exact fun he => hc (Option.some.inj he).symm
      · rw [htasks]
        by_cases hi : 0 = n
        · rw [hi, Function.update_self]
          rfl
        rw [Function.update_of_ne hi]
        by_cases hc : 0 = c
        · rw [← hc, Function.update_self]
          have hnone : leave = none := by
            by_contra hne
            exact hidle hne (hc ▸ hcur)
          rw [hnone]
          rfl
        · rw [Function.update_of_ne hc]
          exact h.idle

theorem boot_settled (bytes : WordMemory) : Settled (boot I bytes) := by
  obtain ⟨b, -, he⟩ := boot_eq I bytes
  rw [he]
  refine ⟨fun i => iff_of_false ?_ nofun, ?_⟩
  · dsimp only
    by_cases hi : i = 0
    · rw [hi, Function.update_self]
      exact nofun
    · rw [Function.update_of_ne hi]
      exact nofun
  · dsimp only
    rw [Function.update_self]
    rfl

end

end Os
end Techuila
