import Techuila.Os.TaskRuns

/-!
# Task creation under preemption (`22-os/scheduler/scheduler.cpp`)

`scheduler_create_task` statement by statement, on one CPU whose timer may tick between any two of
them.

* `CreateAt`, `statement`: where a call stands, and what its next statement does.
* `Statements.create`: a call that nothing interrupts does what `scheduler_create_task` does.
* `Machine`: the kernel, the calls in progress, and a record of what they have done.
* `Undisturbed`: no switch to a task whose frame is not complete, and no pid written over a task that
  is alive or that another call is writing.
-/

namespace Techuila
namespace Os

/-! ## Statements -/

/-- Where `reclaimSlot` stands. -/
inductive ReclaimAt where
  | testCode
  | freeCode
  | clearCode
  | testStack
  | freeStack
  | clearStack
  | testElf (i : Nat)
  | freeElf (i : Nat)
  | clearElf (i : Nat)
  | clearCount
  | testSpace
  | destroySpace
  | clearUser
  | setSpace

/-- Where a call of `scheduler_create_task` stands: at its next statement. The fields are those of the
frame that are still to be stored. -/
inductive CreateAt where
  | findSlot (wanted : ProcessState) (i : Nat)
  | reclaim (slot : Slot) (part : ReclaimAt)
  | takePid (slot : Slot)
  | writePid (slot : Slot) (pid : Nat)
  | writeReady (slot : Slot) (pid : Nat)
  | place (slot : Slot) (pid : Nat) (fields : List (Nat × Nat))
  | fill (slot : Slot) (pid : Nat) (fields : List (Nat × Nat))

open InterruptFrame in
/-- The fields that `placeInitialFrame` stores. -/
def placedFields : List (Nat × Nat) :=
  [(edi, 0), (esi, 0), (ebp, 0), (esp, 0), (ebx, 0), (edx, 0), (ecx, 0), (eax, 0),
    (interrupt_number, 32), (error_code, 0), (eflags, 0x202)]

open InterruptFrame in
/-- The fields that `prepareInitialFrame` adds. -/
def preparedFields (entry : Nat) : List (Nat × Nat) :=
  [(gs, KERNEL_DATA_SELECTOR), (fs, KERNEL_DATA_SELECTOR), (es, KERNEL_DATA_SELECTOR),
    (ds, KERNEL_DATA_SELECTOR), (eip, entry), (cs, KERNEL_CODE_SELECTOR)]

def Kernel.free (k : Kernel) (page : Nat) : Kernel := k.setMemory (memory_free_page k.memory page)

/-- The next statement of `reclaimSlot`, and where the call stands after it. -/
def reclaimStatement (I : KernelImage) (k : Kernel) (slot : Slot) :
    ReclaimAt → Kernel × Option ReclaimAt
  | .testCode => (k, some (if (k.tasks slot).userCodePage ≠ 0 then .freeCode else .testStack))
  | .freeCode => (k.free (k.tasks slot).userCodePage, some .clearCode)
  | .clearCode => (k.setTask slot fun task => { task with userCodePage := 0 }, some .testStack)
  | .testStack => (k, some (if (k.tasks slot).userStackPage ≠ 0 then .freeStack else .testElf 0))
  | .freeStack => (k.free (k.tasks slot).userStackPage, some .clearStack)
  | .clearStack => (k.setTask slot fun task => { task with userStackPage := 0 }, some (.testElf 0))
  | .testElf i =>
    (k, some (if i < (k.tasks slot).elfPages.length then .freeElf i else .clearCount))
  | .freeElf i => (k.free ((k.tasks slot).elfPages.getD i 0), some (.clearElf i))
  | .clearElf i =>
    (k.setTask slot fun task => { task with elfPages := task.elfPages.set i 0 },
      some (.testElf (i + 1)))
  | .clearCount => (k.setTask slot fun task => { task with elfPages := [] }, some .testSpace)
  | .testSpace =>
    (k, some (if (k.tasks slot).isUser && (k.tasks slot).addressSpace ≠ 0 then .destroySpace
      else .clearUser))
  | .destroySpace =>
    (k.setMemory (paging_destroy_address_space I.toKernelLayout k.memory
      (k.tasks slot).addressSpace), some .clearUser)
  | .clearUser => (k.setTask slot fun task => { task with isUser := false }, some .setSpace)
  | .setSpace =>
    (k.setTask slot fun task =>
      { task with addressSpace := paging_kernel_address_space I.toKernelLayout }, none)

/-- The next statement of a call with its entry: where the call stands after it, or what it
returns. -/
def statement (I : KernelImage) (entry : Nat) (k : Kernel) : CreateAt → Kernel × (CreateAt ⊕ Int)
  | .findSlot wanted i =>
    if h : i < MAX_TASKS then
      if (k.tasks ⟨i, h⟩).state = wanted then (k, .inl (.reclaim ⟨i, h⟩ .testCode))
      else (k, .inl (.findSlot wanted (i + 1)))
    else if wanted = .unused then (k, .inl (.findSlot .dead 0))
    else (k, .inr (-1))
  | .reclaim slot part =>
    match reclaimStatement I k slot part with
    | (k, some part) => (k, .inl (.reclaim slot part))
    | (k, none) => (k, .inl (.takePid slot))
  | .takePid slot => ({ k with nextPid := add32 k.nextPid 1 }, .inl (.writePid slot k.nextPid))
  | .writePid slot pid =>
    (k.setTask slot fun task => { task with pid := pid }, .inl (.writeReady slot pid))
  | .writeReady slot pid =>
    (k.setTask slot fun task => { task with state := .ready }, .inl (.place slot pid placedFields))
  | .place slot pid (f :: fields) => (k.storeFrame I slot [f], .inl (.place slot pid fields))
  | .place slot pid [] =>
    (k.setTask slot fun task => { task with savedEsp := initialFrame I slot },
      .inl (.fill slot pid (preparedFields entry)))
  | .fill slot pid (f :: fields) => (k.storeFrame I slot [f], .inl (.fill slot pid fields))
  | .fill _ pid [] => (k, .inr (toInt32 pid))

/-! ## Calls that nothing interrupts -/

/-- A call from where it stands to its result, with no ticks. -/
inductive Statements (I : KernelImage) (entry : Nat) : Kernel → CreateAt → Int × Kernel → Prop where
  | return {k k' : Kernel} {pc : CreateAt} {result : Int} :
      statement I entry k pc = (k', .inr result) → Statements I entry k pc (result, k')
  | next {k k' : Kernel} {pc pc' : CreateAt} {out : Int × Kernel} :
      statement I entry k pc = (k', .inl pc') → Statements I entry k' pc' out →
      Statements I entry k pc out

namespace Statements

section
variable {I : KernelImage} {entry : Nat} {k : Kernel} {slot : Slot} {out : Int × Kernel}

theorem fill (pid : Nat) (fields : List (Nat × Nat)) :
    Statements I entry k (.fill slot pid fields) (toInt32 pid, k.storeFrame I slot fields) := by
  induction fields generalizing k with
  | nil => exact .return rfl
  | cons f fields ih => exact .next rfl ih

theorem place (pid : Nat) (fields : List (Nat × Nat)) :
    Statements I entry k (.place slot pid fields) (toInt32 pid,
      ((k.storeFrame I slot fields).setTask slot fun task =>
        { task with savedEsp := initialFrame I slot }).storeFrame I slot (preparedFields entry)) := by
  induction fields generalizing k with
  | nil => exact .next rfl (fill ..)
  | cons f fields ih => exact .next rfl ih

/-- The kernel where `reclaimSlot` has changed the memory and the task. -/
def reclaiming (k : Kernel) (slot : Slot) (m : Memory) (task : Task) : Kernel :=
  { k with memory := m, tasks := Function.update k.tasks slot task }

@[simp] theorem reclaiming_task (m : Memory) (task : Task) :
    (reclaiming k slot m task).tasks slot = task := Function.update_self ..

@[simp] theorem reclaiming_setTask (m : Memory) (task : Task) (f : Task → Task) :
    (reclaiming k slot m task).setTask slot f = reclaiming k slot m (f task) := by
  unfold reclaiming Kernel.setTask
  rw [Function.update_idem]
  dsimp only
  rw [Function.update_self]

theorem reclaiming_self : reclaiming k slot k.memory (k.tasks slot) = k := by
  unfold reclaiming
  rw [Function.update_eq_self]

theorem reclaim_part {m m' : Memory} {task task' : Task} {part part' : ReclaimAt}
    (h : reclaimStatement I (reclaiming k slot m task) slot part =
      (reclaiming k slot m' task', some part'))
    (hrest : Statements I entry (reclaiming k slot m' task') (.reclaim slot part') out) :
    Statements I entry (reclaiming k slot m task) (.reclaim slot part) out := by
  refine .next ?_ hrest
  dsimp only [statement]
  rw [h]

variable {m : Memory} {task : Task}

/-- A page of the task: the test, the free and the assignment that clears the field. -/
theorem page {page : Nat} {cleared : Task} {test free clear next : ReclaimAt}
    (hcleared : page = 0 → cleared = task)
    (htest : reclaimStatement I (reclaiming k slot m task) slot test =
      (reclaiming k slot m task, some (if page ≠ 0 then free else next)))
    (hfree : reclaimStatement I (reclaiming k slot m task) slot free =
      (reclaiming k slot (memory_free_page m page) task, some clear))
    (hclear : ∀ m, reclaimStatement I (reclaiming k slot m task) slot clear =
      (reclaiming k slot m cleared, some next))
    (h : Statements I entry
      (reclaiming k slot (if page ≠ 0 then memory_free_page m page else m) cleared)
      (.reclaim slot next) out) :
    Statements I entry (reclaiming k slot m task) (.reclaim slot test) out := by
  by_cases hpage : page = 0
  · rw [if_neg (not_not.mpr hpage)] at h htest
    rw [hcleared hpage] at h
    exact reclaim_part htest h
  · rw [if_pos hpage] at h htest
    exact reclaim_part htest (reclaim_part hfree (reclaim_part (hclear _) h))

theorem code (h : Statements I entry (reclaiming k slot
      (if task.userCodePage ≠ 0 then memory_free_page m task.userCodePage else m)
      { task with userCodePage := 0 }) (.reclaim slot .testStack) out) :
    Statements I entry (reclaiming k slot m task) (.reclaim slot .testCode) out :=
  page (fun hpage => by rw [← hpage]) (by rw [reclaimStatement, reclaiming_task])
    (by rw [reclaimStatement, reclaiming_task]; rfl)
    (fun _ => by rw [reclaimStatement, reclaiming_setTask]) h

theorem stack (h : Statements I entry (reclaiming k slot
      (if task.userStackPage ≠ 0 then memory_free_page m task.userStackPage else m)
      { task with userStackPage := 0 }) (.reclaim slot (.testElf 0)) out) :
    Statements I entry (reclaiming k slot m task) (.reclaim slot .testStack) out :=
  page (fun hpage => by rw [← hpage]) (by rw [reclaimStatement, reclaiming_task])
    (by rw [reclaimStatement, reclaiming_task]; rfl)
    (fun _ => by rw [reclaimStatement, reclaiming_setTask]) h

/-- The loop over the pages, of which those from `i` on are left. -/
theorem elf (i : Nat) (h : Statements I entry (reclaiming k slot
      ((task.elfPages.drop i).foldl memory_free_page m) { task with elfPages := [] })
      (.reclaim slot .testSpace) out) :
    Statements I entry (reclaiming k slot m task) (.reclaim slot (.testElf i)) out := by
  obtain ⟨rest, hrest⟩ : ∃ rest, task.elfPages.drop i = rest := ⟨_, rfl⟩
  induction rest generalizing task m i with
  | nil =>
    rw [hrest, List.foldl_nil] at h
    have hcount : Statements I entry (reclaiming k slot m task) (.reclaim slot .clearCount) out :=
      reclaim_part (by rw [reclaimStatement, reclaiming_setTask]) h
    refine reclaim_part ?_ hcount
    rw [reclaimStatement, reclaiming_task, if_neg (not_lt.mpr (List.drop_eq_nil_iff.mp hrest))]
  | cons page rest ih =>
    have hlt : i < task.elfPages.length := by
      by_contra hge
      rw [List.drop_eq_nil_of_le (not_lt.mp hge)] at hrest
      cases hrest
    rw [hrest] at h
    rw [List.drop_eq_getElem_cons hlt, List.cons.injEq] at hrest
    obtain ⟨hpage, hrest⟩ := hrest
    have hdrop : (task.elfPages.set i 0).drop (i + 1) = rest := by
      rw [List.drop_set_of_lt (Nat.lt_succ_self i), hrest]
    have hnext : Statements I entry (reclaiming k slot (memory_free_page m page)
        { task with elfPages := task.elfPages.set i 0 }) (.reclaim slot (.testElf (i + 1))) out :=
      ih (i + 1) (by rw [hdrop]; exact h) hdrop
    have hclear : Statements I entry (reclaiming k slot (memory_free_page m page) task)
        (.reclaim slot (.clearElf i)) out :=
      reclaim_part (by rw [reclaimStatement, reclaiming_setTask]) hnext
    have hfree : Statements I entry (reclaiming k slot m task) (.reclaim slot (.freeElf i)) out := by
      refine reclaim_part ?_ hclear
      rw [reclaimStatement, reclaiming_task, List.getD_eq_getElem _ _ hlt, hpage]
      rfl
    refine reclaim_part ?_ hfree
    rw [reclaimStatement, reclaiming_task, if_pos hlt]

theorem space (h : Statements I entry (reclaiming k slot
      (if task.isUser && task.addressSpace ≠ 0 then
        paging_destroy_address_space I.toKernelLayout m task.addressSpace else m)
      { task with
        isUser := false
        addressSpace := paging_kernel_address_space I.toKernelLayout }) (.takePid slot) out) :
    Statements I entry (reclaiming k slot m task) (.reclaim slot .testSpace) out := by
  have hclear : ∀ m' : Memory, Statements I entry (reclaiming k slot m' { task with
        isUser := false
        addressSpace := paging_kernel_address_space I.toKernelLayout }) (.takePid slot) out →
      Statements I entry (reclaiming k slot m' task) (.reclaim slot .clearUser) out := by
    intro m' h
    have hset : Statements I entry (reclaiming k slot m' { task with isUser := false })
        (.reclaim slot .setSpace) out := by
      refine .next ?_ h
      rw [statement, reclaimStatement, reclaiming_setTask]
    exact reclaim_part (by rw [reclaimStatement, reclaiming_setTask]) hset
  split at h
  next huser =>
    have hdestroy : Statements I entry (reclaiming k slot m task) (.reclaim slot .destroySpace) out :=
      reclaim_part (by rw [reclaimStatement, reclaiming_task]; rfl) (hclear _ h)
    exact reclaim_part (by rw [reclaimStatement, reclaiming_task, if_pos huser]) hdestroy
  next huser =>
    exact reclaim_part (by rw [reclaimStatement, reclaiming_task, if_neg huser]) (hclear _ h)

/-- From the slot on. -/
theorem reclaim (h : Statements I entry (reclaimSlot I k slot) (.takePid slot) out) :
    Statements I entry k (.reclaim slot .testCode) out := by
  rw [← reclaiming_self (k := k)]
  exact code (stack (elf 0 (space h)))

/-- The loop of `findSlot`, from `i` on. -/
theorem find (wanted : ProcessState) {i : Nat} (hi : i ≤ MAX_TASKS)
    (hsome : ∀ slot, ((List.finRange MAX_TASKS).drop i).find?
      (fun i => (k.tasks i).state == wanted) = some slot →
      Statements I entry k (.reclaim slot .testCode) out)
    (hnone : ((List.finRange MAX_TASKS).drop i).find?
      (fun i => (k.tasks i).state == wanted) = none →
      Statements I entry k (.findSlot wanted MAX_TASKS) out) :
    Statements I entry k (.findSlot wanted i) out := by
  induction hi using Nat.decreasingInduction with
  | self => exact hnone rfl
  | of_succ i hi ih =>
    have hlt : i < (List.finRange MAX_TASKS).length := List.length_finRange.symm ▸ hi
    rw [List.drop_eq_getElem_cons hlt, List.getElem_finRange, List.find?_cons] at hsome hnone
    by_cases hstate : (k.tasks ⟨i, hi⟩).state = wanted
    · refine .next ?_ (hsome ⟨i, hi⟩ ?_)
      · rw [statement, dif_pos hi, if_pos hstate]
      · rw [show (Fin.cast List.length_finRange ⟨i, hlt⟩ : Slot) = ⟨i, hi⟩ from rfl, hstate,
          beq_self_eq_true]
    · have hnot : ((k.tasks ⟨i, hi⟩).state == wanted) = false := beq_false_of_ne hstate
      rw [show (Fin.cast List.length_finRange ⟨i, hlt⟩ : Slot) = ⟨i, hi⟩ from rfl, hnot]
        at hsome hnone
      refine .next ?_ (ih hsome hnone)
      rw [statement, dif_pos hi, if_neg hstate]

end

/-- A call that nothing interrupts. -/
theorem create (I : KernelImage) (k : Kernel) (entry : Nat) :
    Statements I entry k (.findSlot .unused 0) (scheduler_create_task I k entry) := by
  have hslot : ∀ slot, freeSlot k = some slot →
      Statements I entry k (.reclaim slot .testCode) (scheduler_create_task I k entry) := by
    intro slot hfree
    unfold scheduler_create_task
    rw [hfree]
    have hboth : ∀ (k : Kernel) (pid : Nat),
        (k.setTask slot fun task => { task with pid := pid }).setTask slot
          (fun task => { task with state := .ready }) =
        k.setTask slot fun task => { task with pid := pid, state := .ready } := by
      intro k pid
      unfold Kernel.setTask
      rw [Function.update_idem]
      dsimp only
      rw [Function.update_self]
    refine reclaim (.next rfl (.next rfl (.next rfl ?_)))
    rw [hboth]
    exact place ..
  refine find .unused (Nat.zero_le _) (fun slot hs => hslot slot ?_) fun hunused => ?_
  · unfold freeSlot
    rw [show findSlot k .unused = some slot from hs]
  · have hagain : statement I entry k (.findSlot .unused MAX_TASKS) = (k, .inl (.findSlot .dead 0)) := by
      rw [statement, dif_neg (lt_irrefl _), if_pos rfl]
    refine .next hagain (find .dead (Nat.zero_le _) (fun slot hs => hslot slot ?_) fun hdead => ?_)
    · unfold freeSlot
      rw [show findSlot k .unused = none from hunused]
      exact hs
    · have hfree : freeSlot k = none := by
        unfold freeSlot
        rw [show findSlot k .unused = none from hunused]
        exact hdead
      unfold scheduler_create_task
      rw [hfree]
      exact .return rfl

end Statements

/-! ## The machine -/

/-- A call in progress, with its number and its argument. -/
structure Creation where
  serial : Nat
  entry : Nat
  pc : CreateAt

/-- A return of a call: its number, its slot, and the pid that it took. -/
structure Returned where
  serial : Nat
  slot : Slot
  pid : Nat

/-- The kernel with the calls of its tasks, and the record: of each slot, which call wrote its pid, and
for which call and at which address it last got a complete frame; the returns, and whose tasks have
died. -/
structure Machine where
  kernel : Kernel
  calls : Slot → Option Creation := fun _ => none
  nextSerial : Nat
  owner : Slot → Nat
  frame : Slot → Option (Nat × Nat)
  returned : List Returned
  dead : List Nat := []

inductive MachineEvent where
  | call (entry : Nat)
  | statement
  | scheduler (e : Event)

namespace Machine

/-- The kernel when interrupts are enabled: the tasks of the table count as created, each by the call
with the number of its slot. -/
def start (k : Kernel) : Machine where
  kernel := k
  nextSerial := MAX_TASKS
  owner i := i.val
  frame i := some (i.val, (k.tasks i).savedEsp)
  returned := ((List.finRange MAX_TASKS).filter fun i => alive (k.tasks i).state).map fun i =>
    ⟨i.val, i, (k.tasks i).pid⟩

/-- The record of a statement that starts here and leads there. -/
def record (I : KernelImage) (m : Machine) (call : Creation) : Machine :=
  match call.pc with
  | .writePid slot _ => { m with owner := Function.update m.owner slot call.serial }
  | .place slot _ _ => { m with frame := Function.update m.frame slot none }
  | .fill slot _ [_] =>
    { m with frame := Function.update m.frame slot (some (call.serial, initialFrame I slot)) }
  | .fill slot pid [] => { m with returned := ⟨call.serial, slot, pid⟩ :: m.returned }
  | _ => m

/-- The next statement of the call of a task. -/
def advance (I : KernelImage) (m : Machine) (c : Slot) (call : Creation) : Machine :=
  match statement I call.entry m.kernel call.pc with
  | (k, .inl pc) =>
    { m.record I call with
      kernel := k
      calls := Function.update m.calls c (some { call with pc := pc }) }
  | (k, .inr _) => { m.record I call with kernel := k, calls := Function.update m.calls c none }

/-- The task that runs and is not in a call. The idle task only waits for the timer. -/
def free (m : Machine) : Option Slot :=
  m.kernel.currentTaskIndex.filter fun c => c ≠ 0 && (m.calls c).isNone

/-- The timer ticks at any time; the other calls of the scheduler are made by a task. -/
def may (m : Machine) : Event → Bool
  | .timerTick _ => true
  | .yield _ | .exit _ | .blockSelf _ | .terminateCurrent _ | .unblock _ => m.free.isSome
  | _ => false

/-- The record of a call of the scheduler: the task that it leaves, and whether that has died. -/
def recordLeave (m : Machine) (e : Event) : Machine :=
  match e.switches, m.kernel.currentTaskIndex with
  | some (leave, esp), some c =>
    { m with
      frame := Function.update m.frame c (some (m.owner c, esp))
      dead := if leave = some .dead then m.owner c :: m.dead else m.dead }
  | _, _ => m

def step (I : KernelImage) (m : Machine) : MachineEvent → Option Machine
  | .call entry =>
    m.free.map fun c =>
      { m with
        calls := Function.update m.calls c (some ⟨m.nextSerial, entry, .findSlot .unused 0⟩)
        nextSerial := m.nextSerial + 1 }
  | .statement =>
    m.kernel.currentTaskIndex.bind fun c => (m.calls c).map fun call => m.advance I c call
  | .scheduler e =>
    if m.may e then
      (m.kernel.step I e).map fun (_, k) => { m.recordLeave e with kernel := k }
    else none

/-- Events with a property lead from a kernel that enables interrupts to the machine. -/
inductive Reached (I : KernelImage) (P : Machine → MachineEvent → Prop) : Machine → Prop where
  | start {k : Kernel} {history : List Step} : Run I k history →
      (∀ s ∈ history, s.before.currentTaskIndex = none) → k.currentTaskIndex = none →
      Reached I P (start k)
  | step {m m' : Machine} {event : MachineEvent} : Reached I P m → P m event →
      m.step I event = some m' → Reached I P m'

/-- A switch goes to a task whose stack pointer is that of a complete frame of its call, or of the
place where it was last switched away from. -/
def SwitchOk (m m' : Machine) : Prop :=
  ∀ n, m'.kernel.currentTaskIndex = some n → m.kernel.currentTaskIndex ≠ some n →
    m.frame n = some (m.owner n, (m.kernel.tasks n).savedEsp)

/-- Of two calls that returned the same slot, the task of one has died. -/
def OneEach (m : Machine) : Prop :=
  ∀ a ∈ m.returned, ∀ b ∈ m.returned, a.slot = b.slot → a.serial ≠ b.serial →
    a.serial ∈ m.dead ∨ b.serial ∈ m.dead

/-- The task of a call that returned has died, or has the pid, is alive, and has a frame. -/
def Started (m : Machine) : Prop :=
  ∀ r ∈ m.returned, r.serial ∈ m.dead ∨
    ((m.kernel.tasks r.slot).pid = r.pid ∧ alive (m.kernel.tasks r.slot).state = true ∧
      m.frame r.slot = some (r.serial, (m.kernel.tasks r.slot).savedEsp))

/-- Task creation is safe in a run of events with a property. -/
def Safe (I : KernelImage) (P : Machine → MachineEvent → Prop) : Prop :=
  ∀ m, Reached I P m → m.OneEach ∧ m.Started ∧
    ∀ event m', P m event → m.step I event = some m' → m.SwitchOk m'

end Machine

/-- The slot to which a call has written its pid, and where its frame is not complete. -/
def CreateAt.commits : CreateAt → Option Slot
  | .writeReady slot _ | .place slot _ _ | .fill slot _ (_ :: _) => some slot
  | _ => none

namespace Machine

/-- No call has written its pid to the slot without its frame. -/
def Settles (m : Machine) (slot : Slot) : Prop :=
  ∀ c call, m.calls c = some call → call.pc.commits ≠ some slot

/-- The timer and the tasks do not switch to a task before its frame is complete, and a pid is not
written over a task that is alive, or that another call is about to complete. -/
def Undisturbed (m : Machine) : MachineEvent → Prop
  | .call _ => True
  | .statement => ∀ c call slot pid, m.kernel.currentTaskIndex = some c →
      m.calls c = some call → call.pc = .writePid slot pid →
      alive (m.kernel.tasks slot).state = false ∧ m.Settles slot
  | .scheduler e => e.switches ≠ none → ∀ c slot, m.kernel.currentTaskIndex = some c →
      pickNext m.kernel c = some slot → m.Settles slot

end Machine

end Os
end Techuila
