import Techuila.Os.Creation

/-!
# Runs of the kernel

* `Event`, `Kernel.step`: the calls of the scheduler and of the heap, each running to completion, and writes
  of tasks and clients.
* `Run`: from boot, with the record of each step.
* `Run.inv`: the invariant of the page owners holds in every state; `step_handover`: what one step does to
  them.
-/

namespace Techuila
namespace Os

open Techuila.Dist (Bytes)
open Memory

/-- What can happen next; `esp` is the stack pointer of the interrupted context. -/
inductive Event where
  | createTask (entry : Nat)
  | createUserTask (code : Bytes)
  | createElfUserTask (image : Bytes)
  | growHeap
  | timerTick (esp : Nat)
  | yield (esp : Nat)
  | exit (esp : Nat)
  | blockSelf (esp : Nat)
  | terminateCurrent (esp : Nat)
  | unblock (pid : Nat)
  | write (address : Nat) (byte : UInt8)

/-- A new task is asked for. -/
def Event.creates : Event → Bool
  | .createTask _ | .createUserTask _ | .createElfUserTask _ => true
  | _ => false

/-- The creation of a task finds what it needs. -/
def Event.fits (k : Kernel) : Event → Prop
  | .createTask _ => HasSlot k
  | .createUserTask code => UserRoom k code
  | .createElfUserTask image => Room k image
  | _ => False

/-- A byte of the kernel's paging structures, or of a directory or table of a task. -/
def InTables (I : KernelImage) (k : Kernel) (x : Nat) : Prop :=
  (I.kernelDirectory ≤ x ∧ x < I.kernelDirectory + 4096) ∨
    (I.identityTables ≤ x ∧ x < I.identityTables + 16384) ∨
    ∃ i, ∃ a ∈ (k.tasks i).directory ++ (k.tasks i).tables k.memory.bytes, a ≤ x ∧ x < a + 4096

/-- Only paging writes its own structures. -/
def Allowed (I : KernelImage) (k : Kernel) : Event → Prop
  | .write address _ => ¬ InTables I k address
  | _ => True

namespace Kernel

def write (k : Kernel) (address : Nat) (byte : UInt8) : Kernel :=
  k.setMemory { k.memory with bytes := k.memory.bytes.store8 address byte }

/-- A step with its result, a pid or a stack pointer where there is one. -/
def step (I : KernelImage) (k : Kernel) : Event → Option (Int × Kernel)
  | .createTask entry => some (scheduler_create_task I k entry)
  | .createUserTask code => some (scheduler_create_user_task I k code)
  | .createElfUserTask image => scheduler_create_elf_user_task I k image
  | .growHeap => some (if k.growHeap.1 then 1 else 0, k.growHeap.2)
  | .timerTick esp => some ((scheduler_on_timer_tick I k esp).1, (scheduler_on_timer_tick I k esp).2)
  | .yield esp => some ((scheduler_on_yield I k esp).1, (scheduler_on_yield I k esp).2)
  | .exit esp => some ((scheduler_exit I k esp).1, (scheduler_exit I k esp).2)
  | .blockSelf esp => some ((scheduler_block_self I k esp).1, (scheduler_block_self I k esp).2)
  | .terminateCurrent esp =>
    some ((scheduler_terminate_current I k esp).1, (scheduler_terminate_current I k esp).2)
  | .unblock pid => some (0, scheduler_unblock k pid)
  | .write address byte => some (0, k.write address byte)

end Kernel

/-- One step of a run. -/
structure Step where
  before : Kernel
  event : Event
  result : Int
  after : Kernel

/-- A run from boot, the newest step first. -/
inductive Run (I : KernelImage) : Kernel → List Step → Prop where
  | boot (bytes : WordMemory) : Run I (boot I bytes) []
  | step {k k' : Kernel} {history : List Step} {e : Event} {r : Int} : Run I k history →
      Allowed I k e → k.step I e = some (r, k') → Run I k' (⟨k, e, r, k'⟩ :: history)

/-- A kernel's image of 2 MiB. -/
def smallImage : KernelImage where
  kernelEnd := 0x200000
  kernelDirectory := 0x100000
  identityTables := 0x101000
  inMemory := by decide
  directory_aligned := by decide
  tables_aligned := by decide
  directory_inside := by decide
  tables_inside := by decide
  apart := by decide
  stack := fun i => 0x110000 + 4096 * i.val
  idleEntry := 0x108000
  stack_inside := by decide
  stack_apart := by decide

/-! ## Steps that keep the owners -/

/-- Only states and stack pointers of tasks change, and what is current. -/
structure Reschedules (k k' : Kernel) : Prop where
  memory : k'.memory = k.memory
  segments : k'.segments = k.segments
  nextPid : k'.nextPid = k.nextPid
  task : ∀ i, ∃ state esp, k'.tasks i = { k.tasks i with state := state, savedEsp := esp }

section
variable {I : KernelImage} {k k' k'' : Kernel}

theorem Reschedules.refl : Reschedules k k := ⟨rfl, rfl, rfl, fun _ => ⟨_, _, rfl⟩⟩

theorem Reschedules.trans (h : Reschedules k k') (h' : Reschedules k' k'') : Reschedules k k'' := by
  refine ⟨h'.memory.trans h.memory, h'.segments.trans h.segments, h'.nextPid.trans h.nextPid,
    fun i => ?_⟩
  obtain ⟨s, e, h₁⟩ := h.task i
  obtain ⟨s', e', h₂⟩ := h'.task i
  exact ⟨s', e', by rw [h₂, h₁]⟩

theorem Reschedules.setTask {slot : Slot} {f : Task → Task}
    (hf : ∀ task, ∃ state esp, f task = { task with state := state, savedEsp := esp }) :
    Reschedules k (k.setTask slot f) := by
  refine ⟨rfl, rfl, rfl, fun i => ?_⟩
  unfold Kernel.setTask
  dsimp only
  by_cases hi : i = slot
  · rw [hi, Function.update_self]
    exact hf _
  · rw [Function.update_of_ne hi]
    exact ⟨_, _, rfl⟩

theorem Reschedules.setCurrentState (state : ProcessState) :
    Reschedules k (k.setCurrentState state) := by
  unfold Kernel.setCurrentState
  split
  · exact .refl
  · exact .setTask fun _ => ⟨_, _, rfl⟩

theorem preempt_reschedules : Reschedules k (preempt k) := by
  unfold preempt
  split
  · split
    · exact .setTask fun _ => ⟨_, _, rfl⟩
    · exact .refl
  · exact .refl

theorem switchTo_reschedules (next : Slot) : Reschedules k (switchTo I k next).2 := by
  have hset : Reschedules (preempt k)
      ((preempt k).setTask next fun task => { task with state := .running }) :=
    .setTask fun _ => ⟨_, _, rfl⟩
  obtain ⟨h₁, h₂, h₃, h₄⟩ := preempt_reschedules.trans hset
  exact ⟨h₁, h₂, h₃, h₄⟩

theorem scheduler_on_timer_tick_reschedules (esp : Nat) :
    Reschedules k (scheduler_on_timer_tick I k esp).2 := by
  unfold scheduler_on_timer_tick
  split
  · exact switchTo_reschedules 0
  · dsimp only
    have hsaved : ∀ current, Reschedules k (k.setTask current fun task =>
        { task with savedEsp := esp }) := fun _ => .setTask fun _ => ⟨_, _, rfl⟩
    split
    · exact hsaved _
    · split
      · exact hsaved _
      · exact (hsaved _).trans (switchTo_reschedules _)

theorem scheduler_unblock_reschedules (pid : Nat) : Reschedules k (scheduler_unblock k pid) := by
  unfold scheduler_unblock
  split
  · exact .refl
  · split
    · exact .setTask fun _ => ⟨_, _, rfl⟩
    · exact .refl

/-- The tables and directories are in use. -/
theorem InTables.used (hi : Inv I k) {x : Nat} (h : InTables I k x) : k.memory.Used x := by
  have hd := I.directory_inside
  have ht := I.tables_inside
  rcases h with ⟨h₁, h₂⟩ | ⟨h₁, h₂⟩ | ⟨i, a, ha, h₁, h₂⟩
  · exact hi.accounts.used_image hi.reserved (by omega)
  · exact hi.accounts.used_image hi.reserved (by omega)
  · obtain ⟨o, -, hown⟩ := mem_held_iff.mp (List.mem_append_right _ ha)
    have hal := (hi.page o a hown).1
    rw [Used, show x / 4096 = a / 4096 by omega]
    exact hi.used_of hown

/-- Tasks keep what they own, and the heap may take pages. -/
theorem Handover.keep (hi : Inv I k) {m : Memory} {held : List Nat} (hb : k.memory.Busy m held)
    {b : WordMemory} (hm : k'.memory = { m with bytes := b })
    (hbytes : ∀ x, InTables I k x → b x = k.memory.bytes x)
    (htask : ∀ i, ∃ state esp, k'.tasks i = { k.tasks i with state := state, savedEsp := esp })
    (hseg : k'.segments = held ++ k.segments) :
    Handover I k k' [] held (fun _ => .heap) := by
  have hok : ∀ i, TaskOk I.toKernelLayout b (k.tasks i) ∧
      (k.tasks i).tables b = (k.tasks i).tables k.memory.bytes := fun i =>
    (hi.task i).congr fun a ha x hx hlt => hbytes x (.inr (.inr ⟨i, a, ha, hx, hlt⟩))
  have hsame : ∀ o, o ≠ .heap → ownedBy k' o = ownedBy k o := fun o ho => by
    cases o with
    | kernel => rw [ownedBy, ownedBy, hm, ← hb.reserved]
    | heap => exact absurd rfl ho
    | task i =>
      obtain ⟨state, esp, he⟩ := htask i
      rw [ownedBy, ownedBy, he]
      rfl
    | directory i =>
      obtain ⟨state, esp, he⟩ := htask i
      rw [ownedBy, ownedBy, he]
      rfl
    | table i =>
      obtain ⟨state, esp, he⟩ := htask i
      rw [ownedBy, ownedBy, he, hm]
      exact (hok i).2
  refine ⟨?_, by rw [hm]; exact hb.reserved, ?_, fun i => ?_, hb.page, fun p hp => ?_, fun o a => ?_,
    fun o => ?_, fun a ha => absurd ha List.not_mem_nil⟩
  · obtain ⟨h₁, h₂, h₃, h₄⟩ := hb.accounts
    rw [hm]
    exact ⟨h₁, h₂, h₃, h₄⟩
  · rw [hm]
    exact hi.kernelSpace.congr (fun x hx hlt => hbytes x (.inl ⟨hx, hlt⟩))
      (fun x hx hlt => hbytes x (.inr (.inl ⟨hx, hlt⟩)))
  · obtain ⟨state, esp, he⟩ := htask i
    rw [hm, he]
    exact (hok i).1
  · rw [hm, and_iff_left List.not_mem_nil]
    exact hb.used p hp
  · rw [and_iff_left List.not_mem_nil]
    by_cases ho : o = .heap
    · rw [ho, ownedBy, ownedBy, hseg, List.mem_append, and_iff_left rfl, or_comm]
    · rw [hsame o ho, or_iff_left fun h => ho h.2.symm]
  · by_cases ho : o = .heap
    · rw [ho, ownedBy, hseg]
      refine List.nodup_append.mpr ⟨hb.nodup, hi.nodup .heap, fun a ha c hc he => ?_⟩
      exact (hb.bounds ha).2.2.2.2 (he ▸ hi.used_of (o := .heap) hc)
    · rw [hsame o ho]
      exact hi.nodup o

theorem Reschedules.handover (h : Reschedules k k') (hi : Inv I k) :
    Handover I k k' [] [] (fun _ => .heap) :=
  .keep hi (.init hi.accounts) (b := k.memory.bytes) h.memory (fun _ _ => rfl) h.task h.segments

theorem NotCreated.handover (h : NotCreated k k') (hi : Inv I k) :
    Handover I k k' [] [] (fun _ => .heap) := by
  obtain ⟨m, rfl, hb⟩ := h
  exact .keep hi hb (b := m.bytes) rfl (fun x hx => hb.bytes x (hx.used hi)) (fun _ => ⟨_, _, rfl⟩) rfl

theorem Created.handover {slot : Slot} {m₁ m₂ : Memory} {held : List Nat} {b : WordMemory}
    {task : Task} (h : Created I k k' slot m₁ m₂ held b task) (hi : Inv I k) :
    Handover I k k' ((k.tasks slot).held k.memory.bytes) held (newOwner k' slot) := by
  have htask : k'.tasks slot = task := by
    rw [h.eq]
    exact Function.update_self ..
  refine .create hi h.free h.busy h.frees (b := b) (by rw [h.eq]; rfl) h.bytes (fun j hj => ?_)
    (by rw [h.eq]; rfl) ?_ ?_
  · rw [h.eq]
    exact Function.update_of_ne hj ..
  · rw [htask]
    exact h.held
  · rw [htask]
    exact h.task

/-- A new segment is in its page. -/
theorem growHeap_apart {page : Nat} (hp : page ≠ 0) (heap : Heap) {x : Nat}
    (hx : x < page ∨ page + 4096 ≤ x) : (growHeap page heap).2.mem x = heap.mem x := by
  unfold growHeap BlockHeader.setSize BlockHeader.setUsed BlockHeader.setNext BlockHeader.setPrev
    Segment.setFirstBlock Segment.setNext Segment.SIZE
  rw [if_neg hp]
  dsimp only
  rw [WordMemory.store32_of_apart (by omega), WordMemory.store32_of_apart (by omega),
    WordMemory.store32_of_apart (by omega), WordMemory.store32_of_apart (by omega),
    WordMemory.store8_of_ne (by omega), WordMemory.store32_of_apart (by omega)]

theorem growHeap_true {page : Nat} (hp : page ≠ 0) (heap : Heap) :
    growHeap page heap = (true, (growHeap page heap).2) := by
  unfold growHeap
  rw [if_neg hp]

theorem growHeap_handover (hi : Inv I k) :
    ∃ held, Handover I k k.growHeap.2 [] held (fun _ => .heap) := by
  unfold Kernel.growHeap
  rcases (Busy.init hi.accounts).alloc with ⟨he, -⟩ | ⟨page, m, he, hne, hbytes, hbusy⟩
  · rw [he]
    exact ⟨[], NotCreated.handover ⟨k.memory, rfl, .init hi.accounts⟩ hi⟩
  · rw [he]
    dsimp only
    rw [growHeap_true hne]
    refine ⟨[page], .keep hi hbusy rfl (fun x hx => ?_) (fun _ => ⟨_, _, rfl⟩) rfl⟩
    obtain ⟨hal, -, -, -, hfresh⟩ := hbusy.bounds (List.mem_singleton_self page)
    have hused := hx.used hi
    have hpage : x / 4096 ≠ page / 4096 := fun heq => hfresh (by rw [Used, ← heq]; exact hused)
    rw [growHeap_apart hne _ (by omega)]
    exact congrFun hbytes x

theorem write_handover (hi : Inv I k) {address : Nat} (h : ¬ InTables I k address) (byte : UInt8) :
    Handover I k (k.write address byte) [] [] (fun _ => .heap) := by
  refine .keep hi (.init hi.accounts) (m := k.memory) rfl (fun x hx => ?_) (fun _ => ⟨_, _, rfl⟩) rfl
  exact WordMemory.store8_of_ne (by rintro rfl; exact h hx)

/-! ## The invariant of runs -/

/-- Only the pid 2^32 - 1 is returned as -1. -/
theorem toInt32_eq_neg_one {v : Nat} (h : toInt32 v = -1) : v = 2 ^ 32 - 1 := by
  unfold toInt32 at h
  split at h <;> omega

/-- A creation that fits makes a task, and another one does nothing. -/
theorem step_creates (hi : Inv I k) {e : Event} (hc : e.creates = true) {r : Int}
    (h : k.step I e = some (r, k')) :
    (r = -1 ∧ NotCreated k k' ∧ ¬ e.fits k) ∨
      (r = toInt32 k.nextPid ∧ (∃ slot m₁ m₂ held b task, Created I k k' slot m₁ m₂ held b task) ∧
        e.fits k) := by
  cases e with
  | createTask entry =>
    have hpair := Option.some.inj h
    rcases scheduler_create_task_cases hi entry with hfail | ⟨slot, m₂, b, task, hr, hcr, hfits⟩
    · rw [hpair] at hfail
      exact .inl hfail
    · rw [hpair] at hr hcr
      exact .inr ⟨hr, ⟨_, _, _, _, _, _, hcr⟩, hfits⟩
  | createUserTask code =>
    have hpair := Option.some.inj h
    rcases scheduler_create_user_task_cases hi code with
      hfail | ⟨slot, m₁, m₂, held, b, task, hr, hcr, -, hfits⟩
    · rw [hpair] at hfail
      exact .inl hfail
    · rw [hpair] at hr hcr
      exact .inr ⟨hr, ⟨_, _, _, _, _, _, hcr⟩, hfits⟩
  | createElfUserTask image =>
    obtain ⟨r', k₁, he, hcases⟩ := scheduler_create_elf_user_task_cases hi image
    have hpair : scheduler_create_elf_user_task I k image = some (r, k') := h
    rw [he] at hpair
    cases hpair
    rcases hcases with hfail | ⟨plan, slot, b, t, done, hr, -, -, hl, hfits⟩
    · exact .inl hfail
    · obtain ⟨m₁, m₂, task, hcr⟩ := hl.created
      exact .inr ⟨hr, ⟨_, _, _, _, _, _, hcr⟩, hfits⟩
  | _ => cases hc

/-- What one step does to the owners. -/
theorem step_handover (hi : Inv I k) {e : Event} (ha : Allowed I k e) {r : Int}
    (h : k.step I e = some (r, k')) : ∃ gone held taker, Handover I k k' gone held taker := by
  have hcurrent : ∀ (state : ProcessState) (esp : Nat), Reschedules k
      (scheduler_on_timer_tick I (k.setCurrentState state) esp).2 := fun state esp =>
    (Reschedules.setCurrentState state).trans (scheduler_on_timer_tick_reschedules esp)
  have hcreates : e.creates = true → ∃ gone held taker, Handover I k k' gone held taker := fun hc => by
    rcases step_creates hi hc h with ⟨-, hn, -⟩ | ⟨-, ⟨slot, m₁, m₂, held, b, task, hcr⟩, -⟩
    · exact ⟨_, _, _, hn.handover hi⟩
    · exact ⟨_, _, _, hcr.handover hi⟩
  cases e with
  | createTask | createUserTask | createElfUserTask => exact hcreates rfl
  | growHeap =>
    rw [Kernel.step, Option.some.injEq, Prod.mk.injEq] at h
    obtain ⟨held, hh⟩ := growHeap_handover hi
    rw [h.2] at hh
    exact ⟨_, _, _, hh⟩
  | timerTick esp =>
    cases h
    exact ⟨_, _, _, (scheduler_on_timer_tick_reschedules esp).handover hi⟩
  | yield esp =>
    cases h
    exact ⟨_, _, _, (scheduler_on_timer_tick_reschedules esp).handover hi⟩
  | exit esp =>
    cases h
    exact ⟨_, _, _, (hcurrent .dead esp).handover hi⟩
  | blockSelf esp =>
    cases h
    exact ⟨_, _, _, (hcurrent .blocked esp).handover hi⟩
  | terminateCurrent esp =>
    cases h
    exact ⟨_, _, _, (hcurrent .dead esp).handover hi⟩
  | unblock pid =>
    cases h
    exact ⟨_, _, _, (scheduler_unblock_reschedules pid).handover hi⟩
  | write address byte =>
    cases h
    exact ⟨_, _, _, write_handover hi ha byte⟩

/-- The state after boot: only the reserved region is owned. -/
theorem boot_eq (I : KernelImage) (bytes : WordMemory) :
    ∃ b, KernelSpace I.toKernelLayout b ∧ boot I bytes =
      { memory := { memory_init I.kernelEnd bytes with bytes := b }
        tasks := Function.update (fun _ => { addressSpace := I.kernelDirectory }) 0
          { pid := 1, state := .ready, savedEsp := initialFrame I 0,
            addressSpace := I.kernelDirectory }
        nextPid := 2
        cr3 := I.kernelDirectory } := by
  -- the argument of `prepareInitialFrame` in `scheduler_init`
  let k : Kernel := Kernel.setTask
    { memory := { memory_init I.kernelEnd bytes with
        bytes := paging_init I.toKernelLayout (memory_init I.kernelEnd bytes).bytes }
      tasks := fun _ => { addressSpace := I.kernelDirectory }
      nextPid := 2
      cr3 := I.kernelDirectory } 0 fun task => { task with pid := 1, state := .ready }
  obtain ⟨b, he, hb⟩ := prepareInitialFrame_eq I k 0 I.idleEntry
  obtain ⟨hspace, -⟩ :=
    paging_init_spec I.toKernelLayout (memory_init I.kernelEnd bytes).bytes
  have hapart := I.stack_apart 0
  refine ⟨b, hspace.congr (fun x _ _ => hb x (by omega)) (fun x _ _ => hb x (by omega)), ?_⟩
  have hboot : boot I bytes =
      { prepareInitialFrame I k 0 I.idleEntry with currentTaskIndex := none } := rfl
  rw [hboot, he]
  unfold Kernel.framed Kernel.setTask Kernel.setMemory
  dsimp only [k, Kernel.setTask]
  simp only [Function.update_self, Function.update_idem]

/-- The tasks after boot are kernel tasks. -/
theorem boot_task (I : KernelImage) (bytes : WordMemory) (i : Slot) :
    ((boot I bytes).tasks i).isUser = false ∧ ((boot I bytes).tasks i).pages = [] ∧
      ((boot I bytes).tasks i).addressSpace = I.kernelDirectory := by
  obtain ⟨b, -, he⟩ := boot_eq I bytes
  rw [he]
  dsimp only
  by_cases hi : i = 0
  · rw [hi, Function.update_self]
    exact ⟨rfl, rfl, rfl⟩
  · rw [Function.update_of_ne hi]
    exact ⟨rfl, rfl, rfl⟩

/-- Only the kernel owns pages after boot. -/
theorem boot_owned (I : KernelImage) (bytes : WordMemory) {o : Owner} (ho : o ≠ .kernel) :
    ownedBy (boot I bytes) o = [] := by
  cases o with
  | kernel => exact absurd rfl ho
  | heap =>
    obtain ⟨b, -, he⟩ := boot_eq I bytes
    rw [he]
    rfl
  | task i => exact (boot_task I bytes i).2.1
  | directory i =>
    rw [ownedBy, Task.directory, (boot_task I bytes i).1]
    rfl
  | table i =>
    rw [ownedBy, Task.tables, (boot_task I bytes i).1]
    rfl

theorem boot_nextPid (I : KernelImage) (bytes : WordMemory) : (boot I bytes).nextPid = 2 := by
  obtain ⟨b, -, he⟩ := boot_eq I bytes
  rw [he]

/-- Only the idle task is there after boot. -/
theorem boot_unused (I : KernelImage) (bytes : WordMemory) {i : Slot} (hi : i ≠ 0) :
    ((boot I bytes).tasks i).state = .unused := by
  obtain ⟨b, -, he⟩ := boot_eq I bytes
  rw [he]
  dsimp only
  rw [Function.update_of_ne hi]

/-- The image and nothing else is reserved. -/
theorem smallImage_reserved (bytes : WordMemory) :
    (memory_init smallImage.kernelEnd bytes).reserved_pages = 512 := by
  unfold memory_init
  dsimp only
  rw [foldl_mark_used]
  dsimp only
  decide

theorem boot_inv (I : KernelImage) (bytes : WordMemory) : Inv I (boot I bytes) := by
  obtain ⟨b, hspace, he⟩ := boot_eq I bytes
  obtain ⟨hlow, hhigh, hreserved⟩ := memory_init_reserved I.kernelEnd bytes
  have hacc := memory_init_accounts I.kernelEnd bytes
  have htask := boot_task I bytes
  have hkernel : ∀ a, a ∈ ownedBy (boot I bytes) .kernel ↔
      a % 4096 = 0 ∧ a / 4096 < (memory_init I.kernelEnd bytes).reserved_pages := fun a => by
    rw [he, ownedBy, List.mem_map]
    constructor
    · rintro ⟨p, hp, rfl⟩
      have := List.mem_range.mp hp
      dsimp only at this
      omega
    · rintro ⟨hal, hlt⟩
      exact ⟨a / 4096, List.mem_range.mpr hlt, by omega⟩
  have hother : ∀ o, o ≠ .kernel → ownedBy (boot I bytes) o = [] := fun _ => boot_owned I bytes
  have hown : ∀ o a, a ∈ ownedBy (boot I bytes) o → o = .kernel := fun o a ha => by
    by_contra hcon
    rw [hother o hcon] at ha
    exact absurd ha List.not_mem_nil
  refine ⟨?_, ?_, ?_, fun i => ?_, fun o a ha => ?_, fun o => ?_, fun o o' a ha ha' => ?_,
    fun p hp => ?_⟩
  · rw [he]
    exact ⟨hacc.low, hacc.high, hacc.reserved, hacc.count⟩
  · rw [he]
    exact hreserved I.inMemory
  · rw [he]
    exact hspace
  · obtain ⟨h₁, h₂, h₃⟩ := htask i
    rw [TaskOk, h₁]
    exact ⟨h₂, h₃⟩
  · obtain rfl := hown o a ha
    obtain ⟨hal, hlt⟩ := (hkernel a).mp ha
    exact ⟨hal, by omega⟩
  · by_cases ho : o = .kernel
    · rw [ho, ownedBy]
      exact List.nodup_range.map fun a b hab => Nat.eq_of_mul_eq_mul_right (by decide) hab
    · rw [hother o ho]
      exact .nil
  · rw [hown o a ha, hown o' a ha']
  · have hused : is_used (boot I bytes).memory p = is_used (memory_init I.kernelEnd bytes) p := by
      rw [he]
      rfl
    rw [hused, is_used_memory_init]
    constructor
    · exact fun hlt => ⟨.kernel, (hkernel _).mpr ⟨by omega, by omega⟩⟩
    · rintro ⟨o, ho⟩
      obtain rfl := hown o _ ho
      have := ((hkernel _).mp ho).2
      omega

/-- Every state of a run has the invariant. -/
theorem Run.inv {history : List Step} (h : Run I k history) : Inv I k := by
  induction h with
  | boot bytes => exact boot_inv I bytes
  | step _ ha hs ih =>
    obtain ⟨_, _, _, hh⟩ := step_handover ih ha hs
    exact hh.inv ih

end

end Os
end Techuila
