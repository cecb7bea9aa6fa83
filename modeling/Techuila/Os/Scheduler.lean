import Techuila.Os.Elf
import Techuila.Os.Paging

/-!
# The scheduler (`22-os/scheduler/scheduler.cpp`)

The task table has ten slots. `elfPages` are the first `elfPageCount` ones of the array, -1 as an index is
`none`, and the stack of a task is in the kernel's image. Code and images are their bytes.

* `scheduler_init` and `boot`.
* `scheduler_create_task`, `scheduler_create_user_task`, `scheduler_create_elf_user_task`: the part that builds
  the address space works on the memory only.
* `scheduler_on_timer_tick` and the calls that end in it, `scheduler_unblock`.
* `Kernel.growHeap`: the heap's call of the page allocator.
-/

namespace Techuila
namespace Os

open Techuila.Dist (Bytes)

abbrev MAX_TASKS : Nat := 10
def STACK_WORDS : Nat := 1024

instance : NeZero MAX_TASKS := ⟨by decide⟩

/-- An index of the task table. -/
abbrev Slot := Fin MAX_TASKS

/-- The kernel's image with its task table. -/
structure KernelImage extends KernelLayout where
  stack : Slot → Nat
  idleEntry : Nat
  stack_inside : ∀ i, 1048576 ≤ stack i ∧ stack i + 4096 ≤ kernelEnd
  stack_apart : ∀ i,
    (stack i + 4096 ≤ kernelDirectory ∨ kernelDirectory + 4096 ≤ stack i) ∧
    (stack i + 4096 ≤ identityTables ∨ identityTables + 16384 ≤ stack i)

inductive ProcessState where
  | unused
  | ready
  | running
  | blocked
  | dead
  deriving DecidableEq, Repr

structure Task where
  pid : Nat := 0
  state : ProcessState := .unused
  savedEsp : Nat := 0
  isUser : Bool := false
  userCodePage : Nat := 0
  userStackPage : Nat := 0
  elfPages : List Nat := []
  addressSpace : Nat := 0

/-- The scheduler's variables, the page allocator, the segments of the heap with the newest first, and
the two registers that a switch sets. -/
structure Kernel where
  memory : Memory
  tasks : Slot → Task
  currentTaskIndex : Option (Slot) := none
  nextPid : Nat := 1
  segments : List Nat := []
  esp0 : Nat := 0
  cr3 : Nat

namespace Kernel

def setTask (k : Kernel) (slot : Slot) (f : Task → Task) : Kernel :=
  { k with tasks := Function.update k.tasks slot (f (k.tasks slot)) }

def setMemory (k : Kernel) (m : Memory) : Kernel := { k with memory := m }

@[simp] theorem setTask_same (k : Kernel) (slot : Slot) (f : Task → Task) :
    (k.setTask slot f).tasks slot = f (k.tasks slot) := Function.update_self ..

theorem setTask_of_ne {k : Kernel} {slot i : Slot} (h : i ≠ slot) (f : Task → Task) :
    (k.setTask slot f).tasks i = k.tasks i := Function.update_of_ne h ..

end Kernel

/-! ## Frames -/

namespace InterruptFrame

/-- `sizeof(InterruptFrame)`. -/
def SIZE : Nat := 76

def gs : Nat := 0
def fs : Nat := 4
def es : Nat := 8
def ds : Nat := 12
def edi : Nat := 16
def esi : Nat := 20
def ebp : Nat := 24
def esp : Nat := 28
def ebx : Nat := 32
def edx : Nat := 36
def ecx : Nat := 40
def eax : Nat := 44
def interrupt_number : Nat := 48
def error_code : Nat := 52
def eip : Nat := 56
def cs : Nat := 60
def eflags : Nat := 64
def useresp : Nat := 68
def ss : Nat := 72

/-- The fields of a frame, by their offsets. -/
def store (m : WordMemory) (frame : Nat) (fields : List (Nat × Nat)) : WordMemory :=
  fields.foldl (fun m f => m.store32 (frame + f.1) f.2) m

end InterruptFrame

def KERNEL_CODE_SELECTOR : Nat := 0x08
def KERNEL_DATA_SELECTOR : Nat := 0x10
def USER_CODE_SELECTOR_RPL3 : Nat := 0x1B
def USER_DATA_SELECTOR_RPL3 : Nat := 0x23

def kernelStackTop (I : KernelImage) (slot : Slot) : Nat := I.stack slot + 4 * STACK_WORDS

/-- `frameAddr` of `placeInitialFrame`. -/
def initialFrame (I : KernelImage) (slot : Slot) : Nat :=
  (kernelStackTop I slot - InterruptFrame.SIZE) / 16 * 16

/-- The fields in the frame of a task's slot. -/
def Kernel.storeFrame (I : KernelImage) (k : Kernel) (slot : Slot)
    (fields : List (Nat × Nat)) : Kernel :=
  k.setMemory { k.memory with
    bytes := InterruptFrame.store k.memory.bytes (initialFrame I slot) fields }

open InterruptFrame in
def placeInitialFrame (I : KernelImage) (k : Kernel) (slot : Slot) : Kernel :=
  let k := k.storeFrame I slot
    [(edi, 0), (esi, 0), (ebp, 0), (esp, 0), (ebx, 0), (edx, 0), (ecx, 0), (eax, 0),
      (interrupt_number, 32), (error_code, 0), (eflags, 0x202)]
  k.setTask slot fun task => { task with savedEsp := initialFrame I slot }

open InterruptFrame in
def prepareInitialFrame (I : KernelImage) (k : Kernel) (slot : Slot) (entry : Nat) :
    Kernel :=
  let k := placeInitialFrame I k slot
  k.storeFrame I slot
    [(gs, KERNEL_DATA_SELECTOR), (fs, KERNEL_DATA_SELECTOR), (es, KERNEL_DATA_SELECTOR),
      (ds, KERNEL_DATA_SELECTOR), (eip, entry), (cs, KERNEL_CODE_SELECTOR)]

open InterruptFrame in
def prepareUserInitialFrame (I : KernelImage) (k : Kernel) (slot : Slot)
    (entryPoint userStackTop : Nat) : Kernel :=
  let k := placeInitialFrame I k slot
  k.storeFrame I slot
    [(gs, USER_DATA_SELECTOR_RPL3), (fs, USER_DATA_SELECTOR_RPL3), (es, USER_DATA_SELECTOR_RPL3),
      (ds, USER_DATA_SELECTOR_RPL3), (eip, entryPoint), (cs, USER_CODE_SELECTOR_RPL3),
      (useresp, userStackTop), (ss, USER_DATA_SELECTOR_RPL3)]

/-! ## Slots -/

def findSlot (k : Kernel) (wanted : ProcessState) : Option (Slot) :=
  (List.finRange MAX_TASKS).find? fun i => (k.tasks i).state == wanted

/-- The slot of a new task: an unused one, else a dead one. -/
def freeSlot (k : Kernel) : Option (Slot) :=
  match findSlot k .unused with
  | some slot => some slot
  | none => findSlot k .dead

def runnable (state : ProcessState) : Bool := state == .ready || state == .running

/-- Both callers have a current task. -/
def pickNext (k : Kernel) (start : Slot) : Option (Slot) :=
  ((List.range' 1 MAX_TASKS).map fun offset => Fin.ofNat MAX_TASKS (start.val + offset)).find?
    fun idx => runnable (k.tasks idx).state

/-- The start of `switchTo`: a running task becomes ready. -/
def preempt (k : Kernel) : Kernel :=
  match k.currentTaskIndex with
  | some current =>
    if (k.tasks current).state = ProcessState.running then
      k.setTask current fun task => { task with state := .ready }
    else k
  | none => k

def switchTo (I : KernelImage) (k : Kernel) (nextIndex : Slot) : Nat × Kernel :=
  let k := preempt k
  let k := k.setTask nextIndex fun task => { task with state := .running }
  let k := { k with
    currentTaskIndex := some nextIndex
    esp0 := kernelStackTop I nextIndex
    cr3 := (k.tasks nextIndex).addressSpace }
  ((k.tasks nextIndex).savedEsp, k)

/-- The frees of `reclaimSlot`. -/
def reclaimMemory (L : KernelLayout) (m : Memory) (task : Task) : Memory :=
  let m := if task.userCodePage ≠ 0 then memory_free_page m task.userCodePage else m
  let m := if task.userStackPage ≠ 0 then memory_free_page m task.userStackPage else m
  let m := task.elfPages.foldl memory_free_page m
  if task.isUser && task.addressSpace ≠ 0 then paging_destroy_address_space L m task.addressSpace
  else m

def reclaimSlot (I : KernelImage) (k : Kernel) (slot : Slot) : Kernel :=
  (k.setMemory (reclaimMemory I.toKernelLayout k.memory (k.tasks slot))).setTask slot
    fun task => { task with
      userCodePage := 0
      userStackPage := 0
      elfPages := []
      isUser := false
      addressSpace := paging_kernel_address_space I.toKernelLayout }

def indexForPid (k : Kernel) (pid : Nat) : Option (Slot) :=
  (List.finRange MAX_TASKS).find? fun i =>
    (k.tasks i).pid == pid &&
      ((k.tasks i).state == .ready || (k.tasks i).state == .running || (k.tasks i).state == .blocked)

/-! ## Initialisation -/

def scheduler_init (I : KernelImage) (k : Kernel) : Kernel :=
  let k := { k with tasks := fun _ => { addressSpace := paging_kernel_address_space I.toKernelLayout } }
  let pid := k.nextPid
  let k := { k with nextPid := add32 k.nextPid 1 }
  let k := k.setTask 0 fun task => { task with pid := pid, state := .ready }
  let k := prepareInitialFrame I k 0 I.idleEntry
  { k with currentTaskIndex := none }

/-- The part of `kernel_main` up to `scheduler_init`, on any memory. -/
def boot (I : KernelImage) (bytes : WordMemory) : Kernel :=
  let m := memory_init I.kernelEnd bytes
  let m := { m with bytes := paging_init I.toKernelLayout m.bytes }
  scheduler_init I
    { memory := m, tasks := fun _ => {}, cr3 := paging_kernel_address_space I.toKernelLayout }

/-! ## Creating tasks -/

/-- `static_cast<int>` of a `uint32_t`. -/
def toInt32 (v : Nat) : Int := if v < 2 ^ 31 then v else v - 2 ^ 32

def scheduler_create_task (I : KernelImage) (k : Kernel) (entry : Nat) : Int × Kernel :=
  match freeSlot k with
  | none => (-1, k)
  | some slot =>
    let k := reclaimSlot I k slot
    let pid := k.nextPid
    let k := { k with nextPid := add32 k.nextPid 1 }
    let k := k.setTask slot fun task => { task with pid := pid, state := .ready }
    (toInt32 pid, prepareInitialFrame I k slot entry)

/-- An address space that is complete, with the pages mapped in it. -/
structure UserSpace where
  memory : Memory
  addressSpace : Nat
  codePage : Nat := 0
  stackPage : Nat
  elfPages : List Nat := []

/-- The end of both creations of user tasks. -/
def commitUserTask (I : KernelImage) (k : Kernel) (slot : Slot) (space : UserSpace)
    (entryPoint userStackTop : Nat) : Int × Kernel :=
  let k := reclaimSlot I (k.setMemory space.memory) slot
  let pid := k.nextPid
  let k := { k with nextPid := add32 k.nextPid 1 }
  let k := k.setTask slot fun task => { task with
    pid := pid
    state := .ready
    isUser := true
    userCodePage := space.codePage
    userStackPage := space.stackPage
    elfPages := space.elfPages
    addressSpace := space.addressSpace }
  (toInt32 pid, prepareUserInitialFrame I k slot entryPoint userStackTop)

/-- The part of `scheduler_create_user_task` between the choice of the slot and its reclaim. -/
def buildUserSpace (L : KernelLayout) (m : Memory) (code : Bytes) : Except Memory UserSpace :=
  match memory_alloc_page m with
  | (codePage, m) =>
    if codePage = 0 then .error m
    else
      match memory_alloc_page m with
      | (stackPage, m) =>
        if stackPage = 0 then .error (memory_free_page m codePage)
        else
          match paging_create_address_space L m with
          | (addressSpace, m) =>
            if addressSpace = 0 then .error (memory_free_page (memory_free_page m codePage) stackPage)
            else
              let b := m.bytes.storeBytes stackPage (fun _ => 0) PAGE_SIZE
              let b := b.storeBytes codePage (fun i => code.getD i 0) code.length
              let b := b.storeBytes (codePage + code.length) (fun _ => 0) (PAGE_SIZE - code.length)
              let undo := fun m => Except.error (memory_free_page (memory_free_page
                (paging_destroy_address_space L m addressSpace) codePage) stackPage)
              match paging_map_user_page { m with bytes := b } addressSpace USER_CODE_VADDR
                codePage true with
              | (false, m) => undo m
              | (true, m) =>
                match paging_map_user_page m addressSpace USER_STACK_PAGE_VADDR stackPage true with
                | (false, m) => undo m
                | (true, m) => .ok
                  { memory := m, addressSpace := addressSpace, codePage := codePage,
                    stackPage := stackPage }

def scheduler_create_user_task (I : KernelImage) (k : Kernel) (code : Bytes) : Int × Kernel :=
  if code.length > PAGE_SIZE then (-1, k)
  else
    match freeSlot k with
    | none => (-1, k)
    | some slot =>
      match buildUserSpace I.toKernelLayout k.memory code with
      | .error m => (-1, k.setMemory m)
      | .ok space => commitUserTask I k slot space USER_CODE_VADDR USER_STACK_TOP_VADDR

/-! ## Loading -/

/-- The `rollback` of `scheduler_create_elf_user_task`. -/
def rollback (L : KernelLayout) (addressSpace : Nat) (m : Memory) (pages : List Nat) : Memory :=
  paging_destroy_address_space L (pages.foldl memory_free_page m) addressSpace

/-- A page of a segment as the loader fills it: zeros, then what the file has of it. -/
def fillPage (b : WordMemory) (image : Bytes) (segment : ElfSegmentPlan) (p page : Nat) :
    WordMemory :=
  let b := b.storeBytes page (fun _ => 0) PAGE_SIZE
  let pageStartInSegment := p * PAGE_SIZE
  if pageStartInSegment < segment.fileSize then
    let bytesAvailable := segment.fileSize - pageStartInSegment
    let bytesToCopy := if bytesAvailable < PAGE_SIZE then bytesAvailable else PAGE_SIZE
    b.storeBytes page (fun i => image.getD (segment.fileOffset + pageStartInSegment + i) 0) bytesToCopy
  else b

/-- One round of the inner loop, on the memory and the pages so far; a failure rolls back. -/
def loadPage (L : KernelLayout) (image : Bytes) (addressSpace : Nat) (segment : ElfSegmentPlan)
    (state : Memory × List Nat) (p : Nat) : Except Memory (Memory × List Nat) :=
  match state with
  | (m, pages) =>
    if pages.length ≥ ELF_MAX_PAGES then .error (rollback L addressSpace m pages)
    else
      match memory_alloc_page m with
      | (page, m) =>
        if page = 0 then .error (rollback L addressSpace m pages)
        else
          let pages := pages ++ [page]
          let m := { m with bytes := fillPage m.bytes image segment p page }
          let vaddr := segment.virtualAddress + p * PAGE_SIZE
          match paging_map_user_page m addressSpace vaddr page segment.writable with
          | (false, m) => .error (rollback L addressSpace m pages)
          | (true, m) => .ok (m, pages)

/-- One round of the outer loop. -/
def loadSegment (L : KernelLayout) (image : Bytes) (addressSpace : Nat)
    (state : Memory × List Nat) (segment : ElfSegmentPlan) : Except Memory (Memory × List Nat) :=
  (List.range (pagesForSegment segment.memSize)).foldlM
    (loadPage L image addressSpace segment) state

/-- The part of `scheduler_create_elf_user_task` between the choice of the slot and its reclaim. -/
def buildElfSpace (L : KernelLayout) (m : Memory) (image : Bytes) (plan : ElfLoadPlan) :
    Except Memory UserSpace :=
  match paging_create_address_space L m with
  | (addressSpace, m) =>
    if addressSpace = 0 then .error m
    else
      match plan.segments.foldlM (loadSegment L image addressSpace) (m, []) with
      | .error m => .error m
      | .ok (m, pages) =>
        match memory_alloc_page m with
        | (stackPage, m) =>
          if stackPage = 0 then .error (rollback L addressSpace m pages)
          else
            let m := { m with bytes := m.bytes.storeBytes stackPage (fun _ => 0) PAGE_SIZE }
            match paging_map_user_page m addressSpace ELF_STACK_PAGE_VADDR stackPage true with
            | (false, m) =>
              .error (rollback L addressSpace (memory_free_page m stackPage) pages)
            | (true, m) => .ok
              { memory := m, addressSpace := addressSpace, stackPage := stackPage, elfPages := pages }

/-- `none` where the validator reads outside the image. -/
def scheduler_create_elf_user_task (I : KernelImage) (k : Kernel) (image : Bytes) :
    Option (Int × Kernel) := do
  match ← elf_validate_and_plan image with
  | .error _ => some (-1, k)
  | .ok plan =>
    match freeSlot k with
    | none => some (-1, k)
    | some slot =>
      match buildElfSpace I.toKernelLayout k.memory image plan with
      | .error m => some (-1, k.setMemory m)
      | .ok space => some (commitUserTask I k slot space plan.entryPoint ELF_STACK_TOP_VADDR)

/-! ## Switching -/

def scheduler_on_timer_tick (I : KernelImage) (k : Kernel) (currentEsp : Nat) : Nat × Kernel :=
  match k.currentTaskIndex with
  | none => switchTo I k 0
  | some current =>
    let k := k.setTask current fun task => { task with savedEsp := currentEsp }
    match pickNext k current with
    | none => (currentEsp, k)
    | some next => if next = current then (currentEsp, k) else switchTo I k next

def scheduler_on_yield (I : KernelImage) (k : Kernel) (currentEsp : Nat) : Nat × Kernel :=
  scheduler_on_timer_tick I k currentEsp

/-- The state of the current task, where there is one. -/
def Kernel.setCurrentState (k : Kernel) (state : ProcessState) : Kernel :=
  match k.currentTaskIndex with
  | none => k
  | some current => k.setTask current fun task => { task with state := state }

def scheduler_terminate_current (I : KernelImage) (k : Kernel) (currentEsp : Nat) : Nat × Kernel :=
  scheduler_on_timer_tick I (k.setCurrentState .dead) currentEsp

/-- With the yield that it ends in, interrupted at `currentEsp`. -/
def scheduler_exit (I : KernelImage) (k : Kernel) (currentEsp : Nat) : Nat × Kernel :=
  scheduler_on_yield I (k.setCurrentState .dead) currentEsp

def scheduler_block_self (I : KernelImage) (k : Kernel) (currentEsp : Nat) : Nat × Kernel :=
  scheduler_on_yield I (k.setCurrentState .blocked) currentEsp

/-- `pid` is the argument as a `uint32_t`. -/
def scheduler_unblock (k : Kernel) (pid : Nat) : Kernel :=
  match indexForPid k pid with
  | none => k
  | some idx =>
    if (k.tasks idx).state = .blocked then
      k.setTask idx fun task => { task with state := .ready }
    else k

/-! ## The heap -/

/-- `growHeap` of the heap, on the kernel's memory. -/
def Kernel.growHeap (k : Kernel) : Bool × Kernel :=
  match memory_alloc_page k.memory with
  | (page, m) =>
    match Os.growHeap page ⟨m.bytes, k.segments.headD 0, 0⟩ with
    | (false, _) => (false, k.setMemory m)
    | (true, heap) =>
      (true, { k.setMemory { m with bytes := heap.mem } with segments := page :: k.segments })

end Os
end Techuila
