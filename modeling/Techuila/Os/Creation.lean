import Techuila.Os.Ownership

/-!
# What creating a task does

* `prepareInitialFrame_eq`, `prepareUserInitialFrame_eq`: a frame is written in the stack of its slot only.
* `Created`: a free slot has the new task, with the pages that it took; `NotCreated`: everything is as it
  was.
* `scheduler_create_task_cases`, `scheduler_create_user_task_cases`, `scheduler_create_elf_user_task_cases`.
-/

namespace Techuila
namespace Os

open Techuila.Dist (Bytes)
open Memory

/-! ## Frames -/

/-- These fields are in the frame. -/
def InterruptFrame.inside (fields : List (Nat × Nat)) : Bool := fields.all fun f => f.1 + 4 ≤ SIZE

theorem InterruptFrame.store_apart {m : WordMemory} {frame : Nat} {fields : List (Nat × Nat)}
    (h : InterruptFrame.inside fields = true) {x : Nat} (hx : x < frame ∨ frame + SIZE ≤ x) :
    InterruptFrame.store m frame fields x = m x := by
  unfold InterruptFrame.store
  induction fields generalizing m with
  | nil => rfl
  | cons f fields ih =>
    rw [InterruptFrame.inside, List.all_cons, Bool.and_eq_true, decide_eq_true_eq] at h
    rw [List.foldl_cons, ih h.2, WordMemory.store32_of_apart (by omega)]

section
variable (I : KernelImage) (k : Kernel) (slot : Slot)

/-- The initial frame is in the stack of its slot. -/
theorem initialFrame_inside : I.stack slot ≤ initialFrame I slot ∧
    initialFrame I slot + InterruptFrame.SIZE ≤ I.stack slot + 4096 := by
  unfold initialFrame kernelStackTop STACK_WORDS InterruptFrame.SIZE
  omega

/-- The state with this memory, and the stack pointer of the slot at its initial frame. -/
def Kernel.framed (b : WordMemory) : Kernel :=
  (k.setMemory { k.memory with bytes := b }).setTask slot
    fun task => { task with savedEsp := initialFrame I slot }

/-- Two writes in a frame, with the stack pointer set between them. -/
theorem storeFrame_framed {fields fields' : List (Nat × Nat)}
    (h : InterruptFrame.inside fields = true) (h' : InterruptFrame.inside fields' = true) :
    ∃ b, Kernel.storeFrame I ((k.storeFrame I slot fields).setTask slot fun task =>
        { task with savedEsp := initialFrame I slot }) slot fields' = k.framed I slot b ∧
      ∀ x, (x < I.stack slot ∨ I.stack slot + 4096 ≤ x) → b x = k.memory.bytes x := by
  have hin := initialFrame_inside I slot
  refine ⟨_, rfl, fun x hx => ?_⟩
  rw [InterruptFrame.store_apart h' (by omega)]
  exact InterruptFrame.store_apart h (by omega)

theorem prepareInitialFrame_eq (entry : Nat) :
    ∃ b, prepareInitialFrame I k slot entry = k.framed I slot b ∧
      ∀ x, (x < I.stack slot ∨ I.stack slot + 4096 ≤ x) → b x = k.memory.bytes x :=
  storeFrame_framed I k slot rfl rfl

theorem prepareUserInitialFrame_eq (entryPoint userStackTop : Nat) :
    ∃ b, prepareUserInitialFrame I k slot entryPoint userStackTop = k.framed I slot b ∧
      ∀ x, (x < I.stack slot ∨ I.stack slot + 4096 ≤ x) → b x = k.memory.bytes x :=
  storeFrame_framed I k slot rfl rfl

end

/-! ## New tasks -/

/-- The state with this memory and a task in a slot, and the next pid issued. -/
def Kernel.install (k : Kernel) (slot : Slot) (m : Memory) (task : Task) : Kernel :=
  { k with
    memory := m
    tasks := Function.update k.tasks slot task
    nextPid := add32 k.nextPid 1 }

/-- A free slot has a new task, with the pages that were taken for it. -/
structure Created (I : KernelImage) (k k' : Kernel) (slot : Slot) (m₁ m₂ : Memory)
    (held : List Nat) (b : WordMemory) (task : Task) : Prop where
  free : (k.tasks slot).state = .unused ∨ (k.tasks slot).state = .dead
  eq : k' = k.install slot { m₂ with bytes := b } task
  pid : task.pid = k.nextPid
  state : task.state = .ready
  savedEsp : task.savedEsp = initialFrame I slot
  busy : k.memory.Busy m₁ held
  frees : Frees m₁ m₂ ((k.tasks slot).held k.memory.bytes)
  bytes : ∀ x, (x < I.stack slot ∨ I.stack slot + 4096 ≤ x) → b x = m₂.bytes x
  held : held.Perm (task.held b)
  task : TaskOk I.toKernelLayout b task

/-- Everything is as it was. -/
def NotCreated (k k' : Kernel) : Prop := ∃ m, k' = k.setMemory m ∧ k.memory.Busy m []

theorem freeSlot_cases {k : Kernel} {slot : Slot} (h : freeSlot k = some slot) :
    (k.tasks slot).state = .unused ∨ (k.tasks slot).state = .dead := by
  unfold freeSlot findSlot at h
  split at h
  · rename_i hfind
    cases h
    have hstate := List.find?_some hfind
    exact .inl (beq_iff_eq.mp hstate)
  · have hstate := List.find?_some h
    exact .inr (beq_iff_eq.mp hstate)

theorem freeSlot_none {k : Kernel} (h : freeSlot k = none) (i : Slot) :
    (k.tasks i).state ≠ .unused ∧ (k.tasks i).state ≠ .dead := by
  unfold freeSlot findSlot at h
  split at h
  · cases h
  · rename_i hfind
    have h₁ := List.find?_eq_none.mp hfind i (List.mem_finRange i)
    have h₂ := List.find?_eq_none.mp h i (List.mem_finRange i)
    rw [beq_iff_eq] at h₁ h₂
    exact ⟨h₁, h₂⟩

section
variable {I : KernelImage} {k : Kernel} {slot : Slot}

/-- A reclaimed slot with a task in it and its frame. -/
theorem framed_install (m : Memory) (f : Task → Task) (b : WordMemory) :
    (Kernel.setTask { reclaimSlot I (k.setMemory m) slot with nextPid := add32 k.nextPid 1 }
      slot f).framed I slot b =
    k.install slot { reclaimMemory I.toKernelLayout m (k.tasks slot) with bytes := b }
      { f { k.tasks slot with
          userCodePage := 0
          userStackPage := 0
          elfPages := []
          isUser := false
          addressSpace := I.kernelDirectory } with
        savedEsp := initialFrame I slot } := by
  unfold Kernel.framed Kernel.install reclaimSlot Kernel.setTask Kernel.setMemory
  simp only [Function.update_self, Function.update_idem]
  rfl

/-- A kernel task in a reclaimed slot. -/
theorem scheduler_create_task_eq (h : freeSlot k = some slot) (entry : Nat) :
    ∃ b, scheduler_create_task I k entry = (toInt32 k.nextPid,
        k.install slot { reclaimMemory I.toKernelLayout k.memory (k.tasks slot) with bytes := b }
          { pid := k.nextPid, state := .ready, savedEsp := initialFrame I slot,
            addressSpace := I.kernelDirectory }) ∧
      ∀ x, (x < I.stack slot ∨ I.stack slot + 4096 ≤ x) →
        b x = (reclaimMemory I.toKernelLayout k.memory (k.tasks slot)).bytes x := by
  obtain ⟨b, he, hb⟩ := prepareInitialFrame_eq I (Kernel.setTask
    { reclaimSlot I k slot with nextPid := add32 k.nextPid 1 } slot
    fun task => { task with pid := k.nextPid, state := .ready }) slot entry
  refine ⟨b, ?_, hb⟩
  unfold scheduler_create_task
  rw [h]
  dsimp only
  rw [show (reclaimSlot I k slot).nextPid = k.nextPid from rfl, he]
  exact congrArg _ (framed_install k.memory _ b)

/-- A user task in a reclaimed slot. -/
theorem commitUserTask_eq (space : UserSpace) (entryPoint userStackTop : Nat) :
    ∃ b, commitUserTask I k slot space entryPoint userStackTop = (toInt32 k.nextPid,
        k.install slot
          { reclaimMemory I.toKernelLayout space.memory (k.tasks slot) with bytes := b }
          { pid := k.nextPid, state := .ready, savedEsp := initialFrame I slot, isUser := true,
            userCodePage := space.codePage, userStackPage := space.stackPage,
            elfPages := space.elfPages, addressSpace := space.addressSpace }) ∧
      ∀ x, (x < I.stack slot ∨ I.stack slot + 4096 ≤ x) →
        b x = (reclaimMemory I.toKernelLayout space.memory (k.tasks slot)).bytes x := by
  obtain ⟨b, he, hb⟩ := prepareUserInitialFrame_eq I (Kernel.setTask
    { reclaimSlot I (k.setMemory space.memory) slot with nextPid := add32 k.nextPid 1 } slot
    fun task => { task with
      pid := k.nextPid
      state := .ready
      isUser := true
      userCodePage := space.codePage
      userStackPage := space.stackPage
      elfPages := space.elfPages
      addressSpace := space.addressSpace }) slot entryPoint userStackTop
  refine ⟨b, ?_, hb⟩
  unfold commitUserTask
  dsimp only
  rw [show (reclaimSlot I (k.setMemory space.memory) slot).nextPid = k.nextPid from rfl, he]
  exact congrArg _ (framed_install space.memory _ b)

/-! ## The creations -/

/-- The task of a slot is as it was while an operation runs. -/
theorem Inv.task_busy (hi : Inv I k) {m : Memory} {held : List Nat} (hb : k.memory.Busy m held)
    (i : Slot) : TaskOk I.toKernelLayout m.bytes (k.tasks i) ∧
      (k.tasks i).held m.bytes = (k.tasks i).held k.memory.bytes := by
  obtain ⟨hok, htables⟩ := (hi.task i).congr (m := m.bytes) fun a ha x hx hlt => by
    have hmem : a ∈ (k.tasks i).held k.memory.bytes := List.mem_append_right _ ha
    obtain ⟨o, -, hown⟩ := mem_held_iff.mp hmem
    have hal := (hi.page o a hown).1
    refine hb.bytes x ?_
    rw [Used, show x / 4096 = a / 4096 by omega]
    exact hi.used_of hown
  exact ⟨hok, by rw [Task.held, Task.held, htables]⟩

theorem Inv.reclaim_frees (hi : Inv I k) {m : Memory} {held : List Nat}
    (hb : k.memory.Busy m held) (i : Slot) :
    Frees m (reclaimMemory I.toKernelLayout m (k.tasks i)) ((k.tasks i).held k.memory.bytes) := by
  obtain ⟨hok, hheld⟩ := hi.task_busy hb i
  rw [← hheld]
  refine Os.reclaim_frees hok (fun a ha => ?_) ?_
  · rw [hheld] at ha
    obtain ⟨o, ho, hown⟩ := mem_held_iff.mp ha
    have hout := hi.outside (by rintro rfl; cases ho) hown
    rwa [Outside, hb.reserved]
  · rw [Reserved, hb.reserved]
    exact hi.reserved

/-- The pages that were taken keep what was written in them. -/
theorem held_bytes (hi : Inv I k) {m₁ m₂ : Memory} {held : List Nat} (hb : k.memory.Busy m₁ held)
    (hf : Frees m₁ m₂ ((k.tasks slot).held k.memory.bytes)) {b : WordMemory}
    (hbytes : ∀ x, (x < I.stack slot ∨ I.stack slot + 4096 ≤ x) → b x = m₂.bytes x) {a : Nat}
    (ha : a ∈ held) {x : Nat} (hx : a ≤ x) (hlt : x < a + 4096) : b x = m₁.bytes x := by
  obtain ⟨hal, -, hres, -, hfresh⟩ := hb.bounds ha
  have hstack := I.stack_inside slot
  have hr := hi.reserved
  unfold Reserved at hr
  have hpage : x / 4096 = a / 4096 := by omega
  refine (hbytes x (by omega)).trans (hf.bytes x fun c hc he => hfresh ?_)
  obtain ⟨o, -, hown⟩ := mem_held_iff.mp hc
  rw [Used, ← hpage, he]
  exact hi.used_of hown

/-- A slot for a new task. -/
def HasSlot (k : Kernel) : Prop := ∃ i, (k.tasks i).state = .unused ∨ (k.tasks i).state = .dead

theorem not_hasSlot (h : freeSlot k = none) : ¬ HasSlot k := by
  rintro ⟨i, hi⟩
  obtain ⟨h₁, h₂⟩ := freeSlot_none h i
  exact hi.elim h₁ h₂

/-- A kernel task takes no pages. -/
theorem scheduler_create_task_cases (hi : Inv I k) (entry : Nat) :
    ((scheduler_create_task I k entry).1 = -1 ∧ NotCreated k (scheduler_create_task I k entry).2 ∧
        ¬ HasSlot k) ∨
      ∃ slot m₂ b task, (scheduler_create_task I k entry).1 = toInt32 k.nextPid ∧
        Created I k (scheduler_create_task I k entry).2 slot k.memory m₂ [] b task ∧ HasSlot k := by
  cases h : freeSlot k with
  | none =>
    unfold scheduler_create_task
    rw [h]
    exact .inl ⟨rfl, ⟨k.memory, rfl, .init hi.accounts⟩, not_hasSlot h⟩
  | some slot =>
    obtain ⟨b, he, hb⟩ := scheduler_create_task_eq (I := I) h entry
    rw [he]
    have hbusy : k.memory.Busy k.memory [] := .init hi.accounts
    have hfree := freeSlot_cases h
    exact .inr ⟨slot, _, b, _, rfl, ⟨hfree, rfl, rfl, rfl, rfl, hbusy,
      hi.reclaim_frees hbusy slot, hb, .refl [], rfl, rfl⟩, slot, hfree⟩

theorem addressOf_pteOf {done : List Mapped} (hal : ∀ p ∈ done, p.page % 4096 = 0) {j : Nat}
    (h : present (pteOf done j) = true) : addressOf (pteOf done j) ∈ done.map (·.page) := by
  induction done with
  | nil => cases h
  | cons p done ih =>
    rw [pteOf_cons] at h ⊢
    split at h
    · rename_i hj
      rw [if_pos hj, addressOf_add (hal p (List.mem_cons_self ..)) (by split <;> decide)]
      exact List.mem_cons_self ..
    · rename_i hj
      rw [if_neg hj, List.map_cons]
      exact List.mem_cons_of_mem _ (ih (fun q hq => hal q (List.mem_cons_of_mem _ hq)) h)

/-- A user task takes the pages of the address space that was built for it. -/
theorem commitUserTask_created (hi : Inv I k) (hslot : freeSlot k = some slot) {space : UserSpace}
    {t : Nat} {done : List Mapped} (h : Built I.toKernelLayout k.memory space t done)
    (entryPoint userStackTop : Nat) :
    ∃ m₂ b task, (commitUserTask I k slot space entryPoint userStackTop).1 = toInt32 k.nextPid ∧
      Created I k (commitUserTask I k slot space entryPoint userStackTop).2 slot space.memory m₂
        (space.addressSpace :: t :: done.map (·.page)) b task ∧
      task.addressSpace = space.addressSpace ∧ task.isUser = true ∧
      Space I.toKernelLayout b space.addressSpace (some t) (pteOf done) := by
  obtain ⟨b, he, hb⟩ := @commitUserTask_eq I k slot space entryPoint userStackTop
  have hbusy : k.memory.Busy space.memory (space.addressSpace :: t :: done.map (·.page)) := by
    have hbusy := h.building.busy
    rwa [List.append_nil] at hbusy
  have hframe := fun {a : Nat} => held_bytes hi hbusy (hi.reclaim_frees hbusy slot) hb (a := a)
  have hspace : Space I.toKernelLayout b space.addressSpace (some t) (pteOf done) :=
    h.building.space.congr (fun x hx hlt => hframe (List.mem_cons_self ..) hx hlt)
      fun t' ht' x hx hlt => by
        obtain rfl := Option.some.inj ht'
        exact hframe (List.mem_cons_of_mem _ (List.mem_cons_self ..)) hx hlt
  have hal : ∀ t' ∈ some t, t' % 4096 = 0 := fun t' ht' => by
    obtain rfl := Option.some.inj ht'
    exact (hbusy.page t (List.mem_cons_of_mem _ (List.mem_cons_self ..))).1
  rw [he]
  refine ⟨_, b, _, rfl, ⟨freeSlot_cases hslot, rfl, rfl, rfl, rfl, hbusy, hi.reclaim_frees hbusy slot,
    hb, ?_, ?_⟩, rfl, rfl, hspace⟩
  · have htables : ownTables b space.addressSpace = [t] := hspace.ownTables hal
    show List.Perm _ (space.pages ++ ([space.addressSpace] ++ ownTables b space.addressSpace))
    rw [htables]
    exact (h.pages.append_left [space.addressSpace, t]).trans List.perm_append_comm
  · refine ⟨some t, pteOf done, hspace, hal, fun j _ hj => ?_⟩
    refine h.pages.mem_iff.mp (addressOf_pteOf (fun p hp => ?_) hj)
    exact (hbusy.page p.page (List.mem_cons_of_mem _ (List.mem_cons_of_mem _
      (List.mem_map_of_mem hp)))).1

/-- Code of at most a page, a free slot, and free pages for the code, the stack, the directory and the
table. -/
def UserRoom (k : Kernel) (code : Bytes) : Prop :=
  code.length ≤ PAGE_SIZE ∧ HasSlot k ∧ 4 ≤ memory_free_pages k.memory

theorem memory_free_pages_eq {m : Memory} (h : m.Accounts) :
    memory_free_pages m = m.freePages.card := by
  have hcard := card_free_add_used m
  have hcount := h.count
  unfold memory_free_pages sub32
  rw [show PAGE_COUNT = 4096 from rfl]
  omega

theorem scheduler_create_user_task_cases (hi : Inv I k) (code : Bytes) :
    ((scheduler_create_user_task I k code).1 = -1 ∧
        NotCreated k (scheduler_create_user_task I k code).2 ∧ ¬ UserRoom k code) ∨
      ∃ slot m₁ m₂ held b task, (scheduler_create_user_task I k code).1 = toInt32 k.nextPid ∧
        Created I k (scheduler_create_user_task I k code).2 slot m₁ m₂ held b task ∧
        task.isUser = true ∧ UserRoom k code := by
  have hsame : NotCreated k k := ⟨k.memory, rfl, .init hi.accounts⟩
  unfold scheduler_create_user_task
  by_cases hlen : code.length > PAGE_SIZE
  · rw [if_pos hlen]
    exact .inl ⟨rfl, hsame, fun h => absurd h.1 (not_le.mpr hlen)⟩
  rw [if_neg hlen]
  cases hslot : freeSlot k with
  | none => exact .inl ⟨rfl, hsame, fun h => not_hasSlot hslot h.2.1⟩
  | some slot =>
    rcases buildUserSpace_spec hi.accounts hi.reserved hi.kernelSpace (not_lt.mp hlen) with
      ⟨m, he, hbusy, hfull⟩ | ⟨space, t, done, he, hbuilt, hfree⟩
    · dsimp only
      rw [he]
      refine .inl ⟨rfl, ⟨m, rfl, hbusy⟩, fun h => ?_⟩
      have hroom := h.2.2
      rw [memory_free_pages_eq hi.accounts] at hroom
      omega
    · obtain ⟨m₂, b, task, hr, hcreated, -, huser, -⟩ :=
        commitUserTask_created hi hslot hbuilt USER_CODE_VADDR USER_STACK_TOP_VADDR
      dsimp only
      rw [he]
      refine .inr ⟨slot, _, m₂, _, b, task, hr, hcreated, huser, not_lt.mp hlen,
        ⟨slot, freeSlot_cases hslot⟩, ?_⟩
      rwa [memory_free_pages_eq hi.accounts]

/-! ## The loader -/

/-- An image that is accepted, a free slot, and free pages for the plan, the directory, the table and the
stack. -/
def Room (k : Kernel) (image : Bytes) : Prop :=
  ∃ plan, elf_validate_and_plan image = some (.ok plan) ∧
    HasSlot k ∧ plan.totalPages + 3 ≤ memory_free_pages k.memory

/-- A process that was loaded: the task of a slot, with all pages of the plan mapped. -/
structure LoadedTask (I : KernelImage) (k k' : Kernel) (image : Bytes) (plan : ElfLoadPlan)
    (slot : Slot) (b : WordMemory) (t : Nat) (done : List Mapped) : Prop where
  created : ∃ m₁ m₂ task,
    Created I k k' slot m₁ m₂ (task.addressSpace :: t :: done.map (·.page)) b task
  isUser : (k'.tasks slot).isUser = true
  bytes : k'.memory.bytes = b
  space : Space I.toKernelLayout b (k'.tasks slot).addressSpace (some t) (pteOf done)
  aligned : t % 4096 = 0 ∧ ∀ p ∈ done, p.page % 4096 = 0
  content : ∀ p ∈ done, ∀ i < 4096, b (p.page + i) = p.bytes i
  planned : done.map (·.toPlannedPage) = (plannedPages image plan).reverse

theorem scheduler_create_elf_user_task_cases (hi : Inv I k) (image : Bytes) :
    ∃ r k', scheduler_create_elf_user_task I k image = some (r, k') ∧
      (r = -1 ∧ NotCreated k k' ∧ ¬ Room k image ∨
        ∃ plan slot b t done, r = toInt32 k.nextPid ∧
          elf_validate_and_plan image = some (.ok plan) ∧ PlanOk image plan ∧
          LoadedTask I k k' image plan slot b t done ∧ Room k image) := by
  have hsame : NotCreated k k := ⟨k.memory, rfl, .init hi.accounts⟩
  obtain ⟨v, hv, hok⟩ := elf_validate_and_plan_accepts image
  unfold scheduler_create_elf_user_task
  rw [hv, Option.bind_eq_bind, Option.bind_some]
  cases v with
  | error e =>
    refine ⟨-1, k, rfl, .inl ⟨rfl, hsame, ?_⟩⟩
    rintro ⟨plan, hp, -⟩
    rw [hv] at hp
    cases hp
  | ok plan =>
    obtain ⟨hplan, -⟩ := hok plan rfl
    have hroom : Room k image ↔ HasSlot k ∧ plan.totalPages + 3 ≤ k.memory.freePages.card := by
      rw [← memory_free_pages_eq hi.accounts]
      constructor
      · rintro ⟨plan', hp, h⟩
        rw [hv] at hp
        cases hp
        exact h
      · exact fun h => ⟨plan, hv, h⟩
    dsimp only
    cases hslot : freeSlot k with
    | none =>
      exact ⟨-1, k, rfl, .inl ⟨rfl, hsame, fun h => not_hasSlot hslot (hroom.mp h).1⟩⟩
    | some slot =>
      dsimp only
      rcases buildElfSpace_spec hi.accounts hi.reserved hi.kernelSpace hplan with
        ⟨m, he, hbusy, hfull⟩ | ⟨space, t, done, he, hbuilt, hdone, hfree⟩
      · rw [he]
        refine ⟨-1, _, rfl, .inl ⟨rfl, ⟨m, rfl, hbusy⟩, fun h => ?_⟩⟩
        exact absurd (hroom.mp h).2 (not_le.mpr hfull)
      · rw [he]
        show ∃ r k', some (commitUserTask I k slot space plan.entryPoint ELF_STACK_TOP_VADDR) = _ ∧ _
        obtain ⟨m₂, b, task, hr, hcreated, haddr, huser, hspace⟩ :=
          commitUserTask_created hi hslot hbuilt plan.entryPoint ELF_STACK_TOP_VADDR
        obtain ⟨r, k', hcommit⟩ :
            ∃ r k', commitUserTask I k slot space plan.entryPoint ELF_STACK_TOP_VADDR = (r, k') :=
          ⟨_, _, rfl⟩
        rw [hcommit] at hr hcreated ⊢
        dsimp only at hr hcreated
        have htask : k'.tasks slot = task := by
          rw [hcreated.eq]
          exact Function.update_self ..
        have hpage : ∀ p ∈ done, p.page ∈ space.addressSpace :: t :: done.map (·.page) :=
          fun p hp => List.mem_cons_of_mem _ (List.mem_cons_of_mem _ (List.mem_map_of_mem hp))
        refine ⟨r, k', rfl, .inr ⟨plan, slot, b, t, done, hr, rfl, hplan,
          ⟨⟨_, m₂, task, haddr ▸ hcreated⟩, ?_, ?_, ?_, ⟨?_, fun p hp => ?_⟩, fun p hp i hlt => ?_,
            hdone⟩, hroom.mpr ⟨⟨slot, freeSlot_cases hslot⟩, hfree⟩⟩⟩
        · rw [htask]
          exact huser
        · rw [hcreated.eq]
          rfl
        · rw [htask, haddr]
          exact hspace
        · exact (hcreated.busy.page t (List.mem_cons_of_mem _ (List.mem_cons_self ..))).1
        · exact (hcreated.busy.page p.page (hpage p hp)).1
        · exact (held_bytes hi hcreated.busy hcreated.frees hcreated.bytes (hpage p hp)
            (Nat.le_add_right ..) (Nat.add_lt_add_left hlt _)).trans
            (hbuilt.building.bytes p hp i hlt)

end

end Os
end Techuila
