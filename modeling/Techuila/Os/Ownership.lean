import Techuila.Os.Loading

/-!
# Who owns which page

* `Owner`, `ownedBy`: the owners that pages can have, and their lists in a state.
* `Inv`: the lists have no page in common, the bitmap marks exactly their pages, and the address space of a
  user task maps pages of that task only.
* `Handover`: a step that gives some pages back and takes free ones. `Handover.inv`: it keeps the
  invariant.
* `Handover.create`: the reuse of a slot is one.
-/

namespace Techuila
namespace Os

open Memory

inductive Owner where
  | kernel
  | heap
  | task (slot : Slot)
  | directory (slot : Slot)
  | table (slot : Slot)
  deriving DecidableEq

/-- The slot that an owner belongs to. -/
def Owner.slot : Owner → Option Slot
  | .kernel | .heap => none
  | .task slot | .directory slot | .table slot => some slot

/-- The code, stack and ELF pages in a slot. -/
def Task.pages (task : Task) : List Nat :=
  (if task.userCodePage ≠ 0 then [task.userCodePage] else []) ++
    (if task.userStackPage ≠ 0 then [task.userStackPage] else []) ++ task.elfPages

/-- The directory of a slot that has its own. -/
def Task.directory (task : Task) : List Nat := if task.isUser then [task.addressSpace] else []

/-- The page tables that only this directory has. -/
def ownTables (m : WordMemory) (dir : Nat) : List Nat :=
  ((List.range' 4 1020).filter fun i => present (m.load32 (dir + 4 * i))).map fun i =>
    addressOf (m.load32 (dir + 4 * i))

def Task.tables (m : WordMemory) (task : Task) : List Nat :=
  if task.isUser then ownTables m task.addressSpace else []

/-- The pages of an owner. -/
def ownedBy (k : Kernel) : Owner → List Nat
  | .kernel => (List.range k.memory.reserved_pages).map (· * 4096)
  | .heap => k.segments
  | .task slot => (k.tasks slot).pages
  | .directory slot => (k.tasks slot).directory
  | .table slot => (k.tasks slot).tables k.memory.bytes

/-- All pages of a task. -/
def Task.held (m : WordMemory) (task : Task) : List Nat :=
  task.pages ++ (task.directory ++ task.tables m)

/-- The address space of a task, in a memory: its own, with pages of the task only, or the kernel's. -/
def TaskOk (L : KernelLayout) (m : WordMemory) (task : Task) : Prop :=
  if task.isUser then
    ∃ table pte, Space L m task.addressSpace table pte ∧ (∀ t ∈ table, t % 4096 = 0) ∧
      ∀ j < 1024, present (pte j) = true → addressOf (pte j) ∈ task.pages
  else task.pages = [] ∧ task.addressSpace = L.kernelDirectory

structure Inv (I : KernelImage) (k : Kernel) : Prop where
  accounts : k.memory.Accounts
  reserved : Reserved I.toKernelLayout k.memory
  kernelSpace : KernelSpace I.toKernelLayout k.memory.bytes
  task : ∀ i, TaskOk I.toKernelLayout k.memory.bytes (k.tasks i)
  page : ∀ o, ∀ a ∈ ownedBy k o, a % 4096 = 0 ∧ a < 16777216
  nodup : ∀ o, (ownedBy k o).Nodup
  disjoint : ∀ o o' a, a ∈ ownedBy k o → a ∈ ownedBy k o' → o = o'
  used : ∀ p < 4096, is_used k.memory p = true ↔ ∃ o, p * 4096 ∈ ownedBy k o

/-- Pages `gone` went back to the allocator, and pages `held` came from it. -/
structure Handover (I : KernelImage) (k k' : Kernel) (gone held : List Nat) (taker : Nat → Owner) :
    Prop where
  accounts : k'.memory.Accounts
  reserved : k'.memory.reserved_pages = k.memory.reserved_pages
  kernelSpace : KernelSpace I.toKernelLayout k'.memory.bytes
  task : ∀ i, TaskOk I.toKernelLayout k'.memory.bytes (k'.tasks i)
  fresh : ∀ a ∈ held, a % 4096 = 0 ∧ a / 4096 ∈ k.memory.freePages
  used : ∀ p < 4096, is_used k'.memory p = true ↔
    (is_used k.memory p = true ∨ p * 4096 ∈ held) ∧ p * 4096 ∉ gone
  owned : ∀ o a, a ∈ ownedBy k' o ↔ (a ∈ ownedBy k o ∧ a ∉ gone) ∨ (a ∈ held ∧ taker a = o)
  nodup : ∀ o, (ownedBy k' o).Nodup
  dead : ∀ a ∈ gone, ∃ i, a ∈ (k.tasks i).held k.memory.bytes ∧
    ((k.tasks i).state = .unused ∨ (k.tasks i).state = .dead)

section
variable {I : KernelImage} {k k' : Kernel} {gone held : List Nat} {taker : Nat → Owner}

/-- An owned page is in use. -/
theorem Inv.used_of (h : Inv I k) {o : Owner} {a : Nat} (ha : a ∈ ownedBy k o) :
    k.memory.Used a := by
  obtain ⟨hal, hlt⟩ := h.page o a ha
  refine (h.used (a / 4096) (by omega)).mpr ⟨o, ?_⟩
  rwa [Nat.div_mul_cancel (Nat.dvd_of_mod_eq_zero hal)]

theorem Inv.outside (h : Inv I k) {o : Owner} (ho : o ≠ .kernel) {a : Nat} (ha : a ∈ ownedBy k o) :
    Outside k.memory a := by
  obtain ⟨hal, hlt⟩ := h.page o a ha
  have hlow := h.accounts.low
  have hres : k.memory.reserved_pages ≤ a / 4096 := by
    by_contra hcon
    refine ho (h.disjoint o .kernel a ha ?_)
    exact List.mem_map.mpr ⟨a / 4096, List.mem_range.mpr (not_le.mp hcon), by omega⟩
  exact ⟨hal, by omega, by omega, hlt⟩

theorem mem_held {m : WordMemory} {task : Task} {a : Nat} :
    a ∈ task.held m ↔ a ∈ task.pages ∨ a ∈ task.directory ∨ a ∈ task.tables m := by
  rw [Task.held, List.mem_append, List.mem_append]

/-- The pages of a task are those of its slot's owners. -/
theorem mem_held_iff {i : Slot} {a : Nat} : a ∈ (k.tasks i).held k.memory.bytes ↔
    ∃ o, o.slot = some i ∧ a ∈ ownedBy k o := by
  rw [mem_held]
  constructor
  · rintro (h | h | h)
    · exact ⟨.task i, rfl, h⟩
    · exact ⟨.directory i, rfl, h⟩
    · exact ⟨.table i, rfl, h⟩
  · rintro ⟨o, ho, h⟩
    cases o with
    | kernel | heap => cases ho
    | task slot => cases ho; exact .inl h
    | directory slot => cases ho; exact .inr (.inl h)
    | table slot => cases ho; exact .inr (.inr h)

/-- A handover keeps the invariant. -/
theorem Handover.inv (h : Handover I k k' gone held taker) (hi : Inv I k) : Inv I k' := by
  refine ⟨h.accounts, ?_, h.kernelSpace, h.task, fun o a ha => ?_, h.nodup, fun o o' a ha ha' => ?_,
    fun p hp => ?_⟩
  · rw [Reserved, h.reserved]
    exact hi.reserved
  · rcases (h.owned o a).mp ha with ⟨hold, -⟩ | ⟨hheld, -⟩
    · exact hi.page o a hold
    · obtain ⟨hal, hfree⟩ := h.fresh a hheld
      have := (mem_freePages.mp hfree).1
      exact ⟨hal, by omega⟩
  · have hapart : ∀ o, a ∈ ownedBy k o → a ∉ held := fun o ho hheld =>
      (hi.used_of ho).notMem_freePages (h.fresh a hheld).2
    rcases (h.owned o a).mp ha with ⟨hold, -⟩ | ⟨hheld, rfl⟩
    · rcases (h.owned o' a).mp ha' with ⟨hold', -⟩ | ⟨hheld', -⟩
      · exact hi.disjoint o o' a hold hold'
      · exact absurd hheld' (hapart o hold)
    · rcases (h.owned o' a).mp ha' with ⟨hold', -⟩ | ⟨-, rfl⟩
      · exact absurd hheld (hapart o' hold')
      · rfl
  · have hheld : p * 4096 ∈ held → p * 4096 ∉ gone := fun hmem hgone => by
      obtain ⟨i, hi', -⟩ := h.dead _ hgone
      obtain ⟨o, -, ho⟩ := mem_held_iff.mp hi'
      exact (hi.used_of ho).notMem_freePages (h.fresh _ hmem).2
    rw [h.used p hp, hi.used p hp]
    simp only [h.owned]
    constructor
    · rintro ⟨⟨o, ho⟩ | hmem, hgone⟩
      · exact ⟨o, .inl ⟨ho, hgone⟩⟩
      · exact ⟨_, .inr ⟨hmem, rfl⟩⟩
    · rintro ⟨o, ⟨ho, hgone⟩ | ⟨hmem, -⟩⟩
      · exact ⟨.inl ⟨o, ho⟩, hgone⟩
      · exact ⟨.inr hmem, hheld hmem⟩

end

/-! ## The pages of a task -/

section
variable {L : KernelLayout} {m m' : Memory} {task : Task}

/-- The own table of a directory, by its entries. -/
theorem Space.ownTables {b : WordMemory} {dir : Nat} {table : Option Nat} {pte : Nat → Nat}
    (h : Space L b dir table pte) (hal : ∀ t ∈ table, t % 4096 = 0) :
    ownTables b dir = table.toList := by
  have hrest : (List.range' 5 1019).filter (fun i => present (b.load32 (dir + 4 * i))) = [] := by
    refine List.filter_eq_nil_iff.mpr fun i hi => ?_
    obtain ⟨hlo, hhi⟩ := List.mem_range'_1.mp hi
    rw [h.rest i hlo hhi]
    decide
  unfold Os.ownTables
  rw [show List.range' 4 1020 = 4 :: List.range' 5 1019 from rfl, List.filter_cons, hrest,
    show dir + 4 * 4 = dir + 16 from rfl, h.own]
  cases table with
  | none => rfl
  | some t =>
    have htal := hal t rfl
    have hpresent : present ((some t).elim 0 (· + 7)) = true := by
      unfold present
      rw [Option.elim_some, beq_iff_eq]
      omega
    rw [if_pos hpresent, List.map_cons, show dir + 4 * 4 = dir + 16 from rfl, h.own,
      Option.elim_some, addressOf_add htal (by decide)]
    rfl

/-- A task stays as it is where its directory and its table do. -/
theorem TaskOk.congr {b m : WordMemory} (h : TaskOk L b task)
    (hb : ∀ a ∈ task.directory ++ task.tables b, ∀ x, a ≤ x → x < a + 4096 → m x = b x) :
    TaskOk L m task ∧ task.tables m = task.tables b := by
  unfold TaskOk Task.tables Task.directory at *
  by_cases hu : task.isUser = true
  swap
  · rw [if_neg hu] at h
    rw [if_neg hu, if_neg hu, if_neg hu]
    exact ⟨h, rfl⟩
  rw [if_pos hu] at h
  rw [if_pos hu, if_pos hu] at hb
  rw [if_pos hu, if_pos hu, if_pos hu]
  obtain ⟨table, pte, hspace, hal, hpages⟩ := h
  rw [hspace.ownTables hal] at hb
  have hspace' : Space L m task.addressSpace table pte := by
    refine hspace.congr (hb _ (List.mem_append_left _ (List.mem_singleton_self _))) fun t ht => ?_
    exact hb t (List.mem_append_right _ (Option.mem_toList.mpr ht))
  exact ⟨⟨table, pte, hspace', hal, hpages⟩,
    (hspace'.ownTables hal).trans (hspace.ownTables hal).symm⟩

/-- A page that is there is freed. -/
theorem Memory.Frees.free_ne_zero {a : Nat} (h : ∀ c ∈ if a ≠ 0 then [a] else [], Outside m c) :
    Frees m (if a ≠ 0 then memory_free_page m a else m) (if a ≠ 0 then [a] else []) := by
  by_cases ha : a ≠ 0
  · rw [if_pos ha] at h
    rw [if_pos ha, if_pos ha]
    obtain ⟨h₁, h₂, h₃, h₄⟩ := h a (List.mem_singleton_self a)
    exact .free h₁ h₂ h₃ h₄
  · rw [if_neg ha, if_neg ha]
    exact .refl

theorem free_ne_zero_bytes (m : Memory) (a : Nat) :
    (if a ≠ 0 then memory_free_page m a else m).bytes = m.bytes := by
  split
  · exact memory_free_page_bytes m a
  · rfl

/-- `reclaimSlot` frees exactly the pages of the task. -/
theorem reclaim_frees (hok : TaskOk L m.bytes task) (ho : ∀ a ∈ task.held m.bytes, Outside m a)
    (hr : Reserved L m) : Frees m (reclaimMemory L m task) (task.held m.bytes) := by
  have hpages : ∀ a ∈ task.pages, Outside m a := fun a ha => ho a (mem_held.mpr (.inl ha))
  have hmono : ∀ {m' : Memory} {pages : List Nat}, Frees m m' pages → ∀ {a : Nat}, Outside m a →
      Outside m' a := fun hf a ha => by rwa [Outside, hf.reserved]
  unfold reclaimMemory
  dsimp only
  have hcode : Frees m _ _ := .free_ne_zero (a := task.userCodePage) fun c hc =>
    hpages c (List.mem_append_left _ (List.mem_append_left _ hc))
  have hstack := hcode.trans (.free_ne_zero (a := task.userStackPage) fun c hc =>
    hmono hcode (hpages c (List.mem_append_left _ (List.mem_append_right _ hc))))
  have helf := hstack.trans (foldl_frees (l := task.elfPages) fun c hc =>
    hmono hstack (hpages c (List.mem_append_right _ hc)))
  have hbytes : (task.elfPages.foldl memory_free_page
      (if task.userStackPage ≠ 0 then memory_free_page (if task.userCodePage ≠ 0 then
        memory_free_page m task.userCodePage else m) task.userStackPage else
        if task.userCodePage ≠ 0 then memory_free_page m task.userCodePage else m)).bytes =
      m.bytes := by
    rw [foldl_free_bytes, free_ne_zero_bytes, free_ne_zero_bytes]
  have hrest : task.held m.bytes = task.pages ++ (task.directory ++ task.tables m.bytes) := rfl
  unfold TaskOk at hok
  by_cases hu : task.isUser = true
  swap
  · rw [hrest, Task.directory, Task.tables, if_neg hu, if_neg hu, Bool.eq_false_of_not_eq_true hu,
      Bool.false_and, if_neg Bool.false_ne_true, List.append_nil, List.append_nil]
    exact helf
  rw [if_pos hu] at hok
  obtain ⟨table, pte, hspace, hal, -⟩ := hok
  have hdir : Outside m task.addressSpace :=
    ho _ (mem_held.mpr (.inr (.inl (by rw [Task.directory, if_pos hu]; exact List.mem_singleton_self _))))
  have htable : task.tables m.bytes = table.toList := by
    rw [Task.tables, if_pos hu, hspace.ownTables hal]
  have hne : task.addressSpace ≠ L.kernelDirectory := by
    obtain ⟨-, -, hres, -⟩ := hdir
    have hd := L.directory_inside
    unfold Reserved at hr
    omega
  have hnonzero : task.addressSpace ≠ 0 := by
    obtain ⟨-, hlow, -, -⟩ := hdir
    omega
  rw [hrest, htable, Task.directory, if_pos hu, hu, Bool.true_and, if_pos (decide_eq_true hnonzero)]
  refine helf.trans (destroy_frees (hbytes.symm ▸ hspace) (hmono helf hdir) (fun t ht => ?_) hne)
  refine hmono helf (ho t (mem_held.mpr (.inr (.inr ?_))))
  rw [htable]
  exact Option.mem_toList.mpr ht

end

/-! ## The reuse of a slot -/

/-- Who takes a page that the new task of a slot has. -/
def newOwner (k : Kernel) (slot : Slot) (a : Nat) : Owner :=
  if a ∈ (k.tasks slot).directory then .directory slot
  else if a ∈ (k.tasks slot).tables k.memory.bytes then .table slot
  else .task slot

section
variable {I : KernelImage} {k k' : Kernel} {held : List Nat}

/-- Owners of other slots have what they had where their tasks and tables are as they were. -/
theorem ownedBy_congr {o : Owner} (hres : k'.memory.reserved_pages = k.memory.reserved_pages)
    (hseg : k'.segments = k.segments) (hslot : ∀ i, o.slot = some i → k'.tasks i = k.tasks i ∧
      (k.tasks i).tables k'.memory.bytes = (k.tasks i).tables k.memory.bytes) :
    ownedBy k' o = ownedBy k o := by
  cases o with
  | kernel => rw [ownedBy, ownedBy, hres]
  | heap => exact hseg
  | task i => rw [ownedBy, ownedBy, (hslot i rfl).1]
  | directory i => rw [ownedBy, ownedBy, (hslot i rfl).1]
  | table i => rw [ownedBy, ownedBy, (hslot i rfl).1, (hslot i rfl).2]

/-- What an owner in a slot has, in a list without duplicates. -/
theorem mem_ownedBy_newOwner {slot : Slot}
    (hnodup : ((k.tasks slot).held k.memory.bytes).Nodup) {o : Owner} (ho : o.slot = some slot)
    {a : Nat} : a ∈ ownedBy k o ↔
      a ∈ (k.tasks slot).held k.memory.bytes ∧ newOwner k slot a = o := by
  rw [Task.held, List.nodup_append, List.nodup_append] at hnodup
  obtain ⟨-, ⟨-, -, hdt⟩, hp⟩ := hnodup
  rw [mem_held]
  unfold newOwner
  by_cases hd : a ∈ (k.tasks slot).directory
  · have hnp : a ∉ (k.tasks slot).pages := fun h => hp a h a (List.mem_append_left _ hd) rfl
    have hnt : a ∉ (k.tasks slot).tables k.memory.bytes := fun h => hdt a hd a h rfl
    rw [if_pos hd]
    cases o <;> cases ho <;> simp [ownedBy, hd, hnp, hnt]
  rw [if_neg hd]
  by_cases ht : a ∈ (k.tasks slot).tables k.memory.bytes
  · have hnp : a ∉ (k.tasks slot).pages := fun h => hp a h a (List.mem_append_right _ ht) rfl
    rw [if_pos ht]
    cases o <;> cases ho <;> simp [ownedBy, hd, hnp, ht]
  · rw [if_neg ht]
    cases o <;> cases ho <;> simp [ownedBy, hd, ht]

theorem newOwner_slot {slot : Slot} {a : Nat} : (newOwner k slot a).slot = some slot := by
  unfold newOwner
  split
  · rfl
  · split <;> rfl

/-- The reuse of a slot: the pages of its dead task go back, and those that were taken are the new
task's. -/
theorem Handover.create (hi : Inv I k) {slot : Slot}
    (hslot : (k.tasks slot).state = .unused ∨ (k.tasks slot).state = .dead) {m₁ m₂ : Memory}
    (hb : k.memory.Busy m₁ held) (hf : Frees m₁ m₂ ((k.tasks slot).held k.memory.bytes))
    {b : WordMemory} (hm : k'.memory = { m₂ with bytes := b })
    (hbytes : ∀ x, (x < I.stack slot ∨ I.stack slot + 4096 ≤ x) → b x = m₂.bytes x)
    (htasks : ∀ j ≠ slot, k'.tasks j = k.tasks j) (hseg : k'.segments = k.segments)
    (hheld : held.Perm ((k'.tasks slot).held b))
    (hok : TaskOk I.toKernelLayout b (k'.tasks slot)) :
    Handover I k k' ((k.tasks slot).held k.memory.bytes) held (newOwner k' slot) := by
  have hstack := I.stack_inside slot
  have hapart := I.stack_apart slot
  have hres : m₂.reserved_pages = k.memory.reserved_pages := hf.reserved.trans hb.reserved
  -- what is in use and does not go back keeps its bytes, apart from the stack of the slot
  have hkeep : ∀ x, k.memory.Used x →
      (∀ a ∈ (k.tasks slot).held k.memory.bytes, x / 4096 ≠ a / 4096) →
      (x < I.stack slot ∨ I.stack slot + 4096 ≤ x) → b x = k.memory.bytes x := fun x hu hgone hx =>
    (hbytes x hx).trans ((hf.bytes x hgone).trans (hb.bytes x hu))
  have hgone : ∀ a ∈ (k.tasks slot).held k.memory.bytes, Outside k.memory a := fun a ha => by
    obtain ⟨o, ho, hmem⟩ := mem_held_iff.mp ha
    exact hi.outside (by rintro rfl; cases ho) hmem
  have himage : ∀ x < I.kernelEnd, (x < I.stack slot ∨ I.stack slot + 4096 ≤ x) →
      b x = k.memory.bytes x := fun x hx hs => by
    refine hkeep x (hi.accounts.used_image hi.reserved hx) (fun a ha => ?_) hs
    obtain ⟨h₁, -, h₂, -⟩ := hgone a ha
    have h₃ := hi.reserved
    unfold Reserved at h₃
    omega
  have hother : ∀ j ≠ slot, TaskOk I.toKernelLayout b (k.tasks j) ∧
      (k.tasks j).tables b = (k.tasks j).tables k.memory.bytes := fun j hj => by
    refine (hi.task j).congr fun a ha x hx hlt => ?_
    have hmem : a ∈ (k.tasks j).held k.memory.bytes := List.mem_append_right _ ha
    obtain ⟨o, ho, hown⟩ := mem_held_iff.mp hmem
    obtain ⟨h₁, -, h₂, -⟩ := hi.outside (by rintro rfl; cases ho) hown
    have h₃ := hi.reserved
    unfold Reserved at h₃
    have hpage : x / 4096 = a / 4096 := by omega
    refine hkeep x ?_ (fun c hc he => ?_) (by omega)
    · rw [Used, hpage]
      exact hi.used_of hown
    · obtain ⟨o', ho', hown'⟩ := mem_held_iff.mp hc
      have hc₁ := (hi.page o' c hown').1
      obtain rfl : a = c := by omega
      obtain rfl := hi.disjoint o o' a hown hown'
      exact hj (Option.some.inj (ho.symm.trans ho'))
  have hsame : ∀ o, o.slot ≠ some slot → ownedBy k' o = ownedBy k o := fun o ho => by
    refine ownedBy_congr (by rw [hm]; exact hres) hseg fun i hoi => ?_
    have hne : i ≠ slot := by
      rintro rfl
      exact ho hoi
    refine ⟨htasks i hne, ?_⟩
    rw [hm]
    exact (hother i hne).2
  have hnodup : ((k'.tasks slot).held k'.memory.bytes).Nodup := by
    rw [hm]
    exact hheld.nodup_iff.mp hb.nodup
  have hmem : ∀ a, a ∈ held ↔ a ∈ (k'.tasks slot).held k'.memory.bytes := fun a => by
    rw [hm]
    exact hheld.mem_iff
  refine ⟨?_, ?_, ?_, fun i => ?_, hb.page, fun p hp => ?_, fun o a => ?_, fun o => ?_, fun a ha =>
    ⟨slot, ha, hslot⟩⟩
  · obtain ⟨h₁, h₂, h₃, h₄⟩ := hf.accounts hb.accounts
    rw [hm]
    exact ⟨h₁, h₂, h₃, h₄⟩
  · rw [hm]
    exact hres
  · rw [hm]
    have hd := I.directory_inside
    have ht := I.tables_inside
    exact hi.kernelSpace.congr (fun x _ _ => himage x (by omega) (by omega))
      (fun x _ _ => himage x (by omega) (by omega))
  · rw [hm]
    by_cases he : i = slot
    · rw [he]
      exact hok
    · rw [htasks i he]
      exact (hother i he).1
  · rw [hm]
    exact (hf.used p hp).trans (and_congr_left fun _ => hb.used p hp)
  · by_cases ho : o.slot = some slot
    · have hnot : ¬ (a ∈ ownedBy k o ∧ a ∉ (k.tasks slot).held k.memory.bytes) := fun h =>
        h.2 (mem_held_iff.mpr ⟨o, ho, h.1⟩)
      rw [mem_ownedBy_newOwner hnodup ho, or_iff_right hnot, hmem a]
    · have hnot : ¬ (a ∈ held ∧ newOwner k' slot a = o) := by
        rintro ⟨-, rfl⟩
        exact ho newOwner_slot
      rw [hsame o ho, or_iff_left hnot]
      refine (and_iff_left_of_imp fun hown hg => ?_).symm
      obtain ⟨o', ho', hown'⟩ := mem_held_iff.mp hg
      obtain rfl := hi.disjoint o o' a hown hown'
      exact ho ho'
  · by_cases ho : o.slot = some slot
    · rw [Task.held, List.nodup_append, List.nodup_append] at hnodup
      cases o with
      | kernel | heap => cases ho
      | task i => cases ho; exact hnodup.1
      | directory i => cases ho; exact hnodup.2.1.1
      | table i => cases ho; exact hnodup.2.1.2.1
    · rw [hsame o ho]
      exact hi.nodup o

end

end Os
end Techuila
