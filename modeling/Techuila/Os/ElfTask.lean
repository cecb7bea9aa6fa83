import Techuila.Os.Machine

/-!
# What the loader makes of an image

* `newest`: of the pages that a plan maps at an address, the one that stays.
* `ElfLoads`, `Untouched`, `BuildsExactly`: the process that an image describes, or nothing.
* `builds_exactly_iff`: when a call of `scheduler_create_elf_user_task` builds exactly that.
* `emptyAtCode`: an image whose code is hidden behind an empty segment.
-/

namespace Techuila
namespace Os

open Techuila.Dist (Bytes)
open Memory

/-! ## Pages over pages -/

/-- The page that the loader maps last where `v` is. -/
def newest (image : Bytes) (plan : ElfLoadPlan) (v : Nat) : Option PlannedPage :=
  (plannedPages image plan).reverse.find? fun P => pteIndexFor P.vaddr == pteIndexFor v

/-- An empty segment where another one starts. -/
def emptyAt (v : Nat) (s : ElfSegmentPlan) : Bool := s.memSize == 0 && s.virtualAddress == v

/-- Where an empty segment follows a segment at its address, the last one has the same flag, and there the
file has zeros. -/
def Intact (image : Bytes) (segments : List ElfSegmentPlan) : Prop :=
  ∀ l₁ s l₂, segments = l₁ ++ s :: l₂ → s.memSize ≠ 0 →
    ∀ t ∈ l₂.reverse.find? (emptyAt s.virtualAddress), t.writable = s.writable ∧
      ∀ i < s.fileSize, i < PAGE_SIZE → image.getD (s.fileOffset + i) 0 = 0

theorem findSome?_eq_map {α β : Type} {l : List α} {g : α → Option β} {c : α → Bool} {f : α → β}
    (h : ∀ a ∈ l, g a = if c a then some (f a) else none) :
    l.findSome? g = (l.find? c).map f := by
  induction l with
  | nil => rfl
  | cons a l ih =>
    have ih := ih fun b hb => h b (List.mem_cons_of_mem _ hb)
    rw [List.findSome?_cons, List.find?_cons, h a (List.mem_cons_self ..), ih]
    cases c a <;> rfl

/-- The only element that satisfies a predicate is found. -/
theorem find?_eq_of_unique {α : Type} {l : List α} {p : α → Bool} {a : α} (ha : a ∈ l)
    (hp : p a = true) (h : ∀ b ∈ l, p b = true → b = a) : l.find? p = some a := by
  cases hfind : l.find? p with
  | none => exact absurd hp (List.find?_eq_none.mp hfind a ha)
  | some b => rw [h b (List.mem_of_find?_eq_some hfind) (List.find?_some hfind)]

section
variable {image : Bytes} {plan : ElfLoadPlan} {s t : ElfSegmentPlan} {i p : Nat}

/-- In the window of user pages, an entry of the table is a page. -/
theorem pteIndexFor_eq_iff {v w : Nat} (hv : pdeIndexFor v = 4) (hw : pdeIndexFor w = 4) :
    pteIndexFor v = pteIndexFor w ↔ v / 4096 = w / 4096 := by
  unfold pdeIndexFor at hv hw
  unfold pteIndexFor
  omega

theorem SegmentOk.pde (hs : SegmentOk image s) (hi : i < s.memSize) :
    pdeIndexFor (s.virtualAddress + i) = 4 := by
  have h₁ := hs.above
  have h₂ := hs.below
  unfold pdeIndexFor
  omega

/-- Of its own pages, a segment has the one with the address. -/
theorem find?_segmentPages_self (hs : SegmentOk image s) (hi : i < s.memSize) :
    (segmentPages image s).reverse.find?
      (fun P => pteIndexFor P.vaddr == pteIndexFor (s.virtualAddress + i)) =
    some (segmentPage image s (i / 4096)) := by
  have hal := hs.aligned
  have hpages : i / 4096 < pagesForSegment s.memSize := by
    rw [pagesForSegment_eq, if_neg (by omega)]
    omega
  have hindex : ∀ p < pagesForSegment s.memSize,
      pteIndexFor (s.virtualAddress + p * 4096) = pteIndexFor (s.virtualAddress + i) ↔
        p = i / 4096 := fun p hp => by
    rw [pteIndexFor_eq_iff (hs.window hp).2 (hs.pde hi)]
    omega
  refine find?_eq_of_unique ?_ (beq_iff_eq.mpr ((hindex _ hpages).mpr rfl)) fun P hP hp => ?_
  · exact List.mem_reverse.mpr (List.mem_map_of_mem (List.mem_range.mpr hpages))
  · obtain ⟨p, hmem, rfl⟩ := List.mem_map.mp (List.mem_reverse.mp hP)
    rw [(hindex p (List.mem_range.mp hmem)).mp (beq_iff_eq.mp hp)]

/-- Another segment has a page there only if it is empty, and at the start of the segment. -/
theorem find?_segmentPages_other (hs : SegmentOk image s) (ht : SegmentOk image t)
    (hapart : NoOverlap s t) (hi : i < s.memSize) :
    (segmentPages image t).reverse.find?
      (fun P => pteIndexFor P.vaddr == pteIndexFor (s.virtualAddress + i)) =
    if i < 4096 && emptyAt s.virtualAddress t then some (segmentPage image t 0) else none := by
  have hsal := hs.aligned
  have htal := ht.aligned
  have hindex : ∀ p < pagesForSegment t.memSize,
      pteIndexFor (t.virtualAddress + p * 4096) = pteIndexFor (s.virtualAddress + i) ↔
        t.virtualAddress + p * 4096 = s.virtualAddress + i / 4096 * 4096 := fun p hp => by
    rw [pteIndexFor_eq_iff (ht.window hp).2 (hs.pde hi)]
    omega
  unfold NoOverlap rangesOverlap pageAlignDown ELF_PAGE_SIZE at hapart
  rw [Bool.and_eq_false_iff, decide_eq_false_iff_not, decide_eq_false_iff_not] at hapart
  by_cases hempty : (i < 4096 && emptyAt s.virtualAddress t) = true
  · rw [if_pos hempty]
    unfold emptyAt at hempty
    rw [Bool.and_eq_true, Bool.and_eq_true, decide_eq_true_eq, beq_iff_eq, beq_iff_eq] at hempty
    obtain ⟨hlt, hzero, hv⟩ := hempty
    have hone : segmentPages image t = [segmentPage image t 0] := by
      rw [segmentPages, hzero]
      rfl
    rw [hone]
    refine List.find?_cons_of_pos (beq_iff_eq.mpr ((hindex 0 ?_).mpr ?_))
    · rw [hzero]
      exact Nat.one_pos
    · omega
  · rw [if_neg hempty]
    unfold emptyAt at hempty
    rw [Bool.and_eq_true, Bool.and_eq_true, decide_eq_true_eq, beq_iff_eq, beq_iff_eq] at hempty
    refine List.find?_eq_none.mpr fun P hP hp => ?_
    obtain ⟨p, hmem, rfl⟩ := List.mem_map.mp (List.mem_reverse.mp hP)
    have hlt := List.mem_range.mp hmem
    have heq := (hindex p hlt).mp (beq_iff_eq.mp hp)
    rw [pagesForSegment_eq] at hlt
    split at hlt <;> omega

/-- What stays where a segment has a byte: the page of the last empty segment that follows at the address,
else its own. -/
theorem PlanOk.newest_eq (hplan : PlanOk image plan) {l₁ l₂ : List ElfSegmentPlan}
    (he : plan.segments = l₁ ++ s :: l₂) (hi : i < s.memSize) :
    newest image plan (s.virtualAddress + i) =
      match if i < 4096 then l₂.reverse.find? (emptyAt s.virtualAddress) else none with
      | some t => some (segmentPage image t 0)
      | none => some (segmentPage image s (i / 4096)) := by
  have hs : SegmentOk image s := hplan.segment s (by rw [he]; simp)
  have hapart := hplan.apart
  rw [he, List.pairwise_append] at hapart
  have hother : ∀ t ∈ l₂, SegmentOk image t ∧ NoOverlap s t := fun t ht =>
    ⟨hplan.segment t (by rw [he]; simp [ht]), (List.pairwise_cons.mp hapart.2.1).1 t ht⟩
  have hstack : (pteIndexFor ELF_STACK_PAGE_VADDR == pteIndexFor (s.virtualAddress + i)) = false := by
    have hbelow := hs.below
    rw [beq_eq_false_iff_ne, Ne, pteIndexFor_eq_iff (by decide) (hs.pde hi)]
    rw [show ELF_STACK_PAGE_VADDR / 4096 = 0x1008 by decide]
    omega
  have hlater : (l₂.reverse.findSome? fun t => (segmentPages image t).reverse.find?
      fun P => pteIndexFor P.vaddr == pteIndexFor (s.virtualAddress + i)) =
        (if i < 4096 then l₂.reverse.find? (emptyAt s.virtualAddress) else none).map
          fun t => segmentPage image t 0 := by
    rw [findSome?_eq_map fun t ht => find?_segmentPages_other hs (hother t (List.mem_reverse.mp ht)).1
      (hother t (List.mem_reverse.mp ht)).2 hi]
    by_cases hlt : i < 4096
    · simp only [hlt, decide_true, Bool.true_and, if_true]
    · simp only [hlt, decide_false, Bool.false_and, if_false]
      rw [List.find?_eq_none.mpr fun _ _ h => Bool.false_ne_true h]
  unfold newest plannedPages loadPages
  rw [List.reverse_append, List.reverse_singleton, List.singleton_append,
    List.find?_cons_of_neg (by rw [elfStackPage, hstack]; exact Bool.false_ne_true), he,
    List.flatMap_append, List.flatMap_cons, List.reverse_append, List.reverse_append,
    List.reverse_flatMap, List.append_assoc, List.find?_append, List.find?_flatMap, List.find?_append,
    find?_segmentPages_self hs hi]
  show Option.or _ _ = _
  rw [show (List.reverse ∘ segmentPages image) = fun t => (segmentPages image t).reverse from rfl, hlater]
  cases (if i < 4096 then l₂.reverse.find? (emptyAt s.virtualAddress) else none) <;> rfl

end

/-! ## The process of an image -/

/-- The bytes of the segments, with their rights, and an empty stack. -/
structure ElfLoads (k : Kernel) (slot : Slot) (image : Bytes) (plan : ElfLoadPlan) : Prop where
  segment : ∀ s ∈ plan.segments, ∀ i < s.memSize, ∃ r,
    translate k.memory.bytes (k.tasks slot).addressSpace (s.virtualAddress + i) = some r ∧
      r.user = true ∧ r.writable = s.writable ∧ k.memory.bytes r.address =
        if i < s.fileSize then image.getD (s.fileOffset + i) 0 else 0
  stack : ∀ i < PAGE_SIZE, ∃ r,
    translate k.memory.bytes (k.tasks slot).addressSpace (ELF_STACK_PAGE_VADDR + i) = some r ∧
      r.user = true ∧ r.writable = true ∧ k.memory.bytes r.address = 0

/-- The tasks, the used pages with their count and their bytes, and the address spaces are as before. -/
structure Untouched (k k' : Kernel) : Prop where
  tasks : k'.tasks = k.tasks
  used : ∀ p < PAGE_COUNT, is_used k'.memory p = is_used k.memory p
  count : memory_used_pages k'.memory = memory_used_pages k.memory
  bytes : ∀ x, k.memory.Used x → k'.memory.bytes x = k.memory.bytes x
  spaces : ∀ i, ∀ v < 2 ^ 32, translate k'.memory.bytes (k.tasks i).addressSpace v =
    translate k.memory.bytes (k.tasks i).addressSpace v

/-- The call returns the pid of a new task with the process in it, or -1 and nothing has changed. -/
def BuildsExactly (I : KernelImage) (k : Kernel) (image : Bytes) : Prop :=
  ∃ r k', scheduler_create_elf_user_task I k image = some (r, k') ∧
    (r ≠ -1 → ∃ plan slot, elf_validate_and_plan image = some (.ok plan) ∧
      ((k.tasks slot).state = .unused ∨ (k.tasks slot).state = .dead) ∧
      (k'.tasks slot).state = .ready ∧ r = toInt32 (k'.tasks slot).pid ∧
      ElfLoads k' slot image plan) ∧
    (r = -1 → Untouched k k')

section
variable {I : KernelImage} {k k' : Kernel} {image : Bytes} {plan : ElfLoadPlan} {slot : Slot}
  {b : WordMemory} {t : Nat} {done : List Mapped}

/-- The page that stays at an address is what ring 3 finds there. -/
theorem LoadedTask.translate (h : LoadedTask I k k' image plan slot b t done) {v : Nat}
    (hv : pdeIndexFor v = 4) {P : PlannedPage} (hP : newest image plan v = some P) :
    ∃ r, translate k'.memory.bytes (k'.tasks slot).addressSpace v = some r ∧ r.user = true ∧
      r.writable = P.writable ∧ k'.memory.bytes r.address = P.bytes (v % 4096) := by
  unfold newest at hP
  rw [← h.planned, List.find?_map, Option.map_eq_some_iff] at hP
  obtain ⟨p, hfind, rfl⟩ := hP
  have hmem := List.mem_of_find?_eq_some hfind
  have hpte : pteOf done (pteIndexFor v) = p.page + (5 + if p.writable then 2 else 0) := by
    unfold pteOf
    rw [show (done.find? fun p => pteIndexFor p.vaddr == pteIndexFor v) = some p from hfind]
  rw [h.bytes]
  exact ⟨_, h.space.translate_own h.aligned.1 hv (h.aligned.2 p hmem) hpte, rfl, rfl,
    h.content p hmem _ (Nat.mod_lt _ (by decide))⟩

theorem newest_stack {i : Nat} (hi : i < PAGE_SIZE) :
    newest image plan (ELF_STACK_PAGE_VADDR + i) = some elfStackPage := by
  have hindex : pteIndexFor ELF_STACK_PAGE_VADDR = pteIndexFor (ELF_STACK_PAGE_VADDR + i) := by
    rw [show ELF_STACK_PAGE_VADDR = 0x01008000 from rfl]
    unfold PAGE_SIZE at hi
    unfold pteIndexFor
    omega
  unfold newest plannedPages
  rw [List.reverse_append, List.reverse_singleton, List.singleton_append]
  exact List.find?_cons_of_pos (beq_iff_eq.mpr hindex)

/-- What a page of a segment has at an address of the segment. -/
theorem segmentPage_bytes {s : ElfSegmentPlan} (hal : s.virtualAddress % 4096 = 0) (i : Nat) :
    (segmentPage image s (i / 4096)).bytes ((s.virtualAddress + i) % 4096) =
      if i < s.fileSize then image.getD (s.fileOffset + i) 0 else 0 := by
  have hoff : i / 4096 * 4096 + (s.virtualAddress + i) % 4096 = i := by omega
  unfold segmentPage
  dsimp only
  rw [Nat.add_assoc, hoff]

/-- An empty segment has no file bytes. -/
theorem segmentPage_empty {s : ElfSegmentPlan} (hs : SegmentOk image s) (h : s.memSize = 0) (i : Nat) :
    (segmentPage image s 0).bytes i = 0 := by
  have hsize := hs.sizes
  exact if_neg (by omega)

theorem LoadedTask.loads_iff (h : LoadedTask I k k' image plan slot b t done)
    (hplan : PlanOk image plan) : ElfLoads k' slot image plan ↔ Intact image plan.segments := by
  constructor
  · intro hl l₁ s l₂ he hsize e hfind
    have hmem : s ∈ plan.segments := by
      rw [he]
      simp
    have hs := hplan.segment s hmem
    have hempty := List.find?_some hfind
    unfold emptyAt at hempty
    rw [Bool.and_eq_true, beq_iff_eq, beq_iff_eq] at hempty
    have heok : SegmentOk image e := hplan.segment e (by
      have := List.mem_reverse.mp (List.mem_of_find?_eq_some hfind)
      rw [he]
      simp [this])
    -- in its first page, the segment is hidden
    have hhidden : ∀ i < s.memSize, i < 4096 → e.writable = s.writable ∧
        0 = if i < s.fileSize then image.getD (s.fileOffset + i) 0 else 0 := fun i hi hlt => by
      have hnew := hplan.newest_eq he hi
      rw [if_pos hlt, hfind] at hnew
      obtain ⟨r, hr, -, hw, hbyte⟩ := hl.segment s hmem i hi
      obtain ⟨r', hr', -, hw', hbyte'⟩ := h.translate (hs.pde hi) hnew
      obtain rfl := Option.some.inj (hr.symm.trans hr')
      rw [segmentPage_empty heok hempty.1] at hbyte'
      exact ⟨hw'.symm.trans hw, hbyte'.symm.trans hbyte⟩
    refine ⟨(hhidden 0 (Nat.pos_of_ne_zero hsize) (by decide)).1, fun i hi hlt => ?_⟩
    have hzero := (hhidden i (Nat.lt_of_lt_of_le hi hs.sizes) hlt).2
    rw [if_pos hi] at hzero
    exact hzero.symm
  · intro hintact
    refine ⟨fun s hmem i hi => ?_, fun i hi => ?_⟩
    · obtain ⟨l₁, l₂, he⟩ := List.append_of_mem hmem
      have hs := hplan.segment s hmem
      have hnew := hplan.newest_eq he hi
      cases hfind : if i < 4096 then l₂.reverse.find? (emptyAt s.virtualAddress) else none with
      | none =>
        rw [hfind] at hnew
        obtain ⟨r, hr, hu, hw, hbyte⟩ := h.translate (hs.pde hi) hnew
        exact ⟨r, hr, hu, hw, hbyte.trans (segmentPage_bytes hs.aligned i)⟩
      | some e =>
        rw [hfind] at hnew
        split at hfind
        swap
        · cases hfind
        rename_i hlt
        obtain ⟨hwritable, hzero⟩ := hintact l₁ s l₂ he (by omega) e hfind
        have hempty := List.find?_some hfind
        unfold emptyAt at hempty
        rw [Bool.and_eq_true, beq_iff_eq, beq_iff_eq] at hempty
        have heok : SegmentOk image e := hplan.segment e (by
          have := List.mem_reverse.mp (List.mem_of_find?_eq_some hfind)
          rw [he]
          simp [this])
        obtain ⟨r, hr, hu, hw, hbyte⟩ := h.translate (hs.pde hi) hnew
        refine ⟨r, hr, hu, hw.trans hwritable, hbyte.trans ?_⟩
        rw [segmentPage_empty heok hempty.1]
        by_cases hfile : i < s.fileSize
        · rw [if_pos hfile, hzero i hfile hlt]
        · rw [if_neg hfile]
    · obtain ⟨r, hr, hu, hw, hbyte⟩ := h.translate (by
        rw [show ELF_STACK_PAGE_VADDR = 0x01008000 from rfl]
        unfold PAGE_SIZE at hi
        unfold pdeIndexFor
        omega) (newest_stack hi)
      exact ⟨r, hr, hu, hw, hbyte⟩

/-! ## Nothing -/

/-- Two memories with the same entries on the way translate alike. -/
theorem translate_congr {m m' : WordMemory} {dir v : Nat}
    (hpde : m'.load32 (dir + 4 * pdeIndexFor v) = m.load32 (dir + 4 * pdeIndexFor v))
    (hpte : present (m.load32 (dir + 4 * pdeIndexFor v)) = true →
      m'.load32 (addressOf (m.load32 (dir + 4 * pdeIndexFor v)) + 4 * pteIndexFor v) =
        m.load32 (addressOf (m.load32 (dir + 4 * pdeIndexFor v)) + 4 * pteIndexFor v)) :
    Os.translate m' dir v = Os.translate m dir v := by
  unfold Os.translate
  dsimp only
  rw [hpde]
  cases hp : present (m.load32 (dir + 4 * pdeIndexFor v)) with
  | false =>
    rw [Bool.false_and, Bool.false_and, if_neg Bool.false_ne_true, if_neg Bool.false_ne_true]
  | true => rw [hpte hp]

/-- A walk reads only the kernel's and the tasks' tables. -/
theorem Inv.translate_congr (hi : Inv I k) {b : WordMemory}
    (hb : ∀ x, InTables I k x → b x = k.memory.bytes x) (i : Slot) {v : Nat} (hv : v < 2 ^ 32) :
    Os.translate b (k.tasks i).addressSpace v =
      Os.translate k.memory.bytes (k.tasks i).addressSpace v := by
  have hj : pteIndexFor v < 1024 := Nat.mod_lt _ (by decide)
  have hlt : pdeIndexFor v < 1024 := by
    unfold pdeIndexFor
    omega
  have hal := I.tables_aligned
  -- an entry of the kernel's tables
  have hidentity : ∀ n < 4, b.load32 (addressOf (I.identityTables + 4096 * n + 7) +
      4 * pteIndexFor v) = k.memory.bytes.load32 (addressOf (I.identityTables + 4096 * n + 7) +
        4 * pteIndexFor v) := fun n hn => by
    rw [addressOf_add (by omega) (by decide)]
    exact WordMemory.load32_congr fun x _ _ => hb x (.inr (.inl (by omega)))
  have hok := hi.task i
  unfold TaskOk at hok
  split at hok
  · rename_i huser
    obtain ⟨table, pte, hspace, htal, -⟩ := hok
    have hdir : ∀ x, (k.tasks i).addressSpace ≤ x → x < (k.tasks i).addressSpace + 4096 →
        b x = k.memory.bytes x := fun x hx hlt => hb x (.inr (.inr ⟨i, _, List.mem_append_left _ (by
      rw [Task.directory, if_pos huser]
      exact List.mem_singleton_self _), hx, hlt⟩))
    refine Os.translate_congr (WordMemory.load32_congr fun x _ _ => hdir x (by omega) (by omega))
      fun hpresent => ?_
    rcases lt_trichotomy (pdeIndexFor v) 4 with hi | hi | hi
    · rw [hspace.shared _ hi]
      exact hidentity _ hi
    · rw [hi, hspace.own] at hpresent ⊢
      cases table with
      | none => cases hpresent
      | some t =>
        rw [Option.elim_some, addressOf_add (htal t rfl) (by decide)]
        refine WordMemory.load32_congr fun x _ _ => hb x (.inr (.inr ⟨i, t,
          List.mem_append_right _ ?_, by omega, by omega⟩))
        rw [Task.tables, if_pos huser, hspace.ownTables htal]
        exact List.mem_singleton_self t
    · rw [hspace.rest _ (by omega) hlt] at hpresent
      cases hpresent
  · rw [hok.2]
    refine Os.translate_congr (WordMemory.load32_congr fun x _ _ => hb x (.inl (by omega)))
      fun hpresent => ?_
    by_cases hlo : pdeIndexFor v < 4
    · rw [hi.kernelSpace.tables _ hlo]
      exact hidentity _ hlo
    · rw [hi.kernelSpace.rest _ (by omega) hlt] at hpresent
      cases hpresent

theorem NotCreated.untouched (h : NotCreated k k') (hi : Inv I k) : Untouched k k' := by
  obtain ⟨m, rfl, hb⟩ := h
  refine ⟨rfl, fun p hp => ?_, hb.allocated, hb.bytes, fun i v hv => ?_⟩
  · rw [Bool.eq_iff_iff]
    exact (hb.used p hp).trans (or_iff_left List.not_mem_nil)
  · exact hi.translate_congr (fun x hx => hb.bytes x (hx.used hi)) i hv

/-! ## Every call -/

theorem segments_of_accepted (h : elf_validate_and_plan image = some (.ok plan)) :
    plan.segments = imageSegments image := by
  obtain ⟨v, hv, hok⟩ := elf_validate_and_plan_accepts image
  rw [hv] at h
  exact (hok plan (Option.some.inj h)).2.2

/-- The slot of the new task, by its state. -/
theorem Created.slot_eq {m₁ m₂ : Memory} {held : List Nat} {task : Task}
    (h : Created I k k' slot m₁ m₂ held b task) {i : Slot}
    (hfree : (k.tasks i).state = .unused ∨ (k.tasks i).state = .dead)
    (hready : (k'.tasks i).state = .ready) : i = slot := by
  by_contra hne
  rw [h.eq] at hready
  have hsame : (k.install slot { m₂ with bytes := b } task).tasks i = k.tasks i :=
    Function.update_of_ne hne ..
  rw [hsame] at hready
  rcases hfree with hf | hf <;> rw [hf] at hready <;> cases hready

/-- A call builds exactly what the image describes, or nothing, unless there is room for it and the pid is
returned as -1 or an empty segment hides a part of another one. -/
theorem builds_exactly_iff (hi : Inv I k) (image : Bytes) : BuildsExactly I k image ↔
    (Room k image → k.nextPid ≠ 2 ^ 32 - 1 ∧ Intact image (imageSegments image)) := by
  obtain ⟨r, k', hcall, hcases⟩ := scheduler_create_elf_user_task_cases hi image
  rcases hcases with ⟨hr, hn, hroom⟩ | ⟨plan, slot, b, t, done, hr, hv, hplan, hl, hroom⟩
  · exact iff_of_true ⟨r, k', hcall, fun hne => absurd hr hne, fun _ => hn.untouched hi⟩
      fun h => absurd h hroom
  obtain ⟨m₁, m₂, task, hc⟩ := hl.created
  have htask : k'.tasks slot = task := by
    rw [hc.eq]
    exact Function.update_self ..
  have hready : (k'.tasks slot).state = .ready := by
    rw [htask, hc.state]
  rw [← segments_of_accepted hv, ← hl.loads_iff hplan]
  constructor
  · rintro ⟨r', k₁, hcall', hsuccess, hfail⟩ -
    rw [hcall] at hcall'
    cases hcall'
    have hpid : k.nextPid ≠ 2 ^ 32 - 1 := fun hlast => by
      have hsame := (hfail (by rw [hr, hlast]; decide)).tasks
      rw [hsame] at hready
      rcases hc.free with hf | hf <;> rw [hf] at hready <;> cases hready
    refine ⟨hpid, ?_⟩
    obtain ⟨plan', slot', hv', hfree, hready', -, hloads⟩ :=
      hsuccess fun hneg => hpid (toInt32_eq_neg_one (hr.symm.trans hneg))
    obtain rfl := hc.slot_eq hfree hready'
    rw [hv] at hv'
    cases hv'
    exact hloads
  · intro h
    obtain ⟨hpid, hloads⟩ := h hroom
    refine ⟨r, k', hcall, fun _ => ⟨plan, slot, hv, hc.free, hready, ?_, hloads⟩, fun hneg => ?_⟩
    · rw [htask, hc.pid, hr]
    · exact absurd (toInt32_eq_neg_one (hr.symm.trans hneg)) hpid

end

/-- An image of one segment, that is loaded after boot. -/
theorem builds_exactly_code : BuildsExactly smallImage (boot smallImage fun _ => 0)
    (imageOf [programHeader ELF_SEGMENT_VIRTUAL_BASE 4 4 5]) := by
  refine (builds_exactly_iff (boot_inv smallImage fun _ => 0) _).mpr fun _ => ⟨?_, ?_⟩
  · rw [boot_nextPid]
    decide
  · intro l₁ s l₂ he _
    rw [show imageSegments (imageOf [programHeader ELF_SEGMENT_VIRTUAL_BASE 4 4 5]) =
      [⟨ELF_SEGMENT_VIRTUAL_BASE, 0, 4, 4, false, true⟩] by decide] at he
    have hlen := congrArg List.length he
    rw [List.length_append, List.length_singleton, List.length_cons] at hlen
    obtain rfl : l₂ = [] := List.eq_nil_of_length_eq_zero (by omega)
    exact nofun

/-! ## An image with its code hidden -/

/-- A code segment, and an empty one at its address. -/
def emptyAtCode : Bytes :=
  imageOf [programHeader ELF_SEGMENT_VIRTUAL_BASE 4 4 5, programHeader ELF_SEGMENT_VIRTUAL_BASE 0 0 6]

/-- After boot, there is room for an image that is accepted. -/
theorem boot_room {image : Bytes} {plan : ElfLoadPlan} (bytes : WordMemory)
    (h : elf_validate_and_plan image = some (.ok plan)) (hpages : plan.totalPages ≤ ELF_MAX_PAGES) :
    Room (boot smallImage bytes) image := by
  refine ⟨plan, h, ⟨1, .inl (boot_unused smallImage bytes (by decide))⟩, ?_⟩
  obtain ⟨b, -, he⟩ := boot_eq smallImage bytes
  have hallocated : (boot smallImage bytes).memory.allocated_pages = 512 := by
    rw [he]
    dsimp only
    rw [memory_init_allocated, smallImage_reserved]
  unfold memory_free_pages
  rw [hallocated]
  exact (Nat.add_le_add_right hpages 3).trans (by decide)

/-- It is loaded, and its first page is an empty one. -/
theorem builds_exactly_counterexample : ¬ ∀ (I : KernelImage) (k : Kernel) (history : List Step)
    (image : Bytes), Run I k history → BuildsExactly I k image := by
  intro hall
  obtain ⟨k, hk⟩ : ∃ k, k = boot smallImage fun _ => 0 := ⟨_, rfl⟩
  have hrun : Run smallImage k [] := hk ▸ .boot _
  have hv : elf_validate_and_plan emptyAtCode = some (.ok ⟨ELF_SEGMENT_VIRTUAL_BASE,
      [⟨ELF_SEGMENT_VIRTUAL_BASE, 0, 4, 4, false, true⟩,
        ⟨ELF_SEGMENT_VIRTUAL_BASE, 0, 0, 0, true, false⟩], 2⟩) := by decide
  have hroom : Room k emptyAtCode := hk ▸ boot_room _ hv (by decide)
  obtain ⟨r', k₁, hcall', hsuccess, -⟩ := hall smallImage k [] emptyAtCode hrun
  obtain ⟨r, k', hcall, hcases⟩ := scheduler_create_elf_user_task_cases hrun.inv emptyAtCode
  rw [hcall] at hcall'
  cases hcall'
  rcases hcases with ⟨-, -, hnot⟩ | ⟨plan, slot, b, t, done, hr, hv', hplan, hl, -⟩
  · exact hnot hroom
  rw [hv] at hv'
  cases hv'
  have hpid : r' ≠ -1 := by
    rw [hr, hk, boot_nextPid]
    decide
  obtain ⟨plan', slot', hv', hfree, hready, -, hloads⟩ := hsuccess hpid
  rw [hv] at hv'
  cases hv'
  obtain ⟨m₁, m₂, task, hc⟩ := hl.created
  obtain rfl := hc.slot_eq hfree hready
  have hintact := (hl.loads_iff hplan).mp hloads
  have hwritable := (hintact [] _ _ rfl (by decide) _ rfl).1
  cases hwritable

end Os
end Techuila
