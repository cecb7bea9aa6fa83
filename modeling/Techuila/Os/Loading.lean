import Techuila.Lib.Result
import Techuila.Os.AddressSpace
import Techuila.Os.Scheduler

/-!
# What the builders of address spaces build

* `segmentPage`, `plannedPages`: the pages that a plan describes.
* `Built`: the address space that a builder returns.
* `buildUserSpace_spec`, `buildElfSpace_spec`: everything is mapped as planned, or nothing is held.
-/

namespace Techuila
namespace Os

open Techuila.Dist (Bytes)
open Memory

/-! ## Plans -/

/-- Page `p` of a segment: its file bytes, then zeros. -/
def segmentPage (image : Bytes) (s : ElfSegmentPlan) (p : Nat) : PlannedPage where
  vaddr := s.virtualAddress + p * 4096
  writable := s.writable
  bytes i := if p * 4096 + i < s.fileSize then image.getD (s.fileOffset + p * 4096 + i) 0 else 0

def segmentPages (image : Bytes) (s : ElfSegmentPlan) : List PlannedPage :=
  (List.range (pagesForSegment s.memSize)).map (segmentPage image s)

/-- The pages of the segments, in the order of the loader. -/
def loadPages (image : Bytes) (segments : List ElfSegmentPlan) : List PlannedPage :=
  segments.flatMap (segmentPages image)

def elfStackPage : PlannedPage := ⟨ELF_STACK_PAGE_VADDR, true, fun _ => 0⟩

/-- All pages of a process. -/
def plannedPages (image : Bytes) (plan : ElfLoadPlan) : List PlannedPage :=
  loadPages image plan.segments ++ [elfStackPage]

theorem segmentPages_length (image : Bytes) (s : ElfSegmentPlan) :
    (segmentPages image s).length = pagesForSegment s.memSize := by
  rw [segmentPages, List.length_map, List.length_range]

theorem loadPages_length {image : Bytes} {plan : ElfLoadPlan} (h : PlanOk image plan) :
    (loadPages image plan.segments).length = plan.totalPages := by
  rw [loadPages, List.length_flatMap, h.total]
  simp only [segmentPages_length]

theorem pagesForSegment_eq (memSize : Nat) :
    pagesForSegment memSize = if memSize = 0 then 1 else (memSize + 4095) / 4096 := by
  unfold pagesForSegment ELF_PAGE_SIZE
  dsimp only
  split <;> split <;> omega

/-- A page of a segment that passed the checks is in the window. -/
theorem SegmentOk.window {image : Bytes} {s : ElfSegmentPlan} (h : SegmentOk image s) {p : Nat}
    (hp : p < pagesForSegment s.memSize) : (s.virtualAddress + p * 4096) % 4096 = 0 ∧
      pdeIndexFor (s.virtualAddress + p * 4096) = 4 := by
  have h₁ := h.aligned
  have h₂ := h.above
  have h₃ := h.below
  rw [pagesForSegment_eq] at hp
  unfold pdeIndexFor
  split at hp <;> omega

/-- What the loader leaves in a page. -/
theorem fillPage_spec (b : WordMemory) (image : Bytes) (s : ElfSegmentPlan) (p : Nat) {page : Nat}
    (hal : page % 4096 = 0) :
    (∀ i < 4096, fillPage b image s p page (page + i) = (segmentPage image s p).bytes i) ∧
      ∀ x, x / 4096 ≠ page / 4096 → fillPage b image s p page x = b x := by
  unfold fillPage segmentPage
  rw [show PAGE_SIZE = 4096 from rfl]
  dsimp only
  constructor
  · intro i hi
    have hpage : page ≤ page + i ∧ page + i < page + 4096 := by omega
    by_cases hfile : p * 4096 < s.fileSize
    · rw [if_pos hfile, WordMemory.storeBytes_apply, WordMemory.storeBytes_apply, if_pos hpage,
        Nat.add_sub_cancel_left]
      by_cases hin : p * 4096 + i < s.fileSize
      · rw [if_pos hin]
        exact if_pos ⟨hpage.1, by split <;> omega⟩
      · rw [if_neg hin]
        refine if_neg ?_
        rintro ⟨-, hlt⟩
        split at hlt <;> omega
    · have hin : ¬ p * 4096 + i < s.fileSize := fun h => hfile (Nat.lt_of_le_of_lt (Nat.le_add_right ..) h)
      rw [if_neg hfile, if_neg hin, WordMemory.storeBytes_apply]
      exact if_pos hpage
  · intro x hx
    have hzero : b.storeBytes page (fun _ => 0) 4096 x = b x := by
      rw [WordMemory.storeBytes_apply, if_neg (by omega)]
    by_cases hfile : p * 4096 < s.fileSize
    · rw [if_pos hfile, WordMemory.storeBytes_apply, if_neg, hzero]
      rintro ⟨hge, hlt⟩
      split at hlt <;> omega
    · rw [if_neg hfile, hzero]

/-! ## The flat binary -/

/-- The pages that a task frees, apart from those of its address space. -/
def UserSpace.pages (space : UserSpace) : List Nat :=
  (if space.codePage ≠ 0 then [space.codePage] else []) ++
    (if space.stackPage ≠ 0 then [space.stackPage] else []) ++ space.elfPages

/-- A complete address space, with these pages mapped, the newest first. -/
structure Built (L : KernelLayout) (m₀ : Memory) (space : UserSpace) (t : Nat)
    (done : List Mapped) : Prop where
  building : Building L m₀ space.memory space.addressSpace (some t) done []
  pages : (done.map (·.page)).Perm space.pages

section
variable {L : KernelLayout} {m₀ m : Memory} {dir : Nat} {table : Option Nat} {done : List Mapped}
  {extra pages : List Nat}

theorem Building.dir_ne (h : Building L m₀ m dir table done extra) (hr : Reserved L m₀) :
    dir ≠ L.kernelDirectory := by
  rintro rfl
  have := L.directory_inside
  exact (h.busy.bounds (List.mem_cons_self ..)).2.2.2.2 (h.busy.start.used_image hr (by omega))

/-- Giving back everything that a construction holds. -/
theorem Building.rollback_busy (h : Building L m₀ m dir table done extra) (hr : Reserved L m₀)
    (hp : pages.Perm (done.map (·.page) ++ extra)) : m₀.Busy (rollback L dir m pages) [] := by
  have houtside : ∀ a ∈ dir :: (table.toList ++ (done.map (·.page) ++ extra)), Outside m a :=
    fun a ha => h.busy.outside ha
  have hmem : ∀ a ∈ pages, a ∈ dir :: (table.toList ++ (done.map (·.page) ++ extra)) := fun a ha =>
    List.mem_cons_of_mem _ (List.mem_append_right _ (hp.mem_iff.mp ha))
  have hpages : Frees m (pages.foldl memory_free_page m) pages :=
    foldl_frees fun a ha => houtside a (hmem a ha)
  have hspace : Frees (pages.foldl memory_free_page m) (rollback L dir m pages)
      (dir :: table.toList) := by
    refine destroy_frees (f := pteOf done) ?_ ?_ (fun t ht => ?_) (h.dir_ne hr)
    · rw [foldl_free_bytes]
      exact h.space
    · have := houtside dir (List.mem_cons_self ..)
      rwa [Outside, hpages.reserved]
    · have := houtside t (by simp [Option.mem_toList.mpr ht])
      rwa [Outside, hpages.reserved]
  refine h.busy.release ((hpages.trans hspace).of_mem fun a => ?_)
  simp only [List.mem_append, List.mem_cons, hp.mem_iff]
  tauto

theorem rollback_cons (a : Nat) :
    rollback L dir (memory_free_page m a) pages = rollback L dir m (a :: pages) := rfl

/-- The same, with the address space first. -/
theorem Building.undo_busy (h : Building L m₀ m dir table done extra) (hr : Reserved L m₀)
    (hp : pages.Perm (done.map (·.page) ++ extra)) :
    m₀.Busy (pages.foldl memory_free_page (paging_destroy_address_space L m dir)) [] := by
  have houtside : ∀ a ∈ dir :: (table.toList ++ (done.map (·.page) ++ extra)), Outside m a :=
    fun a ha => h.busy.outside ha
  have hspace : Frees m (paging_destroy_address_space L m dir) (dir :: table.toList) :=
    destroy_frees h.space (houtside dir (List.mem_cons_self ..))
      (fun t ht => houtside t (by simp [Option.mem_toList.mpr ht])) (h.dir_ne hr)
  have hpages := foldl_frees (m := paging_destroy_address_space L m dir) (l := pages)
    fun a ha => by
      have := houtside a (List.mem_cons_of_mem _ (List.mem_append_right _ (hp.mem_iff.mp ha)))
      rwa [Outside, hspace.reserved]
  refine h.busy.release ((hspace.trans hpages).of_mem fun a => ?_)
  simp only [List.mem_append, List.mem_cons, hp.mem_iff]
  tauto

/-- What `buildUserSpace` builds, or it leaves everything as it was where too few pages are free. -/
theorem buildUserSpace_spec (hacc : m₀.Accounts) (hr : Reserved L m₀)
    (hk : KernelSpace L m₀.bytes) {code : Bytes} (hlen : code.length ≤ 4096) :
    (∃ m, buildUserSpace L m₀ code = .error m ∧ m₀.Busy m [] ∧ m₀.freePages.card < 4) ∨
      ∃ space t done, buildUserSpace L m₀ code = .ok space ∧ Built L m₀ space t done ∧
        4 ≤ m₀.freePages.card := by
  unfold buildUserSpace
  rcases (Busy.init hacc).alloc with ⟨he, hfull⟩ | ⟨a, m₁, he, hane, -, hbusy₁⟩
  · rw [he]
    exact .inl ⟨_, rfl, .init hacc, Nat.lt_of_le_of_lt hfull (by decide)⟩
  rw [he]
  dsimp only
  rw [if_neg hane]
  rcases hbusy₁.alloc with ⟨he, hfull⟩ | ⟨b, m₂, he, hbne, -, hbusy₂⟩
  · rw [he]
    exact .inl ⟨_, rfl, hbusy₁.release (foldl_frees fun c hc => hbusy₁.outside hc),
      Nat.lt_of_le_of_lt hfull (show 1 < 4 by decide)⟩
  rw [he]
  dsimp only
  rw [if_neg hbne]
  have hbusy₂ : m₀.Busy m₂ [a, b] := hbusy₂.perm (List.Perm.swap a b [])
  rcases Building.create hbusy₂ hr hk with ⟨he, hfull⟩ | ⟨dir, m₃, he, hdne, hbuild, -⟩
  · rw [he]
    exact .inl ⟨_, rfl, hbusy₂.release (foldl_frees fun c hc => hbusy₂.outside hc),
      Nat.lt_of_le_of_lt hfull (show 2 < 4 by decide)⟩
  rw [he]
  dsimp only
  rw [if_neg hdne]
  have haal : a % 4096 = 0 := (hbusy₂.page a (by simp)).1
  have hbal : b % 4096 = 0 := (hbusy₂.page b (by simp)).1
  rw [show PAGE_SIZE = 4096 from rfl]
  have hstack := hbuild.write (a := b) (by simp)
    (b := m₃.bytes.storeBytes b (fun _ => 0) 4096) fun x hx => by
      rw [WordMemory.storeBytes_apply, if_neg (by omega)]
  have hcode := hstack.write (a := a) (by simp)
    (b := ((m₃.bytes.storeBytes b (fun _ => 0) 4096).storeBytes a (fun i => code.getD i 0)
      code.length).storeBytes (a + code.length) (fun _ => 0) (4096 - code.length)) fun x hx => by
      rw [WordMemory.storeBytes_apply, if_neg (by omega), WordMemory.storeBytes_apply,
        if_neg (by omega)]
  rcases hcode.map (v := USER_CODE_VADDR) rfl rfl true (fun _ _ => rfl) with
    ⟨he, hfull⟩ | ⟨m₄, t, he, hbuild₁⟩
  · rw [he]
    exact .inl ⟨_, rfl, hcode.undo_busy hr (.refl [a, b]),
      Nat.lt_of_le_of_lt hfull (show 3 < 4 by decide)⟩
  rw [he]
  dsimp only
  rcases hbuild₁.map (v := USER_STACK_PAGE_VADDR) rfl rfl true (fun _ _ => rfl) with
    ⟨he, hfull⟩ | ⟨m₅, t', he, hbuild₂⟩
  · rw [he]
    exact .inl ⟨_, rfl, hbuild₁.undo_busy hr (.refl [a, b]),
      Nat.lt_of_le_of_lt hfull (show 3 < 4 by decide)⟩
  rw [he]
  have hfree : 4 ≤ m₀.freePages.card := hbuild₂.busy.length_le
  refine .inr ⟨_, t', _, rfl, ⟨hbuild₂, ?_⟩, hfree⟩
  unfold UserSpace.pages
  rw [if_pos hane, if_pos hbne]
  exact List.Perm.swap a b []

/-! ## The loader -/

/-- What the loops have after these pages. -/
def Loaded (L : KernelLayout) (m₀ : Memory) (dir : Nat) (l : List PlannedPage)
    (state : Memory × List Nat) : Prop :=
  ∃ table done, Building L m₀ state.1 dir table done [] ∧
    state.2 = (done.map (·.page)).reverse ∧ done.map (·.toPlannedPage) = l.reverse

/-- A round of the inner loop, where `n` pages are planned. -/
theorem loadPage_spec (hr : Reserved L m₀) {image : Bytes} {s : ElfSegmentPlan}
    (hok : SegmentOk image s) {p : Nat} (hp : p < pagesForSegment s.memSize)
    {l : List PlannedPage} {state : Memory × List Nat} (h : Loaded L m₀ dir l state) {n : Nat}
    (hl : l.length < n) (hn : n ≤ 8) :
    (∃ m, loadPage L image dir s state p = .error m ∧ m₀.Busy m [] ∧ m₀.freePages.card < n + 3) ∨
      ∃ state', loadPage L image dir s state p = .ok state' ∧
        Loaded L m₀ dir (l ++ [segmentPage image s p]) state' := by
  obtain ⟨m, pages⟩ := state
  obtain ⟨table, done, hbuild, rfl, hdone⟩ := h
  have hlen : done.length = l.length := by
    rw [← List.length_map, hdone, List.length_reverse]
  have htable : table.toList.length ≤ 1 := by cases table <;> simp
  obtain ⟨hv, hi⟩ := hok.window hp
  dsimp only at hbuild
  unfold loadPage
  dsimp only
  rw [if_neg (by rw [List.length_reverse, List.length_map]; unfold ELF_MAX_PAGES; omega)]
  rcases hbuild.alloc with ⟨he, hfull⟩ | ⟨a, m₁, he, hane, hbuild₁⟩
  · rw [he]
    rw [List.length_nil] at hfull
    refine .inl ⟨_, rfl, hbuild.rollback_busy hr ?_, by omega⟩
    rw [List.append_nil]
    exact List.reverse_perm _
  rw [he]
  dsimp only
  rw [if_neg hane, show PAGE_SIZE = 4096 from rfl]
  have haal : a % 4096 = 0 := (hbuild₁.busy.page a (by simp)).1
  obtain ⟨hfill, hout⟩ := fillPage_spec m₁.bytes image s p haal
  have hbuild₂ := hbuild₁.write (List.mem_singleton_self a) hout
  rcases hbuild₂.map hv hi s.writable hfill with ⟨he, hfull⟩ | ⟨m₂, t, he, hbuild₃⟩
  · rw [he]
    rw [List.length_nil] at hfull
    refine .inl ⟨_, rfl, hbuild₂.rollback_busy hr ?_, by omega⟩
    exact (List.reverse_perm _).append_right _
  · rw [he]
    refine .inr ⟨_, rfl, some t, _, hbuild₃, ?_, ?_⟩
    · rw [List.map_cons, List.reverse_cons]
    · rw [List.map_cons, hdone, List.reverse_append, List.reverse_singleton,
        List.singleton_append]
      rfl

/-- The inner loop. -/
theorem loadSegment_spec (hr : Reserved L m₀) {image : Bytes} {s : ElfSegmentPlan}
    (hok : SegmentOk image s) {l : List PlannedPage} {state : Memory × List Nat}
    (h : Loaded L m₀ dir l state) {n : Nat} (hl : l.length + pagesForSegment s.memSize ≤ n)
    (hn : n ≤ 8) :
    (∃ m, loadSegment L image dir state s = .error m ∧ m₀.Busy m [] ∧ m₀.freePages.card < n + 3) ∨
      ∃ state', loadSegment L image dir state s = .ok state' ∧
        Loaded L m₀ dir (l ++ segmentPages image s) state' := by
  have hloop := foldlM_cases (f := loadPage L image dir s) (l := List.range (pagesForSegment s.memSize))
    (P := fun l₁ state => Loaded L m₀ dir (l ++ l₁.map (segmentPage image s)) state)
    (Q := fun m => m₀.Busy m [] ∧ m₀.freePages.card < n + 3) (fun l₁ p l₂ state he hstate => ?_)
    (b := state) (by rwa [List.map_nil, List.append_nil])
  · exact hloop
  · have hp : p < pagesForSegment s.memSize := List.mem_range.mp (by rw [he]; simp)
    have hlen := congrArg List.length he
    rw [List.length_range, List.length_append, List.length_cons] at hlen
    rcases loadPage_spec hr hok hp hstate
      (by rw [List.length_append, List.length_map]; omega) hn with hfail | ⟨state', hok', hloaded⟩
    · exact .inl hfail
    · refine .inr ⟨state', hok', ?_⟩
      rwa [List.map_append, ← List.append_assoc]

/-- The outer loop. -/
theorem loadSegments_spec (hr : Reserved L m₀) {image : Bytes} {plan : ElfLoadPlan}
    (hplan : PlanOk image plan) (h : Building L m₀ m dir none [] []) :
    (∃ m', plan.segments.foldlM (loadSegment L image dir) (m, []) = .error m' ∧ m₀.Busy m' [] ∧
      m₀.freePages.card < plan.totalPages + 3) ∨
      ∃ state, plan.segments.foldlM (loadSegment L image dir) (m, []) = .ok state ∧
        Loaded L m₀ dir (loadPages image plan.segments) state := by
  refine foldlM_cases (P := fun l₁ state => Loaded L m₀ dir (loadPages image l₁) state)
    (Q := fun m => m₀.Busy m [] ∧ m₀.freePages.card < plan.totalPages + 3)
    (fun l₁ s l₂ state he hstate => ?_) ⟨none, [], h, rfl, rfl⟩
  have hlen := loadPages_length hplan
  rw [he, loadPages, List.flatMap_append, List.flatMap_cons, List.length_append, List.length_append,
    segmentPages_length, ← loadPages] at hlen
  rcases loadSegment_spec hr (hplan.segment s (by rw [he]; simp)) hstate (n := plan.totalPages)
    (by omega) hplan.pages with hfail | ⟨state', hok', hloaded⟩
  · exact .inl hfail
  · refine .inr ⟨state', hok', ?_⟩
    rwa [loadPages, List.flatMap_append, List.flatMap_cons, List.flatMap_nil, List.append_nil,
      ← loadPages]

/-- What the loader builds: all pages of the plan, or nothing where too few pages are free. -/
theorem buildElfSpace_spec (hacc : m₀.Accounts) (hr : Reserved L m₀) (hk : KernelSpace L m₀.bytes)
    {image : Bytes} {plan : ElfLoadPlan} (hplan : PlanOk image plan) :
    (∃ m, buildElfSpace L m₀ image plan = .error m ∧ m₀.Busy m [] ∧
      m₀.freePages.card < plan.totalPages + 3) ∨
      ∃ space t done, buildElfSpace L m₀ image plan = .ok space ∧ Built L m₀ space t done ∧
        done.map (·.toPlannedPage) = (plannedPages image plan).reverse ∧
        plan.totalPages + 3 ≤ m₀.freePages.card := by
  unfold buildElfSpace
  rcases Building.create (Busy.init hacc) hr hk with ⟨he, hfull⟩ | ⟨dir, m₁, he, hdne, hbuild, -⟩
  · rw [he]
    rw [List.length_nil] at hfull
    exact .inl ⟨_, rfl, .init hacc, by omega⟩
  rw [he]
  dsimp only
  rw [if_neg hdne]
  rcases loadSegments_spec hr hplan hbuild with ⟨m, he, hfail⟩ | ⟨⟨m₂, pages⟩, he, hloaded⟩
  · rw [he]
    exact .inl ⟨_, rfl, hfail⟩
  rw [he]
  obtain ⟨table, done, hbuild₂, hpages, hdone⟩ := hloaded
  dsimp only at hbuild₂ hpages ⊢
  subst hpages
  have hlen : done.length = plan.totalPages := by
    have hmap := congrArg List.length hdone
    rwa [List.length_map, List.length_reverse, loadPages_length hplan] at hmap
  have htable : table.toList.length ≤ 1 := by cases table <;> simp
  rcases hbuild₂.alloc with ⟨he, hfull⟩ | ⟨b, m₃, he, hbne, hbuild₃⟩
  · rw [he]
    rw [List.length_nil] at hfull
    refine .inl ⟨_, rfl, hbuild₂.rollback_busy hr ?_, by omega⟩
    rw [List.append_nil]
    exact List.reverse_perm _
  rw [he]
  dsimp only
  rw [if_neg hbne, show PAGE_SIZE = 4096 from rfl]
  have hbal : b % 4096 = 0 := (hbuild₃.busy.page b (by simp)).1
  have hbuild₄ := hbuild₃.write (List.mem_singleton_self b)
    (b := m₃.bytes.storeBytes b (fun _ => 0) 4096) fun x hx => by
      rw [WordMemory.storeBytes_apply, if_neg (by omega)]
  have hzero : ∀ i < 4096, m₃.bytes.storeBytes b (fun _ => 0) 4096 (b + i) = (fun _ => 0) i :=
    fun i hi => by
      rw [WordMemory.storeBytes_apply]
      exact if_pos ⟨Nat.le_add_right .., Nat.add_lt_add_left hi _⟩
  rcases hbuild₄.map (v := ELF_STACK_PAGE_VADDR) rfl rfl true hzero with
    ⟨he, hfull⟩ | ⟨m₄, t, he, hbuild₅⟩
  · rw [he]
    rw [List.length_nil] at hfull
    refine .inl ⟨_, rfl, ?_, by omega⟩
    rw [rollback_cons]
    exact hbuild₄.rollback_busy hr
      (((List.reverse_perm _).cons b).trans (List.perm_append_singleton b _).symm)
  rw [he]
  refine .inr ⟨_, t, _, rfl, ⟨hbuild₅, ?_⟩, ?_, ?_⟩
  · unfold UserSpace.pages
    rw [if_neg (not_not.mpr rfl), if_pos hbne]
    exact (List.reverse_perm _).symm.cons b
  · rw [List.map_cons, hdone, plannedPages, List.reverse_append, List.reverse_singleton,
      List.singleton_append]
    rfl
  · have hle := hbuild₅.busy.length_le
    simp only [List.length_cons, List.length_append, List.length_map, Option.toList_some,
      List.length_nil] at hle
    omega

end

end Os
end Techuila
