import Techuila.Os.Paging

/-!
# Building and destroying address spaces

* `Building L m₀ m dir table done extra`: an operation that started in `m₀` has built a directory, has
  mapped the pages `done` in it, the newest first, and holds the pages `extra`.
* `Building.create`, `Building.alloc`, `Building.write`, `Building.map`: what each call does to it.
* `foldl_frees`, `destroy_frees`: what is given back.
-/

namespace Techuila
namespace Os

open Memory

/-- What a page of an address space is to be. -/
structure PlannedPage where
  vaddr : Nat
  writable : Bool
  bytes : Nat → UInt8

/-- A page that is filled and mapped. -/
structure Mapped extends PlannedPage where
  page : Nat

/-- The entry of a table in which these pages were mapped, the newest first. -/
def pteOf (done : List Mapped) (j : Nat) : Nat :=
  match done.find? fun p => pteIndexFor p.vaddr == j with
  | none => 0
  | some p => p.page + (5 + if p.writable then 2 else 0)

/-- An address space under construction. -/
structure Building (L : KernelLayout) (m₀ m : Memory) (dir : Nat) (table : Option Nat)
    (done : List Mapped) (extra : List Nat) : Prop where
  busy : m₀.Busy m (dir :: (table.toList ++ (done.map (·.page) ++ extra)))
  space : Space L m.bytes dir table (pteOf done)
  empty : table = none → done = []
  bytes : ∀ p ∈ done, ∀ i < 4096, m.bytes (p.page + i) = p.bytes i

/-- The kernel's image is reserved. -/
def Reserved (L : KernelLayout) (m : Memory) : Prop := L.kernelEnd ≤ 4096 * m.reserved_pages

section
variable {L : KernelLayout} {m₀ m : Memory} {dir : Nat} {table : Option Nat} {done : List Mapped}
  {extra held : List Nat}

/-- The kernel's image is in use. -/
theorem Memory.Accounts.used_image (h : m.Accounts) (hr : Reserved L m) {x : Nat}
    (hx : x < L.kernelEnd) : m.Used x := by
  unfold Reserved at hr
  exact h.reserved _ (by omega)

theorem Memory.Busy.kernelSpace (h : m₀.Busy m held) (hr : Reserved L m₀)
    (hk : KernelSpace L m₀.bytes) : KernelSpace L m.bytes := by
  have h₂ := L.directory_inside
  have h₃ := L.tables_inside
  exact hk.congr (fun x _ _ => h.bytes x (h.start.used_image hr (by omega)))
    (fun x _ _ => h.bytes x (h.start.used_image hr (by omega)))

/-- Two held pages have no address in common. -/
theorem Memory.Busy.apart (h : m₀.Busy m held) {a b : Nat} (ha : a ∈ held) (hb : b ∈ held)
    (hne : a ≠ b) : a / 4096 ≠ b / 4096 := by
  have h₁ := (h.page a ha).1
  have h₂ := (h.page b hb).1
  omega

/-! ## The steps -/

/-- The directory: no page for it, or it maps the kernel's tables and nothing else. -/
theorem Building.create (h : m₀.Busy m extra) (hr : Reserved L m₀) (hk : KernelSpace L m₀.bytes) :
    (paging_create_address_space L m = (0, m) ∧ m₀.freePages.card ≤ extra.length) ∨
      ∃ dir m', paging_create_address_space L m = (dir, m') ∧ dir ≠ 0 ∧
        Building L m₀ m' dir none [] extra ∧
        ∀ x, x / 4096 ≠ dir / 4096 → m'.bytes x = m.bytes x := by
  unfold paging_create_address_space
  rcases h.alloc with ⟨he, hfull⟩ | ⟨dir, m', he, hne, hbytes, hbusy⟩
  · rw [he]
    exact .inl ⟨rfl, hfull⟩
  rw [he]
  dsimp only
  rw [if_neg hne]
  obtain ⟨hal, -, -, -, hfresh⟩ := hbusy.bounds (List.mem_cons_self ..)
  have h₂ := L.directory_inside
  have h₃ := L.directory_aligned
  have hkernel : L.kernelDirectory / 4096 ≠ dir / 4096 := fun heq =>
    hfresh (by rw [Used, ← heq]; exact h.start.used_image hr (by omega))
  have hoff : ∀ x, x / 4096 ≠ dir / 4096 →
      ((m'.bytes.storeWords dir (fun _ => 0) ENTRIES_PER_TABLE).copyWords L.kernelDirectory dir
        IDENTITY_MAPPED_TABLES) x = m'.bytes x := fun x hx => by
    rw [WordMemory.copyWords_of_apart (by unfold IDENTITY_MAPPED_TABLES; omega),
      WordMemory.storeWords_of_apart (by unfold ENTRIES_PER_TABLE; omega)]
  have hzero : ∀ i < 1024, (m'.bytes.storeWords dir (fun _ => 0) ENTRIES_PER_TABLE).load32
      (dir + 4 * i) = 0 := fun i hi => WordMemory.load32_storeWords _ _ (fun _ _ => by decide) hi
  have hrest : ∀ i, 4 ≤ i → i < 1024 →
      ((m'.bytes.storeWords dir (fun _ => 0) ENTRIES_PER_TABLE).copyWords L.kernelDirectory dir
        IDENTITY_MAPPED_TABLES).load32 (dir + 4 * i) = 0 := fun i hi hlt => by
    refine (WordMemory.load32_congr fun x _ _ => ?_).trans (hzero i hlt)
    rw [WordMemory.copyWords_of_apart (by unfold IDENTITY_MAPPED_TABLES; omega)]
  refine .inr ⟨dir, _, rfl, hne, ⟨?_, ⟨fun t ht => ?_, ?_, fun i hi hlt => ?_,
    fun t ht => absurd ht (Option.not_mem_none t)⟩, fun _ => rfl,
    fun _ hp => absurd hp List.not_mem_nil⟩, fun x hx => ?_⟩
  · exact hbusy.write fun x hx => hoff x (hx dir (List.mem_cons_self ..))
  · have hkm : KernelSpace L m'.bytes := hbusy.kernelSpace hr hk
    rw [← hkm.tables t ht]
    dsimp only
    rw [WordMemory.load32_copyWords _ (by unfold IDENTITY_MAPPED_TABLES; omega) (by exact ht)]
    refine WordMemory.load32_congr fun x _ _ => ?_
    rw [WordMemory.storeWords_of_apart (by unfold ENTRIES_PER_TABLE; omega)]
  · have hown := hrest 4 le_rfl (by decide)
    rwa [show 4 * 4 = 16 from rfl] at hown
  · exact hrest i (by omega) hlt
  · exact (hoff x hx).trans (congrFun hbytes x)

/-- Another page: there is none, or it is held. -/
theorem Building.alloc (h : Building L m₀ m dir table done extra) :
    (memory_alloc_page m = (0, m) ∧
      m₀.freePages.card ≤ 1 + table.toList.length + done.length + extra.length) ∨
      ∃ a m', memory_alloc_page m = (a, m') ∧ a ≠ 0 ∧
        Building L m₀ m' dir table done (a :: extra) := by
  rcases h.busy.alloc with ⟨he, hfull⟩ | ⟨a, m', he, hne, hbytes, hbusy⟩
  · simp only [List.length_cons, List.length_append, List.length_map] at hfull
    exact .inl ⟨he, by omega⟩
  · refine .inr ⟨a, m', he, hne, hbusy.perm ?_, hbytes ▸ h.space, h.empty, hbytes ▸ h.bytes⟩
    rw [← List.append_assoc, ← List.append_assoc, ← List.cons_append, ← List.cons_append]
    exact List.perm_middle.symm

/-- A page that is not mapped yet may be written. -/
theorem Building.write (h : Building L m₀ m dir table done extra) {a : Nat} (ha : a ∈ extra)
    {b : WordMemory} (hb : ∀ x, x / 4096 ≠ a / 4096 → b x = m.bytes x) :
    Building L m₀ { m with bytes := b } dir table done extra := by
  have hnodup := h.busy.nodup
  rw [List.nodup_cons, List.nodup_append, List.nodup_append] at hnodup
  obtain ⟨hdir, -, ⟨-, -, hdone⟩, htable⟩ := hnodup
  have hmem : a ∈ dir :: (table.toList ++ (done.map (·.page) ++ extra)) := by simp [ha]
  have hne : ∀ c ∈ dir :: (table.toList ++ (done.map (·.page) ++ extra)), c ≠ a →
      ∀ x, c ≤ x → x < c + 4096 → b x = m.bytes x := fun c hc hca x hx hlt => by
    have h₁ := h.busy.apart hc hmem hca
    have h₂ := (h.busy.page c hc).1
    exact hb x (by omega)
  refine ⟨h.busy.write fun x hx => hb x (hx a hmem), h.space.congr ?_ ?_, h.empty, ?_⟩
  · refine hne dir (List.mem_cons_self ..) ?_
    rintro rfl
    exact hdir (by simp [ha])
  · intro t ht
    refine hne t (by simp [Option.mem_toList.mpr ht]) ?_
    rintro rfl
    exact htable t (Option.mem_toList.mpr ht) t (by simp [ha]) rfl
  · intro p hp i hi
    refine (hne p.page ?_ ?_ _ (by omega) (by omega)).trans (h.bytes p hp i hi)
    · simp only [List.mem_cons, List.mem_append, List.mem_map]
      exact .inr (.inr (.inl ⟨p, hp, rfl⟩))
    · rintro rfl
      exact hdone _ (List.mem_map_of_mem hp) _ ha rfl

theorem pteOf_cons (p : Mapped) (done : List Mapped) (j : Nat) : pteOf (p :: done) j =
    if pteIndexFor p.vaddr = j then p.page + (5 + if p.writable then 2 else 0)
    else pteOf done j := by
  unfold pteOf
  rw [List.find?_cons]
  by_cases h : pteIndexFor p.vaddr = j
  · rw [if_pos h, beq_iff_eq.mpr h]
  · rw [if_neg h, beq_eq_false_iff_ne.mpr h]

/-- An entry of the table, where there is one. -/
theorem Building.setPte {t a : Nat} (h : Building L m₀ m dir (some t) done (a :: extra)) (v : Nat)
    (w : Bool) {f : Nat → UInt8} (hf : ∀ i < 4096, m.bytes (a + i) = f i) :
    Building L m₀ (setPte m t v a w) dir (some t) (⟨⟨v, w, f⟩, a⟩ :: done) extra := by
  have hperm : (dir :: ((some t).toList ++ (done.map (·.page) ++ a :: extra))).Perm
      (dir :: ((some t).toList ++ ((a :: done.map (·.page)) ++ extra))) :=
    (List.perm_middle.append_left [t]).cons dir
  have hbusy := h.busy.perm hperm
  have hnodup := hbusy.nodup
  rw [List.nodup_cons, Option.toList_some, List.singleton_append, List.nodup_cons] at hnodup
  obtain ⟨hdir, htable, -⟩ := hnodup
  have ht : t ∈ dir :: ((some t).toList ++ ((a :: done.map (·.page)) ++ extra)) := by simp
  obtain ⟨htal, htlt, -, -, -⟩ := hbusy.bounds ht
  obtain ⟨haal, halt, -, -, -⟩ :=
    hbusy.bounds (a := a) (by simp)
  have hj : pteIndexFor v < 1024 := Nat.mod_lt _ (by decide)
  have hvalue : addressOf a + (PAGE_PRESENT + PAGE_USER + if w then PAGE_WRITABLE else 0) =
      a + (5 + if w then 2 else 0) := by
    rw [show addressOf a = a from addressOf_add (f := 0) haal (by decide)]
    rfl
  have hlt : a + (5 + if w then 2 else 0) < 2 ^ 32 := by split <;> omega
  unfold Os.setPte
  dsimp only
  rw [hvalue]
  have hoff : ∀ x, x / 4096 ≠ t / 4096 →
      (m.bytes.store32 (t + 4 * pteIndexFor v) (a + (5 + if w then 2 else 0))) x = m.bytes x :=
    fun x hx => WordMemory.store32_of_apart (by omega)
  have hpage : ∀ c ∈ dir :: ((some t).toList ++ ((a :: done.map (·.page)) ++ extra)), c ≠ t →
      ∀ x, c ≤ x → x < c + 4096 → x / 4096 ≠ t / 4096 := fun c hc hct x hx hlt => by
    have h₁ := hbusy.apart hc ht hct
    have h₂ := (hbusy.page c hc).1
    omega
  have hdone : ∀ p ∈ a :: done.map (·.page), p ≠ t := by
    rintro p hp rfl
    exact htable (List.mem_append_left _ hp)
  have hheld : ∀ p ∈ a :: done.map (·.page),
      p ∈ dir :: ((some t).toList ++ ((a :: done.map (·.page)) ++ extra)) := fun p hp =>
    List.mem_cons_of_mem _ (List.mem_append_right _ (List.mem_append_left _ hp))
  have hspace := h.space
  have hframe := hpage dir (List.mem_cons_self ..) (by rintro rfl; exact hdir (List.mem_cons_self ..))
  refine ⟨hbusy.write fun x hx => hoff x (hx t ht), ⟨fun t' ht' => ?_, ?_, fun i hi hlt => ?_,
    fun t' ht' j hj' => ?_⟩, nofun, fun p hp i hi => ?_⟩
  · rw [← hspace.shared t' ht']
    exact WordMemory.load32_congr fun x _ _ => hoff x (hframe x (by omega) (by omega))
  · rw [← hspace.own]
    exact WordMemory.load32_congr fun x _ _ => hoff x (hframe x (by omega) (by omega))
  · refine (WordMemory.load32_congr fun x _ _ => ?_).trans (hspace.rest i hi hlt)
    exact hoff x (hframe x (by omega) (by omega))
  · obtain rfl := Option.some.inj ht'
    rw [pteOf_cons]
    dsimp only
    by_cases he : pteIndexFor v = j
    · rw [if_pos he, he, WordMemory.load32_store32 _ _ hlt]
    · rw [if_neg he, WordMemory.load32_store32_of_apart (by omega), hspace.entries t rfl j hj']
  · rcases List.mem_cons.mp hp with rfl | hp
    · exact (hoff (a + i) (hpage a (hheld a (List.mem_cons_self ..)) (hdone a (List.mem_cons_self ..)) _
        (by omega) (by omega))).trans (hf i hi)
    · have hmem : p.page ∈ a :: done.map (·.page) :=
        List.mem_cons_of_mem _ (List.mem_map_of_mem hp)
      exact (hoff _ (hpage p.page (hheld _ hmem) (hdone _ hmem) _ (by omega) (by omega))).trans
        (h.bytes p hp i hi)

/-- A new table, with no entries. -/
theorem Building.newTable {t : Nat} {m' : Memory} (h : Building L m₀ m dir none done extra)
    (hbytes : m'.bytes = m.bytes)
    (hbusy : m₀.Busy m' (t :: (dir :: (none.toList ++ (done.map (·.page) ++ extra))))) :
    Building L m₀ { m' with bytes :=
        (m'.bytes.storeWords t (fun _ => 0) ENTRIES_PER_TABLE).store32 (dir + 16) (t + 7) }
      dir (some t) done extra := by
  obtain rfl := h.empty rfl
  have hbusy : m₀.Busy m' (dir :: ((some t).toList ++ (([] : List Mapped).map (·.page) ++ extra))) :=
    hbusy.perm (List.Perm.swap dir t _)
  have hnodup := hbusy.nodup
  rw [List.nodup_cons] at hnodup
  have ht : t ∈ dir :: ((some t).toList ++ (([] : List Mapped).map (·.page) ++ extra)) := by simp
  obtain ⟨htal, htlt, -, -, -⟩ := hbusy.bounds ht
  obtain ⟨hdal, -, -, -, -⟩ := hbusy.bounds (List.mem_cons_self ..)
  have hne : dir / 4096 ≠ t / 4096 := hbusy.apart (List.mem_cons_self ..) ht (by
    rintro rfl
    exact hnodup.1 (by simp))
  have hspace := h.space
  rw [← hbytes] at hspace
  have hload : ∀ i < 1024, i ≠ 4 →
      ((m'.bytes.storeWords t (fun _ => 0) ENTRIES_PER_TABLE).store32 (dir + 16) (t + 7)).load32
        (dir + 4 * i) = m'.bytes.load32 (dir + 4 * i) := fun i hi h4 => by
    rw [WordMemory.load32_store32_of_apart (by omega)]
    refine WordMemory.load32_congr fun x _ _ => ?_
    rw [WordMemory.storeWords_of_apart (by unfold ENTRIES_PER_TABLE; omega)]
  refine ⟨hbusy.write fun x hx => ?_, ⟨fun t' ht' => ?_, ?_, fun i hi hlt => ?_,
    fun t' ht' j hj' => ?_⟩, nofun, fun _ hp => absurd hp List.not_mem_nil⟩
  · have h₁ := hx dir (List.mem_cons_self ..)
    have h₂ := hx t ht
    rw [WordMemory.store32_of_apart (by omega),
      WordMemory.storeWords_of_apart (by unfold ENTRIES_PER_TABLE; omega)]
  · exact (hload t' (by omega) (by omega)).trans (hspace.shared t' ht')
  · exact WordMemory.load32_store32 _ _ (by omega)
  · exact (hload i hlt (by omega)).trans (hspace.rest i hi hlt)
  · obtain rfl := Option.some.inj ht'
    dsimp only
    rw [WordMemory.load32_store32_of_apart (by omega)]
    exact WordMemory.load32_storeWords _ _ (fun _ _ => by decide) hj'

/-- Mapping a page: there is none for the table, or the page is mapped. -/
theorem Building.map {a v : Nat} (h : Building L m₀ m dir table done (a :: extra))
    (hv : v % 4096 = 0) (hi : pdeIndexFor v = 4) (w : Bool) {f : Nat → UInt8}
    (hf : ∀ i < 4096, m.bytes (a + i) = f i) :
    (paging_map_user_page m dir v a w = (false, m) ∧
      m₀.freePages.card ≤ 2 + done.length + extra.length) ∨
      ∃ m' t, paging_map_user_page m dir v a w = (true, m') ∧
        Building L m₀ m' dir (some t) (⟨⟨v, w, f⟩, a⟩ :: done) extra := by
  have haal : a % 4096 = 0 := (h.busy.page a (by simp)).1
  unfold paging_map_user_page
  dsimp only
  rw [if_neg (by unfold PAGE_SIZE_BYTES; omega), hi, if_neg (by decide), h.space.own]
  cases table with
  | some t =>
    have htal : t % 4096 = 0 := (h.busy.page t (by simp)).1
    have hpresent : present ((some t).elim 0 (· + 7)) = true := by
      unfold present
      rw [Option.elim_some, beq_iff_eq]
      omega
    rw [hpresent, Bool.not_true, if_neg Bool.false_ne_true, Option.elim_some,
      addressOf_add htal (by decide)]
    exact .inr ⟨_, t, rfl, h.setPte v w hf⟩
  | none =>
    rw [show present ((none : Option Nat).elim 0 (· + 7)) = false from rfl, Bool.not_false, if_pos rfl]
    obtain rfl := h.empty rfl
    rcases h.busy.alloc with ⟨he, hfull⟩ | ⟨t, m', he, hne, hbytes, hbusy⟩
    · rw [he]
      refine .inl ⟨rfl, ?_⟩
      simp only [List.length_cons, List.length_append, List.length_map, Option.toList_none,
        List.length_nil] at hfull ⊢
      omega
    · rw [he]
      dsimp only
      rw [if_neg hne]
      refine .inr ⟨_, t, rfl, (h.newTable hbytes hbusy).setPte v w fun i hi => ?_⟩
      have hnodup := hbusy.nodup
      rw [List.nodup_cons, List.nodup_cons] at hnodup
      have htal : t % 4096 = 0 := (hbusy.page t (List.mem_cons_self ..)).1
      have hdal : dir % 4096 = 0 := (hbusy.page dir (by simp)).1
      have hta : t / 4096 ≠ a / 4096 := hbusy.apart (List.mem_cons_self ..) (by simp) (by
        rintro rfl
        exact hnodup.1 (by simp))
      have hda : dir / 4096 ≠ a / 4096 := hbusy.apart (by simp) (by simp) (by
        rintro rfl
        exact hnodup.2.1 (by simp))
      rw [← hf i hi, ← hbytes]
      dsimp only
      rw [WordMemory.store32_of_apart (by omega),
        WordMemory.storeWords_of_apart (by unfold ENTRIES_PER_TABLE; omega)]

/-! ## Giving back -/

/-- A page outside the reserved region. -/
def Outside (m : Memory) (a : Nat) : Prop :=
  a % 4096 = 0 ∧ 4096 ≤ a ∧ m.reserved_pages * 4096 ≤ a ∧ a < 16777216

theorem Memory.Busy.outside (h : m₀.Busy m held) {a : Nat} (ha : a ∈ held) : Outside m a := by
  obtain ⟨h₁, h₂, h₃, h₄, -⟩ := h.bounds ha
  exact ⟨h₁, by omega, h.reserved ▸ h₃, h₂⟩

theorem memory_free_page_bytes (m : Memory) (a : Nat) : (memory_free_page m a).bytes = m.bytes := by
  by_cases h : Freeable m a
  · rw [memory_free_page_of h]
    rfl
  · rw [memory_free_page_of_not h]

theorem foldl_free_bytes (m : Memory) (pages : List Nat) :
    (pages.foldl memory_free_page m).bytes = m.bytes := by
  induction pages generalizing m with
  | nil => rfl
  | cons a pages ih => rw [List.foldl_cons, ih, memory_free_page_bytes]

/-- Freeing a list of pages. -/
theorem foldl_frees {l : List Nat} (h : ∀ a ∈ l, Outside m a) :
    Frees m (l.foldl memory_free_page m) l := by
  induction l generalizing m with
  | nil => exact .refl
  | cons a l ih =>
    obtain ⟨h₁, h₂, h₃, h₄⟩ := h a (List.mem_cons_self ..)
    have hfree : Frees m (memory_free_page m a) [a] := .free h₁ h₂ h₃ h₄
    refine hfree.trans (ih fun b hb => ?_)
    have := h b (List.mem_cons_of_mem _ hb)
    rwa [Outside, hfree.reserved]

/-- The rounds of the loop for entries that are not present. -/
theorem foldl_destroyTable (l : List Nat) (h : ∀ i ∈ l, m.bytes.load32 (dir + 4 * i) = 0) :
    l.foldl (destroyTable dir) m = m := by
  induction l with
  | nil => rfl
  | cons i l ih =>
    have hi : destroyTable dir m i = m := by
      unfold destroyTable
      rw [h i (List.mem_cons_self ..)]
      rfl
    rw [List.foldl_cons, hi, ih fun j hj => h j (List.mem_cons_of_mem _ hj)]

/-- The directory and its own table are given back, and nothing is written outside the directory. -/
theorem destroy_frees {f : Nat → Nat} (h : Space L m.bytes dir table f) (hd : Outside m dir)
    (ht : ∀ t ∈ table, Outside m t) (hne : dir ≠ L.kernelDirectory) :
    Frees m (paging_destroy_address_space L m dir) (dir :: table.toList) := by
  unfold paging_destroy_address_space paging_kernel_address_space
  rw [if_neg hne, show List.range' IDENTITY_MAPPED_TABLES (ENTRIES_PER_TABLE - IDENTITY_MAPPED_TABLES) =
    4 :: List.range' 5 1019 from rfl]
  dsimp only
  rw [List.foldl_cons]
  obtain ⟨h₁, h₂, h₃, h₄⟩ := hd
  have hrest : ∀ i ∈ List.range' 5 1019, m.bytes.load32 (dir + 4 * i) = 0 := fun i hi => by
    obtain ⟨hlo, hhi⟩ := List.mem_range'_1.mp hi
    exact h.rest i hlo hhi
  cases table with
  | none =>
    have hfirst : destroyTable dir m 4 = m := by
      unfold destroyTable
      rw [show dir + 4 * 4 = dir + 16 from rfl, h.own]
      rfl
    rw [hfirst, foldl_destroyTable _ hrest]
    exact .free h₁ h₂ h₃ h₄
  | some t =>
    obtain ⟨h₅, h₆, h₇, h₈⟩ := ht t rfl
    have hfirst : destroyTable dir m 4 =
        { memory_free_page m t with bytes := m.bytes.store32 (dir + 16) 0 } := by
      unfold destroyTable
      have hpresent : present ((some t).elim 0 (· + 7)) = true := by
        unfold present
        rw [Option.elim_some, beq_iff_eq]
        omega
      rw [show dir + 4 * 4 = dir + 16 from rfl, h.own]
      dsimp only
      rw [hpresent, if_pos rfl, Option.elim_some, addressOf_add h₅ (by decide),
        memory_free_page_bytes]
    have htable : Frees m (memory_free_page m t) [t] := .free h₅ h₆ h₇ h₈
    rw [hfirst, foldl_destroyTable]
    · have hdir : Frees (memory_free_page m t) (memory_free_page { memory_free_page m t with
          bytes := m.bytes.store32 (dir + 16) 0 } dir) [dir] := by
        refine .free_write h₁ h₂ (htable.reserved ▸ h₃) h₄ fun x hx => ?_
        rw [memory_free_page_bytes]
        exact WordMemory.store32_of_apart (by omega)
      exact (htable.trans hdir).of_mem fun a => (List.Perm.swap dir t []).mem_iff
    · intro i hi
      rw [← hrest i hi]
      obtain ⟨hlo, -⟩ := List.mem_range'_1.mp hi
      exact WordMemory.load32_store32_of_apart (by omega)

end

end Os
end Techuila
