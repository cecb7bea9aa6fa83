import Mathlib.Data.Finset.Card
import Mathlib.Data.Finset.Range
import Techuila.Lib.Bitmap
import Techuila.Os.Heap

/-!
# The page allocator (`22-os/memory/memory.cpp`)

The allocator's variables and the physical memory that it gives out are one record. A page is its
physical address.

* `memory_init`, `memory_alloc_page`, `memory_free_page` and the two counts.
* `Accounts`: the count is the number of marked pages, and the reserved region is marked.
* `Busy m₀ m held`: an operation that started in `m₀` now holds the pages `held` and has changed no page
  that was in use.
* `Frees m m' pages`: exactly these pages became free.
-/

namespace Techuila
namespace Os

/-! ## The source -/

def PAGE_SIZE : Nat := 4096
def MEMORY_SIZE : Nat := 16 * 1024 * 1024
def PAGE_COUNT : Nat := MEMORY_SIZE / PAGE_SIZE

structure Memory where
  bytes : WordMemory
  bitmap : Bitmap
  allocated_pages : Nat
  reserved_pages : Nat

def mark_used (m : Memory) (page : Nat) : Memory := { m with bitmap := m.bitmap.mark page }
def mark_free (m : Memory) (page : Nat) : Memory := { m with bitmap := m.bitmap.clear page }
def is_used (m : Memory) (page : Nat) : Bool := m.bitmap.test page

/-- `kernelEnd` is the address of `_kernel_end`. -/
def memory_init (kernelEnd : Nat) (bytes : WordMemory) : Memory :=
  let reservedBytes := if kernelEnd > 1024 * 1024 then kernelEnd else 1024 * 1024
  let pages := (reservedBytes + PAGE_SIZE - 1) / PAGE_SIZE
  let reserved := if pages > PAGE_COUNT then PAGE_COUNT else pages
  { (List.range reserved).foldl mark_used ⟨bytes, fun _ => 0, 0, reserved⟩ with
    allocated_pages := reserved }

def memory_alloc_page (m : Memory) : Nat × Memory :=
  match (List.range PAGE_COUNT).find? fun page => !is_used m page with
  | some page =>
    (page * PAGE_SIZE, { mark_used m page with allocated_pages := add32 m.allocated_pages 1 })
  | none => (0, m)

def memory_free_page (m : Memory) (address : Nat) : Memory :=
  if address = 0 then m
  else if address % PAGE_SIZE ≠ 0 then m
  else
    let page := address / PAGE_SIZE
    if page ≥ PAGE_COUNT then m
    else if !is_used m page then m
    else if page < m.reserved_pages then m
    else
      { mark_free m page with
        allocated_pages := if m.allocated_pages > 0 then m.allocated_pages - 1 else 0 }

def memory_used_pages (m : Memory) : Nat := m.allocated_pages
def memory_free_pages (m : Memory) : Nat := sub32 PAGE_COUNT m.allocated_pages

/-! ## Accounts -/

namespace Memory

/-- The page of an address is in use. -/
def Used (m : Memory) (x : Nat) : Prop := is_used m (x / 4096) = true

/-- The marked pages. -/
def usedPages (m : Memory) : Finset Nat := (Finset.range 4096).filter fun p => is_used m p

/-- The other pages. -/
def freePages (m : Memory) : Finset Nat := (Finset.range 4096).filter fun p => !is_used m p

structure Accounts (m : Memory) : Prop where
  low : 256 ≤ m.reserved_pages
  high : m.reserved_pages ≤ 4096
  reserved : ∀ p < m.reserved_pages, is_used m p = true
  count : m.allocated_pages = m.usedPages.card

theorem mem_usedPages {m : Memory} {p : Nat} : p ∈ m.usedPages ↔ p < 4096 ∧ is_used m p = true := by
  rw [usedPages, Finset.mem_filter, Finset.mem_range]

theorem mem_freePages {m : Memory} {p : Nat} : p ∈ m.freePages ↔ p < 4096 ∧ is_used m p = false := by
  rw [freePages, Finset.mem_filter, Finset.mem_range, Bool.not_eq_true']

theorem Used.notMem_freePages {m : Memory} {x : Nat} (h : m.Used x) : x / 4096 ∉ m.freePages :=
  fun hf => by
    rw [Used, (mem_freePages.mp hf).2] at h
    cases h

theorem card_free_add_used (m : Memory) : m.freePages.card + m.usedPages.card = 4096 := by
  have h := Finset.card_filter_add_card_filter_not (s := Finset.range 4096) (fun p => is_used m p)
  rw [Finset.card_range] at h
  unfold freePages usedPages
  simp only [Bool.not_eq_true', Bool.not_eq_true] at h ⊢
  omega

/-- A page was marked and counted. -/
def taken (m : Memory) (p : Nat) : Memory :=
  { mark_used m p with allocated_pages := add32 m.allocated_pages 1 }

/-- A page was cleared and is no longer counted. -/
def released (m : Memory) (p : Nat) : Memory :=
  { mark_free m p with allocated_pages := m.allocated_pages - 1 }

theorem is_used_taken {m : Memory} {p q : Nat} :
    is_used (m.taken p) q = true ↔ q = p ∨ is_used m q = true := by
  rw [show is_used (m.taken p) q = _ from m.bitmap.test_mark p q, Bool.or_eq_true,
    decide_eq_true_eq]
  rfl

theorem is_used_released {m : Memory} {p q : Nat} :
    is_used (m.released p) q = true ↔ q ≠ p ∧ is_used m q = true := by
  rw [show is_used (m.released p) q = _ from m.bitmap.test_clear p q, Bool.and_eq_true,
    decide_eq_true_eq]
  rfl

end Memory

/-! ## The functions -/

open Memory

theorem foldl_mark_used (l : List Nat) (m : Memory) :
    l.foldl mark_used m = { m with bitmap := l.foldl Bitmap.mark m.bitmap } := by
  induction l generalizing m with
  | nil => rfl
  | cons i l ih => exact ih (mark_used m i)

/-- The pages that `memory_init` reserves, up to the end of the kernel's image. -/
theorem memory_init_reserved (kernelEnd : Nat) (bytes : WordMemory) :
    256 ≤ (memory_init kernelEnd bytes).reserved_pages ∧
      (memory_init kernelEnd bytes).reserved_pages ≤ 4096 ∧
      (kernelEnd ≤ 16777216 → kernelEnd ≤ 4096 * (memory_init kernelEnd bytes).reserved_pages) := by
  unfold memory_init
  dsimp only
  rw [foldl_mark_used, show PAGE_COUNT = 4096 from rfl, show PAGE_SIZE = 4096 from rfl]
  dsimp only
  refine ⟨?_, ?_, fun h => ?_⟩ <;> split <;> split <;> omega

theorem is_used_memory_init (kernelEnd : Nat) (bytes : WordMemory) (p : Nat) :
    is_used (memory_init kernelEnd bytes) p = true ↔
      p < (memory_init kernelEnd bytes).reserved_pages := by
  unfold memory_init is_used
  dsimp only
  rw [foldl_mark_used]
  dsimp only
  rw [Bitmap.test_foldl_mark, Bitmap.test_zero, Bool.or_false, decide_eq_true_eq, List.mem_range]

theorem memory_init_allocated (kernelEnd : Nat) (bytes : WordMemory) :
    (memory_init kernelEnd bytes).allocated_pages = (memory_init kernelEnd bytes).reserved_pages := by
  unfold memory_init
  dsimp only
  rw [foldl_mark_used]

theorem memory_init_accounts (kernelEnd : Nat) (bytes : WordMemory) :
    (memory_init kernelEnd bytes).Accounts := by
  obtain ⟨hlow, hhigh, -⟩ := memory_init_reserved kernelEnd bytes
  refine ⟨hlow, hhigh, fun p hp => (is_used_memory_init kernelEnd bytes p).mpr hp, ?_⟩
  have hused : (memory_init kernelEnd bytes).usedPages =
      Finset.range (memory_init kernelEnd bytes).reserved_pages := by
    ext p
    rw [mem_usedPages, is_used_memory_init, Finset.mem_range]
    omega
  rw [hused, Finset.card_range, memory_init_allocated]

/-- The first free page, or nothing where there is none. -/
theorem memory_alloc_page_cases (m : Memory) :
    (memory_alloc_page m = (0, m) ∧ m.freePages = ∅) ∨
      ∃ p ∈ m.freePages, memory_alloc_page m = (p * 4096, m.taken p) := by
  unfold memory_alloc_page
  cases hfind : (List.range PAGE_COUNT).find? fun page => !is_used m page with
  | none =>
    refine .inl ⟨rfl, Finset.eq_empty_of_forall_notMem fun p hp => ?_⟩
    obtain ⟨hlt, hfree⟩ := mem_freePages.mp hp
    exact List.find?_eq_none.mp hfind p (List.mem_range.mpr hlt) (by rw [hfree]; rfl)
  | some p =>
    have hmem := List.mem_range.mp (List.mem_of_find?_eq_some hfind)
    have hfree := List.find?_some hfind
    rw [Bool.not_eq_true'] at hfree
    exact .inr ⟨p, mem_freePages.mpr ⟨hmem, hfree⟩, rfl⟩

/-- `memory_free_page` takes this address: it is of a page in use outside the reserved region. -/
def Freeable (m : Memory) (a : Nat) : Prop :=
  a ≠ 0 ∧ a % 4096 = 0 ∧ a / 4096 < 4096 ∧ is_used m (a / 4096) = true ∧
    m.reserved_pages ≤ a / 4096

theorem memory_free_page_of {m : Memory} {a : Nat} (h : Freeable m a) :
    memory_free_page m a = m.released (a / 4096) := by
  obtain ⟨h₀, hal, hlt, hused, hres⟩ := h
  unfold memory_free_page released
  rw [show PAGE_COUNT = 4096 from rfl, show PAGE_SIZE = 4096 from rfl, if_neg h₀,
    if_neg (not_not.mpr hal)]
  dsimp only
  rw [if_neg (by omega), hused, Bool.not_true, if_neg Bool.false_ne_true, if_neg (by omega)]
  congr 1
  split <;> omega

theorem memory_free_page_of_not {m : Memory} {a : Nat} (h : ¬ Freeable m a) :
    memory_free_page m a = m := by
  unfold memory_free_page
  rw [show PAGE_COUNT = 4096 from rfl, show PAGE_SIZE = 4096 from rfl]
  dsimp only
  split
  · rfl
  split
  · rfl
  split
  · rfl
  split
  · rfl
  split
  · rfl
  rename_i h₀ hal hlt hused hres
  rw [Bool.not_eq_true', Bool.not_eq_false] at hused
  exact absurd ⟨h₀, not_not.mp hal, by omega, hused, by omega⟩ h

/-- A new page is counted. -/
theorem Memory.Accounts.taken {m : Memory} (h : m.Accounts) {p : Nat} (hp : p ∈ m.freePages) :
    (m.taken p).Accounts := by
  obtain ⟨hlt, hfree⟩ := mem_freePages.mp hp
  refine ⟨h.low, h.high, fun q hq => is_used_taken.mpr (.inr (h.reserved q hq)), ?_⟩
  have hpages : (m.taken p).usedPages = insert p m.usedPages := by
    ext q
    rw [mem_usedPages, Finset.mem_insert, mem_usedPages, is_used_taken]
    constructor
    · rintro ⟨hq, rfl | hu⟩
      · exact .inl rfl
      · exact .inr ⟨hq, hu⟩
    · rintro (rfl | ⟨hq, hu⟩)
      · exact ⟨hlt, .inl rfl⟩
      · exact ⟨hq, .inr hu⟩
  have hnot : p ∉ m.usedPages := fun hmem => by
    rw [(mem_usedPages.mp hmem).2] at hfree
    cases hfree
  have hcard := card_free_add_used m
  have hpos : 0 < m.freePages.card := Finset.card_pos.mpr ⟨p, hp⟩
  have hcount := h.count
  rw [hpages, Finset.card_insert_of_notMem hnot]
  show (m.allocated_pages + 1) % 2 ^ 32 = _
  omega

/-- A freed page is no longer counted. -/
theorem Memory.Accounts.free {m : Memory} (h : m.Accounts) (a : Nat) :
    (memory_free_page m a).Accounts := by
  by_cases hf : Freeable m a
  swap
  · rw [memory_free_page_of_not hf]
    exact h
  rw [memory_free_page_of hf]
  obtain ⟨-, -, hlt, hused, hres⟩ := hf
  refine ⟨h.low, h.high, fun q hq => is_used_released.mpr ⟨?_, h.reserved q hq⟩, ?_⟩
  · rintro rfl
    exact absurd hq (not_lt.mpr hres)
  · have hpages : (m.released (a / 4096)).usedPages = m.usedPages.erase (a / 4096) := by
      ext q
      rw [mem_usedPages, Finset.mem_erase, mem_usedPages, is_used_released]
      tauto
    rw [hpages, Finset.card_erase_of_mem (mem_usedPages.mpr ⟨hlt, hused⟩), ← h.count]
    rfl

/-! ## Operations that hold pages -/

namespace Memory

/-- An operation that started in `m₀` holds these pages. -/
structure Busy (m₀ m : Memory) (held : List Nat) : Prop where
  start : m₀.Accounts
  accounts : m.Accounts
  reserved : m.reserved_pages = m₀.reserved_pages
  nodup : held.Nodup
  page : ∀ a ∈ held, a % 4096 = 0 ∧ a / 4096 ∈ m₀.freePages
  used : ∀ p < 4096, is_used m p = true ↔ is_used m₀ p = true ∨ p * 4096 ∈ held
  bytes : ∀ x, m₀.Used x → m.bytes x = m₀.bytes x

/-- These pages were given back, and nothing was written outside them. -/
structure Frees (m m' : Memory) (pages : List Nat) : Prop where
  accounts : m.Accounts → m'.Accounts
  reserved : m'.reserved_pages = m.reserved_pages
  used : ∀ p < 4096, is_used m' p = true ↔ is_used m p = true ∧ p * 4096 ∉ pages
  bytes : ∀ x, (∀ a ∈ pages, x / 4096 ≠ a / 4096) → m'.bytes x = m.bytes x

section
variable {m₀ m m' m'' : Memory} {held pages pages' : List Nat}

theorem Busy.init (h : m.Accounts) : Busy m m [] :=
  ⟨h, h, rfl, .nil, nofun, fun _ _ => by simp, fun _ _ => rfl⟩

/-- A held page is in memory and not in the reserved region. -/
theorem Busy.bounds (h : Busy m₀ m held) {a : Nat} (ha : a ∈ held) :
    a % 4096 = 0 ∧ a < 16777216 ∧ m₀.reserved_pages * 4096 ≤ a ∧ 1048576 ≤ a ∧ ¬ m₀.Used a := by
  obtain ⟨hal, hfree⟩ := h.page a ha
  have hlt := (mem_freePages.mp hfree).1
  have hused : ¬ m₀.Used a := fun hu => hu.notMem_freePages hfree
  have hres : ¬ a / 4096 < m₀.reserved_pages := fun h' => hused (h.start.reserved _ h')
  have hlow := h.start.low
  exact ⟨hal, by omega, by omega, by omega, hused⟩

theorem Busy.length_le (h : Busy m₀ m held) : held.length ≤ m₀.freePages.card := by
  have hsub : (held.map (· / 4096)).toFinset ⊆ m₀.freePages := fun p hp => by
    obtain ⟨a, ha, rfl⟩ := List.mem_map.mp (List.mem_toFinset.mp hp)
    exact (h.page a ha).2
  have hnodup : (held.map (· / 4096)).Nodup := by
    refine h.nodup.map_on fun a ha b hb hab => ?_
    have h₁ := (h.page a ha).1
    have h₂ := (h.page b hb).1
    omega
  have hcard := Finset.card_le_card hsub
  rw [List.toFinset_card_of_nodup hnodup, List.length_map] at hcard
  exact hcard

/-- Where no page is free, the operation holds all that were. -/
theorem Busy.full (h : Busy m₀ m held) (hfull : m.freePages = ∅) :
    m₀.freePages.card ≤ held.length := by
  have hsub : m₀.freePages ⊆ (held.map (· / 4096)).toFinset := fun p hp => by
    obtain ⟨hlt, hfree⟩ := mem_freePages.mp hp
    have hused : is_used m p = true := by
      by_contra hnot
      exact Finset.notMem_empty p (hfull ▸ mem_freePages.mpr ⟨hlt, Bool.eq_false_iff.mpr hnot⟩)
    rcases (h.used p hlt).mp hused with hu | hheld
    · rw [hu] at hfree
      cases hfree
    · exact List.mem_toFinset.mpr (List.mem_map.mpr ⟨_, hheld, by omega⟩)
  calc m₀.freePages.card ≤ (held.map (· / 4096)).toFinset.card := Finset.card_le_card hsub
    _ ≤ (held.map (· / 4096)).length := List.toFinset_card_le _
    _ = held.length := List.length_map _

/-- Nothing is left to allocate, or one more page is held. -/
theorem Busy.alloc (h : Busy m₀ m held) :
    (memory_alloc_page m = (0, m) ∧ m₀.freePages.card ≤ held.length) ∨
      ∃ a m', memory_alloc_page m = (a, m') ∧ a ≠ 0 ∧ m'.bytes = m.bytes ∧
        Busy m₀ m' (a :: held) := by
  rcases memory_alloc_page_cases m with ⟨he, hfull⟩ | ⟨p, hp, he⟩
  · exact .inl ⟨he, h.full hfull⟩
  obtain ⟨hlt, hfree⟩ := mem_freePages.mp hp
  have hnew : ¬ (is_used m₀ p = true ∨ p * 4096 ∈ held) := fun hu => by
    rw [(h.used p hlt).mpr hu] at hfree
    cases hfree
  rw [not_or, Bool.not_eq_true] at hnew
  have hbusy : Busy m₀ (m.taken p) (p * 4096 :: held) := by
    refine ⟨h.start, h.accounts.taken hp, h.reserved, List.nodup_cons.mpr ⟨hnew.2, h.nodup⟩, ?_, ?_,
      h.bytes⟩
    · intro a ha
      rcases List.mem_cons.mp ha with rfl | ha
      · rw [Nat.mul_div_cancel _ (by decide)]
        exact ⟨by omega, mem_freePages.mpr ⟨hlt, hnew.1⟩⟩
      · exact h.page a ha
    · intro q hq
      rw [is_used_taken, h.used q hq, List.mem_cons, Nat.mul_right_cancel_iff (by decide)]
      exact or_left_comm
  have hpos := (hbusy.bounds (List.mem_cons_self ..)).2.2.2.1
  exact .inr ⟨_, _, he, by omega, rfl, hbusy⟩

/-- Held pages may be written. -/
theorem Busy.write (h : Busy m₀ m held) {b : WordMemory}
    (hb : ∀ x, (∀ a ∈ held, x / 4096 ≠ a / 4096) → b x = m.bytes x) :
    Busy m₀ { m with bytes := b } held := by
  refine ⟨h.start, ⟨h.accounts.low, h.accounts.high, h.accounts.reserved, h.accounts.count⟩,
    h.reserved, h.nodup, h.page, h.used, fun x hx => (hb x fun a ha he => ?_).trans (h.bytes x hx)⟩
  refine (h.bounds ha).2.2.2.2 ?_
  rw [Used, ← he]
  exact hx

theorem Busy.perm (h : Busy m₀ m held) (hp : held.Perm pages) : Busy m₀ m pages :=
  ⟨h.start, h.accounts, h.reserved, hp.nodup_iff.mp h.nodup, fun a ha => h.page a (hp.mem_iff.mpr ha),
    fun p hlt => by rw [h.used p hlt, hp.mem_iff], h.bytes⟩

theorem Frees.refl : Frees m m [] :=
  ⟨id, rfl, fun _ _ => by simp, fun _ _ => rfl⟩

theorem Frees.trans (h : Frees m m' pages) (h' : Frees m' m'' pages') :
    Frees m m'' (pages ++ pages') := by
  refine ⟨h'.accounts ∘ h.accounts, h'.reserved.trans h.reserved, fun p hp => ?_, fun x hx => ?_⟩
  · rw [h'.used p hp, h.used p hp, List.mem_append]
    tauto
  · rw [h'.bytes x fun a ha => hx a (List.mem_append_right _ ha),
      h.bytes x fun a ha => hx a (List.mem_append_left _ ha)]

theorem Frees.of_mem (h : Frees m m' pages) (hp : ∀ a, a ∈ pages ↔ a ∈ pages') :
    Frees m m' pages' := by
  refine ⟨h.accounts, h.reserved, fun p hlt => ?_, fun x hx => h.bytes x fun a ha => hx a ((hp a).mp ha)⟩
  rw [h.used p hlt, hp]

/-- A page outside the reserved region. -/
theorem Frees.free {a : Nat} (hal : a % 4096 = 0) (hlow : 4096 ≤ a)
    (hres : m.reserved_pages * 4096 ≤ a) (hlt : a < 16777216) :
    Frees m (memory_free_page m a) [a] := by
  have hmem : ∀ p, p * 4096 ∉ [a] ↔ p ≠ a / 4096 := fun p => by
    rw [List.mem_singleton]
    omega
  by_cases hf : Freeable m a
  · rw [memory_free_page_of hf]
    refine ⟨fun h => memory_free_page_of hf ▸ h.free a, rfl, fun p _ => ?_, fun _ _ => rfl⟩
    rw [is_used_released, hmem, and_comm]
  · rw [memory_free_page_of_not hf]
    refine ⟨id, rfl, fun p hp => ?_, fun _ _ => rfl⟩
    rw [hmem]
    refine (and_iff_left_of_imp ?_).symm
    rintro hu rfl
    exact hf ⟨by omega, hal, hp, hu, by omega⟩

/-- A page that was written and then freed. -/
theorem Frees.free_write {a : Nat} (hal : a % 4096 = 0) (hlow : 4096 ≤ a)
    (hres : m.reserved_pages * 4096 ≤ a) (hlt : a < 16777216) {b : WordMemory}
    (hb : ∀ x, x / 4096 ≠ a / 4096 → b x = m.bytes x) :
    Frees m (memory_free_page { m with bytes := b } a) [a] := by
  have hfree : Frees { m with bytes := b } (memory_free_page { m with bytes := b } a) [a] :=
    .free hal hlow hres hlt
  exact ⟨fun h => hfree.accounts ⟨h.low, h.high, h.reserved, h.count⟩, hfree.reserved, hfree.used,
    fun x hx => (hfree.bytes x hx).trans (hb x (hx a (List.mem_singleton_self a)))⟩

/-- An operation that gives all its pages back has changed nothing. -/
theorem Busy.release (h : Busy m₀ m held) (hf : Frees m m' held) : Busy m₀ m' [] := by
  refine ⟨h.start, hf.accounts h.accounts, hf.reserved.trans h.reserved, .nil, nofun, fun p hp => ?_,
    fun x hx => ?_⟩
  · rw [hf.used p hp, h.used p hp]
    constructor
    · tauto
    · rintro (hu | hn)
      · refine ⟨.inl hu, fun hheld => (h.bounds hheld).2.2.2.2 ?_⟩
        rw [Used, Nat.mul_div_cancel _ (by decide)]
        exact hu
      · exact absurd hn List.not_mem_nil
  · refine (hf.bytes x fun a ha he => (h.bounds ha).2.2.2.2 ?_).trans (h.bytes x hx)
    rw [Used, ← he]
    exact hx

theorem Busy.allocated (h : Busy m₀ m []) : m.allocated_pages = m₀.allocated_pages := by
  have hpages : m.usedPages = m₀.usedPages := by
    ext p
    rw [mem_usedPages, mem_usedPages]
    refine and_congr_right fun hp => (h.used p hp).trans (or_iff_left List.not_mem_nil)
  rw [h.accounts.count, h.start.count, hpages]

end

end Memory

end Os
end Techuila
