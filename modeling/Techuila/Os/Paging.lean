import Techuila.Os.Memory

/-!
# Paging (`22-os/paging/paging.hpp`, `paging.cpp`)

Directories and tables are in the physical memory that they map; the kernel runs identity-mapped. An
address in an entry is a multiple of 4096, so `|` with the flags is a sum. The serial output, `invlpg` and
the write of CR0 are left out.

* `paging_init`, `paging_create_address_space`, `paging_map_user_page`, `paging_destroy_address_space`.
* `translate`: what the MMU makes of a virtual address.
* `KernelSpace`, `Space`: the entries of the kernel's directory and of a private one.
-/

namespace Techuila
namespace Os

/-- Where the linker put the kernel's image and its paging structures. -/
structure KernelLayout where
  kernelEnd : Nat
  kernelDirectory : Nat
  identityTables : Nat
  inMemory : kernelEnd ≤ 16777216
  directory_aligned : kernelDirectory % 4096 = 0
  tables_aligned : identityTables % 4096 = 0
  directory_inside : 1048576 ≤ kernelDirectory ∧ kernelDirectory + 4096 ≤ kernelEnd
  tables_inside : 1048576 ≤ identityTables ∧ identityTables + 16384 ≤ kernelEnd
  apart : kernelDirectory + 4096 ≤ identityTables ∨ identityTables + 16384 ≤ kernelDirectory

/-! ## The source -/

def USER_VIRTUAL_BASE : Nat := 0x01000000
def USER_CODE_VADDR : Nat := USER_VIRTUAL_BASE
def USER_STACK_PAGE_VADDR : Nat := USER_VIRTUAL_BASE + PAGE_SIZE_BYTES
def USER_STACK_TOP_VADDR : Nat := USER_VIRTUAL_BASE + 2 * PAGE_SIZE_BYTES

def ENTRIES_PER_TABLE : Nat := 1024
def IDENTITY_MAPPED_TABLES : Nat := 4
def PAGE_PRESENT : Nat := 0x1
def PAGE_WRITABLE : Nat := 0x2
def PAGE_USER : Nat := 0x4

/-- `entry & PAGE_PRESENT`, and the other two flags. -/
def present (entry : Nat) : Bool := entry % 2 == 1
def writable (entry : Nat) : Bool := entry / 2 % 2 == 1
def user (entry : Nat) : Bool := entry / 4 % 2 == 1

/-- `entry & PAGE_ADDRESS_MASK`. -/
def addressOf (entry : Nat) : Nat := entry / 4096 * 4096

def pdeIndexFor (vaddr : Nat) : Nat := vaddr / 2 ^ 22
def pteIndexFor (vaddr : Nat) : Nat := vaddr / 2 ^ 12 % 1024

/-- One round of the loop of `paging_init`: a table, and its entry in the directory. -/
def initTable (L : KernelLayout) (m : WordMemory) (t : Nat) : WordMemory :=
  let table := L.identityTables + 4 * (t * ENTRIES_PER_TABLE)
  let m := m.storeWords table
    (fun i => (t * ENTRIES_PER_TABLE + i) * PAGE_SIZE_BYTES + (PAGE_PRESENT + PAGE_WRITABLE))
    ENTRIES_PER_TABLE
  m.store32 (L.kernelDirectory + 4 * t) (table + (PAGE_PRESENT + PAGE_WRITABLE + PAGE_USER))

def paging_init (L : KernelLayout) (m : WordMemory) : WordMemory :=
  let m := (List.range IDENTITY_MAPPED_TABLES).foldl (initTable L) m
  m.storeWords (L.kernelDirectory + 4 * IDENTITY_MAPPED_TABLES) (fun _ => 0)
    (ENTRIES_PER_TABLE - IDENTITY_MAPPED_TABLES)

def paging_kernel_address_space (L : KernelLayout) : Nat := L.kernelDirectory

def paging_create_address_space (L : KernelLayout) (m : Memory) : Nat × Memory :=
  match memory_alloc_page m with
  | (dirPhys, m) =>
    if dirPhys = 0 then (0, m)
    else
      let b := m.bytes.storeWords dirPhys (fun _ => 0) ENTRIES_PER_TABLE
      (dirPhys, { m with bytes := b.copyWords L.kernelDirectory dirPhys IDENTITY_MAPPED_TABLES })

/-- The end of `paging_map_user_page`, with the table found. -/
def setPte (m : Memory) (table virtualAddress physicalPage : Nat) (w : Bool) : Memory :=
  let pte := addressOf physicalPage + (PAGE_PRESENT + PAGE_USER + if w then PAGE_WRITABLE else 0)
  { m with bytes := m.bytes.store32 (table + 4 * pteIndexFor virtualAddress) pte }

def paging_map_user_page (m : Memory) (addressSpace virtualAddress physicalPage : Nat) (w : Bool) :
    Bool × Memory :=
  if virtualAddress % PAGE_SIZE_BYTES ≠ 0 ∨ physicalPage % PAGE_SIZE_BYTES ≠ 0 then (false, m)
  else
    let pdeIndex := pdeIndexFor virtualAddress
    if pdeIndex < IDENTITY_MAPPED_TABLES then (false, m)
    else
      let pde := m.bytes.load32 (addressSpace + 4 * pdeIndex)
      if !present pde then
        match memory_alloc_page m with
        | (tablePhys, m) =>
          if tablePhys = 0 then (false, m)
          else
            let b := m.bytes.storeWords tablePhys (fun _ => 0) ENTRIES_PER_TABLE
            let b := b.store32 (addressSpace + 4 * pdeIndex)
              (tablePhys + (PAGE_PRESENT + PAGE_WRITABLE + PAGE_USER))
            (true, setPte { m with bytes := b } tablePhys virtualAddress physicalPage w)
      else (true, setPte m (addressOf pde) virtualAddress physicalPage w)

/-- One round of the loop of `paging_destroy_address_space`. -/
def destroyTable (addressSpace : Nat) (m : Memory) (i : Nat) : Memory :=
  let pde := m.bytes.load32 (addressSpace + 4 * i)
  if present pde then
    let m := memory_free_page m (addressOf pde)
    { m with bytes := m.bytes.store32 (addressSpace + 4 * i) 0 }
  else m

def paging_destroy_address_space (L : KernelLayout) (m : Memory) (addressSpace : Nat) : Memory :=
  if addressSpace = paging_kernel_address_space L then m
  else
    let m := (List.range' IDENTITY_MAPPED_TABLES
      (ENTRIES_PER_TABLE - IDENTITY_MAPPED_TABLES)).foldl (destroyTable addressSpace) m
    memory_free_page m addressSpace

/-! ## Translation -/

/-- The physical address of a virtual one, and what ring 3 may do with it. -/
structure Translation where
  address : Nat
  user : Bool
  writable : Bool
  deriving DecidableEq

/-- The walk of the MMU through a directory. -/
def translate (m : WordMemory) (directory vaddr : Nat) : Option Translation :=
  let pde := m.load32 (directory + 4 * pdeIndexFor vaddr)
  let pte := m.load32 (addressOf pde + 4 * pteIndexFor vaddr)
  if present pde && present pte then
    some ⟨addressOf pte + vaddr % 4096, user pde && user pte, writable pde && writable pte⟩
  else none

/-! ## Entries -/

/-- The kernel's directory and its tables. -/
structure KernelSpace (L : KernelLayout) (m : WordMemory) : Prop where
  tables : ∀ t < 4, m.load32 (L.kernelDirectory + 4 * t) = L.identityTables + 4096 * t + 7
  rest : ∀ i, 4 ≤ i → i < 1024 → m.load32 (L.kernelDirectory + 4 * i) = 0
  identity : ∀ t < 4, ∀ j < 1024,
    m.load32 (L.identityTables + 4096 * t + 4 * j) = (1024 * t + j) * 4096 + 3

/-- A private directory: the kernel's tables, and at most one of its own, with these entries. -/
structure Space (L : KernelLayout) (m : WordMemory) (dir : Nat) (table : Option Nat) (pte : Nat → Nat) :
    Prop where
  shared : ∀ t < 4, m.load32 (dir + 4 * t) = L.identityTables + 4096 * t + 7
  own : m.load32 (dir + 16) = table.elim 0 (· + 7)
  rest : ∀ i, 5 ≤ i → i < 1024 → m.load32 (dir + 4 * i) = 0
  entries : ∀ t ∈ table, ∀ j < 1024, m.load32 (t + 4 * j) = pte j

theorem KernelSpace.congr {L : KernelLayout} {m m' : WordMemory} (h : KernelSpace L m)
    (hd : ∀ x, L.kernelDirectory ≤ x → x < L.kernelDirectory + 4096 → m' x = m x)
    (ht : ∀ x, L.identityTables ≤ x → x < L.identityTables + 16384 → m' x = m x) :
    KernelSpace L m' := by
  refine ⟨fun t hlt => ?_, fun i hi hlt => ?_, fun t hlt j hj => ?_⟩
  · rw [← h.tables t hlt]
    exact WordMemory.load32_congr fun x _ _ => hd x (by omega) (by omega)
  · rw [← h.rest i hi hlt]
    exact WordMemory.load32_congr fun x _ _ => hd x (by omega) (by omega)
  · rw [← h.identity t hlt j hj]
    exact WordMemory.load32_congr fun x _ _ => ht x (by omega) (by omega)

theorem Space.congr {L : KernelLayout} {m m' : WordMemory} {dir : Nat} {table : Option Nat}
    {pte : Nat → Nat} (h : Space L m dir table pte)
    (hd : ∀ x, dir ≤ x → x < dir + 4096 → m' x = m x)
    (ht : ∀ t ∈ table, ∀ x, t ≤ x → x < t + 4096 → m' x = m x) : Space L m' dir table pte := by
  refine ⟨fun t hlt => ?_, ?_, fun i hi hlt => ?_, fun t htab j hj => ?_⟩
  · rw [← h.shared t hlt]
    exact WordMemory.load32_congr fun x _ _ => hd x (by omega) (by omega)
  · rw [← h.own]
    exact WordMemory.load32_congr fun x _ _ => hd x (by omega) (by omega)
  · rw [← h.rest i hi hlt]
    exact WordMemory.load32_congr fun x _ _ => hd x (by omega) (by omega)
  · rw [← h.entries t htab j hj]
    exact WordMemory.load32_congr fun x _ _ => ht t htab x (by omega) (by omega)

/-! ## Initialisation -/

/-- A round fills its table and its entry, and nothing else. -/
theorem initTable_spec (L : KernelLayout) (m : WordMemory) {t : Nat} (ht : t < 4) :
    (initTable L m t).load32 (L.kernelDirectory + 4 * t) = L.identityTables + 4096 * t + 7 ∧
      (∀ j < 1024, (initTable L m t).load32 (L.identityTables + 4096 * t + 4 * j) =
        (1024 * t + j) * 4096 + 3) ∧
      ∀ x, (x < L.kernelDirectory + 4 * t ∨ L.kernelDirectory + 4 * t + 4 ≤ x) →
        (x < L.identityTables + 4096 * t ∨ L.identityTables + 4096 * t + 4096 ≤ x) →
        initTable L m t x = m x := by
  have h₁ := L.inMemory
  have h₂ := L.directory_inside
  have h₃ := L.tables_inside
  have h₄ := L.apart
  have htable : L.identityTables + 4 * (t * ENTRIES_PER_TABLE) = L.identityTables + 4096 * t := by
    unfold ENTRIES_PER_TABLE
    omega
  unfold initTable
  dsimp only
  rw [htable]
  refine ⟨?_, fun j hj => ?_, fun x hd ht => ?_⟩
  · exact WordMemory.load32_store32 _ _ (by unfold PAGE_PRESENT PAGE_WRITABLE PAGE_USER; omega)
  · rw [WordMemory.load32_store32_of_apart (by omega)]
    have hvalue : ∀ i, (t * ENTRIES_PER_TABLE + i) * PAGE_SIZE_BYTES + (PAGE_PRESENT + PAGE_WRITABLE) =
        (1024 * t + i) * 4096 + 3 := by
      intro i
      unfold ENTRIES_PER_TABLE PAGE_SIZE_BYTES PAGE_PRESENT PAGE_WRITABLE
      omega
    rw [WordMemory.load32_storeWords _ _ (fun i hi => ?_) (show j < ENTRIES_PER_TABLE from hj)]
    · exact hvalue j
    · rw [hvalue]
      unfold ENTRIES_PER_TABLE at hi
      omega
  · rw [WordMemory.store32_of_apart hd, WordMemory.storeWords_of_apart]
    unfold ENTRIES_PER_TABLE
    omega

/-- `paging_init` builds the kernel's directory, and writes nowhere else. -/
theorem paging_init_spec (L : KernelLayout) (m : WordMemory) :
    KernelSpace L (paging_init L m) ∧
      ∀ x, (x < L.kernelDirectory ∨ L.kernelDirectory + 4096 ≤ x) →
        (x < L.identityTables ∨ L.identityTables + 16384 ≤ x) → paging_init L m x = m x := by
  have h₂ := L.directory_inside
  have h₃ := L.tables_inside
  have h₄ := L.apart
  -- after `n` rounds, the first `n` tables and entries are there
  have hloop : ∀ n ≤ 4,
      (∀ t < n, ((List.range n).foldl (initTable L) m).load32 (L.kernelDirectory + 4 * t) =
        L.identityTables + 4096 * t + 7) ∧
      (∀ t < n, ∀ j < 1024, ((List.range n).foldl (initTable L) m).load32
        (L.identityTables + 4096 * t + 4 * j) = (1024 * t + j) * 4096 + 3) ∧
      ∀ x, (x < L.kernelDirectory ∨ L.kernelDirectory + 4096 ≤ x) →
        (x < L.identityTables ∨ L.identityTables + 16384 ≤ x) →
        (List.range n).foldl (initTable L) m x = m x := by
    intro n
    induction n with
    | zero => exact fun _ => ⟨nofun, nofun, fun _ _ _ => rfl⟩
    | succ n ih =>
      intro hn
      obtain ⟨hentry, htable, hout⟩ := ih (by omega)
      rw [List.range_succ, List.foldl_append, List.foldl_cons, List.foldl_nil]
      obtain ⟨hentry', htable', hout'⟩ :=
        initTable_spec L ((List.range n).foldl (initTable L) m) (t := n) (by omega)
      refine ⟨fun t ht => ?_, fun t ht j hj => ?_, fun x hd ht => ?_⟩
      · by_cases he : t = n
        · rw [he, hentry']
        · rw [← hentry t (by omega)]
          exact WordMemory.load32_congr fun x _ _ => hout' x (by omega) (by omega)
      · by_cases he : t = n
        · rw [he, htable' j hj]
        · rw [← htable t (by omega) j hj]
          exact WordMemory.load32_congr fun x _ _ => hout' x (by omega) (by omega)
      · rw [hout' x (by omega) (by omega), hout x hd ht]
  obtain ⟨hentry, htable, hout⟩ := hloop 4 le_rfl
  unfold paging_init
  rw [show IDENTITY_MAPPED_TABLES = 4 from rfl, show ENTRIES_PER_TABLE - 4 = 1020 from rfl]
  dsimp only
  refine ⟨⟨fun t ht => ?_, fun i hi hlt => ?_, fun t ht j hj => ?_⟩, fun x hd ht => ?_⟩
  · rw [← hentry t ht]
    exact WordMemory.load32_congr fun x _ _ => WordMemory.storeWords_of_apart (by omega)
  · obtain ⟨k, rfl⟩ := Nat.exists_eq_add_of_le hi
    rw [show L.kernelDirectory + 4 * (4 + k) = L.kernelDirectory + 4 * 4 + 4 * k by omega,
      WordMemory.load32_storeWords _ _ (fun _ _ => by decide) (by omega)]
  · rw [← htable t ht j hj]
    exact WordMemory.load32_congr fun x _ _ => WordMemory.storeWords_of_apart (by omega)
  · rw [WordMemory.storeWords_of_apart (by omega), hout x hd ht]

/-! ## Walks -/

theorem addressOf_add {a f : Nat} (h : a % 4096 = 0) (hf : f < 4096) : addressOf (a + f) = a := by
  unfold addressOf
  omega

/-- The kernel's directory gives ring 3 nothing. -/
theorem KernelSpace.not_user {L : KernelLayout} {m : WordMemory} (h : KernelSpace L m) {v : Nat}
    (hv : v < 2 ^ 32) {r : Translation} (hr : translate m L.kernelDirectory v = some r) :
    r.user = false := by
  have hal := L.tables_aligned
  unfold translate at hr
  dsimp only at hr
  by_cases hi : pdeIndexFor v < 4
  · rw [h.tables _ hi, addressOf_add (by omega) (by decide)] at hr
    have hj : pteIndexFor v < 1024 := Nat.mod_lt _ (by decide)
    rw [h.identity _ hi _ hj] at hr
    split at hr
    · cases hr
      have huser : user ((1024 * pdeIndexFor v + pteIndexFor v) * 4096 + 3) = false := by
        unfold user
        rw [beq_eq_false_iff_ne]
        omega
      dsimp only
      rw [huser, Bool.and_false]
    · cases hr
  · have hlt : pdeIndexFor v < 1024 := by
      unfold pdeIndexFor
      omega
    rw [h.rest _ (by omega) hlt] at hr
    cases hr

/-- A private directory gives ring 3 at most the pages in its own table. -/
theorem Space.of_user {L : KernelLayout} {m : WordMemory} {dir : Nat} {table : Option Nat}
    {pte : Nat → Nat} (h : Space L m dir table pte) (hk : KernelSpace L m)
    (hal : ∀ t ∈ table, t % 4096 = 0) {v : Nat} (hv : v < 2 ^ 32) {r : Translation}
    (hr : translate m dir v = some r) (hu : r.user = true) :
    pdeIndexFor v = 4 ∧ table.isSome ∧ present (pte (pteIndexFor v)) = true ∧
      r.address = addressOf (pte (pteIndexFor v)) + v % 4096 := by
  have htab := L.tables_aligned
  have hj : pteIndexFor v < 1024 := Nat.mod_lt _ (by decide)
  unfold translate at hr
  dsimp only at hr
  rcases lt_trichotomy (pdeIndexFor v) 4 with hi | hi | hi
  · rw [h.shared _ hi, addressOf_add (by omega) (by decide), hk.identity _ hi _ hj] at hr
    split at hr
    · cases hr
      have huser : user ((1024 * pdeIndexFor v + pteIndexFor v) * 4096 + 3) = false := by
        unfold user
        rw [beq_eq_false_iff_ne]
        omega
      dsimp only at hu
      rw [huser, Bool.and_false] at hu
      cases hu
    · cases hr
  · rw [hi, h.own] at hr
    cases table with
    | none => cases hr
    | some t =>
      rw [Option.elim_some, addressOf_add (hal t rfl) (by decide), h.entries t rfl _ hj] at hr
      split at hr
      · rename_i hp
        cases hr
        exact ⟨hi, rfl, (Bool.and_eq_true _ _ ▸ hp).2, rfl⟩
      · cases hr
  · have hlt : pdeIndexFor v < 1024 := by
      unfold pdeIndexFor
      omega
    rw [h.rest _ (by omega) hlt] at hr
    cases hr

/-- An address that a private table maps. -/
theorem Space.translate_own {L : KernelLayout} {m : WordMemory} {dir t : Nat} {pte : Nat → Nat}
    (h : Space L m dir (some t) pte) (hal : t % 4096 = 0) {v page : Nat} {w : Bool}
    (hv : pdeIndexFor v = 4) (hpage : page % 4096 = 0)
    (hpte : pte (pteIndexFor v) = page + (5 + if w then 2 else 0)) :
    translate m dir v = some ⟨page + v % 4096, true, w⟩ := by
  have hj : pteIndexFor v < 1024 := Nat.mod_lt _ (by decide)
  unfold translate
  dsimp only
  rw [hv, h.own, Option.elim_some, addressOf_add hal (by decide), h.entries t rfl _ hj, hpte,
    addressOf_add hpage (by split <;> decide)]
  unfold present user writable
  rw [show (t + 7) % 2 = 1 by omega, show (t + 7) / 4 % 2 = 1 by omega,
    show (t + 7) / 2 % 2 = 1 by omega]
  cases w
  · rw [if_neg Bool.false_ne_true, show (page + (5 + 0)) % 2 = 1 by omega,
      show (page + (5 + 0)) / 4 % 2 = 1 by omega, show (page + (5 + 0)) / 2 % 2 = 0 by omega]
    rfl
  · rw [if_pos rfl, show (page + (5 + 2)) % 2 = 1 by omega,
      show (page + (5 + 2)) / 4 % 2 = 1 by omega, show (page + (5 + 2)) / 2 % 2 = 1 by omega]
    rfl

end Os
end Techuila
