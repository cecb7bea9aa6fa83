import Mathlib.Data.List.Basic
import Techuila.Dist.Serialization

/-!
# The ELF validator (`22-os/elf/elf.hpp`, `elf.cpp`)

The image is its bytes, fewer than 2³² of them; a read outside it makes the result `none`. Sums that the
source forms on `uint64_t`, and those that its checks keep below 2³², do not wrap around.

* `elf_validate_and_plan`, `elf_validate_and_plan_accepts`: no read is outside the image, and the plan has the
  `PT_LOAD` headers as its segments.
* `Loadable`: a plan that can be loaded as it stands.
* `plan_loadable_iff`: an accepted plan can, exactly if no empty segment is where another segment starts or at
  the end of the window.
-/

namespace Techuila
namespace Os

open Techuila.Dist (Bytes)

/-! ## The source -/

def ELF_MAX_SEGMENTS : Nat := 4
def ELF_MAX_PAGES : Nat := 8
def ELF_PAGE_SIZE : Nat := 4096
def ELF_SEGMENT_VIRTUAL_BASE : Nat := 0x01000000
def ELF_STACK_PAGE_VADDR : Nat := ELF_SEGMENT_VIRTUAL_BASE + ELF_MAX_PAGES * ELF_PAGE_SIZE
def ELF_STACK_TOP_VADDR : Nat := ELF_STACK_PAGE_VADDR + ELF_PAGE_SIZE

inductive ElfError where
  | imageTooSmallForHeader
  | badMagic
  | unsupportedClass
  | unsupportedEndianness
  | unsupportedVersion
  | unsupportedType
  | unsupportedMachine
  | programHeaderTableOutOfBounds
  | tooManySegments
  | noLoadSegments
  | segmentOffsetOutOfBounds
  | segmentSizeInvalid
  | segmentNotPageAligned
  | segmentOutsideAllowedRegion
  | segmentOverlap
  | tooManyPages
  | entryPointNotInAnyExecutableSegment
  deriving DecidableEq, Repr

structure ElfSegmentPlan where
  virtualAddress : Nat
  fileOffset : Nat
  fileSize : Nat
  memSize : Nat
  writable : Bool
  executable : Bool
  deriving DecidableEq, Repr

/-- `segments` are the first `segmentCount` ones of the array. -/
structure ElfLoadPlan where
  entryPoint : Nat
  segments : List ElfSegmentPlan := []
  totalPages : Nat := 0
  deriving DecidableEq, Repr

def EHDR_SIZE : Nat := 52
def PHDR_SIZE : Nat := 32
def ELFCLASS32 : UInt8 := 1
def ELFDATA2LSB : UInt8 := 1
def EV_CURRENT : UInt8 := 1
def ET_EXEC : Nat := 2
def EM_386 : Nat := 3
def PT_LOAD : Nat := 1
/-- `PF_X` and `PF_W` are the bits 0 and 1. -/
def PF_X_BIT : Nat := 0
def PF_W_BIT : Nat := 1

def readU16 (image : Bytes) (i : Nat) : Option Nat := do
  let b₀ ← image[i]?
  let b₁ ← image[i + 1]?
  some (b₀.toNat + 256 * b₁.toNat)

def readU32 (image : Bytes) (i : Nat) : Option Nat := do
  let b₀ ← image[i]?
  let b₁ ← image[i + 1]?
  let b₂ ← image[i + 2]?
  let b₃ ← image[i + 3]?
  some (b₀.toNat + 256 * b₁.toNat + 65536 * b₂.toNat + 16777216 * b₃.toNat)

def pageAlignDown (address : Nat) : Nat := address / ELF_PAGE_SIZE * ELF_PAGE_SIZE

def isPageAligned (address : Nat) : Bool := address % ELF_PAGE_SIZE == 0

def rangesOverlap (aStart aEnd bStart bEnd : Nat) : Bool := aStart < bEnd && bStart < aEnd

/-- The pages that a segment needs: an empty one still has its own. -/
def pagesForSegment (memSize : Nat) : Nat :=
  let pages := (memSize + ELF_PAGE_SIZE - 1) / ELF_PAGE_SIZE
  if pages = 0 then 1 else pages

/-- One round of the loop, with the program header at `ph`. -/
def planSegment (image : Bytes) (ph : Nat) (plan : ElfLoadPlan) :
    Option (Except ElfError ElfLoadPlan) := do
  let p_type ← readU32 image ph
  if p_type ≠ PT_LOAD then some (.ok plan)
  else
    let p_offset ← readU32 image (ph + 4)
    let p_vaddr ← readU32 image (ph + 8)
    let p_filesz ← readU32 image (ph + 16)
    let p_memsz ← readU32 image (ph + 20)
    let p_flags ← readU32 image (ph + 24)
    if p_memsz < p_filesz then some (.error .segmentSizeInvalid)
    else if p_offset + p_filesz > image.length then some (.error .segmentOffsetOutOfBounds)
    else if !isPageAligned p_vaddr then some (.error .segmentNotPageAligned)
    else
      let memEnd := p_vaddr + p_memsz
      if p_vaddr < ELF_SEGMENT_VIRTUAL_BASE ∨
          memEnd > ELF_SEGMENT_VIRTUAL_BASE + ELF_MAX_PAGES * ELF_PAGE_SIZE then
        some (.error .segmentOutsideAllowedRegion)
      else if plan.segments.length ≥ ELF_MAX_SEGMENTS then some (.error .tooManySegments)
      else if plan.segments.any fun other =>
          rangesOverlap (pageAlignDown p_vaddr) (pageAlignDown (memEnd + ELF_PAGE_SIZE - 1))
            (pageAlignDown other.virtualAddress)
            (pageAlignDown (other.virtualAddress + other.memSize + ELF_PAGE_SIZE - 1)) then
        some (.error .segmentOverlap)
      else
        let segment : ElfSegmentPlan :=
          ⟨p_vaddr, p_offset, p_filesz, p_memsz, p_flags.testBit PF_W_BIT, p_flags.testBit PF_X_BIT⟩
        let totalPages := plan.totalPages + pagesForSegment p_memsz
        if totalPages > ELF_MAX_PAGES then some (.error .tooManyPages)
        else some (.ok { plan with segments := plan.segments ++ [segment], totalPages := totalPages })

/-- The loop from round `i` on, with `n` rounds to go. -/
def planSegments (image : Bytes) (phoff phentsize : Nat) :
    (n i : Nat) → ElfLoadPlan → Option (Except ElfError ElfLoadPlan)
  | 0, _, plan => some (.ok plan)
  | n + 1, i, plan => do
    match ← planSegment image (phoff + i * phentsize) plan with
    | .error e => some (.error e)
    | .ok plan => planSegments image phoff phentsize n (i + 1) plan

/-- The checks after the loop. -/
def checkEntry (plan : ElfLoadPlan) : Except ElfError ElfLoadPlan :=
  if plan.segments = [] then .error .noLoadSegments
  else if plan.segments.any fun segment => segment.executable &&
      (plan.entryPoint ≥ segment.virtualAddress &&
        plan.entryPoint < segment.virtualAddress + segment.memSize) then
    .ok plan
  else .error .entryPointNotInAnyExecutableSegment

/-- The fields of the header are read up front. -/
def elf_validate_and_plan (image : Bytes) : Option (Except ElfError ElfLoadPlan) :=
  if image.length < EHDR_SIZE then some (.error .imageTooSmallForHeader)
  else do
    let m₀ ← image[0]?
    let m₁ ← image[1]?
    let m₂ ← image[2]?
    let m₃ ← image[3]?
    let elfClass ← image[4]?
    let endianness ← image[5]?
    let version ← image[6]?
    let type ← readU16 image 16
    let machine ← readU16 image 18
    let entry ← readU32 image 24
    let phoff ← readU32 image 28
    let phentsize ← readU16 image 42
    let phnum ← readU16 image 44
    if m₀ ≠ 0x7F ∨ m₁ ≠ 0x45 ∨ m₂ ≠ 0x4C ∨ m₃ ≠ 0x46 then some (.error .badMagic)
    else if elfClass ≠ ELFCLASS32 then some (.error .unsupportedClass)
    else if endianness ≠ ELFDATA2LSB then some (.error .unsupportedEndianness)
    else if version ≠ EV_CURRENT then some (.error .unsupportedVersion)
    else if type ≠ ET_EXEC then some (.error .unsupportedType)
    else if machine ≠ EM_386 then some (.error .unsupportedMachine)
    else if phnum = 0 then some (.error .noLoadSegments)
    else if phnum > ELF_MAX_SEGMENTS then some (.error .tooManySegments)
    else if phentsize ≠ PHDR_SIZE then some (.error .programHeaderTableOutOfBounds)
    else if phoff + phnum * phentsize > image.length then
      some (.error .programHeaderTableOutOfBounds)
    else
      match ← planSegments image phoff phentsize phnum 0 { entryPoint := entry } with
      | .error e => some (.error e)
      | .ok plan => some (checkEntry plan)

/-! ## Reads inside the image -/

/-- The two bytes at `i`. -/
def u16At (image : Bytes) (i : Nat) : Nat :=
  (image.getD i 0).toNat + 256 * (image.getD (i + 1) 0).toNat

/-- The four bytes at `i`. -/
def u32At (image : Bytes) (i : Nat) : Nat :=
  (image.getD i 0).toNat + 256 * (image.getD (i + 1) 0).toNat +
    65536 * (image.getD (i + 2) 0).toNat + 16777216 * (image.getD (i + 3) 0).toNat

theorem getElem?_inside {image : Bytes} {i : Nat} (h : i < image.length) :
    image[i]? = some (image.getD i 0) := by
  rw [List.getD_eq_getElem?_getD, List.getElem?_eq_getElem h, Option.getD_some]

theorem readU16_inside {image : Bytes} {i : Nat} (h : i + 2 ≤ image.length) :
    readU16 image i = some (u16At image i) := by
  rw [readU16, getElem?_inside (i := i) (by omega), getElem?_inside (i := i + 1) (by omega)]
  rfl

theorem readU32_inside {image : Bytes} {i : Nat} (h : i + 4 ≤ image.length) :
    readU32 image i = some (u32At image i) := by
  rw [readU32, getElem?_inside (i := i) (by omega), getElem?_inside (i := i + 1) (by omega),
    getElem?_inside (i := i + 2) (by omega), getElem?_inside (i := i + 3) (by omega)]
  rfl

/-- The segment of a program header. -/
def headerAt (image : Bytes) (ph : Nat) : ElfSegmentPlan :=
  ⟨u32At image (ph + 8), u32At image (ph + 4), u32At image (ph + 16), u32At image (ph + 20),
    (u32At image (ph + 24)).testBit PF_W_BIT, (u32At image (ph + 24)).testBit PF_X_BIT⟩

/-- The segments of the `PT_LOAD` headers among `n` headers from the one with the index `i` on. -/
def loadHeaders (image : Bytes) (phoff phentsize : Nat) : (n i : Nat) → List ElfSegmentPlan
  | 0, _ => []
  | n + 1, i =>
    (if u32At image (phoff + i * phentsize) = PT_LOAD then
      [headerAt image (phoff + i * phentsize)] else []) ++ loadHeaders image phoff phentsize n (i + 1)

/-- The segments of the `PT_LOAD` headers of an image. -/
def imageSegments (image : Bytes) : List ElfSegmentPlan :=
  loadHeaders image (u32At image 28) (u16At image 42) (u16At image 44) 0

/-! ## What the checks leave -/

/-- The checks read inside the image, and a plan that they accept has the property. -/
def Accepts (r : Option (Except ElfError ElfLoadPlan)) (P : ElfLoadPlan → Prop) : Prop :=
  ∃ e, r = some e ∧ ∀ plan, e = .ok plan → P plan

section
variable {P Q : ElfLoadPlan → Prop} {k : Option (Except ElfError ElfLoadPlan)}

theorem Accepts.read {α : Type} {o : Option α} {x : α}
    {f : α → Option (Except ElfError ElfLoadPlan)} (h : o = some x) (hf : Accepts (f x) P) :
    Accepts (o >>= f) P := by
  subst h
  exact hf

theorem Accepts.reject {c : Prop} [Decidable c] {e : ElfError} (h : ¬ c → Accepts k P) :
    Accepts (if c then some (.error e) else k) P := by
  by_cases hc : c
  · rw [if_pos hc]
    exact ⟨_, rfl, nofun⟩
  · rw [if_neg hc]
    exact h hc

theorem Accepts.ok {plan : ElfLoadPlan} (h : P plan) : Accepts (some (.ok plan)) P :=
  ⟨_, rfl, fun _ e => Except.ok.inj e ▸ h⟩

/-- A step, and what goes on with its plan. -/
theorem Accepts.next {f : ElfLoadPlan → Option (Except ElfError ElfLoadPlan)} (h : Accepts k P)
    (hf : ∀ plan, P plan → Accepts (f plan) Q) :
    Accepts (k >>= fun r => match r with
      | .error e => some (.error e)
      | .ok plan => f plan) Q := by
  obtain ⟨r, rfl, hok⟩ := h
  cases r with
  | error e => exact ⟨_, rfl, nofun⟩
  | ok plan => exact hf plan (hok plan rfl)

end

/-- A segment that passed its own checks. -/
structure SegmentOk (image : Bytes) (s : ElfSegmentPlan) : Prop where
  sizes : s.fileSize ≤ s.memSize
  inFile : s.fileOffset + s.fileSize ≤ image.length
  aligned : s.virtualAddress % 4096 = 0
  above : 0x01000000 ≤ s.virtualAddress
  below : s.virtualAddress + s.memSize ≤ 0x01008000

/-- The byte ranges, rounded up to pages, that the overlap check compares. -/
def NoOverlap (s t : ElfSegmentPlan) : Prop :=
  rangesOverlap (pageAlignDown t.virtualAddress)
    (pageAlignDown (t.virtualAddress + t.memSize + ELF_PAGE_SIZE - 1))
    (pageAlignDown s.virtualAddress)
    (pageAlignDown (s.virtualAddress + s.memSize + ELF_PAGE_SIZE - 1)) = false

/-- What holds of the plan after every round. -/
structure PlanOk (image : Bytes) (plan : ElfLoadPlan) : Prop where
  segment : ∀ s ∈ plan.segments, SegmentOk image s
  apart : plan.segments.Pairwise NoOverlap
  total : plan.totalPages = (plan.segments.map fun s => pagesForSegment s.memSize).sum
  pages : plan.totalPages ≤ ELF_MAX_PAGES

/-- One round: the segment of a `PT_LOAD` header that passes is added. -/
theorem planSegment_accepts {image : Bytes} {ph : Nat} (h : ph + 32 ≤ image.length)
    {plan : ElfLoadPlan} (hp : PlanOk image plan) :
    Accepts (planSegment image ph plan) fun plan' => PlanOk image plan' ∧
      plan'.entryPoint = plan.entryPoint ∧ plan'.segments = plan.segments ++
        if u32At image ph = PT_LOAD then [headerAt image ph] else [] := by
  refine .read (readU32_inside (by omega)) ?_
  by_cases hload : u32At image ph = PT_LOAD
  swap
  · rw [if_pos hload, if_neg hload]
    exact .ok ⟨hp, rfl, (List.append_nil _).symm⟩
  rw [if_neg (not_not.mpr hload), if_pos hload]
  refine .read (readU32_inside (by omega)) <| .read (readU32_inside (by omega)) <|
    .read (readU32_inside (by omega)) <| .read (readU32_inside (by omega)) <|
    .read (readU32_inside (by omega)) <| .reject fun hsizes => .reject fun hfile =>
    .reject fun haligned => .reject fun hwindow => .reject fun _ => .reject fun hoverlap =>
    .reject fun htotal => .ok ?_
  unfold ELF_SEGMENT_VIRTUAL_BASE ELF_MAX_PAGES ELF_PAGE_SIZE at hwindow
  rw [isPageAligned, Bool.not_eq_true', beq_eq_false_iff_ne, not_not] at haligned
  have hok : SegmentOk image (headerAt image ph) :=
    ⟨not_lt.mp hsizes, not_lt.mp hfile, haligned, by unfold headerAt; dsimp only; omega,
      by unfold headerAt; dsimp only; omega⟩
  refine ⟨⟨fun s hs => ?_, ?_, ?_, not_lt.mp htotal⟩, rfl, rfl⟩
  · rcases List.mem_append.mp hs with hs | hs
    · exact hp.segment s hs
    · obtain rfl := List.mem_singleton.mp hs
      exact hok
  · refine List.pairwise_append.mpr ⟨hp.apart, List.pairwise_singleton _ _, fun s hs t ht => ?_⟩
    obtain rfl := List.mem_singleton.mp ht
    rw [List.any_eq_true] at hoverlap
    exact Bool.eq_false_iff.mpr fun h => hoverlap ⟨s, hs, h⟩
  · rw [List.map_append, List.sum_append, ← hp.total]
    rfl

/-- The whole loop. -/
theorem planSegments_accepts {image : Bytes} {phoff : Nat} (n i : Nat)
    (h : phoff + (i + n) * 32 ≤ image.length) {plan : ElfLoadPlan} (hp : PlanOk image plan) :
    Accepts (planSegments image phoff 32 n i plan) fun plan' => PlanOk image plan' ∧
      plan'.entryPoint = plan.entryPoint ∧
      plan'.segments = plan.segments ++ loadHeaders image phoff 32 n i := by
  induction n generalizing i plan with
  | zero => exact .ok ⟨hp, rfl, (List.append_nil _).symm⟩
  | succ n ih =>
    refine .next (planSegment_accepts (by omega) hp) fun plan₁ h₁ => ?_
    obtain ⟨hp₁, he₁, hs₁⟩ := h₁
    obtain ⟨r, hr, hok⟩ := ih (i + 1) (by omega) hp₁
    refine ⟨r, hr, fun plan' e => ?_⟩
    obtain ⟨hp', he', hs'⟩ := hok plan' e
    refine ⟨hp', he'.trans he₁, ?_⟩
    rw [hs', hs₁, List.append_assoc]
    rfl

theorem planOk_start (image : Bytes) (entry : Nat) : PlanOk image { entryPoint := entry } :=
  ⟨nofun, .nil, rfl, Nat.zero_le _⟩

/-- The entry point is in an executable segment. -/
def EntryOk (plan : ElfLoadPlan) : Prop :=
  ∃ s ∈ plan.segments, s.executable = true ∧ s.virtualAddress ≤ plan.entryPoint ∧
    plan.entryPoint < s.virtualAddress + s.memSize

theorem checkEntry_ok {plan plan' : ElfLoadPlan} (h : checkEntry plan = .ok plan') :
    plan' = plan ∧ EntryOk plan := by
  unfold checkEntry at h
  split at h
  · cases h
  · split at h
    · rename_i hany
      cases h
      obtain ⟨s, hs, hex⟩ := List.any_eq_true.mp hany
      simp only [Bool.and_eq_true, decide_eq_true_eq] at hex
      exact ⟨rfl, s, hs, hex.1, hex.2.1, hex.2.2⟩
    · cases h

/-- No read is outside the image, and an accepted plan has passed every check. -/
theorem elf_validate_and_plan_accepts (image : Bytes) :
    Accepts (elf_validate_and_plan image) fun plan =>
      PlanOk image plan ∧ EntryOk plan ∧ plan.segments = imageSegments image := by
  refine .reject fun hshort => ?_
  have hlen : 52 ≤ image.length := not_lt.mp hshort
  refine .read (getElem?_inside (by omega)) <| .read (getElem?_inside (by omega)) <|
    .read (getElem?_inside (by omega)) <| .read (getElem?_inside (by omega)) <|
    .read (getElem?_inside (by omega)) <| .read (getElem?_inside (by omega)) <|
    .read (getElem?_inside (by omega)) <| .read (readU16_inside (by omega)) <|
    .read (readU16_inside (by omega)) <| .read (readU32_inside (by omega)) <|
    .read (readU32_inside (by omega)) <| .read (readU16_inside (by omega)) <|
    .read (readU16_inside (by omega)) ?_
  refine .reject fun _ => .reject fun _ => .reject fun _ => .reject fun _ => .reject fun _ =>
    .reject fun _ => .reject fun _ => .reject fun _ => .reject fun hsize =>
    .reject fun htable => ?_
  have hsize : u16At image 42 = 32 := not_not.mp hsize
  rw [hsize] at htable ⊢
  refine .next (planSegments_accepts (u16At image 44) 0 (by omega)
    (planOk_start image (u32At image 24))) fun plan h => ?_
  obtain ⟨hp, -, hs⟩ := h
  refine ⟨_, rfl, fun plan' e => ?_⟩
  obtain ⟨rfl, hentry⟩ := checkEntry_ok e
  refine ⟨hp, hentry, hs.trans ?_⟩
  rw [imageSegments, hsize]
  rfl

/-! ## Plans that can be loaded -/

/-- The virtual addresses that the loader maps for a segment end here. -/
def mappedEnd (s : ElfSegmentPlan) : Nat :=
  s.virtualAddress + ELF_PAGE_SIZE * pagesForSegment s.memSize

/-- A plan that can be loaded as it stands. -/
structure Loadable (image : Bytes) (plan : ElfLoadPlan) : Prop where
  disjoint : plan.segments.Pairwise fun s t =>
    mappedEnd s ≤ t.virtualAddress ∨ mappedEnd t ≤ s.virtualAddress
  inWindow : ∀ s ∈ plan.segments, s.virtualAddress % ELF_PAGE_SIZE = 0 ∧
    ELF_SEGMENT_VIRTUAL_BASE ≤ s.virtualAddress ∧ mappedEnd s ≤ ELF_STACK_PAGE_VADDR
  pages : plan.totalPages = (plan.segments.map fun s => pagesForSegment s.memSize).sum ∧
    plan.totalPages ≤ ELF_MAX_PAGES
  inFile : ∀ s ∈ plan.segments, s.fileSize ≤ s.memSize ∧
    s.fileOffset + s.fileSize ≤ image.length
  entry : EntryOk plan

/-- No empty segment is where another segment starts, or at the end of the window. -/
def EmptyApart (segments : List ElfSegmentPlan) : Prop :=
  (segments.Pairwise fun s t => s.memSize = 0 ∨ t.memSize = 0 →
    s.virtualAddress ≠ t.virtualAddress) ∧
  ∀ s ∈ segments, s.memSize = 0 → s.virtualAddress ≠ ELF_STACK_PAGE_VADDR

theorem mappedEnd_eq (s : ElfSegmentPlan) : mappedEnd s =
    s.virtualAddress + 4096 * if s.memSize = 0 then 1 else (s.memSize + 4095) / 4096 := by
  unfold mappedEnd pagesForSegment ELF_PAGE_SIZE
  dsimp only
  congr 2
  split <;> split <;> omega

/-- The page ranges of two segments that passed the checks. -/
theorem disjoint_iff {image : Bytes} {s t : ElfSegmentPlan} (hs : SegmentOk image s)
    (ht : SegmentOk image t) (h : NoOverlap s t) :
    (mappedEnd s ≤ t.virtualAddress ∨ mappedEnd t ≤ s.virtualAddress) ↔
      (s.memSize = 0 ∨ t.memSize = 0 → s.virtualAddress ≠ t.virtualAddress) := by
  have h₁ := hs.aligned
  have h₂ := ht.aligned
  unfold NoOverlap rangesOverlap pageAlignDown ELF_PAGE_SIZE at h
  rw [Bool.and_eq_false_iff, decide_eq_false_iff_not, decide_eq_false_iff_not] at h
  rw [mappedEnd_eq, mappedEnd_eq]
  split <;> split <;> omega

theorem inWindow_iff {image : Bytes} {s : ElfSegmentPlan} (hs : SegmentOk image s) :
    mappedEnd s ≤ ELF_STACK_PAGE_VADDR ↔
      (s.memSize = 0 → s.virtualAddress ≠ ELF_STACK_PAGE_VADDR) := by
  have h₁ := hs.aligned
  have h₂ := hs.below
  rw [mappedEnd_eq, show ELF_STACK_PAGE_VADDR = 0x01008000 from rfl]
  split <;> omega

theorem PlanOk.loadable_iff {image : Bytes} {plan : ElfLoadPlan} (hp : PlanOk image plan)
    (he : EntryOk plan) : Loadable image plan ↔ EmptyApart plan.segments := by
  have hdisjoint : (plan.segments.Pairwise fun s t =>
        mappedEnd s ≤ t.virtualAddress ∨ mappedEnd t ≤ s.virtualAddress) ↔
      plan.segments.Pairwise fun s t => s.memSize = 0 ∨ t.memSize = 0 →
        s.virtualAddress ≠ t.virtualAddress := by
    have hok := hp.segment
    have hapart := hp.apart
    constructor <;> intro h
    · refine (h.and hapart).imp_of_mem fun {s t} hs ht h => ?_
      exact (disjoint_iff (hok s hs) (hok t ht) h.2).mp h.1
    · refine (h.and hapart).imp_of_mem fun {s t} hs ht h => ?_
      exact (disjoint_iff (hok s hs) (hok t ht) h.2).mpr h.1
  constructor
  · intro h
    exact ⟨hdisjoint.mp h.disjoint, fun s hs =>
      (inWindow_iff (hp.segment s hs)).mp (h.inWindow s hs).2.2⟩
  · rintro ⟨h₁, h₂⟩
    refine ⟨hdisjoint.mpr h₁, fun s hs => ?_, ⟨hp.total, hp.pages⟩, fun s hs => ?_, he⟩
    · have hok := hp.segment s hs
      exact ⟨hok.aligned, hok.above, (inWindow_iff hok).mpr (h₂ s hs)⟩
    · have hok := hp.segment s hs
      exact ⟨hok.sizes, hok.inFile⟩

/-- For every image, no read is outside it; and where it is accepted, the plan can be loaded as it
stands exactly if no empty segment of the image is where another one starts or at the end of the
window. -/
theorem plan_loadable_iff (image : Bytes) :
    elf_validate_and_plan image ≠ none ∧
      ∀ plan, elf_validate_and_plan image = some (.ok plan) →
        (Loadable image plan ↔ EmptyApart (imageSegments image)) := by
  obtain ⟨r, hr, hok⟩ := elf_validate_and_plan_accepts image
  refine ⟨by rw [hr]; exact nofun, fun plan h => ?_⟩
  rw [hr] at h
  obtain ⟨hp, he, hs⟩ := hok plan (Option.some.inj h)
  rw [← hs]
  exact hp.loadable_iff he

/-! ## An image with an empty segment -/

/-- `n` little-endian bytes. -/
def leBytes : (n v : Nat) → Bytes
  | 0, _ => []
  | n + 1, v => .ofNat v :: leBytes n (v / 256)

/-- A program header. -/
def programHeader (vaddr filesz memsz flags : Nat) : Bytes :=
  [PT_LOAD, 0, vaddr, 0, filesz, memsz, flags, 0].flatMap (leBytes 4)

/-- An image of only headers, with the entry point at the start of the window. -/
def imageOf (headers : List Bytes) : Bytes :=
  [0x7F, 0x45, 0x4C, 0x46, ELFCLASS32, ELFDATA2LSB, EV_CURRENT] ++ List.replicate 9 0 ++
    [ET_EXEC, EM_386].flatMap (leBytes 2) ++
    [1, ELF_SEGMENT_VIRTUAL_BASE, EHDR_SIZE, 0, 0].flatMap (leBytes 4) ++
    [EHDR_SIZE, PHDR_SIZE, headers.length, 0, 0, 0].flatMap (leBytes 2) ++ headers.flatten

/-- A code segment, and an empty one at the page of the stack. -/
def emptyAtStack : Bytes :=
  imageOf [programHeader ELF_SEGMENT_VIRTUAL_BASE 4 4 5, programHeader ELF_STACK_PAGE_VADDR 0 0 6]

/-- It is accepted, and the page of its second segment is not in the window. -/
theorem plan_loadable_iff_counterexample :
    ∃ plan, elf_validate_and_plan emptyAtStack = some (.ok plan) ∧ ¬ Loadable emptyAtStack plan := by
  refine ⟨⟨ELF_SEGMENT_VIRTUAL_BASE, [⟨ELF_SEGMENT_VIRTUAL_BASE, 0, 4, 4, false, true⟩,
    ⟨ELF_STACK_PAGE_VADDR, 0, 0, 0, true, false⟩], 2⟩, by decide, fun h => ?_⟩
  have hlast := (h.inWindow ⟨ELF_STACK_PAGE_VADDR, 0, 0, 0, true, false⟩ (by decide)).2.2
  exact absurd hlast (by decide)

end Os
end Techuila
