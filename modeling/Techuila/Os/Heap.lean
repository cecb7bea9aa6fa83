import Techuila.Lib.WordMemory

/-!
# The kernel heap (`22-os/heap/heap.cpp`)

The headers are in the memory that they describe, laid out as the 32-bit kernel has them. Pointers
are addresses, `uint32_t` arithmetic wraps around. `memory_alloc_page` is the argument `page`: the
page that it would return, or 0.

* `kmalloc`, `kfree`, `heap_bytes_allocated` as functions on a `Heap`. The walks over the lists have
  a bound on their rounds; `none` means that it was not enough.
-/

namespace Techuila
namespace Os

/-- `a + b` on `uint32_t`. -/
def add32 (a b : Nat) : Nat := (a + b) % 2 ^ 32

/-- `a - b` on `uint32_t`. -/
def sub32 (a b : Nat) : Nat := (a + 2 ^ 32 - b) % 2 ^ 32

def PAGE_SIZE_BYTES : Nat := 4096
def ALIGNMENT : Nat := 8
def MIN_SPLIT_PAYLOAD : Nat := 8

/-! ## Headers -/

namespace BlockHeader

/-- `sizeof(BlockHeader)`: `size` at offset 0, `used` at 4, `next` at 8 and `prev` at 12. -/
def SIZE : Nat := 16

def size (m : WordMemory) (block : Nat) : Nat := m.load32 block
def used (m : WordMemory) (block : Nat) : Bool := m (block + 4) != 0
def next (m : WordMemory) (block : Nat) : Nat := m.load32 (block + 8)
def prev (m : WordMemory) (block : Nat) : Nat := m.load32 (block + 12)

def setSize (m : WordMemory) (block value : Nat) : WordMemory := m.store32 block value
def setUsed (m : WordMemory) (block : Nat) (value : Bool) : WordMemory :=
  m.store8 (block + 4) (if value then 1 else 0)
def setNext (m : WordMemory) (block value : Nat) : WordMemory := m.store32 (block + 8) value
def setPrev (m : WordMemory) (block value : Nat) : WordMemory := m.store32 (block + 12) value

end BlockHeader

namespace Segment

/-- `sizeof(Segment)`: `next` at offset 0 and `firstBlock` at 4. -/
def SIZE : Nat := 8

def next (m : WordMemory) (segment : Nat) : Nat := m.load32 segment
def firstBlock (m : WordMemory) (segment : Nat) : Nat := m.load32 (segment + 4)

def setNext (m : WordMemory) (segment value : Nat) : WordMemory := m.store32 segment value
def setFirstBlock (m : WordMemory) (segment value : Nat) : WordMemory :=
  m.store32 (segment + 4) value

end Segment

/-! ## The allocator -/

structure Heap where
  mem : WordMemory
  segments : Nat := 0
  bytesAllocated : Nat := 0

/-- Adding may wrap around; then the low bits are cleared. -/
def alignUp (value : Nat) : Nat := add32 value (ALIGNMENT - 1) / ALIGNMENT * ALIGNMENT

def blockPayload (block : Nat) : Nat := block + BlockHeader.SIZE
def payloadToBlock (payload : Nat) : Nat := payload - BlockHeader.SIZE

open BlockHeader in
def splitIfWorthwhile (m : WordMemory) (block size : Nat) : WordMemory :=
  let remaining := sub32 (BlockHeader.size m block) size
  if remaining < SIZE + MIN_SPLIT_PAYLOAD then m
  else
    let newBlock := blockPayload block + size
    let m := setSize m newBlock (sub32 remaining SIZE)
    let m := setUsed m newBlock false
    let m := setNext m newBlock (next m block)
    let m := setPrev m newBlock block
    let m := if next m block ≠ 0 then setPrev m (next m block) newBlock else m
    let m := setNext m block newBlock
    setSize m block size

/-- Nothing changes where there is no page. -/
def growHeap (page : Nat) (heap : Heap) : Bool × Heap :=
  if page = 0 then (false, heap)
  else
    let segment := page
    let block := segment + Segment.SIZE
    let m := heap.mem
    let m := BlockHeader.setSize m block (PAGE_SIZE_BYTES - Segment.SIZE - BlockHeader.SIZE)
    let m := BlockHeader.setUsed m block false
    let m := BlockHeader.setNext m block 0
    let m := BlockHeader.setPrev m block 0
    let m := Segment.setFirstBlock m segment block
    let m := Segment.setNext m segment heap.segments
    (true, { heap with mem := m, segments := segment })

/-- The inner loop of `findFreeBlock`, with at most `rounds` rounds; 0 is not found. -/
def findInSegment (m : WordMemory) (size : Nat) : (rounds block : Nat) → Option Nat
  | 0, _ => none
  | rounds + 1, block =>
    if block = 0 then some 0
    else if !BlockHeader.used m block && BlockHeader.size m block ≥ size then some block
    else findInSegment m size rounds (BlockHeader.next m block)

/-- The outer loop. -/
def findInSegments (m : WordMemory) (size inner : Nat) : (rounds segment : Nat) → Option Nat
  | 0, _ => none
  | rounds + 1, segment =>
    if segment = 0 then some 0
    else
      match findInSegment m size inner (Segment.firstBlock m segment) with
      | none => none
      | some 0 => findInSegments m size inner rounds (Segment.next m segment)
      | some block => some block

def findFreeBlock (rounds : Nat) (heap : Heap) (size : Nat) : Option Nat :=
  findInSegments heap.mem size rounds rounds heap.segments

def heap_init (mem : WordMemory) : Heap := ⟨mem, 0, 0⟩

/-- The end of `kmalloc`, with the block found. -/
def takeBlock (heap : Heap) (block aligned : Nat) : Nat × Heap :=
  let m := splitIfWorthwhile heap.mem block aligned
  let m := BlockHeader.setUsed m block true
  (blockPayload block,
    { heap with mem := m, bytesAllocated := add32 heap.bytesAllocated (BlockHeader.size m block) })

def kmalloc (rounds page : Nat) (heap : Heap) (size : Nat) : Option (Nat × Heap) :=
  if size = 0 then some (0, heap)
  else
    let aligned := alignUp size
    match findFreeBlock rounds heap aligned with
    | none => none
    | some 0 =>
      match growHeap page heap with
      | (false, heap) => some (0, heap)
      | (true, heap) =>
        match findFreeBlock rounds heap aligned with
        | none => none
        | some 0 => some (0, heap)
        | some block => some (takeBlock heap block aligned)
    | some block => some (takeBlock heap block aligned)

open BlockHeader in
/-- What `kfree` does to a block and the free one after it. -/
def absorb (m : WordMemory) (block after : Nat) : WordMemory :=
  let m := setSize m block (add32 (size m block) (add32 SIZE (size m after)))
  let m := setNext m block (next m after)
  if next m block ≠ 0 then setPrev m (next m block) block else m

open BlockHeader in
/-- The two merges of `kfree`, first with the next block. -/
def coalesce (m : WordMemory) (block : Nat) : WordMemory :=
  let m := if next m block ≠ 0 && !used m (next m block) then absorb m block (next m block) else m
  if prev m block ≠ 0 && !used m (prev m block) then absorb m (prev m block) block else m

def kfree (heap : Heap) (pointer : Nat) : Heap :=
  if pointer = 0 then heap
  else
    let block := payloadToBlock pointer
    if !BlockHeader.used heap.mem block then heap
    else
      let m := BlockHeader.setUsed heap.mem block false
      { heap with
        mem := coalesce m block
        bytesAllocated := sub32 heap.bytesAllocated (BlockHeader.size m block) }

def heap_bytes_allocated (heap : Heap) : Nat := heap.bytesAllocated

end Os
end Techuila
