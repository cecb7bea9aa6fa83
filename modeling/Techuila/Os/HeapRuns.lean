import Techuila.Os.HeapInvariant

/-!
# Runs of the kernel heap

* `World`: the heap, the live pointers and the pages that it was given; `World.Reachable`: what calls
  of `kmalloc` and `kfree` and writes of the clients lead to.
* `World.heap_invariant`: the invariant of every reachable heap, and what a call does to the payloads
  that stay live.
-/

namespace Techuila
namespace Os

open BlockHeader (size)

/-- A heap with the pointers that are live and the pages that it has. -/
structure World where
  heap : Heap
  live : List Nat
  pages : List Nat

/-- The rounds of a walk over a list: there are fewer blocks than addresses. -/
def ROUNDS : Nat := 2 ^ 32

/-- A call; `page` is what `memory_alloc_page` would return in it, or 0. -/
inductive Call where
  | kmalloc (size page : Nat)
  | kfree (pointer : Nat)

namespace World

/-- `kmalloc` asks for a page where no free block is large enough. -/
def asksForPage (w : World) (size : Nat) : Bool :=
  size ≠ 0 && findFreeBlock ROUNDS w.heap (alignUp size) == some 0

/-- A call, and the pointers and pages after it. -/
def call (w : World) : Call → Option World
  | .kmalloc size page =>
    match Os.kmalloc ROUNDS page w.heap size with
    | none => none
    | some (pointer, heap) => some
      { heap := heap
        live := if pointer = 0 then w.live else pointer :: w.live
        pages := if w.asksForPage size ∧ page ≠ 0 then page :: w.pages else w.pages }
  | .kfree pointer => some
    { w with heap := Os.kfree w.heap pointer, live := w.live.erase pointer }

/-- The calls of a client that keeps to its contract, with a page that is new. -/
def Allowed (w : World) : Call → Prop
  | .kmalloc size page => size < 2 ^ 32 ∧
      (page = 0 ∨ page % 4096 = 0 ∧ page + 4096 ≤ 2 ^ 32 ∧ page ∉ w.pages)
  | .kfree pointer => pointer = 0 ∨ pointer ∈ w.live

/-- The size of the block of a live pointer. -/
def sizeOf (w : World) (pointer : Nat) : Nat := size w.heap.mem (payloadToBlock pointer)

/-- The bytes that are not the heap's: those of live payloads, and those outside its pages. -/
def Writable (w : World) (address : Nat) : Prop :=
  (∃ p ∈ w.live, p ≤ address ∧ address < p + w.sizeOf p) ∨
    ∀ page ∈ w.pages, address < page ∨ page + 4096 ≤ address

def write (w : World) (address : Nat) (byte : UInt8) : World :=
  { w with heap := { w.heap with mem := w.heap.mem.store8 address byte } }

/-- What calls and writes lead to, from any memory. -/
inductive Reachable : World → Prop where
  | init (mem : WordMemory) : Reachable ⟨heap_init mem, [], []⟩
  | call {w w' : World} {c : Call} : Reachable w → w.Allowed c → w.call c = some w' → Reachable w'
  | write {w : World} {address : Nat} (byte : UInt8) :
      Reachable w → w.Writable address → Reachable (w.write address byte)

/-- Payloads that stay live keep their size and their bytes. -/
def KeepsLive (w w' : World) : Prop :=
  ∀ p ∈ w.live, p ∈ w'.live → w'.sizeOf p = w.sizeOf p ∧
    ∀ x, p ≤ x → x < p + w.sizeOf p → w'.heap.mem x = w.heap.mem x

/-- The invariant: the heap is these segments, on the pages that it was given, and the live
pointers are those of the used blocks. -/
structure Holds (w : World) (segs : List Seg) : Prop where
  represents : Represents w.heap segs
  pages : segs.map (·.page) = w.pages
  live : w.live.Perm ((livePayloads segs).map (·.1))

end World

/-! ## Live pointers -/

/-- The size in the header of a used block. -/
theorem size_eq {heap : Heap} {segs : List Seg} (h : Represents heap segs) {q : Nat × Nat}
    (hq : q ∈ livePayloads segs) : size heap.mem (payloadToBlock q.1) = q.2 := by
  obtain ⟨s, hs, hq'⟩ := List.mem_flatMap.mp hq
  obtain ⟨ss₁, ss₂, rfl⟩ := List.append_of_mem hs
  obtain ⟨cs₁, c, cs₂, hcs, -, rfl⟩ := mem_payloads hq'
  have hlayout := h.chain.layout
  rw [hcs] at hlayout
  exact (layout_append.mp hlayout).2.1

theorem payload_ne {segs : List Seg} {q : Nat × Nat} (hq : q ∈ livePayloads segs) : q.1 ≠ 0 := by
  obtain ⟨s, -, hq'⟩ := List.mem_flatMap.mp hq
  have := Seg.payload_bounds hq'
  omega

/-- A payload starts at a multiple of the alignment. -/
theorem payload_aligned {segs : List Seg} {q : Nat × Nat} (hq : q ∈ livePayloads segs) :
    q.1 % 8 = 0 := by
  have hspan : ∀ cs : List Chunk, Rounded cs → span cs % 8 = 0 := by
    intro cs h
    induction cs with
    | nil => rfl
    | cons c cs ih =>
      obtain ⟨h₁, h₂⟩ := rounded_cons.mp h
      have := ih h₂
      rw [span]
      omega
  obtain ⟨s, -, hq'⟩ := List.mem_flatMap.mp hq
  obtain ⟨cs₁, c, cs₂, hcs, -, rfl⟩ := mem_payloads hq'
  have hr := s.rounded
  rw [hcs, rounded_append] at hr
  have := hspan cs₁ hr.1
  have := s.page_aligned
  dsimp only
  omega

theorem payloads_nodup (a : Nat) (cs : List Chunk) : ((payloads a cs).map (·.1)).Nodup := by
  induction cs generalizing a with
  | nil => exact .nil
  | cons c cs ih =>
    rw [payloads]
    split
    · refine List.nodup_cons.mpr ⟨fun h => ?_, ih _⟩
      obtain ⟨q, hq, he⟩ := List.mem_map.mp h
      have := payloads_bounds hq
      dsimp only at he
      omega
    · exact ih _

/-- No two used blocks have the same payload. -/
theorem livePayloads_nodup {segs : List Seg} (h : DistinctPages segs) :
    ((livePayloads segs).map (·.1)).Nodup := by
  induction segs with
  | nil => exact .nil
  | cons s ss ih =>
    obtain ⟨h₁, h₂⟩ := List.nodup_cons.mp h
    rw [livePayloads, List.flatMap_cons, List.map_append, ← livePayloads]
    refine List.nodup_append.mpr ⟨payloads_nodup _ _, ih h₂, ?_⟩
    rintro x hx y hy rfl
    obtain ⟨q, hq, hqx⟩ := List.mem_map.mp hx
    obtain ⟨r, hr, hrx⟩ := List.mem_map.mp hy
    obtain ⟨t, ht, hr⟩ := List.mem_flatMap.mp hr
    have hne : s.page ≠ t.page := fun he => h₁ (List.mem_map.mpr ⟨t, ht, he.symm⟩)
    have := Seg.payload_bounds hq
    have := Seg.payload_bounds hr
    have := s.page_aligned
    have := t.page_aligned
    omega

/-! ## The calls -/

theorem kmalloc_found {rounds page size block : Nat} {heap : Heap} (hs : size ≠ 0)
    (hf : findFreeBlock rounds heap (alignUp size) = some block) (hb : block ≠ 0) :
    kmalloc rounds page heap size = some (takeBlock heap block (alignUp size)) := by
  obtain ⟨k, rfl⟩ := Nat.exists_eq_succ_of_ne_zero hb
  unfold kmalloc
  rw [if_neg hs]
  dsimp only
  rw [hf]
  rfl

theorem growHeap_fst {page : Nat} (hp : page ≠ 0) (heap : Heap) : (growHeap page heap).1 = true := by
  unfold growHeap
  rw [if_neg hp]

/-- Where no block is large enough: nothing without a page, else the same on the heap with it. -/
theorem kmalloc_grown {rounds page size : Nat} {heap : Heap} (hs : size ≠ 0)
    (hf : findFreeBlock rounds heap (alignUp size) = some 0) :
    kmalloc rounds page heap size =
      if page = 0 then some (0, heap)
      else
        match findFreeBlock rounds (growHeap page heap).2 (alignUp size) with
        | none => none
        | some 0 => some (0, (growHeap page heap).2)
        | some block => some (takeBlock (growHeap page heap).2 block (alignUp size)) := by
  unfold kmalloc
  rw [if_neg hs]
  dsimp only
  rw [hf]
  by_cases hp : page = 0
  · rw [if_pos hp, show growHeap page heap = (false, heap) from if_pos hp]
    rfl
  · obtain ⟨heap', hg⟩ : ∃ heap', growHeap page heap = (true, heap') :=
      ⟨_, Prod.ext (growHeap_fst hp heap) rfl⟩
    rw [if_neg hp, hg]
    rfl

theorem alignUp_mod (size : Nat) : alignUp size % 8 = 0 := Nat.mul_mod_left _ _

/-- What the search finds in a represented heap. -/
theorem Represents.find {heap : Heap} {segs : List Seg} (h : Represents heap segs) (n : Nat) :
    (findFreeBlock ROUNDS heap n = some 0 ∧
        ∀ s ∈ segs, ∀ c ∈ s.chunks, c.used = false → c.size < n) ∨
      ∃ ss₁ s ss₂ cs₁ c cs₂, segs = ss₁ ++ s :: ss₂ ∧ s.chunks = cs₁ ++ c :: cs₂ ∧
        c.used = false ∧ n ≤ c.size ∧
        findFreeBlock ROUNDS heap n = some (s.page + 8 + span cs₁) := by
  have := length_segs_lt h.pages
  exact findInSegments_spec h.chain (by unfold ROUNDS; decide) (by unfold ROUNDS; omega)

/-- A block taken from a represented heap, for a pointer that is not null. -/
theorem Represents.found {heap : Heap} {ss₁ ss₂ : List Seg} {s : Seg} {cs₁ cs₂ : List Chunk}
    {c : Chunk} (size : Nat) (h : Represents heap (ss₁ ++ s :: ss₂))
    (hs : s.chunks = cs₁ ++ c :: cs₂) (hc : c.used = false) (hn : alignUp size ≤ c.size) :
    ∃ p heap' segs' k, takeBlock heap (s.page + 8 + span cs₁) (alignUp size) = (p, heap') ∧ p ≠ 0 ∧
      alignUp size ≤ k ∧ Represents heap' segs' ∧ segs'.map (·.page) = (ss₁ ++ s :: ss₂).map (·.page) ∧
      (livePayloads segs').Perm ((p, k) :: livePayloads (ss₁ ++ s :: ss₂)) ∧
      SamePayloads heap.mem heap'.mem (livePayloads (ss₁ ++ s :: ss₂)) := by
  obtain ⟨s', hp, hr, hperm, hsame⟩ := h.take hs hc hn (alignUp_mod size)
  refine ⟨s.page + 8 + span cs₁ + 16, _, ss₁ ++ s' :: ss₂, _, rfl, by omega, ?_, hr, ?_, hperm,
    hsame⟩
  · unfold takenSize
    split <;> omega
  · simp [hp]

namespace World

theorem Holds.nodup {w : World} {segs : List Seg} (h : w.Holds segs) : w.live.Nodup :=
  h.live.nodup_iff.mpr (livePayloads_nodup h.represents.pages)

/-- What `kmalloc` does to a represented heap: it returns null and the used blocks stay, or one
more block is used. Null with another heap means a page for a block that does not fit in one. -/
theorem kmalloc_spec {w : World} {segs : List Seg} (h : w.Holds segs) {size page : Nat}
    (ha : w.Allowed (.kmalloc size page)) :
    ∃ p heap' segs', kmalloc ROUNDS page w.heap size = some (p, heap') ∧
      Represents heap' segs' ∧ SamePayloads w.heap.mem heap'.mem (livePayloads segs) ∧
      segs'.map (·.page) = (if w.asksForPage size ∧ page ≠ 0 then page :: w.pages else w.pages) ∧
      ((p = 0 ∧ livePayloads segs' = livePayloads segs ∧
          ((heap' = w.heap ∧ (size ≠ 0 → w.asksForPage size ∧ page = 0)) ∨
            (w.asksForPage size ∧ page ≠ 0 ∧ 4072 < alignUp size))) ∨
        (p ≠ 0 ∧ ¬ (w.asksForPage size ∧ page = 0) ∧
          ∃ k, alignUp size ≤ k ∧ (livePayloads segs').Perm ((p, k) :: livePayloads segs))) := by
  have hr := h.represents
  have hrefl : SamePayloads w.heap.mem w.heap.mem (livePayloads segs) := fun _ _ _ _ _ => rfl
  unfold asksForPage
  by_cases hs : size = 0
  · refine ⟨0, w.heap, segs, ?_, hr, hrefl, ?_, .inl ⟨rfl, rfl, .inl ⟨rfl, fun h => absurd hs h⟩⟩⟩
    · unfold kmalloc
      rw [if_pos hs]
    · rw [if_neg (by simp [hs]), h.pages]
  rcases hr.find (alignUp size) with ⟨hf, -⟩ | ⟨ss₁, s, ss₂, cs₁, c, cs₂, rfl, hcs, hc, hn, hf⟩
  · rw [kmalloc_grown hs hf, hf]
    by_cases hp : page = 0
    · rw [if_pos hp, if_neg (by simp [hp])]
      exact ⟨0, w.heap, segs, rfl, hr, hrefl, h.pages,
        .inl ⟨rfl, rfl, .inl ⟨rfl, fun _ => ⟨by simp [hs], hp⟩⟩⟩⟩
    rw [if_neg hp, if_pos (by simp [hs, hp])]
    obtain ⟨h₁, h₂, h₃⟩ := ha.2.resolve_left hp
    rw [← h.pages] at h₃
    obtain ⟨hg, hout⟩ := hr.grow hp h₁ h₂ h₃
    have hsame : SamePayloads w.heap.mem (growHeap page w.heap).2.mem (livePayloads segs) := by
      intro q hq x hx hx'
      obtain ⟨t, ht, hq⟩ := List.mem_flatMap.mp hq
      have := Seg.payload_bounds hq
      have hne : t.page ≠ page := fun he => h₃ (List.mem_map.mpr ⟨t, ht, he⟩)
      exact hout x (Seg.apart (t := Seg.fresh page hp h₁ h₂) hne (by omega) (by omega))
    rcases hg.find (alignUp size) with ⟨hf', hsmall⟩ | ⟨ss₁, s, ss₂, cs₁, c, cs₂, hss, hcs, hc, hn, hf'⟩
    · rw [hf']
      have hlarge : 4072 < alignUp size :=
        hsmall _ List.mem_cons_self _ List.mem_cons_self rfl
      exact ⟨0, _, _, rfl, hg, hsame, by rw [List.map_cons, h.pages]; rfl,
        .inl ⟨rfl, rfl, .inr ⟨by simp [hs], hp, hlarge⟩⟩⟩
    · have hg' := hg
      rw [hss] at hg'
      obtain ⟨p, heap', segs', k, ht, hp', hk, hr', hpages, hperm, hsame'⟩ :=
        hg'.found size hcs hc hn
      rw [← hss] at hpages hperm hsame'
      have hne : s.page + 8 + span cs₁ ≠ 0 := by omega
      obtain ⟨b, hb⟩ := Nat.exists_eq_succ_of_ne_zero hne
      rw [hf', hb]
      rw [hb] at ht
      refine ⟨p, heap', segs', congrArg some ht, hr', hsame.trans hsame', ?_,
        .inr ⟨hp', fun he => hp he.2, k, hk, hperm⟩⟩
      rw [hpages, List.map_cons, h.pages]
      rfl
  · have hne : s.page + 8 + span cs₁ ≠ 0 := by omega
    obtain ⟨p, heap', segs', k, ht, hp', hk, hr', hpages, hperm, hsame⟩ :=
      hr.found size hcs hc hn
    rw [kmalloc_found hs hf hne, hf, if_neg (by simp)]
    refine ⟨p, heap', segs', congrArg some ht, hr', hsame, by rw [hpages, h.pages],
      .inr ⟨hp', by simp, k, hk, hperm⟩⟩

/-- Live payloads that are payloads of both heaps are kept. -/
theorem Holds.keepsLive {w w' : World} {segs segs' : List Seg} (h : w.Holds segs)
    (h' : w'.Holds segs')
    (hsub : ∀ q ∈ livePayloads segs, q.1 ∈ w'.live → q ∈ livePayloads segs')
    (hsame : ∀ q ∈ livePayloads segs, q ∈ livePayloads segs' → ∀ x, q.1 ≤ x → x < q.1 + q.2 →
      w.heap.mem x = w'.heap.mem x) : w.KeepsLive w' := by
  intro p hp hp'
  obtain ⟨q, hq, rfl⟩ := List.mem_map.mp (h.live.mem_iff.mp hp)
  have hq' := hsub q hq hp'
  have hsize : w.sizeOf q.1 = q.2 := size_eq h.represents hq
  rw [hsize]
  exact ⟨size_eq h'.represents hq', fun x hx hx' => (hsame q hq hq' x hx hx').symm⟩

/-- Every call returns, keeps the invariant, and leaves the live payloads alone. -/
theorem Holds.call {w : World} {segs : List Seg} (h : w.Holds segs) {c : Call}
    (ha : w.Allowed c) :
    ∃ w', w.call c = some w' ∧ (∃ segs', w'.Holds segs') ∧ w.KeepsLive w' := by
  cases c with
  | kmalloc size page =>
    obtain ⟨p, heap', segs', hk, hr, hsame, hpages, hlive⟩ := kmalloc_spec h ha
    have hcall : w.call (.kmalloc size page) = some
        { heap := heap'
          live := if p = 0 then w.live else p :: w.live
          pages := if w.asksForPage size ∧ page ≠ 0 then page :: w.pages else w.pages } := by
      rw [World.call, hk]
    refine ⟨_, hcall, ?_⟩
    rcases hlive with ⟨hp, he, -⟩ | ⟨hp, -, k, -, hperm⟩
    · rw [if_pos hp]
      have h' : World.Holds ⟨heap', w.live, _⟩ segs' := ⟨hr, hpages, by rw [he]; exact h.live⟩
      exact ⟨⟨segs', h'⟩, h.keepsLive h' (fun q hq _ => by rw [he]; exact hq)
        fun q hq _ => hsame q hq⟩
    · rw [if_neg hp]
      have hmap : ((livePayloads segs').map fun q => q.1).Perm
          (p :: (livePayloads segs).map fun q => q.1) := hperm.map _
      have h' : World.Holds ⟨heap', p :: w.live, _⟩ segs' :=
        ⟨hr, hpages, (h.live.cons p).trans hmap.symm⟩
      exact ⟨⟨segs', h'⟩, h.keepsLive h'
        (fun q hq _ => hperm.mem_iff.mpr (List.mem_cons_of_mem _ hq)) fun q hq _ => hsame q hq⟩
  | kfree p =>
    refine ⟨_, rfl, ?_⟩
    by_cases hp : p = 0
    · have h0 : (0 : Nat) ∉ w.live := by
        intro h0
        obtain ⟨q, hq, he⟩ := List.mem_map.mp (h.live.mem_iff.mp h0)
        exact payload_ne hq he
      have hw : ({ w with heap := Os.kfree w.heap p, live := w.live.erase p } : World) = w := by
        rw [hp, List.erase_of_not_mem h0]
        rfl
      rw [hw]
      exact ⟨⟨segs, h⟩, h.keepsLive h (fun q hq _ => hq) fun _ _ _ _ _ _ => rfl⟩
    · have hlive := ha.resolve_left hp
      obtain ⟨q, hq, rfl⟩ := List.mem_map.mp (h.live.mem_iff.mp hlive)
      obtain ⟨segs', hpages, hr, hperm, hsame⟩ := h.represents.free hq
      have h' : World.Holds ⟨Os.kfree w.heap q.1, w.live.erase q.1, w.pages⟩ segs' := by
        refine ⟨hr, hpages.trans h.pages, ?_⟩
        have hlive' : w.live.Perm (q.1 :: (livePayloads segs').map (·.1)) :=
          h.live.trans (hperm.map _)
        have := hlive'.erase q.1
        rwa [List.erase_cons_head] at this
      refine ⟨⟨segs', h'⟩, h.keepsLive h' (fun r hr' hrlive => ?_) fun r _ hr' => hsame r hr'⟩
      rcases List.mem_cons.mp (hperm.mem_iff.mp hr') with rfl | hr'
      · exact absurd hrlive (h.nodup.not_mem_erase)
      · exact hr'

theorem layout_write {m : WordMemory} {p a nxt x : Nat} {cs : List Chunk} {q : Nat × Nat}
    (hl : Layout m p a cs nxt) (hq : q ∈ payloads a cs) (hx : q.1 ≤ x) (hx' : x < q.1 + q.2)
    (b : UInt8) : Layout (m.store8 x b) p a cs nxt := by
  induction cs generalizing p a with
  | nil => trivial
  | cons c cs ih =>
    obtain ⟨h₁, h₂, h₃, h₄, h₅⟩ := hl
    have hle := (payloads_bounds hq).1
    obtain ⟨e₁, e₂, e₃, e₄⟩ := header_congr (x := a) (m := m.store8 x b) (b := m)
      fun z _ hz' => WordMemory.store8_of_ne (by omega)
    refine ⟨e₁.trans h₁, e₂.trans h₂, e₃.trans h₃, e₄.trans h₄, ?_⟩
    have hrest : q ∈ payloads (a + 16 + c.size) cs → Layout (m.store8 x b) a (a + 16 + c.size) cs nxt :=
      fun h => ih h₅ h
    rw [payloads] at hq
    split at hq
    · rcases List.mem_cons.mp hq with rfl | hq
      · exact h₅.congr fun z hz _ => (WordMemory.store8_of_ne (by dsimp only at hx'; omega)).symm
      · exact hrest hq
    · exact hrest hq

/-- A write of a client keeps the invariant. -/
theorem Holds.write {w : World} {segs : List Seg} (h : w.Holds segs) {address : Nat}
    (ha : w.Writable address) (byte : UInt8) : (w.write address byte).Holds segs := by
  refine ⟨⟨?_, h.represents.pages, h.represents.bytes⟩, h.pages, h.live⟩
  show Segments (w.heap.mem.store8 address byte) w.heap.segments segs
  have hr := h.represents
  rcases ha with ⟨p, hp, hx, hx'⟩ | hout
  · obtain ⟨q, hq, rfl⟩ := List.mem_map.mp (h.live.mem_iff.mp hp)
    rw [show w.sizeOf q.1 = q.2 from size_eq hr hq] at hx'
    obtain ⟨s, hs, hq'⟩ := List.mem_flatMap.mp hq
    obtain ⟨ss₁, ss₂, rfl⟩ := List.append_of_mem hs
    have hb := payloads_bounds hq'
    have hk : Keeps w.heap.mem (w.heap.mem.store8 address byte) (s.page + 8) s.chunks s.chunks [] := by
      refine ⟨layout_write hr.chain.layout hq' hx hx' byte, fun x hx => ?_, fun x hx => ?_, rfl, nofun⟩
      · exact (WordMemory.store8_of_ne (by omega)).symm
      · exact (WordMemory.store8_of_ne (by omega)).symm
    exact hr.chain.change hr.pages rfl hk
  · refine hr.chain.congr fun s hs x hx hx' => (WordMemory.store8_of_ne ?_).symm
    have := hout s.page (h.pages ▸ List.mem_map_of_mem hs)
    omega

theorem holds_of_reachable {w : World} (h : w.Reachable) : ∃ segs, w.Holds segs := by
  induction h with
  | init mem => exact ⟨[], ⟨rfl, .nil, rfl⟩, rfl, .nil⟩
  | call hw ha hc ih =>
    obtain ⟨segs, h⟩ := ih
    obtain ⟨w', hw', h', -⟩ := h.call ha
    rw [hc] at hw'
    cases hw'
    exact h'
  | write byte hw ha ih =>
    obtain ⟨segs, h⟩ := ih
    exact ⟨segs, h.write ha byte⟩

/-- Every reachable heap is represented: its segments are tiled by linked blocks with no two free
neighbours, the used blocks are exactly the live pointers', and `heap_bytes_allocated` is the sum of
their sizes. Every further call returns, and changes no payload that stays live. -/
theorem heap_invariant {w : World} (h : w.Reachable) :
    (∃ segs, w.Holds segs ∧ w.live.Nodup ∧ (∀ p ∈ w.live, p % 8 = 0) ∧
      heap_bytes_allocated w.heap = (w.live.map w.sizeOf).sum) ∧
    ∀ c, w.Allowed c → ∃ w', w.call c = some w' ∧ w.KeepsLive w' := by
  obtain ⟨segs, hs⟩ := holds_of_reachable h
  refine ⟨⟨segs, hs, hs.nodup, fun p hp => ?_, ?_⟩, fun c ha => ?_⟩
  · obtain ⟨q, hq, rfl⟩ := List.mem_map.mp (hs.live.mem_iff.mp hp)
    exact payload_aligned hq
  · rw [(hs.live.map _).sum_eq, List.map_map, heap_bytes_allocated, hs.represents.bytes, total]
    refine congrArg List.sum (List.map_congr_left fun q hq => ?_)
    exact (size_eq hs.represents hq).symm
  · obtain ⟨w', hc, -, hk⟩ := hs.call ha
    exact ⟨w', hc, hk⟩

theorem heap_invariant_kmalloc :
    ∃ w : World, (⟨heap_init fun _ => 0, [], []⟩ : World).call (.kmalloc 24 0x100000) = some w ∧
      ∃ segs, w.Holds segs := by
  have ha : (⟨heap_init fun _ => 0, [], []⟩ : World).Allowed (.kmalloc 24 0x100000) :=
    ⟨by decide, .inr ⟨by decide, by decide, by decide⟩⟩
  obtain ⟨w, hw, -⟩ := (heap_invariant (.init fun _ => 0)).2 _ ha
  obtain ⟨⟨segs, hs, -⟩, -⟩ := heap_invariant (.call (.init fun _ => 0) ha hw)
  exact ⟨w, hw, segs, hs⟩

example : ((⟨heap_init fun _ => 0, [], []⟩ : World).call (.kmalloc 20 0x100000)).map
    (fun w => (w.live, heap_bytes_allocated w.heap)) = some ([0x100018], 24) := by decide

end World

end Os
end Techuila
