import Techuila.Os.HeapRuns

/-!
# What a request to the kernel heap gives (`22-os/heap/heap.cpp`)

* `World.GivesOrKeeps`: a call of `kmalloc` gives a block of the size in a page, or null and changes
  nothing.
* `World.kmalloc_gives_or_keeps`: it does so up to what a page can hold, and over that only where
  there is neither a page nor, if rounding wraps around, a free block.
-/

namespace Techuila
namespace Os

/-- Rounding does not wrap around. -/
theorem alignUp_spec {size : Nat} (h : size ≤ 2 ^ 32 - 8) :
    size ≤ alignUp size ∧ (size ≤ 4072 → alignUp size ≤ 4072) := by
  rw [alignUp, add32, ALIGNMENT, Nat.mod_eq_of_lt (by omega)]
  omega

theorem alignUp_wrapped {size : Nat} (h : 2 ^ 32 - 8 < size) (hlt : size < 2 ^ 32) :
    alignUp size = 0 := by
  rw [alignUp, add32, ALIGNMENT]
  omega

namespace World

/-- No block of the heap is free. -/
def Full (w : World) : Prop :=
  ∀ segs, w.Holds segs → ∀ s ∈ segs, ∀ c ∈ s.chunks, c.used = true

/-- Null is given where no page could be had, of the sizes that a page can hold. -/
structure GivesOrKeeps (w : World) (size page pointer : Nat) (w' : World) : Prop where
  gives : pointer ≠ 0 → size ≤ w'.sizeOf pointer ∧
    ∃ p ∈ w'.pages, p ≤ pointer ∧ pointer + w'.sizeOf pointer ≤ p + 4096
  keeps : pointer = 0 → w' = w
  null : pointer = 0 → 1 ≤ size → size ≤ 4072 → w.asksForPage size = true ∧ page = 0

theorem Holds.asksForPage_iff {w : World} {segs : List Seg} (h : w.Holds segs) {size : Nat} :
    w.asksForPage size = true ↔
      size ≠ 0 ∧ ∀ s ∈ segs, ∀ c ∈ s.chunks, c.used = false → c.size < alignUp size := by
  rw [asksForPage, Bool.and_eq_true, decide_eq_true_iff, beq_iff_eq]
  refine and_congr_right fun _ => ?_
  rcases h.represents.find (alignUp size) with
    ⟨hf, hsmall⟩ | ⟨ss₁, s, ss₂, cs₁, c, cs₂, rfl, hcs, hc, hn, hf⟩
  · exact iff_of_true hf hsmall
  · refine iff_of_false ?_ fun hsmall => ?_
    · rw [hf]
      simp
    · have := hsmall s (by simp) c (by simp [hcs]) hc
      omega

theorem Holds.asksForPage_of_full {w : World} {segs : List Seg} (h : w.Holds segs)
    (hfull : w.Full) {size : Nat} (hs : size ≠ 0) : w.asksForPage size = true := by
  refine h.asksForPage_iff.mpr ⟨hs, fun s hs c hc hfree => ?_⟩
  cases hfree.symm.trans (hfull segs h s hs c hc)

/-- A page is asked for a block of no bytes only where no block is free. -/
theorem full_of_asksForPage {w : World} {size : Nat} (hwrapped : alignUp size = 0)
    (h : w.asksForPage size = true) : w.Full := by
  intro segs hsegs s hs c hc
  by_contra hfree
  have := (hsegs.asksForPage_iff.mp h).2 s hs c hc (Bool.eq_false_iff.mpr hfree)
  omega

/-- Whether a call gives or keeps, after any run. -/
theorem gives_or_keeps_iff {w : World} {segs : List Seg} (h : w.Holds segs) {size page : Nat}
    (ha : w.Allowed (.kmalloc size page)) :
    ∃ pointer w', (Os.kmalloc ROUNDS page w.heap size = some (pointer, w'.heap) ∧
      w.call (.kmalloc size page) = some w') ∧
      (w.GivesOrKeeps size page pointer w' ↔
        size ≤ 4072 ∨ (page = 0 ∧ (size ≤ 2 ^ 32 - 8 ∨ w.Full))) := by
  obtain ⟨p, heap', segs', hk, hr, -, hpages, hcase⟩ := kmalloc_spec h ha
  refine ⟨p, _, ⟨hk, by rw [World.call, hk]⟩, ?_⟩
  have hrounded : size ≤ 2 ^ 32 - 8 ∨ alignUp size = 0 ∧ 2 ^ 32 - 8 < size := by
    rcases Nat.lt_or_ge (2 ^ 32 - 8) size with hover | hle
    · exact .inr ⟨alignUp_wrapped hover ha.1, hover⟩
    · exact .inl hle
  rcases hcase with ⟨rfl, -, ⟨rfl, hreason⟩ | ⟨hasks, hpage, hlarge⟩⟩ | ⟨hp, hnot, k, hle, hperm⟩
  · -- null, and nothing has changed
    refine iff_of_true ⟨fun hne => absurd rfl hne, fun _ => ?_, fun _ hmin _ =>
      hreason (by omega)⟩ ?_
    · have hno : ¬ (w.asksForPage size = true ∧ page ≠ 0) := by
        rintro ⟨hasks, hpage⟩
        exact hpage (hreason (h.asksForPage_iff.mp hasks).1).2
      rw [if_pos rfl, if_neg hno]
    · by_cases hs : size = 0
      · exact .inl (by omega)
      · obtain ⟨hasks, hpage⟩ := hreason hs
        exact .inr ⟨hpage, hrounded.imp_right fun hw => full_of_asksForPage hw.1 hasks⟩
  · -- null, with a page more
    refine iff_of_false (fun hkeeps => ?_) ?_
    · have hsame : (if w.asksForPage size ∧ page ≠ 0 then page :: w.pages else w.pages) = w.pages :=
        congrArg World.pages (hkeeps.keeps rfl)
      rw [if_pos ⟨hasks, hpage⟩] at hsame
      exact List.cons_ne_self _ _ hsame
    · rintro (hsmall | ⟨hpage', -⟩)
      · have := (alignUp_spec (by omega)).2 hsmall
        omega
      · exact hpage hpage'
  · -- a block
    have hm : (p, k) ∈ livePayloads segs' := hperm.mem_iff.mpr List.mem_cons_self
    have hsize := size_eq hr hm
    obtain ⟨s, hs, hq⟩ := List.mem_flatMap.mp hm
    have hbounds := Seg.payload_bounds hq
    dsimp only at hsize hbounds
    have hsizeOf : World.sizeOf ⟨heap', p :: w.live,
        if w.asksForPage size ∧ page ≠ 0 then page :: w.pages else w.pages⟩ p = k := hsize
    rw [if_neg hp]
    rcases hrounded with hrounded | ⟨hwrapped, hover⟩
    · have hgiven := (alignUp_spec hrounded).1.trans hle
      refine iff_of_true ⟨fun _ => ?_, fun h0 => absurd h0 hp, fun h0 => absurd h0 hp⟩
        (.inl (by omega))
      rw [hsizeOf]
      exact ⟨hgiven, s.page, hpages ▸ List.mem_map_of_mem hs, by omega, by omega⟩
    · refine iff_of_false (fun hgives => ?_) ?_
      · have := (hgives.gives hp).1
        rw [hsizeOf] at this
        omega
      · rintro (hsmall | ⟨hpage, hle' | hfull⟩)
        · omega
        · omega
        · exact hnot ⟨h.asksForPage_of_full hfull (by omega), hpage⟩

/-- A call of `kmalloc`, after any run, gives what was asked or changes nothing just up to the size
that a page can hold, and over it where no page is left and rounding does not make it fit a free
block. -/
theorem kmalloc_gives_or_keeps {w : World} (h : w.Reachable) {size page : Nat}
    (ha : w.Allowed (.kmalloc size page)) :
    ∃ pointer w', (Os.kmalloc ROUNDS page w.heap size = some (pointer, w'.heap) ∧
      w.call (.kmalloc size page) = some w') ∧
      (w.GivesOrKeeps size page pointer w' ↔
        size ≤ 4072 ∨ (page = 0 ∧ (size ≤ 2 ^ 32 - 8 ∨ w.Full))) := by
  obtain ⟨segs, hs⟩ := holds_of_reachable h
  exact gives_or_keeps_iff hs ha

def booted : World := ⟨heap_init fun _ => 0, [], []⟩

theorem booted_allowed {size : Nat} (h : size < 2 ^ 32) :
    booted.Allowed (.kmalloc size 0x100000) :=
  ⟨h, .inr ⟨by decide, by decide, by decide⟩⟩

/-- One byte over what a page can hold, and the last size of all. -/
theorem kmalloc_neither :
    (∃ pointer w', Os.kmalloc ROUNDS 0x100000 booted.heap 4073 = some (pointer, w'.heap) ∧
      booted.call (.kmalloc 4073 0x100000) = some w' ∧
      ¬ booted.GivesOrKeeps 4073 0x100000 pointer w') ∧
    ∃ pointer w', Os.kmalloc ROUNDS 0x100000 booted.heap 0xFFFFFFFF = some (pointer, w'.heap) ∧
      booted.call (.kmalloc 0xFFFFFFFF 0x100000) = some w' ∧
      ¬ booted.GivesOrKeeps 0xFFFFFFFF 0x100000 pointer w' := by
  obtain ⟨segs, hs⟩ := holds_of_reachable (.init fun _ => 0)
  obtain ⟨p, w, ⟨hk, hcall⟩, hiff⟩ := gives_or_keeps_iff hs (@booted_allowed 4073 (by decide))
  obtain ⟨q, v, ⟨hk', hcall'⟩, hiff'⟩ :=
    gives_or_keeps_iff hs (@booted_allowed 0xFFFFFFFF (by decide))
  refine ⟨⟨p, w, hk, hcall, fun hgives => ?_⟩, q, v, hk', hcall', fun hgives => ?_⟩
  · rcases hiff.mp hgives with h | ⟨h, -⟩ <;> omega
  · rcases hiff'.mp hgives with h | ⟨h, -⟩ <;> omega

example : (booted.call (.kmalloc 4073 0x100000)).map (fun w => (w.live, w.pages)) =
    some ([], [0x100000]) := by decide

example : (booted.call (.kmalloc 0xFFFFFFFF 0x100000)).map
    (fun w => (w.live, w.live.map w.sizeOf)) = some ([0x100018], [0]) := by decide

theorem kmalloc_gives_or_keeps_booted :
    ∃ pointer w', (Os.kmalloc ROUNDS 0x100000 booted.heap 20 = some (pointer, w'.heap) ∧
      booted.call (.kmalloc 20 0x100000) = some w') ∧
      (booted.GivesOrKeeps 20 0x100000 pointer w' ↔
        20 ≤ 4072 ∨ (0x100000 = 0 ∧ (20 ≤ 2 ^ 32 - 8 ∨ booted.Full))) :=
  kmalloc_gives_or_keeps (.init fun _ => 0) (booted_allowed (by decide))

end World

end Os
end Techuila
