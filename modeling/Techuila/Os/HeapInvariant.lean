import Mathlib.Algebra.BigOperators.Group.List.Basic
import Mathlib.Data.List.Nodup
import Techuila.Os.HeapLayout

/-!
# The invariant of the kernel heap

* `Keeps`: a change to the blocks of one segment. `takeBlock_keeps`, `freeBlock_keeps`: what `kmalloc`
  and `kfree` do to the list of blocks.
* `Seg`: a page that its blocks tile, with no two free neighbours. `Represents`: the heap is a list of
  such segments.
* `World`: a heap and the live pointers; `heap_invariant`: every reachable one is represented, with
  exactly the live pointers' blocks in use, and no call changes a live payload.
-/

namespace Techuila
namespace Os

open BlockHeader (size used next prev)

/-! ## Changes to the blocks of one segment -/

/-- No two neighbours are free. -/
def Coalesced (cs : List Chunk) : Prop := cs.IsChain fun c d => c.used = true ∨ d.used = true

/-- The blocks from `a` on change from `cs` to `cs'`, and nothing else does; `qs` are payloads that
stay as they are. -/
structure Keeps (m m' : WordMemory) (a : Nat) (cs cs' : List Chunk) (qs : List (Nat × Nat)) :
    Prop where
  layout : Layout m' 0 a cs' 0
  before : ∀ x < a, m x = m' x
  after : ∀ x, a + span cs ≤ x → m x = m' x
  span_eq : span cs' = span cs
  same : SamePayloads m m' qs

theorem Keeps.trans {m₁ m₂ m₃ : WordMemory} {a : Nat} {cs₁ cs₂ cs₃ : List Chunk}
    {qs : List (Nat × Nat)} (h : Keeps m₁ m₂ a cs₁ cs₂ qs) (h' : Keeps m₂ m₃ a cs₂ cs₃ qs) :
    Keeps m₁ m₃ a cs₁ cs₃ qs where
  layout := h'.layout
  before x hx := (h.before x hx).trans (h'.before x hx)
  after x hx := (h.after x hx).trans (h'.after x (by rw [h.span_eq]; exact hx))
  span_eq := h'.span_eq.trans h.span_eq
  same := h.same.trans h'.same

theorem Keeps.refl {m : WordMemory} {a : Nat} {cs : List Chunk} (h : Layout m 0 a cs 0)
    (qs : List (Nat × Nat)) : Keeps m m a cs cs qs :=
  ⟨h, fun _ _ => rfl, fun _ _ => rfl, rfl, fun _ _ _ _ _ => rfl⟩

theorem SamePayloads.append {m m' : WordMemory} {qs qs' : List (Nat × Nat)}
    (h : SamePayloads m m' qs) (h' : SamePayloads m m' qs') : SamePayloads m m' (qs ++ qs') :=
  fun q hq => (List.mem_append.mp hq).elim (h q) (h' q)

/-- A change from the block at the end of `cs₁` on. -/
theorem Frame.keeps {m m' : WordMemory} {a : Nat} {c d e : Chunk} {cs₁ cs ds es : List Chunk}
    (hl : Layout m 0 a (cs₁ ++ c :: cs) 0) (hf : Frame m m' (a + span cs₁) e es)
    (hl' : Layout m' (lastBlock 0 a cs₁) (a + span cs₁) (d :: ds) 0)
    (he : span (e :: es) = span (c :: cs)) (hd : span (d :: ds) = span (c :: cs)) :
    Keeps m m' a (cs₁ ++ c :: cs) (cs₁ ++ d :: ds)
      (payloads a cs₁ ++ payloads (a + span cs₁ + 16 + e.size) es) where
  layout := hl.replace hf hl'
  before x hx := hf.before x (by omega)
  after x hx := hf.after x (by rw [span_append] at hx; omega)
  span_eq := by rw [span_append, span_append, hd]
  same := (SamePayloads.of_range fun x _ hx => hf.before x hx).append hf.rest

/-! ## Taking a block -/

/-- The sizes are multiples of the alignment. -/
def Rounded (cs : List Chunk) : Prop := ∀ c ∈ cs, c.size % 8 = 0

theorem rounded_append {cs cs' : List Chunk} : Rounded (cs ++ cs') ↔ Rounded cs ∧ Rounded cs' :=
  List.forall_mem_append

theorem rounded_cons {c : Chunk} {cs : List Chunk} :
    Rounded (c :: cs) ↔ c.size % 8 = 0 ∧ Rounded cs := List.forall_mem_cons

/-- The lists that a used block makes of the blocks around it. -/
theorem coalesced_used {cs₁ cs : List Chunk} {c : Chunk} (hc : c.used = true) :
    Coalesced (cs₁ ++ c :: cs) ↔ Coalesced cs₁ ∧ Coalesced cs := by
  rw [Coalesced, List.isChain_append]
  refine ⟨fun h => ⟨h.1, (List.isChain_cons.mp h.2.1).2⟩, fun h => ⟨h.1, ?_, ?_⟩⟩
  · exact List.isChain_cons.mpr ⟨fun _ _ => .inl hc, h.2⟩
  · intro x _ y hy
    obtain rfl : c = y := by simpa using hy
    exact .inr hc

/-- The lists that a free block is between. -/
theorem coalesced_free {l cs : List Chunk} {c : Chunk} (hc : c.used = false) :
    Coalesced (l ++ c :: cs) ↔ Coalesced l ∧ Coalesced cs ∧
      (∀ d ∈ l.getLast?, d.used = true) ∧ ∀ d ∈ cs.head?, d.used = true := by
  have hne : ¬ c.used = true := by
    rw [hc]
    decide
  rw [Coalesced, List.isChain_append, List.isChain_cons]
  constructor
  · rintro ⟨h₁, ⟨h₂, h₃⟩, h₄⟩
    exact ⟨h₁, h₃, fun d hd => (h₄ d hd c rfl).resolve_right hne,
      fun d hd => (h₂ d hd).resolve_left hne⟩
  · rintro ⟨h₁, h₂, h₃, h₄⟩
    refine ⟨h₁, ⟨fun d hd => .inr (h₄ d hd), h₂⟩, fun d hd y hy => .inl (h₃ d hd)⟩

/-- The list after `kmalloc` took the free block `c`, with `n` bytes asked for. -/
def taken (cs₁ : List Chunk) (c : Chunk) (cs : List Chunk) (n : Nat) : List Chunk :=
  if n + 24 ≤ c.size then cs₁ ++ ⟨n, true⟩ :: ⟨c.size - n - 16, false⟩ :: cs
  else cs₁ ++ ⟨c.size, true⟩ :: cs

/-- The size of the block that `kmalloc` took. -/
def takenSize (c : Chunk) (n : Nat) : Nat := if n + 24 ≤ c.size then n else c.size

section
variable {m : WordMemory} {a n : Nat} {cs₁ cs : List Chunk} {c : Chunk}

theorem payloads_taken (hc : c.used = false) :
    (payloads a (taken cs₁ c cs n)).Perm
      ((a + span cs₁ + 16, takenSize c n) :: payloads a (cs₁ ++ c :: cs)) := by
  rw [payloads_free hc]
  unfold taken takenSize
  split
  · have hend : a + span cs₁ + 16 + n + 16 + (c.size - n - 16) = a + span cs₁ + 16 + c.size := by
      omega
    rw [payloads_used rfl, payloads, if_neg Bool.false_ne_true, hend]
    exact List.perm_middle
  · rw [payloads_used rfl]
    exact List.perm_middle

theorem rounded_taken (hr : Rounded (cs₁ ++ c :: cs)) (hn : n % 8 = 0) :
    Rounded (taken cs₁ c cs n) := by
  rw [rounded_append, rounded_cons] at hr
  unfold taken
  split
  · rw [rounded_append, rounded_cons, rounded_cons]
    exact ⟨hr.1, hn, by dsimp only; omega, hr.2.2⟩
  · rw [rounded_append, rounded_cons]
    exact ⟨hr.1, hr.2.1, hr.2.2⟩

theorem coalesced_taken (h : Coalesced (cs₁ ++ c :: cs)) (hc : c.used = false) :
    Coalesced (taken cs₁ c cs n) := by
  obtain ⟨h₁, h₂, h₃, h₄⟩ := (coalesced_free hc).mp h
  unfold taken
  split
  · rw [coalesced_used rfl]
    exact ⟨h₁, (coalesced_free (l := []) rfl).mpr ⟨.nil, h₂, nofun, h₄⟩⟩
  · rw [coalesced_used rfl]
    exact ⟨h₁, h₂⟩

theorem takeBlock_keeps (hl : Layout m 0 a (cs₁ ++ c :: cs) 0)
    (hlt : a + span (cs₁ ++ c :: cs) ≤ 2 ^ 32) (hc : c.used = false) (hn : n ≤ c.size) :
    Keeps m (BlockHeader.setUsed (splitIfWorthwhile m (a + span cs₁) n) (a + span cs₁) true) a
        (cs₁ ++ c :: cs) (taken cs₁ c cs n) (payloads a (cs₁ ++ c :: cs)) ∧
      size (BlockHeader.setUsed (splitIfWorthwhile m (a + span cs₁) n) (a + span cs₁) true)
        (a + span cs₁) = takenSize c n := by
  have hsuffix := (layout_append.mp hl).2
  rw [span_append] at hlt
  rw [payloads_free hc, size_setUsed]
  unfold taken takenSize
  by_cases h : n + 24 ≤ c.size
  · obtain ⟨hs, hf⟩ := hsuffix.split (by omega) h
    obtain ⟨hu, hf'⟩ := hs.setUsed true
    rw [if_pos h, if_pos h]
    have hspan : span (⟨n, c.used⟩ :: ⟨c.size - n - 16, false⟩ :: cs) = span (c :: cs) := by
      rw [span, span, span]
      dsimp only
      omega
    have hend : a + span cs₁ + 16 + n + 16 + (c.size - n - 16) = a + span cs₁ + 16 + c.size := by
      omega
    have k₁ := hf.keeps hl hs rfl hspan
    have k₂ := hf'.keeps k₁.layout hu rfl rfl
    rw [payloads, if_neg Bool.false_ne_true, hend] at k₂
    exact ⟨k₁.trans k₂, hs.1⟩
  · have hno : splitIfWorthwhile m (a + span cs₁) n = m := by
      unfold splitIfWorthwhile
      have hrem : sub32 (size m (a + span cs₁)) n = c.size - n := by
        rw [hsuffix.1, sub32]
        rw [span] at hlt
        omega
      rw [hrem]
      exact if_pos (by unfold BlockHeader.SIZE MIN_SPLIT_PAYLOAD; omega)
    rw [if_neg h, if_neg h, hno]
    obtain ⟨hu, hf⟩ := hsuffix.setUsed true
    exact ⟨hf.keeps hl hu rfl rfl, hsuffix.1⟩

end

/-! ## Freeing a block -/

section
variable {m : WordMemory} {a : Nat} {cs₁ cs : List Chunk} {c : Chunk}

/-- The merge with the next block, where that one is free. -/
theorem mergeNext_keeps (hl : Layout m 0 a (cs₁ ++ c :: cs) 0)
    (hlt : a + span (cs₁ ++ c :: cs) ≤ 2 ^ 32) (hc : c.used = false) (hcs : Coalesced cs)
    (hr : Rounded (c :: cs)) :
    ∃ d ds, Keeps m (if next m (a + span cs₁) ≠ 0 && !used m (next m (a + span cs₁)) then
          absorb m (a + span cs₁) (next m (a + span cs₁)) else m)
        a (cs₁ ++ c :: cs) (cs₁ ++ d :: ds) (payloads a (cs₁ ++ c :: cs)) ∧
      d.used = false ∧ payloads a (cs₁ ++ d :: ds) = payloads a (cs₁ ++ c :: cs) ∧
      Coalesced ds ∧ (∀ e ∈ ds.head?, e.used = true) ∧ Rounded (d :: ds) := by
  have hsuffix := (layout_append.mp hl).2
  have hnext := hsuffix.2.2.1
  rw [span_append] at hlt
  cases cs with
  | nil =>
    rw [hnext, follower, if_neg (by simp)]
    exact ⟨c, [], Keeps.refl hl _, hc, rfl, hcs,
      fun e he => absurd he (Option.not_mem_none e), hr⟩
  | cons d ds =>
    have hused : used m (a + span cs₁ + 16 + c.size) = d.used := hsuffix.2.2.2.2.2.1
    rw [hnext, follower, hused]
    cases hd : d.used with
    | true =>
      rw [if_neg (by simp)]
      exact ⟨c, d :: ds, Keeps.refl hl _, hc, rfl, hcs, fun e he => by
        obtain rfl : d = e := by simpa using he
        exact hd, hr⟩
    | false =>
      rw [if_pos (by simp)]
      obtain ⟨ha, hf⟩ := hsuffix.absorb (by omega)
      obtain ⟨-, h₂, -, h₄⟩ := (coalesced_free (l := []) hd).mp hcs
      obtain ⟨r₁, r₂, r₃⟩ := (rounded_cons.mp hr).imp_right rounded_cons.mp
      have hspan : span (⟨c.size + 16 + d.size, c.used⟩ :: ds) = span (c :: d :: ds) := by
        rw [span, span, span]
        dsimp only
        omega
      have hend : a + span cs₁ + 16 + (c.size + 16 + d.size) =
          a + span cs₁ + 16 + c.size + 16 + d.size := by omega
      have k := hf.keeps hl ha hspan hspan
      rw [payloads_free hc, payloads, hd, if_neg Bool.false_ne_true]
      dsimp only at k
      rw [hend] at k
      refine ⟨_, ds, k, hc, ?_, h₂, h₄, rounded_cons.mpr ⟨by dsimp only; omega, r₃⟩⟩
      rw [payloads_free (c := ⟨c.size + 16 + d.size, c.used⟩) hc, hend]

/-- The merge with the previous block, where that one is free. -/
theorem mergePrev_keeps (hl : Layout m 0 a (cs₁ ++ c :: cs) 0) (ha : a ≠ 0)
    (hlt : a + span (cs₁ ++ c :: cs) ≤ 2 ^ 32) (hc : c.used = false) (hcs₁ : Coalesced cs₁)
    (hcs : Coalesced cs) (hhead : ∀ e ∈ cs.head?, e.used = true)
    (hr : Rounded (cs₁ ++ c :: cs)) :
    ∃ ds, Keeps m (if prev m (a + span cs₁) ≠ 0 && !used m (prev m (a + span cs₁)) then
          absorb m (prev m (a + span cs₁)) (a + span cs₁) else m)
        a (cs₁ ++ c :: cs) ds (payloads a (cs₁ ++ c :: cs)) ∧
      payloads a ds = payloads a (cs₁ ++ c :: cs) ∧ Coalesced ds ∧ Rounded ds := by
  have hprev : prev m (a + span cs₁) = lastBlock 0 a cs₁ := (layout_append.mp hl).2.2.2.2.1
  rcases List.eq_nil_or_concat' cs₁ with rfl | ⟨cs₀, q, rfl⟩
  · rw [hprev, lastBlock, if_neg (by simp)]
    exact ⟨_, Keeps.refl hl _, rfl, (coalesced_free hc).mpr
      ⟨hcs₁, hcs, fun d hd => absurd hd (Option.not_mem_none d), hhead⟩, hr⟩
  · rw [List.append_assoc, List.singleton_append] at *
    have hsuffix := (layout_append.mp hl).2
    have hused : used m (a + span cs₀) = q.used := hsuffix.2.1
    have hb : a + span (cs₀ ++ [q]) = a + span cs₀ + 16 + q.size := by
      rw [span_append, span, span]
      omega
    rw [hprev, lastBlock_concat, hused]
    cases hq : q.used with
    | true =>
      rw [if_neg (by simp)]
      refine ⟨_, Keeps.refl hl _, rfl, ?_, hr⟩
      rw [coalesced_used hq] at hcs₁ ⊢
      exact ⟨hcs₁.1, (coalesced_free (l := []) hc).mpr
        ⟨.nil, hcs, fun d hd => absurd hd (Option.not_mem_none d), hhead⟩⟩
    | false =>
      rw [if_pos (by simp [ha]), hb]
      rw [span_append] at hlt
      obtain ⟨hb', hf⟩ := hsuffix.absorb (by omega)
      have hspan : span (⟨q.size + 16 + c.size, q.used⟩ :: cs) = span (q :: c :: cs) := by
        rw [span, span, span]
        dsimp only
        omega
      have hend : a + span cs₀ + 16 + (q.size + 16 + c.size) =
          a + span cs₀ + 16 + q.size + 16 + c.size := by omega
      have k := hf.keeps hl hb' hspan hspan
      dsimp only at k
      rw [hend] at k
      rw [payloads_free hq, payloads, hc, if_neg Bool.false_ne_true]
      refine ⟨_, k, ?_, ?_, ?_⟩
      · rw [payloads_free (c := ⟨q.size + 16 + c.size, q.used⟩) hq, hend]
      · obtain ⟨h₀, -, hlast, -⟩ := (coalesced_free hq).mp hcs₁
        exact (coalesced_free (c := ⟨q.size + 16 + c.size, q.used⟩) hq).mpr
          ⟨h₀, hcs, hlast, hhead⟩
      · rw [rounded_append, rounded_cons, rounded_cons] at hr
        rw [rounded_append, rounded_cons]
        exact ⟨hr.1, by dsimp only; omega, hr.2.2.2⟩

/-- What `kfree` does to the blocks of the segment of the block. -/
theorem freeBlock_keeps (hl : Layout m 0 a (cs₁ ++ c :: cs) 0) (ha : a ≠ 0)
    (hlt : a + span (cs₁ ++ c :: cs) ≤ 2 ^ 32) (hc : c.used = true)
    (hcs : Coalesced (cs₁ ++ c :: cs)) (hr : Rounded (cs₁ ++ c :: cs)) :
    ∃ ds, Keeps m (coalesce (BlockHeader.setUsed m (a + span cs₁) false) (a + span cs₁)) a
        (cs₁ ++ c :: cs) ds (payloads a ds) ∧
      (payloads a (cs₁ ++ c :: cs)).Perm ((a + span cs₁ + 16, c.size) :: payloads a ds) ∧
      Coalesced ds ∧ Rounded ds := by
  obtain ⟨h₁, h₂⟩ := (coalesced_used hc).mp hcs
  obtain ⟨r₁, r₂⟩ := (rounded_append.mp hr).imp_right rounded_cons.mp
  obtain ⟨hu, hf⟩ := (layout_append.mp hl).2.setUsed false
  have k := hf.keeps hl hu rfl rfl
  have hfree : payloads a (cs₁ ++ ⟨c.size, false⟩ :: cs) =
      payloads a cs₁ ++ payloads (a + span cs₁ + 16 + c.size) cs := payloads_free rfl
  rw [← hfree] at k
  have hlt' := hlt
  rw [← k.span_eq] at hlt'
  obtain ⟨d, ds, k', hd, hp, h₃, h₄, r₃⟩ := mergeNext_keeps k.layout hlt' rfl h₂
    (rounded_cons.mpr ⟨r₂.1, r₂.2⟩)
  have hlt'' := hlt'
  rw [← k'.span_eq] at hlt''
  obtain ⟨es, k'', hp', h₅, r₄⟩ :=
    mergePrev_keeps k'.layout ha hlt'' hd h₁ h₃ h₄ (rounded_append.mpr ⟨r₁, r₃⟩)
  rw [hp] at k'' hp'
  refine ⟨es, ?_, ?_, h₅, r₄⟩
  · rw [hp']
    exact (k.trans k').trans k''
  · rw [hp', hfree, payloads_used hc]
    exact List.perm_middle

end

/-! ## Segments -/

/-- A page that is tiled by its header and its blocks. -/
structure Seg where
  page : Nat
  chunks : List Chunk
  page_ne : page ≠ 0
  page_aligned : page % 4096 = 0
  page_le : page + 4096 ≤ 2 ^ 32
  tiled : 8 + span chunks = 4096
  rounded : Rounded chunks
  coalesced : Coalesced chunks

/-- The used payloads of a segment. -/
def Seg.payloads (s : Seg) : List (Nat × Nat) := Os.payloads (s.page + 8) s.chunks

theorem Seg.payload_bounds {s : Seg} {q : Nat × Nat} (h : q ∈ s.payloads) :
    s.page + 24 ≤ q.1 ∧ q.1 + q.2 ≤ s.page + 4096 := by
  have := payloads_bounds h
  have := s.tiled
  omega

/-- The segments from `ptr` on lie in memory as the list has them. -/
def Segments (m : WordMemory) : (ptr : Nat) → List Seg → Prop
  | ptr, [] => ptr = 0
  | ptr, s :: ss => ptr = s.page ∧ Segment.firstBlock m s.page = s.page + 8 ∧
      Layout m 0 (s.page + 8) s.chunks 0 ∧ Segments m (Segment.next m s.page) ss

theorem segment_congr {m m' : WordMemory} {x : Nat} (h : ∀ z, x ≤ z → z < x + 8 → m z = m' z) :
    Segment.next m x = Segment.next m' x ∧ Segment.firstBlock m x = Segment.firstBlock m' x :=
  ⟨WordMemory.load32_congr fun z _ _ => h z (by omega) (by omega),
    WordMemory.load32_congr fun z _ _ => h z (by omega) (by omega)⟩

theorem Segments.congr {m m' : WordMemory} {ptr : Nat} {segs : List Seg} (h : Segments m ptr segs)
    (hm : ∀ s ∈ segs, ∀ x, s.page ≤ x → x < s.page + 4096 → m x = m' x) :
    Segments m' ptr segs := by
  induction segs generalizing ptr with
  | nil => exact h
  | cons s ss ih =>
    obtain ⟨h₁, h₂, h₃, h₄⟩ := h
    have hs := hm s List.mem_cons_self
    have htiled := s.tiled
    obtain ⟨e₁, e₂⟩ := segment_congr (x := s.page) fun z hz hz' => hs z hz (by omega)
    refine ⟨h₁, e₂ ▸ h₂, h₃.congr fun x hx hx' => hs x (by omega) (by omega), ?_⟩
    rw [← e₁]
    exact ih h₄ fun t ht => hm t (List.mem_cons_of_mem _ ht)

/-- Distinct pages have no byte in common. -/
theorem Seg.apart {s t : Seg} (h : s.page ≠ t.page) {x : Nat} (hx : s.page ≤ x)
    (hx' : x < s.page + 4096) : x < t.page ∨ t.page + 4096 ≤ x := by
  have := s.page_aligned
  have := t.page_aligned
  omega

/-- The pages of the segments are distinct. -/
def DistinctPages (segs : List Seg) : Prop := (segs.map (·.page)).Nodup

theorem distinctPages_middle {ss₁ ss₂ : List Seg} {s : Seg} :
    DistinctPages (ss₁ ++ s :: ss₂) ↔
      DistinctPages (ss₁ ++ ss₂) ∧ ∀ t ∈ ss₁ ++ ss₂, t.page ≠ s.page := by
  unfold DistinctPages
  rw [(List.perm_middle.map _).nodup_iff, List.map_cons, List.nodup_cons, List.mem_map]
  constructor
  · rintro ⟨h, hn⟩
    exact ⟨hn, fun t ht he => h ⟨t, ht, he⟩⟩
  · rintro ⟨hn, h⟩
    exact ⟨fun ⟨t, ht, he⟩ => h t ht he, hn⟩

/-- A change to the blocks of one segment. -/
theorem Segments.change {m m' : WordMemory} {ptr : Nat} {ss₁ ss₂ : List Seg} {s s' : Seg}
    {qs : List (Nat × Nat)} (h : Segments m ptr (ss₁ ++ s :: ss₂))
    (hd : DistinctPages (ss₁ ++ s :: ss₂)) (hp : s'.page = s.page)
    (hk : Keeps m m' (s.page + 8) s.chunks s'.chunks qs) : Segments m' ptr (ss₁ ++ s' :: ss₂) := by
  have htiled := s.tiled
  have hsame : ∀ t ∈ ss₁ ++ ss₂, ∀ x, t.page ≤ x → x < t.page + 4096 → m x = m' x := by
    intro t ht x hx hx'
    rcases Seg.apart ((distinctPages_middle.mp hd).2 t ht) hx hx' with h | h
    · exact hk.before x (by omega)
    · exact hk.after x (by omega)
  clear hd
  induction ss₁ generalizing ptr with
  | nil =>
    obtain ⟨h₁, h₂, -, h₄⟩ := h
    obtain ⟨e₁, e₂⟩ := segment_congr (x := s.page) fun z _ hz' => hk.before z (by omega)
    rw [List.nil_append] at *
    refine ⟨h₁.trans hp.symm, ?_, ?_, ?_⟩
    · rw [hp, ← e₂, h₂]
    · rw [hp]
      exact hk.layout
    · rw [hp, ← e₁]
      exact h₄.congr hsame
  | cons t ss₁ ih =>
    obtain ⟨h₁, h₂, h₃, h₄⟩ := h
    have ht := hsame t List.mem_cons_self
    have httiled := t.tiled
    obtain ⟨e₁, e₂⟩ := segment_congr (x := t.page) fun z hz hz' => ht z hz (by omega)
    refine ⟨h₁, e₂ ▸ h₂, h₃.congr fun x hx hx' => ht x (by omega) (by omega), ?_⟩
    rw [← e₁]
    exact ih h₄ fun u hu => hsame u (List.mem_cons_of_mem _ hu)

/-! ## The representation -/

/-- The used payloads of all segments. -/
def livePayloads (segs : List Seg) : List (Nat × Nat) := segs.flatMap Seg.payloads

theorem livePayloads_middle {ss₁ ss₂ : List Seg} {s : Seg} :
    (livePayloads (ss₁ ++ s :: ss₂)).Perm (s.payloads ++ livePayloads (ss₁ ++ ss₂)) := by
  unfold livePayloads
  rw [List.flatMap_append, List.flatMap_cons, List.flatMap_append]
  exact List.perm_append_comm_assoc _ _ _

/-- The sum of the sizes of some payloads. -/
def total (qs : List (Nat × Nat)) : Nat := (qs.map (·.2)).sum

theorem total_perm {qs qs' : List (Nat × Nat)} (h : qs.Perm qs') : total qs = total qs' :=
  (h.map _).sum_eq

@[simp] theorem total_cons (q : Nat × Nat) (qs : List (Nat × Nat)) :
    total (q :: qs) = q.2 + total qs := by simp [total]

@[simp] theorem total_append (qs qs' : List (Nat × Nat)) :
    total (qs ++ qs') = total qs + total qs' := by simp [total]

theorem total_payloads_le (a : Nat) (cs : List Chunk) : total (payloads a cs) ≤ span cs := by
  induction cs generalizing a with
  | nil => exact Nat.le_refl 0
  | cons c cs ih =>
    have := ih (a + 16 + c.size)
    rw [payloads, span]
    split
    · rw [total_cons]
      dsimp only
      omega
    · omega

/-- There are fewer than 2²⁰ segments. -/
theorem length_segs_lt {segs : List Seg} (h : DistinctPages segs) : segs.length < 2 ^ 20 := by
  have hnodup : (segs.map fun s => s.page / 4096).Nodup := by
    refine List.Nodup.of_map (fun n => n * 4096) ?_
    rw [List.map_map]
    refine (List.map_congr_left fun s _ => ?_ : _ = segs.map (·.page)) ▸ h
    have := s.page_aligned
    simp only [Function.comp]
    omega
  have hsub : (segs.map fun s => s.page / 4096) ⊆ (List.range (2 ^ 20 - 1)).map (· + 1) := by
    intro n hn
    obtain ⟨s, -, rfl⟩ := List.mem_map.mp hn
    have := s.page_aligned
    have := s.page_ne
    have := s.page_le
    exact List.mem_map.mpr ⟨s.page / 4096 - 1, List.mem_range.mpr (by omega), by omega⟩
  have := (List.subperm_of_subset hnodup hsub).length_le
  rw [List.length_map, List.length_map, List.length_range] at this
  omega

theorem total_live_lt {segs : List Seg} (h : DistinctPages segs) :
    total (livePayloads segs) < 2 ^ 32 := by
  have hle : total (livePayloads segs) ≤ 4088 * segs.length := by
    clear h
    induction segs with
    | nil => exact Nat.le_refl 0
    | cons s ss ih =>
      have := total_payloads_le (s.page + 8) s.chunks
      have := s.tiled
      rw [livePayloads, List.flatMap_cons, total_append, List.length_cons, ← livePayloads,
        Seg.payloads]
      omega
  have := length_segs_lt h
  omega

/-- The heap is these segments, and `bytesAllocated` the sum of the sizes of their used blocks. -/
structure Represents (heap : Heap) (segs : List Seg) : Prop where
  chain : Segments heap.mem heap.segments segs
  pages : DistinctPages segs
  bytes : heap.bytesAllocated = total (livePayloads segs)

/-! ## Finding a free block -/

/-- The walk over a segment ends: at a free block that is large enough, or after the last one. -/
theorem findInSegment_spec {m : WordMemory} {p a n rounds : Nat} {cs : List Chunk}
    (hl : Layout m p a cs 0) (ha : a ≠ 0) (hr : cs.length < rounds) :
    (findInSegment m n rounds (follower a cs 0) = some 0 ∧
        ∀ c ∈ cs, c.used = false → c.size < n) ∨
      ∃ cs₁ c cs₂, cs = cs₁ ++ c :: cs₂ ∧ c.used = false ∧ n ≤ c.size ∧
        findInSegment m n rounds (follower a cs 0) = some (a + span cs₁) := by
  induction cs generalizing p a rounds with
  | nil =>
    obtain ⟨r, rfl⟩ := Nat.exists_eq_add_of_lt hr
    left
    rw [List.length_nil, Nat.zero_add, findInSegment, follower, if_pos rfl]
    exact ⟨rfl, fun c hc => absurd hc List.not_mem_nil⟩
  | cons c cs ih =>
    obtain ⟨r, rfl⟩ : ∃ r, rounds = r + 1 := ⟨rounds - 1, by omega⟩
    rw [List.length_cons] at hr
    obtain ⟨h₁, h₂, h₃, -, h₅⟩ := hl
    rw [follower, findInSegment, if_neg ha, h₁, h₂, h₃]
    by_cases hfit : (!c.used && decide (c.size ≥ n)) = true
    · right
      rw [if_pos hfit]
      simp only [Bool.and_eq_true, Bool.not_eq_true', decide_eq_true_eq] at hfit
      exact ⟨[], c, cs, rfl, hfit.1, hfit.2, rfl⟩
    · rw [if_neg hfit]
      have hsmall : c.used = false → c.size < n := fun hu => by
        simpa [hu] using hfit
      refine (ih h₅ (by omega) (by omega)).imp
        (fun h => ⟨h.1, List.forall_mem_cons.mpr ⟨hsmall, h.2⟩⟩) ?_
      rintro ⟨cs₁, d, cs₂, rfl, hd, hn, e⟩
      refine ⟨c :: cs₁, d, cs₂, rfl, hd, hn, ?_⟩
      rw [e, span]
      congr 1
      omega

/-- A page has at most 255 blocks. -/
theorem Seg.length_chunks_lt (s : Seg) : s.chunks.length < 256 := by
  have hlen : ∀ cs : List Chunk, 16 * cs.length ≤ span cs := by
    intro cs
    induction cs with
    | nil => exact Nat.le_refl 0
    | cons c cs ih =>
      rw [List.length_cons, span]
      omega
  have := hlen s.chunks
  have := s.tiled
  omega

theorem Seg.follower_eq (s : Seg) : follower (s.page + 8) s.chunks 0 = s.page + 8 := by
  have h := s.tiled
  cases e : s.chunks with
  | nil =>
    rw [e, span] at h
    omega
  | cons => rfl

theorem findInSegments_spec {m : WordMemory} {n inner rounds ptr : Nat} {segs : List Seg}
    (hs : Segments m ptr segs) (hi : 256 ≤ inner) (hr : segs.length < rounds) :
    (findInSegments m n inner rounds ptr = some 0 ∧
        ∀ s ∈ segs, ∀ c ∈ s.chunks, c.used = false → c.size < n) ∨
      ∃ ss₁ s ss₂ cs₁ c cs₂, segs = ss₁ ++ s :: ss₂ ∧ s.chunks = cs₁ ++ c :: cs₂ ∧
        c.used = false ∧ n ≤ c.size ∧
        findInSegments m n inner rounds ptr = some (s.page + 8 + span cs₁) := by
  induction segs generalizing ptr rounds with
  | nil =>
    obtain ⟨r, rfl⟩ := Nat.exists_eq_add_of_lt hr
    left
    rw [List.length_nil, Nat.zero_add, findInSegments, show ptr = 0 from hs, if_pos rfl]
    exact ⟨rfl, fun s hs => absurd hs List.not_mem_nil⟩
  | cons s ss ih =>
    obtain ⟨r, rfl⟩ : ∃ r, rounds = r + 1 := ⟨rounds - 1, by omega⟩
    rw [List.length_cons] at hr
    obtain ⟨rfl, h₂, h₃, h₄⟩ := hs
    have hlen := s.length_chunks_lt
    rw [findInSegments, if_neg s.page_ne, h₂]
    have hinner : s.chunks.length < inner := by omega
    rcases findInSegment_spec (n := n) h₃ (by omega) hinner with
      ⟨h, hsmall⟩ | ⟨cs₁, c, cs₂, hc, hu, hn, h⟩
    · rw [s.follower_eq] at h
      rw [h]
      refine (ih h₄ (by omega)).imp
        (fun h => ⟨h.1, List.forall_mem_cons.mpr ⟨hsmall, h.2⟩⟩) ?_
      rintro ⟨ss₁, t, ss₂, cs₁, c, cs₂, rfl, hc, hu, hn, e⟩
      exact ⟨s :: ss₁, t, ss₂, cs₁, c, cs₂, rfl, hc, hu, hn, e⟩
    · rw [s.follower_eq] at h
      rw [h]
      right
      refine ⟨[], s, ss, cs₁, c, cs₂, rfl, hc, hu, hn, ?_⟩
      have hne : s.page + 8 + span cs₁ ≠ 0 := by omega
      obtain ⟨k, hk⟩ := Nat.exists_eq_succ_of_ne_zero hne
      rw [hk]
      rfl

/-! ## The operations on the whole heap -/

theorem SamePayloads.subset {m m' : WordMemory} {qs qs' : List (Nat × Nat)}
    (h : SamePayloads m m' qs) (hs : ∀ q ∈ qs', q ∈ qs) : SamePayloads m m' qs' :=
  fun q hq => h q (hs q hq)

/-- The payloads of the other segments stay as they are. -/
theorem Keeps.same_others {m m' : WordMemory} {ss₁ ss₂ : List Seg} {s : Seg} {cs : List Chunk}
    {qs : List (Nat × Nat)} (hd : DistinctPages (ss₁ ++ s :: ss₂))
    (hk : Keeps m m' (s.page + 8) s.chunks cs qs) :
    SamePayloads m m' (livePayloads (ss₁ ++ ss₂)) := by
  intro q hq x hx hx'
  obtain ⟨t, ht, hq⟩ := List.mem_flatMap.mp hq
  have := Seg.payload_bounds hq
  have := s.tiled
  rcases Seg.apart ((distinctPages_middle.mp hd).2 t ht) (x := x) (by omega) (by omega) with h | h
  · exact hk.before x (by omega)
  · exact hk.after x (by omega)

/-- A segment with other blocks on its page. -/
def Seg.withChunks (s : Seg) (cs : List Chunk) (hspan : span cs = span s.chunks)
    (hr : Rounded cs) (hc : Coalesced cs) : Seg :=
  { s with chunks := cs, tiled := by rw [hspan, s.tiled], rounded := hr, coalesced := hc }

theorem distinctPages_change {ss₁ ss₂ : List Seg} {s s' : Seg} (hp : s'.page = s.page)
    (h : DistinctPages (ss₁ ++ s :: ss₂)) : DistinctPages (ss₁ ++ s' :: ss₂) := by
  rw [distinctPages_middle] at h ⊢
  rwa [hp]

/-- The layout of one of the segments. -/
theorem Segments.layout {m : WordMemory} {ptr : Nat} {ss₁ ss₂ : List Seg} {s : Seg}
    (h : Segments m ptr (ss₁ ++ s :: ss₂)) : Layout m 0 (s.page + 8) s.chunks 0 := by
  induction ss₁ generalizing ptr with
  | nil => exact h.2.2.1
  | cons t ss₁ ih => exact ih h.2.2.2

/-- Taking a block that was found. -/
theorem Represents.take {heap : Heap} {ss₁ ss₂ : List Seg} {s : Seg} {cs₁ cs₂ : List Chunk}
    {c : Chunk} {n : Nat} (h : Represents heap (ss₁ ++ s :: ss₂)) (hs : s.chunks = cs₁ ++ c :: cs₂)
    (hc : c.used = false) (hn : n ≤ c.size) (h8 : n % 8 = 0) :
    ∃ s' : Seg, s'.page = s.page ∧
      Represents (takeBlock heap (s.page + 8 + span cs₁) n).2 (ss₁ ++ s' :: ss₂) ∧
      (livePayloads (ss₁ ++ s' :: ss₂)).Perm
        ((s.page + 8 + span cs₁ + 16, takenSize c n) :: livePayloads (ss₁ ++ s :: ss₂)) ∧
      SamePayloads heap.mem (takeBlock heap (s.page + 8 + span cs₁) n).2.mem
        (livePayloads (ss₁ ++ s :: ss₂)) := by
  have hlayout := h.chain.layout
  have hend := s.tiled
  have hle := s.page_le
  have hcoalesced := s.coalesced
  have hrounded := s.rounded
  rw [hs] at hlayout hend hcoalesced hrounded
  obtain ⟨hk, hsize⟩ := takeBlock_keeps hlayout (by omega) hc hn
  rw [← hs] at hk
  let s' := s.withChunks (taken cs₁ c cs₂ n) hk.span_eq (rounded_taken hrounded h8)
    (coalesced_taken hcoalesced hc)
  have hs' : s'.payloads.Perm ((s.page + 8 + span cs₁ + 16, takenSize c n) :: s.payloads) := by
    rw [Seg.payloads, Seg.payloads, hs]
    exact payloads_taken hc
  have hperm : (livePayloads (ss₁ ++ s' :: ss₂)).Perm
      ((s.page + 8 + span cs₁ + 16, takenSize c n) :: livePayloads (ss₁ ++ s :: ss₂)) :=
    livePayloads_middle.trans ((hs'.append_right _).trans (livePayloads_middle.symm.cons _))
  have hpages := distinctPages_change (show s'.page = s.page from rfl) h.pages
  refine ⟨s', rfl, ⟨h.chain.change h.pages rfl hk, hpages, ?_⟩, hperm, ?_⟩
  · have hlt := total_live_lt hpages
    rw [total_perm hperm, total_cons] at hlt ⊢
    show add32 heap.bytesAllocated (size _ _) = _
    rw [hsize, h.bytes, add32, Nat.mod_eq_of_lt (by omega), Nat.add_comm]
  · refine (SamePayloads.append hk.same (hk.same_others h.pages)).subset fun q hq => ?_
    exact livePayloads_middle.mem_iff.mp hq

theorem mem_payloads {a : Nat} {cs : List Chunk} {q : Nat × Nat} (h : q ∈ payloads a cs) :
    ∃ cs₁ c cs₂, cs = cs₁ ++ c :: cs₂ ∧ c.used = true ∧ q = (a + span cs₁ + 16, c.size) := by
  induction cs generalizing a with
  | nil => cases h
  | cons d cs ih =>
    have hrest : q ∈ payloads (a + 16 + d.size) cs →
        ∃ cs₁ c cs₂, d :: cs = cs₁ ++ c :: cs₂ ∧ c.used = true ∧
          q = (a + span cs₁ + 16, c.size) := by
      intro h
      obtain ⟨cs₁, c, cs₂, rfl, hc, rfl⟩ := ih h
      refine ⟨d :: cs₁, c, cs₂, rfl, hc, ?_⟩
      rw [span]
      congr 2
      omega
    rw [payloads] at h
    split at h
    · rename_i hd
      rcases List.mem_cons.mp h with rfl | h
      · exact ⟨[], d, cs, rfl, hd, rfl⟩
      · exact hrest h
    · exact hrest h

/-- Freeing a live block. -/
theorem Represents.free {heap : Heap} {segs : List Seg} (h : Represents heap segs)
    {q : Nat × Nat} (hq : q ∈ livePayloads segs) :
    ∃ segs', segs'.map (·.page) = segs.map (·.page) ∧ Represents (kfree heap q.1) segs' ∧
      (livePayloads segs).Perm (q :: livePayloads segs') ∧
      SamePayloads heap.mem (kfree heap q.1).mem (livePayloads segs') := by
  obtain ⟨s, hs, hq'⟩ := List.mem_flatMap.mp hq
  obtain ⟨ss₁, ss₂, rfl⟩ := List.append_of_mem hs
  obtain ⟨cs₁, c, cs₂, hcs, hc, rfl⟩ := mem_payloads hq'
  have hlayout := h.chain.layout
  have hend := s.tiled
  have hle := s.page_le
  have hcoalesced := s.coalesced
  have hrounded := s.rounded
  rw [hcs] at hlayout hend hcoalesced hrounded
  obtain ⟨ds, hk, hp, hcoal, hround⟩ :=
    freeBlock_keeps hlayout (by omega) (by omega) hc hcoalesced hrounded
  obtain ⟨hsize, hused, -⟩ := (layout_append.mp hlayout).2
  rw [← hcs] at hk hp
  let s' := s.withChunks ds hk.span_eq hround hcoal
  have hpages := distinctPages_change (show s'.page = s.page from rfl) h.pages
  have hperm : (livePayloads (ss₁ ++ s :: ss₂)).Perm
      ((s.page + 8 + span cs₁ + 16, c.size) :: livePayloads (ss₁ ++ s' :: ss₂)) :=
    livePayloads_middle.trans
      ((hp.append_right _).trans ((livePayloads_middle (s := s')).symm.cons _))
  have hfree : kfree heap (s.page + 8 + span cs₁ + 16) =
      { heap with
        mem := coalesce (BlockHeader.setUsed heap.mem (s.page + 8 + span cs₁) false)
          (s.page + 8 + span cs₁)
        bytesAllocated := sub32 heap.bytesAllocated c.size } := by
    have hblock : payloadToBlock (s.page + 8 + span cs₁ + 16) = s.page + 8 + span cs₁ :=
      Nat.add_sub_cancel ..
    unfold kfree
    rw [if_neg (by omega), hblock]
    dsimp only
    rw [hused, hc, if_neg (by decide), size_setUsed, hsize]
  rw [hfree]
  refine ⟨ss₁ ++ s' :: ss₂, ?_, ⟨h.chain.change h.pages rfl hk, hpages, ?_⟩, hperm, ?_⟩
  · rw [List.map_append, List.map_append]
    rfl
  · have hlt := total_live_lt h.pages
    dsimp only
    rw [h.bytes]
    rw [total_perm hperm, total_cons] at hlt ⊢
    rw [sub32]
    dsimp only at hlt ⊢
    omega
  · refine (SamePayloads.append hk.same (hk.same_others h.pages)).subset fun r hr => ?_
    exact livePayloads_middle.mem_iff.mp hr

/-- The segment on a fresh page. -/
def Seg.fresh (page : Nat) (h₀ : page ≠ 0) (h₁ : page % 4096 = 0) (h₂ : page + 4096 ≤ 2 ^ 32) :
    Seg where
  page := page
  chunks := [⟨4072, false⟩]
  page_ne := h₀
  page_aligned := h₁
  page_le := h₂
  tiled := rfl
  rounded c hc := by
    obtain rfl := List.mem_singleton.mp hc
    rfl
  coalesced := .singleton _

theorem Segments.ptr_lt {m : WordMemory} {ptr : Nat} {segs : List Seg} (h : Segments m ptr segs) :
    ptr < 2 ^ 32 := by
  cases segs with
  | nil =>
    rw [show ptr = 0 from h]
    decide
  | cons s ss =>
    have := s.page_le
    have := h.1
    omega

/-- A new segment on a page that is not one of the heap's. -/
theorem Represents.grow {heap : Heap} {segs : List Seg} (h : Represents heap segs) {page : Nat}
    (h₀ : page ≠ 0) (h₁ : page % 4096 = 0) (h₂ : page + 4096 ≤ 2 ^ 32)
    (hn : page ∉ segs.map (·.page)) :
    Represents (growHeap page heap).2 (Seg.fresh page h₀ h₁ h₂ :: segs) ∧
      ∀ x, x < page ∨ page + 4096 ≤ x → heap.mem x = (growHeap page heap).2.mem x := by
  obtain ⟨m₁, hm₁⟩ : ∃ m₁, m₁ = BlockHeader.setPrev (BlockHeader.setNext (BlockHeader.setUsed
    (BlockHeader.setSize heap.mem (page + 8) 4072) (page + 8) false) (page + 8) 0) (page + 8) 0 :=
    ⟨_, rfl⟩
  obtain ⟨m₂, hm₂⟩ : ∃ m₂, m₂ = Segment.setNext (Segment.setFirstBlock m₁ page (page + 8)) page
    heap.segments := ⟨_, rfl⟩
  have hgrow : growHeap page heap = (true, ⟨m₂, page, heap.bytesAllocated⟩) := by
    unfold growHeap
    rw [if_neg h₀, hm₂, hm₁]
    rfl
  have hnew := newHeader (m := heap.mem) (x := page + 8) (s := 4072) (n := 0) (p := 0) (u := false)
    (by decide) (by decide) (by decide)
  rw [← hm₁] at hnew
  obtain ⟨n₁, n₂, n₃, n₄, n₅⟩ := hnew
  have hseg : ∀ x, x < page ∨ page + 8 ≤ x → m₂ x = m₁ x := fun x hx => by
    rw [hm₂, Segment.setNext, Segment.setFirstBlock, WordMemory.store32_of_apart (by omega),
      WordMemory.store32_of_apart (by omega)]
  have hout : ∀ x, x < page ∨ page + 4096 ≤ x → heap.mem x = m₂ x := fun x hx => by
    rw [hseg x (by omega), n₅ x (by omega)]
  obtain ⟨e₁, e₂, e₃, e₄⟩ := header_congr (x := page + 8) fun z hz _ => hseg z (by omega)
  rw [hgrow]
  refine ⟨⟨⟨rfl, ?_, ⟨e₁.trans n₁, e₂.trans n₂, e₃.trans n₃, e₄.trans n₄, trivial⟩, ?_⟩, ?_, ?_⟩,
    hout⟩
  · show m₂.load32 (page + 4) = page + 8
    rw [hm₂, Segment.setNext, Segment.setFirstBlock,
      WordMemory.load32_store32_of_apart (by omega), WordMemory.load32_store32 _ _ (by omega)]
  · have hnext : Segment.next m₂ page = heap.segments := by
      rw [hm₂]
      exact WordMemory.load32_store32 _ _ h.chain.ptr_lt
    rw [show (Seg.fresh page h₀ h₁ h₂).page = page from rfl, hnext]
    refine h.chain.congr fun s hs x hx hx' => hout x ?_
    have hne : s.page ≠ page := fun he => hn (List.mem_map.mpr ⟨s, hs, he⟩)
    exact Seg.apart (t := Seg.fresh page h₀ h₁ h₂) hne hx hx'
  · exact List.nodup_cons.mpr ⟨hn, h.pages⟩
  · exact h.bytes

end Os
end Techuila
