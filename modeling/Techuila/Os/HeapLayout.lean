import Mathlib.Data.List.Chain
import Techuila.Os.Heap

/-!
# How the blocks of the heap lie in memory

* `Chunk`: a block as its size and whether it is used; the address follows from the blocks before it.
* `Layout`: the headers of a list of blocks, one after the other, doubly linked.
* `Layout.split`, `Layout.absorb`: what splitting a block and merging two do to the list.
* `payloads`: the used payloads of a list of blocks.
-/

namespace Techuila
namespace Os

open BlockHeader (size used next prev setSize setUsed setNext setPrev)

/-! ## Fields -/

section
variable {m : WordMemory} {x y v : Nat} {b : Bool}

theorem size_setSize (h : v < 2 ^ 32) : size (setSize m x v) x = v := m.load32_store32 x h
theorem next_setNext (h : v < 2 ^ 32) : next (setNext m x v) x = v := m.load32_store32 (x + 8) h
theorem prev_setPrev (h : v < 2 ^ 32) : prev (setPrev m x v) x = v := m.load32_store32 (x + 12) h
theorem used_setUsed : used (setUsed m x b) x = b := by
  rw [used, setUsed, WordMemory.store8_self]
  cases b <;> rfl

theorem used_setSize : used (setSize m x v) x = used m x := by
  rw [used, setSize, WordMemory.store32_of_apart (by omega), used]
theorem next_setSize : next (setSize m x v) x = next m x :=
  WordMemory.load32_store32_of_apart (by omega)
theorem prev_setSize : prev (setSize m x v) x = prev m x :=
  WordMemory.load32_store32_of_apart (by omega)
theorem size_setUsed : size (setUsed m x b) x = size m x :=
  WordMemory.load32_store8_of_apart (by omega)
theorem next_setUsed : next (setUsed m x b) x = next m x :=
  WordMemory.load32_store8_of_apart (by omega)
theorem prev_setUsed : prev (setUsed m x b) x = prev m x :=
  WordMemory.load32_store8_of_apart (by omega)
theorem size_setNext : size (setNext m x v) x = size m x :=
  WordMemory.load32_store32_of_apart (by omega)
theorem used_setNext : used (setNext m x v) x = used m x := by
  rw [used, setNext, WordMemory.store32_of_apart (by omega), used]
theorem prev_setNext : prev (setNext m x v) x = prev m x :=
  WordMemory.load32_store32_of_apart (by omega)
theorem size_setPrev : size (setPrev m x v) x = size m x :=
  WordMemory.load32_store32_of_apart (by omega)
theorem used_setPrev : used (setPrev m x v) x = used m x := by
  rw [used, setPrev, WordMemory.store32_of_apart (by omega), used]
theorem next_setPrev : next (setPrev m x v) x = next m x :=
  WordMemory.load32_store32_of_apart (by omega)

/-- A header is what its 16 bytes are. -/
theorem header_congr {b : WordMemory} (h : ∀ z, x ≤ z → z < x + 16 → m z = b z) :
    size m x = size b x ∧ used m x = used b x ∧ next m x = next b x ∧ prev m x = prev b x := by
  refine ⟨WordMemory.load32_congr fun z _ _ => h z (by omega) (by omega), ?_,
    WordMemory.load32_congr fun z _ _ => h z (by omega) (by omega),
    WordMemory.load32_congr fun z _ _ => h z (by omega) (by omega)⟩
  rw [used, used, h _ (by omega) (by omega)]

theorem setSize_apart {z : Nat} (h : z < x ∨ x + 16 ≤ z) : setSize m x v z = m z :=
  WordMemory.store32_of_apart (by omega)
theorem setUsed_apart {z : Nat} (h : z < x ∨ x + 16 ≤ z) : setUsed m x b z = m z :=
  WordMemory.store8_of_ne (by omega)
theorem setNext_apart {z : Nat} (h : z < x ∨ x + 16 ≤ z) : setNext m x v z = m z :=
  WordMemory.store32_of_apart (by omega)
theorem setPrev_apart {z : Nat} (h : z < x ∨ x + 16 ≤ z) : setPrev m x v z = m z :=
  WordMemory.store32_of_apart (by omega)

end

/-! ## Lists of blocks -/

/-- A block. -/
structure Chunk where
  size : Nat
  used : Bool
  deriving DecidableEq, Repr

/-- The number of bytes of some blocks with their headers. -/
def span : List Chunk → Nat
  | [] => 0
  | c :: cs => 16 + c.size + span cs

@[simp] theorem span_append (cs cs' : List Chunk) : span (cs ++ cs') = span cs + span cs' := by
  induction cs with
  | nil => simp [span]
  | cons c cs ih =>
    rw [List.cons_append, span, span, ih]
    omega

/-- The address after a block, or `nxt` where it is the last one. -/
def follower (a : Nat) (cs : List Chunk) (nxt : Nat) : Nat :=
  match cs with
  | [] => nxt
  | _ :: _ => a

/-- The headers from `a` on are those of the blocks; `p` is before them and `nxt` after them. -/
def Layout (m : WordMemory) : (p a : Nat) → List Chunk → (nxt : Nat) → Prop
  | _, _, [], _ => True
  | p, a, c :: cs, nxt =>
    size m a = c.size ∧ used m a = c.used ∧ next m a = follower (a + 16 + c.size) cs nxt ∧
      prev m a = p ∧ Layout m a (a + 16 + c.size) cs nxt

/-- The address of the last block, or `p` where there is none. -/
def lastBlock : (p a : Nat) → List Chunk → Nat
  | p, _, [] => p
  | _, a, c :: cs => lastBlock a (a + 16 + c.size) cs

theorem lastBlock_concat (p a : Nat) (cs : List Chunk) (c : Chunk) :
    lastBlock p a (cs ++ [c]) = a + span cs := by
  induction cs generalizing p a with
  | nil => rfl
  | cons d cs ih =>
    rw [List.cons_append, lastBlock, ih, span]
    omega

theorem layout_append {m : WordMemory} {p a nxt : Nat} {cs : List Chunk} {c : Chunk}
    {cs' : List Chunk} : Layout m p a (cs ++ c :: cs') nxt ↔
      Layout m p a cs (a + span cs) ∧
        Layout m (lastBlock p a cs) (a + span cs) (c :: cs') nxt := by
  induction cs generalizing p a with
  | nil => simp [Layout, span, lastBlock]
  | cons d cs ih =>
    have hspan : a + 16 + d.size + span cs = a + span (d :: cs) := by
      rw [span]
      omega
    have hf : follower (a + 16 + d.size) (cs ++ c :: cs') nxt =
        follower (a + 16 + d.size) cs (a + span (d :: cs)) := by
      cases cs with
      | nil => rw [span, span]; exact (Nat.add_assoc _ _ _)
      | cons => rfl
    constructor
    · rintro ⟨h₁, h₂, h₃, h₄, h₅⟩
      obtain ⟨h₅, h₆⟩ := ih.mp h₅
      rw [hspan] at h₅ h₆
      exact ⟨⟨h₁, h₂, hf ▸ h₃, h₄, h₅⟩, h₆⟩
    · rintro ⟨⟨h₁, h₂, h₃, h₄, h₅⟩, h₆⟩
      rw [← hspan] at h₅ h₆
      exact ⟨h₁, h₂, hf ▸ h₃, h₄, ih.mpr ⟨h₅, h₆⟩⟩

theorem Layout.congr {m m' : WordMemory} {p a nxt : Nat} {cs : List Chunk}
    (hl : Layout m p a cs nxt) (h : ∀ x, a ≤ x → x < a + span cs → m x = m' x) :
    Layout m' p a cs nxt := by
  induction cs generalizing p a with
  | nil => trivial
  | cons c cs ih =>
    obtain ⟨h₁, h₂, h₃, h₄, h₅⟩ := hl
    rw [span] at h
    obtain ⟨e₁, e₂, e₃, e₄⟩ :=
      header_congr (x := a) fun z hz hz' => h z hz (by omega)
    exact ⟨e₁ ▸ h₁, e₂ ▸ h₂, e₃ ▸ h₃, e₄ ▸ h₄,
      ih h₅ fun x hx hx' => h x (by omega) (by omega)⟩

/-! ## Used payloads -/

/-- The address and the size of each used payload. -/
def payloads : Nat → List Chunk → List (Nat × Nat)
  | _, [] => []
  | a, c :: cs =>
    if c.used then (a + 16, c.size) :: payloads (a + 16 + c.size) cs
    else payloads (a + 16 + c.size) cs

theorem payloads_append (a : Nat) (cs cs' : List Chunk) :
    payloads a (cs ++ cs') = payloads a cs ++ payloads (a + span cs) cs' := by
  induction cs generalizing a with
  | nil => simp [payloads, span]
  | cons c cs ih =>
    have hspan : a + 16 + c.size + span cs = a + span (c :: cs) := by
      rw [span]
      omega
    rw [List.cons_append, payloads, payloads, ih, hspan]
    split <;> rfl

theorem payloads_free {a : Nat} {cs₁ cs : List Chunk} {c : Chunk} (h : c.used = false) :
    payloads a (cs₁ ++ c :: cs) = payloads a cs₁ ++ payloads (a + span cs₁ + 16 + c.size) cs := by
  rw [payloads_append, payloads, h]
  rfl

theorem payloads_used {a : Nat} {cs₁ cs : List Chunk} {c : Chunk} (h : c.used = true) :
    payloads a (cs₁ ++ c :: cs) = payloads a cs₁ ++
      (a + span cs₁ + 16, c.size) :: payloads (a + span cs₁ + 16 + c.size) cs := by
  rw [payloads_append, payloads, h]
  rfl

theorem payloads_bounds {a : Nat} {cs : List Chunk} {q : Nat × Nat} (h : q ∈ payloads a cs) :
    a + 16 ≤ q.1 ∧ q.1 + q.2 ≤ a + span cs := by
  induction cs generalizing a with
  | nil => cases h
  | cons c cs ih =>
    rw [payloads] at h
    rw [span]
    split at h
    · rcases List.mem_cons.mp h with rfl | h
      · exact ⟨Nat.le_refl _, by dsimp only; omega⟩
      · have := ih h
        omega
    · have := ih h
      omega

/-- The payloads of these blocks are the same in both memories. -/
def SamePayloads (m m' : WordMemory) (qs : List (Nat × Nat)) : Prop :=
  ∀ q ∈ qs, ∀ x, q.1 ≤ x → x < q.1 + q.2 → m x = m' x

theorem SamePayloads.of_range {m m' : WordMemory} {a : Nat} {cs : List Chunk}
    (h : ∀ x, a ≤ x → x < a + span cs → m x = m' x) : SamePayloads m m' (payloads a cs) := by
  intro q hq x hx hx'
  have := payloads_bounds hq
  exact h x (by omega) (by omega)

theorem SamePayloads.trans {m₁ m₂ m₃ : WordMemory} {qs : List (Nat × Nat)}
    (h : SamePayloads m₁ m₂ qs) (h' : SamePayloads m₂ m₃ qs) : SamePayloads m₁ m₃ qs :=
  fun q hq x hx hx' => (h q hq x hx hx').trans (h' q hq x hx hx')

/-! ## New predecessors -/

/-- The first of some blocks gets another block before it. -/
def relink (m : WordMemory) (block q : Nat) : WordMemory :=
  if block ≠ 0 then setPrev m block q else m

theorem relink_apart {m : WordMemory} {block q x : Nat} (h : x < block + 12 ∨ block + 16 ≤ x) :
    relink m block q x = m x := by
  unfold relink
  split
  · exact WordMemory.store32_of_apart (by omega)
  · rfl

theorem relink_follower {m : WordMemory} {a q x : Nat} {cs : List Chunk}
    (h : x < a + 12 ∨ a + 16 ≤ x) : relink m (follower a cs 0) q x = m x := by
  cases cs with
  | nil => rfl
  | cons => exact relink_apart h

theorem Layout.relink {m : WordMemory} {p q a : Nat} {cs : List Chunk} (hl : Layout m p a cs 0)
    (ha : a ≠ 0) (hq : q < 2 ^ 32) : Layout (relink m (follower a cs 0) q) q a cs 0 := by
  cases cs with
  | nil => trivial
  | cons c cs =>
    obtain ⟨h₁, h₂, h₃, -, h₅⟩ := hl
    have hm : Os.relink m (follower a (c :: cs) 0) q = setPrev m a q := if_pos ha
    rw [hm]
    refine ⟨size_setPrev.trans h₁, used_setPrev.trans h₂, next_setPrev.trans h₃,
      prev_setPrev hq, h₅.congr fun x hx _ => ?_⟩
    exact (setPrev_apart (by omega)).symm

/-- Relinking does not touch the payloads of the blocks. -/
theorem SamePayloads.relink (m : WordMemory) (a q : Nat) (cs : List Chunk) :
    SamePayloads m (relink m (follower a cs 0) q) (payloads a cs) := by
  intro r hr x hx _
  have := payloads_bounds hr
  exact (relink_follower (by omega)).symm

/-! ## Splitting and merging -/

/-- What the changes to a block leave alone: all bytes before it and after the last block, and the
payloads of the blocks after it. -/
structure Frame (m m' : WordMemory) (a : Nat) (c : Chunk) (cs : List Chunk) : Prop where
  before : ∀ x < a, m x = m' x
  after : ∀ x, a + span (c :: cs) ≤ x → m x = m' x
  rest : SamePayloads m m' (payloads (a + 16 + c.size) cs)

/-- A header written at `x`. -/
theorem newHeader {m : WordMemory} {x s n p : Nat} {u : Bool} (hs : s < 2 ^ 32) (hn : n < 2 ^ 32)
    (hp : p < 2 ^ 32) :
    let m' := setPrev (setNext (setUsed (setSize m x s) x u) x n) x p
    size m' x = s ∧ used m' x = u ∧ next m' x = n ∧ prev m' x = p ∧
      ∀ z, z < x ∨ x + 16 ≤ z → m' z = m z := by
  refine ⟨?_, ?_, ?_, prev_setPrev hp, fun z hz => ?_⟩
  · rw [size_setPrev, size_setNext, size_setUsed, size_setSize hs]
  · rw [used_setPrev, used_setNext, used_setUsed]
  · rw [next_setPrev, next_setNext hn]
  · rw [setPrev_apart hz, setNext_apart hz, setUsed_apart hz, setSize_apart hz]

theorem follower_lt {a b : Nat} {cs : List Chunk} (h : a + span cs ≤ b) (hb : 0 < b) :
    follower a cs 0 < b := by
  cases cs with
  | nil => exact hb
  | cons c cs =>
    rw [span] at h
    rw [follower]
    omega

theorem Layout.split {m : WordMemory} {p a n : Nat} {c : Chunk} {cs : List Chunk}
    (hl : Layout m p a (c :: cs) 0) (hlt : a + span (c :: cs) ≤ 2 ^ 32) (hn : n + 24 ≤ c.size) :
    Layout (splitIfWorthwhile m a n) p a (⟨n, c.used⟩ :: ⟨c.size - n - 16, false⟩ :: cs) 0 ∧
      Frame m (splitIfWorthwhile m a n) a c cs := by
  obtain ⟨h₁, h₂, h₃, h₄, h₅⟩ := hl
  rw [span] at hlt
  have hend : a + 16 + n + 16 + (c.size - n - 16) = a + 16 + c.size := by omega
  have hrem : sub32 (size m a) n = c.size - n := by
    rw [h₁, sub32]
    omega
  have hsub : sub32 (c.size - n) 16 = c.size - n - 16 := by
    rw [sub32]
    omega
  -- first the new header
  obtain ⟨mA, hmA⟩ : ∃ mA, mA = setPrev (setNext (setUsed (setSize m (a + 16 + n)
    (c.size - n - 16)) (a + 16 + n) false) (a + 16 + n) (next m a)) (a + 16 + n) a := ⟨_, rfl⟩
  have hnew := newHeader (m := m) (x := a + 16 + n) (s := c.size - n - 16)
    (n := next m a) (p := a) (u := false) (by omega)
    (by rw [h₃]; exact follower_lt (by omega) (by omega)) (by omega)
  rw [← hmA] at hnew
  obtain ⟨n₁, n₂, n₃, n₄, n₅⟩ := hnew
  obtain ⟨-, a₂, a₃, a₄⟩ := header_congr (x := a) fun z hz hz' => n₅ z (by omega)
  rw [h₃] at a₃ n₃
  -- then the block after it
  obtain ⟨mB, hmB⟩ : ∃ mB, mB = Os.relink mA (follower (a + 16 + c.size) cs 0) (a + 16 + n) :=
    ⟨_, rfl⟩
  have hB : ∀ x, x < a + 16 + c.size + 12 → mB x = mA x := fun x hx => by
    rw [hmB]
    exact relink_follower (.inl hx)
  have hlB : Layout mB (a + 16 + n) (a + 16 + c.size) cs 0 := by
    rw [hmB]
    exact (h₅.congr fun x hx _ => (n₅ x (by omega)).symm).relink (by omega) (by omega)
  obtain ⟨-, b₂, -, b₄⟩ := header_congr (x := a) fun z hz hz' => hB z (by omega)
  -- last the old header
  have hsplit : splitIfWorthwhile m a n =
      setSize (setNext mB a (a + 16 + n)) a n := by
    unfold splitIfWorthwhile blockPayload BlockHeader.SIZE MIN_SPLIT_PAYLOAD
    rw [hrem]
    dsimp only
    have hread : next (setUsed (setSize m (a + 16 + n) (c.size - n - 16)) (a + 16 + n) false) a =
        next m a := by
      refine (header_congr fun z hz hz' => ?_).2.2.1
      rw [setUsed_apart (by omega), setSize_apart (by omega)]
    rw [if_neg (by omega), hsub, hread, ← hmA, a₃, hmB, Os.relink]
  have hC : ∀ x, x < a ∨ a + 16 ≤ x → splitIfWorthwhile m a n x = mB x := fun x hx => by
    rw [hsplit, setSize_apart hx, setNext_apart hx]
  refine ⟨⟨?_, ?_, ?_, ?_, ?_, ?_, ?_, ?_, ?_⟩, fun x hx => ?_, fun x hx => ?_, ?_⟩
  · rw [hsplit, size_setSize (by omega : n < 2 ^ 32)]
  · rw [hsplit, used_setSize, used_setNext, b₂, a₂, h₂]
  · rw [hsplit, next_setSize, next_setNext (by omega)]
    rfl
  · rw [hsplit, prev_setSize, prev_setNext, b₄, a₄, h₄]
  · obtain ⟨e, -, -, -⟩ := header_congr (x := a + 16 + n) fun z hz hz' =>
      (hC z (by omega)).trans (hB z (by omega))
    rw [e, n₁]
  · obtain ⟨-, e, -, -⟩ := header_congr (x := a + 16 + n) fun z hz hz' =>
      (hC z (by omega)).trans (hB z (by omega))
    rw [e, n₂]
  · obtain ⟨-, -, e, -⟩ := header_congr (x := a + 16 + n) fun z hz hz' =>
      (hC z (by omega)).trans (hB z (by omega))
    rw [e, n₃, hend]
  · obtain ⟨-, -, -, e⟩ := header_congr (x := a + 16 + n) fun z hz hz' =>
      (hC z (by omega)).trans (hB z (by omega))
    rw [e, n₄]
  · rw [hend]
    exact hlB.congr fun x hx _ => (hC x (by omega)).symm
  · rw [hC x (by omega), hB x (by omega), n₅ x (by omega)]
  · rw [span] at hx
    have hBx : mB x = mA x := by
      rw [hmB]
      cases cs with
      | nil => rfl
      | cons d cs =>
        rw [span] at hx
        exact relink_follower (.inr (by omega))
    rw [hC x (by omega), hBx, n₅ x (by omega)]
  · have hrest : SamePayloads mA mB (payloads (a + 16 + c.size) cs) := by
      rw [hmB]
      exact SamePayloads.relink _ _ _ _
    refine (SamePayloads.of_range fun x hx _ => (n₅ x (by omega)).symm).trans
      (hrest.trans (SamePayloads.of_range fun x hx _ => (hC x (by omega)).symm))

theorem Layout.absorb {m : WordMemory} {p a : Nat} {c d : Chunk} {cs : List Chunk}
    (hl : Layout m p a (c :: d :: cs) 0) (hlt : a + span (c :: d :: cs) ≤ 2 ^ 32) :
    Layout (absorb m a (a + 16 + c.size)) p a (⟨c.size + 16 + d.size, c.used⟩ :: cs) 0 ∧
      Frame m (absorb m a (a + 16 + c.size)) a ⟨c.size + 16 + d.size, c.used⟩ cs := by
  obtain ⟨h₁, h₂, -, h₄, k₁, -, k₃, -, k₅⟩ := hl
  rw [span, span] at hlt
  have hend : a + 16 + (c.size + 16 + d.size) = a + 16 + c.size + 16 + d.size := by omega
  have hsize : add32 (size m a) (add32 16 (size m (a + 16 + c.size))) = c.size + 16 + d.size := by
    rw [h₁, k₁, add32, add32]
    omega
  have hnext : next m (a + 16 + c.size) < 2 ^ 32 := by
    rw [k₃]
    exact follower_lt (by omega) (by omega)
  -- first the header of the block
  obtain ⟨mA, hmA⟩ : ∃ mA, mA = setNext (setSize m a (c.size + 16 + d.size)) a
    (next m (a + 16 + c.size)) := ⟨_, rfl⟩
  have hA : ∀ x, x < a ∨ a + 16 ≤ x → mA x = m x := fun x hx => by
    rw [hmA, setNext_apart hx, setSize_apart hx]
  have a₁ : size mA a = c.size + 16 + d.size := by
    rw [hmA, size_setNext, size_setSize (by omega)]
  have a₂ : used mA a = c.used := by rw [hmA, used_setNext, used_setSize, h₂]
  have a₃ : next mA a = follower (a + 16 + c.size + 16 + d.size) cs 0 := by
    rw [hmA, next_setNext hnext, k₃]
  have a₄ : prev mA a = p := by rw [hmA, prev_setNext, prev_setSize, h₄]
  -- then the block after the one merged into it
  have habsorb : Os.absorb m a (a + 16 + c.size) =
      Os.relink mA (follower (a + 16 + c.size + 16 + d.size) cs 0) a := by
    unfold Os.absorb BlockHeader.SIZE
    have hread : next (setSize m a (c.size + 16 + d.size)) (a + 16 + c.size) =
        next m (a + 16 + c.size) :=
      (header_congr fun z hz _ => setSize_apart (by omega)).2.2.1
    dsimp only
    rw [hsize, hread, ← hmA, a₃, Os.relink]
  have hB : ∀ x, x < a + 16 → Os.absorb m a (a + 16 + c.size) x = mA x := fun x hx => by
    rw [habsorb]
    exact relink_follower (.inl (by omega))
  obtain ⟨b₁, b₂, b₃, b₄⟩ := header_congr (x := a) fun z hz hz' => hB z (by omega)
  refine ⟨⟨b₁.trans a₁, b₂.trans a₂, ?_, b₄.trans a₄, ?_⟩, fun x hx => ?_, fun x hx => ?_, ?_⟩
  · rw [b₃, a₃, hend]
  · rw [hend, habsorb]
    exact (k₅.congr fun x hx _ => (hA x (by omega)).symm).relink (by omega) (by omega)
  · rw [hB x (by omega), hA x (by omega)]
  · rw [span] at hx
    rw [habsorb]
    have hBx : Os.relink mA (follower (a + 16 + c.size + 16 + d.size) cs 0) a x = mA x := by
      cases cs with
      | nil => rfl
      | cons e cs =>
        rw [span] at hx
        dsimp only at hx
        exact relink_follower (.inr (by omega))
    rw [hBx, hA x (by omega)]
  · rw [hend, habsorb]
    exact (SamePayloads.of_range fun x hx _ => (hA x (by omega)).symm).trans
      (SamePayloads.relink _ _ _ _)

theorem Layout.setUsed {m : WordMemory} {p a nxt : Nat} {c : Chunk} {cs : List Chunk}
    (hl : Layout m p a (c :: cs) nxt) (u : Bool) :
    Layout (setUsed m a u) p a (⟨c.size, u⟩ :: cs) nxt ∧ Frame m (setUsed m a u) a c cs := by
  obtain ⟨h₁, -, h₃, h₄, h₅⟩ := hl
  have hx : ∀ x, x < a ∨ a + 16 ≤ x → m x = BlockHeader.setUsed m a u x :=
    fun x hx => (setUsed_apart hx).symm
  refine ⟨⟨size_setUsed.trans h₁, used_setUsed, next_setUsed.trans h₃, prev_setUsed.trans h₄,
    h₅.congr fun x h _ => hx x (by omega)⟩, fun x h => hx x (.inl h), fun x h => hx x (.inr ?_),
    SamePayloads.of_range fun x h _ => hx x (by omega)⟩
  rw [span] at h
  omega

/-- A change within a list of blocks. -/
theorem Layout.replace {m m' : WordMemory} {p a : Nat} {c d e : Chunk} {cs₁ cs ds es : List Chunk}
    (hl : Layout m p a (cs₁ ++ c :: cs) 0) (hf : Frame m m' (a + span cs₁) e es)
    (hl' : Layout m' (lastBlock p a cs₁) (a + span cs₁) (d :: ds) 0) :
    Layout m' p a (cs₁ ++ d :: ds) 0 :=
  layout_append.mpr ⟨(layout_append.mp hl).1.congr fun x _ hx => hf.before x hx, hl'⟩

end Os
end Techuila
