import Techuila.Oglang.CodeRuns
import Techuila.Oglang.Storage

/-!
# Variables in the memory of the intermediate code

* `Stores`: the cells of the memory hold the variables of the activations.
* `Keeps`: what a piece of the program leaves as it is, in the source and in the memory.
* `Holds`: where the value of an operand is.
* `elementCode_goes`, `fieldCode_goes`: addresses of array elements and struct fields.
-/

namespace Techuila
namespace Oglang

/-! ## Representation -/

/-- A value of the intermediate code stands for a value of the source, among `n` activations with
the tables `F`. -/
def Represents (F : Nat → Names) (n : Nat) : Datum → Value → Prop
  | .int b, w => w = .int b
  | .ref j name, w => j < n ∧ ∃ block c, w = .ptr ⟨j, block, 0⟩ ∧ block[0]? = some c ∧
      (F j).cell (.var name) = some c

theorem Represents.mono {F : Nat → Names} {n n' : Nat} (hn : n ≤ n') {x : Datum} {w : Value}
    (h : Represents F n x w) : Represents F n' x w := by
  cases x with
  | int => exact h
  | ref j name => exact ⟨h.1.trans_le hn, h.2⟩

theorem Represents.congr {F G : Nat → Names} {n : Nat} (hFG : ∀ k < n, G k = F k) {x : Datum}
    {w : Value} (h : Represents F n x w) : Represents G n x w := by
  cases x with
  | int => exact h
  | ref j name => exact ⟨h.1, by rw [hFG j h.1]; exact h.2⟩

/-- The memory holds the variables of the first `n` activations. -/
structure Stores (F : Nat → Names) (n : Nat) (s : Activations) (m : Memory) : Prop where
  apart : ∀ k < n, (F k).Apart
  contents : ∀ k < n, ∀ p x, (s k).contents p = some x →
    ∃ c w, (F k).cell p = some c ∧ m k c = some w ∧ Represents F (k + 1) x w
  arrays : ∀ k < n, ∀ a size, (s k).arrays.find a = some size →
    ∃ cells, (F k).arrays.find a = some cells ∧ cells.length = size
  structVars : ∀ k < n, ∀ x structType, (s k).structVars.find x = some structType →
    (F k).structVarTypes.find x = some structType ∧ ∃ cells, (F k).structVars.find x = some cells

/-- The same variables have a value. -/
structure Locals.Same (l l' : Locals) : Prop where
  contents : ∀ p, l'.contents p = none ↔ l.contents p = none
  arrays : l'.arrays = l.arrays
  structVars : l'.structVars = l.structVars

/-- `c` is the cell of a variable that has a value. -/
def Occupied (F : Nat → Names) (s : Activations) (k : Nat) (c : Int) : Prop :=
  ∃ p, (s k).contents p ≠ none ∧ (F k).cell p = some c

/-- The first `n` activations keep their variables, and the cells that hold none are unchanged; in
the last activation that is said of the cells in `K` only. -/
structure Keeps (F : Nat → Names) (n : Nat) (K : Int → Prop) (s : Activations) (m : Memory)
    (s' : Activations) (m' : Memory) : Prop where
  same : ∀ k < n, (s k).Same (s' k)
  kept : ∀ k < n, ∀ c, (k + 1 = n → K c) → ¬ Occupied F s k c → m' k c = m k c

/-- Only cells of the activation `d` from `k` on and before `k'` changed. -/
def Scratch (d : Nat) (k k' : Int) (m m' : Memory) : Prop :=
  ∀ j c, ¬ (j = d ∧ k ≤ c ∧ c < k') → m' j c = m j c

/-- No variable has its cell from `k` on and before `k'`. -/
def Clear (F : Nat → Names) (s : Activations) (d : Nat) (k k' : Int) : Prop :=
  ∀ c, Occupied F s d c → c < k ∨ k' ≤ c

theorem Memory.set_depth_of_ne {m : Memory} {d j : Nat} {c : Int} {w : Value} (h : j ≠ d) :
    m.set d c w j = m j := by simp [Memory.set, h]

section

variable {F : Nat → Names} {n d : Nat} {s s' s'' : Activations} {m m' m'' : Memory} {k k' : Int}
  {K : Int → Prop}

namespace Locals.Same

theorem refl (l : Locals) : l.Same l := ⟨fun _ => Iff.rfl, rfl, rfl⟩

theorem trans {l l' l'' : Locals} (h : l.Same l') (h' : l'.Same l'') : l.Same l'' :=
  ⟨fun p => (h'.contents p).trans (h.contents p), h'.arrays.trans h.arrays,
    h'.structVars.trans h.structVars⟩

theorem occupied (h : (s d).Same (s' d)) {c : Int} : Occupied F s' d c ↔ Occupied F s d c := by
  unfold Occupied
  simp only [ne_eq, h.contents]

theorem clear (h : (s d).Same (s' d)) (hc : Clear F s d k k') : Clear F s' d k k' :=
  fun c ho => hc c (h.occupied.mp ho)

end Locals.Same

theorem Clear.mono (h : Clear F s d k k') {l l' : Int} (hl : k ≤ l) (hl' : l' ≤ k') :
    Clear F s d l l' := fun c ho => by
  have := h c ho
  omega

namespace Keeps

theorem refl : Keeps F n K s m s m := ⟨fun _ _ => .refl _, fun _ _ _ _ _ => rfl⟩

theorem trans (h : Keeps F n K s m s' m') (h' : Keeps F n K s' m' s'' m'') :
    Keeps F n K s m s'' m'' where
  same k hk := (h.same k hk).trans (h'.same k hk)
  kept k hk c hc ho := by
    rw [h'.kept k hk c hc fun ho' => ho ((h.same k hk).occupied.mp ho'), h.kept k hk c hc ho]

theorem mono {K' : Int → Prop} (hK : ∀ c, K' c → K c) (h : Keeps F n K s m s' m') :
    Keeps F n K' s m s' m' :=
  ⟨h.same, fun k hk c hc => h.kept k hk c fun e => hK c (hc e)⟩

/-- The activations below. -/
theorem below (h : Keeps F (n + 1) K s m s' m') {K' : Int → Prop} : Keeps F n K' s m s' m' :=
  ⟨fun k hk => h.same k (hk.trans (Nat.lt_succ_self n)), fun k hk c _ =>
    h.kept k (hk.trans (Nat.lt_succ_self n)) c fun e => by omega⟩

theorem congr {G : Nat → Names} (hFG : ∀ k < n, G k = F k) (h : Keeps F n K s m s' m') :
    Keeps G n K s m s' m' where
  same := h.same
  kept k hk c hc ho := h.kept k hk c hc fun ⟨p, hp, he⟩ => ho ⟨p, hp, by rw [hFG k hk]; exact he⟩

theorem scratch (h : Scratch d k k' m m') : Keeps F (d + 1) (· < k) s m s m' where
  same _ _ := .refl _
  kept j _ c hc _ := h j c fun ⟨hj, hk, _⟩ => by
    have := hc (by omega)
    omega

end Keeps

namespace Scratch

theorem refl : Scratch d k k' m m := fun _ _ _ => rfl

theorem set {x : Value} {c : Int} (h : Scratch d k k' m m') (hc : k ≤ c) (hc' : c < k') :
    Scratch d k k' m (m'.set d c x) := fun j u hu => by
  rw [Memory.set_apply, if_neg, h j u hu]
  rintro ⟨rfl, rfl⟩
  exact hu ⟨rfl, hc, hc'⟩

theorem mono (h : Scratch d k k' m m') {l l' : Int} (hl : l ≤ k) (hl' : k' ≤ l') :
    Scratch d l l' m m' := fun j c hc => h j c fun ⟨hj, hk⟩ => hc ⟨hj, by omega⟩

theorem of_ne (h : Scratch d k k' m m') {j : Nat} (hj : j ≠ d) : m' j = m j :=
  funext fun c => h j c fun e => hj e.1

theorem occupied (h : Scratch d k k' m m') (hc : Clear F s d k k') {c : Int}
    (ho : Occupied F s d c) : m' d c = m d c := h d c fun ⟨_, hk⟩ => by
  have := hc c ho
  omega

end Scratch

namespace Stores

theorem congr {G : Nat → Names} (hFG : ∀ k < n, G k = F k) (h : Stores F n s m) :
    Stores G n s m where
  apart k hk := by rw [hFG k hk]; exact h.apart k hk
  contents k hk p x hx := by
    obtain ⟨c, w, hc, hm, hw⟩ := h.contents k hk p x hx
    exact ⟨c, w, by rw [hFG k hk]; exact hc, hm, hw.congr fun j hj => hFG j (by omega)⟩
  arrays k hk := by rw [hFG k hk]; exact h.arrays k hk
  structVars k hk := by rw [hFG k hk]; exact h.structVars k hk

theorem below (h : Stores F (n + 1) s m) : Stores F n s m where
  apart k hk := h.apart k (hk.trans (Nat.lt_succ_self n))
  contents k hk := h.contents k (hk.trans (Nat.lt_succ_self n))
  arrays k hk := h.arrays k (hk.trans (Nat.lt_succ_self n))
  structVars k hk := h.structVars k (hk.trans (Nat.lt_succ_self n))

/-- The contents of the occupied cells matter. -/
theorem move (h : Stores F n s m) (hm : ∀ k < n, ∀ c, Occupied F s k c → m' k c = m k c) :
    Stores F n s m' where
  apart := h.apart
  contents k hk p x hx := by
    obtain ⟨c, w, hc, hmem, hw⟩ := h.contents k hk p x hx
    exact ⟨c, w, hc, (hm k hk c ⟨p, by simp [hx], hc⟩).trans hmem, hw⟩
  arrays := h.arrays
  structVars := h.structVars

theorem scratch (h : Stores F (d + 1) s m) (hc : Clear F s d k k') (hs : Scratch d k k' m m') :
    Stores F (d + 1) s m' :=
  h.move fun j _ c ho => hs j c fun ⟨hj, hk⟩ => by
    subst hj
    have := hc c ho
    omega

/-- A variable loses its value. -/
theorem forget (h : Stores F n s m) (d : Nat) (p : Place) :
    Stores F n (s.update d (·.set p none)) m where
  apart := h.apart
  contents k hk q x hx := by
    rw [Activations.set_contents] at hx
    split at hx
    · cases hx
    · exact h.contents k hk q x hx
  arrays k hk := by simpa using h.arrays k hk
  structVars k hk := by simpa using h.structVars k hk

/-- A variable gets a value, and its cell does. -/
theorem write (h : Stores F n s m) {p : Place} {c : Int} (hc : (F d).cell p = some c) {x : Datum}
    {w : Value} (hw : Represents F (d + 1) x w) :
    Stores F n (s.update d (·.set p (some x))) (m.set d c w) where
  apart := h.apart
  contents k hk q y hy := by
    rw [Activations.set_contents] at hy
    split at hy
    · rename_i hq
      obtain ⟨rfl, rfl⟩ := hq
      cases hy
      exact ⟨c, w, hc, Memory.set_self _ _ _ _, hw⟩
    · rename_i hq
      obtain ⟨u, v, hu, hm, hv⟩ := h.contents k hk q y hy
      refine ⟨u, v, hu, ?_, hv⟩
      rw [Memory.set_apply, if_neg, hm]
      rintro ⟨rfl, rfl⟩
      exact hq ⟨rfl, h.apart k hk q p u hu hc⟩
  arrays k hk := by simpa using h.arrays k hk
  structVars k hk := by simpa using h.structVars k hk

/-- The number in a place. -/
theorem number (h : Stores F n s m) (hd : d < n) {p : Place} {b : BitVec 32}
    (hb : s.number d p = some b) : ∃ c, (F d).cell p = some c ∧ m d c = some (.int b) := by
  obtain ⟨x, hx, hb⟩ := Option.bind_eq_some_iff.mp hb
  obtain rfl := Datum.int?_eq_some.mp hb
  obtain ⟨c, w, hc, hm, rfl⟩ := h.contents d hd p _ hx
  exact ⟨c, hc, hm⟩

end Stores

/-- An assignment keeps the variables that have a value. -/
theorem Keeps.write {j : Nat} {p : Place} {c : Int} (hc : (F j).cell p = some c)
    (hp : (s j).contents p ≠ none) {x : Datum} {w : Value} :
    Keeps F n K s m (s.update j (·.set p (some x))) (m.set j c w) where
  same k _ := by
    refine ⟨fun q => ?_, by simp, by simp⟩
    rw [Activations.set_contents]
    split
    · rename_i hq
      simp [hq, hp]
    · exact Iff.rfl
  kept k _ u _ hu := by
    rw [Memory.set_apply, if_neg]
    rintro ⟨rfl, rfl⟩
    exact hu ⟨p, hp, hc⟩

/-- The variables of the last activation change, and its cells do. -/
theorem Keeps.update {g : Locals → Locals} (hm : ∀ j < d, m' j = m j) :
    Keeps F d K s m (s.update d g) m' :=
  ⟨fun _ hk => by rw [Activations.update_of_ne (Nat.ne_of_lt hk)]; exact .refl _,
    fun j hj _ _ _ => by rw [hm j hj]⟩

end

end Oglang
end Techuila
