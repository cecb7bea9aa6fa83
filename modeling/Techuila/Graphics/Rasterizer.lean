import Mathlib.Algebra.Order.Field.Rat
import Mathlib.Data.List.Nodup
import Mathlib.Data.Rat.Floor
import Mathlib.Tactic.FieldSimp
import Mathlib.Tactic.Linarith
import Mathlib.Tactic.LinearCombination
import Techuila.Lib.CellScan
import Techuila.Lib.FirstLeast

/-!
# The rasterizer (`17-graphics/render/framebuffer.hpp`, `framebuffer.cpp`, `rasterizer.cpp`)

Coordinates and depths are rationals; the depth that is infinite is `none`.

* `FrameBuffer`: colours and depths of `width * height` pixels. An access outside of them is `none`.
* `rasterizeTriangle`: the scan over the bounding box.
* `Triangle.Covers`: what is to be drawn, by convex combinations of the corners.
-/

namespace Techuila
namespace Graphics

structure Color where
  r : UInt8 := 0
  g : UInt8 := 0
  b : UInt8 := 0
  deriving DecidableEq, Repr

structure ScreenVertex where
  x : Rat := 0
  y : Rat := 0
  depth : Rat := 0
  deriving DecidableEq, Repr

structure FrameBuffer (width height : Nat) where
  pixels : Vector Color (width * height)
  depths : Vector (Option Rat) (width * height)

namespace FrameBuffer

variable {width height : Nat}

def clear (fb : FrameBuffer width height) (color : Color) : FrameBuffer width height :=
  ⟨fb.pixels.map fun _ => color, fb.depths.map fun _ => none⟩

def getPixel (fb : FrameBuffer width height) (x y : Nat) : Option Color :=
  fb.pixels[y * width + x]?

def setPixel (fb : FrameBuffer width height) (x y : Nat) (color : Color) :
    Option (FrameBuffer width height) :=
  if h : y * width + x < width * height then some { fb with pixels := fb.pixels.set _ color h }
  else none

def getDepth (fb : FrameBuffer width height) (x y : Nat) : Option (Option Rat) :=
  fb.depths[y * width + x]?

def setDepth (fb : FrameBuffer width height) (x y : Nat) (depth : Rat) :
    Option (FrameBuffer width height) :=
  if h : y * width + x < width * height then some { fb with depths := fb.depths.set _ depth h }
  else none

end FrameBuffer

def edgeFunction (a b : ScreenVertex) (px py : Rat) : Rat :=
  (px - a.x) * (b.y - a.y) - (py - a.y) * (b.x - a.x)

/-- The values of a loop from `lo` to `hi`. -/
def longs (lo hi : Int) : List Int := (List.range (hi + 1 - lo).toNat).map fun k : Nat => lo + (k : Int)

structure Triangle where
  v0 : ScreenVertex
  v1 : ScreenVertex
  v2 : ScreenVertex
  color : Color
  deriving DecidableEq, Repr

variable {width height : Nat}

/-- The body of the inner loop. -/
def shade (t : Triangle) (area : Rat) (fb : FrameBuffer width height) (x y : Int) :
    Option (FrameBuffer width height) :=
  let px : Rat := x + 1 / 2
  let py : Rat := y + 1 / 2
  let w0 := edgeFunction t.v1 t.v2 px py
  let w1 := edgeFunction t.v2 t.v0 px py
  let w2 := edgeFunction t.v0 t.v1 px py
  let inside := (w0 ≥ 0 ∧ w1 ≥ 0 ∧ w2 ≥ 0) ∨ (w0 ≤ 0 ∧ w1 ≤ 0 ∧ w2 ≤ 0)
  if ¬ inside then some fb
  else do
    let b0 := w0 / area
    let b1 := w1 / area
    let b2 := w2 / area
    let depth := b0 * t.v0.depth + b1 * t.v1.depth + b2 * t.v2.depth
    let ux := x.toNat
    let uy := y.toNat
    let old ← fb.getDepth ux uy
    if old.all fun old => depth < old then
      let fb ← fb.setPixel ux uy t.color
      fb.setDepth ux uy depth
    else some fb

def rasterizeTriangle (fb : FrameBuffer width height) (t : Triangle) :
    Option (FrameBuffer width height) :=
  let area := edgeFunction t.v0 t.v1 t.v2.x t.v2.y
  if area = 0 then some fb
  else
    let minXd := min (min t.v0.x t.v1.x) t.v2.x
    let maxXd := max (max t.v0.x t.v1.x) t.v2.x
    let minYd := min (min t.v0.y t.v1.y) t.v2.y
    let maxYd := max (max t.v0.y t.v1.y) t.v2.y
    let minX := max 0 minXd.floor
    let maxX := min ((width : Int) - 1) maxXd.ceil
    let minY := max 0 minYd.floor
    let maxY := min ((height : Int) - 1) maxYd.ceil
    (longs minY maxY).foldlM
      (fun fb y => (longs minX maxX).foldlM (fun fb x => shade t area fb x y) fb) fb

/-- The triangles one after the other. -/
def rasterize (fb : FrameBuffer width height) (triangles : List Triangle) :
    Option (FrameBuffer width height) :=
  triangles.foldlM rasterizeTriangle fb

/-! ## What is to be drawn -/

/-- The corners are not on a line. -/
def Triangle.Proper (t : Triangle) : Prop :=
  (t.v1.x - t.v0.x) * (t.v2.y - t.v0.y) ≠ (t.v2.x - t.v0.x) * (t.v1.y - t.v0.y)

/-- The point is a convex combination of the corners, and `depth` is that of their depths. -/
def Triangle.Covers (t : Triangle) (px py depth : Rat) : Prop :=
  t.Proper ∧ ∃ b0 b1 b2 : Rat, 0 ≤ b0 ∧ 0 ≤ b1 ∧ 0 ≤ b2 ∧ b0 + b1 + b2 = 1 ∧
    px = b0 * t.v0.x + b1 * t.v1.x + b2 * t.v2.x ∧
    py = b0 * t.v0.y + b1 * t.v1.y + b2 * t.v2.y ∧
    depth = b0 * t.v0.depth + b1 * t.v1.depth + b2 * t.v2.depth

/-- The depth that is interpolated where the three edge functions agree. -/
def Triangle.depthAt (t : Triangle) (px py : Rat) : Option Rat :=
  let area := edgeFunction t.v0 t.v1 t.v2.x t.v2.y
  let w0 := edgeFunction t.v1 t.v2 px py
  let w1 := edgeFunction t.v2 t.v0 px py
  let w2 := edgeFunction t.v0 t.v1 px py
  if area ≠ 0 ∧ ((w0 ≥ 0 ∧ w1 ≥ 0 ∧ w2 ≥ 0) ∨ (w0 ≤ 0 ∧ w1 ≤ 0 ∧ w2 ≤ 0)) then
    some (w0 / area * t.v0.depth + w1 / area * t.v1.depth + w2 / area * t.v2.depth)
  else none

theorem edge_sum (a b c : ScreenVertex) (px py : Rat) :
    edgeFunction b c px py + edgeFunction c a px py + edgeFunction a b px py =
      edgeFunction a b c.x c.y := by
  simp only [edgeFunction]
  ring

theorem proper_iff (t : Triangle) : t.Proper ↔ edgeFunction t.v0 t.v1 t.v2.x t.v2.y ≠ 0 := by
  unfold Triangle.Proper edgeFunction
  rw [ne_eq, ne_eq, sub_eq_zero, not_iff_not]
  constructor <;> intro h <;> linear_combination -h

/-- The edge functions at a convex combination are its coefficients, times the area. -/
theorem edge_combination (a b c : ScreenVertex) {b0 b1 b2 px py : Rat} (hsum : b0 + b1 + b2 = 1)
    (hx : px = b0 * a.x + b1 * b.x + b2 * c.x) (hy : py = b0 * a.y + b1 * b.y + b2 * c.y) :
    edgeFunction a b px py = b2 * edgeFunction a b c.x c.y := by
  have hb : b0 = 1 - b1 - b2 := by linarith
  simp only [edgeFunction, hx, hy, hb]
  ring

theorem edge_turn (a b c : ScreenVertex) : edgeFunction b c a.x a.y = edgeFunction a b c.x c.y := by
  simp only [edgeFunction]
  ring

theorem edge_weighted (a b c : ScreenVertex) (px py : Rat) :
    edgeFunction b c px py * a.x + edgeFunction c a px py * b.x + edgeFunction a b px py * c.x =
      edgeFunction a b c.x c.y * px ∧
    edgeFunction b c px py * a.y + edgeFunction c a px py * b.y + edgeFunction a b px py * c.y =
      edgeFunction a b c.x c.y * py := by
  simp only [edgeFunction]
  constructor <;> ring

/-- Three numbers of one sign have the sign of their sum. -/
theorem div_sum_nonneg {w0 w1 w2 area : Rat} (hsum : w0 + w1 + w2 = area)
    (h : (w0 ≥ 0 ∧ w1 ≥ 0 ∧ w2 ≥ 0) ∨ (w0 ≤ 0 ∧ w1 ≤ 0 ∧ w2 ≤ 0)) :
    0 ≤ w0 / area ∧ 0 ≤ w1 / area ∧ 0 ≤ w2 / area := by
  rcases h with ⟨h0, h1, h2⟩ | ⟨h0, h1, h2⟩
  · have harea : 0 ≤ area := by linarith
    exact ⟨div_nonneg h0 harea, div_nonneg h1 harea, div_nonneg h2 harea⟩
  · have harea : area ≤ 0 := by linarith
    exact ⟨div_nonneg_of_nonpos h0 harea, div_nonneg_of_nonpos h1 harea,
      div_nonneg_of_nonpos h2 harea⟩

/-- The test of the edge functions is that for convex combinations. -/
theorem depthAt_eq_some {t : Triangle} {px py depth : Rat} :
    t.depthAt px py = some depth ↔ t.Covers px py depth := by
  obtain ⟨hwx, hwy⟩ := edge_weighted t.v0 t.v1 t.v2 px py
  have hsum := edge_sum t.v0 t.v1 t.v2 px py
  unfold Triangle.depthAt Triangle.Covers
  rw [proper_iff]
  constructor
  · intro h
    dsimp only at h
    split at h
    · rename_i hin
      obtain ⟨harea, hin⟩ := hin
      obtain ⟨h0, h1, h2⟩ := div_sum_nonneg hsum hin
      refine ⟨harea, _, _, _, h0, h1, h2, ?_, ?_, ?_, (Option.some_inj.mp h).symm⟩
      · rw [← add_div, ← add_div, hsum, div_self harea]
      · rw [div_mul_eq_mul_div, div_mul_eq_mul_div, div_mul_eq_mul_div, ← add_div, ← add_div, hwx,
          mul_div_cancel_left₀ _ harea]
      · rw [div_mul_eq_mul_div, div_mul_eq_mul_div, div_mul_eq_mul_div, ← add_div, ← add_div, hwy,
          mul_div_cancel_left₀ _ harea]
    · cases h
  · rintro ⟨harea, b0, b1, b2, h0, h1, h2, hone, hx, hy, rfl⟩
    have hw2 : edgeFunction t.v0 t.v1 px py = b2 * edgeFunction t.v0 t.v1 t.v2.x t.v2.y :=
      edge_combination _ _ _ hone hx hy
    have hw0 : edgeFunction t.v1 t.v2 px py = b0 * edgeFunction t.v0 t.v1 t.v2.x t.v2.y := by
      rw [← edge_turn t.v0 t.v1 t.v2]
      exact @edge_combination _ _ _ b1 b2 b0 _ _ (by linarith) (by linarith) (by linarith)
    have hw1 : edgeFunction t.v2 t.v0 px py = b1 * edgeFunction t.v0 t.v1 t.v2.x t.v2.y := by
      rw [← edge_turn t.v0 t.v1 t.v2, ← edge_turn t.v1 t.v2 t.v0]
      exact @edge_combination _ _ _ b2 b0 b1 _ _ (by linarith) (by linarith) (by linarith)
    dsimp only
    rw [hw0, hw1, hw2, mul_div_cancel_right₀ _ harea, mul_div_cancel_right₀ _ harea,
      mul_div_cancel_right₀ _ harea]
    refine if_pos ⟨harea, ?_⟩
    rcases le_total 0 (edgeFunction t.v0 t.v1 t.v2.x t.v2.y) with hs | hs
    · exact .inl ⟨mul_nonneg h0 hs, mul_nonneg h1 hs, mul_nonneg h2 hs⟩
    · exact .inr ⟨mul_nonpos_of_nonneg_of_nonpos h0 hs, mul_nonpos_of_nonneg_of_nonpos h1 hs,
        mul_nonpos_of_nonneg_of_nonpos h2 hs⟩

/-! ## The bounding box -/

/-- A convex combination is between the least and the greatest. -/
theorem combination_bounds {b0 b1 b2 x0 x1 x2 p : Rat} (h0 : 0 ≤ b0) (h1 : 0 ≤ b1) (h2 : 0 ≤ b2)
    (hsum : b0 + b1 + b2 = 1) (hp : p = b0 * x0 + b1 * x1 + b2 * x2) :
    min (min x0 x1) x2 ≤ p ∧ p ≤ max (max x0 x1) x2 := by
  have hl0 : min (min x0 x1) x2 ≤ x0 := (min_le_left _ _).trans (min_le_left _ _)
  have hl1 : min (min x0 x1) x2 ≤ x1 := (min_le_left _ _).trans (min_le_right _ _)
  have hl2 : min (min x0 x1) x2 ≤ x2 := min_le_right _ _
  have hu0 : x0 ≤ max (max x0 x1) x2 := (le_max_left _ _).trans (le_max_left _ _)
  have hu1 : x1 ≤ max (max x0 x1) x2 := (le_max_right _ _).trans (le_max_left _ _)
  have hu2 : x2 ≤ max (max x0 x1) x2 := le_max_right _ _
  generalize min (min x0 x1) x2 = lo at hl0 hl1 hl2
  generalize max (max x0 x1) x2 = hi at hu0 hu1 hu2
  constructor
  · calc lo = b0 * lo + b1 * lo + b2 * lo := by rw [← add_mul, ← add_mul, hsum, one_mul]
      _ ≤ p := hp ▸ add_le_add (add_le_add (mul_le_mul_of_nonneg_left hl0 h0)
        (mul_le_mul_of_nonneg_left hl1 h1)) (mul_le_mul_of_nonneg_left hl2 h2)
  · calc p ≤ b0 * hi + b1 * hi + b2 * hi := hp ▸ add_le_add (add_le_add
          (mul_le_mul_of_nonneg_left hu0 h0) (mul_le_mul_of_nonneg_left hu1 h1))
          (mul_le_mul_of_nonneg_left hu2 h2)
      _ = hi := by rw [← add_mul, ← add_mul, hsum, one_mul]

/-- A pixel whose centre is between two bounds is between their floor and ceiling. -/
theorem centre_bounds {lo hi : Rat} {k : Int} (hl : lo ≤ k + 1 / 2) (hu : (k : Rat) + 1 / 2 ≤ hi) :
    lo.floor ≤ k ∧ k ≤ hi.ceil := by
  have hfloor := (Rat.floor_le lo).trans hl
  have hceil := hu.trans (Rat.le_ceil (x := hi))
  constructor
  · have hlt : (lo.floor : Rat) < ((k + 1 : Int) : Rat) := by
      push_cast
      linarith
    exact Int.lt_add_one_iff.mp (Rat.intCast_lt_intCast.mp hlt)
  · have hle : (k : Rat) ≤ (hi.ceil : Rat) := by linarith
    exact Rat.intCast_le_intCast.mp hle

theorem mem_longs {lo hi k : Int} : k ∈ longs lo hi ↔ lo ≤ k ∧ k ≤ hi := by
  simp only [longs, List.mem_map, List.mem_range]
  constructor
  · rintro ⟨i, hi', rfl⟩
    omega
  · intro h
    exact ⟨(k - lo).toNat, by omega, by omega⟩

theorem nodup_longs (lo hi : Int) : (longs lo hi).Nodup :=
  List.Nodup.map (fun a b h => by simpa using h) List.nodup_range

/-! ## Pixels -/

namespace FrameBuffer

/-- The colour and the depth of a pixel. -/
def cell (fb : FrameBuffer width height) (x y : Nat) : Option (Color × Option Rat) := do
  let color ← fb.getPixel x y
  let depth ← fb.getDepth x y
  some (color, depth)

theorem index_lt {x y : Nat} (hx : x < width) (hy : y < height) :
    y * width + x < width * height := by
  calc y * width + x < (y + 1) * width := by rw [Nat.succ_mul]; exact Nat.add_lt_add_left hx _
    _ ≤ height * width := Nat.mul_le_mul_right _ hy
    _ = width * height := Nat.mul_comm _ _

theorem index_inj {x y x' y' : Nat} (hx : x < width) (hx' : x' < width)
    (h : y * width + x = y' * width + x') : x = x' ∧ y = y' := by
  have hwidth : 0 < width := Nat.zero_lt_of_lt hx
  have hxx : x = x' := by
    have hmod := congrArg (· % width) h
    simpa [Nat.mul_add_mod', Nat.mod_eq_of_lt hx, Nat.mod_eq_of_lt hx'] using hmod
  subst hxx
  exact ⟨rfl, Nat.eq_of_mul_eq_mul_right hwidth (Nat.add_right_cancel h)⟩

/-- A pixel in the picture has a colour and a depth. -/
theorem cell_isSome (fb : FrameBuffer width height) {x y : Nat} (hx : x < width)
    (hy : y < height) : ∃ color depth, fb.getPixel x y = some color ∧
      fb.getDepth x y = some depth ∧ fb.cell x y = some (color, depth) := by
  have hlt := index_lt hx hy
  have hcolor : fb.getPixel x y = some fb.pixels[y * width + x] := Vector.getElem?_eq_getElem hlt
  have hdepth : fb.getDepth x y = some fb.depths[y * width + x] := Vector.getElem?_eq_getElem hlt
  exact ⟨_, _, hcolor, hdepth, by rw [cell, hcolor, hdepth]; rfl⟩

/-- Both writes of a pixel succeed, and change that pixel only. -/
theorem write_spec (fb : FrameBuffer width height) {x y : Nat} (hx : x < width) (hy : y < height)
    (color : Color) (depth : Rat) :
    ∃ fb₁ fb₂, fb.setPixel x y color = some fb₁ ∧ fb₁.setDepth x y depth = some fb₂ ∧
      ∀ x' y', x' < width → fb₂.cell x' y' =
        if x' = x ∧ y' = y then some (color, some depth) else fb.cell x' y' := by
  have hlt := index_lt hx hy
  refine ⟨_, _, dif_pos hlt, dif_pos hlt, fun x' y' hx' => ?_⟩
  unfold cell getPixel getDepth
  by_cases h : x' = x ∧ y' = y
  · rw [if_pos h, h.1, h.2]
    simp only [Vector.getElem?_set_self hlt]
    rfl
  · have hne : y * width + x ≠ y' * width + x' := fun he =>
      h ⟨(index_inj hx hx' he).1.symm, (index_inj hx hx' he).2.symm⟩
    rw [if_neg h]
    simp only [Vector.getElem?_set_ne hlt hne]

theorem cell_clear (fb : FrameBuffer width height) (color : Color) {x y : Nat} (hx : x < width)
    (hy : y < height) : (fb.clear color).cell x y = some (color, none) := by
  have hlt := index_lt hx hy
  simp only [cell, getPixel, getDepth, clear, Vector.getElem?_eq_getElem hlt, Vector.getElem_map]
  rfl

/-- Two buffers with the same pixels are the same. -/
theorem ext_cell {fb fb' : FrameBuffer width height}
    (h : ∀ x < width, ∀ y < height, fb.cell x y = fb'.cell x y) : fb = fb' := by
  have hboth : ∀ i (hi : i < width * height),
      fb.pixels[i] = fb'.pixels[i] ∧ fb.depths[i] = fb'.depths[i] := by
    intro i hi
    have hwidth : 0 < width := Nat.pos_of_ne_zero fun h0 => by
      rw [h0, Nat.zero_mul] at hi
      exact absurd hi (Nat.not_lt_zero _)
    have hx := Nat.mod_lt i hwidth
    have hy : i / width < height := Nat.div_lt_of_lt_mul hi
    have hcell := h _ hx _ hy
    have hindex : i / width * width + i % width = i := Nat.div_add_mod' i width
    simp only [cell, getPixel, getDepth, hindex, Vector.getElem?_eq_getElem hi] at hcell
    exact Prod.mk.inj (Option.some_inj.mp hcell)
  obtain ⟨pixels, depths⟩ := fb
  obtain ⟨pixels', depths'⟩ := fb'
  exact congrArg₂ FrameBuffer.mk (Vector.ext fun i hi => (hboth i hi).1)
    (Vector.ext fun i hi => (hboth i hi).2)

end FrameBuffer

/-- What a triangle does to a pixel. -/
def Triangle.draw (t : Triangle) (x y : Nat) (c : Color × Option Rat) : Color × Option Rat :=
  match t.depthAt (x + 1 / 2) (y + 1 / 2) with
  | none => c
  | some depth => if c.2.all fun old => depth < old then (t.color, some depth) else c

/-- The pixels of the picture, by row and column. -/
def InPicture (width height : Nat) (k : Int × Int) : Prop :=
  (0 ≤ k.1 ∧ k.1 < height) ∧ 0 ≤ k.2 ∧ k.2 < width

theorem shade_eq {t : Triangle} (harea : edgeFunction t.v0 t.v1 t.v2.x t.v2.y ≠ 0)
    (fb : FrameBuffer width height) (x y : Int) :
    shade t (edgeFunction t.v0 t.v1 t.v2.x t.v2.y) fb x y =
      match t.depthAt (x + 1 / 2) (y + 1 / 2) with
      | none => some fb
      | some depth => (fb.getDepth x.toNat y.toNat).bind fun old =>
        if old.all fun old => depth < old then
          (fb.setPixel x.toNat y.toNat t.color).bind fun fb => fb.setDepth x.toNat y.toNat depth
        else some fb := by
  unfold shade Triangle.depthAt
  simp only [harea, ne_eq, not_false_eq_true, true_and]
  split
  · rfl
  · rename_i hin
    rw [if_pos (not_not.mp hin)]
    rfl

/-- The body of the loop draws its pixel. -/
theorem shade_local {t : Triangle} (harea : edgeFunction t.v0 t.v1 t.v2.x t.v2.y ≠ 0) :
    CellScan.Local (InPicture width height)
      (fun (fb : FrameBuffer width height) k => fb.cell k.2.toNat k.1.toNat)
      (fun fb k => shade t (edgeFunction t.v0 t.v1 t.v2.x t.v2.y) fb k.2 k.1)
      (fun k => Option.map (t.draw k.2.toNat k.1.toNat)) := by
  rintro fb ⟨y, x⟩ ⟨⟨hy0, hyh⟩, hx0, hxw⟩
  obtain ⟨ux, rfl⟩ := Int.eq_ofNat_of_zero_le hx0
  obtain ⟨uy, rfl⟩ := Int.eq_ofNat_of_zero_le hy0
  have hx : ux < width := Int.ofNat_lt.mp hxw
  have hy : uy < height := Int.ofNat_lt.mp hyh
  obtain ⟨color, old, hcolor, hold, hcell⟩ := fb.cell_isSome hx hy
  -- a pixel that is not drawn stays
  have hkeep : t.draw ux uy (color, old) = (color, old) → ∀ k', InPicture width height k' →
      fb.cell k'.2.toNat k'.1.toNat =
        if k' = ((uy : Int), (ux : Int)) then Option.map (t.draw ux uy) (fb.cell ux uy)
        else fb.cell k'.2.toNat k'.1.toNat := by
    intro hdraw k' _
    split
    · rename_i hk
      rw [hk]
      simp only [Int.toNat_natCast, hcell, Option.map_some, hdraw]
    · rfl
  simp only [shade_eq harea, Int.toNat_natCast, Int.cast_natCast, hold]
  unfold Triangle.draw at hkeep ⊢
  cases hdepth : t.depthAt ((ux : Rat) + 1 / 2) ((uy : Rat) + 1 / 2) with
  | none =>
    rw [hdepth] at hkeep
    exact ⟨fb, rfl, hkeep rfl⟩
  | some depth =>
    rw [hdepth] at hkeep
    simp only [Option.bind_some]
    by_cases hless : old.all (fun old => decide (depth < old)) = true
    · obtain ⟨fb₁, fb₂, hset, hset', hwrite⟩ := fb.write_spec hx hy t.color depth
      refine ⟨fb₂, by rw [if_pos hless, hset, Option.bind_some, hset'], fun k' hk' => ?_⟩
      obtain ⟨⟨hy0', hyh'⟩, hx0', hxw'⟩ := hk'
      rw [hwrite _ _ (by omega), hcell, Option.map_some, if_pos hless]
      have hiff : (k'.2.toNat = ux ∧ k'.1.toNat = uy) ↔ k' = ((uy : Int), (ux : Int)) := by
        rw [Prod.ext_iff]
        constructor <;> intro h <;> constructor <;> omega
      simp only [hiff]
    · rw [if_neg hless]
      exact ⟨fb, rfl, hkeep (if_neg hless)⟩

/-! ## One triangle -/

/-- The box has each pixel whose centre is covered. -/
theorem covers_box {t : Triangle} {x y : Int} {depth : Rat}
    (h : t.Covers (x + 1 / 2) (y + 1 / 2) depth) :
    ((min (min t.v0.x t.v1.x) t.v2.x).floor ≤ x ∧ x ≤ (max (max t.v0.x t.v1.x) t.v2.x).ceil) ∧
      (min (min t.v0.y t.v1.y) t.v2.y).floor ≤ y ∧
        y ≤ (max (max t.v0.y t.v1.y) t.v2.y).ceil := by
  obtain ⟨-, b0, b1, b2, h0, h1, h2, hsum, hx, hy, -⟩ := h
  obtain ⟨hlx, hux⟩ := combination_bounds h0 h1 h2 hsum hx
  obtain ⟨hly, huy⟩ := combination_bounds h0 h1 h2 hsum hy
  exact ⟨centre_bounds hlx hux, centre_bounds hly huy⟩

/-- A triangle is drawn on each pixel of the picture. -/
theorem rasterizeTriangle_spec (fb : FrameBuffer width height) (t : Triangle) :
    ∃ fb', rasterizeTriangle fb t = some fb' ∧ ∀ x < width, ∀ y < height,
      fb'.cell x y = (fb.cell x y).map (t.draw x y) := by
  -- a pixel that is not covered is left as it is
  have hclear : ∀ {x y : Nat}, t.depthAt (x + 1 / 2) (y + 1 / 2) = none →
      (fb.cell x y).map (t.draw x y) = fb.cell x y := fun {x y} hnone => by
    have hdraw : t.draw x y = id := funext fun c => by rw [Triangle.draw, hnone]; rfl
    rw [hdraw, Option.map_id, id]
  unfold rasterizeTriangle
  dsimp only
  by_cases harea : edgeFunction t.v0 t.v1 t.v2.x t.v2.y = 0
  · refine ⟨fb, if_pos harea, fun x _ y _ => (hclear ?_).symm⟩
    rw [Triangle.depthAt]
    exact if_neg fun h => h.1 harea
  · rw [if_neg harea, ← CellScan.foldlM_product]
    refine (@shade_local width height t harea).foldlM
      ((nodup_longs _ _).product (nodup_longs _ _)) ?_ fb |>.imp fun fb' h => ⟨h.1, ?_⟩
    · rintro ⟨y, x⟩ hk
      obtain ⟨hy, hx⟩ := List.mem_product.mp hk
      have hy := mem_longs.mp hy
      have hx := mem_longs.mp hx
      exact ⟨by constructor <;> omega, by constructor <;> omega⟩
    · intro x hx y hy
      have hcell := h.2 ((y : Int), (x : Int)) ⟨⟨by omega, by omega⟩, by omega, by omega⟩
      simp only [Int.toNat_natCast] at hcell
      rw [hcell]
      split
      · rfl
      · rename_i hout
        refine (hclear ?_).symm
        by_contra hsome
        obtain ⟨depth, hdepth⟩ := Option.ne_none_iff_exists'.mp hsome
        obtain ⟨hbx, hby⟩ := covers_box (x := (x : Int)) (y := (y : Int)) (depthAt_eq_some.mp
          (by simpa using hdepth))
        refine hout (List.mem_product.mpr ⟨mem_longs.mpr ?_, mem_longs.mpr ?_⟩)
        · omega
        · omega

end Graphics
end Techuila
