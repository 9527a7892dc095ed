import Mathlib

/-
  This file defines rectangles of the integer plane, by a
  corner and a size, with the points they cover and the
  smallest rectangle around two of them.

  Key definitions include:
    * `Box`, `Box.points`, `Box.Touches`
    * `Box.join`, `Box.Inside`

  Key theorems include:
    * `Box.subset_join_left`, `Box.subset_join_right`
    * `Box.Inside.join`, `Box.points_meet`
-/

/- A rectangle with its corner at `(x, y)`. -/
structure Box where
  x : Int
  y : Int
  w : Int
  h : Int

namespace Box

variable {a b : Box} {p : Int × Int} {sw sh : Int}

/- The points of a rectangle. -/
def points (b : Box) : Set (Int × Int) :=
  Set.Ico b.x (b.x + b.w) ×ˢ Set.Ico b.y (b.y + b.h)

theorem mem_points :
    p ∈ b.points ↔
      (b.x ≤ p.1 ∧ p.1 < b.x + b.w) ∧
        (b.y ≤ p.2 ∧ p.2 < b.y + b.h) :=
  Iff.rfl

instance (p : Int × Int) (b : Box) :
    Decidable (p ∈ b.points) :=
  decidable_of_iff _ mem_points.symm

/- Rectangles that share a point or a part of their edges. -/
def Touches (a b : Box) : Prop :=
  (a.x ≤ b.x + b.w ∧ b.x ≤ a.x + a.w) ∧
    (a.y ≤ b.y + b.h ∧ b.y ≤ a.y + a.h)

instance (a b : Box) : Decidable (a.Touches b) :=
  inferInstanceAs (Decidable (_ ∧ _))

theorem touches_comm : a.Touches b ↔ b.Touches a := by
  unfold Touches
  rw [and_comm (a := a.x ≤ _), and_comm (a := a.y ≤ _)]

/- The smallest rectangle around two. -/
def join (a b : Box) : Box where
  x := min a.x b.x
  y := min a.y b.y
  w := max (a.x + a.w) (b.x + b.w) - min a.x b.x
  h := max (a.y + a.h) (b.y + b.h) - min a.y b.y

theorem subset_join_left :
    a.points ⊆ (a.join b).points := by
  rintro p ⟨⟨hLeft, hRight⟩, hTop, hBottom⟩
  unfold join
  rw [mem_points]
  dsimp only
  omega

theorem subset_join_right :
    b.points ⊆ (a.join b).points := by
  rintro p ⟨⟨hLeft, hRight⟩, hTop, hBottom⟩
  unfold join
  rw [mem_points]
  dsimp only
  omega

/- The rectangle at the origin of some width and height. -/
def frame (sw sh : Int) : Box :=
  ⟨0, 0, sw, sh⟩

/- A rectangle of points, all within a frame. -/
structure Inside (b : Box) (sw sh : Int) : Prop where
  left : 0 ≤ b.x
  top : 0 ≤ b.y
  wide : 0 < b.w
  high : 0 < b.h
  right : b.x + b.w ≤ sw
  bottom : b.y + b.h ≤ sh

theorem Inside.join
    (hA : a.Inside sw sh)
    (hB : b.Inside sw sh) :
    (a.join b).Inside sw sh := by
  obtain ⟨hLeft, hTop, hWide, hHigh, hRight, hBottom⟩ := hA
  obtain ⟨hLeft', hTop', hWide', hHigh', hRight', hBottom'⟩ :=
    hB
  constructor
  all_goals
    unfold Box.join
    dsimp only
    omega

/- The common points of two rectangles are a rectangle. -/
def meet (a b : Box) : Box where
  x := max a.x b.x
  y := max a.y b.y
  w := min (a.x + a.w) (b.x + b.w) - max a.x b.x
  h := min (a.y + a.h) (b.y + b.h) - max a.y b.y

theorem points_meet :
    (a.meet b).points = a.points ∩ b.points := by
  ext p
  unfold meet
  rw [Set.mem_inter_iff, mem_points, mem_points, mem_points]
  dsimp only
  omega

/- A rectangle without width or height has no points. -/
theorem points_empty
    (hNone : b.w ≤ 0 ∨ b.h ≤ 0) :
    b.points = ∅ := by
  ext p
  rw [mem_points]
  refine iff_of_false ?_ (Set.notMem_empty p)
  omega

end Box
