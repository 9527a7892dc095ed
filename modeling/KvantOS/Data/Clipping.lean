import Mathlib.Analysis.Convex.Basic
import Mathlib.Data.Nat.Cast.Order.Field
import Mathlib.Data.Real.Basic
import Mathlib.Tactic.FieldSimp
import Mathlib.Tactic.Linarith
import Mathlib.Tactic.Ring

/-
  This file studies the clipping of a segment to a rectangle
  of pixels, when every cut rounds its point to a pixel: how
  far the ends come from the segment, and which points of
  the segment a cut can lose.

  Key definitions include:
    * `Near`, `crossing`
    * `Viewport`, `Viewport.core`, `Cut`
    * `rank`

  Key theorems include:
    * `Near.trans`, `Cut.near`, `Cut.covers`
    * `Cut.progress`, `Shared.disjoint`
-/

namespace Clipping

--
-- Points Near A Segment
--

section Near

variable {a b p q v z : ℝ × ℝ} {dx dy ex ey t e : ℝ}

/- Points of a segment, by their share of the way. -/
theorem mem_segment_share :
    v ∈ segment ℝ p q ↔
      ∃ t, (0 ≤ t ∧ t ≤ 1) ∧
        v.1 = p.1 + t * (q.1 - p.1) ∧
        v.2 = p.2 + t * (q.2 - p.2) := by
  rw [segment_eq_image']
  constructor
  · rintro ⟨t, ht, rfl⟩
    exact ⟨t, ht, rfl, rfl⟩
  · rintro ⟨t, ht, hFirst, hSecond⟩
    exact ⟨t, ht, Prod.ext hFirst.symm hSecond.symm⟩

/- A mean of two small errors is a small error. -/
theorem abs_mean_le
    {x y : ℝ}
    (ht : 0 ≤ t ∧ t ≤ 1)
    (hX : |x| ≤ e)
    (hY : |y| ≤ e) :
    |(1 - t) * x + t * y| ≤ e := by
  rw [abs_le] at *
  have hRest : 0 ≤ 1 - t := by linarith
  have hLeft := mul_le_mul_of_nonneg_left hX.1 hRest
  have hLeft' := mul_le_mul_of_nonneg_left hX.2 hRest
  have hRight := mul_le_mul_of_nonneg_left hY.1 ht.1
  have hRight' := mul_le_mul_of_nonneg_left hY.2 ht.1
  constructor <;> linarith

/-
  The point is within `ex` in the first coordinate and `ey`
  in the second of a point of the segment.
-/
def Near
    (ex ey : ℝ)
    (p q z : ℝ × ℝ) : Prop :=
  ∃ v ∈ segment ℝ p q,
    |z.1 - v.1| ≤ ex ∧ |z.2 - v.2| ≤ ey

theorem Near.of_share
    (ht : 0 ≤ t ∧ t ≤ 1)
    (hX : |z.1 - (p.1 + t * (q.1 - p.1))| ≤ ex)
    (hY : |z.2 - (p.2 + t * (q.2 - p.2))| ≤ ey) :
    Near ex ey p q z :=
  ⟨(p.1 + t * (q.1 - p.1), p.2 + t * (q.2 - p.2)),
    mem_segment_share.mpr ⟨t, ht, rfl, rfl⟩, hX, hY⟩

theorem Near.of_mem
    (hMem : z ∈ segment ℝ p q)
    (cx cy : Nat) :
    Near cx cy p q z :=
  ⟨z, hMem, by simp, by simp⟩

theorem Near.symm
    (hNear : Near ex ey p q z) :
    Near ex ey q p z := by
  unfold Near
  rwa [segment_symm]

/-
  Errors add up: a point near a segment whose ends are near
  another segment is near that one.
-/
theorem Near.trans
    (hP : Near dx dy a b p)
    (hQ : Near dx dy a b q)
    (hNear : Near ex ey p q z) :
    Near (dx + ex) (dy + ey) a b z := by
  obtain ⟨c, hC, hFirstP, hSecondP⟩ := hP
  obtain ⟨d, hD, hFirstQ, hSecondQ⟩ := hQ
  obtain ⟨v, hMem, hFirst, hSecond⟩ := hNear
  obtain ⟨t, ht, hV, hV'⟩ := mem_segment_share.mp hMem
  refine ⟨c + t • (d - c),
    (convex_segment a b).add_smul_sub_mem hC hD ht, ?_, ?_⟩
  · have hMean := abs_mean_le ht hFirstP hFirstQ
    have hSplit : (1 - t) * (p.1 - c.1) + t * (q.1 - d.1) =
        v.1 - (c + t • (d - c)).1 := by
      rw [hV]
      simp only [Prod.fst_add, Prod.smul_fst, Prod.fst_sub,
        smul_eq_mul]
      ring
    rw [hSplit] at hMean
    linarith [abs_sub_le z.1 v.1 (c + t • (d - c)).1]
  · have hMean := abs_mean_le ht hSecondP hSecondQ
    have hSplit : (1 - t) * (p.2 - c.2) + t * (q.2 - d.2) =
        v.2 - (c + t • (d - c)).2 := by
      rw [hV']
      simp only [Prod.snd_add, Prod.smul_snd, Prod.snd_sub,
        smul_eq_mul]
      ring
    rw [hSplit] at hMean
    linarith [abs_sub_le z.2 v.2 (c + t • (d - c)).2]

end Near

--
-- Crossings
--

section Crossing

variable {p q u v c x t e : ℝ}

/- From `p` to `q` one comes to `c`, and not at once. -/
def Across (p c q : ℝ) : Prop :=
  (p < c ∧ c ≤ q) ∨ (q ≤ c ∧ c < p)

/-
  On the way from `p` to `q`, while the other coordinate
  goes from `u` to `v`: that coordinate at `c`.
-/
noncomputable def crossing (p q u v c : ℝ) : ℝ :=
  u + (v - u) * (c - p) / (q - p)

theorem Across.ne
    (hAcross : Across p c q) :
    q - p ≠ 0 := by
  rcases hAcross with ⟨hFrom, hTo⟩ | ⟨hFrom, hTo⟩
  · exact ne_of_gt (by linarith)
  · exact ne_of_lt (by linarith)

/- The share of the way at which one comes to `c`. -/
theorem Across.share
    (hAcross : Across p c q) :
    0 ≤ (c - p) / (q - p) ∧ (c - p) / (q - p) ≤ 1 := by
  rcases hAcross with ⟨hFrom, hTo⟩ | ⟨hFrom, hTo⟩
  · have hWay : 0 < q - p := by linarith
    rw [div_le_one hWay]
    exact ⟨div_nonneg (by linarith) hWay.le, by linarith⟩
  · have hWay : q - p < 0 := by linarith
    rw [div_le_one_of_neg hWay]
    exact ⟨div_nonneg_of_nonpos (by linarith) hWay.le,
      by linarith⟩

theorem crossing_share :
    crossing p q u v c =
      u + (c - p) / (q - p) * (v - u) := by
  unfold crossing
  rw [mul_div_assoc, mul_comm (v - u)]

/- The same crossing, looked at from the other end. -/
theorem crossing_symm
    (hWay : q - p ≠ 0) :
    crossing q p v u c = crossing p q u v c := by
  have hBack : p - q ≠ 0 := by
    intro hZero
    apply hWay
    linarith
  unfold crossing
  field_simp
  ring

/- A rounded crossing lies between the two ends. -/
theorem crossing_between
    {lo hi : ℝ}
    (hAcross : Across p c q)
    (hU : lo ≤ u ∧ u ≤ hi)
    (hV : lo ≤ v ∧ v ≤ hi) :
    lo ≤ crossing p q u v c ∧ crossing p q u v c ≤ hi := by
  have hMem := (convex_Icc lo hi).add_smul_sub_mem hU hV
    hAcross.share
  rw [smul_eq_mul, ← crossing_share] at hMem
  exact hMem

/-
  Behind the border, the way from a point near the crossing
  stays as near to the old way.
-/
theorem cut_covers
    (hAcross : Across p c q)
    (hError : |x - crossing p q u v c| ≤ e)
    (ht : 0 ≤ t ∧ t ≤ 1)
    (hBehind : Across p c (p + t * (q - p))) :
    ∃ s, (0 ≤ s ∧ s ≤ 1) ∧
      p + t * (q - p) = c + s * (q - c) ∧
        |u + t * (v - u) - (x + s * (v - x))| ≤ e := by
  obtain ⟨hLeast, hMost⟩ := hAcross.share
  have hWay := hAcross.ne
  rw [crossing_share] at hError
  generalize hShare : (c - p) / (q - p) = r at *
  have hC : c = p + r * (q - p) := by
    rw [← hShare]
    field_simp
    ring
  have hAfter : r ≤ t := by
    rcases hAcross with ⟨hFrom, hTo⟩ | ⟨hTo, hFrom⟩ <;>
      rcases hBehind with ⟨hB, hB'⟩ | ⟨hB', hB⟩
    · rw [hC] at hB'
      nlinarith
    · linarith
    · linarith
    · rw [hC] at hB'
      nlinarith
  have hNone : 0 ≤ e := (abs_nonneg _).trans hError
  by_cases hEnd : r = 1
  · refine ⟨1, ⟨by norm_num, le_rfl⟩, ?_, ?_⟩
    · have hT : t = 1 := by linarith [ht.2]
      rw [hT]
      ring
    · have hT : t = 1 := by linarith [ht.2]
      rw [hT]
      have hZero : u + 1 * (v - u) - (x + 1 * (v - x)) = 0 := by
        ring
      rwa [hZero, abs_zero]
  · have hRest : 0 < 1 - r := by
      have hLess : r < 1 := lt_of_le_of_ne hMost hEnd
      linarith
    have hS : r + (t - r) / (1 - r) * (1 - r) = t := by
      field_simp
      ring
    generalize hDef : (t - r) / (1 - r) = s at hS
    have hSRange : 0 ≤ s ∧ s ≤ 1 := by
      rw [← hDef, div_le_one hRest]
      exact ⟨div_nonneg (by linarith) hRest.le,
        by linarith [ht.2]⟩
    refine ⟨s, hSRange, ?_, ?_⟩
    · rw [hC, ← hS]
      ring
    · have hSplit : u + t * (v - u) - (x + s * (v - x)) =
          -((1 - s) * (x - (u + r * (v - u))) + s * 0) := by
        rw [← hS]
        ring
      rw [hSplit, abs_neg]
      exact abs_mean_le hSRange hError (by rwa [abs_zero])

end Crossing

--
-- Sides
--

/- Where a coordinate is, of a range of pixels. -/
inductive Side where
  | low
  | mid
  | high
  deriving DecidableEq

/- The side of `v`, of the pixels from 0 to `n - 1`. -/
def side
    (v : Int)
    (n : Nat) : Side :=
  if v < 0 then .low else if v ≥ n then .high else .mid

/- The pixel at the border of a side. -/
def border
    (s : Side)
    (n : Nat) : Int :=
  if s = .low then 0 else n - 1

section Sides

variable {v : Int} {n : Nat}

theorem side_low_iff :
    side v n = .low ↔ v < 0 := by
  unfold side
  split
  · simp [*]
  · split <;> simp [*]

theorem side_high_iff :
    side v n = .high ↔ (n : Int) ≤ v := by
  unfold side
  split
  · simp only [reduceCtorEq, false_iff]
    omega
  · split <;> simp_all

theorem side_mid_iff :
    side v n = .mid ↔ 0 ≤ v ∧ v < n := by
  unfold side
  split
  · simp only [reduceCtorEq, false_iff]
    omega
  · split
    · simp only [reduceCtorEq, false_iff]
      omega
    · simp only [true_iff]
      omega

theorem border_mid
    (hSome : 0 < n)
    (s : Side) :
    side (border s n) n = .mid := by
  rw [side_mid_iff]
  unfold border
  split <;> omega

/- The border of an outer side lies on the way to another. -/
theorem across_border
    {v' : Int}
    (hOut : side v n ≠ .mid)
    (hApart : side v' n ≠ side v n) :
    Across (v : ℝ) (border (side v n) n : Int) (v' : ℝ) := by
  cases hSide : side v n with
  | mid => exact absurd hSide hOut
  | low =>
      have hLow := side_low_iff.mp hSide
      rw [hSide, ne_eq, side_low_iff, not_lt] at hApart
      exact .inl ⟨by exact_mod_cast hLow,
        by exact_mod_cast hApart⟩
  | high =>
      have hHigh := side_high_iff.mp hSide
      rw [hSide, ne_eq, side_high_iff, not_le] at hApart
      refine .inr ⟨?_, ?_⟩
      · exact_mod_cast Int.le_sub_one_of_lt hApart
      · exact_mod_cast Int.sub_one_lt_of_le hHigh

/- So does it on the way to any point between the borders. -/
theorem across_border_inner
    {r : ℝ}
    (hOut : side v n ≠ .mid)
    (hFrom : 0 ≤ r)
    (hTo : r ≤ n - 1) :
    Across (v : ℝ) (border (side v n) n : Int) r := by
  cases hSide : side v n with
  | mid => exact absurd hSide hOut
  | low =>
      have hLow := side_low_iff.mp hSide
      refine .inl ⟨by exact_mod_cast hLow, ?_⟩
      simpa [border] using hFrom
  | high =>
      have hHigh := side_high_iff.mp hSide
      refine .inr ⟨?_, ?_⟩
      · simpa [border] using hTo
      · exact_mod_cast Int.sub_one_lt_of_le hHigh

end Sides

--
-- Viewports
--

/- A rectangle of pixels, none of its sides empty. -/
structure Viewport where
  width : Nat
  height : Nat
  wide : 0 < width
  high : 0 < height

namespace Viewport

variable (V : Viewport)

/-
  The points between the first and the last pixel of every
  row and column, by the given margins.
-/
def core (mx my : ℝ) : Set (ℝ × ℝ) :=
  { z | (mx ≤ z.1 ∧ z.1 ≤ V.width - 1 - mx) ∧
    my ≤ z.2 ∧ z.2 ≤ V.height - 1 - my }

/- A smaller margin leaves more. -/
theorem core_mono
    {mx my nx ny : ℝ}
    {z : ℝ × ℝ}
    (hCore : z ∈ V.core mx my)
    (hX : nx ≤ mx)
    (hY : ny ≤ my) :
    z ∈ V.core nx ny := by
  obtain ⟨⟨hLeft, hRight⟩, hTop, hBottom⟩ := hCore
  exact ⟨⟨by linarith, by linarith⟩, by linarith,
    by linarith⟩

/- A point near one of a smaller core. -/
theorem core_near
    {mx my ex ey : ℝ}
    {z v : ℝ × ℝ}
    (hCore : z ∈ V.core (ex + mx) (ey + my))
    (hX : |z.1 - v.1| ≤ ex)
    (hY : |z.2 - v.2| ≤ ey) :
    v ∈ V.core mx my := by
  obtain ⟨⟨hLeft, hRight⟩, hTop, hBottom⟩ := hCore
  rw [abs_le] at hX hY
  exact ⟨⟨by linarith, by linarith⟩, by linarith,
    by linarith⟩

/- A pixel of the viewport. -/
def Holds (p : Int × Int) : Prop :=
  side p.1 V.width = .mid ∧ side p.2 V.height = .mid

/- Both points lie beyond the same border. -/
def Shared (p q : Int × Int) : Prop :=
  (side p.1 V.width ≠ .mid ∧
      side q.1 V.width = side p.1 V.width) ∨
    (side p.2 V.height ≠ .mid ∧
      side q.2 V.height = side p.2 V.height)

/- The coordinates of `p` still to be clipped. -/
def rank (p : Int × Int) : Nat :=
  if side p.2 V.height ≠ .mid then 2
  else if side p.1 V.width ≠ .mid then 1
  else 0

end Viewport

/- A pixel as a point of the plane. -/
def place (p : Int × Int) : ℝ × ℝ :=
  ((p.1 : ℝ), (p.2 : ℝ))

/-
  One cut: the end `p` of a segment to `q` moves to the
  border of a row or column, and its other coordinate to
  less than a pixel from the segment. The numbers count the
  first and the second coordinates rounded.
-/
inductive Cut
    (V : Viewport)
    (p q : Int × Int) :
    Nat → Nat → Int × Int → Prop where
  | row
      {x : Int}
      (hOut : side p.2 V.height ≠ .mid)
      (hApart : side q.2 V.height ≠ side p.2 V.height)
      (hError : |(x : ℝ) - crossing p.2 q.2 p.1 q.1
        (border (side p.2 V.height) V.height : Int)| < 1) :
      Cut V p q 1 0
        (x, border (side p.2 V.height) V.height)
  | column
      {y : Int}
      (hRow : side p.2 V.height = .mid)
      (hOut : side p.1 V.width ≠ .mid)
      (hApart : side q.1 V.width ≠ side p.1 V.width)
      (hError : |(y : ℝ) - crossing p.1 q.1 p.2 q.2
        (border (side p.1 V.width) V.width : Int)| < 1) :
      Cut V p q 0 1
        (border (side p.1 V.width) V.width, y)

section Cuts

variable {V : Viewport} {p q p' : Int × Int} {cx cy : Nat}

/- A point of the crossing, as one of the segment. -/
theorem Across.share_mid
    {a b c : ℝ}
    (hAcross : Across a c b) :
    c = a + (c - a) / (b - a) * (b - a) := by
  have hWay := hAcross.ne
  field_simp
  ring

/- The moved end is near the segment. -/
theorem Cut.near
    (hCut : Cut V p q cx cy p') :
    Near cx cy (place p) (place q) (place p') := by
  cases hCut with
  | row hOut hApart hError =>
      have hAcross := across_border hOut hApart
      rw [crossing_share] at hError
      refine .of_share hAcross.share ?_ ?_
      · simpa only [place, Nat.cast_one] using hError.le
      · simp only [place]
        rw [← hAcross.share_mid, sub_self, abs_zero]
        exact_mod_cast le_rfl
  | column hRow hOut hApart hError =>
      have hAcross := across_border hOut hApart
      rw [crossing_share] at hError
      refine .of_share hAcross.share ?_ ?_
      · simp only [place]
        rw [← hAcross.share_mid, sub_self, abs_zero]
        exact_mod_cast le_rfl
      · simpa only [place, Nat.cast_one] using hError.le

/-
  What a cut leaves is near every point of the segment that
  lies between the borders.
-/
theorem Cut.covers
    {z : ℝ × ℝ}
    (hCut : Cut V p q cx cy p')
    (hMem : z ∈ segment ℝ (place p) (place q))
    (hCore : z ∈ V.core 0 0) :
    Near cx cy (place p') (place q) z := by
  obtain ⟨t, ht, hFirst, hSecond⟩ := mem_segment_share.mp hMem
  obtain ⟨⟨hX, hX'⟩, hY, hY'⟩ := hCore
  rw [sub_zero] at hX' hY'
  cases hCut with
  | row hOut hApart hError =>
      have hBehind := across_border_inner hOut hY hY'
      rw [hSecond] at hBehind
      obtain ⟨s, hs, hOn, hClose⟩ := cut_covers
        (across_border hOut hApart) hError.le ht hBehind
      refine .of_share hs ?_ ?_
      · rw [hFirst]
        simpa only [place, Nat.cast_one] using hClose
      · rw [hSecond]
        simp only [place] at hOn ⊢
        rw [hOn, sub_self, abs_zero]
        exact_mod_cast le_rfl
  | column hRow hOut hApart hError =>
      have hBehind := across_border_inner hOut hX hX'
      rw [hFirst] at hBehind
      obtain ⟨s, hs, hOn, hClose⟩ := cut_covers
        (across_border hOut hApart) hError.le ht hBehind
      refine .of_share hs ?_ ?_
      · rw [hFirst]
        simp only [place] at hOn ⊢
        rw [hOn, sub_self, abs_zero]
        exact_mod_cast le_rfl
      · rw [hSecond]
        simpa only [place, Nat.cast_one] using hClose

/- A whole quotient is less than 1 from the real one. -/
theorem quotient_error
    {n d : Nat}
    (hSome : 0 < d) :
    |((n / d : Nat) : ℝ) - n / d| < 1 := by
  have hMost : ((n / d : Nat) : ℝ) ≤ n / d := Nat.cast_div_le
  have hD : (0 : ℝ) < d := by exact_mod_cast hSome
  have hNext : n < d * (n / d + 1) :=
    Nat.lt_mul_div_succ n hSome
  have hLess : (n : ℝ) / d < (n / d : Nat) + 1 := by
    rw [div_lt_iff₀ hD, mul_comm]
    exact_mod_cast hNext
  rw [abs_lt]
  constructor <;> linarith

/- A whole number less than 1 from a range is in it. -/
theorem rounded_between
    {x lo hi : Int}
    {r : ℝ}
    (hError : |(x : ℝ) - r| < 1)
    (hRange : (lo : ℝ) ≤ r ∧ r ≤ (hi : ℝ)) :
    lo ≤ x ∧ x ≤ hi := by
  rw [abs_lt] at hError
  constructor
  · have hLess : (lo : ℝ) < x + 1 := by linarith
    exact Int.lt_add_one_iff.mp (by exact_mod_cast hLess)
  · have hLess : (x : ℝ) < hi + 1 := by linarith
    exact Int.lt_add_one_iff.mp (by exact_mod_cast hLess)

/- The coordinate rounded lies between the ends. -/
theorem crossing_rounded
    {x u v lo hi : Int}
    {a b c : ℝ}
    (hAcross : Across a c b)
    (hError : |(x : ℝ) - crossing a b u v c| < 1)
    (hU : lo ≤ u ∧ u ≤ hi)
    (hV : lo ≤ v ∧ v ≤ hi) :
    lo ≤ x ∧ x ≤ hi :=
  rounded_between hError (crossing_between hAcross
    ⟨by exact_mod_cast hU.1, by exact_mod_cast hU.2⟩
    ⟨by exact_mod_cast hV.1, by exact_mod_cast hV.2⟩)

/- A cut stays in any square around the viewport. -/
theorem Cut.bounded
    {lo hi : Int}
    (hCut : Cut V p q cx cy p')
    (hLow : lo ≤ 0)
    (hWide : V.width ≤ hi)
    (hHigh : V.height ≤ hi)
    (hP : (lo ≤ p.1 ∧ p.1 ≤ hi) ∧ lo ≤ p.2 ∧ p.2 ≤ hi)
    (hQ : (lo ≤ q.1 ∧ q.1 ≤ hi) ∧ lo ≤ q.2 ∧ q.2 ≤ hi) :
    (lo ≤ p'.1 ∧ p'.1 ≤ hi) ∧ lo ≤ p'.2 ∧ p'.2 ≤ hi := by
  cases hCut with
  | row hOut hApart hError =>
      have hMid := side_mid_iff.mp
        (border_mid V.high (side p.2 V.height))
      exact ⟨crossing_rounded (across_border hOut hApart)
        hError hP.1 hQ.1, by omega, by omega⟩
  | column hRow hOut hApart hError =>
      have hMid := side_mid_iff.mp
        (border_mid V.wide (side p.1 V.width))
      exact ⟨⟨by omega, by omega⟩,
        crossing_rounded (across_border hOut hApart) hError
          hP.2 hQ.2⟩

theorem rank_zero_iff :
    V.rank p = 0 ↔ V.Holds p := by
  unfold Viewport.rank Viewport.Holds
  split <;> rename_i hRow
  · simp [hRow]
  · rw [not_not] at hRow
    split <;> rename_i hCol
    · simp [hCol]
    · simp [not_not.mp hCol, hRow]

theorem rank_le :
    V.rank p ≤ 2 := by
  unfold Viewport.rank
  split
  · exact le_rfl
  · split <;> decide

theorem rank_row
    (hOut : side p.2 V.height ≠ .mid) :
    V.rank p = 2 :=
  if_pos hOut

theorem rank_column
    (hRow : side p.2 V.height = .mid)
    (hOut : side p.1 V.width ≠ .mid) :
    V.rank p = 1 :=
  (if_neg (not_not.mpr hRow)).trans (if_pos hOut)

/- Of a cut to a row, at most the column is left. -/
theorem rank_cut_row
    (V : Viewport)
    (x : Int)
    (s : Side) :
    V.rank (x, border s V.height) ≤ 1 := by
  unfold Viewport.rank
  rw [if_neg (not_not.mpr (border_mid V.high s))]
  split <;> decide

/- Only a point outside the viewport is cut. -/
theorem Cut.rank_pos
    (hCut : Cut V p q cx cy p') :
    0 < V.rank p := by
  rw [Nat.pos_iff_ne_zero, ne_eq, rank_zero_iff]
  cases hCut with
  | row hOut hApart hError =>
      exact fun hHolds => hOut hHolds.2
  | column hRow hOut hApart hError =>
      exact fun hHolds => hOut hHolds.1

/-
  A cut leaves fewer coordinates to clip, or an end beyond a
  border that the other end is beyond too: what is rounded
  cannot pass a border that neither end is beyond.
-/
theorem Cut.progress
    (hCut : Cut V p q cx cy p') :
    V.rank p' < V.rank p ∨ V.Shared p' q := by
  cases hCut with
  | row hOut hApart hError =>
      refine .inl ?_
      rw [rank_row hOut]
      exact Nat.lt_succ_of_le (rank_cut_row V _ _)
  | @column y hRow hOut hApart hError =>
      have hBefore := rank_column hRow hOut
      have hAcross := across_border hOut hApart
      have hMid := side_mid_iff.mp hRow
      cases hSide : side y V.height with
      | mid =>
          refine .inl ?_
          have hHolds : V.Holds
              (border (side p.1 V.width) V.width, y) :=
            ⟨border_mid V.wide _, hSide⟩
          rw [rank_zero_iff.mpr hHolds, hBefore]
          exact Nat.one_pos
      | low =>
          refine .inr (.inr ⟨?_, ?_⟩)
          · rw [hSide]
            nofun
          · have hY := side_low_iff.mp hSide
            rw [hSide, side_low_iff]
            by_contra hNot
            have hBetween := @crossing_rounded y p.2 q.2 0
              (max p.2 q.2) _ _ _ hAcross hError
              ⟨hMid.1, le_max_left _ _⟩
              ⟨not_lt.mp hNot, le_max_right _ _⟩
            omega
      | high =>
          refine .inr (.inr ⟨?_, ?_⟩)
          · rw [hSide]
            nofun
          · have hY := side_high_iff.mp hSide
            rw [hSide, side_high_iff]
            by_contra hNot
            have hBetween := @crossing_rounded y p.2 q.2
              (min p.2 q.2) (V.height - 1) _ _ _ hAcross
              hError ⟨min_le_left _ _, by omega⟩
              ⟨min_le_right _ _, by omega⟩
            omega

theorem Viewport.Shared.symm
    (hShared : V.Shared p q) :
    V.Shared q p := by
  rcases hShared with ⟨hOut, hSame⟩ | ⟨hOut, hSame⟩
  · exact .inl ⟨hSame ▸ hOut, hSame.symm⟩
  · exact .inr ⟨hSame ▸ hOut, hSame.symm⟩

/- Between two numbers beyond a border, all are. -/
theorem beyond_mean
    {u v : Int}
    {n : Nat}
    {t : ℝ}
    (hOut : side u n ≠ .mid)
    (hSame : side v n = side u n)
    (ht : 0 ≤ t ∧ t ≤ 1) :
    ¬(0 ≤ (u : ℝ) + t * (v - u) ∧
      (u : ℝ) + t * (v - u) ≤ n - 1 - 0) := by
  rintro ⟨hFrom, hTo⟩
  have hRest : 0 ≤ 1 - t := by linarith
  cases hSide : side u n with
  | mid => exact hOut hSide
  | low =>
      rw [hSide, side_low_iff] at hSame
      rw [side_low_iff] at hSide
      have hU : (u : ℝ) ≤ -1 := by
        exact_mod_cast Int.le_sub_one_of_lt hSide
      have hV : (v : ℝ) ≤ -1 := by
        exact_mod_cast Int.le_sub_one_of_lt hSame
      have hLeft := mul_le_mul_of_nonneg_left hU hRest
      have hRight := mul_le_mul_of_nonneg_left hV ht.1
      linarith
  | high =>
      rw [hSide, side_high_iff] at hSame
      rw [side_high_iff] at hSide
      have hU : (n : ℝ) ≤ u := by exact_mod_cast hSide
      have hV : (n : ℝ) ≤ v := by exact_mod_cast hSame
      have hLeft := mul_le_mul_of_nonneg_left hU hRest
      have hRight := mul_le_mul_of_nonneg_left hV ht.1
      linarith

/- Beyond a border the segment misses the viewport. -/
theorem Viewport.Shared.disjoint
    {z : ℝ × ℝ}
    (hShared : V.Shared p q)
    (hMem : z ∈ segment ℝ (place p) (place q)) :
    z ∉ V.core 0 0 := by
  obtain ⟨t, ht, hFirst, hSecond⟩ := mem_segment_share.mp hMem
  rintro ⟨hX, hY⟩
  rw [hFirst] at hX
  rw [hSecond] at hY
  rcases hShared with ⟨hOut, hSame⟩ | ⟨hOut, hSame⟩
  · exact beyond_mean hOut hSame ht hX
  · exact beyond_mean hOut hSame ht hY

end Cuts

end Clipping
