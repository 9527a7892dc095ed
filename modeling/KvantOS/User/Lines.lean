import KvantOS.Data.Clipping
import KvantOS.User.Service

/-
  This file studies how `line` of `user_service.c` clips a
  line to the window: that its loop always ends, and how far
  rounding takes the ends from the line that was asked for.

  Key definitions include:
    * `clipTrace`, `ratioArgs`, `ClipRun`
    * `ClipsWell`

  Key theorems include:
    * `ratio_error`, `clipStep_cases`, `clipLine_run`
    * `ClipRun.misses`, `ClipRun.near_last`
-/

namespace KvantOS

namespace User

open Clipping

--
-- The Steps Of A Run
--

/- The lines of which the loop moves an end. -/
def clipTrace
    (w h : Nat) :
    (steps : Nat) → KsLineDraw → List KsLineDraw
  | 0, _ => []
  | steps + 1, l =>
      match clipStep w h l with
      | .inl _ => []
      | .inr l' => l :: clipTrace w h steps l'

/- The step moves the first end. -/
def movesFirst
    (w h : Nat)
    (l : KsLineDraw) : Bool :=
  outcode l.x0 l.y0 w h != 0

/- The code of the end that the step moves. -/
def pickCode
    (w h : Nat)
    (l : KsLineDraw) : Nat :=
  let a := outcode l.x0 l.y0 w h
  if a != 0 then a else outcode l.x1 l.y1 w h

/-
  The step takes the end to the first or the last row, and
  rounds its place in that row.
-/
def roundsX
    (w h : Nat)
    (l : KsLineDraw) : Bool :=
  pickCode w h l &&& 12 != 0

/- The row or column that the step takes the end to. -/
def clipBorder
    (w h : Nat)
    (l : KsLineDraw) : Int :=
  if roundsX w h l then
    if pickCode w h l &&& 4 != 0 then 0 else h - 1
  else
    if pickCode w h l &&& 1 != 0 then 0 else w - 1

/- What the step passes to `ratio`. -/
def ratioArgs
    (w h : Nat)
    (l : KsLineDraw) : Int × Int × Int :=
  let dx := l.x1 - l.x0
  let dy := l.y1 - l.y0
  if roundsX w h l then (dx, clipBorder w h l - l.y0, dy)
  else (dy, clipBorder w h l - l.x0, dx)

/- Where the step takes the end. -/
def clipPoint
    (w h : Nat)
    (l : KsLineDraw) : Int × Int :=
  let (a, b, c) := ratioArgs w h l
  if roundsX w h l then
    (l.x0 + ratio a b c, clipBorder w h l)
  else (clipBorder w h l, l.y0 + ratio a b c)

/- The line with the end moved. -/
def moveEnd
    (w h : Nat)
    (l : KsLineDraw)
    (p : Int × Int) : KsLineDraw :=
  if movesFirst w h l then { l with x0 := p.1, y0 := p.2 }
  else { l with x1 := p.1, y1 := p.2 }

theorem clipStep_eq
    (w h : Nat)
    (l : KsLineDraw) :
    clipStep w h l =
      let a := outcode l.x0 l.y0 w h
      let b := outcode l.x1 l.y1 w h
      if a ||| b == 0 then .inl (.inside l)
      else if a &&& b != 0 then .inl .outside
      else if (ratioArgs w h l).2.2 == 0 then .inl .invalid
      else .inr (moveEnd w h l (clipPoint w h l)) := by
  unfold clipStep clipPoint moveEnd ratioArgs clipBorder
    roundsX pickCode movesFirst
  generalize outcode l.x0 l.y0 w h = a
  generalize outcode l.x1 l.y1 w h = b
  dsimp only
  generalize (if (a != 0) = true then a else b) = pick
  by_cases hIn : (a ||| b == 0) = true
  · rw [if_pos hIn, if_pos hIn]
  by_cases hShared : (a &&& b != 0) = true
  · rw [if_neg hIn, if_neg hIn, if_pos hShared,
      if_pos hShared]
  rw [if_neg hIn, if_neg hIn, if_neg hShared,
    if_neg hShared]
  -- the same branch on both sides, for either end moved
  cases hRow : (pick &&& 12 != 0) <;>
    cases hFirst : (a != 0) <;>
      simp only [if_true, if_false, Bool.false_eq_true]

--
-- Sides
--

/- The bits for the side of a coordinate. -/
def sideCode (lo hi : Nat) : Side → Nat
  | .low => lo
  | .mid => 0
  | .high => hi

/- The code of a point with those sides. -/
def sidesCode (s t : Side) : Nat :=
  sideCode 1 2 s ||| sideCode 4 8 t

theorem outcode_sides
    (x y : Int)
    (w h : Nat) :
    outcode x y w h = sidesCode (side x w) (side y h) := by
  have hCode : ∀ (v : Int) (n lo hi : Nat),
      (if v < 0 then lo else if v ≥ n then hi else 0) =
        sideCode lo hi (side v n) := by
    intro v n lo hi
    unfold side
    split
    · rfl
    · split <;> rfl
  unfold outcode sidesCode
  rw [hCode, hCode]

theorem sidesCode_zero_iff (s t : Side) :
    sidesCode s t = 0 ↔ s = .mid ∧ t = .mid := by
  cases s <;> cases t <;> decide

theorem sidesCode_row_iff (s t : Side) :
    sidesCode s t &&& 12 = 0 ↔ t = .mid := by
  cases s <;> cases t <;> decide

theorem sidesCode_top_iff (s t : Side) :
    sidesCode s t &&& 4 = 0 ↔ t ≠ .low := by
  cases s <;> cases t <;> decide

theorem sidesCode_left_iff (s t : Side) :
    sidesCode s t &&& 1 = 0 ↔ s ≠ .low := by
  cases s <;> cases t <;> decide

theorem sidesCode_shared_iff (s t s' t' : Side) :
    sidesCode s t &&& sidesCode s' t' ≠ 0 ↔
      (s ≠ .mid ∧ s' = s) ∨ (t ≠ .mid ∧ t' = t) := by
  cases s <;> cases t <;> cases s' <;> cases t' <;> decide

/- The ends of a line, as pixels. -/
def KsLineDraw.first (l : KsLineDraw) : Int × Int :=
  (l.x0, l.y0)

def KsLineDraw.last (l : KsLineDraw) : Int × Int :=
  (l.x1, l.y1)

section Steps

variable {V : Viewport} {l : KsLineDraw}

theorem outcode_zero_iff (p : Int × Int) :
    outcode p.1 p.2 V.width V.height = 0 ↔ V.Holds p := by
  rw [outcode_sides, sidesCode_zero_iff]
  exact Iff.rfl

theorem outcode_shared_iff (p q : Int × Int) :
    outcode p.1 p.2 V.width V.height &&&
        outcode q.1 q.2 V.width V.height ≠ 0 ↔
      V.Shared p q := by
  rw [outcode_sides, outcode_sides, sidesCode_shared_iff]
  exact Iff.rfl

/- The end that the step moves, and the other one. -/
def movedEnd
    (w h : Nat)
    (l : KsLineDraw) : Int × Int :=
  if movesFirst w h l then l.first else l.last

def keptEnd
    (w h : Nat)
    (l : KsLineDraw) : Int × Int :=
  if movesFirst w h l then l.last else l.first

theorem movesFirst_iff :
    movesFirst V.width V.height l = true ↔
      ¬V.Holds l.first := by
  rw [← outcode_zero_iff]
  exact bne_iff_ne

theorem pickCode_eq (w h : Nat) :
    pickCode w h l = sidesCode
      (side (movedEnd w h l).1 w)
      (side (movedEnd w h l).2 h) := by
  rw [← outcode_sides]
  unfold pickCode movedEnd movesFirst KsLineDraw.first
    KsLineDraw.last
  dsimp only
  split <;> rfl

theorem roundsX_iff (w h : Nat) :
    roundsX w h l = true ↔
      side (movedEnd w h l).2 h ≠ .mid := by
  unfold roundsX
  rw [bne_iff_ne, pickCode_eq, ne_eq, sidesCode_row_iff]

theorem clipBorder_eq (w h : Nat) :
    clipBorder w h l =
      if roundsX w h l then
        border (side (movedEnd w h l).2 h) h
      else border (side (movedEnd w h l).1 w) w := by
  unfold clipBorder border
  rw [pickCode_eq]
  simp only [bne_iff_ne, ne_eq, sidesCode_top_iff,
    sidesCode_left_iff, not_not]

--
-- Rounding
--

/- The sign of a quotient of a product. -/
theorem product_sign (a b c : Int) :
    (a : ℝ) * b / c =
      if (a < 0) != ((b < 0) != (c < 0)) then
        -((a.natAbs * b.natAbs : Nat) : ℝ) / c.natAbs
      else ((a.natAbs * b.natAbs : Nat) : ℝ) / c.natAbs := by
  have hAbs : ∀ v : Int, (v : ℝ) =
      if v < 0 then -(v.natAbs : ℝ) else (v.natAbs : ℝ) := by
    intro v
    rw [Nat.cast_natAbs, Int.cast_abs]
    split <;> rename_i hSign
    · have hReal : (v : ℝ) < 0 := by exact_mod_cast hSign
      rw [abs_of_neg hReal, neg_neg]
    · have hReal : (0 : ℝ) ≤ v := by
        exact_mod_cast not_lt.mp hSign
      rw [abs_of_nonneg hReal]
  rw [hAbs a, hAbs b, hAbs c, Nat.cast_mul]
  by_cases hA : a < 0 <;> by_cases hB : b < 0 <;>
    by_cases hC : c < 0 <;>
      simp [hA, hB, hC, neg_div, div_neg]

/- `ratio` is less than 1 from what it rounds. -/
theorem ratio_error
    {a b c : Int}
    (hSome : c ≠ 0)
    (hProduct : a.natAbs * b.natAbs < 2 ^ 32) :
    |(ratio a b c : ℝ) - a * b / c| < 1 := by
  have hError := @quotient_error (a.natAbs * b.natAbs) _
    (Int.natAbs_pos.mpr hSome)
  unfold ratio
  rw [product_sign, Nat.mod_eq_of_lt hProduct]
  split
  · rw [Int.cast_neg, Int.cast_natCast, neg_div,
      neg_sub_neg, abs_sub_comm]
    exact hError
  · rw [Int.cast_natCast]
    exact hError

/- The coordinates of the line fit in 16 bits. -/
def InRange (l : KsLineDraw) : Prop :=
  ((-32768 ≤ l.x0 ∧ l.x0 ≤ 32767) ∧
      -32768 ≤ l.y0 ∧ l.y0 ≤ 32767) ∧
    (-32768 ≤ l.x1 ∧ l.x1 ≤ 32767) ∧
      -32768 ≤ l.y1 ∧ l.y1 ≤ 32767

theorem shortEnds_iff :
    shortEnds l = true ↔ InRange l := by
  unfold shortEnds InRange
  simp only [List.all_cons, List.all_nil, Bool.and_true,
    Bool.and_eq_true, decide_eq_true_eq]
  tauto

theorem clipBorder_bound
    (hWide : V.width ≤ 4096)
    (hHigh : V.height ≤ 4096) :
    0 ≤ clipBorder V.width V.height l ∧
      clipBorder V.width V.height l ≤ 4095 := by
  rw [clipBorder_eq]
  split
  · have hMid := side_mid_iff.mp (border_mid V.high
      (side (movedEnd V.width V.height l).2 V.height))
    omega
  · have hMid := side_mid_iff.mp (border_mid V.wide
      (side (movedEnd V.width V.height l).1 V.width))
    omega

/- No product in `ratio` exceeds 32 bits. -/
theorem ratioArgs_product
    (hWide : V.width ≤ 4096)
    (hHigh : V.height ≤ 4096)
    (hRange : InRange l) :
    (ratioArgs V.width V.height l).1.natAbs *
        (ratioArgs V.width V.height l).2.1.natAbs <
      2 ^ 32 := by
  obtain ⟨hLeast, hMost⟩ := @clipBorder_bound V l hWide hHigh
  obtain ⟨⟨hX0, hY0⟩, hX1, hY1⟩ := hRange
  have hSmall :
      (ratioArgs V.width V.height l).1.natAbs ≤ 65535 ∧
        (ratioArgs V.width V.height l).2.1.natAbs ≤
          65535 := by
    unfold ratioArgs
    dsimp only
    split
    · dsimp only
      omega
    · dsimp only
      omega
  calc (ratioArgs V.width V.height l).1.natAbs *
        (ratioArgs V.width V.height l).2.1.natAbs
      ≤ 65535 * 65535 := Nat.mul_le_mul hSmall.1 hSmall.2
    _ < 2 ^ 32 := by decide

/- One coordinate of the point, and the real crossing. -/
theorem rounded_error
    {p q u v c : Int}
    (hWay : q - p ≠ 0)
    (hProduct : (v - u).natAbs * (c - p).natAbs < 2 ^ 32) :
    |((u + ratio (v - u) (c - p) (q - p) : Int) : ℝ) -
      crossing p q u v c| < 1 := by
  have hError := ratio_error hWay hProduct
  have hSplit : ((u + ratio (v - u) (c - p) (q - p) : Int) :
        ℝ) - crossing p q u v c =
      (ratio (v - u) (c - p) (q - p) : ℝ) -
        (v - u : Int) * (c - p : Int) / (q - p : Int) := by
    unfold crossing
    push_cast
    ring
  rwa [hSplit]

/- The line meets a row at one place, seen from any end. -/
theorem crossing_moved_row
    (w h : Nat)
    (hWay : l.y1 - l.y0 ≠ 0)
    (c : ℝ) :
    crossing (movedEnd w h l).2 (keptEnd w h l).2
        (movedEnd w h l).1 (keptEnd w h l).1 c =
      crossing l.y0 l.y1 l.x0 l.x1 c := by
  unfold movedEnd keptEnd
  split
  · rfl
  · exact crossing_symm (by exact_mod_cast hWay)

theorem crossing_moved_column
    (w h : Nat)
    (hWay : l.x1 - l.x0 ≠ 0)
    (c : ℝ) :
    crossing (movedEnd w h l).1 (keptEnd w h l).1
        (movedEnd w h l).2 (keptEnd w h l).2 c =
      crossing l.x0 l.x1 l.y0 l.y1 c := by
  unfold movedEnd keptEnd
  split
  · rfl
  · exact crossing_symm (by exact_mod_cast hWay)

/- Ends on two sides of a row or column are not in line. -/
theorem way_ne
    {n : Nat}
    {u v a b : Int}
    (hEnds : (a = u ∧ b = v) ∨ (a = v ∧ b = u))
    (hApart : side b n ≠ side a n) :
    v - u ≠ 0 := by
  intro hZero
  apply hApart
  have hSame : b = a := by omega
  rw [hSame]

/-
  Where the step takes the end is a cut of the line, and
  what it divides by is not 0.
-/
theorem clipPoint_cut
    (hWide : V.width ≤ 4096)
    (hHigh : V.height ≤ 4096)
    (hRange : InRange l)
    (hOut : ¬V.Holds (movedEnd V.width V.height l))
    (hApart : ¬V.Shared (movedEnd V.width V.height l)
      (keptEnd V.width V.height l)) :
    (ratioArgs V.width V.height l).2.2 ≠ 0 ∧
      Cut V (movedEnd V.width V.height l)
        (keptEnd V.width V.height l)
        (if roundsX V.width V.height l then 1 else 0)
        (if roundsX V.width V.height l then 0 else 1)
        (clipPoint V.width V.height l) := by
  have hProduct := ratioArgs_product hWide hHigh hRange
  have hBorder := @clipBorder_eq l V.width V.height
  have hRound := @roundsX_iff l V.width V.height
  unfold Viewport.Shared at hApart
  push Not at hApart
  unfold clipPoint
  unfold ratioArgs at hProduct ⊢
  cases hRow : roundsX V.width V.height l with
  | true =>
      rw [hRow, if_pos rfl] at hBorder hProduct
      have hSide := hRound.mp hRow
      have hWay : l.y1 - l.y0 ≠ 0 := by
        refine way_ne ?_ (hApart.2 hSide)
        unfold movedEnd keptEnd
        split
        · exact .inl ⟨rfl, rfl⟩
        · exact .inr ⟨rfl, rfl⟩
      refine ⟨hWay, ?_⟩
      have hError := rounded_error hWay hProduct
      rw [← crossing_moved_row V.width V.height hWay,
        hBorder] at hError
      have hCut := Cut.row hSide (hApart.2 hSide) hError
      rwa [← hBorder] at hCut
  | false =>
      rw [hRow, if_neg (by decide)] at hBorder hProduct
      have hMid : side (movedEnd V.width V.height l).2
          V.height = .mid := by
        by_contra hNot
        exact absurd (hRound.mpr hNot) (by simp [hRow])
      have hSide : side (movedEnd V.width V.height l).1
          V.width ≠ .mid :=
        fun hCol => hOut ⟨hCol, hMid⟩
      have hWay : l.x1 - l.x0 ≠ 0 := by
        refine way_ne ?_ (hApart.1 hSide)
        unfold movedEnd keptEnd
        split
        · exact .inl ⟨rfl, rfl⟩
        · exact .inr ⟨rfl, rfl⟩
      refine ⟨hWay, ?_⟩
      have hError := rounded_error hWay hProduct
      rw [← crossing_moved_column V.width V.height hWay,
        hBorder] at hError
      have hCut := Cut.column hMid hSide (hApart.1 hSide)
        hError
      rwa [← hBorder] at hCut

--
-- One Step
--

/- One cut, from either end of a line. -/
inductive Clips
    (V : Viewport)
    (l : KsLineDraw) : KsLineDraw → Prop where
  | first
      {cx cy : Nat}
      {p : Int × Int}
      (hMoves : movesFirst V.width V.height l = true)
      (hCut : Cut V l.first l.last cx cy p)
      (hX : cx = if roundsX V.width V.height l then 1 else 0)
      (hY : cy = if roundsX V.width V.height l then 0 else 1) :
      Clips V l { l with x0 := p.1, y0 := p.2 }
  | last
      {cx cy : Nat}
      {p : Int × Int}
      (hMoves : movesFirst V.width V.height l = false)
      (hHolds : V.Holds l.first)
      (hCut : Cut V l.last l.first cx cy p)
      (hX : cx = if roundsX V.width V.height l then 1 else 0)
      (hY : cy = if roundsX V.width V.height l then 0 else 1) :
      Clips V l { l with x1 := p.1, y1 := p.2 }

/- What a step can do. -/
theorem clipStep_cases
    (hWide : V.width ≤ 4096)
    (hHigh : V.height ≤ 4096)
    (hRange : InRange l) :
    (clipStep V.width V.height l = .inl (.inside l) ∧
        V.Holds l.first ∧ V.Holds l.last) ∨
      (clipStep V.width V.height l = .inl .outside ∧
        V.Shared l.first l.last) ∨
      ∃ l', clipStep V.width V.height l = .inr l' ∧
        (ratioArgs V.width V.height l).2.2 ≠ 0 ∧
          Clips V l l' := by
  have hA : outcode l.x0 l.y0 V.width V.height = 0 ↔
      V.Holds l.first := outcode_zero_iff l.first
  have hB : outcode l.x1 l.y1 V.width V.height = 0 ↔
      V.Holds l.last := outcode_zero_iff l.last
  have hShared : outcode l.x0 l.y0 V.width V.height &&&
        outcode l.x1 l.y1 V.width V.height ≠ 0 ↔
      V.Shared l.first l.last :=
    outcode_shared_iff l.first l.last
  have hMoves := @movesFirst_iff V l
  rw [clipStep_eq]
  dsimp only
  by_cases hIn : V.Holds l.first ∧ V.Holds l.last
  · refine .inl ⟨?_, hIn⟩
    rw [hA.mpr hIn.1, hB.mpr hIn.2]
    rfl
  have hNot : (outcode l.x0 l.y0 V.width V.height |||
      outcode l.x1 l.y1 V.width V.height == 0) = false := by
    rw [beq_eq_false_iff_ne, ne_eq, Nat.or_eq_zero_iff]
    exact fun hBoth =>
      hIn ⟨hA.mp hBoth.1, hB.mp hBoth.2⟩
  rw [hNot, if_neg (by decide)]
  by_cases hBeyond : V.Shared l.first l.last
  · refine .inr (.inl ⟨?_, hBeyond⟩)
    rw [if_pos (bne_iff_ne.mpr (hShared.mpr hBeyond))]
  rw [if_neg (fun hNe =>
    hBeyond (hShared.mp (bne_iff_ne.mp hNe)))]
  have hOut : ¬V.Holds (movedEnd V.width V.height l) := by
    unfold movedEnd
    split
    · exact hMoves.mp ‹_›
    · rename_i hFirst
      have hHeld : V.Holds l.first := by
        by_contra hNone
        exact hFirst (hMoves.mpr hNone)
      exact fun hLast => hIn ⟨hHeld, hLast⟩
  have hApart : ¬V.Shared (movedEnd V.width V.height l)
      (keptEnd V.width V.height l) := by
    unfold movedEnd keptEnd
    split
    · exact hBeyond
    · exact fun hSame => hBeyond hSame.symm
  obtain ⟨hSome, hCut⟩ :=
    clipPoint_cut hWide hHigh hRange hOut hApart
  refine .inr (.inr ⟨moveEnd V.width V.height l
    (clipPoint V.width V.height l), ?_, hSome, ?_⟩)
  · rw [if_neg (fun hZero => hSome (beq_iff_eq.mp hZero))]
  · unfold movedEnd keptEnd at hCut
    unfold moveEnd
    cases hFirst : movesFirst V.width V.height l with
    | true =>
        rw [hFirst, if_pos rfl, if_pos rfl] at hCut
        exact .first hFirst hCut rfl rfl
    | false =>
        rw [hFirst, if_neg (by decide),
          if_neg (by decide)] at hCut
        have hHeld : V.Holds l.first := by
          by_contra hNone
          exact absurd (hMoves.mpr hNone) (by simp [hFirst])
        exact .last hFirst hHeld hCut rfl rfl

variable {l' : KsLineDraw}

theorem Clips.inRange
    (hClips : Clips V l l')
    (hWide : V.width ≤ 4096)
    (hHigh : V.height ≤ 4096)
    (hRange : InRange l) :
    InRange l' := by
  cases hClips with
  | first hMoves hCut hX hY =>
      exact ⟨hCut.bounded (by decide) (by omega) (by omega)
        hRange.1 hRange.2, hRange.2⟩
  | last hMoves hHolds hCut hX hY =>
      exact ⟨hRange.1, hCut.bounded (by decide) (by omega)
        (by omega) hRange.2 hRange.1⟩

--
-- Runs
--

theorem clipTrace_inr
    {w h steps : Nat}
    (hStep : clipStep w h l = .inr l') :
    clipTrace w h (steps + 1) l =
      l :: clipTrace w h steps l' := by
  rw [clipTrace, hStep]

theorem clipTrace_inl
    {w h steps : Nat}
    {e : Clipped}
    (hStep : clipStep w h l = .inl e) :
    clipTrace w h (steps + 1) l = [] := by
  rw [clipTrace, hStep]

theorem clipLine_inr
    {w h steps : Nat}
    (hStep : clipStep w h l = .inr l') :
    clipLine w h (steps + 1) l = clipLine w h steps l' := by
  rw [clipLine, hStep]

theorem clipLine_inl
    {w h steps : Nat}
    {e : Clipped}
    (hStep : clipStep w h l = .inl e) :
    clipLine w h (steps + 1) l = e := by
  rw [clipLine, hStep]

/- What is left to clip, at both ends. -/
def leftToClip
    (V : Viewport)
    (l : KsLineDraw) : Nat :=
  V.rank l.first + V.rank l.last

/-
  A step leaves less to clip, or a line that the next step
  rejects.
-/
theorem Clips.progress
    (hClips : Clips V l l') :
    leftToClip V l' < leftToClip V l ∨
      V.Shared l'.first l'.last := by
  unfold leftToClip
  cases hClips with
  | first hMoves hCut hX hY =>
      exact hCut.progress.imp_left
        (fun hLess => Nat.add_lt_add_right hLess _)
  | last hMoves hHolds hCut hX hY =>
      exact hCut.progress.imp
        (fun hLess => Nat.add_lt_add_left hLess _)
        (fun hSame => hSame.symm)

theorem Clips.pos
    (hClips : Clips V l l') :
    0 < leftToClip V l := by
  unfold leftToClip
  cases hClips with
  | first hMoves hCut hX hY =>
      exact Nat.add_pos_left hCut.rank_pos _
  | last hMoves hHolds hCut hX hY =>
      exact Nat.add_pos_right _ hCut.rank_pos

/-
  A run of the loop from a line: the lines of which it moves
  an end, and what it makes of the last of them.
-/
inductive ClipRun
    (V : Viewport)
    (done : Clipped) : KsLineDraw → List KsLineDraw → Prop where
  | inside
      {l : KsLineDraw}
      (hDone : done = .inside l)
      (hFirst : V.Holds l.first)
      (hLast : V.Holds l.last) :
      ClipRun V done l []
  | outside
      {l : KsLineDraw}
      (hDone : done = .outside)
      (hShared : V.Shared l.first l.last) :
      ClipRun V done l []
  | step
      {l l' : KsLineDraw}
      {steps : List KsLineDraw}
      (hRange : InRange l)
      (hSome : (ratioArgs V.width V.height l).2.2 ≠ 0)
      (hClips : Clips V l l')
      (hRest : ClipRun V done l' steps) :
      ClipRun V done l (l :: steps)

theorem clipStep_shared
    (hShared : V.Shared l.first l.last) :
    clipStep V.width V.height l = .inl .outside := by
  have hBoth : outcode l.x0 l.y0 V.width V.height &&&
      outcode l.x1 l.y1 V.width V.height ≠ 0 :=
    (outcode_shared_iff l.first l.last).mpr hShared
  rw [clipStep_eq]
  dsimp only
  rw [if_neg, if_pos (bne_iff_ne.mpr hBoth)]
  rw [beq_iff_eq, Nat.or_eq_zero_iff]
  intro hZero
  rw [hZero.1] at hBoth
  exact hBoth (Nat.zero_and _)

/-
  With a step for each coordinate to clip, the loop comes to
  the end of a run.
-/
theorem clipLine_run
    (hWide : V.width ≤ 4096)
    (hHigh : V.height ≤ 4096)
    (hRange : InRange l)
    {steps : Nat}
    (hSteps : leftToClip V l < steps) :
    ClipRun V (clipLine V.width V.height steps l) l
      (clipTrace V.width V.height steps l) := by
  induction steps generalizing l with
  | zero => cases hSteps
  | succ steps ih =>
      rcases clipStep_cases hWide hHigh hRange with
        ⟨hStep, hFirst, hLast⟩ | ⟨hStep, hShared⟩ |
          ⟨l', hStep, hSome, hClips⟩
      · rw [clipLine_inl hStep, clipTrace_inl hStep]
        exact .inside rfl hFirst hLast
      · rw [clipLine_inl hStep, clipTrace_inl hStep]
        exact .outside rfl hShared
      · rw [clipLine_inr hStep, clipTrace_inr hStep]
        refine .step hRange hSome hClips ?_
        rcases hClips.progress with hLess | hShared
        · exact ih (hClips.inRange hWide hHigh hRange)
            (by omega)
        · obtain ⟨more, rfl⟩ : ∃ more, steps = more + 1 :=
            ⟨steps - 1, by have hPos := hClips.pos; omega⟩
          have hStep' := clipStep_shared hShared
          rw [clipLine_inl hStep', clipTrace_inl hStep']
          exact .outside rfl hShared

variable {done : Clipped} {steps : List KsLineDraw}

theorem ClipRun.exits
    (hRun : ClipRun V done l steps) :
    done ≠ .invalid := by
  induction hRun with
  | inside hDone hFirst hLast =>
      rw [hDone]
      nofun
  | outside hDone hShared =>
      rw [hDone]
      nofun
  | step hRange hSome hClips hRest ih => exact ih

/- Every step of a run divides, and by no 0. -/
theorem ClipRun.args
    (hRun : ClipRun V done l steps) :
    ∀ m ∈ steps,
      InRange m ∧ (ratioArgs V.width V.height m).2.2 ≠ 0 := by
  induction hRun with
  | inside hDone hFirst hLast => exact nofun
  | outside hDone hShared => exact nofun
  | step hRange hSome hClips hRest ih =>
      rw [List.forall_mem_cons]
      exact ⟨⟨hRange, hSome⟩, ih⟩

/-
  With the first end clipped, the line is accepted, and the
  run leaves that end.
-/
theorem ClipRun.held
    (hRun : ClipRun V done l steps)
    (hHolds : V.Holds l.first) :
    ∃ e, done = .inside e ∧ e.first = l.first := by
  induction hRun with
  | inside hDone hFirst hLast => exact ⟨_, hDone, rfl⟩
  | outside hDone hShared =>
      rcases hShared with ⟨hOut, -⟩ | ⟨hOut, -⟩
      · exact absurd hHolds.1 hOut
      · exact absurd hHolds.2 hOut
  | step hRange hSome hClips hRest ih =>
      cases hClips with
      | first hMoves hCut hX hY =>
          exact absurd hHolds (movesFirst_iff.mp hMoves)
      | last hMoves hHeld hCut hX hY => exact ih hHeld

/-
  How far from the border a rejected line can be in the
  viewport: a pixel for each coordinate that the first end
  has to be clipped in.
-/
def margins
    (V : Viewport)
    (l : KsLineDraw) : Nat × Nat :=
  if V.rank l.first = 2 then (1, 1) else (0, 1)

/-
  A rejected line misses all but the rim of the viewport:
  each cut loses less than a pixel of the real line.
-/
theorem ClipRun.misses
    (hRun : ClipRun V .outside l steps)
    {z : ℝ × ℝ}
    (hMem : z ∈ segment ℝ (place l.first) (place l.last)) :
    z ∉ V.core (margins V l).1 (margins V l).2 := by
  induction hRun generalizing z with
  | inside hDone hFirst hLast => cases hDone
  | outside hDone hShared =>
      exact fun hCore => hShared.disjoint hMem
        (V.core_mono hCore (Nat.cast_nonneg _)
          (Nat.cast_nonneg _))
  | @step m m' rest hRange hSome hClips hRest ih =>
      intro hCore
      have hLost : ∀ l' : KsLineDraw, ∀ steps',
          ClipRun V .outside l' steps' →
            ¬V.Holds l'.first := by
        intro l' steps' hRun' hHolds
        obtain ⟨e, hDone, -⟩ := hRun'.held hHolds
        cases hDone
      cases hClips with
      | last hMoves hHeld hCut hX hY =>
          exact hLost _ _ hRest hHeld
      | @first cx cy p hMoves hCut hX hY =>
          have hNone : z ∈ V.core 0 0 := V.core_mono hCore
            (Nat.cast_nonneg _) (Nat.cast_nonneg _)
          obtain ⟨v, hOn, hFirst, hSecond⟩ :=
            hCut.covers hMem hNone
          have hProgress := hCut.progress
          cases hCut with
          | @row x hOut hApart hError =>
              have hLess := rank_cut_row V x
                (side m.first.2 V.height)
              have hMargins : margins V
                  { m with
                    x0 := x
                    y0 := border (side m.first.2 V.height)
                      V.height } = (0, 1) :=
                if_neg (Nat.ne_of_lt
                  (Nat.lt_succ_of_le hLess))
              refine ih hOn ?_
              rw [hMargins]
              unfold margins at hCore
              rw [if_pos (rank_row hOut)] at hCore
              refine V.core_near (V.core_mono hCore ?_ ?_)
                hFirst hSecond
              · norm_num
              · norm_num
          | column hRow hOut hApart hError =>
              rw [rank_column hRow hOut] at hProgress
              rcases hProgress with hLess | hShared
              · exact hLost _ _ hRest (rank_zero_iff.mp
                  (Nat.lt_one_iff.mp hLess))
              · refine hShared.disjoint hOn ?_
                refine V.core_near (V.core_mono hCore ?_ ?_)
                  hFirst hSecond
                · unfold margins
                  rw [rank_column hRow hOut]
                  norm_num
                · unfold margins
                  rw [rank_column hRow hOut]
                  norm_num

--
-- How Far The Ends Come
--

/- How many steps round x, and how many round y. -/
def roundings
    (w h : Nat)
    (steps : List KsLineDraw) : Nat × Nat :=
  (steps.countP (roundsX w h),
    steps.countP (fun m => !roundsX w h m))

/- The steps that move the first end. -/
def firstSteps
    (w h : Nat)
    (steps : List KsLineDraw) : List KsLineDraw :=
  steps.filter (movesFirst w h)

theorem roundings_cons
    (w h : Nat)
    (l : KsLineDraw)
    (steps : List KsLineDraw) :
    roundings w h (l :: steps) =
      ((if roundsX w h l then 1 else 0) +
          (roundings w h steps).1,
        (if roundsX w h l then 0 else 1) +
          (roundings w h steps).2) := by
  unfold roundings
  rw [List.countP_cons, List.countP_cons]
  cases roundsX w h l with
  | true => simp [Nat.add_comm]
  | false => simp [Nat.add_comm]

variable {e : KsLineDraw}

/- An accepted line lies in the viewport, in its color. -/
theorem ClipRun.holds
    (hRun : ClipRun V (.inside e) l steps) :
    V.Holds e.first ∧ V.Holds e.last ∧
      e.color = l.color := by
  induction hRun with
  | inside hDone hFirst hLast =>
      cases hDone
      exact ⟨hFirst, hLast, rfl⟩
  | outside hDone hShared => cases hDone
  | step hRange hSome hClips hRest ih =>
      obtain ⟨hFirst, hLast, hColor⟩ := ih
      refine ⟨hFirst, hLast, hColor.trans ?_⟩
      cases hClips <;> rfl

/-
  The first end of an accepted line is within a pixel of the
  line for each of its own coordinates rounded.
-/
theorem ClipRun.near_first
    (hRun : ClipRun V (.inside e) l steps) :
    Near
      (roundings V.width V.height
        (firstSteps V.width V.height steps)).1
      (roundings V.width V.height
        (firstSteps V.width V.height steps)).2
      (place l.first) (place l.last) (place e.first) := by
  induction hRun with
  | inside hDone hFirst hLast =>
      cases hDone
      exact Near.of_mem (left_mem_segment _ _ _) _ _
  | outside hDone hShared => cases hDone
  | @step m m' rest hRange hSome hClips hRest ih =>
      cases hClips with
      | @first cx cy p hMoves hCut hX hY =>
          have hOld : Near cx cy (place m.first)
              (place m.last) (place m.last) :=
            Near.of_mem (right_mem_segment _ _ _) cx cy
          unfold firstSteps at ih ⊢
          rw [List.filter_cons_of_pos hMoves,
            roundings_cons, ← hX, ← hY, Nat.cast_add,
            Nat.cast_add]
          exact hCut.near.trans hOld ih
      | last hMoves hHeld hCut hX hY =>
          obtain ⟨e', hDone, hSame⟩ := hRest.held hHeld
          cases hDone
          rw [hSame]
          exact Near.of_mem (left_mem_segment _ _ _) _ _

/-
  The last end is within a pixel for each coordinate rounded
  in the run: it is cut from a line to a rounded end.
-/
theorem ClipRun.near_last
    (hRun : ClipRun V (.inside e) l steps) :
    Near
      (roundings V.width V.height steps).1
      (roundings V.width V.height steps).2
      (place l.first) (place l.last) (place e.last) := by
  induction hRun with
  | inside hDone hFirst hLast =>
      cases hDone
      exact Near.of_mem (right_mem_segment _ _ _) _ _
  | outside hDone hShared => cases hDone
  | @step m m' rest hRange hSome hClips hRest ih =>
      rw [roundings_cons, Nat.cast_add, Nat.cast_add]
      cases hClips with
      | @first cx cy p hMoves hCut hX hY =>
          rw [← hX, ← hY]
          have hOld : Near cx cy (place m.first)
              (place m.last) (place m.last) :=
            Near.of_mem (right_mem_segment _ _ _) cx cy
          exact hCut.near.trans hOld ih
      | @last cx cy p hMoves hHeld hCut hX hY =>
          rw [← hX, ← hY]
          have hOld : Near cx cy (place m.first)
              (place m.last) (place m.first) :=
            Near.of_mem (left_mem_segment _ _ _) cx cy
          exact hOld.trans hCut.near.symm ih

--
-- The Loop As A Whole
--

/- What the loop does with a line, for a viewport. -/
structure ClipsWell
    (w h : Nat)
    (l : KsLineDraw) : Prop where
  exits : clipLine w h 8 l ≠ .invalid
  divides : ∀ m ∈ clipTrace w h 8 l,
    (ratioArgs w h m).1.natAbs *
        (ratioArgs w h m).2.1.natAbs ≤ 2 ^ 32 - 1 ∧
      (ratioArgs w h m).2.2 ≠ 0
  inside : ∀ e, clipLine w h 8 l = .inside e →
    ((0 ≤ e.x0 ∧ e.x0 < w) ∧ 0 ≤ e.y0 ∧ e.y0 < h) ∧
      ((0 ≤ e.x1 ∧ e.x1 < w) ∧ 0 ≤ e.y1 ∧ e.y1 < h) ∧
        e.color = l.color
  first : ∀ e, clipLine w h 8 l = .inside e →
    Near
      (roundings w h
        (firstSteps w h (clipTrace w h 8 l))).1
      (roundings w h
        (firstSteps w h (clipTrace w h 8 l))).2
      (place l.first) (place l.last) (place e.first)
  last : ∀ e, clipLine w h 8 l = .inside e →
    Near
      (roundings w h (clipTrace w h 8 l)).1
      (roundings w h (clipTrace w h 8 l)).2
      (place l.first) (place l.last) (place e.last)
  outside : clipLine w h 8 l = .outside →
    ∀ z ∈ segment ℝ (place l.first) (place l.last),
      z.1 < 1 ∨ (w : ℝ) - 2 < z.1 ∨
        z.2 < 1 ∨ (h : ℝ) - 2 < z.2

theorem margins_le :
    (margins V l).1 ≤ 1 ∧ (margins V l).2 ≤ 1 := by
  unfold margins
  split <;> decide

theorem Viewport.Holds.bounds
    {p : Int × Int}
    (hHolds : V.Holds p) :
    (0 ≤ p.1 ∧ p.1 < V.width) ∧
      0 ≤ p.2 ∧ p.2 < V.height :=
  ⟨side_mid_iff.mp hHolds.1, side_mid_iff.mp hHolds.2⟩

end Steps

theorem clipLine_clipsWell
    {w h : Nat}
    {l : KsLineDraw}
    (hWide : 1 ≤ w ∧ w ≤ 4096)
    (hHigh : 1 ≤ h ∧ h ≤ 4096)
    (hShort : shortEnds l = true) :
    ClipsWell w h l := by
  let V : Viewport := ⟨w, h, hWide.1, hHigh.1⟩
  have hW : V.width ≤ 4096 := hWide.2
  have hH : V.height ≤ 4096 := hHigh.2
  have hRange := shortEnds_iff.mp hShort
  have hLeft : leftToClip V l < 8 := by
    have hFirst := @rank_le V l.first
    have hLast := @rank_le V l.last
    unfold leftToClip
    omega
  have hRun := clipLine_run hW hH hRange hLeft
  constructor
  · exact hRun.exits
  · intro m hMem
    obtain ⟨hRangeM, hSome⟩ := hRun.args m hMem
    exact ⟨Nat.le_pred_of_lt
      (ratioArgs_product hW hH hRangeM), hSome⟩
  · intro e hInside
    rw [hInside] at hRun
    obtain ⟨hFirst, hLast, hColor⟩ := hRun.holds
    exact ⟨Viewport.Holds.bounds hFirst,
      Viewport.Holds.bounds hLast, hColor⟩
  · intro e hInside
    rw [hInside] at hRun
    exact hRun.near_first
  · intro e hInside
    rw [hInside] at hRun
    exact hRun.near_last
  · intro hOutside z hMem
    rw [hOutside] at hRun
    have hMisses := hRun.misses hMem
    have hMargins := @margins_le V l
    by_contra hNot
    push Not at hNot
    obtain ⟨hX, hX', hY, hY'⟩ := hNot
    have hCore : z ∈ V.core 1 1 :=
      ⟨⟨hX, by linarith⟩, hY, by linarith⟩
    exact hMisses (V.core_mono hCore
      (by exact_mod_cast hMargins.1)
      (by exact_mod_cast hMargins.2))

/- A line across two corners, cut at both ends. -/
theorem clipLine_clipsWell_corners :
    shortEnds ⟨-100, -50, 700, 500, 0⟩ = true ∧
      ClipsWell 640 480 ⟨-100, -50, 700, 500, 0⟩ :=
  ⟨by decide, clipLine_clipsWell (by decide) (by decide)
    (by decide)⟩

/-
  The last end of this line is cut from a first end already
  rounded: it ends more than a pixel away.
-/
theorem clipped_end_apart :
    shortEnds ⟨7, 64, -2, -5, 0⟩ = true ∧
      clipLine 2 5 8 ⟨7, 64, -2, -5, 0⟩ =
        .inside ⟨0, 4, 0, 0, 0⟩ ∧
      ¬Near 1 1 (place (7, 64)) (place (-2, -5))
        (place (0, 0)) := by
  refine ⟨by decide, rfl, ?_⟩
  rintro ⟨v, hMem, hFirst, hSecond⟩
  obtain ⟨t, ht, hX, hY⟩ := mem_segment_share.mp hMem
  rw [hX, abs_le] at hFirst
  rw [hY, abs_le] at hSecond
  norm_num [place] at hFirst hSecond
  linarith [hFirst.1, hSecond.1]

end User

end KvantOS
