import KvantOS.Data.Boxes

/-
  This file models the rectangles of the source file `fb.c`,
  whose numbers are 32-bit, and the steps that cut one to
  the screen. `gui.c` and `fb.c` share them.

  Key definitions include:
    * `ClipRect`, `cutToScreen`, `OnScreen`

  Key theorems include:
    * `cutLow_eq`, `cutHigh_eq`, `cutToScreen_onScreen`
-/

namespace KvantOS.Display

/- `fb_clip_rect_t`. -/
structure ClipRect where
  x : Int32
  y : Int32
  w : Int32
  h : Int32
  deriving DecidableEq

/- The rectangle over the integers. -/
def ClipRect.box (r : ClipRect) : Box :=
  ⟨r.x.toInt, r.y.toInt, r.w.toInt, r.h.toInt⟩

/- `if (x < 0) { w += x; x = 0; }`. -/
def cutLow (x w : Int32) : Int32 × Int32 :=
  if x < 0 then (0, w + x) else (x, w)

/- `if (w > s - x) w = s - x`. -/
def cutHigh (s x w : Int32) : Int32 :=
  if s - x < w then s - x else w

/- The cuts of a rectangle to a screen, or none is left. -/
def cutToScreen
    (sw sh : Int32)
    (r : ClipRect) : Option ClipRect :=
  if r.w ≤ 0 ∨ r.h ≤ 0 then
    none
  else
    let (x, w) := cutLow r.x r.w
    let (y, h) := cutLow r.y r.h
    if sw ≤ x ∨ sh ≤ y ∨ w ≤ 0 ∨ h ≤ 0 then
      none
    else
      let w := cutHigh sw x w
      let h := cutHigh sh y h
      if w ≤ 0 ∨ h ≤ 0 then none else some ⟨x, y, w, h⟩

/- A sum in range is the sum of the integers. -/
theorem toInt_add_eq
    {a b : Int32}
    (hLow : -2 ^ 31 ≤ a.toInt + b.toInt)
    (hHigh : a.toInt + b.toInt < 2 ^ 31) :
    (a + b).toInt = a.toInt + b.toInt := by
  rw [Int32.toInt_add]
  exact Int.bmod_eq_of_le (by omega) (by omega)

/- A difference in range is that of the integers. -/
theorem toInt_sub_eq
    {a b : Int32}
    (hLow : -2 ^ 31 ≤ a.toInt - b.toInt)
    (hHigh : a.toInt - b.toInt < 2 ^ 31) :
    (a - b).toInt = a.toInt - b.toInt := by
  rw [Int32.toInt_sub]
  exact Int.bmod_eq_of_le (by omega) (by omega)

/- The cast of a size that an `i32` holds. -/
theorem toInt_cast
    {n : UInt32}
    (hSmall : n.toNat < 2 ^ 31) :
    n.toInt32.toInt = n.toNat := by
  show n.toBitVec.toInt = _
  rw [BitVec.toInt_eq_toNat_bmod]
  exact Int.bmod_eq_of_le (by omega) (by
    show (n.toNat : Int) < _
    omega)

theorem toInt_min (x y : Int32) :
    (if x < y then x else y).toInt = min x.toInt y.toInt := by
  split
  · rename_i hLess
    rw [Int32.lt_iff_toInt_lt] at hLess
    omega
  · rename_i hLess
    rw [Int32.lt_iff_toInt_lt] at hLess
    omega

theorem toInt_max (x y : Int32) :
    (if y < x then x else y).toInt = max x.toInt y.toInt := by
  split
  · rename_i hLess
    rw [Int32.lt_iff_toInt_lt] at hLess
    omega
  · rename_i hLess
    rw [Int32.lt_iff_toInt_lt] at hLess
    omega

--
-- Cuts
--

section Cuts

variable {s x w : Int32}

theorem cutLow_eq (hSome : 0 < w.toInt) :
    (cutLow x w).1.toInt = max 0 x.toInt ∧
      (cutLow x w).2.toInt = w.toInt + min 0 x.toInt := by
  have hLow := x.le_toInt
  have hHigh := w.toInt_lt
  unfold cutLow
  split
  · rename_i hNeg
    rw [Int32.lt_iff_toInt_lt, Int32.toInt_zero] at hNeg
    dsimp only
    rw [toInt_add_eq (by omega) (by omega), Int32.toInt_zero]
    omega
  · rename_i hNeg
    rw [Int32.lt_iff_toInt_lt, Int32.toInt_zero] at hNeg
    dsimp only
    omega

theorem cutHigh_eq
    (hLow : 0 ≤ x.toInt)
    (hIn : x.toInt < s.toInt) :
    (cutHigh s x w).toInt =
      min w.toInt (s.toInt - x.toInt) := by
  have hHigh := s.toInt_lt
  have hRest : (s - x).toInt = s.toInt - x.toInt :=
    toInt_sub_eq (by omega) (by omega)
  unfold cutHigh
  split
  · rename_i hMore
    rw [Int32.lt_iff_toInt_lt, hRest] at hMore
    omega
  · rename_i hMore
    rw [Int32.lt_iff_toInt_lt, hRest] at hMore
    omega

end Cuts

/- The rectangle cut to the screen, over the integers. -/
def OnScreen
    (sw sh : Int32)
    (r : ClipRect) : Option ClipRect → Prop
  | some q => q.box.Inside sw.toInt sh.toInt ∧
      q.box.points = r.box.points ∩
        (Box.frame sw.toInt sh.toInt).points
  | none => r.box.points ∩
      (Box.frame sw.toInt sh.toInt).points = ∅

/- What is left is the part on the screen. -/
theorem cutToScreen_onScreen
    (sw sh : Int32)
    (r : ClipRect) :
    OnScreen sw sh r (cutToScreen sw sh r) := by
  obtain ⟨x, y, w, h⟩ := r
  have hZero : (0 : Int32).toInt = 0 := rfl
  unfold cutToScreen
  dsimp only
  simp only [Int32.le_iff_toInt_le, hZero]
  by_cases hEmpty : w.toInt ≤ 0 ∨ h.toInt ≤ 0
  · rw [if_pos hEmpty]
    show Box.points _ ∩ _ = ∅
    rw [Box.points_empty hEmpty, Set.empty_inter]
  rw [if_neg hEmpty]
  obtain ⟨hX, hW⟩ := @cutLow_eq x w (by omega)
  obtain ⟨hY, hH⟩ := @cutLow_eq y h (by omega)
  generalize cutLow x w = low at hX hW
  generalize cutLow y h = low' at hY hH
  by_cases hOut : sw.toInt ≤ low.1.toInt ∨
      sh.toInt ≤ low'.1.toInt ∨ low.2.toInt ≤ 0 ∨
        low'.2.toInt ≤ 0
  · rw [if_pos hOut]
    show _ ∩ _ = ∅
    ext p
    rw [Set.mem_inter_iff, Box.mem_points, Box.mem_points]
    refine iff_of_false ?_ (Set.notMem_empty p)
    unfold ClipRect.box Box.frame
    dsimp only
    omega
  rw [if_neg hOut]
  have hWide := @cutHigh_eq sw low.1 low.2 (by omega)
    (by omega)
  have hHigh := @cutHigh_eq sh low'.1 low'.2 (by omega)
    (by omega)
  rw [if_neg (by omega)]
  constructor
  · constructor
    all_goals
      unfold ClipRect.box
      dsimp only
      omega
  · ext p
    rw [Set.mem_inter_iff, Box.mem_points, Box.mem_points,
      Box.mem_points]
    unfold ClipRect.box Box.frame
    dsimp only
    omega

end KvantOS.Display
