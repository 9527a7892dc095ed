import KvantOS.Display.Framebuffer

/-
  This file models the drawing calls of applications, from
  the source file `kapp.c`, and proves when a rectangle is
  clipped exactly: unless the sum of its origin and size
  leaves the range of an `i32`.

  Key definitions include:
    * `Client`, `clipFill`
    * `apiPixel`, `apiFill`, `apiRect`, `apiLine`
    * `DrawsExactly`

  Key theorems include:
    * `clipFill_painted`, `clipFill_overflow`
    * `drawing_inside`, `drawsExactly_iff`
-/

namespace KvantOS.Display

--
-- Drawing Calls
--

/- A client area on the screen: `cl_x`, `cl_y`, `cl_w`, `cl_h`. -/
structure Client (fb : Framebuffer) where
  x : Int32
  y : Int32
  w : Int32
  h : Int32
  left : 0 ≤ x.toInt
  top : 0 ≤ y.toInt
  wide : 0 ≤ w.toInt
  high : 0 ≤ h.toInt
  right : x.toInt + w.toInt ≤ fb.width.toNat
  bottom : y.toInt + h.toInt ≤ fb.height.toNat

section Calls

variable {fb : Framebuffer}
variable (clip : Clip)
variable (cl : Client fb)

/- `clip_fill`. -/
def clipFill
    (x y w h : Int32)
    (c : UInt32)
    (mem : Buf) : Buf :=
  if w ≤ 0 ∨ h ≤ 0 then
    mem
  else
    let ax := cl.x + x
    let ay := cl.y + y
    let bx := ax + w
    let by_ := ay + h
    let ax := if ax < cl.x then cl.x else ax
    let ay := if ay < cl.y then cl.y else ay
    let bx := if cl.x + cl.w < bx then cl.x + cl.w else bx
    let by_ := if cl.y + cl.h < by_ then cl.y + cl.h else by_
    if bx ≤ ax ∨ by_ ≤ ay then
      mem
    else
      fb.fill clip ⟨ax, ay, bx - ax, by_ - ay⟩ c mem

/- `api_clear`. -/
def apiClear (c : UInt32) (mem : Buf) : Buf :=
  clipFill clip cl 0 0 cl.w cl.h c mem

/- `api_pixel`. -/
def apiPixel
    (x y : Int32)
    (c : UInt32)
    (mem : Buf) : Buf :=
  if x < 0 ∨ y < 0 ∨ cl.w ≤ x ∨ cl.h ≤ y then
    mem
  else
    fb.pixel clip (cl.x + x).toUInt32 (cl.y + y).toUInt32 c mem

/- `api_fill`. -/
def apiFill
    (x y w h : Int32)
    (c : UInt32)
    (mem : Buf) : Buf :=
  clipFill clip cl x y w h c mem

/- `api_rect`. -/
def apiRect
    (x y w h : Int32)
    (c : UInt32)
    (mem : Buf) : Buf :=
  if w ≤ 0 ∨ h ≤ 0 then
    mem
  else
    let mem := clipFill clip cl x y w 1 c mem
    let mem := clipFill clip cl x (y + h - 1) w 1 c mem
    let mem := clipFill clip cl x y 1 h c mem
    clipFill clip cl (x + w - 1) y 1 h c mem

/- The loop of `api_line`, for `turns` more turns. -/
def lineLoop
    (x1 y1 dx dy sx sy : Int32)
    (c : UInt32) :
    (turns : Nat) → (x0 y0 err : Int32) → Buf → Buf
  | 0, _, _, _, mem => mem
  | turns + 1, x0, y0, err, mem =>
      let mem := apiPixel clip cl x0 y0 c mem
      if x0 = x1 ∧ y0 = y1 then
        mem
      else
        let e2 := err * 2
        let (err, x0) :=
          if -dy < e2 then (err - dy, x0 + sx) else (err, x0)
        let (err, y0) :=
          if e2 < dx then (err + dx, y0 + sy) else (err, y0)
        lineLoop x1 y1 dx dy sx sy c turns x0 y0 err mem

/- `api_line`. -/
def apiLine
    (x0 y0 x1 y1 : Int32)
    (c : UInt32)
    (mem : Buf) : Buf :=
  let dx := x1 - x0
  let dy := y1 - y0
  let sx := if dx < 0 then -1 else 1
  let sy := if dy < 0 then -1 else 1
  let dx := if dx < 0 then -dx else dx
  let dy := if dy < 0 then -dy else dy
  lineLoop clip cl x1 y1 dx dy sx sy c 8192 x0 y0 (dx - dy)
    mem

end Calls

--
-- Clipped Rectangles
--

section Clipping

variable {fb : Framebuffer} {clip : Clip} {cl : Client fb}
variable {c : UInt32} {mem : Buf}

/- The client area, over the integers. -/
def Client.box (cl : Client fb) : Box :=
  ⟨cl.x.toInt, cl.y.toInt, cl.w.toInt, cl.h.toInt⟩

/- What an application can draw on. -/
def Client.canvas
    (cl : Client fb)
    (clip : Clip) : Set (Int × Int) :=
  cl.box.points ∩ Clip.points clip

/- A rectangle of the client area, on the screen. -/
def Client.target
    (cl : Client fb)
    (x y w h : Int) : Box :=
  ⟨cl.x.toInt + x, cl.y.toInt + y, w, h⟩

/- The right and lower edges on the screen are an `i32`. -/
def Client.Fits
    (cl : Client fb)
    (x y w h : Int) : Prop :=
  cl.x.toInt + x + w < 2 ^ 31 ∧ cl.y.toInt + y + h < 2 ^ 31

/- The edges that the code computes for one axis. -/
def lowEdge (o x : Int32) : Int32 :=
  if o + x < o then o else o + x

def highEdge (o e x w : Int32) : Int32 :=
  if o + e < o + x + w then o + e else o + x + w

section Axis

variable {o e x w : Int32}

theorem lowEdge_eq
    (hOrigin : 0 ≤ o.toInt)
    (hFits : o.toInt + x.toInt < 2 ^ 31) :
    (lowEdge o x).toInt = max o.toInt (o.toInt + x.toInt) := by
  have hLow := x.le_toInt
  have hSum : (o + x).toInt = o.toInt + x.toInt :=
    toInt_add_eq (by omega) (by omega)
  unfold lowEdge
  split
  · rename_i hLess
    rw [Int32.lt_iff_toInt_lt, hSum] at hLess
    omega
  · rename_i hLess
    rw [Int32.lt_iff_toInt_lt, hSum] at hLess
    omega

theorem highEdge_eq
    (hOrigin : 0 ≤ o.toInt)
    (hSome : 0 < w.toInt)
    (hEnd : o.toInt + e.toInt < 2 ^ 31)
    (hExtent : 0 ≤ e.toInt)
    (hFits : o.toInt + x.toInt + w.toInt < 2 ^ 31) :
    (highEdge o e x w).toInt =
      min (o.toInt + e.toInt)
        (o.toInt + x.toInt + w.toInt) := by
  have hLow := x.le_toInt
  have hSum : (o + x).toInt = o.toInt + x.toInt :=
    toInt_add_eq (by omega) (by omega)
  have hAll : (o + x + w).toInt =
      o.toInt + x.toInt + w.toInt := by
    rw [toInt_add_eq (by omega) (by omega), hSum]
  have hLast : (o + e).toInt = o.toInt + e.toInt :=
    toInt_add_eq (by omega) (by omega)
  unfold highEdge
  split
  · rename_i hLess
    rw [Int32.lt_iff_toInt_lt, hLast, hAll] at hLess
    omega
  · rename_i hLess
    rw [Int32.lt_iff_toInt_lt, hLast, hAll] at hLess
    omega

/- A sum that wraps leaves nothing to draw. -/
theorem edges_overflow
    (hOrigin : 0 ≤ o.toInt)
    (hOver : 2 ^ 31 ≤ o.toInt + x.toInt + w.toInt) :
    (highEdge o e x w).toInt ≤ (lowEdge o x).toInt := by
  have hO := o.toInt_lt
  have hX := x.toInt_lt
  have hW := w.toInt_lt
  have hHigh : (highEdge o e x w).toInt ≤
      (o + x + w).toInt := by
    unfold highEdge
    split
    · rename_i hLess
      exact Int.le_of_lt (Int32.lt_iff_toInt_lt.mp hLess)
    · exact Int.le_refl _
  have hLow : o.toInt ≤ (lowEdge o x).toInt := by
    unfold lowEdge
    split
    · exact Int.le_refl _
    · rename_i hLess
      rw [Int32.lt_iff_toInt_lt] at hLess
      omega
  have hSum : (o + x + w).toInt ≤
      o.toInt + x.toInt + w.toInt - 2 ^ 32 := by
    rw [Int32.toInt_add, Int32.toInt_add, Int.bmod_add_bmod,
      Int.bmod_def]
    split <;> omega
  omega

/- An area without extent leaves nothing to draw. -/
theorem edges_empty
    (hNone : e.toInt = 0) :
    (highEdge o e x w).toInt ≤ (lowEdge o x).toInt := by
  have hZero : o + e = o := by
    rw [Int32.toInt_inj.mp (hNone.trans Int32.toInt_zero.symm),
      Int32.add_zero]
  have hHigh : (highEdge o e x w).toInt ≤ o.toInt := by
    unfold highEdge
    rw [hZero]
    split
    · exact Int.le_refl _
    · rename_i hLess
      rw [Int32.lt_iff_toInt_lt] at hLess
      omega
  have hLow : o.toInt ≤ (lowEdge o x).toInt := by
    unfold lowEdge
    split
    · exact Int.le_refl _
    · rename_i hLess
      rw [Int32.lt_iff_toInt_lt] at hLess
      omega
  omega

end Axis

variable {x y w h : Int32}

/- The call in terms of its edges. -/
theorem clipFill_edges :
    clipFill clip cl x y w h c mem =
      if w ≤ 0 ∨ h ≤ 0 then mem
      else if highEdge cl.x cl.w x w ≤ lowEdge cl.x x ∨
          highEdge cl.y cl.h y h ≤ lowEdge cl.y y then mem
      else
        fb.fill clip ⟨lowEdge cl.x x, lowEdge cl.y y,
          highEdge cl.x cl.w x w - lowEdge cl.x x,
          highEdge cl.y cl.h y h - lowEdge cl.y y⟩ c mem :=
  rfl

theorem target_empty
    (hNone : w ≤ 0 ∨ h ≤ 0)
    (s : Set (Int × Int)) :
    (cl.target x.toInt y.toInt w.toInt h.toInt).points ∩ s =
      ∅ := by
  rw [Int32.le_iff_toInt_le, Int32.le_iff_toInt_le,
    Int32.toInt_zero] at hNone
  rw [Box.points_empty hNone, Set.empty_inter]

/- A sum that leaves the range draws nothing. -/
theorem clipFill_overflow
    (hOver : ¬cl.Fits x.toInt y.toInt w.toInt h.toInt) :
    clipFill clip cl x y w h c mem = mem := by
  rw [clipFill_edges]
  split
  · rfl
  rw [if_pos]
  rw [Int32.le_iff_toInt_le, Int32.le_iff_toInt_le]
  unfold Client.Fits at hOver
  rw [not_and_or, Int.not_lt, Int.not_lt] at hOver
  rcases hOver with hOver | hOver
  · exact .inl (edges_overflow cl.left hOver)
  · exact .inr (edges_overflow cl.top hOver)

/- Otherwise the rectangle is clipped exactly. -/
theorem clipFill_painted
    (hClip : fb.ClipValid clip)
    (hFits : cl.Fits x.toInt y.toInt w.toInt h.toInt) :
    clipFill clip cl x y w h c mem =
      fb.painted c
        ((cl.target x.toInt y.toInt w.toInt h.toInt).points ∩
          cl.canvas clip) mem := by
  rw [clipFill_edges]
  by_cases hNone : w ≤ 0 ∨ h ≤ 0
  · rw [if_pos hNone, target_empty hNone,
      Framebuffer.painted_empty]
  rw [if_neg hNone]
  rw [Int32.le_iff_toInt_le, Int32.le_iff_toInt_le,
    Int32.toInt_zero, not_or, Int.not_le, Int.not_le] at hNone
  obtain ⟨hW, hH⟩ := hNone
  obtain ⟨hRight, hBottom⟩ := hFits
  have hWidth := @Framebuffer.width_lt fb
  have hLeftIn := cl.left
  have hTopIn := cl.top
  have hWideIn := cl.wide
  have hHighIn := cl.high
  have hRightIn := cl.right
  have hBottomIn := cl.bottom
  have hNothing : ∀ s : Set (Int × Int), cl.w.toInt = 0 ∨
      cl.h.toInt = 0 → s ∩ cl.canvas clip = ∅ := by
    intro s hZero
    have hBox : cl.box.points = ∅ :=
      Box.points_empty (hZero.imp Int.le_of_eq Int.le_of_eq)
    unfold Client.canvas
    rw [hBox, Set.empty_inter, Set.inter_empty]
  by_cases hZero : cl.w.toInt = 0 ∨ cl.h.toInt = 0
  · rw [if_pos, hNothing _ hZero, Framebuffer.painted_empty]
    rw [Int32.le_iff_toInt_le, Int32.le_iff_toInt_le]
    exact hZero.imp edges_empty edges_empty
  rw [not_or] at hZero
  have hHeight := @Framebuffer.height_lt fb (by omega)
  have hX0 := lowEdge_eq cl.left (by omega :
    cl.x.toInt + x.toInt < 2 ^ 31)
  have hY0 := lowEdge_eq cl.top (by omega :
    cl.y.toInt + y.toInt < 2 ^ 31)
  have hX1 := highEdge_eq cl.left hW (by omega) hWideIn hRight
  have hY1 := highEdge_eq cl.top hH (by omega) hHighIn hBottom
  generalize lowEdge cl.x x = x0 at *
  generalize lowEdge cl.y y = y0 at *
  generalize highEdge cl.x cl.w x w = x1 at *
  generalize highEdge cl.y cl.h y h = y1 at *
  have hPoints : (cl.target x.toInt y.toInt w.toInt
      h.toInt).points ∩ cl.box.points =
      Box.points ⟨x0.toInt, y0.toInt, x1.toInt - x0.toInt,
        y1.toInt - y0.toInt⟩ := by
    rw [← Box.points_meet]
    unfold Box.meet Client.target Client.box
    dsimp only
    rw [max_comm, ← hX0, max_comm (_ + _), ← hY0, min_comm,
      ← hX1, min_comm (_ + _ + _), ← hY1]
  unfold Client.canvas
  rw [← Set.inter_assoc, hPoints]
  simp only [Int32.le_iff_toInt_le]
  by_cases hOut : x1.toInt ≤ x0.toInt ∨ y1.toInt ≤ y0.toInt
  · rw [if_pos hOut, Box.points_empty (by dsimp only; omega),
      Set.empty_inter, Framebuffer.painted_empty]
  · rw [if_neg hOut, Framebuffer.fill_painted hClip]
    unfold ClipRect.box
    dsimp only
    rw [toInt_sub_eq (by omega) (by omega),
      toInt_sub_eq (by omega) (by omega)]

/- A dot is drawn if it is on the canvas. -/
theorem apiPixel_painted
    (hClip : fb.ClipValid clip) :
    apiPixel clip cl x y c mem =
      fb.painted c ({(cl.x.toInt + x.toInt,
        cl.y.toInt + y.toInt)} ∩ cl.canvas clip) mem := by
  have hWidth := @Framebuffer.width_lt fb
  have hLeft := cl.left
  have hTop := cl.top
  have hRight := cl.right
  have hBottom := cl.bottom
  unfold apiPixel
  simp only [Int32.le_iff_toInt_le, Int32.lt_iff_toInt_lt,
    Int32.toInt_zero]
  unfold Client.canvas
  rw [← Set.inter_assoc]
  by_cases hOut : x.toInt < 0 ∨ y.toInt < 0 ∨
      cl.w.toInt ≤ x.toInt ∨ cl.h.toInt ≤ y.toInt
  · have hNone : ({(cl.x.toInt + x.toInt,
        cl.y.toInt + y.toInt)} : Set (Int × Int)) ∩
        cl.box.points = ∅ := by
      rw [Set.singleton_inter_eq_empty]
      unfold Client.box
      rw [Box.mem_points]
      dsimp only
      omega
    rw [if_pos hOut, hNone, Set.empty_inter,
      Framebuffer.painted_empty]
  · have hHeight := @Framebuffer.height_lt fb (by omega)
    have hX : (cl.x + x).toInt = cl.x.toInt + x.toInt :=
      toInt_add_eq (by omega) (by omega)
    have hY : (cl.y + y).toInt = cl.y.toInt + y.toInt :=
      toInt_add_eq (by omega) (by omega)
    have hColumn := @Framebuffer.toNat_cast (cl.x + x)
      (by omega)
    have hRow := @Framebuffer.toNat_cast (cl.y + y) (by omega)
    have hIn : (cl.x.toInt + x.toInt, cl.y.toInt + y.toInt) ∈
        cl.box.points := by
      unfold Client.box
      rw [Box.mem_points]
      dsimp only
      omega
    rw [if_neg hOut, Framebuffer.pixel_painted hClip, hColumn,
      hRow, hX, hY, Set.inter_eq_left.mpr
        (Set.singleton_subset_iff.mpr hIn)]

--
-- Nothing Outside The Client Area
--

/- Two memories that differ on the canvas only. -/
def SameOutside
    (cl : Client fb)
    (clip : Clip)
    (mem out : Buf) : Prop :=
  ∀ a, ¬(fb.Visible a ∧ fb.pixelAt a ∈ cl.canvas clip) →
    out a = mem a

theorem SameOutside.trans
    {one two : Buf}
    (hFirst : SameOutside cl clip mem one)
    (hSecond : SameOutside cl clip one two) :
    SameOutside cl clip mem two :=
  fun a hOut => (hSecond a hOut).trans (hFirst a hOut)

theorem painted_sameOutside (s : Set (Int × Int)) :
    SameOutside cl clip mem
      (fb.painted c (s ∩ cl.canvas clip) mem) :=
  fun _ hOut => if_neg fun hIn => hOut ⟨hIn.1, hIn.2.2⟩

theorem clipFill_inside
    (hClip : fb.ClipValid clip)
    (x y w h : Int32)
    (c : UInt32)
    (mem : Buf) :
    SameOutside cl clip mem
      (clipFill clip cl x y w h c mem) := by
  by_cases hFits : cl.Fits x.toInt y.toInt w.toInt h.toInt
  · rw [clipFill_painted hClip hFits]
    exact painted_sameOutside _
  · rw [clipFill_overflow hFits]
    exact fun _ _ => rfl

theorem apiPixel_inside
    (hClip : fb.ClipValid clip)
    (x y : Int32)
    (c : UInt32)
    (mem : Buf) :
    SameOutside cl clip mem (apiPixel clip cl x y c mem) := by
  rw [apiPixel_painted hClip]
  exact painted_sameOutside _

theorem apiRect_inside
    (hClip : fb.ClipValid clip)
    (x y w h : Int32)
    (c : UInt32)
    (mem : Buf) :
    SameOutside cl clip mem
      (apiRect clip cl x y w h c mem) := by
  unfold apiRect
  split
  · exact fun _ _ => rfl
  · exact (((clipFill_inside hClip _ _ _ _ _ _).trans
      (clipFill_inside hClip _ _ _ _ _ _)).trans
      (clipFill_inside hClip _ _ _ _ _ _)).trans
      (clipFill_inside hClip _ _ _ _ _ _)

/- Every turn of a line draws a dot. -/
theorem lineLoop_inside
    (hClip : fb.ClipValid clip)
    (x1 y1 dx dy sx sy : Int32)
    (c : UInt32)
    (turns : Nat)
    (x0 y0 err : Int32)
    (mem : Buf) :
    SameOutside cl clip mem (lineLoop clip cl x1 y1 dx dy sx sy
      c turns x0 y0 err mem) := by
  induction turns generalizing x0 y0 err mem with
  | zero => exact fun _ _ => rfl
  | succ turns ih =>
      have hDot := @apiPixel_inside _ _ cl hClip x0 y0 c mem
      rw [lineLoop]
      dsimp only
      split
      · exact hDot
      · exact hDot.trans (ih _ _ _ _)

/- No call draws outside of the canvas. -/
structure DrawsInside
    (clip : Clip)
    (cl : Client fb) : Prop where
  clear : ∀ c mem,
    SameOutside cl clip mem (apiClear clip cl c mem)
  pixel : ∀ x y c mem,
    SameOutside cl clip mem (apiPixel clip cl x y c mem)
  fill : ∀ x y w h c mem,
    SameOutside cl clip mem (apiFill clip cl x y w h c mem)
  rect : ∀ x y w h c mem,
    SameOutside cl clip mem (apiRect clip cl x y w h c mem)
  line : ∀ x0 y0 x1 y1 c mem,
    SameOutside cl clip mem
      (apiLine clip cl x0 y0 x1 y1 c mem)

theorem drawing_inside
    (hClip : fb.ClipValid clip)
    (cl : Client fb) :
    DrawsInside clip cl where
  clear := fun c mem => clipFill_inside hClip _ _ _ _ c mem
  pixel := apiPixel_inside hClip
  fill := clipFill_inside hClip
  rect := apiRect_inside hClip
  line := fun _ _ _ _ c mem =>
    lineLoop_inside hClip _ _ _ _ _ _ c _ _ _ _ mem

--
-- Borders
--

/- A rectangle without the one inside of it. -/
def border (b : Box) : Set (Int × Int) :=
  b.points \ Box.points ⟨b.x + 1, b.y + 1, b.w - 2, b.h - 2⟩

/- A border has four edges. -/
theorem border_eq
    {b : Box}
    (hWide : 0 < b.w)
    (hHigh : 0 < b.h) :
    border b =
      ((Box.points ⟨b.x, b.y, b.w, 1⟩ ∪
        Box.points ⟨b.x, b.y + b.h - 1, b.w, 1⟩) ∪
        Box.points ⟨b.x, b.y, 1, b.h⟩) ∪
        Box.points ⟨b.x + b.w - 1, b.y, 1, b.h⟩ := by
  ext p
  unfold border
  rw [Set.mem_sdiff, Set.mem_union, Set.mem_union,
    Set.mem_union, Box.mem_points, Box.mem_points,
    Box.mem_points, Box.mem_points, Box.mem_points,
    Box.mem_points]
  dsimp only
  omega

/- The border of a rectangle whose sums are in range. -/
theorem apiRect_painted
    (hClip : fb.ClipValid clip)
    (hFits : cl.Fits x.toInt y.toInt w.toInt h.toInt) :
    apiRect clip cl x y w h c mem =
      fb.painted c (border (cl.target x.toInt y.toInt w.toInt
        h.toInt) ∩ cl.canvas clip) mem := by
  unfold apiRect
  by_cases hNone : w ≤ 0 ∨ h ≤ 0
  · have hEmpty : border (cl.target x.toInt y.toInt w.toInt
        h.toInt) ∩ cl.canvas clip = ∅ := by
      unfold border
      rw [Set.sdiff_inter_right_comm, target_empty hNone,
        Set.empty_sdiff]
    rw [if_pos hNone, hEmpty, Framebuffer.painted_empty]
  rw [if_neg hNone]
  rw [Int32.le_iff_toInt_le, Int32.le_iff_toInt_le,
    Int32.toInt_zero, not_or, Int.not_le, Int.not_le] at hNone
  obtain ⟨hW, hH⟩ := hNone
  obtain ⟨hRight, hBottom⟩ := hFits
  have hLeft := cl.left
  have hTop := cl.top
  have hXLow := x.le_toInt
  have hYLow := y.le_toInt
  have hOne : (1 : Int32).toInt = 1 := rfl
  have hRow : (y + h - 1).toInt = y.toInt + h.toInt - 1 := by
    have hSum : (y + h).toInt = y.toInt + h.toInt :=
      toInt_add_eq (by omega) (by omega)
    rw [toInt_sub_eq (by omega) (by omega), hSum, hOne]
  have hColumn : (x + w - 1).toInt =
      x.toInt + w.toInt - 1 := by
    have hSum : (x + w).toInt = x.toInt + w.toInt :=
      toInt_add_eq (by omega) (by omega)
    rw [toInt_sub_eq (by omega) (by omega), hSum, hOne]
  dsimp only
  rw [clipFill_painted hClip ⟨by omega, by omega⟩,
    clipFill_painted hClip ⟨by omega, by omega⟩,
    clipFill_painted hClip ⟨by omega, by omega⟩,
    clipFill_painted hClip ⟨by omega, by omega⟩,
    Framebuffer.painted_union, Framebuffer.painted_union,
    Framebuffer.painted_union, hRow, hColumn, hOne,
    ← Set.union_inter_distrib_right,
    ← Set.union_inter_distrib_right,
    ← Set.union_inter_distrib_right,
    border_eq hW hH]
  have hLow : cl.y.toInt + (y.toInt + h.toInt - 1) =
      cl.y.toInt + y.toInt + h.toInt - 1 := by omega
  have hEdge : cl.x.toInt + (x.toInt + w.toInt - 1) =
      cl.x.toInt + x.toInt + w.toInt - 1 := by omega
  unfold Client.target
  dsimp only
  rw [hLow, hEdge, Set.union_assoc, Set.union_assoc]

/- Nothing is drawn where nothing is to be drawn. -/
theorem clipFill_none
    (hClip : fb.ClipValid clip)
    (hNone : (cl.target x.toInt y.toInt w.toInt
      h.toInt).points ∩ cl.canvas clip = ∅) :
    clipFill clip cl x y w h c mem = mem := by
  by_cases hFits : cl.Fits x.toInt y.toInt w.toInt h.toInt
  · rw [clipFill_painted hClip hFits, hNone,
      Framebuffer.painted_empty]
  · exact clipFill_overflow hFits

/- The last column or row, or a negative number. -/
theorem last_eq
    {x w : Int32}
    (hSome : 0 < w.toInt) :
    (x + w - 1).toInt = x.toInt + w.toInt - 1 ∨
      (x + w - 1).toInt < 0 := by
  have hX := x.le_toInt
  have hEnd := x.toInt_lt
  have hW := w.toInt_lt
  have hOne : (1 : Int32).toInt = 1 := rfl
  rw [Int32.toInt_sub, Int32.toInt_add, hOne]
  simp only [Int.bmod_def]
  omega

/- A rectangle in another one of which nothing is seen. -/
theorem unseen_mono
    {b d : Box}
    {s : Set (Int × Int)}
    (hNone : d.points ∩ s = ∅)
    (hSub : b.points ⊆ d.points) :
    b.points ∩ s = ∅ :=
  Set.subset_empty_iff.mp
    (hNone ▸ Set.inter_subset_inter_left s hSub)

/- Before the client area there is no canvas. -/
theorem unseen_before
    {b : Box}
    (hBefore : b.x + b.w ≤ cl.x.toInt ∨
      b.y + b.h ≤ cl.y.toInt) :
    b.points ∩ cl.canvas clip = ∅ := by
  ext p
  refine iff_of_false ?_ (Set.notMem_empty p)
  rintro ⟨hPoint, hClient, -⟩
  unfold Client.box at hClient
  rw [Box.mem_points] at hPoint hClient
  dsimp only at hClient
  omega

theorem apiRect_none
    (hClip : fb.ClipValid clip)
    (hNone : (cl.target x.toInt y.toInt w.toInt
      h.toInt).points ∩ cl.canvas clip = ∅) :
    apiRect clip cl x y w h c mem = mem := by
  unfold apiRect
  by_cases hEmpty : w ≤ 0 ∨ h ≤ 0
  · exact if_pos hEmpty
  rw [if_neg hEmpty]
  rw [Int32.le_iff_toInt_le, Int32.le_iff_toInt_le,
    Int32.toInt_zero, not_or, Int.not_le, Int.not_le] at hEmpty
  obtain ⟨hW, hH⟩ := hEmpty
  have hOne : (1 : Int32).toInt = 1 := rfl
  have hTop : ∀ mem, clipFill clip cl x y w 1 c mem = mem := by
    refine fun mem => clipFill_none hClip
      (unseen_mono hNone fun p hPoint => ?_)
    unfold Client.target at *
    rw [Box.mem_points] at *
    dsimp only at *
    omega
  have hBottom : ∀ mem,
      clipFill clip cl x (y + h - 1) w 1 c mem = mem := by
    intro mem
    refine clipFill_none hClip ?_
    rcases @last_eq y h hH with hLast | hBefore
    · refine unseen_mono hNone fun p hPoint => ?_
      unfold Client.target at *
      rw [Box.mem_points] at *
      dsimp only at *
      omega
    · refine unseen_before (.inr ?_)
      unfold Client.target
      dsimp only
      omega
  have hLeft : ∀ mem, clipFill clip cl x y 1 h c mem = mem := by
    refine fun mem => clipFill_none hClip
      (unseen_mono hNone fun p hPoint => ?_)
    unfold Client.target at *
    rw [Box.mem_points] at *
    dsimp only at *
    omega
  have hRight : ∀ mem,
      clipFill clip cl (x + w - 1) y 1 h c mem = mem := by
    intro mem
    refine clipFill_none hClip ?_
    rcases @last_eq x w hW with hLast | hBefore
    · refine unseen_mono hNone fun p hPoint => ?_
      unfold Client.target at *
      rw [Box.mem_points] at *
      dsimp only at *
      omega
    · refine unseen_before (.inl ?_)
      unfold Client.target
      dsimp only
      omega
  dsimp only
  rw [hTop, hBottom, hLeft, hRight]

--
-- Exact Clipping
--

/- The calls with some coordinates draw what they stand for. -/
structure DrawsExactly
    (clip : Clip)
    (cl : Client fb)
    (x y w h : Int32) : Prop where
  fill : ∀ c mem, apiFill clip cl x y w h c mem =
    fb.painted c ((cl.target x.toInt y.toInt w.toInt
      h.toInt).points ∩ cl.canvas clip) mem
  rect : ∀ c mem, apiRect clip cl x y w h c mem =
    fb.painted c (border (cl.target x.toInt y.toInt w.toInt
      h.toInt) ∩ cl.canvas clip) mem
  pixel : ∀ c mem, apiPixel clip cl x y c mem =
    fb.painted c ({(cl.x.toInt + x.toInt,
      cl.y.toInt + y.toInt)} ∩ cl.canvas clip) mem
  inside : DrawsInside clip cl

/-
  The sums are in range, or no point of the rectangle is on
  the canvas.
-/
def InRange
    (clip : Clip)
    (cl : Client fb)
    (x y w h : Int32) : Prop :=
  cl.Fits x.toInt y.toInt w.toInt h.toInt ∨
    (cl.target x.toInt y.toInt w.toInt h.toInt).points ∩
      cl.canvas clip = ∅

/- A painted point of the screen is seen. -/
theorem painted_ne
    {p : Int × Int}
    {s : Set (Int × Int)}
    (hScreen : p ∈ fb.screen)
    (hPoint : p ∈ s) :
    fb.painted 0 s (fun _ => 1) ≠ fun _ => 1 := by
  obtain ⟨px, py⟩ := p
  unfold Framebuffer.screen Box.frame at hScreen
  rw [Box.mem_points] at hScreen
  dsimp only at hScreen
  obtain ⟨x, rfl⟩ := Int.eq_ofNat_of_zero_le hScreen.1.1
  obtain ⟨y, rfl⟩ := Int.eq_ofNat_of_zero_le hScreen.2.1
  intro hSame
  have hBytes := Framebuffer.bytes_pos fb.bpp
  obtain ⟨hSeen, hAt⟩ := (Framebuffer.mem_pixel_iff
    (by omega : x < fb.width.toNat)
    (by omega : y < fb.height.toNat)
    (fb.pitch.toNat * y + fb.bpp.bytes * x)).mp
      ⟨Nat.le_refl _, by omega⟩
  have hByte := congrFun hSame
    (fb.pitch.toNat * y + fb.bpp.bytes * x)
  unfold Framebuffer.painted at hByte
  rw [if_pos ⟨hSeen, hAt ▸ hPoint⟩] at hByte
  unfold byteOf at hByte
  rw [UInt32.zero_shiftRight] at hByte
  cases hByte

/-
  Drawing is clipped exactly if and only if the sums are in
  range, or there is nothing to draw.
-/
theorem drawsExactly_iff
    (fb : Framebuffer)
    (rects : Option (List ClipRect))
    (cl : Client fb)
    (x y w h : Int32) :
    DrawsExactly (fb.setClipRects rects) cl x y w h ↔
      InRange (fb.setClipRects rects) cl x y w h := by
  have hClip := @Framebuffer.clipValid_set fb rects
  constructor
  · intro hExact
    by_cases hFits : cl.Fits x.toInt y.toInt w.toInt h.toInt
    · exact .inl hFits
    · refine .inr (Set.eq_empty_iff_forall_notMem.mpr ?_)
      intro p hPoint
      have hFill := hExact.fill 0 fun _ => 1
      unfold apiFill at hFill
      rw [clipFill_overflow hFits] at hFill
      have hScreen : p ∈ fb.screen := by
        have hClient := hPoint.2.1
        have hLeft := cl.left
        have hTop := cl.top
        have hRight := cl.right
        have hBottom := cl.bottom
        unfold Client.box at hClient
        unfold Framebuffer.screen Box.frame
        rw [Box.mem_points] at *
        dsimp only at *
        omega
      exact painted_ne hScreen hPoint hFill.symm
  · rintro (hFits | hNone)
    · exact ⟨fun _ _ => clipFill_painted hClip hFits,
        fun _ _ => apiRect_painted hClip hFits,
        fun _ _ => apiPixel_painted hClip,
        drawing_inside hClip cl⟩
    · refine ⟨fun _ _ => ?_, fun _ _ => ?_,
        fun _ _ => apiPixel_painted hClip,
        drawing_inside hClip cl⟩
      · rw [hNone, Framebuffer.painted_empty]
        exact clipFill_none hClip hNone
      · have hBorder : border (cl.target x.toInt y.toInt
            w.toInt h.toInt) ∩
            cl.canvas (fb.setClipRects rects) = ∅ := by
          unfold border
          rw [Set.sdiff_inter_right_comm, hNone,
            Set.empty_sdiff]
        rw [hBorder, Framebuffer.painted_empty]
        exact apiRect_none hClip hNone

end Clipping

/- A screen, and a client area that is not at its edge. -/
def vgaScreen : Framebuffer where
  width := 640
  height := 480
  pitch := 2560
  bpp := .b32
  rows := by decide
  fits := by decide

def vgaClient : Client vgaScreen where
  x := 1
  y := 1
  w := 100
  h := 100
  left := by decide
  top := by decide
  wide := by decide
  high := by decide
  right := by decide
  bottom := by decide

/- A row that is to reach the right edge is not drawn. -/
theorem wide_fill_lost :
    (∀ clip c mem, apiFill clip vgaClient 0 0 0x7FFFFFFF 10 c
        mem = mem) ∧
      ¬∀ (fb : Framebuffer) (rects : Option (List ClipRect))
        (cl : Client fb) (x y w h : Int32),
        DrawsExactly (fb.setClipRects rects) cl x y w h := by
  have hLost : ∀ clip c mem,
      apiFill clip vgaClient 0 0 0x7FFFFFFF 10 c mem =
        mem := by
    refine fun clip c mem => clipFill_overflow ?_
    unfold Client.Fits
    decide
  refine ⟨hLost, fun hAll => ?_⟩
  have hFill := (hAll vgaScreen (some [⟨0, 0, 640, 480⟩])
    vgaClient 0 0 0x7FFFFFFF 10).fill 0 fun _ => 1
  rw [hLost] at hFill
  refine @painted_ne vgaScreen (1, 1) _ ?_ ?_ hFill.symm
  · exact Box.mem_points.mpr (by decide)
  · refine ⟨Box.mem_points.mpr (by decide),
      Box.mem_points.mpr (by decide), ⟨0, 0, 640, 480⟩, ?_,
      Box.mem_points.mpr (by decide)⟩
    have hCut : cutToScreen vgaScreen.width.toInt32
        vgaScreen.height.toInt32 ⟨0, 0, 640, 480⟩ =
        some ⟨0, 0, 640, 480⟩ := by decide
    exact List.mem_filterMap.mpr
      ⟨_, List.mem_singleton.mpr rfl, hCut⟩

end KvantOS.Display
