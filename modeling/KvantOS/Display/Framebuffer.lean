import KvantOS.Block.Bytes
import KvantOS.Display.Rects

/-
  This file models the clipped fills of the source file
  `fb.c` and proves which bytes they write: those of the
  pixels that are in the rectangle and in the clip list.

  Key definitions include:
    * `Framebuffer`, `putRaw`, `Clip`
    * `painted`

  Key theorems include:
    * `putRaw_painted`, `fillUnclipped_painted`
-/

namespace KvantOS.Display

--
-- The Framebuffer
--

/- The modes, by the bits of a pixel. -/
inductive Bpp where
  | b16
  | b24
  | b32
  deriving DecidableEq

/- `fb_bpp >> 3`. -/
def Bpp.bytes : Bpp → Nat
  | b16 => 2
  | b24 => 3
  | b32 => 4

/-
  An active framebuffer. A row holds its pixels, and the
  number of all bytes is a `u32`.
-/
structure Framebuffer where
  width : UInt32
  height : UInt32
  pitch : UInt32
  bpp : Bpp
  rows : width.toNat * bpp.bytes ≤ pitch.toNat
  fits : pitch.toNat * height.toNat < 2 ^ 32

/- A byte of a packed colour, the lowest first. -/
def byteOf (c : UInt32) (k : Nat) : UInt8 :=
  (c >>> UInt32.ofNat (8 * k)).toUInt8

/- A store of the lowest `n` bytes. -/
def store
    (n : Nat)
    (c : UInt32)
    (p : Nat)
    (mem : Buf) : Buf :=
  fun a => if p ≤ a ∧ a < p + n then byteOf c (a - p)
    else mem a

namespace Framebuffer

variable (fb : Framebuffer)

/- `y * fb_pitch + x * (fb_bpp >> 3)`, from `fb_draw`. -/
def offset (x y : UInt32) : UInt32 :=
  y * fb.pitch + x * UInt32.ofNat fb.bpp.bytes

/- `put_raw`, in the three modes. -/
def putRaw
    (x y c : UInt32)
    (mem : Buf) : Buf :=
  store fb.bpp.bytes c (fb.offset x y).toNat mem

/- A row of `fill_unclipped`. -/
def fillRow
    (x y w : Int32)
    (c : UInt32)
    (mem : Buf) : Buf :=
  let columns := List.range w.toInt.toNat
  match fb.bpp with
  | .b32 =>
      let row := (fb.offset x.toUInt32 y.toUInt32).toNat
      columns.foldl
        (fun mem i => store 4 c (row + 4 * i) mem) mem
  | .b16 | .b24 =>
      columns.foldl
        (fun mem i => fb.putRaw (x + Int32.ofNat i).toUInt32
          y.toUInt32 c mem) mem

/- `fill_unclipped`. -/
def fillUnclipped
    (r : ClipRect)
    (c : UInt32)
    (mem : Buf) : Buf :=
  (List.range r.h.toInt.toNat).foldl
    (fun mem j => fb.fillRow r.x (r.y + Int32.ofNat j) r.w c
      mem) mem

end Framebuffer

--
-- Clip Lists
--

/- `fb_clip_rects`, unless the list is not enabled. -/
abbrev Clip :=
  Option (List ClipRect)

/- The points that a clip list lets through. -/
def Clip.points : Clip → Set (Int × Int)
  | none => Set.univ
  | some rects => {p | ∃ r ∈ rects, p ∈ r.box.points}

instance
    (p : Int × Int)
    (clip : Clip) :
    Decidable (p ∈ clip.points) :=
  match clip with
  | none => .isTrue trivial
  | some rects => inferInstanceAs
      (Decidable (∃ r ∈ rects, p ∈ r.box.points))

/- `FB_CLIP_MAX`. -/
def fbClipMax : Nat := 24

namespace Framebuffer

variable (fb : Framebuffer)

/- `fb_set_clip_rects`, of a list or of `NULL`. -/
def setClipRects : Option (List ClipRect) → Clip
  | none => some []
  | some rects => some ((rects.take fbClipMax).filterMap
      (cutToScreen fb.width.toInt32 fb.height.toInt32))

/- `clip_has_pixel`. -/
def clipHasPixel
    (clip : Clip)
    (x y : Int32) : Bool :=
  match clip with
  | none => true
  | some rects => rects.any fun r =>
      r.x ≤ x && x < r.x + r.w && r.y ≤ y && y < r.y + r.h

/- `fb_pixel`. -/
def pixel
    (clip : Clip)
    (x y c : UInt32)
    (mem : Buf) : Buf :=
  if fb.width ≤ x ∨ fb.height ≤ y then
    mem
  else if clipHasPixel clip x.toInt32 y.toInt32 then
    fb.putRaw x y c mem
  else
    mem

/- One turn of the loop over the clip list. -/
def fillClipped
    (q : ClipRect)
    (c : UInt32)
    (mem : Buf)
    (r : ClipRect) : Buf :=
  let x0 := if r.x < q.x then q.x else r.x
  let y0 := if r.y < q.y then q.y else r.y
  let x1 := if q.x + q.w < r.x + r.w then q.x + q.w
    else r.x + r.w
  let y1 := if q.y + q.h < r.y + r.h then q.y + q.h
    else r.y + r.h
  if x0 < x1 ∧ y0 < y1 then
    fb.fillUnclipped ⟨x0, y0, x1 - x0, y1 - y0⟩ c mem
  else
    mem

/- `fb_fill`. -/
def fill
    (clip : Clip)
    (r : ClipRect)
    (c : UInt32)
    (mem : Buf) : Buf :=
  match cutToScreen fb.width.toInt32 fb.height.toInt32 r with
  | none => mem
  | some q =>
      match clip with
      | none => fb.fillUnclipped q c mem
      | some rects => rects.foldl (fb.fillClipped q c) mem

end Framebuffer

--
-- Bytes Of Pixels
--

namespace Framebuffer

variable (fb : Framebuffer)

/- The byte belongs to a pixel of the screen. -/
def Visible (a : Nat) : Prop :=
  a % fb.pitch.toNat < fb.width.toNat * fb.bpp.bytes ∧
    a / fb.pitch.toNat < fb.height.toNat

/- The pixel of a byte. -/
def pixelAt (a : Nat) : Int × Int :=
  ((a % fb.pitch.toNat / fb.bpp.bytes : Nat),
    (a / fb.pitch.toNat : Nat))

/- The place of a byte in its pixel. -/
def partAt (a : Nat) : Nat :=
  a % fb.pitch.toNat % fb.bpp.bytes

open Classical in
/- The points of the screen that are in a set get a colour. -/
noncomputable def painted
    (c : UInt32)
    (points : Set (Int × Int))
    (mem : Buf) : Buf :=
  fun a =>
    if fb.Visible a ∧ fb.pixelAt a ∈ points then
      byteOf c (fb.partAt a)
    else
      mem a

/- The points of the screen. -/
def screen : Set (Int × Int) :=
  (Box.frame fb.width.toNat fb.height.toNat).points

section Painted

variable {fb} {c : UInt32} {mem : Buf} {s t : Set (Int × Int)}

theorem painted_empty : fb.painted c ∅ mem = mem := by
  funext a
  exact if_neg fun hIn => hIn.2

theorem painted_union :
    fb.painted c t (fb.painted c s mem) =
      fb.painted c (s ∪ t) mem := by
  funext a
  unfold painted
  by_cases hT : fb.Visible a ∧ fb.pixelAt a ∈ t
  · rw [if_pos hT, if_pos ⟨hT.1, .inr hT.2⟩]
  · rw [if_neg hT]
    by_cases hS : fb.Visible a ∧ fb.pixelAt a ∈ s
    · rw [if_pos hS, if_pos ⟨hS.1, .inl hS.2⟩]
    · rw [if_neg hS, if_neg]
      rintro ⟨hSeen, hIn | hIn⟩
      · exact hS ⟨hSeen, hIn⟩
      · exact hT ⟨hSeen, hIn⟩

theorem pixelAt_mem
    {a : Nat}
    (hSeen : fb.Visible a) :
    fb.pixelAt a ∈ fb.screen := by
  obtain ⟨hRow, hColumn⟩ := hSeen
  have hLt := Nat.div_lt_of_lt_mul
    (by rwa [Nat.mul_comm] at hRow :
      a % fb.pitch.toNat < fb.bpp.bytes * fb.width.toNat)
  unfold pixelAt screen Box.frame
  rw [Box.mem_points]
  dsimp only
  generalize a % fb.pitch.toNat / fb.bpp.bytes = x at hLt
  generalize a / fb.pitch.toNat = y at hColumn
  omega

/- Only the points of the screen matter. -/
theorem painted_screen :
    fb.painted c (s ∩ fb.screen) mem =
      fb.painted c s mem := by
  funext a
  unfold painted
  have hSame : (fb.Visible a ∧ fb.pixelAt a ∈ s ∩ fb.screen) ↔
      fb.Visible a ∧ fb.pixelAt a ∈ s :=
    and_congr_right fun hSeen =>
      and_iff_left (pixelAt_mem hSeen)
  by_cases hIn : fb.Visible a ∧ fb.pixelAt a ∈ s
  · rw [if_pos hIn, if_pos (hSame.mpr hIn)]
  · rw [if_neg hIn, if_neg (fun hBoth => hIn (hSame.mp hBoth))]

/- A loop that paints one set after the other. -/
theorem foldl_painted
    {α : Type}
    {f : Buf → α → Buf}
    {points : α → Set (Int × Int)}
    {xs : List α}
    (hTurn : ∀ x ∈ xs, ∀ mem,
      f mem x = fb.painted c (points x) mem) :
    xs.foldl f mem =
      fb.painted c {p | ∃ x ∈ xs, p ∈ points x} mem := by
  induction xs generalizing mem with
  | nil =>
      have hNone : {p | ∃ x ∈ ([] : List α), p ∈ points x} =
          ∅ := by
        ext p
        exact iff_of_false (by rintro ⟨x, hMem, -⟩; cases hMem)
          (Set.notMem_empty p)
      rw [hNone, painted_empty]
      rfl
  | cons x xs ih =>
      rw [List.forall_mem_cons] at hTurn
      rw [List.foldl_cons, hTurn.1, ih hTurn.2, painted_union]
      congr 1
      ext p
      simp only [Set.mem_union, Set.mem_ofPred_eq,
        List.mem_cons, exists_eq_or_imp]

end Painted

section Addresses

variable {fb} {x y : Nat}

theorem bytes_pos (b : Bpp) : 0 < b.bytes := by
  cases b <;> decide

/- The bytes of a pixel on the screen. -/
theorem mem_pixel_iff
    (hX : x < fb.width.toNat)
    (hY : y < fb.height.toNat)
    (a : Nat) :
    (fb.pitch.toNat * y + fb.bpp.bytes * x ≤ a ∧
        a < fb.pitch.toNat * y + fb.bpp.bytes * x +
          fb.bpp.bytes) ↔
      fb.Visible a ∧ fb.pixelAt a = ((x : Int), (y : Int)) := by
  have hRows := fb.rows
  have hBytes := bytes_pos fb.bpp
  unfold Visible pixelAt
  rw [Prod.mk.injEq, Nat.cast_inj, Nat.cast_inj]
  generalize fb.pitch.toNat = pitch at *
  generalize fb.bpp.bytes = n at *
  generalize fb.width.toNat = width at *
  have hLast : n * x + n ≤ width * n := by
    calc
      n * x + n = n * (x + 1) := by rw [Nat.mul_succ]
      _ ≤ n * width := Nat.mul_le_mul_left _ hX
      _ = width * n := Nat.mul_comm _ _
  constructor
  · rintro ⟨hLow, hHigh⟩
    obtain ⟨k, rfl⟩ : ∃ k, a = pitch * y + (n * x + k) :=
      ⟨a - pitch * y - n * x, by omega⟩
    have hK : k < n := by omega
    rw [Nat.mul_add_mod, Nat.mod_eq_of_lt (by omega),
      Nat.mul_add_div (by omega),
      Nat.div_eq_of_lt (by omega : n * x + k < pitch),
      Nat.mul_add_div hBytes, Nat.div_eq_of_lt hK]
    omega
  · rintro ⟨-, hX, hY⟩
    have hOuter := Nat.div_add_mod a pitch
    have hInner := Nat.div_add_mod (a % pitch) n
    have hPart := Nat.mod_lt (a % pitch) hBytes
    rw [hY] at hOuter
    rw [hX] at hInner
    omega

theorem sub_pixel
    {a : Nat}
    (hSeen : fb.pixelAt a = ((x : Int), (y : Int))) :
    a - (fb.pitch.toNat * y + fb.bpp.bytes * x) =
      fb.partAt a := by
  unfold pixelAt at hSeen
  rw [Prod.mk.injEq, Nat.cast_inj, Nat.cast_inj] at hSeen
  obtain ⟨hX, hY⟩ := hSeen
  unfold partAt
  have hOuter := Nat.div_add_mod a fb.pitch.toNat
  have hInner := Nat.div_add_mod (a % fb.pitch.toNat)
    fb.bpp.bytes
  rw [hY] at hOuter
  rw [hX] at hInner
  omega

/- A store to a pixel paints it. -/
theorem store_painted
    {c : UInt32}
    {mem : Buf}
    (hX : x < fb.width.toNat)
    (hY : y < fb.height.toNat) :
    store fb.bpp.bytes c
        (fb.pitch.toNat * y + fb.bpp.bytes * x) mem =
      fb.painted c {((x : Int), (y : Int))} mem := by
  funext a
  unfold store painted
  have hIff := mem_pixel_iff hX hY a
  by_cases hIn : fb.pitch.toNat * y + fb.bpp.bytes * x ≤ a ∧
      a < fb.pitch.toNat * y + fb.bpp.bytes * x +
        fb.bpp.bytes
  · have hSeen := hIff.mp hIn
    rw [if_pos hIn, sub_pixel hSeen.2]
    exact (if_pos hSeen).symm
  · rw [if_neg hIn]
    exact (if_neg fun hSeen => hIn (hIff.mpr hSeen)).symm

/- The offset of a pixel on the screen does not wrap. -/
theorem offset_eq
    {u v : UInt32}
    (hX : u.toNat < fb.width.toNat)
    (hY : v.toNat < fb.height.toNat) :
    (fb.offset u v).toNat =
      fb.pitch.toNat * v.toNat + fb.bpp.bytes * u.toNat := by
  have hFits := fb.fits
  have hRows := fb.rows
  have hBytes : (UInt32.ofNat fb.bpp.bytes).toNat =
      fb.bpp.bytes := by
    cases fb.bpp <;> rfl
  have hRow : fb.bpp.bytes * u.toNat < fb.pitch.toNat := by
    calc
      fb.bpp.bytes * u.toNat
        < fb.bpp.bytes * fb.width.toNat :=
          Nat.mul_lt_mul_of_pos_left hX (bytes_pos _)
      _ = fb.width.toNat * fb.bpp.bytes := Nat.mul_comm _ _
      _ ≤ fb.pitch.toNat := hRows
  have hAll : fb.pitch.toNat * v.toNat +
      fb.bpp.bytes * u.toNat < 2 ^ 32 := by
    calc
      fb.pitch.toNat * v.toNat + fb.bpp.bytes * u.toNat
        < fb.pitch.toNat * (v.toNat + 1) := by
          rw [Nat.mul_succ]; omega
      _ ≤ fb.pitch.toNat * fb.height.toNat :=
          Nat.mul_le_mul_left _ hY
      _ < 2 ^ 32 := hFits
  unfold offset
  rw [UInt32.toNat_add, UInt32.toNat_mul, UInt32.toNat_mul,
    hBytes, Nat.mul_comm v.toNat, Nat.mul_comm u.toNat,
    Nat.mod_eq_of_lt (by omega : fb.pitch.toNat * v.toNat <
      2 ^ 32),
    Nat.mod_eq_of_lt (by omega : fb.bpp.bytes * u.toNat <
      2 ^ 32),
    Nat.mod_eq_of_lt hAll]

theorem putRaw_painted
    {u v c : UInt32}
    {mem : Buf}
    (hX : u.toNat < fb.width.toNat)
    (hY : v.toNat < fb.height.toNat) :
    fb.putRaw u v c mem =
      fb.painted c {((u.toNat : Int), (v.toNat : Int))}
        mem := by
  unfold putRaw
  rw [offset_eq hX hY, store_painted hX hY]

end Addresses

--
-- Fills
--

section Casts

/- A cast of a number that is not negative. -/
theorem toNat_cast
    {x : Int32}
    (hLow : 0 ≤ x.toInt) :
    (x.toUInt32.toNat : Int) = x.toInt := by
  have hLe : 0 ≤ x := Int32.le_iff_toInt_le.mpr hLow
  rw [Int32.toNat_toUInt32_of_le hLe]
  exact Int.toNat_of_nonneg hLow

/- The `i`th column or row. -/
theorem toInt_add_ofNat
    {x w : Int32}
    {i : Nat}
    (hLow : 0 ≤ x.toInt)
    (hEnd : x.toInt + w.toInt < 2 ^ 31)
    (hIn : i < w.toInt.toNat) :
    (x + Int32.ofNat i).toInt = x.toInt + i := by
  have hIndex : (Int32.ofNat i).toInt = i :=
    Int32.toInt_ofNat_of_lt (by omega)
  rw [toInt_add_eq (by omega) (by omega), hIndex]

end Casts

section Fills

variable {fb} {c : UInt32}

theorem width_lt : fb.width.toNat < 2 ^ 31 := by
  have hRows := fb.rows
  have hPitch := fb.pitch.toNat_lt
  have hTwo : fb.width.toNat * 2 ≤
      fb.width.toNat * fb.bpp.bytes :=
    Nat.mul_le_mul_left _ (by cases fb.bpp <;> decide)
  omega

theorem height_lt
    (hSome : 0 < fb.width.toNat) :
    fb.height.toNat < 2 ^ 31 := by
  have hRows := fb.rows
  have hFits := fb.fits
  have hTwo : 1 * 2 ≤ fb.width.toNat * fb.bpp.bytes :=
    Nat.mul_le_mul hSome (by cases fb.bpp <;> decide)
  have hAll : 2 * fb.height.toNat ≤
      fb.pitch.toNat * fb.height.toNat :=
    Nat.mul_le_mul_right _ (by omega)
  omega

/- The screen in the numbers that the code compares with. -/
theorem screen_eq :
    (Box.frame fb.width.toInt32.toInt
      fb.height.toInt32.toInt).points = fb.screen := by
  unfold screen
  rw [toInt_cast width_lt]
  by_cases hSome : 0 < fb.width.toNat
  · rw [toInt_cast (height_lt hSome)]
  · have hNone : ((fb.width.toNat : Nat) : Int) ≤ 0 := by omega
    rw [Box.points_empty (.inl hNone),
      Box.points_empty (.inl hNone)]

/- A rectangle that lies on the screen. -/
theorem inside_eq
    {b : Box}
    (hInside : b.Inside fb.width.toInt32.toInt
      fb.height.toInt32.toInt) :
    b.Inside fb.width.toNat fb.height.toNat := by
  obtain ⟨hLeft, hTop, hWide, hHigh, hRight, hBottom⟩ :=
    hInside
  rw [toInt_cast width_lt] at hRight
  rw [toInt_cast (height_lt (by omega))] at hBottom
  exact ⟨hLeft, hTop, hWide, hHigh, hRight, hBottom⟩

/- The part of a row that is filled. -/
def rowBox (x y w : Int32) : Box :=
  ⟨x.toInt, y.toInt, w.toInt, 1⟩

theorem fillRow_painted
    {x y w : Int32}
    (hLeft : 0 ≤ x.toInt)
    (hRight : x.toInt + w.toInt ≤ fb.width.toNat)
    (hTop : 0 ≤ y.toInt)
    (hBottom : y.toInt < fb.height.toNat)
    (mem : Buf) :
    fb.fillRow x y w c mem =
      fb.painted c (rowBox x y w).points mem := by
  have hWidth := @width_lt fb
  have hY := toNat_cast hTop
  -- every turn stores to one pixel
  have hTurns : ∀ f : Buf → Nat → Buf,
      (∀ i ∈ List.range w.toInt.toNat, ∀ mem, f mem i =
        fb.painted c {(x.toInt + i, y.toInt)} mem) →
      (List.range w.toInt.toNat).foldl f mem =
        fb.painted c (rowBox x y w).points mem := by
    intro f hTurn
    rw [foldl_painted hTurn]
    congr 1
    ext p
    unfold rowBox
    rw [Box.mem_points]
    dsimp only
    constructor
    · rintro ⟨i, hMem, rfl⟩
      rw [List.mem_range] at hMem
      dsimp only
      omega
    · rintro ⟨⟨hLow, hHigh⟩, hRow⟩
      refine ⟨(p.1 - x.toInt).toNat,
        List.mem_range.mpr (by omega), Prod.ext ?_ ?_⟩
      · dsimp only
        omega
      · dsimp only
        omega
  have hPut : ∀ i ∈ List.range w.toInt.toNat, ∀ mem,
      fb.putRaw (x + Int32.ofNat i).toUInt32 y.toUInt32 c
          mem =
        fb.painted c {(x.toInt + i, y.toInt)} mem := by
    intro i hMem mem
    rw [List.mem_range] at hMem
    have hAt := toInt_add_ofNat hLeft (by omega) hMem
    have hX := @toNat_cast (x + Int32.ofNat i) (by omega)
    rw [putRaw_painted (by omega) (by omega), hX, hY, hAt]
  unfold fillRow
  dsimp only
  cases hBpp : fb.bpp with
  | b16 => exact hTurns _ hPut
  | b24 => exact hTurns _ hPut
  | b32 =>
      refine hTurns _ fun i hMem mem => ?_
      rw [← hPut i hMem mem]
      rw [List.mem_range] at hMem
      have hAt := toInt_add_ofNat hLeft (by omega) hMem
      have hX := @toNat_cast (x + Int32.ofNat i) (by omega)
      have hFirst := toNat_cast hLeft
      unfold putRaw
      rw [offset_eq (by omega) (by omega),
        offset_eq (by omega) (by omega), hBpp]
      show store 4 _ (_ * _ + 4 * _ + 4 * i) _ =
        store 4 _ (_ * _ + 4 * _) _
      congr 1
      omega

/- A rectangle on the screen is filled. -/
theorem fillUnclipped_painted
    {r : ClipRect}
    (hInside : r.box.Inside fb.width.toNat fb.height.toNat)
    (mem : Buf) :
    fb.fillUnclipped r c mem =
      fb.painted c r.box.points mem := by
  obtain ⟨hLeft, hTop, hWide, hHigh, hRight, hBottom⟩ :=
    hInside
  unfold ClipRect.box at hLeft hTop hWide hHigh hRight hBottom
  dsimp only at hLeft hTop hWide hHigh hRight hBottom
  have hWidth := @width_lt fb
  have hHeight := @height_lt fb (by omega)
  unfold fillUnclipped
  have hTurn : ∀ j ∈ List.range r.h.toInt.toNat, ∀ mem,
      fb.fillRow r.x (r.y + Int32.ofNat j) r.w c mem =
        fb.painted c
          (rowBox r.x (r.y + Int32.ofNat j) r.w).points
          mem := by
    intro j hMem mem
    rw [List.mem_range] at hMem
    have hAt := toInt_add_ofNat hTop (by omega) hMem
    exact fillRow_painted hLeft hRight (by omega) (by omega)
      mem
  rw [foldl_painted hTurn]
  congr 1
  ext p
  unfold ClipRect.box rowBox
  rw [Box.mem_points]
  dsimp only
  constructor
  · rintro ⟨j, hMem, hRow⟩
    rw [List.mem_range] at hMem
    have hAt := toInt_add_ofNat hTop (by omega) hMem
    rw [Box.mem_points, hAt] at hRow
    dsimp only at hRow
    omega
  · rintro ⟨hColumn, hLow, hEnd⟩
    have hMem : (p.2 - r.y.toInt).toNat < r.h.toInt.toNat := by
      omega
    refine ⟨(p.2 - r.y.toInt).toNat,
      List.mem_range.mpr hMem, ?_⟩
    rw [Box.mem_points,
      toInt_add_ofNat hTop (by omega) hMem]
    dsimp only
    omega

end Fills

--
-- Clipped Fills
--

section Clipped

variable {fb} {c : UInt32} {clip : Clip}

variable (fb) in
/- The listed rectangles lie on the screen. -/
def ClipValid (clip : Clip) : Prop :=
  ∀ rects, clip = some rects → ∀ r ∈ rects,
    r.box.Inside fb.width.toNat fb.height.toNat

theorem clipValid_set (rects : Option (List ClipRect)) :
    fb.ClipValid (fb.setClipRects rects) := by
  intro out hSet r hMem
  cases rects with
  | none =>
      cases hSet
      cases hMem
  | some rects =>
      cases hSet
      obtain ⟨q, -, hCut⟩ := List.mem_filterMap.mp hMem
      have hOn := cutToScreen_onScreen fb.width.toInt32
        fb.height.toInt32 q
      rw [hCut] at hOn
      exact inside_eq hOn.1

/- The test of a pixel on the screen. -/
theorem clipHasPixel_iff
    {x y : Int32}
    (hClip : fb.ClipValid clip) :
    clipHasPixel clip x y = true ↔
      (x.toInt, y.toInt) ∈ Clip.points clip := by
  cases clip with
  | none => exact iff_of_true rfl trivial
  | some rects =>
      unfold clipHasPixel Clip.points
      rw [List.any_eq_true]
      refine exists_congr fun r => and_congr_right fun hMem => ?_
      obtain ⟨hLeft, hTop, hWide, hHigh, hRight, hBottom⟩ :=
        hClip rects rfl r hMem
      unfold ClipRect.box at *
      dsimp only at *
      have hWidth := @width_lt fb
      have hHeight := @height_lt fb (by omega)
      simp only [Bool.and_eq_true, decide_eq_true_eq,
        Int32.le_iff_toInt_le, Int32.lt_iff_toInt_lt]
      rw [toInt_add_eq (by omega) (by omega),
        toInt_add_eq (by omega) (by omega), Box.mem_points]
      dsimp only
      tauto

theorem pixel_painted
    {x y : UInt32}
    (hClip : fb.ClipValid clip)
    (mem : Buf) :
    fb.pixel clip x y c mem =
      fb.painted c ({((x.toNat : Int), (y.toNat : Int))} ∩
        Clip.points clip) mem := by
  unfold pixel
  simp only [UInt32.le_iff_toNat_le]
  by_cases hOut : fb.width.toNat ≤ x.toNat ∨
      fb.height.toNat ≤ y.toNat
  · rw [if_pos hOut, ← painted_screen]
    have hNone : ({((x.toNat : Int), (y.toNat : Int))} ∩
        Clip.points clip ∩ fb.screen : Set (Int × Int)) =
          ∅ := by
      ext p
      refine iff_of_false ?_ (Set.notMem_empty p)
      rintro ⟨⟨rfl, -⟩, hScreen⟩
      unfold screen Box.frame at hScreen
      rw [Box.mem_points] at hScreen
      dsimp only at hScreen
      omega
    rw [hNone, painted_empty]
  · have hWidth := @width_lt fb
    have hHeight := @height_lt fb (by omega)
    have hHas := @clipHasPixel_iff fb clip x.toInt32 y.toInt32
      hClip
    rw [toInt_cast (by omega), toInt_cast (by omega)] at hHas
    rw [if_neg hOut]
    by_cases hIn : ((x.toNat : Int), (y.toNat : Int)) ∈
        Clip.points clip
    · rw [if_pos (hHas.mpr hIn),
        putRaw_painted (by omega) (by omega),
        Set.inter_eq_left.mpr
          (Set.singleton_subset_iff.mpr hIn)]
    · rw [if_neg (fun hSet => hIn (hHas.mp hSet)),
        Set.singleton_inter_eq_empty.mpr hIn, painted_empty]

/- One rectangle of the list gets its part. -/
theorem fillClipped_painted
    {q r : ClipRect}
    (hQ : q.box.Inside fb.width.toNat fb.height.toNat)
    (hR : r.box.Inside fb.width.toNat fb.height.toNat)
    (mem : Buf) :
    fb.fillClipped q c mem r =
      fb.painted c (q.box.points ∩ r.box.points) mem := by
  obtain ⟨hLeft, hTop, hWide, hHigh, hRight, hBottom⟩ := hQ
  obtain ⟨hLeft', hTop', hWide', hHigh', hRight', hBottom'⟩ :=
    hR
  have hMeet := @Box.points_meet q.box r.box
  unfold Box.meet ClipRect.box at *
  dsimp only at *
  have hWidth := @width_lt fb
  have hHeight := @height_lt fb (by omega)
  have hX := toInt_max q.x r.x
  have hY := toInt_max q.y r.y
  have hXW := toInt_min (q.x + q.w) (r.x + r.w)
  have hYH := toInt_min (q.y + q.h) (r.y + r.h)
  rw [toInt_add_eq (by omega) (by omega),
    toInt_add_eq (by omega) (by omega)] at hXW hYH
  unfold fillClipped
  dsimp only
  generalize (if r.x < q.x then q.x else r.x) = x0 at hX
  generalize (if r.y < q.y then q.y else r.y) = y0 at hY
  generalize (if q.x + q.w < r.x + r.w then q.x + q.w
    else r.x + r.w) = x1 at hXW
  generalize (if q.y + q.h < r.y + r.h then q.y + q.h
    else r.y + r.h) = y1 at hYH
  simp only [Int32.lt_iff_toInt_lt]
  have hW : (x1 - x0).toInt = x1.toInt - x0.toInt :=
    toInt_sub_eq (by omega) (by omega)
  have hH : (y1 - y0).toInt = y1.toInt - y0.toInt :=
    toInt_sub_eq (by omega) (by omega)
  rw [← hMeet, ← hX, ← hY, ← hXW, ← hYH]
  by_cases hSome : x0.toInt < x1.toInt ∧ y0.toInt < y1.toInt
  · rw [if_pos hSome, fillUnclipped_painted]
    · unfold ClipRect.box
      dsimp only
      rw [hW, hH]
    · unfold ClipRect.box
      dsimp only
      rw [hW, hH]
      constructor <;> (dsimp only; omega)
  · rw [if_neg hSome, Box.points_empty (by dsimp only; omega),
      painted_empty]

/- A fill paints the rectangle within the clip list. -/
theorem fill_painted
    {r : ClipRect}
    (hClip : fb.ClipValid clip)
    (mem : Buf) :
    fb.fill clip r c mem =
      fb.painted c (r.box.points ∩ Clip.points clip) mem := by
  have hOn := cutToScreen_onScreen fb.width.toInt32
    fb.height.toInt32 r
  unfold fill
  cases hCut : cutToScreen fb.width.toInt32
      fb.height.toInt32 r with
  | none =>
      rw [hCut] at hOn
      change _ = ∅ at hOn
      rw [screen_eq] at hOn
      rw [← painted_screen, Set.inter_right_comm, hOn,
        Set.empty_inter, painted_empty]
  | some q =>
      rw [hCut] at hOn
      obtain ⟨hInside, hPoints⟩ := hOn
      rw [screen_eq] at hPoints
      have hQ := inside_eq hInside
      rw [← painted_screen, Set.inter_right_comm, ← hPoints]
      cases clip with
      | none =>
          show fb.fillUnclipped q c mem = _
          rw [fillUnclipped_painted hQ]
          show _ = fb.painted c (_ ∩ Set.univ) mem
          rw [Set.inter_univ]
      | some rects =>
          show rects.foldl (fb.fillClipped q c) mem = _
          rw [foldl_painted fun r hMem mem =>
            fillClipped_painted hQ (hClip rects rfl r hMem)
              mem]
          congr 1
          ext p
          unfold Clip.points
          simp only [Set.mem_ofPred_eq, Set.mem_inter_iff]
          tauto

end Clipped

end Framebuffer

end KvantOS.Display
