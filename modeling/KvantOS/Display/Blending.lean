import KvantOS.Display.Framebuffer

/-
  This file models the blending of colours of the source file
  `fb.c`, and what a blended pixel does to the picture that
  a 32-bit framebuffer holds.

  Key definitions include:
    * `Channels`, `blendRgb`
    * `Framebuffer.getRaw`, `Framebuffer.blendPixel`
    * `Framebuffer.picture`

  Key theorems include:
    * `Framebuffer.picture_painted`
    * `Framebuffer.blendPixel_picture`
-/

namespace KvantOS.Display

--
-- Colours
--

/- The place and the size of a colour field, as in `r_pos`. -/
structure Channel where
  pos : UInt8
  size : UInt8
  some : 0 < size
  small : size ≤ 8

structure Channels where
  r : Channel
  g : Channel
  b : Channel

namespace Channel

variable (ch : Channel)

def mask : UInt32 :=
  (1 <<< ch.size.toUInt32) - 1

/- A field of a packed colour, on the scale to 255. -/
def unpack (c : UInt32) : UInt32 :=
  ((c >>> ch.pos.toUInt32) &&& ch.mask) * 255 / ch.mask

def pack (v : UInt8) : UInt32 :=
  (v.toUInt32 >>> (8 - ch.size).toUInt32) <<<
    ch.pos.toUInt32

end Channel

/- `fb_rgb`. -/
def fbRgb
    (ch : Channels)
    (r g b : UInt8) : UInt32 :=
  ch.r.pack r ||| ch.g.pack g ||| ch.b.pack b

/- A field of two colours, by the coverage of the first. -/
def mix (f b alpha : UInt32) : UInt8 :=
  ((f * alpha + b * (255 - alpha)) / 255).toUInt8

/- `blend_rgb`. -/
def blendRgb
    (ch : Channels)
    (fg bg alpha : UInt32) : UInt32 :=
  if alpha = 0 then bg
  else if 255 ≤ alpha then fg
  else
    fbRgb ch (mix (ch.r.unpack fg) (ch.r.unpack bg) alpha)
      (mix (ch.g.unpack fg) (ch.g.unpack bg) alpha)
      (mix (ch.b.unpack fg) (ch.b.unpack bg) alpha)

--
-- Pixels
--

namespace Framebuffer

variable (fb : Framebuffer)

/- `get_raw`. -/
def getRaw
    (x y : UInt32)
    (mem : Buf) : UInt32 :=
  let p := (fb.offset x y).toNat
  match fb.bpp with
  | .b32 => UInt32.ofNat (mem.get32 p)
  | .b24 => (mem p).toUInt32 |||
      (mem (p + 1)).toUInt32 <<< 8 |||
      (mem (p + 2)).toUInt32 <<< 16
  | .b16 => UInt32.ofNat (mem.get16 p)

/- `fb_blend_pixel`. -/
def blendPixel
    (ch : Channels)
    (clip : Clip)
    (x y : Int32)
    (c alpha : UInt32)
    (mem : Buf) : Buf :=
  if x < 0 ∨ y < 0 ∨ fb.width.toInt32 ≤ x ∨
      fb.height.toInt32 ≤ y then
    mem
  else if alpha = 0 then
    mem
  else if clipHasPixel clip x y then
    if 255 ≤ alpha then
      fb.putRaw x.toUInt32 y.toUInt32 c mem
    else
      fb.putRaw x.toUInt32 y.toUInt32
        (blendRgb ch c
          (fb.getRaw x.toUInt32 y.toUInt32 mem) alpha) mem
  else
    mem

/- The colour of a point of the screen. -/
def picture
    (mem : Buf)
    (p : Int × Int) : UInt32 :=
  fb.getRaw (UInt32.ofNat p.1.toNat) (UInt32.ofNat p.2.toNat)
    mem

section Pictures

variable {fb} {mem : Buf} {c : UInt32}

theorem byteOf_eq
    {k : Nat}
    (hByte : k < 4) :
    byteOf c k = UInt8.ofNat (c.toNat >>> (8 * k)) := by
  unfold byteOf
  apply UInt8.toNat_inj.mp
  rw [UInt32.toNat_toUInt8, UInt32.toNat_shiftRight,
    UInt8.toNat_ofNat', UInt32.toNat_ofNat',
    Nat.mod_eq_of_lt (by omega : 8 * k < 2 ^ 32),
    Nat.mod_eq_of_lt (by omega : 8 * k < 32)]

/- A point of the screen has coordinates. -/
theorem screen_cases
    {p : Int × Int}
    (hScreen : p ∈ fb.screen) :
    ∃ x y : Nat, p = ((x : Int), (y : Int)) ∧
      x < fb.width.toNat ∧ y < fb.height.toNat := by
  unfold screen Box.frame at hScreen
  rw [Box.mem_points] at hScreen
  dsimp only at hScreen
  exact ⟨p.1.toNat, p.2.toNat, Prod.ext (by dsimp only; omega)
    (by dsimp only; omega), by omega, by omega⟩

/- The picture in the bytes of a pixel. -/
theorem picture_eq
    (hMode : fb.bpp = .b32)
    {x y : Nat}
    (hX : x < fb.width.toNat)
    (hY : y < fb.height.toNat) :
    fb.picture mem ((x : Int), (y : Int)) =
      UInt32.ofNat
        (mem.get32 (fb.pitch.toNat * y + 4 * x)) := by
  unfold picture getRaw
  dsimp only
  rw [hMode, Int.toNat_natCast, Int.toNat_natCast]
  dsimp only
  have hColumn : (UInt32.ofNat x).toNat = x :=
    UInt32.toNat_ofNat_of_lt'
      (Nat.lt_trans hX fb.width.toNat_lt)
  have hRow : (UInt32.ofNat y).toNat = y :=
    UInt32.toNat_ofNat_of_lt'
      (Nat.lt_trans hY fb.height.toNat_lt)
  rw [offset_eq (by omega) (by omega), hColumn, hRow, hMode]
  rfl

/- Painting one point changes the picture there. -/
theorem picture_painted
    (hMode : fb.bpp = .b32)
    {p q : Int × Int}
    (hScreen : p ∈ fb.screen) :
    fb.picture (fb.painted c {q} mem) p =
      if p = q then c else fb.picture mem p := by
  obtain ⟨x, y, rfl, hX, hY⟩ := screen_cases hScreen
  rw [picture_eq hMode hX hY]
  have hBytes : fb.bpp.bytes = 4 := by rw [hMode]; rfl
  have hSeen : ∀ k < 4, fb.Visible
      (fb.pitch.toNat * y + 4 * x + k) ∧
      fb.pixelAt (fb.pitch.toNat * y + 4 * x + k) =
        ((x : Int), (y : Int)) := by
    intro k hByte
    refine (mem_pixel_iff hX hY _).mp ?_
    rw [hBytes]
    omega
  by_cases hHere : ((x : Int), (y : Int)) = q
  · rw [if_pos hHere]
    have hGet : (fb.painted c {q} mem).get32
        (fb.pitch.toNat * y + 4 * x) = c.toNat := by
      refine Buf.get32_of_bytes (fun k hByte => ?_)
        c.toNat_lt
      obtain ⟨hVisible, hAt⟩ := hSeen k hByte
      have hPart := sub_pixel hAt
      rw [hBytes] at hPart
      unfold painted
      rw [if_pos ⟨hVisible, hAt.trans hHere⟩, ← hPart,
        Nat.add_sub_cancel_left, byteOf_eq hByte]
    rw [hGet, UInt32.ofNat_toNat]
  · rw [if_neg hHere, picture_eq hMode hX hY]
    congr 1
    refine Buf.get32_congr fun k hByte => ?_
    obtain ⟨hVisible, hAt⟩ := hSeen k hByte
    unfold painted
    exact if_neg fun hIn => hHere (hAt.symm.trans hIn.2)

theorem ofNat_toInt
    {x : Int32}
    (hLow : 0 ≤ x.toInt) :
    UInt32.ofNat x.toInt.toNat = x.toUInt32 := by
  have hCast := toNat_cast hLow
  rw [← hCast, Int.toNat_natCast, UInt32.ofNat_toNat]

/- A blended pixel of the picture. -/
theorem blendPixel_picture
    (hMode : fb.bpp = .b32)
    {clip : Clip}
    (hClip : fb.ClipValid clip)
    (ch : Channels)
    (x y : Int32)
    (c alpha : UInt32)
    (mem : Buf)
    {p : Int × Int}
    (hScreen : p ∈ fb.screen) :
    fb.picture (fb.blendPixel ch clip x y c alpha mem) p =
      if p = (x.toInt, y.toInt) ∧ p ∈ Clip.points clip then
        blendRgb ch c (fb.picture mem p) alpha
      else fb.picture mem p := by
  obtain ⟨u, v, hPoint, hU, hV⟩ := screen_cases hScreen
  have hWidth := toInt_cast (@width_lt fb)
  have hHeight := toInt_cast (@height_lt fb (by omega))
  unfold blendPixel
  simp only [Int32.le_iff_toInt_le, Int32.lt_iff_toInt_lt,
    Int32.toInt_zero, hWidth, hHeight]
  by_cases hOut : x.toInt < 0 ∨ y.toInt < 0 ∨
      (fb.width.toNat : Int) ≤ x.toInt ∨
        (fb.height.toNat : Int) ≤ y.toInt
  · rw [if_pos hOut, if_neg]
    rintro ⟨hHere, -⟩
    rw [hPoint, Prod.mk.injEq] at hHere
    omega
  rw [if_neg hOut]
  by_cases hNone : alpha = 0
  · rw [if_pos hNone]
    unfold blendRgb
    rw [if_pos hNone, ite_self]
  rw [if_neg hNone]
  have hX := toNat_cast (by omega : 0 ≤ x.toInt)
  have hY := toNat_cast (by omega : 0 ≤ y.toInt)
  have hHas := @clipHasPixel_iff fb clip x y hClip
  by_cases hClear : (x.toInt, y.toInt) ∈ Clip.points clip
  · rw [if_pos (hHas.mpr hClear)]
    have hPut : ∀ d, fb.picture (fb.putRaw x.toUInt32
        y.toUInt32 d mem) p =
        if p = (x.toInt, y.toInt) then d
        else fb.picture mem p := by
      intro d
      rw [putRaw_painted (by omega) (by omega), hX, hY,
        picture_painted hMode hScreen]
    have hOld : fb.getRaw x.toUInt32 y.toUInt32 mem =
        fb.picture mem (x.toInt, y.toInt) := by
      unfold picture
      rw [ofNat_toInt (by omega), ofNat_toInt (by omega)]
    by_cases hHere : p = (x.toInt, y.toInt)
    · have hBoth : p = (x.toInt, y.toInt) ∧
          p ∈ Clip.points clip := ⟨hHere, hHere ▸ hClear⟩
      rw [if_pos hBoth]
      split
      · rename_i hFull
        rw [hPut, if_pos hHere]
        unfold blendRgb
        rw [if_neg hNone, if_pos hFull]
      · rw [hPut, if_pos hHere, hOld, hHere]
    · have hNot : ¬(p = (x.toInt, y.toInt) ∧
          p ∈ Clip.points clip) := fun hIn => hHere hIn.1
      rw [if_neg hNot]
      split
      · rw [hPut, if_neg hHere]
      · rw [hPut, if_neg hHere]
  · have hNot : ¬(p = (x.toInt, y.toInt) ∧
        p ∈ Clip.points clip) := fun hIn =>
      hClear (hIn.1 ▸ hIn.2)
    rw [if_neg (fun hSet => hClear (hHas.mp hSet)),
      if_neg hNot]

end Pictures

end Framebuffer

end KvantOS.Display
