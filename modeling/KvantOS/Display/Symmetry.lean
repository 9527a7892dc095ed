import KvantOS.Display.Strokes

/-
  This file proves when an anti-aliased line is drawn in its
  colour and in the same way along both axes: if no column
  that can be seen has a height between two rows.

  Key definitions include:
    * `Ends.Proper`, `Ends.Sharp`

  Key theorems include:
    * `Framebuffer.lineAa_exchanged`, `Ends.Sharp.proper`
    * `proper_iff_sharp`
-/

namespace KvantOS.Display

--
-- Exchanged And Transposed Ends
--

namespace Ends

variable {e : Ends}

theorem steep_exchanged
    (hBounded : e.Bounded) :
    e.exchanged.steep = e.steep := by
  rw [Bool.eq_iff_iff, steep_iff hBounded,
    steep_iff hBounded.exchanged]
  unfold exchanged
  dsimp only
  rw [abs_sub_comm, abs_sub_comm e.y0.toInt]

/- The order of the ends does not matter. -/
theorem ordered_exchanged
    (hDot : e.x0 = e.x1 → e.y0 = e.y1) :
    e.exchanged.ordered = e.ordered := by
  show (if e.x0 < e.x1 then e else e.exchanged) =
    if e.x1 < e.x0 then e.exchanged else e
  simp only [Int32.lt_iff_toInt_lt]
  by_cases hLess : e.x0.toInt < e.x1.toInt
  · rw [if_pos hLess, if_neg (by omega)]
  · by_cases hMore : e.x1.toInt < e.x0.toInt
    · rw [if_neg hLess, if_pos hMore]
    · have hX : e.x0 = e.x1 := Int32.toInt_inj.mp (by omega)
      obtain ⟨x0, y0, x1, y1⟩ := e
      cases hX
      cases hDot rfl
      rw [if_neg hLess, if_neg hMore]
      rfl

theorem course_exchanged
    (hBounded : e.Bounded) :
    e.exchanged.course = e.course := by
  have hSteep := steep_iff hBounded
  unfold course
  rw [steep_exchanged hBounded]
  by_cases hMain : e.steep = true
  · rw [if_pos hMain, if_pos hMain]
    refine ordered_exchanged (e := e.transposed) fun hSame => ?_
    have hMore := hSteep.mp hMain
    change e.y0 = e.y1 at hSame
    have hRight := abs_nonneg (e.x1.toInt - e.x0.toInt)
    rw [hSame, sub_self, abs_zero] at hMore
    omega
  · rw [if_neg hMain, if_neg hMain]
    refine ordered_exchanged fun hSame => ?_
    rw [hSteep, not_lt, hSame, sub_self, abs_zero] at hMain
    have hZero := abs_nonpos_iff.mp hMain
    exact Int32.toInt_inj.mp (by omega)

/- Neither axis is the longer one. -/
def Diagonal (e : Ends) : Prop :=
  |e.x1.toInt - e.x0.toInt| = |e.y1.toInt - e.y0.toInt|

theorem steep_transposed
    (hBounded : e.Bounded)
    (hAxis : ¬e.Diagonal) :
    e.transposed.steep = !e.steep := by
  have hSteep := steep_iff hBounded
  have hOther := steep_iff hBounded.transposed
  change _ ↔ |e.y1.toInt - e.y0.toInt| <
    |e.x1.toInt - e.x0.toInt| at hOther
  unfold Diagonal at hAxis
  rw [Bool.eq_iff_iff, hOther, Bool.not_eq_true',
    ← Bool.not_eq_true, hSteep]
  omega

theorem course_transposed
    (hBounded : e.Bounded)
    (hAxis : ¬e.Diagonal) :
    e.transposed.course = e.course := by
  unfold course
  rw [steep_transposed hBounded hAxis]
  cases e.steep <;> rfl

end Ends

/- The two ends can be exchanged. -/
theorem Framebuffer.lineAa_exchanged
    {e : Ends}
    (hBounded : e.Bounded)
    (fb : Framebuffer)
    (ch : Channels)
    (clip : Clip)
    (c : UInt32)
    (mem : Buf) :
    fb.lineAa ch clip e.exchanged c mem =
      fb.lineAa ch clip e c mem := by
  have hSteep := Ends.steep_exchanged hBounded
  have hCourse := Ends.course_exchanged hBounded
  unfold Ends.course at hCourse
  unfold lineAa
  dsimp only
  rw [hCourse, hSteep]

--
-- Sharp Lines
--

namespace Ends

/-
  In no column that can be seen, of `k` from the first one,
  is the height between two rows, by 256ths.
-/
def Sharp (e : Ends) : Prop :=
  ∀ k, 0 ≤ k → k ≤ e.course.x1.toInt - e.course.x0.toInt →
    0 ≤ e.course.x0.toInt + k →
      0 ≤ e.course.heightAt k / 65536 + 1 →
        e.course.heightAt k / 256 % 256 = 0

/- What a line in one colour gives to a point. -/
def plainStroke
    (e : Ends)
    (c : UInt32)
    (q : Int × Int) : Option (UInt32 × UInt32) :=
  if e.course.x0.toInt ≤ q.1 ∧ q.1 ≤ e.course.x1.toInt then
    markAt true c q.1
      (e.course.heightAt (q.1 - e.course.x0.toInt)) q
  else none

/- A sharp line is in one colour, where it can be seen. -/
theorem Sharp.inked_stroke
    {e : Ends}
    (hSharp : e.Sharp)
    {ch : Channels}
    {clip : Clip}
    {p q : Int × Int}
    (hSeen : 0 ≤ q.1 ∧ 0 ≤ q.2)
    (c old : UInt32) :
    inked ch clip p old (e.stroke c q) =
      inked ch clip p old (e.plainStroke c q) := by
  unfold stroke plainStroke
  split
  · rename_i hIn
    unfold markAt
    split
    · split
      · rfl
      · split
        · rename_i hRow
          have hFrac := hSharp
            (q.1 - e.course.x0.toInt) (by omega) (by omega)
            (by omega) (by omega)
          unfold fracOf
          rw [hFrac]
          show (if p ∈ Clip.points clip then old else old) =
            (if p ∈ Clip.points clip then old else old)
          rfl
        · rfl
    · rfl
  · rfl

end Ends

--
-- Proper Lines
--

/- A screen and a clip list with the axes exchanged. -/
structure Mirrored
    (fb fbT : Framebuffer)
    (clip clipT : Clip) : Prop where
  mode : fbT.bpp = .b32
  valid : fbT.ClipValid clipT
  width : fbT.width = fb.height
  height : fbT.height = fb.width
  points : ∀ x y, (y, x) ∈ Clip.points clipT ↔
    (x, y) ∈ Clip.points clip

/- On every screen, a line is in one colour and symmetric. -/
structure Ends.Proper (e : Ends) : Prop where
  oneColour : ∀ (fb : Framebuffer) (ch : Channels)
    (clip : Clip) (c : UInt32) (mem : Buf) (p : Int × Int),
    fb.bpp = .b32 → fb.ClipValid clip → p ∈ fb.screen →
      fb.picture (fb.lineAa ch clip e c mem) p ≠
        fb.picture mem p →
      ∃ alpha, alpha ≤ 255 ∧
        fb.picture (fb.lineAa ch clip e c mem) p =
          blendRgb ch c (fb.picture mem p) alpha
  exchanged : ∀ (fb : Framebuffer) (ch : Channels)
    (clip : Clip) (c : UInt32) (mem : Buf),
    fb.bpp = .b32 → fb.ClipValid clip →
      fb.lineAa ch clip e.exchanged c mem =
        fb.lineAa ch clip e c mem
  transposed : ¬e.Diagonal →
    ∀ (fb fbT : Framebuffer) (ch : Channels)
      (clip clipT : Clip) (c : UInt32) (mem memT : Buf),
      fb.bpp = .b32 → fb.ClipValid clip →
      Mirrored fb fbT clip clipT →
      (∀ x y, (x, y) ∈ fb.screen →
        fbT.picture memT (y, x) = fb.picture mem (x, y)) →
      ∀ x y, (x, y) ∈ fb.screen →
        fbT.picture
            (fbT.lineAa ch clipT e.transposed c memT) (y, x) =
          fb.picture (fb.lineAa ch clip e c mem) (x, y)

section Proper

variable {e : Ends}

theorem fracOf_le (h : Int) : fracOf h ≤ 255 := by
  unfold fracOf
  rw [UInt32.le_iff_toNat_le, UInt32.toNat_ofNat']
  show (h / 256 % 256).toNat % _ ≤ 255
  omega

/- A plain mark is in the colour of the line. -/
theorem plainStroke_colour
    {c d alpha : UInt32}
    {q : Int × Int}
    (hMark : e.plainStroke c q = some (d, alpha)) :
    d = c ∧ alpha ≤ 255 := by
  unfold Ends.plainStroke at hMark
  split at hMark
  · unfold markAt at hMark
    split at hMark
    · split at hMark
      · cases hMark
        refine ⟨rfl, ?_⟩
        have hFrac := fracOf_le (e.course.heightAt
          (q.1 - e.course.x0.toInt))
        rw [UInt32.le_iff_toNat_le,
          UInt32.toNat_sub_of_le _ _ hFrac]
        exact Nat.sub_le _ _
      · split at hMark
        · cases hMark
          exact ⟨rfl, fracOf_le _⟩
        · cases hMark
    · cases hMark
  · cases hMark

variable {fb : Framebuffer} {p : Int × Int}

theorem place_seen
    (hScreen : p ∈ fb.screen)
    (steep : Bool) :
    0 ≤ (place steep p).1 ∧ 0 ≤ (place steep p).2 := by
  obtain ⟨x, y, rfl, -, -⟩ := Framebuffer.screen_cases hScreen
  cases steep
  · exact ⟨Int.natCast_nonneg x, Int.natCast_nonneg y⟩
  · exact ⟨Int.natCast_nonneg y, Int.natCast_nonneg x⟩

/- The picture of a sharp line. -/
theorem Ends.Sharp.lineAa_picture
    (hSharp : e.Sharp)
    (hBounded : e.Bounded)
    {ch : Channels}
    {clip : Clip}
    (hMode : fb.bpp = .b32)
    (hClip : fb.ClipValid clip)
    (hScreen : p ∈ fb.screen)
    (c : UInt32)
    (mem : Buf) :
    fb.picture (fb.lineAa ch clip e c mem) p =
      inked ch clip p (fb.picture mem p)
        (e.plainStroke c (place e.steep p)) := by
  rw [Framebuffer.lineAa_picture hMode hClip hScreen hBounded]
  exact hSharp.inked_stroke (place_seen hScreen _) _ _

theorem Ends.Sharp.transposed
    (hSharp : e.Sharp)
    (hBounded : e.Bounded)
    (hAxis : ¬e.Diagonal) :
    e.transposed.Sharp := by
  unfold Sharp
  rw [course_transposed hBounded hAxis]
  exact hSharp

/- Sharp lines are proper. -/
theorem Ends.Sharp.proper
    (hSharp : e.Sharp)
    (hBounded : e.Bounded) :
    e.Proper where
  oneColour := by
    intro fb ch clip c mem p hMode hClip hScreen hChange
    rw [hSharp.lineAa_picture hBounded hMode hClip hScreen]
      at hChange ⊢
    cases hMark : e.plainStroke c (place e.steep p) with
    | none =>
        rw [hMark] at hChange
        exact absurd rfl hChange
    | some mark =>
        obtain ⟨d, alpha⟩ := mark
        obtain ⟨rfl, hAlpha⟩ := plainStroke_colour hMark
        rw [hMark] at hChange
        unfold inked at hChange ⊢
        dsimp only at hChange ⊢
        split at hChange
        · rename_i hIn
          exact ⟨alpha, hAlpha, if_pos hIn⟩
        · exact absurd rfl hChange
  exchanged := fun fb ch clip c mem _ _ =>
    Framebuffer.lineAa_exchanged hBounded fb ch clip c mem
  transposed := by
    intro hAxis fb fbT ch clip clipT c mem memT hMode hClip
      hMirror hSame x y hScreen
    have hScreenT : (y, x) ∈ fbT.screen := by
      unfold Framebuffer.screen Box.frame at hScreen ⊢
      rw [hMirror.width, hMirror.height]
      rw [Box.mem_points] at hScreen ⊢
      exact ⟨hScreen.2, hScreen.1⟩
    rw [hSharp.lineAa_picture hBounded hMode hClip hScreen,
      (hSharp.transposed hBounded hAxis).lineAa_picture
        hBounded.transposed hMirror.mode hMirror.valid hScreenT,
      hSame x y hScreen]
    have hPlace : place e.transposed.steep (y, x) =
        place e.steep (x, y) := by
      rw [steep_transposed hBounded hAxis]
      cases e.steep <;> rfl
    have hStroke : e.transposed.plainStroke c =
        e.plainStroke c := by
      unfold plainStroke
      rw [course_transposed hBounded hAxis]
    rw [hPlace, hStroke]
    cases e.plainStroke c (place e.steep (x, y)) with
    | none => rfl
    | some mark =>
        unfold inked
        dsimp only
        by_cases hIn : (x, y) ∈ Clip.points clip
        · rw [if_pos hIn, if_pos ((hMirror.points x y).mpr hIn)]
        · rw [if_neg hIn,
            if_neg fun hT => hIn ((hMirror.points x y).mp hT)]

end Proper

--
-- A White Screen
--

/- 8 bits for each channel, red on top. -/
def rgb888 : Channels where
  r := ⟨16, 8, by decide, by decide⟩
  g := ⟨8, 8, by decide, by decide⟩
  b := ⟨0, 8, by decide, by decide⟩

def white : UInt32 := 0xFFFFFF

/- A screen that holds every bounded line. -/
def largeScreen : Framebuffer where
  width := 16002
  height := 16002
  pitch := 64008
  bpp := .b32
  rows := by decide
  fits := by decide

/- The bytes of a white screen. -/
def whiteMem : Buf :=
  fun a => if a % 4 = 3 then 0 else 255

theorem picture_white
    {p : Int × Int}
    (hScreen : p ∈ largeScreen.screen) :
    largeScreen.picture whiteMem p = white := by
  obtain ⟨x, y, rfl, hX, hY⟩ :=
    Framebuffer.screen_cases hScreen
  rw [Framebuffer.picture_eq rfl hX hY]
  have hGet : whiteMem.get32
      (largeScreen.pitch.toNat * y + 4 * x) =
      white.toNat := by
    refine Buf.get32_of_bytes (fun k hByte => ?_) (by decide)
    have hPlace : (largeScreen.pitch.toNat * y + 4 * x + k) %
        4 = k := by
      show (64008 * y + 4 * x + k) % 4 = k
      omega
    unfold whiteMem
    rw [hPlace]
    have hAll : ∀ k < 4, (if k = 3 then (0 : UInt8) else 255) =
        UInt8.ofNat (white.toNat >>> (8 * k)) := by decide
    exact hAll k hByte
  rw [hGet]
  rfl

/- White over white stays white. -/
theorem blend_white (alpha : UInt32) :
    blendRgb rgb888 white white alpha = white := by
  have hMix : alpha.toNat < 255 →
      mix 255 255 alpha = 255 := by
    intro hLess
    unfold mix
    have hLe : alpha ≤ 255 :=
      UInt32.le_iff_toNat_le.mpr hLess.le
    have hSum : (255 * alpha + 255 * (255 - alpha) : UInt32) =
        255 * 255 := by
      apply UInt32.toNat_inj.mp
      rw [UInt32.toNat_add, UInt32.toNat_mul,
        UInt32.toNat_mul, UInt32.toNat_sub_of_le _ _ hLe]
      show (255 * alpha.toNat % 2 ^ 32 +
        255 * (255 - alpha.toNat) % 2 ^ 32) % 2 ^ 32 = 65025
      omega
    rw [hSum]
    rfl
  have hUnpack : rgb888.r.unpack white = 255 ∧
      rgb888.g.unpack white = 255 ∧
      rgb888.b.unpack white = 255 := by decide
  unfold blendRgb
  split
  · rfl
  · split
    · rfl
    · rename_i hPart
      rw [UInt32.le_iff_toNat_le] at hPart
      rw [hUnpack.1, hUnpack.2.1, hUnpack.2.2,
        hMix (Nat.lt_of_not_le hPart)]
      rfl

/- The red of a packed colour. -/
theorem fbRgb_red (r g b : UInt8) :
    (fbRgb rgb888 r g b).toNat / 65536 = r.toNat := by
  have hR := r.toNat_lt
  have hG := g.toNat_lt
  have hB := b.toNat_lt
  have hRed : (rgb888.r.pack r).toNat = r.toNat <<< 16 := by
    show ((r.toUInt32 >>> 0) <<< 16).toNat = _
    rw [UInt32.shiftRight_zero, UInt32.toNat_shiftLeft]
    show r.toNat <<< 16 % 2 ^ 32 = _
    rw [Nat.shiftLeft_eq, Nat.mod_eq_of_lt (by omega)]
  have hGreen : (rgb888.g.pack g).toNat = g.toNat <<< 8 := by
    show ((g.toUInt32 >>> 0) <<< 8).toNat = _
    rw [UInt32.shiftRight_zero, UInt32.toNat_shiftLeft]
    show g.toNat <<< 8 % 2 ^ 32 = _
    rw [Nat.shiftLeft_eq, Nat.mod_eq_of_lt (by omega)]
  have hBlue : (rgb888.b.pack b).toNat = b.toNat := by
    show ((b.toUInt32 >>> 0) <<< 0).toNat = _
    rw [UInt32.shiftRight_zero, UInt32.shiftLeft_zero]
    rfl
  unfold fbRgb
  rw [UInt32.toNat_or, UInt32.toNat_or, hRed, hGreen, hBlue,
    Nat.or_comm, Nat.or_comm (_ <<< 16), ← Nat.or_assoc,
    Buf.or_shiftLeft_eq_add _ 8 hB,
    Buf.or_shiftLeft_eq_add _ 16 (by omega)]
  omega

/- A colour without red over white is not white. -/
theorem blend_dark
    {d alpha : UInt32}
    (hDark : d.toNat < 65536)
    (hSome : alpha ≠ 0) :
    blendRgb rgb888 d white alpha ≠ white := by
  unfold blendRgb
  rw [if_neg hSome]
  split
  · rintro rfl
    exact absurd hDark (by decide)
  · rename_i hPart
    rw [UInt32.le_iff_toNat_le, not_le] at hPart
    have hLess : alpha.toNat < 255 := hPart
    have hPos : alpha.toNat ≠ 0 := fun hZero =>
      hSome (UInt32.toNat_inj.mp hZero)
    have hRed : rgb888.r.unpack d = 0 := by
      have hShift : d >>> 16 = 0 := by
        apply UInt32.toNat_inj.mp
        rw [UInt32.toNat_shiftRight]
        show d.toNat >>> 16 = 0
        rw [Nat.shiftRight_eq_div_pow]
        omega
      show (d >>> 16 &&& 255) * 255 / 255 = 0
      rw [hShift]
      rfl
    have hWhite : rgb888.r.unpack white = 255 := by decide
    have hMix : (mix 0 255 alpha).toNat =
        255 - alpha.toNat := by
      unfold mix
      rw [UInt32.zero_mul, UInt32.zero_add,
        UInt32.toNat_toUInt8, UInt32.toNat_div,
        UInt32.toNat_mul, UInt32.toNat_sub_of_le _ _
          (UInt32.le_iff_toNat_le.mpr hLess.le)]
      show 255 * (255 - alpha.toNat) % 2 ^ 32 / 255 % 2 ^ 8 = _
      rw [Nat.mod_eq_of_lt (by omega :
          255 * (255 - alpha.toNat) < 2 ^ 32),
        Nat.mul_div_cancel_left _ (by decide : 0 < 255)]
      omega
    intro hEq
    have hTop := fbRgb_red
      (mix (rgb888.r.unpack d) (rgb888.r.unpack white) alpha)
      (mix (rgb888.g.unpack d) (rgb888.g.unpack white) alpha)
      (mix (rgb888.b.unpack d) (rgb888.b.unpack white) alpha)
    rw [hEq, hRed, hWhite, hMix] at hTop
    change 255 = 255 - alpha.toNat at hTop
    omega

--
-- Proper Lines Are Sharp
--

section Blurred

variable {e : Ends}

/- The second point of a column, on the large screen. -/
theorem second_seen
    (hBounded : e.Bounded)
    {k : Int}
    (hLow : 0 ≤ k)
    (hHigh : k ≤ e.course.x1.toInt - e.course.x0.toInt)
    (hColumn : 0 ≤ e.course.x0.toInt + k)
    (hRow : 0 ≤ e.course.heightAt k / 65536 + 1)
    (steep : Bool) :
    place steep (e.course.x0.toInt + k,
      e.course.heightAt k / 65536 + 1) ∈ largeScreen.screen := by
  have hLevel := Ends.course_level hBounded
  have hX1 := hLevel.bounded.x1
  have hY0 := hLevel.bounded.y0
  have hY1 := hLevel.bounded.y1
  have hTop : e.course.heightAt k ≤ 16000 * 65536 := by
    rcases Ends.heightAt_between hLow hHigh with hUp | hDown
    · omega
    · omega
  unfold Framebuffer.screen Box.frame
  rw [Box.mem_points]
  have hWide : ((largeScreen.width.toNat : Nat) : Int) =
      16002 := rfl
  have hTall : ((largeScreen.height.toNat : Nat) : Int) =
      16002 := rfl
  dsimp only
  rw [hWide, hTall]
  cases steep
  · show (0 ≤ e.course.x0.toInt + k ∧
        e.course.x0.toInt + k < 0 + 16002) ∧
      0 ≤ e.course.heightAt k / 65536 + 1 ∧
        e.course.heightAt k / 65536 + 1 < 0 + 16002
    omega
  · show (0 ≤ e.course.heightAt k / 65536 + 1 ∧
        e.course.heightAt k / 65536 + 1 < 0 + 16002) ∧
      0 ≤ e.course.x0.toInt + k ∧
        e.course.x0.toInt + k < 0 + 16002
    omega

/- What a white line leaves there. -/
theorem white_second
    (hBounded : e.Bounded)
    {k : Int}
    (hLow : 0 ≤ k)
    (hHigh : k ≤ e.course.x1.toInt - e.course.x0.toInt)
    (hColumn : 0 ≤ e.course.x0.toInt + k)
    (hRow : 0 ≤ e.course.heightAt k / 65536 + 1) :
    largeScreen.picture (largeScreen.lineAa rgb888 none e white
        whiteMem) (place e.steep (e.course.x0.toInt + k,
          e.course.heightAt k / 65536 + 1)) =
      blendRgb rgb888
        (secondColour e.steep white (e.course.x0.toInt + k))
        white (fracOf (e.course.heightAt k)) := by
  have hScreen := second_seen hBounded hLow hHigh hColumn hRow
    e.steep
  have hPlace : e.course.x0.toInt + k - e.course.x0.toInt =
      k := by omega
  have hClip : largeScreen.ClipValid none := nofun
  rw [Framebuffer.lineAa_picture rfl hClip hScreen hBounded,
    picture_white hScreen, place_place]
  unfold Ends.stroke
  rw [if_pos (by dsimp only; omega)]
  dsimp only
  rw [hPlace]
  unfold markAt
  rw [if_pos rfl, if_neg (by dsimp only; omega), if_pos rfl]
  have hIn : ∀ p : Int × Int, p ∈ Clip.points none :=
    fun _ => trivial
  unfold inked
  dsimp only
  rw [if_pos (hIn _)]

/- The coordinate that is taken for a colour has no red. -/
theorem secondColour_dark
    {x : Int}
    (hLow : 0 ≤ x)
    (hHigh : x ≤ 16000) :
    (secondColour false white x).toNat < 65536 := by
  show (Int32.ofInt x).toUInt32.toNat < 65536
  have hValue : (Int32.ofInt x).toInt = x :=
    Int32.toInt_ofInt_of_le (by omega) (by omega)
  have hCast := @Framebuffer.toNat_cast (Int32.ofInt x)
    (by omega)
  omega

theorem fracOf_ne_zero
    {h : Int}
    (hFrac : h / 256 % 256 ≠ 0) :
    fracOf h ≠ 0 := by
  unfold fracOf
  intro hZero
  have hNat := congrArg UInt32.toNat hZero
  rw [UInt32.toNat_ofNat_of_lt' (by
    show (h / 256 % 256).toNat < 2 ^ 32
    omega)] at hNat
  change (h / 256 % 256).toNat = 0 at hNat
  omega

/- Proper lines are sharp. -/
theorem Ends.Proper.sharp
    (hProper : e.Proper)
    (hBounded : e.Bounded) :
    e.Sharp := by
  intro k hLow hHigh hColumn hRow
  by_contra hFrac
  have hMark := fracOf_ne_zero hFrac
  have hLevel := Ends.course_level hBounded
  have hX1 := hLevel.bounded.x1
  have hDark := @secondColour_dark (e.course.x0.toInt + k)
    hColumn (by omega)
  have hWhite := white_second hBounded hLow hHigh hColumn hRow
  have hScreen := second_seen hBounded hLow hHigh hColumn hRow
    e.steep
  cases hSteep : e.steep with
  | false =>
      rw [hSteep] at hWhite hScreen
      have hNew := blend_dark hDark hMark
      rw [← hWhite] at hNew
      obtain ⟨alpha, -, hBlend⟩ := hProper.oneColour
        largeScreen rgb888 none white whiteMem _ rfl nofun
        hScreen (by rwa [picture_white hScreen])
      rw [picture_white hScreen, blend_white] at hBlend
      exact hNew hBlend
  | true =>
      have hAxis : ¬e.Diagonal := fun hSame =>
        absurd ((steep_iff hBounded).mp hSteep)
          (not_lt.mpr hSame.ge)
      have hCourse := course_transposed hBounded hAxis
      have hOther : e.transposed.steep = false := by
        rw [steep_transposed hBounded hAxis, hSteep]
        rfl
      have hDrawn := @white_second e.transposed
        hBounded.transposed k
      rw [hCourse, hOther] at hDrawn
      rw [hSteep] at hWhite hScreen
      have hMirror : Mirrored largeScreen largeScreen none
          none := ⟨rfl, nofun, rfl, rfl, fun _ _ => Iff.rfl⟩
      have hBoth := hProper.transposed hAxis largeScreen
        largeScreen rgb888 none none white whiteMem whiteMem
        rfl nofun hMirror
        (fun x y hIn => by
          have hSwap : (y, x) ∈ largeScreen.screen :=
            ⟨hIn.2, hIn.1⟩
          rw [picture_white hIn, picture_white hSwap])
        _ _ hScreen
      change largeScreen.picture _ (place false _) =
        largeScreen.picture _ (place true _) at hBoth
      rw [hWhite, hDrawn hLow hHigh hColumn hRow] at hBoth
      rw [show secondColour true white
        (e.course.x0.toInt + k) = white from rfl,
        blend_white] at hBoth
      exact blend_dark hDark hMark hBoth

end Blurred

/-
  A line is proper if and only if it is sharp.
-/
theorem proper_iff_sharp
    {e : Ends}
    (hBounded : e.Bounded) :
    e.Proper ↔ e.Sharp :=
  ⟨fun hProper => hProper.sharp hBounded,
    fun hSharp => hSharp.proper hBounded⟩

/- A line that rises by half a row with every column. -/
def halfSlope : Ends :=
  ⟨0, 0, 10, 5⟩

theorem halfSlope_bounded : halfSlope.Bounded := by
  constructor <;> decide

theorem proper_iff_sharp_half :
    halfSlope.Bounded ∧
      (halfSlope.Proper ↔ halfSlope.Sharp) :=
  ⟨halfSlope_bounded, proper_iff_sharp halfSlope_bounded⟩

/- Its second points are not in its colour. -/
theorem halfSlope_not_proper :
    halfSlope.Bounded ∧ ¬halfSlope.Proper ∧
      ¬∀ e : Ends, e.Bounded → e.Proper := by
  have hNot : ¬halfSlope.Proper := by
    intro hProper
    have hCourse : halfSlope.course = halfSlope := by decide
    have hSharp := hProper.sharp halfSlope_bounded 1
    rw [hCourse] at hSharp
    have hHeight : halfSlope.heightAt 1 = 32768 := by decide
    rw [hHeight] at hSharp
    exact absurd (hSharp (by decide) (by decide) (by decide)
      (by decide)) (by decide)
  exact ⟨halfSlope_bounded, hNot,
    fun hAll => hNot (hAll halfSlope halfSlope_bounded)⟩

end KvantOS.Display
