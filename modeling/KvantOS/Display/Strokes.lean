import KvantOS.Display.Blending

/-
  This file models the anti-aliased lines of the source file
  `fb.c` and proves which points a line blends, with which
  colour and coverage.

  Key definitions include:
    * `Ends`, `Framebuffer.lineAa`
    * `strokeAt`, `Ends.stroke`

  Key theorems include:
    * `Framebuffer.lineTurn_picture`
    * `Framebuffer.lineAaLoop_picture`
    * `Framebuffer.lineAa_picture`
-/

namespace KvantOS.Display

--
-- Lines
--

/- The two ends of a line. -/
structure Ends where
  x0 : Int32
  y0 : Int32
  x1 : Int32
  y1 : Int32
  deriving DecidableEq

def magnitude (d : Int32) : Int32 :=
  if d < 0 then -d else d

namespace Ends

variable (e : Ends)

def exchanged : Ends :=
  ⟨e.x1, e.y1, e.x0, e.y0⟩

def transposed : Ends :=
  ⟨e.y0, e.x0, e.y1, e.x1⟩

/- `steep`. -/
def steep : Bool :=
  let dx := e.x1 - e.x0
  let dy := e.y1 - e.y0
  if dy < 0 then magnitude dx < -dy else magnitude dx < dy

/- The ends, with the first one on the left. -/
def ordered : Ends :=
  if e.x1 < e.x0 then e.exchanged else e

/- The ends along the main axis. -/
def course : Ends :=
  (if e.steep then e.transposed else e).ordered

end Ends

namespace Framebuffer

variable (fb : Framebuffer)
variable (ch : Channels)
variable (clip : Clip)

/- One column of a line; for a steep one, a row. -/
def lineTurn
    (steep : Bool)
    (c : UInt32)
    (x y : Int32)
    (mem : Buf) : Buf :=
  let yi := y >>> 16
  let frac := (y.toUInt32 >>> 8) &&& 0xFF
  if steep then
    let mem := fb.blendPixel ch clip yi x c (255 - frac) mem
    fb.blendPixel ch clip (yi + 1) x c frac mem
  else
    let mem := fb.blendPixel ch clip x yi c (255 - frac) mem
    -- the source passes `x` where the colour belongs
    fb.blendPixel ch clip x (yi + 1) x.toUInt32 frac mem

/- The loop over the columns, for `turns` more of them. -/
def lineAaLoop
    (steep : Bool)
    (c : UInt32)
    (grad : Int32) :
    (turns : Nat) → (x y : Int32) → Buf → Buf
  | 0, _, _, mem => mem
  | turns + 1, x, y, mem =>
      lineAaLoop steep c grad turns (x + 1) (y + grad)
        (fb.lineTurn ch clip steep c x y mem)

/- `fb_line_aa`. -/
def lineAa
    (e : Ends)
    (c : UInt32)
    (mem : Buf) : Buf :=
  let steep := e.steep
  let e := if steep then e.transposed else e
  let e := e.ordered
  let dx := e.x1 - e.x0
  let dy := e.y1 - e.y0
  if dx = 0 then
    fb.blendPixel ch clip e.x0 e.y0 c 255 mem
  else
    let grad := dy * 65536 / dx
    -- `x` runs from `x0` to `x1`
    fb.lineAaLoop ch clip steep c grad
      (e.x1.toInt - e.x0.toInt + 1).toNat e.x0
      (e.y0 * 65536) mem

end Framebuffer

--
-- Fixed Point
--

section FixedPoint

/- `y >> 16`. -/
theorem toInt_row (y : Int32) :
    (y >>> 16).toInt = y.toInt / 65536 := by
  show (y.toBitVec.sshiftRight' _).toInt = _
  rw [BitVec.sshiftRight_eq', BitVec.toInt_sshiftRight,
    Int.shiftRight_eq_div_pow]
  rfl

theorem toUInt32_emod (y : Int32) :
    (y.toUInt32.toNat : Int) = y.toInt % 2 ^ 32 := by
  have hLt := y.toBitVec.isLt
  show ((y.toBitVec.toNat : Nat) : Int) =
    y.toBitVec.toInt % 2 ^ 32
  rw [BitVec.toInt_eq_toNat_bmod, Int.bmod_def]
  split <;> omega

/- The fraction of a height in 256ths. -/
def fracOf (h : Int) : UInt32 :=
  UInt32.ofNat (h / 256 % 256).toNat

/- `((u32)y >> 8) & 0xFF`. -/
theorem frac_eq (y : Int32) :
    (y.toUInt32 >>> 8) &&& 0xFF = fracOf y.toInt := by
  have hWord := toUInt32_emod y
  have hMask : ∀ n : Nat, n &&& (0xFF : UInt32).toNat =
      n % 256 := fun n => Nat.and_two_pow_sub_one_eq_mod n 8
  unfold fracOf
  apply UInt32.toNat_inj.mp
  rw [UInt32.toNat_and, UInt32.toNat_shiftRight, hMask,
    UInt32.toNat_ofNat_of_lt' (by
      show (y.toInt / 256 % 256).toNat < 2 ^ 32
      omega)]
  show y.toUInt32.toNat >>> 8 % 256 = _
  rw [Nat.shiftRight_eq_div_pow]
  omega

end FixedPoint

--
-- What A Column Draws
--

/- A point of a line, from its place along the main axis. -/
def place (steep : Bool) (p : Int × Int) : Int × Int :=
  if steep then p.swap else p

theorem place_place (steep : Bool) (p : Int × Int) :
    place steep (place steep p) = p := by
  cases steep
  · rfl
  · exact Prod.swap_swap p

theorem eq_place_iff
    {steep : Bool}
    {p q : Int × Int} :
    p = place steep q ↔ place steep p = q :=
  ⟨fun hEq => hEq ▸ place_place steep q,
    fun hEq => hEq ▸ (place_place steep p).symm⟩

/- The colour of the second point of a column. -/
def secondColour
    (steep : Bool)
    (c : UInt32)
    (x : Int) : UInt32 :=
  if steep then c else (Int32.ofInt x).toUInt32

/-
  The colour and the coverage that a column at `x`, of the
  height `h`, gives to a point.
-/
def markAt
    (steep : Bool)
    (c : UInt32)
    (x h : Int)
    (q : Int × Int) : Option (UInt32 × UInt32) :=
  if q.1 = x then
    if q.2 = h / 65536 then
      some (c, 255 - fracOf h)
    else if q.2 = h / 65536 + 1 then
      some (secondColour steep c x, fracOf h)
    else none
  else none

/-
  What `turns` columns from `x` on give to a point, when the
  height is `y` at `x` and grows by `g`.
-/
def strokeAt
    (steep : Bool)
    (c : UInt32)
    (g : Int)
    (turns : Nat)
    (x y : Int)
    (q : Int × Int) : Option (UInt32 × UInt32) :=
  if x ≤ q.1 ∧ q.1 < x + turns then
    markAt steep c q.1 (y + (q.1 - x) * g) q
  else none

/- The first column, and the others. -/
theorem strokeAt_succ
    (steep : Bool)
    (c : UInt32)
    (g : Int)
    (turns : Nat)
    (x y : Int)
    (q : Int × Int) :
    strokeAt steep c g (turns + 1) x y q =
      if q.1 = x then markAt steep c x y q
      else strokeAt steep c g turns (x + 1) (y + g) q := by
  unfold strokeAt
  by_cases hHere : q.1 = x
  · rw [if_pos hHere, if_pos (by omega), hHere, sub_self,
      zero_mul, add_zero]
  · rw [if_neg hHere]
    have hHeight : y + g + (q.1 - (x + 1)) * g =
        y + (q.1 - x) * g := by ring
    rw [hHeight]
    by_cases hIn : x ≤ q.1 ∧ q.1 < x + (turns + 1 : Nat)
    · rw [if_pos hIn, if_pos (by omega)]
    · rw [if_neg hIn, if_neg (by omega)]

/- A point that got a mark. -/
def inked
    (ch : Channels)
    (clip : Clip)
    (p : Int × Int)
    (old : UInt32) :
    Option (UInt32 × UInt32) → UInt32
  | some (c, alpha) =>
      if p ∈ Clip.points clip then blendRgb ch c old alpha
      else old
  | none => old

namespace Framebuffer

section Turns

variable {fb : Framebuffer} {ch : Channels} {clip : Clip}
variable {p : Int × Int}

/- A column marks at most two points. -/
theorem lineTurn_picture
    (hMode : fb.bpp = .b32)
    (hClip : fb.ClipValid clip)
    (hScreen : p ∈ fb.screen)
    (steep : Bool)
    (c : UInt32)
    (x y : Int32)
    (mem : Buf) :
    fb.picture (fb.lineTurn ch clip steep c x y mem) p =
      inked ch clip p (fb.picture mem p)
        (markAt steep c x.toInt y.toInt (place steep p)) := by
  have hHigh := y.toInt_lt
  have hLow := y.le_toInt
  have hRow := toInt_row y
  have hNext : (y >>> 16 + 1).toInt = y.toInt / 65536 + 1 := by
    have hOne : (1 : Int32).toInt = 1 := rfl
    rw [toInt_add_eq (by omega) (by omega), hRow, hOne]
  have hColour : secondColour steep c x.toInt =
      if steep then c else x.toUInt32 := by
    unfold secondColour
    rw [Int32.ofInt_toInt]
  have hTwo : ∀ (u v u' v' : Int32) (d : UInt32),
      (u.toInt, v.toInt) = place steep
        (x.toInt, y.toInt / 65536) →
      (u'.toInt, v'.toInt) = place steep
        (x.toInt, y.toInt / 65536 + 1) →
      secondColour steep c x.toInt = d →
      fb.picture (fb.blendPixel ch clip u' v' d
        (fracOf y.toInt) (fb.blendPixel ch clip u v c
          (255 - fracOf y.toInt) mem)) p =
      inked ch clip p (fb.picture mem p)
        (markAt steep c x.toInt y.toInt (place steep p)) := by
    intro u v u' v' d hFirst hSecond hColour
    rw [blendPixel_picture hMode hClip _ _ _ _ _ _ hScreen,
      blendPixel_picture hMode hClip _ _ _ _ _ _ hScreen,
      hFirst, hSecond]
    simp only [eq_place_iff]
    generalize place steep p = q
    simp only [Prod.ext_iff]
    unfold markAt
    rw [hColour]
    by_cases hX : q.1 = x.toInt
    · rw [if_pos hX]
      by_cases hR : q.2 = y.toInt / 65536
      · have hOther : ¬((q.1 = x.toInt ∧
            q.2 = y.toInt / 65536 + 1) ∧ p ∈ Clip.points clip) :=
          fun hBoth => by omega
        rw [if_pos hR, if_neg hOther]
        simp only [hX, hR, true_and]
        rfl
      · have hOther : ¬((q.1 = x.toInt ∧
            q.2 = y.toInt / 65536) ∧ p ∈ Clip.points clip) :=
          fun hBoth => hR hBoth.1.2
        rw [if_neg hR, if_neg hOther]
        by_cases hS : q.2 = y.toInt / 65536 + 1
        · rw [if_pos hS]
          simp only [hX, hS, true_and]
          rfl
        · rw [if_neg hS, if_neg fun hBoth => hS hBoth.1.2]
          rfl
    · rw [if_neg hX, if_neg fun hBoth => hX hBoth.1.1,
        if_neg fun hBoth => hX hBoth.1.1]
      rfl
  unfold lineTurn
  dsimp only
  rw [frac_eq]
  cases steep with
  | true =>
      exact hTwo _ _ _ _ _ (by rw [hRow]; rfl)
        (by rw [hNext]; rfl) hColour
  | false =>
      exact hTwo _ _ _ _ _ (by rw [hRow]; rfl)
        (by rw [hNext]; rfl) hColour

/- The marks of the columns do not meet. -/
theorem lineAaLoop_picture
    (hMode : fb.bpp = .b32)
    (hClip : fb.ClipValid clip)
    (hScreen : p ∈ fb.screen)
    (steep : Bool)
    (c : UInt32)
    {grad : Int32}
    (hGrad : -65536 ≤ grad.toInt ∧ grad.toInt ≤ 65536)
    (turns : Nat)
    {x y : Int32}
    (hEnd : x.toInt + turns < 2 ^ 31)
    (hHeights : ∀ k : Nat, k < turns →
      -2 ^ 30 ≤ y.toInt + k * grad.toInt ∧
        y.toInt + k * grad.toInt ≤ 2 ^ 30)
    (mem : Buf) :
    fb.picture
        (fb.lineAaLoop ch clip steep c grad turns x y mem) p =
      inked ch clip p (fb.picture mem p)
        (strokeAt steep c grad.toInt turns x.toInt y.toInt
          (place steep p)) := by
  induction turns generalizing x y mem with
  | zero =>
      unfold strokeAt
      rw [if_neg (by omega)]
      rfl
  | succ turns ih =>
      have hFirst := hHeights 0 (Nat.succ_pos _)
      have hOne : (1 : Int32).toInt = 1 := rfl
      have hLow := x.le_toInt
      have hX : (x + 1).toInt = x.toInt + 1 := by
        rw [toInt_add_eq (by omega) (by omega), hOne]
      have hY : (y + grad).toInt = y.toInt + grad.toInt :=
        toInt_add_eq (by omega) (by omega)
      have hRest := @ih (x + 1) (y + grad) (by omega) (by
        intro k hK
        have hNext := hHeights (k + 1) (by omega)
        have hStep : y.toInt + (k + 1 : Nat) * grad.toInt =
            y.toInt + grad.toInt + k * grad.toInt := by
          push_cast
          ring
        rw [hStep] at hNext
        rwa [hY]) (fb.lineTurn ch clip steep c x y mem)
      rw [hX, hY] at hRest
      rw [lineAaLoop, hRest, strokeAt_succ,
        lineTurn_picture hMode hClip hScreen]
      by_cases hHere : (place steep p).1 = x.toInt
      · have hNone : strokeAt steep c grad.toInt turns
            (x.toInt + 1) (y.toInt + grad.toInt)
            (place steep p) = none :=
          if_neg (by omega)
        rw [if_pos hHere, hNone]
        rfl
      · have hNone : markAt steep c x.toInt y.toInt
            (place steep p) = none := if_neg hHere
        rw [if_neg hHere, hNone]
        rfl

end Turns

end Framebuffer

--
-- What A Line Draws
--

namespace Ends

/- Coordinates that the fixed-point numbers hold. -/
structure Bounded (e : Ends) : Prop where
  x0 : -16000 ≤ e.x0.toInt ∧ e.x0.toInt ≤ 16000
  y0 : -16000 ≤ e.y0.toInt ∧ e.y0.toInt ≤ 16000
  x1 : -16000 ≤ e.x1.toInt ∧ e.x1.toInt ≤ 16000
  y1 : -16000 ≤ e.y1.toInt ∧ e.y1.toInt ≤ 16000

section Courses

variable {e : Ends}

theorem Bounded.exchanged
    (hBounded : e.Bounded) :
    e.exchanged.Bounded :=
  ⟨hBounded.x1, hBounded.y1, hBounded.x0, hBounded.y0⟩

theorem Bounded.transposed
    (hBounded : e.Bounded) :
    e.transposed.Bounded :=
  ⟨hBounded.y0, hBounded.x0, hBounded.y1, hBounded.x1⟩

theorem Bounded.dx
    (hBounded : e.Bounded) :
    (e.x1 - e.x0).toInt = e.x1.toInt - e.x0.toInt := by
  have hFirst := hBounded.x0
  have hLast := hBounded.x1
  exact toInt_sub_eq (by omega) (by omega)

theorem Bounded.dy
    (hBounded : e.Bounded) :
    (e.y1 - e.y0).toInt = e.y1.toInt - e.y0.toInt := by
  have hFirst := hBounded.y0
  have hLast := hBounded.y1
  exact toInt_sub_eq (by omega) (by omega)

theorem toInt_magnitude
    {d : Int32}
    (hLow : -2 ^ 31 < d.toInt) :
    (magnitude d).toInt = |d.toInt| := by
  have hHigh := d.toInt_lt
  unfold magnitude
  split
  · rename_i hNeg
    rw [Int32.lt_iff_toInt_lt, Int32.toInt_zero] at hNeg
    rw [Int32.toInt_neg, abs_of_neg hNeg]
    exact Int.bmod_eq_of_le (by omega) (by omega)
  · rename_i hNeg
    rw [Int32.lt_iff_toInt_lt, Int32.toInt_zero] at hNeg
    rw [abs_of_nonneg (by omega)]

/- A line is steep if it is higher than wide. -/
theorem steep_iff
    (hBounded : e.Bounded) :
    e.steep = true ↔
      |e.x1.toInt - e.x0.toInt| <
        |e.y1.toInt - e.y0.toInt| := by
  have hDx := hBounded.dx
  have hDy := hBounded.dy
  have hX0 := hBounded.x0
  have hX1 := hBounded.x1
  have hY0 := hBounded.y0
  have hY1 := hBounded.y1
  have hWide := @toInt_magnitude (e.x1 - e.x0) (by omega)
  have hHigh := @toInt_magnitude (e.y1 - e.y0) (by omega)
  rw [← hDx, ← hDy, ← hWide, ← hHigh,
    ← Int32.lt_iff_toInt_lt]
  unfold steep
  dsimp only
  rw [magnitude.eq_def (e.y1 - e.y0)]
  split
  · exact decide_eq_true_iff
  · exact decide_eq_true_iff

theorem ordered_eq
    (hBounded : e.Bounded) :
    e.ordered.Bounded ∧
      e.ordered.x1.toInt - e.ordered.x0.toInt =
        |e.x1.toInt - e.x0.toInt| ∧
      |e.ordered.y1.toInt - e.ordered.y0.toInt| =
        |e.y1.toInt - e.y0.toInt| := by
  unfold ordered
  split
  · rename_i hLess
    rw [Int32.lt_iff_toInt_lt] at hLess
    refine ⟨hBounded.exchanged, ?_, ?_⟩
    · show e.x0.toInt - e.x1.toInt = _
      rw [abs_of_neg (by omega)]
      omega
    · exact abs_sub_comm _ _
  · rename_i hLess
    rw [Int32.lt_iff_toInt_lt] at hLess
    exact ⟨hBounded, (abs_of_nonneg (by omega)).symm, rfl⟩

/- The course runs to the right, and further than up. -/
structure Level (e : Ends) : Prop where
  bounded : e.Bounded
  right : e.x0.toInt ≤ e.x1.toInt
  flat : |e.y1.toInt - e.y0.toInt| ≤ e.x1.toInt - e.x0.toInt

theorem course_level
    (hBounded : e.Bounded) :
    e.course.Level := by
  have hSteep := steep_iff hBounded
  unfold course
  by_cases hMain : e.steep = true
  · rw [if_pos hMain]
    obtain ⟨hOrder, hWide, hHigh⟩ :=
      ordered_eq hBounded.transposed
    have hMore := hSteep.mp hMain
    have hRight := abs_nonneg
      (e.transposed.x1.toInt - e.transposed.x0.toInt)
    refine ⟨hOrder, by omega, ?_⟩
    rw [hWide, hHigh]
    exact hMore.le
  · rw [if_neg hMain]
    obtain ⟨hOrder, hWide, hHigh⟩ := ordered_eq hBounded
    rw [hSteep, not_lt] at hMain
    have hRight := abs_nonneg (e.x1.toInt - e.x0.toInt)
    refine ⟨hOrder, by omega, ?_⟩
    rw [hWide, hHigh]
    exact hMain

/- A steep line is no dot. -/
theorem course_wide
    (hBounded : e.Bounded)
    (hSteep : e.steep = true) :
    e.course.x0.toInt < e.course.x1.toInt := by
  have hMore := (steep_iff hBounded).mp hSteep
  have hRight := abs_nonneg (e.x1.toInt - e.x0.toInt)
  obtain ⟨-, hWide, -⟩ := ordered_eq hBounded.transposed
  change _ = |e.y1.toInt - e.y0.toInt| at hWide
  unfold course
  rw [if_pos hSteep]
  omega

/- How much the height grows with a column. -/
def slope (e : Ends) : Int :=
  ((e.y1.toInt - e.y0.toInt) * 65536).tdiv
    (e.x1.toInt - e.x0.toInt)

/- The height after `k` columns. -/
def heightAt (e : Ends) (k : Int) : Int :=
  e.y0.toInt * 65536 + k * e.slope

/- A truncated quotient, as a share of the dividend. -/
theorem mul_tdiv_between
    {n d k : Int}
    (hLow : 0 ≤ k)
    (hHigh : k ≤ d) :
    (0 ≤ n → 0 ≤ k * n.tdiv d ∧ k * n.tdiv d ≤ n) ∧
      (n ≤ 0 → n ≤ k * n.tdiv d ∧ k * n.tdiv d ≤ 0) := by
  have hPos : ∀ m : Int, 0 ≤ m →
      0 ≤ k * m.tdiv d ∧ k * m.tdiv d ≤ m := by
    intro m hM
    have hQuot : 0 ≤ m.tdiv d :=
      Int.tdiv_nonneg hM (by omega)
    have hShare : k * m.tdiv d ≤ d * m.tdiv d :=
      Int.mul_le_mul_of_nonneg_right hHigh hQuot
    have hWhole : d * m.tdiv d ≤ m := by
      rw [Int.tdiv_eq_ediv_of_nonneg hM, Int.mul_comm]
      by_cases hZero : d = 0
      · rw [hZero, Int.mul_zero]
        exact hM
      · exact Int.ediv_mul_le m hZero
    exact ⟨Int.mul_nonneg hLow hQuot, by omega⟩
  refine ⟨hPos n, fun hNeg => ?_⟩
  have hMirror := hPos (-n) (by omega)
  rw [Int.neg_tdiv, Int.mul_neg] at hMirror
  omega

theorem heightAt_between
    {k : Int}
    (hLow : 0 ≤ k)
    (hHigh : k ≤ e.x1.toInt - e.x0.toInt) :
    (e.y0.toInt * 65536 ≤ e.heightAt k ∧
        e.heightAt k ≤ e.y1.toInt * 65536) ∨
      (e.y1.toInt * 65536 ≤ e.heightAt k ∧
        e.heightAt k ≤ e.y0.toInt * 65536) := by
  have hShare := @mul_tdiv_between
    ((e.y1.toInt - e.y0.toInt) * 65536)
    (e.x1.toInt - e.x0.toInt) k hLow hHigh
  unfold heightAt slope
  rcases Int.le_total 0 (e.y1.toInt - e.y0.toInt) with
    hUp | hDown
  · have hTerm := hShare.1 (by omega)
    exact .inl (by omega)
  · have hTerm := hShare.2 (by omega)
    exact .inr (by omega)

theorem Level.slope_bound
    (hLevel : e.Level) :
    -65536 ≤ e.slope ∧ e.slope ≤ 65536 := by
  have hFlat := abs_le.mp hLevel.flat
  have hRight := hLevel.right
  by_cases hDot : e.x1.toInt - e.x0.toInt = 0
  · have hZero : e.slope = 0 := by
      unfold slope
      rw [hDot, Int.tdiv_zero]
    omega
  have hShare := @mul_tdiv_between
    ((e.y1.toInt - e.y0.toInt) * 65536)
    (e.x1.toInt - e.x0.toInt) (e.x1.toInt - e.x0.toInt)
    (by omega) (Int.le_refl _)
  change (_ → 0 ≤ _ * e.slope ∧ _ * e.slope ≤ _) ∧
    (_ → _ ≤ _ * e.slope ∧ _ * e.slope ≤ 0) at hShare
  generalize e.slope = g at *
  generalize e.x1.toInt - e.x0.toInt = d at *
  generalize e.y1.toInt - e.y0.toInt = n at *
  have hBoth : -(d * 65536) ≤ d * g ∧ d * g ≤ d * 65536 := by
    rcases Int.le_total 0 n with hUp | hDown
    · have hTerm := hShare.1 (by omega)
      omega
    · have hTerm := hShare.2 (by omega)
      omega
  have hPos : 0 < d := by omega
  constructor
  · refine Int.le_of_mul_le_mul_left ?_ hPos
    rw [Int.mul_neg]
    exact hBoth.1
  · exact Int.le_of_mul_le_mul_left hBoth.2 hPos

theorem Level.heightAt_bound
    (hLevel : e.Level)
    {k : Int}
    (hLow : 0 ≤ k)
    (hHigh : k ≤ e.x1.toInt - e.x0.toInt) :
    -2 ^ 30 ≤ e.heightAt k ∧ e.heightAt k ≤ 2 ^ 30 := by
  have hFirst := hLevel.bounded.y0
  have hLast := hLevel.bounded.y1
  rcases heightAt_between hLow hHigh with hUp | hDown
  · omega
  · omega

/- `dy * 65536 / dx`. -/
theorem Level.grad_eq
    (hLevel : e.Level) :
    ((e.y1 - e.y0) * 65536 / (e.x1 - e.x0)).toInt =
      e.slope := by
  have hFirst := hLevel.bounded.y0
  have hLast := hLevel.bounded.y1
  have hSlope := hLevel.slope_bound
  have hScale : (65536 : Int32).toInt = 65536 := rfl
  have hNumber : ((e.y1 - e.y0) * 65536).toInt =
      (e.y1.toInt - e.y0.toInt) * 65536 := by
    rw [Int32.toInt_mul, hLevel.bounded.dy, hScale]
    exact Int.bmod_eq_of_le (by omega) (by omega)
  rw [Int32.toInt_div, hNumber, hLevel.bounded.dx]
  show Int.bmod e.slope (2 ^ 32) = e.slope
  exact Int.bmod_eq_of_le (by omega) (by omega)

/- `y0 * 65536`. -/
theorem Level.start_eq
    (hLevel : e.Level) :
    (e.y0 * 65536).toInt = e.heightAt 0 := by
  have hFirst := hLevel.bounded.y0
  have hScale : (65536 : Int32).toInt = 65536 := rfl
  unfold heightAt
  rw [Int32.toInt_mul, hScale, zero_mul, add_zero]
  exact Int.bmod_eq_of_le (by omega) (by omega)

/- The marks of a line, by their place along the main axis. -/
def stroke
    (e : Ends)
    (c : UInt32)
    (q : Int × Int) : Option (UInt32 × UInt32) :=
  if e.course.x0.toInt ≤ q.1 ∧ q.1 ≤ e.course.x1.toInt then
    markAt e.steep c q.1
      (e.course.heightAt (q.1 - e.course.x0.toInt)) q
  else none

end Courses

end Ends

namespace Framebuffer

/- A line gives each point its mark. -/
theorem lineAa_picture
    {fb : Framebuffer}
    {ch : Channels}
    {clip : Clip}
    {p : Int × Int}
    (hMode : fb.bpp = .b32)
    (hClip : fb.ClipValid clip)
    (hScreen : p ∈ fb.screen)
    {e : Ends}
    (hBounded : e.Bounded)
    (c : UInt32)
    (mem : Buf) :
    fb.picture (fb.lineAa ch clip e c mem) p =
      inked ch clip p (fb.picture mem p)
        (e.stroke c (place e.steep p)) := by
  have hLevel := Ends.course_level hBounded
  have hSteep := Ends.steep_iff hBounded
  have hGrad := hLevel.grad_eq
  have hStart := hLevel.start_eq
  have hSlope := hLevel.slope_bound
  have hRight := hLevel.right
  have hDx := hLevel.bounded.dx
  have hX0 := hLevel.bounded.x0
  have hX1 := hLevel.bounded.x1
  show fb.picture (if e.course.x1 - e.course.x0 = 0 then
    fb.blendPixel ch clip e.course.x0 e.course.y0 c 255 mem
    else fb.lineAaLoop ch clip e.steep c
      ((e.course.y1 - e.course.y0) * 65536 /
        (e.course.x1 - e.course.x0))
      (e.course.x1.toInt - e.course.x0.toInt + 1).toNat
      e.course.x0 (e.course.y0 * 65536) mem) p = _
  by_cases hDot : e.course.x1 - e.course.x0 = 0
  · have hZero : e.course.x1.toInt - e.course.x0.toInt =
        0 := by
      rw [← hDx, hDot, Int32.toInt_zero]
    have hFlat : e.steep = false := by
      by_contra hSet
      have hWide := Ends.course_wide hBounded
        (Bool.not_eq_false _ ▸ hSet)
      omega
    rw [if_pos hDot, hFlat, blendPixel_picture hMode hClip _ _ _
      _ _ _ hScreen]
    show _ = inked ch clip p _ (e.stroke c p)
    unfold Ends.stroke
    rw [hFlat]
    by_cases hX : p.1 = e.course.x0.toInt
    · have hHeight : e.course.heightAt (p.1 -
          e.course.x0.toInt) = e.course.y0.toInt * 65536 := by
        unfold Ends.heightAt
        rw [hX, sub_self, zero_mul, add_zero]
      have hIn : e.course.x0.toInt ≤ p.1 ∧
          p.1 ≤ e.course.x1.toInt := by omega
      rw [if_pos hIn, hHeight]
      unfold markAt fracOf
      rw [if_pos rfl, Int.mul_ediv_cancel _ (by decide)]
      have hWhole : (e.course.y0.toInt * 65536 / 256 %
          256).toNat = 0 := by omega
      rw [hWhole]
      by_cases hY : p.2 = e.course.y0.toInt
      · rw [if_pos hY]
        simp only [Prod.ext_iff, hX, hY, true_and]
        rfl
      · have hOther : ¬(p = (e.course.x0.toInt,
            e.course.y0.toInt) ∧ p ∈ Clip.points clip) :=
          fun hBoth => hY (Prod.ext_iff.mp hBoth.1).2
        rw [if_neg hOther, if_neg hY]
        split
        · exact (ite_self _).symm
        · rfl
    · have hOther : ¬(p = (e.course.x0.toInt,
          e.course.y0.toInt) ∧ p ∈ Clip.points clip) :=
        fun hBoth => hX (Prod.ext_iff.mp hBoth.1).1
      have hOut : ¬(e.course.x0.toInt ≤ p.1 ∧
          p.1 ≤ e.course.x1.toInt) := by omega
      rw [if_neg hOther, if_neg hOut]
      rfl
  · have hHeights : ∀ k : Nat,
        k < (e.course.x1.toInt - e.course.x0.toInt + 1).toNat →
        -2 ^ 30 ≤ (e.course.y0 * 65536).toInt +
            k * ((e.course.y1 - e.course.y0) * 65536 /
              (e.course.x1 - e.course.x0)).toInt ∧
          (e.course.y0 * 65536).toInt +
            k * ((e.course.y1 - e.course.y0) * 65536 /
              (e.course.x1 - e.course.x0)).toInt ≤ 2 ^ 30 := by
      intro k hK
      have hBound := @Ends.Level.heightAt_bound _ hLevel k
        (by omega) (by omega)
      unfold Ends.heightAt at hStart hBound
      rw [hStart, hGrad]
      omega
    rw [if_neg hDot, lineAaLoop_picture hMode hClip hScreen
      e.steep c (hGrad.symm ▸ hSlope) _ (by omega) hHeights]
    refine congrArg
      (inked ch clip p (fb.picture mem p)) ?_
    unfold strokeAt Ends.stroke
    have hTerm : ∀ m : Int, (e.course.y0 * 65536).toInt +
        (m - e.course.x0.toInt) *
          ((e.course.y1 - e.course.y0) * 65536 /
            (e.course.x1 - e.course.x0)).toInt =
        e.course.heightAt (m - e.course.x0.toInt) := by
      intro m
      unfold Ends.heightAt at *
      rw [hStart, hGrad, zero_mul, add_zero]
    rw [hTerm]
    by_cases hIn : e.course.x0.toInt ≤ (place e.steep p).1 ∧
        (place e.steep p).1 ≤ e.course.x1.toInt
    · rw [if_pos hIn, if_pos (by omega)]
    · rw [if_neg hIn, if_neg (by omega)]

end Framebuffer

end KvantOS.Display
