import KvantOS.Printf.Formats

/-
  This file proves when a numeric conversion prints what the
  C standard says: always, but for a negative number that is
  padded with zeros.

  Key definitions include:
    * `Directive`, `NumberSpec`

  Key theorems include:
    * `readWidth_digits`, `numberText_iff`
    * `kvprintf_number_iff`
-/

namespace KvantOS.Printf

/- The number that some digits stand for, after `width`. -/
def widthOf
    (width : Nat)
    (ds : List UInt8) : Nat :=
  ds.foldl (fun width c => width * 10 + (c.toNat - 48)) width

theorem isDigit_iff {c : UInt8} :
    isDigit c = true ↔ 48 ≤ c.toNat ∧ c.toNat ≤ 57 := by
  unfold isDigit
  rw [Bool.and_eq_true, decide_eq_true_eq,
    decide_eq_true_eq, UInt8.le_iff_toNat_le,
    UInt8.le_iff_toNat_le]
  rfl

theorem le_widthOf
    (width : Nat)
    (ds : List UInt8) :
    width ≤ widthOf width ds := by
  induction ds generalizing width with
  | nil => exact Nat.le_refl _
  | cons c ds ih =>
      have hNext := ih (width * 10 + (c.toNat - 48))
      unfold widthOf at hNext ⊢
      rw [List.foldl_cons]
      omega

/- Digits of a width that an `int` holds are read as it. -/
theorem readWidth_digits
    {ds q : List UInt8}
    {width : Nat}
    (hDigits : ∀ c ∈ ds, isDigit c = true)
    (hBound : widthOf width ds < 2 ^ 31)
    (hStop : q.head?.any isDigit = false) :
    readWidth width (ds ++ q) =
      (((widthOf width ds : Nat) : Int), q) := by
  induction ds generalizing width with
  | nil =>
      cases q with
      | nil => rfl
      | cons c q =>
          rw [List.head?_cons, Option.any_some] at hStop
          rw [List.nil_append, readWidth, hStop]
          rfl
  | cons c ds ih =>
      have hDigit := hDigits c List.mem_cons_self
      have hRange := isDigit_iff.mp hDigit
      have hNext := le_widthOf (width * 10 + (c.toNat - 48)) ds
      have hSame : widthOf width (c :: ds) =
        widthOf (width * 10 + (c.toNat - 48)) ds := rfl
      rw [hSame] at hBound ⊢
      have hStep : Int.bmod ((width : Int) * 10 +
          (c.toNat - 48 : Int)) (2 ^ 32) =
          (width * 10 + (c.toNat - 48) : Nat) := by
        rw [Int.bmod_def, if_pos (by omega)]
        omega
      rw [List.cons_append, readWidth, if_pos hDigit, hStep]
      exact ih (fun d hMem => hDigits d
        (List.mem_cons_of_mem _ hMem)) hBound

--
-- Conversion Specifications
--

/- The conversions of numbers that C has. -/
inductive Directive where
  | d
  | i
  | u
  | x
  | X
  deriving DecidableEq

namespace Directive

def letter : Directive → UInt8
  | d => ch 'd'
  | i => ch 'i'
  | u => ch 'u'
  | x => ch 'x'
  | X => ch 'X'

def isSigned : Directive → Bool
  | d | i => true
  | u | x | X => false

def base : Directive → Nat
  | d | i | u => 10
  | x | X => 16

def upper : Directive → Bool
  | X => true
  | d | i | u | x => false

end Directive

/-
  A conversion of a number: a zero flag or none, the digits
  of a width up to 36, and the conversion.
-/
structure NumberSpec where
  zero : Bool
  widthDigits : List UInt8
  directive : Directive
  digit : ∀ c ∈ widthDigits, isDigit c = true
  noFlag : widthDigits.head? ≠ some (ch '0')
  fits : widthOf 0 widthDigits ≤ 36

namespace NumberSpec

variable (s : NumberSpec)

def width : Nat :=
  widthOf 0 s.widthDigits

/- The format of the one conversion. -/
def format : CStr where
  bytes := ch '%' :: ((if s.zero then [ch '0'] else []) ++
    (s.widthDigits ++ [s.directive.letter]))
  noNul := by
    intro hMem
    rcases List.mem_cons.mp hMem with hPercent | hMem
    · cases hPercent
    rcases List.mem_append.mp hMem with hFlag | hMem
    · cases hZero : s.zero <;> rw [hZero] at hFlag
      · cases hFlag
      · cases List.mem_singleton.mp hFlag
    rcases List.mem_append.mp hMem with hWidth | hLetter
    · have hDigit := s.digit 0 hWidth
      cases hDigit
    · cases hDirective : s.directive <;>
        rw [hDirective] at hLetter <;>
        cases List.mem_singleton.mp hLetter

/- The number that an argument stands for. -/
def value (v : UInt32) : Int :=
  valueOf s.directive.isSigned v

/- What the C standard prints. -/
def cText (v : UInt32) : List UInt8 :=
  cNumber s.directive.upper s.directive.base (s.value v)
    s.width s.zero

/- How many characters the number has without padding. -/
def plainLength (v : UInt32) : Nat :=
  (plainNumber s.directive.upper s.directive.base
    (s.value v)).length

end NumberSpec

theorem letter_switch (c : Directive) :
    switch c.letter = .num c.base c.isSigned c.upper := by
  cases c <;> rfl

theorem letter_not_digit (c : Directive) :
    isDigit c.letter = false := by
  cases c <;> decide

/- The format is one piece. -/
theorem pieces_format (s : NumberSpec) :
    pieces s.format =
      [.conv s.zero s.width s.directive.letter] := by
  have hWidth := @readWidth_digits s.widthDigits
    [s.directive.letter] 0 s.digit
    (Nat.lt_of_le_of_lt s.fits (by decide))
    (letter_not_digit s.directive)
  have hFlag : readZero ((if s.zero then [ch '0'] else []) ++
      (s.widthDigits ++ [s.directive.letter])) =
      (s.zero, s.widthDigits ++ [s.directive.letter]) := by
    cases s.zero with
    | true => rfl
    | false =>
        have hNone := s.noFlag
        cases hDigits : s.widthDigits with
        | nil => cases s.directive <;> rfl
        | cons c ds =>
            rw [hDigits, List.head?_cons, ne_eq,
              Option.some.injEq] at hNone
            show readZero (c :: _) = _
            rw [readZero, if_neg (by simpa using hNone)]
            rfl
  unfold pieces NumberSpec.format CStr.length
  dsimp only
  rw [List.length_cons, List.length_append,
    List.length_append, List.length_singleton]
  have hPercent : ¬(ch '%' != ch '%') = true := by decide
  rw [piecesFrom, if_neg hPercent, hFlag]
  dsimp only
  change readWidth 0 _ = _ at hWidth
  rw [hWidth]
  dsimp only
  have hEnd : ∀ turns, piecesFrom turns [] = [] := by
    intro turns
    cases turns <;> rfl
  rw [hEnd]
  rfl

/- Zeros before a sign are what C does not print. -/
theorem numberText_iff
    {upper : Bool}
    {base width : Nat}
    {n : Int}
    {zero : Bool} :
    numberText upper base n width zero =
        cNumber upper base n width zero ↔
      ¬(zero = true ∧ n < 0 ∧
        (plainNumber upper base n).length < width) := by
  unfold numberText cNumber
  dsimp only
  have hFill : ((width : Int) -
      ((plainNumber upper base n).length : Nat)).toNat =
      width - (plainNumber upper base n).length := by omega
  rw [hFill]
  cases zero with
  | false =>
      rw [if_neg (by decide), if_neg (by decide)]
      exact iff_of_true rfl nofun
  | true =>
      rw [if_pos rfl, if_pos rfl]
      by_cases hNeg : n < 0
      · by_cases hPad :
            (plainNumber upper base n).length < width
        · refine iff_of_false ?_
            (fun hNot => hNot ⟨rfl, hNeg, hPad⟩)
          obtain ⟨fill, hFill⟩ : ∃ fill, width -
              (plainNumber upper base n).length = fill + 1 :=
            ⟨width - (plainNumber upper base n).length - 1,
              by omega⟩
          rw [hFill, List.replicate_succ]
          unfold signOf
          rw [if_pos hNeg]
          intro hEq
          have hHead := congrArg List.head? hEq
          cases hHead
        · refine iff_of_true ?_ (fun hAll => hPad hAll.2.2)
          rw [Nat.sub_eq_zero_of_le (Nat.le_of_not_lt hPad),
            List.replicate_zero, List.nil_append,
            List.append_nil]
          rfl
      · refine iff_of_true ?_ (fun hAll => hNeg hAll.2.1)
        unfold plainNumber signOf
        rw [if_neg hNeg, List.nil_append, List.nil_append]

/- The sink that collects what is emitted. -/
def collect
    (c : UInt8)
    (s : List UInt8) : Except Fault (List UInt8) :=
  .ok (s ++ [c])

theorem emitAll_collect (s t : List UInt8) :
    emitAll collect t s = .ok (s ++ t) := by
  induction t generalizing s with
  | nil => rw [List.append_nil]; rfl
  | cons c t ih =>
      rw [emitAll_cons]
      show emitAll collect t (s ++ [c]) = _
      rw [ih, List.append_assoc]
      rfl

/-
  A number is printed as in C for every sink, if and only if
  it is not negative and padded with zeros.
-/
theorem kvprintf_number_iff
    (s : NumberSpec)
    (v : UInt32) :
    (∀ (σ : Type) (emit : UInt8 → σ → Except Fault σ)
        (ctx : σ),
      kvprintf emit ctx s.format [.word v] =
        emitAll emit (s.cText v) ctx) ↔
      ¬(s.zero = true ∧ s.value v < 0 ∧
        s.plainLength v < s.width) := by
  have hFits : Fits (pieces s.format) [.word v] := by
    rw [pieces_format]
    refine ⟨?_, trivial⟩
    unfold Suits
    rw [letter_switch]
    trivial
  have hBounded : Bounded (pieces s.format) := by
    rw [pieces_format]
    intro p hMem
    rw [List.mem_singleton.mp hMem, bounded_iff]
    intro _ _ _ _
    exact_mod_cast s.fits
  have hText : text (pieces s.format) [.word v] =
      numberText s.directive.upper s.directive.base
        (s.value v) s.width s.zero := by
    rw [pieces_format, text, text, List.append_nil]
    unfold convText
    rw [letter_switch]
    rfl
  have hRun : ∀ (σ : Type)
      (emit : UInt8 → σ → Except Fault σ) (ctx : σ),
      kvprintf emit ctx s.format [.word v] =
        emitAll emit (numberText s.directive.upper
          s.directive.base (s.value v) s.width s.zero) ctx := by
    intro σ emit ctx
    rw [kvprintf_pieces, runPieces_bounded hFits hBounded,
      hText]
  rw [NumberSpec.plainLength, ← numberText_iff]
  constructor
  · intro hAll
    have hOne := hAll _ collect []
    rw [hRun, emitAll_collect, emitAll_collect] at hOne
    exact Except.ok.inj hOne
  · intro hSame σ emit ctx
    rw [hRun, hSame]
    rfl

/- `%05d`. -/
def paddedSpec : NumberSpec where
  zero := true
  widthDigits := [ch '5']
  directive := .d
  digit := List.forall_mem_singleton.mpr rfl
  noFlag := by decide
  fits := by decide

/- It prints -42 as `00-42`, where C prints `-0042`. -/
theorem zeros_before_sign :
    kvprintf collect [] paddedSpec.format
        [.word 0xFFFFFFD6] = .ok (chars "00-42") ∧
      paddedSpec.cText 0xFFFFFFD6 = chars "-0042" ∧
      ¬∀ (s : NumberSpec) (v : UInt32) (σ : Type)
        (emit : UInt8 → σ → Except Fault σ) (ctx : σ),
        kvprintf emit ctx s.format [.word v] =
          emitAll emit (s.cText v) ctx := by
  have hCode : kvprintf collect [] paddedSpec.format
      [.word 0xFFFFFFD6] = .ok (chars "00-42") := by
    decide +kernel
  have hText : paddedSpec.cText 0xFFFFFFD6 =
      chars "-0042" := by
    decide +kernel
  refine ⟨hCode, hText, fun hAll => ?_⟩
  have hBoth := hAll paddedSpec 0xFFFFFFD6 _ collect []
  rw [hCode, hText, emitAll_collect] at hBoth
  exact absurd (Except.ok.inj hBoth) (by decide)

end KvantOS.Printf
