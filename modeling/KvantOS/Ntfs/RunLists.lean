import KvantOS.Ntfs.Reading
import Mathlib

/-
  This file proves that `parse_runlist` is the inverse of
  the encoding of run lists, whatever widths the fields were
  given, that it accepts nothing else, and that
  `run_lookup` finds every cluster of the runs.

  Key definitions include:
    * `RunCode`, `encodeRuns`, `GoodRuns`

  Key theorems include:
    * `parseRuns_iff`, `goodRuns_encoded`, `runLookup_tiles`
    * `parseRunlist_exact`
-/

namespace KvantOS.Ntfs

--
-- Encoding
--

/- A number in some bytes, the lowest first. -/
def littleBytes : (n width : Nat) → List UInt8
  | _, 0 => []
  | n, width + 1 =>
      UInt8.ofNat n :: littleBytes (n / 256) width

/- A signed number, modulo what the bytes can hold. -/
def signedBytes
    (d : Int)
    (width : Nat) : List UInt8 :=
  littleBytes (d % 256 ^ width).toNat width

/-
  A run before it is encoded: its length, its first cluster
  if it has one, and the widths chosen for the two fields.
-/
structure RunCode where
  len : Nat
  lcn : Option Nat
  lenBytes : Nat
  lcnBytes : Nat

namespace RunCode

/- The first cluster that the next run counts from. -/
def after (c : RunCode) (base : Nat) : Nat :=
  c.lcn.getD base

/- The bytes of a run; a hole has no second field. -/
def bytes (c : RunCode) (base : Nat) : List UInt8 :=
  match c.lcn with
  | none =>
      UInt8.ofNat c.lenBytes :: littleBytes c.len c.lenBytes
  | some lcn =>
      UInt8.ofNat (c.lenBytes + 16 * c.lcnBytes) ::
        (littleBytes c.len c.lenBytes ++
          signedBytes ((lcn : Int) - base) c.lcnBytes)

/- The widths hold the fields, and the run its clusters. -/
structure Fits (c : RunCode) (base : Nat) : Prop where
  lenPos : 0 < c.len
  lenWidth : 1 ≤ c.lenBytes ∧ c.lenBytes ≤ 4
  lenHeld : c.len < 256 ^ c.lenBytes
  lcnWidth : c.lcn ≠ none →
    1 ≤ c.lcnBytes ∧ c.lcnBytes ≤ 4
  lcnHeld : ∀ lcn, c.lcn = some lcn →
    -(256 ^ c.lcnBytes : Int) ≤ 2 * ((lcn : Int) - base) ∧
      2 * ((lcn : Int) - base) < 256 ^ c.lcnBytes
  lcnSmall : ∀ lcn, c.lcn = some lcn →
    lcn < 2 ^ 31 ∧ lcn + c.len < 2 ^ 32

/- The run, from some cluster of the stream on. -/
def run (c : RunCode) (vcn : Nat) : NtfsRun where
  vcn
  lcn := c.lcn.getD 0
  len := c.len
  sparse := c.lcn.isNone

end RunCode

/- The bytes of a list of runs, with the terminator. -/
def encodeRuns : (base : Nat) → List RunCode → List UInt8
  | _, [] => [0]
  | base, c :: codes =>
      c.bytes base ++ encodeRuns (c.after base) codes

/- All runs fit, each counted from the one before. -/
def CodesFit : (base : Nat) → List RunCode → Prop
  | _, [] => True
  | base, c :: codes =>
      c.Fits base ∧ CodesFit (c.after base) codes

/- The runs, one after the other from `vcn` on. -/
def codeRuns : (vcn : Nat) → List RunCode → List NtfsRun
  | _, [] => []
  | vcn, c :: codes =>
      c.run vcn :: codeRuns (vcn + c.len) codes

/- The buffer has some bytes at `p`. -/
def HasBytes (b : Buf) : (p : Nat) → List UInt8 → Prop
  | _, [] => True
  | p, x :: bytes => b p = x ∧ HasBytes b (p + 1) bytes

section Bytes

variable {b : Buf} {p : Nat}

theorem HasBytes.append
    {first second : List UInt8}
    (hBytes : HasBytes b p (first ++ second)) :
    HasBytes b p first ∧
      HasBytes b (p + first.length) second := by
  induction first generalizing p with
  | nil => exact ⟨trivial, hBytes⟩
  | cons x first ih =>
      rcases ih hBytes.2 with ⟨hFirst, hSecond⟩
      refine ⟨⟨hBytes.1, hFirst⟩, ?_⟩
      rw [List.length_cons, Nat.add_comm first.length,
        ← Nat.add_assoc]
      exact hSecond

/- The buffer of a list has its bytes. -/
theorem hasBytes_ofList
    (first bytes : List UInt8) :
    HasBytes (Buf.ofList (first ++ bytes)) first.length
      bytes := by
  induction bytes generalizing first with
  | nil => trivial
  | cons x bytes ih =>
      refine ⟨by simp [Buf.ofList], ?_⟩
      have hRest := ih (first ++ [x])
      rw [List.append_assoc, List.length_append] at hRest
      exact hRest

@[simp]
theorem length_littleBytes
    (n width : Nat) :
    (littleBytes n width).length = width := by
  induction width generalizing n with
  | zero => rfl
  | succ width ih =>
      rw [littleBytes, List.length_cons, ih]

@[simp]
theorem length_signedBytes
    (d : Int)
    (width : Nat) :
    (signedBytes d width).length = width :=
  length_littleBytes _ _

theorem littleEndian_bytes
    {n width : Nat}
    (hHeld : n < 256 ^ width)
    (hBytes : HasBytes b p (littleBytes n width)) :
    littleEndian b p width = n := by
  induction width generalizing n p with
  | zero =>
      rw [Nat.pow_zero] at hHeld
      rw [littleEndian]
      omega
  | succ width ih =>
      rw [Nat.pow_succ] at hHeld
      have hRest := ih
        (Nat.div_lt_of_lt_mul (by omega)) hBytes.2
      have hByte : (b p).toNat = n % 256 := by
        rw [hBytes.1]
        exact UInt8.toNat_ofNat'
      rw [littleEndian, hRest, hByte]
      omega

theorem littleSigned_bytes
    {d : Int}
    {width : Nat}
    (hLow : -(256 ^ width : Int) ≤ 2 * d)
    (hHigh : 2 * d < 256 ^ width)
    (hBytes : HasBytes b p (signedBytes d width)) :
    littleSigned b p width = d := by
  have hPow : (0 : Int) < 256 ^ width :=
    Int.pow_pos (by decide)
  have hMod := Int.emod_lt_of_pos d hPow
  have hNonneg := Int.emod_nonneg d hPow.ne'
  have hNat : ((d % 256 ^ width).toNat : Int) =
      d % 256 ^ width := Int.toNat_of_nonneg hNonneg
  have hCast : (((256 ^ width : Nat)) : Int) =
      256 ^ width := Int.natCast_pow 256 width
  have hHeld : (d % 256 ^ width).toNat < 256 ^ width := by
    omega
  unfold littleSigned
  rw [littleEndian_bytes hHeld hBytes]
  dsimp only
  by_cases hSign : 0 ≤ d
  · have hSame : d % 256 ^ width = d :=
      Int.emod_eq_of_lt hSign (by omega)
    rw [if_pos (by omega)]
    omega
  · have hSame : d % 256 ^ width = d + 256 ^ width := by
      rw [← Int.add_emod_right]
      exact Int.emod_eq_of_lt (by omega) (by omega)
    rw [if_neg (by omega)]
    omega

end Bytes

--
-- What Is Accepted
--

/-
  The run at `p` is whole before `stop`, its fields have at
  most four bytes, and no sum leaves its range.
-/
structure RunOk
    (b : Buf)
    (stop p : Nat)
    (lcn : Int)
    (vcn : Nat) : Prop where
  widths : 1 ≤ lengthBytes b p ∧ lengthBytes b p ≤ 4 ∧
    offsetBytes b p ≤ 4
  next : nextRun b p ≤ stop
  length : 0 < runLength b p
  clusters : vcn + runLength b p ≤ maxU32
  place : offsetBytes b p ≠ 0 →
    0 ≤ lcn + runDelta b p ∧
      lcn + runDelta b p < 2 ^ 31 ∧
      lcn + runDelta b p + runLength b p ≤ maxU32

/- From `p` on there is an encoding, with its terminator. -/
inductive GoodRuns
    (b : Buf)
    (stop : Nat) :
    (p : Nat) → (lcn : Int) → (vcn : Nat) →
      List NtfsRun → Prop
  | last
      {p vcn : Nat}
      {lcn : Int}
      (hIn : p < stop)
      (hZero : b p = 0) :
      GoodRuns b stop p lcn vcn []
  | run
      {p vcn : Nat}
      {lcn : Int}
      {rest : List NtfsRun}
      (hIn : p < stop)
      (hSome : b p ≠ 0)
      (hOk : RunOk b stop p lcn vcn)
      (hRest : GoodRuns b stop (nextRun b p)
        (lcn + runDelta b p) (vcn + runLength b p) rest) :
      GoodRuns b stop p lcn vcn
        (encodedRun b p lcn vcn :: rest)

section Accepted

variable {b : Buf} {stop : Nat}

variable {runs : List NtfsRun}

theorem GoodRuns.inside
    {p vcn : Nat}
    {lcn : Int}
    (hRuns : GoodRuns b stop p lcn vcn runs) :
    p < stop := by
  cases hRuns with
  | last hIn _ => exact hIn
  | run hIn _ _ _ => exact hIn

theorem GoodRuns.unique
    {p vcn : Nat}
    {lcn : Int}
    {runs runs' : List NtfsRun}
    (hRuns : GoodRuns b stop p lcn vcn runs)
    (hRuns' : GoodRuns b stop p lcn vcn runs') :
    runs = runs' := by
  induction hRuns generalizing runs' with
  | last hIn hZero =>
      cases hRuns' with
      | last _ _ => rfl
      | run _ hSome _ _ => exact absurd hZero hSome
  | run hIn hSome hOk hRest ih =>
      cases hRuns' with
      | last _ hZero => exact absurd hZero hSome
      | run _ _ _ hRest' => rw [ih hRest']

/- The base for the next run stays a signed word. -/
theorem RunOk.base
    {p vcn : Nat}
    {lcn : Int}
    (hOk : RunOk b stop p lcn vcn)
    (hBase : 0 ≤ lcn ∧ lcn < 2 ^ 31) :
    0 ≤ lcn + runDelta b p ∧
      lcn + runDelta b p < 2 ^ 31 := by
  by_cases hSparse : offsetBytes b p = 0
  · have hZero : runDelta b p = 0 := by
      simp [runDelta, hSparse]
    rw [hZero, Int.add_zero]
    exact hBase
  · have hPlace := hOk.place hSparse
    exact ⟨hPlace.1, hPlace.2.1⟩

section Step

variable {max fuel p n vcn : Nat} {lcn : Int}

/- The loop past its first tests, in the words of a run. -/
theorem parseRuns_step
    (hIn : p < stop)
    (hSome : b p ≠ 0)
    (hN : n < max) :
    parseRuns b stop max (fuel + 1) p n lcn vcn =
      if lengthBytes b p == 0 || lengthBytes b p > 4 ||
          offsetBytes b p > 4 ||
          stop - (p + 1) <
            lengthBytes b p + offsetBytes b p then
        none
      else if !(offsetBytes b p == 0) &&
          ((runDelta b p > 0 &&
              lcn > 0x7FFFFFFF - runDelta b p) ||
            (runDelta b p < 0 &&
              lcn < -2147483648 - runDelta b p)) then
        none
      else if runLength b p == 0 ||
          vcn > maxU32 - runLength b p ||
          (!(offsetBytes b p == 0) &&
            (lcn + runDelta b p < 0 ||
              (lcn + runDelta b p).toNat >
                maxU32 - runLength b p)) then
        none
      else
        (parseRuns b stop max fuel (nextRun b p) (n + 1)
          (lcn + runDelta b p)
          (vcn + runLength b p)).map
            (encodedRun b p lcn vcn :: ·) := by
  rw [parseRuns, if_neg (by omega), if_neg (by simp [hSome]),
    if_neg (by omega)]
  rfl

theorem parseRuns_run
    (hIn : p < stop)
    (hSome : b p ≠ 0)
    (hN : n < max)
    (hOk : RunOk b stop p lcn vcn) :
    parseRuns b stop max (fuel + 1) p n lcn vcn =
      (parseRuns b stop max fuel (nextRun b p) (n + 1)
        (lcn + runDelta b p) (vcn + runLength b p)).map
          (encodedRun b p lcn vcn :: ·) := by
  rw [parseRuns_step hIn hSome hN]
  rcases hOk with ⟨hWidths, hNext, hLength, hVcn, hPlace⟩
  unfold nextRun at hNext
  rw [if_neg (by simp; omega), if_neg, if_neg]
  · simp only [Bool.or_eq_true, beq_iff_eq,
      decide_eq_true_eq, Bool.and_eq_true,
      Bool.not_eq_true', beq_eq_false_iff_ne, not_or,
      not_and]
    omega
  · simp only [Bool.or_eq_true, decide_eq_true_eq,
      Bool.and_eq_true, Bool.not_eq_true',
      beq_eq_false_iff_ne, not_or, not_and]
    omega

theorem parseRuns_bad
    (hIn : p < stop)
    (hSome : b p ≠ 0)
    (hN : n < max)
    (hBase : 0 ≤ lcn ∧ lcn < 2 ^ 31)
    (hBad : ¬ RunOk b stop p lcn vcn) :
    parseRuns b stop max (fuel + 1) p n lcn vcn = none := by
  rw [parseRuns_step hIn hSome hN]
  split
  · rfl
  · next hWidths =>
      split
      · rfl
      · next hSum =>
          rw [if_pos]
          by_contra hGood
          apply hBad
          simp only [Bool.or_eq_true, beq_iff_eq,
            decide_eq_true_eq, Bool.and_eq_true,
            Bool.not_eq_true', beq_eq_false_iff_ne, not_or,
            not_and] at hWidths hSum hGood
          constructor
          · omega
          · unfold nextRun
            omega
          · omega
          · have hLength : runLength b p ≤ maxU32 :=
              runLength_le (by omega)
            omega
          · intro hPlain
            have hLength : runLength b p ≤ maxU32 :=
              runLength_le (by omega)
            omega

end Step

/- The tests of the loop say that the encoding is good. -/
theorem parseRuns_iff
    {max fuel p n vcn : Nat}
    {lcn : Int}
    (hFuel : stop - p ≤ fuel)
    (hN : n ≤ max)
    (hBase : 0 ≤ lcn ∧ lcn < 2 ^ 31)
    (runs : List NtfsRun) :
    parseRuns b stop max fuel p n lcn vcn = some runs ↔
      GoodRuns b stop p lcn vcn runs ∧
        n + runs.length ≤ max := by
  induction fuel generalizing p n lcn vcn runs with
  | zero =>
      refine ⟨by rintro ⟨⟩, ?_⟩
      rintro ⟨hGood, -⟩
      have hIn := hGood.inside
      omega
  | succ fuel ih =>
      by_cases hIn : p < stop
      · by_cases hZero : b p = 0
        · have hLast : GoodRuns b stop p lcn vcn [] :=
            .last hIn hZero
          rw [parseRuns, if_neg (by omega),
            if_pos (by simp [hZero]), Option.some_inj]
          constructor
          · rintro rfl
            exact ⟨hLast, hN⟩
          · rintro ⟨hGood, -⟩
            exact hLast.unique hGood
        · by_cases hFull : n < max
          · by_cases hOk : RunOk b stop p lcn vcn
            · have hNext : stop - nextRun b p ≤ fuel := by
                unfold nextRun
                omega
              rw [parseRuns_run hIn hZero hFull hOk,
                Option.map_eq_some_iff]
              constructor
              · rintro ⟨rest, hRest, rfl⟩
                rcases (ih hNext hFull (hOk.base hBase)
                  rest).mp hRest with ⟨hGood, hLength⟩
                refine ⟨.run hIn hZero hOk hGood, ?_⟩
                rw [List.length_cons]
                omega
              · rintro ⟨hGood, hLength⟩
                cases hGood with
                | last _ hNo => exact absurd hNo hZero
                | @run _ _ _ rest _ _ _ hRest =>
                    rw [List.length_cons] at hLength
                    exact ⟨rest, (ih hNext hFull
                      (hOk.base hBase) rest).mpr
                        ⟨hRest, by omega⟩, rfl⟩
            · rw [parseRuns_bad hIn hZero hFull hBase hOk]
              refine ⟨by rintro ⟨⟩, ?_⟩
              rintro ⟨hGood, -⟩
              cases hGood with
              | last _ hNo => exact absurd hNo hZero
              | run _ _ hYes _ => exact absurd hYes hOk
          · rw [parseRuns, if_neg (by omega),
              if_neg (by simp [hZero]), if_pos (by omega)]
            refine ⟨by rintro ⟨⟩, ?_⟩
            rintro ⟨hGood, hLength⟩
            cases hGood with
            | last _ hNo => exact absurd hNo hZero
            | run _ _ _ _ =>
                rw [List.length_cons] at hLength
                omega
      · rw [parseRuns, if_pos (by omega)]
        refine ⟨by rintro ⟨⟩, ?_⟩
        rintro ⟨hGood, -⟩
        exact absurd hGood.inside hIn

variable {b' : Buf}

/- The bytes at `p` up to `stop` decide what is accepted. -/
theorem littleEndian_congr
    {p count : Nat}
    (hSame : ∀ a, p ≤ a → a < p + count → b' a = b a) :
    littleEndian b' p count = littleEndian b p count := by
  induction count generalizing p with
  | zero => rfl
  | succ count ih =>
      rw [littleEndian, littleEndian,
        hSame p (Nat.le_refl _) (by omega),
        ih (fun a hLow hHigh =>
          hSame a (by omega) (by omega))]

theorem GoodRuns.congr
    {p vcn : Nat}
    {lcn : Int}
    (hSame : ∀ a, p ≤ a → a < stop → b' a = b a)
    (hGood : GoodRuns b stop p lcn vcn runs) :
    GoodRuns b' stop p lcn vcn runs := by
  induction hGood with
  | @last p vcn lcn hIn hZero =>
      refine .last hIn ?_
      rw [hSame p (Nat.le_refl _) hIn]
      exact hZero
  | @run p vcn lcn rest hIn hSome hOk hRest ih =>
      have hByte := hSame p (Nat.le_refl _) hIn
      have hNext := hOk.next
      have hLen : lengthBytes b' p = lengthBytes b p := by
        unfold lengthBytes
        rw [hByte]
      have hOff : offsetBytes b' p = offsetBytes b p := by
        unfold offsetBytes
        rw [hByte]
      have hEnd : nextRun b' p = nextRun b p := by
        unfold nextRun
        rw [hLen, hOff]
      unfold nextRun at hNext
      have hLength : runLength b' p = runLength b p := by
        unfold runLength
        rw [hLen]
        exact littleEndian_congr (fun a hLow hHigh =>
          hSame a (by omega) (by omega))
      have hDelta : runDelta b' p = runDelta b p := by
        unfold runDelta littleSigned
        rw [hLen, hOff, littleEndian_congr
          (fun a hLow hHigh =>
            hSame a (by omega) (by omega))]
      have hRun : encodedRun b' p lcn vcn =
          encodedRun b p lcn vcn := by
        unfold encodedRun
        rw [hOff, hLength, hDelta]
      have hOk' : RunOk b' stop p lcn vcn := by
        constructor
        · rw [hLen, hOff]
          exact hOk.widths
        · rw [hEnd]
          exact hOk.next
        · rw [hLength]
          exact hOk.length
        · rw [hLength]
          exact hOk.clusters
        · rw [hOff, hDelta, hLength]
          exact hOk.place
      rw [← hRun]
      refine .run hIn (by rwa [hByte]) hOk' ?_
      rw [hEnd, hDelta, hLength]
      exact ih (fun a hLow hHigh => hSame a
        (by unfold nextRun at hLow; omega) hHigh)

/- What a call returns, with any fuel that is enough. -/
theorem parseRuns_fuel
    {max fuel p vcn : Nat}
    (hFuel : stop - p ≤ fuel) :
    parseRuns b stop max fuel p 0 0 vcn =
      parseRuns b stop max (stop - p) p 0 0 vcn := by
  apply Option.ext
  intro runs
  rw [parseRuns_iff hFuel (Nat.zero_le _) (by decide),
    parseRuns_iff (Nat.le_refl _) (Nat.zero_le _)
      (by decide)]

theorem parseRuns_congr
    {max p vcn : Nat}
    (hSame : ∀ a, p ≤ a → a < stop → b' a = b a) :
    parseRuns b' stop max (stop - p) p 0 0 vcn =
      parseRuns b stop max (stop - p) p 0 0 vcn := by
  apply Option.ext
  intro runs
  rw [parseRuns_iff (Nat.le_refl _) (Nat.zero_le _)
      (by decide),
    parseRuns_iff (Nat.le_refl _) (Nat.zero_le _)
      (by decide)]
  constructor
  · rintro ⟨hGood, hLength⟩
    exact ⟨hGood.congr (fun a hLow hHigh =>
      (hSame a hLow hHigh).symm), hLength⟩
  · rintro ⟨hGood, hLength⟩
    exact ⟨hGood.congr hSame, hLength⟩

end Accepted

--
-- Decoding an Encoding
--

section Decoding

variable {b : Buf} {stop : Nat}

theorem length_bytes
    (c : RunCode)
    (base : Nat) :
    (c.bytes base).length = 1 + c.lenBytes +
      (if c.lcn = none then 0 else c.lcnBytes) := by
  unfold RunCode.bytes
  cases c.lcn with
  | none => simp; omega
  | some lcn => simp; omega

/- What the driver reads off one encoded run. -/
structure Decoded
    (b : Buf)
    (p base : Nat)
    (c : RunCode) : Prop where
  header : b p ≠ 0
  lenBytes : lengthBytes b p = c.lenBytes
  lcnBytes : offsetBytes b p =
    if c.lcn = none then 0 else c.lcnBytes
  length : runLength b p = c.len
  delta : (base : Int) + runDelta b p = c.after base
  next : nextRun b p = p + (c.bytes base).length

theorem RunCode.decoded
    {c : RunCode}
    {p base : Nat}
    (hFits : c.Fits base)
    (hBytes : HasBytes b p (c.bytes base)) :
    Decoded b p base c := by
  have hLenWidth := hFits.lenWidth
  cases hLcn : c.lcn with
  | none =>
      rw [RunCode.bytes, hLcn] at hBytes
      rcases hBytes with ⟨hHeader, hLength⟩
      have hByte : (b p).toNat = c.lenBytes := by
        rw [hHeader, UInt8.toNat_ofNat']
        omega
      have hLen : lengthBytes b p = c.lenBytes := by
        unfold lengthBytes
        omega
      have hOff : offsetBytes b p = 0 := by
        unfold offsetBytes
        omega
      constructor
      · intro hZero
        rw [hZero] at hByte
        simp at hByte
        omega
      · exact hLen
      · rw [hOff, hLcn]
        rfl
      · unfold runLength
        rw [hLen]
        exact littleEndian_bytes hFits.lenHeld hLength
      · simp [runDelta, hOff, RunCode.after, hLcn]
      · rw [length_bytes, if_pos hLcn, nextRun, hLen, hOff]
        omega
  | some lcn =>
      have hLcnWidth := hFits.lcnWidth (by simp [hLcn])
      have hHeld := hFits.lcnHeld lcn hLcn
      rw [RunCode.bytes, hLcn] at hBytes
      rcases hBytes with ⟨hHeader, hFields⟩
      rcases hFields.append with ⟨hLength, hDelta⟩
      rw [length_littleBytes] at hDelta
      have hByte : (b p).toNat =
          c.lenBytes + 16 * c.lcnBytes := by
        rw [hHeader, UInt8.toNat_ofNat']
        omega
      have hLen : lengthBytes b p = c.lenBytes := by
        unfold lengthBytes
        omega
      have hOff : offsetBytes b p = c.lcnBytes := by
        unfold offsetBytes
        omega
      constructor
      · intro hZero
        rw [hZero] at hByte
        simp at hByte
        omega
      · exact hLen
      · rw [hOff, if_neg (by simp [hLcn])]
      · unfold runLength
        rw [hLen]
        exact littleEndian_bytes hFits.lenHeld hLength
      · unfold runDelta
        rw [hOff, if_neg (by simp; omega), hLen,
          littleSigned_bytes hHeld.1 hHeld.2 hDelta,
          RunCode.after, hLcn, Option.getD_some]
        omega
      · rw [length_bytes, if_neg (by simp [hLcn]), nextRun,
          hLen, hOff]
        omega

/- An encoding is one that the driver accepts. -/
theorem goodRuns_encoded
    {codes : List RunCode}
    {p base vcn : Nat}
    (hFit : CodesFit base codes)
    (hBytes : HasBytes b p (encodeRuns base codes))
    (hStop : p + (encodeRuns base codes).length ≤ stop)
    (hVcn : vcn + (codes.map RunCode.len).sum ≤ maxU32) :
    GoodRuns b stop p base vcn (codeRuns vcn codes) := by
  induction codes generalizing p base vcn with
  | nil =>
      simp only [encodeRuns, List.length_singleton] at hStop
      exact .last (by omega) hBytes.1
  | cons c codes ih =>
      rcases hFit with ⟨hFits, hLater⟩
      rw [encodeRuns] at hBytes hStop
      rw [List.length_append] at hStop
      rw [List.map_cons, List.sum_cons] at hVcn
      rcases hBytes.append with ⟨hFirst, hRest⟩
      have hDecoded := RunCode.decoded hFits hFirst
      have hLength := length_bytes c base
      have hLenWidth := hFits.lenWidth
      have hRun : encodedRun b p base vcn = c.run vcn := by
        unfold encodedRun RunCode.run
        rw [hDecoded.length, hDecoded.lcnBytes]
        cases hLcn : c.lcn with
        | none => rfl
        | some lcn =>
            have hWidth := hFits.lcnWidth (by simp [hLcn])
            have hNe : (c.lcnBytes == 0) = false := by
              rw [beq_eq_false_iff_ne]
              omega
            have hAfter := hDecoded.delta
            rw [RunCode.after, hLcn, Option.getD_some]
              at hAfter
            simp [hNe, hAfter]
      have hOk : RunOk b stop p base vcn := by
        constructor
        · rw [hDecoded.lenBytes, hDecoded.lcnBytes]
          refine ⟨hLenWidth.1, hLenWidth.2, ?_⟩
          split
          · omega
          · next hSome => exact (hFits.lcnWidth hSome).2
        · rw [hDecoded.next]
          omega
        · rw [hDecoded.length]
          exact hFits.lenPos
        · rw [hDecoded.length]
          omega
        · intro hPlain
          rw [hDecoded.lcnBytes] at hPlain
          rw [hDecoded.delta, hDecoded.length]
          cases hLcn : c.lcn with
          | none => simp [hLcn] at hPlain
          | some lcn =>
              have hSmall := hFits.lcnSmall lcn hLcn
              have hMax : maxU32 = 2 ^ 32 - 1 := by decide
              rw [RunCode.after, hLcn, Option.getD_some]
              omega
      rw [codeRuns, ← hRun]
      refine .run ?_ hDecoded.header hOk ?_
      · omega
      · rw [hDecoded.delta, hDecoded.length, hDecoded.next]
        exact ih hLater hRest (by omega) (by omega)

end Decoding

--
-- Looking Clusters Up
--

/- Where cluster `x` of the stream lies when `r` has it. -/
def NtfsRun.place
    (r : NtfsRun)
    (x : Nat) : RunPlace where
  lcn := if r.sparse then 0 else r.lcn + (x - r.vcn)
  left := r.len - (x - r.vcn)
  sparse := r.sparse

/-
  A search in runs from `vcn` on, for some number of
  clusters: it finds the one run that has the cluster.
-/
structure LooksUp
    (vcn total : Nat)
    (runs : List NtfsRun)
    (x : Nat) : Prop where
  inside : vcn ≤ x → x < vcn + total →
    ∃ r ∈ runs, r.Covers x
  found : ∀ r ∈ runs, r.Covers x →
    runLookup runs x = some (r.place x)
  outside : x < vcn ∨ vcn + total ≤ x →
    runLookup runs x = none

section Lookup

variable {r : NtfsRun} {runs : List NtfsRun}

theorem runLookup_cons
    {x : Nat}
    (hFit : r.vcn + r.len ≤ maxU32) :
    runLookup (r :: runs) x =
      if r.vcn ≤ x ∧ x < r.vcn + r.len then
        some (r.place x)
      else runLookup runs x := by
  have hMax : maxU32 < 2 ^ 32 := by decide
  rw [runLookup, Nat.mod_eq_of_lt (by omega)]
  simp only [Bool.and_eq_true, decide_eq_true_eq, ge_iff_le]
  rfl

theorem covers_ge
    {vcn x : Nat}
    (hTiles : Tiles vcn runs)
    (hMem : r ∈ runs)
    (hCovers : r.Covers x) :
    vcn ≤ x := by
  induction hTiles with
  | nil => cases hMem
  | cons hLen hRest ih =>
      rcases List.mem_cons.mp hMem with rfl | hMem
      · exact hCovers.1
      · have hLater := ih hMem
        omega

theorem runLookup_tiles
    {vcn : Nat}
    (hTiles : Tiles vcn runs)
    (hFit : RunsFit runs)
    (x : Nat) :
    LooksUp vcn (runs.map NtfsRun.len).sum runs x := by
  induction hTiles with
  | nil =>
      constructor
      · intro hLow hHigh
        simp only [List.map_nil, List.sum_nil] at hHigh
        omega
      · nofun
      · exact fun _ => rfl
  | @cons r rest hLen hRest ih =>
      have hHead := hFit r List.mem_cons_self
      have hTail := ih (fun s hs =>
        hFit s (List.mem_cons_of_mem _ hs))
      rw [List.map_cons, List.sum_cons]
      constructor
      · intro hLow hHigh
        by_cases hHere : x < r.vcn + r.len
        · exact ⟨r, List.mem_cons_self, hLow, hHere⟩
        · rcases hTail.inside (by omega) (by omega) with
            ⟨s, hs, hCovers⟩
          exact ⟨s, List.mem_cons_of_mem _ hs, hCovers⟩
      · intro s hs hCovers
        rw [runLookup_cons hHead]
        rcases List.mem_cons.mp hs with rfl | hs
        · exact if_pos hCovers
        · have hGe := covers_ge hRest hs hCovers
          rw [if_neg (by omega)]
          exact hTail.found s hs hCovers
      · intro hOut
        rw [runLookup_cons hHead, if_neg (by omega)]
        exact hTail.outside (by omega)

variable {codes : List RunCode}

theorem codeRuns_tiles
    {base vcn : Nat}
    (hFit : CodesFit base codes) :
    Tiles vcn (codeRuns vcn codes) := by
  induction codes generalizing base vcn with
  | nil => exact .nil
  | cons c codes ih =>
      exact @Tiles.cons (c.run vcn) _ hFit.1.lenPos
        (ih hFit.2)

theorem codeRuns_fit
    {vcn : Nat}
    (hVcn : vcn + (codes.map RunCode.len).sum ≤ maxU32) :
    RunsFit (codeRuns vcn codes) := by
  induction codes generalizing vcn with
  | nil => nofun
  | cons c codes ih =>
      rw [List.map_cons, List.sum_cons] at hVcn
      intro r hr
      rcases List.mem_cons.mp hr with rfl | hr
      · change vcn + c.len ≤ maxU32
        omega
      · exact ih (by omega) r hr

theorem codeRuns_clusters
    (vcn : Nat)
    (codes : List RunCode) :
    ((codeRuns vcn codes).map NtfsRun.len).sum =
      (codes.map RunCode.len).sum := by
  induction codes generalizing vcn with
  | nil => rfl
  | cons c codes ih =>
      rw [codeRuns, List.map_cons, List.map_cons,
        List.sum_cons, List.sum_cons, ih]
      rfl

theorem length_codeRuns
    (vcn : Nat)
    (codes : List RunCode) :
    (codeRuns vcn codes).length = codes.length := by
  induction codes generalizing vcn with
  | nil => rfl
  | cons c codes ih =>
      rw [codeRuns, List.length_cons, List.length_cons, ih]

end Lookup

--
-- Exactness
--

/-
  `parse_runlist` decodes every encoding of runs that keep
  to their ranges, and then `run_lookup` finds just the
  clusters of these runs. Of any other bytes it accepts only
  such encodings, whatever lies outside of its bounds.
-/
theorem parseRunlist_exact
    (b : Buf)
    (p stop vcn max : Nat) :
    (∀ codes, CodesFit 0 codes → codes.length ≤ max →
      vcn + (codes.map RunCode.len).sum < 2 ^ 32 →
      HasBytes b p (encodeRuns 0 codes) →
      p + (encodeRuns 0 codes).length ≤ stop →
        parseRunlist b p stop vcn max =
            codeRuns vcn codes ∧
          ∀ x, LooksUp vcn (codes.map RunCode.len).sum
            (codeRuns vcn codes) x) ∧
    (parseRunlist b p stop vcn max ≠ [] →
      GoodRuns b stop p 0 vcn
          (parseRunlist b p stop vcn max) ∧
        (parseRunlist b p stop vcn max).length ≤ max) ∧
    (∀ fuel, stop - p ≤ fuel →
      (parseRuns b stop max fuel p 0 0 vcn).getD [] =
        parseRunlist b p stop vcn max) ∧
    ∀ b' : Buf, (∀ a, p ≤ a → a < stop → b' a = b a) →
      parseRunlist b' p stop vcn max =
        parseRunlist b p stop vcn max := by
  have hMax : maxU32 = 2 ^ 32 - 1 := by decide
  refine ⟨?_, ?_, ?_, ?_⟩
  · intro codes hFit hCount hVcn hBytes hStop
    have hGood : GoodRuns b stop p 0 vcn
        (codeRuns vcn codes) :=
      goodRuns_encoded hFit hBytes hStop (by omega)
    have hParse := (parseRuns_iff (Nat.le_refl (stop - p))
      (Nat.zero_le max) (by decide) _).mpr
        ⟨hGood, by rw [length_codeRuns]; omega⟩
    refine ⟨?_, fun x => ?_⟩
    · unfold parseRunlist
      rw [hParse]
      rfl
    · rw [← codeRuns_clusters vcn codes]
      exact runLookup_tiles (codeRuns_tiles hFit)
        (codeRuns_fit (by omega)) x
  · intro hSome
    unfold parseRunlist at hSome ⊢
    cases hParse : parseRuns b stop max (stop - p) p 0 0 vcn
      with
    | none =>
        rw [hParse] at hSome
        exact absurd rfl hSome
    | some runs =>
        rcases (parseRuns_iff (Nat.le_refl _)
          (Nat.zero_le max) (by decide) runs).mp hParse with
          ⟨hGood, hLength⟩
        rw [Option.getD_some]
        exact ⟨hGood, by omega⟩
  · intro fuel hFuel
    unfold parseRunlist
    rw [parseRuns_fuel hFuel]
  · intro b' hSame
    unfold parseRunlist
    rw [parseRuns_congr hSame]

/- Half of the clusters of the disk, from the middle on. -/
def upperHalf : RunCode where
  len := 2 ^ 31 + 1
  lcn := some (2 ^ 31 - 1)
  lenBytes := 4
  lcnBytes := 4

/-
  A run that starts below `2 ^ 31` is refused when its end
  has more than 32 bits.
-/
theorem upperHalf_refused :
    HasBytes (Buf.ofList (encodeRuns 0 [upperHalf])) 0
        (encodeRuns 0 [upperHalf]) ∧
      0 < upperHalf.len ∧
      upperHalf.len < 256 ^ upperHalf.lenBytes ∧
      (2 * (2 ^ 31 - 1) < 256 ^ upperHalf.lcnBytes ∧
        upperHalf.lcn = some (2 ^ 31 - 1)) ∧
      parseRunlist (Buf.ofList (encodeRuns 0 [upperHalf]))
        0 (encodeRuns 0 [upperHalf]).length 0 ntfsMaxRuns =
          [] ∧
      codeRuns 0 [upperHalf] ≠ [] := by
  refine ⟨?_, by decide, by decide, ⟨by decide, rfl⟩, ?_,
    by simp [codeRuns]⟩
  · exact hasBytes_ofList [] _
  · decide

end KvantOS.Ntfs
