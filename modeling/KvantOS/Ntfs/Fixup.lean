import KvantOS.Ntfs.Volume

/-
  This file proves that `apply_fixup` undoes the protection
  of a block: the last two bytes of every stride come back
  from the array, a torn block or a bad array is refused,
  and nothing outside the block is read or written.

  Key definitions include:
    * `applyFixupIn`, `UsaFits`, `protect`

  Key theorems include:
    * `applyFixup_eq`, `fixupLoop_iff`, `fixupLoop_byte`
    * `applyFixup_exact`
-/

namespace KvantOS.Ntfs

/-
  The loop of `apply_fixup`, with the block as it is left
  also when the loop gives up.
-/
def fixupLoop
    (usaOff marker size : Nat) :
    (remaining i : Nat) → Buf → Bool × Buf
  | 0, _, b => (true, b)
  | remaining + 1, i, b =>
      let tail := i * 512 - 2
      if tail + 2 > size then
        (false, b)
      else if b.get16 tail != marker then
        (false, b)
      else
        fixupLoop usaOff marker size remaining (i + 1)
          (b.copy tail (b.drop (usaOff + i * 2)) 2)

/- `apply_fixup`: what it returns, and the block after. -/
def applyFixupIn
    (b : Buf)
    (size : Nat) : Bool × Buf :=
  let usaOff := b.get16 0x04
  let usaCount := b.get16 0x06
  if size % 512 != 0 || usaCount == 0 || usaOff < 8 ||
      usaOff > size || usaCount > (size - usaOff) / 2 then
    (false, b)
  else if usaOff > 510 || usaCount > (510 - usaOff) / 2 ||
      usaCount != size / 512 + 1 then
    (false, b)
  else
    fixupLoop usaOff (b.get16 usaOff) size (usaCount - 1) 1 b

/- The block of a call that returned 1. -/
def accepted (out : Bool × Buf) : Option Buf :=
  if out.1 then some out.2 else none

theorem fixupFrom_eq
    (usaOff marker size : Nat)
    (remaining i : Nat)
    (b : Buf) :
    fixupFrom usaOff marker size remaining i b =
      accepted
        (fixupLoop usaOff marker size remaining i b) := by
  induction remaining generalizing i b with
  | zero => rfl
  | succ remaining ih =>
      unfold fixupFrom fixupLoop
      dsimp only
      split
      · rfl
      · split
        · rfl
        · exact ih _ _

/- The reads of records see the blocks that are accepted. -/
theorem applyFixup_eq
    (b : Buf)
    (size : Nat) :
    applyFixup b size = accepted (applyFixupIn b size) := by
  unfold applyFixup applyFixupIn
  dsimp only
  split
  · rfl
  · split
    · rfl
    · exact fixupFrom_eq ..

--
-- The Loop
--

/- The byte at `a` is one of the last two of stride `k`. -/
def InTail (k a : Nat) : Prop :=
  (a + 2) % 512 < 2 ∧ (a + 2) / 512 = k

instance (k a : Nat) : Decidable (InTail k a) := by
  unfold InTail
  infer_instance

theorem inTail_iff
    {k a : Nat}
    (hK : 1 ≤ k) :
    InTail k a ↔ k * 512 - 2 ≤ a ∧ a < k * 512 := by
  unfold InTail
  omega

section Loop

variable {usaOff marker size : Nat}

/- A stride is checked as it was found. -/
theorem get16_copyTail
    {b src : Buf}
    {i k : Nat}
    (hI : 1 ≤ i)
    (hK : 1 ≤ k)
    (hNe : k ≠ i) :
    (b.copy (i * 512 - 2) src 2).get16 (k * 512 - 2) =
      b.get16 (k * 512 - 2) := by
  apply Buf.get16_congr
  intro j hj
  apply Buf.copy_outside
  omega

/- The array is not in a tail. -/
theorem copyTail_array
    {b src : Buf}
    {i a : Nat}
    (hI : 1 ≤ i)
    (hA : a < 510) :
    (b.copy (i * 512 - 2) src 2) a = b a :=
  Buf.copy_outside (by omega)

/-
  The loop goes through when every stride still ends in the
  marker.
-/
theorem fixupLoop_iff
    (remaining i : Nat)
    (b : Buf)
    (hI : 1 ≤ i)
    (hSize : ∀ k, k < i + remaining → k * 512 ≤ size) :
    (fixupLoop usaOff marker size remaining i b).1 = true ↔
      ∀ k, i ≤ k → k < i + remaining →
        b.get16 (k * 512 - 2) = marker := by
  induction remaining generalizing i b with
  | zero =>
      refine ⟨fun _ k hLow hHigh => ?_, fun _ => rfl⟩
      omega
  | succ remaining ih =>
      have hHere := hSize i (by omega)
      unfold fixupLoop
      dsimp only
      rw [if_neg (by omega)]
      split
      · next hTorn =>
          refine ⟨nofun, fun hAll => ?_⟩
          rw [bne_iff_ne, ne_eq] at hTorn
          exact absurd (hAll i (Nat.le_refl _) (by omega))
            hTorn
      · next hWhole =>
          rw [bne_iff_ne, ne_eq, not_not] at hWhole
          refine (ih (i + 1) _ (Nat.le_add_left 1 i)
            (fun k hk => hSize k (by omega))).trans ?_
          constructor
          · intro hRest k hLow hHigh
            by_cases hEq : k = i
            · rw [hEq]
              exact hWhole
            · rw [← hRest k (by omega) (by omega),
                get16_copyTail hI (by omega) hEq]
          · intro hAll k hLow hHigh
            rw [get16_copyTail hI (by omega) (by omega)]
            exact hAll k (by omega) (by omega)

/- A byte that is in no tail stays. -/
theorem fixupLoop_outside
    (remaining i : Nat)
    (b : Buf)
    {a : Nat}
    (hI : 1 ≤ i)
    (hOut : ∀ k, i ≤ k → k < i + remaining →
      ¬ InTail k a) :
    (fixupLoop usaOff marker size remaining i b).2 a =
      b a := by
  induction remaining generalizing i b with
  | zero => rfl
  | succ remaining ih =>
      unfold fixupLoop
      dsimp only
      split
      · rfl
      · split
        · rfl
        · rw [ih (i + 1) _ (by omega)
            (fun k hLow hHigh =>
              hOut k (by omega) (by omega))]
          have hHere := hOut i (Nat.le_refl _) (by omega)
          rw [inTail_iff hI] at hHere
          exact Buf.copy_outside (by omega)

/- A tail gets the two bytes that the array has for it. -/
theorem fixupLoop_byte
    (remaining i : Nat)
    (b : Buf)
    {k a : Nat}
    (hI : 1 ≤ i)
    (hUsa : usaOff + 2 * (i + remaining) ≤ 510)
    (hLow : i ≤ k)
    (hHigh : k < i + remaining)
    (hTail : InTail k a)
    (hDone : (fixupLoop usaOff marker size remaining i
      b).1 = true) :
    (fixupLoop usaOff marker size remaining i b).2 a =
      b (usaOff + k * 2 + (a - (k * 512 - 2))) := by
  have hBounds := (inTail_iff (by omega)).mp hTail
  induction remaining generalizing i b with
  | zero => omega
  | succ remaining ih =>
      unfold fixupLoop at hDone ⊢
      dsimp only at hDone ⊢
      split at hDone
      · cases hDone
      · next hIn =>
          rw [if_neg hIn]
          split at hDone
          · cases hDone
          · next hWhole =>
              rw [if_neg hWhole]
              by_cases hEq : k = i
              · subst hEq
                rw [fixupLoop_outside _ _ _ (by omega)
                  (fun k' hLow' _ hTail' => by
                    unfold InTail at hTail hTail'
                    omega),
                  Buf.copy_inside (by omega) (by omega)]
                rfl
              · rw [ih (i + 1) _ (by omega) (by omega)
                  (by omega) (by omega) hDone,
                  copyTail_array hI (by omega)]

/- The loop depends on the bytes of the block only. -/
theorem fixupLoop_congr
    (remaining i : Nat)
    {b b' : Buf}
    (hI : 1 ≤ i)
    (hUsa : usaOff + 2 * (i + remaining) ≤ size)
    (hSame : ∀ a, a < size → b' a = b a) :
    (fixupLoop usaOff marker size remaining i b').1 =
        (fixupLoop usaOff marker size remaining i b).1 ∧
      ∀ a, a < size →
        (fixupLoop usaOff marker size remaining i b').2 a =
          (fixupLoop usaOff marker size remaining i b).2 a :=
  by
  induction remaining generalizing i b b' with
  | zero => exact ⟨rfl, hSame⟩
  | succ remaining ih =>
      unfold fixupLoop
      dsimp only
      split
      · exact ⟨rfl, hSame⟩
      · next hIn =>
          have hTail : b'.get16 (i * 512 - 2) =
              b.get16 (i * 512 - 2) :=
            Buf.get16_congr (fun j hj => hSame _ (by omega))
          rw [hTail]
          split
          · exact ⟨rfl, hSame⟩
          · apply ih (i + 1) (by omega) (by omega)
            intro a ha
            by_cases hHere : i * 512 - 2 ≤ a ∧
                a < i * 512 - 2 + 2
            · rw [Buf.copy_inside hHere.1 hHere.2,
                Buf.copy_inside hHere.1 hHere.2]
              exact hSame _ (by omega)
            · rw [Buf.copy_outside (by omega),
                Buf.copy_outside (by omega)]
              exact hSame a ha

end Loop

--
-- Protected Blocks
--

/- An array at this offset ends before the first tail. -/
def UsaFits (size usaOff : Nat) : Prop :=
  8 ≤ usaOff ∧ usaOff + 2 * (size / 512 + 1) ≤ 510

/- The byte belongs to the array. -/
def InUsa (size usaOff a : Nat) : Prop :=
  usaOff ≤ a ∧ a < usaOff + 2 * (size / 512 + 1)

instance (size usaOff a : Nat) :
    Decidable (InUsa size usaOff a) := by
  unfold InUsa
  infer_instance

/-
  The protected form of a block: the array holds the marker,
  which is the first two bytes of `mark`, and behind it the
  tails of the strides; every tail holds the marker.
-/
def protect
    (size usaOff : Nat)
    (mark b : Buf) : Buf :=
  fun a =>
    if InUsa size usaOff a then
      let k := (a - usaOff) / 2
      let j := (a - usaOff) % 2
      if k = 0 then mark j else b (k * 512 - 2 + j)
    else if a < size ∧ 510 ≤ a % 512 then
      mark (a % 512 - 510)
    else
      b a

section Exact

variable {size : Nat}

/- When a call goes through: nothing is torn or misplaced. -/
theorem applyFixupIn_iff
    (hSize : size % 512 = 0)
    (hPos : 0 < size)
    (b : Buf) :
    (applyFixupIn b size).1 = true ↔
      UsaFits size (b.get16 4) ∧
        b.get16 6 = size / 512 + 1 ∧
        ∀ k, 1 ≤ k → k ≤ size / 512 →
          b.get16 (k * 512 - 2) =
            b.get16 (b.get16 4) := by
  unfold applyFixupIn UsaFits
  dsimp only
  generalize b.get16 4 = usaOff
  generalize b.get16 6 = usaCount
  by_cases hGood : (8 ≤ usaOff ∧
      usaOff + 2 * (size / 512 + 1) ≤ 510) ∧
      usaCount = size / 512 + 1
  · rw [if_neg (by simp; omega), if_neg (by simp; omega),
      fixupLoop_iff _ _ _ (Nat.le_refl 1)
        (fun k hk => by omega)]
    constructor
    · intro hAll
      refine ⟨hGood.1, hGood.2, fun k hLow hHigh => ?_⟩
      exact hAll k hLow (by omega)
    · rintro ⟨-, -, hAll⟩ k hLow hHigh
      exact hAll k hLow (by omega)
  · have hFalse : ∀ out : Bool × Buf,
        out.1 = false → (out.1 = true ↔
          (8 ≤ usaOff ∧
            usaOff + 2 * (size / 512 + 1) ≤ 510) ∧
          usaCount = size / 512 + 1 ∧
          ∀ k, 1 ≤ k → k ≤ size / 512 →
            b.get16 (k * 512 - 2) = b.get16 usaOff) := by
      intro out hOut
      rw [hOut]
      refine ⟨nofun, ?_⟩
      rintro ⟨hFits, hCount, -⟩
      exact absurd ⟨hFits, hCount⟩ hGood
    split
    · exact hFalse _ rfl
    · next hFirst =>
        rw [if_pos]
        · exact hFalse _ rfl
        · simp only [Bool.or_eq_true, bne_iff_ne, ne_eq,
            beq_iff_eq, decide_eq_true_eq, not_or] at hFirst
          simp only [Bool.or_eq_true, bne_iff_ne, ne_eq,
            decide_eq_true_eq]
          omega

/- Nothing outside the block is written. -/
theorem applyFixupIn_outside
    (b : Buf)
    {a : Nat}
    (hA : size ≤ a) :
    (applyFixupIn b size).2 a = b a := by
  unfold applyFixupIn
  dsimp only
  split
  · rfl
  · split
    · rfl
    · next hSecond =>
        simp only [Bool.or_eq_true, bne_iff_ne, ne_eq,
          decide_eq_true_eq, not_or, not_not] at hSecond
        apply fixupLoop_outside _ _ _ (Nat.le_refl 1)
        intro k hLow hHigh hTail
        rw [inTail_iff hLow] at hTail
        omega

/- Nothing outside the block is read. -/
theorem applyFixupIn_congr
    (hPos : 8 ≤ size)
    {b b' : Buf}
    (hSame : ∀ a, a < size → b' a = b a) :
    (applyFixupIn b' size).1 = (applyFixupIn b size).1 ∧
      ∀ a, a < size →
        (applyFixupIn b' size).2 a =
          (applyFixupIn b size).2 a := by
  have hField : ∀ off, off + 2 ≤ size →
      b'.get16 off = b.get16 off := by
    intro off hOff
    exact Buf.get16_congr (fun i hi => hSame _ (by omega))
  unfold applyFixupIn
  dsimp only
  rw [hField 4 (by omega), hField 6 (by omega)]
  split
  · exact ⟨rfl, hSame⟩
  · next hFirst =>
      simp only [Bool.or_eq_true, bne_iff_ne, ne_eq,
        beq_iff_eq, decide_eq_true_eq, not_or, not_not]
        at hFirst
      split
      · exact ⟨rfl, hSame⟩
      · rw [hField (b.get16 4) (by omega)]
        apply fixupLoop_congr _ _ (Nat.le_refl 1) _ hSame
        omega

section Protected

variable {usaOff : Nat} {mark b : Buf}

theorem protect_header
    (hFits : UsaFits size usaOff)
    {a : Nat}
    (hA : a < 8) :
    protect size usaOff mark b a = b a := by
  have hLow := hFits.1
  unfold protect
  rw [if_neg (by unfold InUsa; omega), if_neg (by omega)]

theorem protect_marker :
    (protect size usaOff mark b).get16 usaOff =
      mark.get16 0 := by
  apply Buf.get16_congr
  intro i hi
  unfold protect
  rw [if_pos (by unfold InUsa; omega)]
  dsimp only
  rw [Nat.add_sub_cancel_left, Nat.div_eq_of_lt hi,
    Nat.mod_eq_of_lt hi, Nat.zero_add]
  rfl

/- Every stride of a protected block ends in the marker. -/
theorem protect_tail
    (hFits : UsaFits size usaOff)
    {k : Nat}
    (hLow : 1 ≤ k)
    (hHigh : k * 512 ≤ size) :
    (protect size usaOff mark b).get16 (k * 512 - 2) =
      mark.get16 0 := by
  have hEnd := hFits.2
  apply Buf.get16_congr
  intro i hi
  unfold protect
  rw [if_neg (by unfold InUsa; omega), if_pos (by omega)]
  have hIndex : (k * 512 - 2 + i) % 512 - 510 = 0 + i := by
    omega
  rw [hIndex]

theorem protect_saved
    {k j : Nat}
    (hLow : 1 ≤ k)
    (hHigh : k ≤ size / 512)
    (hJ : j < 2) :
    protect size usaOff mark b (usaOff + k * 2 + j) =
      b (k * 512 - 2 + j) := by
  unfold protect
  rw [if_pos (by unfold InUsa; omega)]
  have hSub : usaOff + k * 2 + j - usaOff = k * 2 + j := by
    omega
  have hDiv : (k * 2 + j) / 2 = k := by omega
  have hMod : (k * 2 + j) % 2 = j := by omega
  dsimp only
  rw [hSub, hDiv, hMod, if_neg (by omega)]

end Protected

/-
  The fixup of a protected block gives back the original, up
  to the array; it goes through only for a whole block with
  an array in its place; and it keeps to the block.
-/
theorem applyFixup_exact
    (hSize : size % 512 = 0)
    (hPos : 0 < size) :
    (∀ usaOff mark b, UsaFits size usaOff →
      b.get16 4 = usaOff → b.get16 6 = size / 512 + 1 →
        (applyFixupIn (protect size usaOff mark b)
          size).1 = true ∧
        ∀ a, ¬ InUsa size usaOff a →
          (applyFixupIn (protect size usaOff mark b)
            size).2 a = b a) ∧
    (∀ b, (applyFixupIn b size).1 = true ↔
      UsaFits size (b.get16 4) ∧
        b.get16 6 = size / 512 + 1 ∧
        ∀ k, 1 ≤ k → k ≤ size / 512 →
          b.get16 (k * 512 - 2) =
            b.get16 (b.get16 4)) ∧
    (∀ b a, size ≤ a → (applyFixupIn b size).2 a = b a) ∧
    ∀ b b' : Buf, (∀ a, a < size → b' a = b a) →
      (applyFixupIn b' size).1 = (applyFixupIn b size).1 ∧
        ∀ a, a < size →
          (applyFixupIn b' size).2 a =
            (applyFixupIn b size).2 a := by
  refine ⟨?_, applyFixupIn_iff hSize hPos,
    fun b a => applyFixupIn_outside b,
    fun b b' hSame => applyFixupIn_congr (by omega) hSame⟩
  intro usaOff mark b hFits hOff hCount
  have hOff' : (protect size usaOff mark b).get16 4 =
      usaOff := by
    rw [← hOff]
    exact Buf.get16_congr (fun i hi =>
      protect_header (by rwa [hOff]) (by omega))
  have hCount' : (protect size usaOff mark b).get16 6 =
      size / 512 + 1 := by
    rw [← hCount]
    exact Buf.get16_congr (fun i hi =>
      protect_header hFits (by omega))
  have hDone : (applyFixupIn (protect size usaOff mark b)
      size).1 = true := by
    rw [applyFixupIn_iff hSize hPos, hOff',
      protect_marker]
    refine ⟨hFits, hCount', fun k hLow hHigh => ?_⟩
    exact protect_tail hFits hLow (by omega)
  refine ⟨hDone, fun a hA => ?_⟩
  have hLow := hFits.1
  have hUsa := hFits.2
  unfold applyFixupIn at hDone ⊢
  dsimp only at hDone ⊢
  rw [hOff', hCount'] at hDone ⊢
  rw [if_neg (by simp; omega), if_neg (by simp; omega)]
    at hDone ⊢
  by_cases hTail : a < size ∧ (a + 2) % 512 < 2
  · have hIn : InTail ((a + 2) / 512) a := ⟨hTail.2, rfl⟩
    have hBounds := (inTail_iff (by omega)).mp hIn
    rw [fixupLoop_byte _ _ _ (Nat.le_refl 1) (by omega)
      (by omega) (by omega) hIn hDone,
      protect_saved (by omega) (by omega) (by omega)]
    congr 1
    omega
  · rw [fixupLoop_outside _ _ _ (Nat.le_refl 1)]
    · unfold protect
      rw [if_neg hA, if_neg (by omega)]
    · intro k hLow hHigh hIn
      rw [inTail_iff hLow] at hIn
      omega

/- A block of one stride. -/
theorem applyFixup_exact_stride :
    (applyFixupIn Buf.zero 512).1 = true ↔
      UsaFits 512 (Buf.zero.get16 4) ∧
        Buf.zero.get16 6 = 512 / 512 + 1 ∧
        ∀ k, 1 ≤ k → k ≤ 512 / 512 →
          Buf.zero.get16 (k * 512 - 2) =
            Buf.zero.get16 (Buf.zero.get16 4) :=
  (@applyFixup_exact 512 (by decide)
    (by decide)).2.1 Buf.zero

end Exact

end KvantOS.Ntfs
