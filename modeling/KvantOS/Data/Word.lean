import Mathlib.Data.Nat.Bitwise

/-
  This file collects facts about unsigned machine words,
  held as natural numbers: differences that wrap around and
  rounding by masks.

  Key definitions include:
    * `Word.sub`

  Key theorems include:
    * `Word.sub_of_le`, `Word.and_high`
-/

namespace KvantOS.Word

/- `a - b` in words of `w` bits. -/
def sub (w a b : Nat) : Nat :=
  (a + 2 ^ w - b % 2 ^ w) % 2 ^ w

variable {w k a b x : Nat}

theorem sub_of_le
    (hLe : b ≤ a)
    (hBound : a < 2 ^ w) :
    sub w a b = a - b := by
  unfold sub
  have hSum : a + 2 ^ w - b = a - b + 2 ^ w := by omega
  rw [Nat.mod_eq_of_lt (Nat.lt_of_le_of_lt hLe hBound), hSum,
    Nat.add_mod_right, Nat.mod_eq_of_lt (by omega)]

/- Clearing the low bits rounds down. -/
theorem and_high
    (hBound : x < 2 ^ w)
    (hk : k ≤ w) :
    x &&& (2 ^ w - 2 ^ k) = x / 2 ^ k * 2 ^ k := by
  have hMask : 2 ^ w - 2 ^ k = (2 ^ (w - k) - 1) <<< k := by
    rw [Nat.shiftLeft_eq, Nat.sub_mul, ← Nat.pow_add,
      Nat.sub_add_cancel hk, Nat.one_mul]
  rw [hMask, ← Nat.shiftRight_eq_div_pow, ← Nat.shiftLeft_eq]
  apply Nat.eq_of_testBit_eq
  intro i
  rw [Nat.testBit_and, Nat.testBit_shiftLeft,
    Nat.testBit_shiftLeft, Nat.testBit_two_pow_sub_one,
    Nat.testBit_shiftRight]
  by_cases hLow : k ≤ i
  · rw [Nat.add_sub_cancel' hLow]
    by_cases hHigh : i < w
    · have hIn : i - k < w - k := by omega
      simp [hLow, hIn]
    · have hZero : x.testBit i = false :=
        Nat.testBit_lt_two_pow (Nat.lt_of_lt_of_le hBound
          (Nat.pow_le_pow_right (by omega) (by omega)))
      simp [hZero]
  · simp [hLow]

end KvantOS.Word
