import Mathlib.Data.Nat.Bitwise
import Mathlib.Data.List.Range
import Mathlib.Logic.Function.Basic

/-
  This file studies bitmaps kept in 32-bit words: testing,
  setting and clearing a bit, and counting the set bits.

  Key definitions include:
    * `Bitmap`
    * `Bitmap.test`, `Bitmap.set`, `Bitmap.clear`
    * `Bitmap.count`

  Key theorems include:
    * `Bitmap.test_set`, `Bitmap.test_clear`
    * `Bitmap.count_set`, `Bitmap.count_clear`
-/

--
-- Bitmaps
--

/- The words of a bitmap, by their index. -/
abbrev Bitmap :=
  Nat → Nat

namespace Bitmap

/- All ones. -/
def full : Bitmap :=
  fun _ => 0xFFFFFFFF

/- The bit of an index is set. -/
def test
    (b : Bitmap)
    (i : Nat) : Bool :=
  b (i >>> 5) >>> (i &&& 31) &&& 1 == 1

def set
    (b : Bitmap)
    (i : Nat) : Bitmap :=
  Function.update b (i >>> 5)
    (b (i >>> 5) ||| 1 <<< (i &&& 31))

def clear
    (b : Bitmap)
    (i : Nat) : Bitmap :=
  Function.update b (i >>> 5)
    (b (i >>> 5) &&& (0xFFFFFFFF ^^^ 1 <<< (i &&& 31)))

variable {b : Bitmap} {i j n : Nat}

theorem test_eq
    (b : Bitmap)
    (i : Nat) :
    test b i = (b (i / 32)).testBit (i % 32) := by
  have hLow : i &&& 31 = i % 2 ^ 5 :=
    Nat.and_two_pow_sub_one_eq_mod i 5
  unfold test
  rw [hLow, Nat.shiftRight_eq_div_pow i 5, Nat.testBit,
    Nat.and_comm 1, Nat.and_one_is_mod]
  simp

theorem test_full : test full i = true := by
  have hOnes : (0xFFFFFFFF : Nat) = 2 ^ 32 - 1 := rfl
  rw [test_eq]
  unfold full
  rw [hOnes, Nat.testBit_two_pow_sub_one]
  exact decide_eq_true (Nat.mod_lt _ (by decide))

/- Two bits have one place only if they are one bit. -/
theorem place_eq
    (hWord : i / 32 = j / 32)
    (hBit : i % 32 = j % 32) :
    i = j := by
  omega

theorem test_set :
    test (set b i) j = (test b j || decide (i = j)) := by
  have hLow : i &&& 31 = i % 2 ^ 5 :=
    Nat.and_two_pow_sub_one_eq_mod i 5
  rw [test_eq, test_eq]
  unfold set
  rw [hLow, Nat.shiftRight_eq_div_pow i 5]
  by_cases hWord : i / 2 ^ 5 = j / 32
  · rw [hWord, Function.update_self, Nat.testBit_or,
      Nat.one_shiftLeft, Nat.testBit_two_pow]
    congr 1
    simp only [decide_eq_decide]
    constructor
    · exact fun hBit => place_eq hWord hBit
    · rintro rfl
      rfl
  · have hNe : i ≠ j := by
      rintro rfl
      exact hWord rfl
    rw [Function.update_of_ne (Ne.symm hWord)]
    simp [hNe]

theorem test_clear :
    test (clear b i) j = (test b j && !decide (i = j)) := by
  have hLow : i &&& 31 = i % 2 ^ 5 :=
    Nat.and_two_pow_sub_one_eq_mod i 5
  have hOnes : (0xFFFFFFFF : Nat) = 2 ^ 32 - 1 := rfl
  rw [test_eq, test_eq]
  unfold clear
  rw [hLow, Nat.shiftRight_eq_div_pow i 5]
  by_cases hWord : i / 2 ^ 5 = j / 32
  · have hSmall : j % 32 < 32 := Nat.mod_lt _ (by decide)
    rw [hWord, Function.update_self, Nat.testBit_and,
      Nat.testBit_xor, Nat.one_shiftLeft, hOnes,
      Nat.testBit_two_pow_sub_one, Nat.testBit_two_pow,
      decide_eq_true hSmall, Bool.true_xor]
    congr 2
    simp only [decide_eq_decide]
    constructor
    · exact fun hBit => place_eq hWord hBit
    · rintro rfl
      rfl
  · have hNe : i ≠ j := by
      rintro rfl
      exact hWord rfl
    rw [Function.update_of_ne (Ne.symm hWord)]
    simp [hNe]

--
-- Counting
--

/- The set bits below `n`. -/
def count
    (b : Bitmap)
    (n : Nat) : Nat :=
  (List.range n).countP (test b)

theorem count_succ
    (b : Bitmap)
    (n : Nat) :
    count b (n + 1) =
      count b n + if test b n then 1 else 0 := by
  unfold count
  rw [List.range_succ, List.countP_append,
    List.countP_singleton]

theorem count_le
    (b : Bitmap)
    (n : Nat) :
    count b n ≤ n := by
  have hLength := List.countP_le_length
    (l := List.range n) (p := test b)
  rwa [List.length_range] at hLength

theorem count_full : count full n = n := by
  induction n with
  | zero => rfl
  | succ n ih => rw [count_succ, ih, test_full, if_pos rfl]

/- Bits at and above `n` do not count. -/
theorem count_set
    (hClear : test b i = false) :
    count (set b i) n =
      count b n + if i < n then 1 else 0 := by
  induction n with
  | zero => rfl
  | succ n ih =>
      rw [count_succ, count_succ, ih, test_set]
      by_cases hHere : i = n
      · subst hHere
        simp [hClear]
      · have hStep : i < n + 1 ↔ i < n := by omega
        simp only [hHere, decide_false, Bool.or_false, hStep]
        omega

theorem count_clear
    (hSet : test b i = true)
    (hi : i < n) :
    count (clear b i) n + 1 = count b n := by
  have hBack : count (set (clear b i) i) n =
      count (clear b i) n + if i < n then 1 else 0 := by
    apply count_set
    simp [test_clear]
  have hSame : ∀ m, count (set (clear b i) i) m =
      count b m := by
    intro m
    unfold count
    apply List.countP_congr
    intro j _
    rw [test_set, test_clear]
    by_cases hHere : i = j
    · subst hHere
      simp [hSet]
    · simp [hHere]
  rw [← hSame n, hBack, if_pos hi]

end Bitmap
