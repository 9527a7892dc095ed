import KvantOS.Printf.Model
import Mathlib.Data.Nat.Digits.Lemmas

/-
  This file compares the numbers that `kvprintf` prints with
  those of the C standard: sign, digits and padding.

  Key definitions include:
    * `cNumber`, `numberText`

  Key theorems include:
    * `outNum_eq`
-/

namespace KvantOS.Printf

--
-- Numbers in C
--

/- The digits of a number, the most significant one first. -/
def numeral
    (upper : Bool)
    (base n : Nat) : List UInt8 :=
  if n = 0 then [ch '0']
  else (Nat.digits base n).reverse.map
    (fun d => (digits upper).getD d 0)

/- The value of an argument, with or without a sign. -/
def valueOf
    (isSigned : Bool)
    (v : UInt32) : Int :=
  if isSigned then Int.bmod v.toNat (2 ^ 32) else v.toNat

def signOf (n : Int) : List UInt8 :=
  if n < 0 then [ch '-'] else []

/- A number without its padding. -/
def plainNumber
    (upper : Bool)
    (base : Nat)
    (n : Int) : List UInt8 :=
  signOf n ++ numeral upper base n.natAbs

/-
  A number as the C standard prints it: zeros stand between
  the sign and the digits, blanks before both.
-/
def cNumber
    (upper : Bool)
    (base : Nat)
    (n : Int)
    (width : Nat)
    (zero : Bool) : List UInt8 :=
  let fill := width - (plainNumber upper base n).length
  if zero then
    signOf n ++ List.replicate fill (ch '0') ++
      numeral upper base n.natAbs
  else
    List.replicate fill (ch ' ') ++ plainNumber upper base n

/- A number as `out_num` prints it. -/
def numberText
    (upper : Bool)
    (base : Nat)
    (n : Int)
    (width : Int)
    (zero : Bool) : List UInt8 :=
  List.replicate
      (width - (plainNumber upper base n).length).toNat
      (if zero then ch '0' else ch ' ') ++
    plainNumber upper base n

theorem numeral_ne_nil
    (upper : Bool)
    (base n : Nat) :
    numeral upper base n ≠ [] := by
  unfold numeral
  split
  · exact List.cons_ne_nil _ _
  · rename_i hSome
    intro hNil
    rw [List.map_eq_nil_iff, List.reverse_eq_nil_iff] at hNil
    exact hSome (Nat.digits_eq_nil_iff_eq_zero.mp hNil)

/- Base 2 needs the most digits. -/
theorem numeral_length
    {upper : Bool}
    {base n : Nat}
    (hBase : 2 ≤ base)
    (hBound : n < 2 ^ 32) :
    (numeral upper base n).length ≤ 32 := by
  unfold numeral
  split
  · decide
  · rw [List.length_map, List.length_reverse,
      Nat.digits_length_le_iff hBase]
    exact Nat.lt_of_lt_of_le hBound
      (Nat.pow_le_pow_left hBase 32)

theorem plainNumber_length
    {upper : Bool}
    {base : Nat}
    {n : Int}
    (hBase : 2 ≤ base)
    (hBound : n.natAbs < 2 ^ 32) :
    (plainNumber upper base n).length ≤ 33 := by
  have hDigits := @numeral_length upper _ _ hBase hBound
  unfold plainNumber signOf
  rw [List.length_append]
  split
  · rw [List.length_singleton]
    omega
  · rw [List.length_nil]
    omega

theorem valueOf_bound
    (isSigned : Bool)
    (v : UInt32) :
    (valueOf isSigned v).natAbs < 2 ^ 32 := by
  have hLt := v.toNat_lt
  unfold valueOf
  split
  · rw [Int.bmod_def]
    split <;> omega
  · omega

--
-- The Buffer
--

variable {tmp : List UInt8}

theorem pushTmp_ok
    {c : UInt8}
    (hRoom : tmp.length < 36) :
    pushTmp tmp c = .ok (tmp ++ [c]) :=
  if_pos hRoom

/- The loop pushes the digits, the last one first. -/
theorem pushDigits_eq
    {base turns v : Nat}
    {upper : Bool}
    (hBase : 2 ≤ base)
    (hTurns : (Nat.digits base v).length ≤ turns)
    (hRoom : tmp.length + (Nat.digits base v).length ≤ 36) :
    pushDigits base upper turns v tmp =
      .ok (tmp ++ (Nat.digits base v).map
        (fun d => (digits upper).getD d 0)) := by
  induction turns generalizing v tmp with
  | zero =>
      rw [List.length_eq_zero_iff.mp (Nat.le_zero.mp hTurns),
        List.map_nil, List.append_nil]
      rfl
  | succ turns ih =>
      rw [pushDigits]
      by_cases hZero : v = 0
      · rw [if_pos hZero, hZero, Nat.digits_zero,
          List.map_nil, List.append_nil]
      · have hSplit := Nat.digits_def' hBase
          (Nat.pos_of_ne_zero hZero)
        rw [hSplit, List.length_cons] at hTurns hRoom
        rw [if_neg hZero, pushTmp_ok (by omega)]
        show pushDigits base upper turns (v / base) _ = _
        rw [ih (by omega) (by
          rw [List.length_append, List.length_singleton]
          omega), hSplit, List.map_cons, List.append_assoc]
        rfl

/- Padding stays within `tmp` or fails. -/
theorem pushPad_eq
    (c : UInt8)
    (n : Nat)
    (hRoom : tmp.length ≤ 36) :
    pushPad c n tmp =
      if tmp.length + n ≤ 36 then
        .ok (tmp ++ List.replicate n c)
      else .error .overrun := by
  induction n generalizing tmp with
  | zero =>
      rw [if_pos (by omega), List.replicate_zero,
        List.append_nil]
      rfl
  | succ n ih =>
      rw [pushPad]
      by_cases hMore : tmp.length < 36
      · rw [pushTmp_ok hMore]
        show pushPad c n (tmp ++ [c]) = _
        rw [ih (by
          rw [List.length_append, List.length_singleton]
          omega), List.length_append, List.length_singleton,
          List.append_assoc, List.replicate_succ]
        split
        · rw [if_pos (by omega)]
          rfl
        · rw [if_neg (by omega)]
      · unfold pushTmp
        rw [if_neg hMore, if_neg (by omega)]
        rfl

--
-- What A Number Prints As
--

section Sinks

variable {σ : Type} {emit : UInt8 → σ → Except Fault σ}

theorem valueOf_neg
    (isSigned : Bool)
    (v : UInt32) :
    (isSigned && decide (0x80000000 ≤ v)) = true ↔
      valueOf isSigned v < 0 := by
  have hLt := v.toNat_lt
  rw [Bool.and_eq_true, decide_eq_true_eq, UInt32.le_iff_toNat_le]
  unfold valueOf
  cases isSigned with
  | false =>
      rw [if_neg (by decide)]
      constructor
      · rintro ⟨hFalse, -⟩
        cases hFalse
      · omega
  | true =>
      rw [if_pos rfl, Int.bmod_def]
      constructor
      · rintro ⟨-, hHigh⟩
        change 2147483648 ≤ v.toNat at hHigh
        split <;> omega
      · intro hNeg
        refine ⟨rfl, ?_⟩
        change 2147483648 ≤ v.toNat
        split at hNeg <;> omega

/- Negation leaves the absolute value. -/
theorem valueOf_natAbs
    (isSigned : Bool)
    (v : UInt32) :
    (if (isSigned && decide (0x80000000 ≤ v)) = true then
      0 - v else v).toNat = (valueOf isSigned v).natAbs := by
  have hLt := v.toNat_lt
  have hNeg := valueOf_neg isSigned v
  by_cases hSign : valueOf isSigned v < 0
  · rw [if_pos (hNeg.mpr hSign)]
    rw [UInt32.toNat_sub]
    unfold valueOf at hSign ⊢
    split at hSign
    · rename_i hSigned
      rw [if_pos hSigned]
      rw [Int.bmod_def] at hSign ⊢
      change (2 ^ 32 - v.toNat + 0) % 2 ^ 32 = _
      split at hSign <;> rename_i hHalf
      · omega
      · rw [if_neg hHalf]
        omega
    · omega
  · rw [if_neg (fun hHigh => hSign (hNeg.mp hHigh))]
    unfold valueOf at hSign ⊢
    split at hSign
    · rename_i hSigned
      rw [if_pos hSigned]
      rw [Int.bmod_def] at hSign ⊢
      split at hSign <;> rename_i hHalf
      · rw [if_pos hHalf]
        omega
      · omega
    · rename_i hSigned
      rw [if_neg hSigned]
      rfl

/-
  `out_num` emits its text, or overruns `tmp` with a width
  above 36.
-/
theorem outNum_eq
    {base : Nat}
    (hBase : 2 ≤ base)
    (ctx : σ)
    (value : UInt32)
    (isSigned : Bool)
    (width : Int)
    (zero upper : Bool) :
    outNum emit ctx value base isSigned width zero upper =
      if width ≤ 36 then
        emitAll emit (numberText upper base
          (valueOf isSigned value) width zero) ctx
      else .error .overrun := by
  have hBound := valueOf_bound isSigned value
  have hNat := valueOf_natAbs isSigned value
  have hNeg := valueOf_neg isSigned value
  have hLength := @plainNumber_length upper _ _ hBase hBound
  generalize valueOf isSigned value = n at *
  have hNumeral := @numeral_length upper _ _ hBase hBound
  unfold outNum
  dsimp only
  generalize (if (isSigned && decide (0x80000000 ≤ value)) =
    true then 0 - value else value) = v at *
  generalize (isSigned && decide (0x80000000 ≤ value)) =
    neg at *
  -- the digits in `tmp` are those of the numeral
  have hDigits : (pushZero v >>= fun tmp =>
      pushDigits base upper 32 v.toNat tmp) =
      .ok (numeral upper base n.natAbs).reverse := by
    unfold pushZero
    unfold numeral at hNumeral ⊢
    rw [← hNat] at hNumeral ⊢
    by_cases hZero : v = 0
    · rw [hZero]
      rfl
    · have hSome : v.toNat ≠ 0 := fun hEq =>
        hZero (UInt32.toNat_inj.mp hEq)
      rw [if_neg hSome, List.length_map, List.length_reverse]
        at hNumeral
      rw [if_neg (by simpa using hZero), if_neg hSome]
      show pushDigits base upper 32 v.toNat [] = _
      rw [pushDigits_eq hBase hNumeral (by
        rw [List.length_nil]
        omega), ← List.map_reverse, List.reverse_reverse,
        List.nil_append]
  have hSign : pushSign neg
      (numeral upper base n.natAbs).reverse =
      .ok (plainNumber upper base n).reverse := by
    unfold pushSign plainNumber signOf
    rw [List.reverse_append]
    by_cases hMinus : n < 0
    · rw [if_pos (hNeg.mpr hMinus), if_pos hMinus,
        pushTmp_ok (by
          rw [List.length_reverse]
          omega)]
      rfl
    · rw [if_neg (fun hTrue => hMinus (hNeg.mp hTrue)),
        if_neg hMinus, List.reverse_nil, List.append_nil]
  rw [← bind_assoc, hDigits]
  show (pushSign neg _ >>= _) = _
  rw [hSign]
  show (pushPad _ _ _ >>= _) = _
  rw [pushPad_eq _ _ (by
    rw [List.length_reverse]
    omega), List.length_reverse]
  by_cases hWidth : width ≤ 36
  · rw [if_pos (by omega), if_pos hWidth]
    show emitAll emit (List.reverse _) ctx = _
    rw [List.reverse_append, List.reverse_reverse,
      List.reverse_replicate]
    rfl
  · rw [if_neg (by omega), if_neg hWidth]
    rfl

end Sinks

end KvantOS.Printf
