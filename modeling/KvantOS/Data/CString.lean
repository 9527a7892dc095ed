import Mathlib.Data.List.GetD
import Mathlib.Data.List.OfFn
import Mathlib.Data.List.TakeWhile

/-
  This file defines NUL-terminated byte strings and their
  copies in fixed-size name buffers.

  Key definitions include:
    * `CStr`, `CStr.ofBuffer`, `CStr.Terminated`
    * `CStr.toBuffer`

  Key theorems include:
    * `CStr.ofBuffer_toBuffer`, `CStr.length_ofBuffer_lt`
-/

/- The bytes of a C string before its terminator. -/
@[ext]
structure CStr where
  bytes : List UInt8
  noNul : 0 ∉ bytes
  deriving DecidableEq

namespace CStr

/- `strlen`. -/
def length (s : CStr) : Nat :=
  s.bytes.length

/- The first `count` bytes of a string. -/
def take
    (s : CStr)
    (count : Nat) : CStr where
  bytes := s.bytes.take count
  noNul := fun hMem => s.noNul (List.mem_of_mem_take hMem)

variable {s : CStr}

theorem take_of_length_le
    {count : Nat}
    (hLength : s.length ≤ count) :
    s.take count = s :=
  CStr.ext (List.take_of_length_le hLength)

--
-- Name Buffers
--

variable {n : Nat}

/- The string that a buffer begins with. -/
def ofBuffer (buffer : Fin n → UInt8) : CStr where
  bytes := (List.ofFn buffer).takeWhile (fun b => b != 0)
  noNul := by
    intro hMem
    have hByte := List.mem_takeWhile_imp hMem
    simp at hByte

/- The buffer holds a terminator. -/
def Terminated (buffer : Fin n → UInt8) : Prop :=
  ∃ i, buffer i = 0

instance
    (buffer : Fin n → UInt8) :
    Decidable (Terminated buffer) :=
  inferInstanceAs (Decidable (∃ _, _))

/-
  `strncpy` into a zeroed buffer: the last byte stays the
  terminator.
-/
def toBuffer
    (n : Nat)
    (s : CStr) : Fin n → UInt8 :=
  fun i => if i.val + 1 < n then s.bytes.getD i 0 else 0

/- A terminated buffer holds a string shorter than it is. -/
theorem length_ofBuffer_lt
    {buffer : Fin n → UInt8}
    (hTerminated : Terminated buffer) :
    (ofBuffer buffer).length < n := by
  rcases hTerminated with ⟨i, hZero⟩
  by_contra hLong
  have hPrefix : (ofBuffer buffer).bytes <+:
      List.ofFn buffer :=
    List.takeWhile_prefix _
  have hLength : (ofBuffer buffer).bytes.length =
      (List.ofFn buffer).length := by
    have hLe := hPrefix.length_le
    rw [List.length_ofFn] at hLe ⊢
    unfold CStr.length at hLong
    omega
  have hAll := hPrefix.eq_of_length hLength
  apply (ofBuffer buffer).noNul
  rw [hAll, ← hZero]
  exact List.mem_ofFn.mpr ⟨i, rfl⟩

/-
  A buffer that agrees with a string up to its terminator
  holds it.
-/
theorem ofBuffer_eq
    {buffer : Fin n → UInt8}
    (hLength : s.length < n)
    (hBytes : ∀ i : Fin n, i.val ≤ s.length →
      buffer i = s.bytes.getD i 0) :
    ofBuffer buffer = s := by
  apply CStr.ext
  have hSplit : List.ofFn buffer =
      s.bytes ++ (List.ofFn buffer).drop s.length := by
    conv_lhs =>
      rw [← List.take_append_drop s.length
        (List.ofFn buffer)]
    congr 1
    apply List.ext_getElem
    · simp only [List.length_take, List.length_ofFn]
      exact Nat.min_eq_left (Nat.le_of_lt hLength)
    · intro i hi hi'
      have hBound : i < n := Nat.lt_trans hi' hLength
      rw [List.getElem_take, List.getElem_ofFn,
        hBytes ⟨i, hBound⟩ (Nat.le_of_lt hi')]
      exact List.getD_eq_getElem _ _ hi'
  have hHead : (List.ofFn buffer).drop s.length =
      0 :: (List.ofFn buffer).drop (s.length + 1) := by
    rw [List.drop_eq_getElem_cons (by simpa using hLength),
      List.getElem_ofFn, hBytes ⟨s.length, hLength⟩
        (Nat.le_refl _)]
    congr 1
    exact List.getD_eq_default _ _ (Nat.le_refl _)
  change (List.ofFn buffer).takeWhile _ = s.bytes
  rw [hSplit, hHead, List.takeWhile_append_of_pos]
  · simp
  · intro b hMem
    have hNe : b ≠ 0 := by
      rintro rfl
      exact s.noNul hMem
    simpa using hNe

/- A string that fits its buffer is read back. -/
theorem ofBuffer_toBuffer
    (hLength : s.length < n) :
    ofBuffer (toBuffer n s) = s := by
  apply ofBuffer_eq hLength
  intro i hi
  by_cases hInside : i.val + 1 < n
  · exact if_pos hInside
  · rw [toBuffer, if_neg hInside]
    refine (List.getD_eq_default _ _ ?_).symm
    have hBound := i.isLt
    unfold CStr.length at hLength
    omega

theorem terminated_toBuffer
    (hLength : s.length < n) :
    Terminated (toBuffer n s) := by
  refine ⟨⟨s.length, hLength⟩, ?_⟩
  unfold toBuffer
  split
  · exact List.getD_eq_default _ _ (Nat.le_refl _)
  · rfl

/- A buffer is empty exactly when its first byte is zero. -/
theorem ofBuffer_eq_nil_iff
    {buffer : Fin (n + 1) → UInt8} :
    (ofBuffer buffer).bytes = [] ↔ buffer 0 = 0 := by
  change (List.ofFn buffer).takeWhile _ = [] ↔ _
  rw [List.ofFn_succ, List.takeWhile_cons]
  simp

end CStr
