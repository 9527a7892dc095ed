import KvantOS.Data.Utf8

/-
  This file defines the UTF-16 encoding of text, as numbers
  of 16 bits, and its decoder.

  Key definitions include:
    * `Utf16.encode`, `Utf16.decode`

  Key theorems include:
    * `Utf16.decode_encode`, `Utf16.encode_of_decode`
-/

namespace Utf16

/- One unit, or a pair of surrogates. -/
def encodeChar (c : Char) : List Nat :=
  if c.toNat < 0x10000 then
    [c.toNat]
  else
    [0xD800 + (c.toNat - 0x10000) / 0x400,
      0xDC00 + (c.toNat - 0x10000) % 0x400]

def encode (text : List Char) : List Nat :=
  text.flatMap encodeChar

theorem encode_cons
    (c : Char)
    (text : List Char) :
    encode (c :: text) = encodeChar c ++ encode text :=
  rfl

--
-- Decoding
--

/- The two halves of a pair of surrogates. -/
def IsHigh (u : Nat) : Prop :=
  0xD800 ≤ u ∧ u ≤ 0xDBFF

def IsLow (u : Nat) : Prop :=
  0xDC00 ≤ u ∧ u ≤ 0xDFFF

instance (u : Nat) : Decidable (IsHigh u) := by
  unfold IsHigh
  infer_instance

instance (u : Nat) : Decidable (IsLow u) := by
  unfold IsLow
  infer_instance

/- The character of a pair. -/
def pairChar (high low : Nat) : Char :=
  Char.ofNat
    (0x10000 + (high - 0xD800) * 0x400 + (low - 0xDC00))

/- The text of some units, if the surrogates are paired. -/
def decode : List Nat → Option (List Char)
  | [] => some []
  | u :: units =>
      if IsHigh u then
        match units with
        | [] => none
        | low :: units =>
            if IsLow low then
              (decode units).map (pairChar u low :: ·)
            else
              none
      else if IsLow u then
        none
      else
        (decode units).map (Char.ofNat u :: ·)

theorem decode_pair
    {high low : Nat}
    (hHigh : IsHigh high)
    (hLow : IsLow low)
    (units : List Nat) :
    decode (high :: low :: units) =
      (decode units).map (pairChar high low :: ·) := by
  rw [decode, if_pos hHigh, if_pos hLow]

theorem decode_single
    {u : Nat}
    (hHigh : ¬IsHigh u)
    (hLow : ¬IsLow u)
    (units : List Nat) :
    decode (u :: units) =
      (decode units).map (Char.ofNat u :: ·) := by
  rw [decode.eq_def]
  dsimp only
  rw [if_neg hHigh, if_neg hLow]

theorem decode_encode (text : List Char) :
    decode (encode text) = some text := by
  induction text with
  | nil => rfl
  | cons c text ih =>
      have hScalar := Utf8.toNat_cases c
      rw [encode_cons, encodeChar]
      by_cases hOne : c.toNat < 0x10000
      · rw [if_pos hOne, List.singleton_append,
          decode_single (by unfold IsHigh; omega)
            (by unfold IsLow; omega), ih,
          Option.map_some, Char.ofNat_toNat]
      · rw [if_neg hOne]
        have hBack : pairChar
            (0xD800 + (c.toNat - 0x10000) / 0x400)
            (0xDC00 + (c.toNat - 0x10000) % 0x400) = c := by
          have hNat : 0x10000 +
              (0xD800 + (c.toNat - 0x10000) / 0x400 -
                0xD800) * 0x400 +
              (0xDC00 + (c.toNat - 0x10000) % 0x400 -
                0xDC00) = c.toNat := by
            omega
          rw [pairChar, hNat, Char.ofNat_toNat]
        change decode (_ :: _ :: encode text) = _
        rw [decode_pair (by unfold IsHigh; omega)
          (by unfold IsLow; omega), ih, hBack,
          Option.map_some]

theorem encodeChar_ofNat
    {u : Nat}
    (hUnit : u < 0x10000)
    (hHigh : ¬IsHigh u)
    (hLow : ¬IsLow u) :
    encodeChar (Char.ofNat u) = [u] := by
  unfold IsHigh at hHigh
  unfold IsLow at hLow
  have hNat := @Utf8.toNat_ofNat u (by omega)
  rw [encodeChar, hNat, if_pos hUnit]

theorem encodeChar_pairChar
    {high low : Nat}
    (hHigh : IsHigh high)
    (hLow : IsLow low) :
    encodeChar (pairChar high low) = [high, low] := by
  unfold IsHigh at hHigh
  unfold IsLow at hLow
  have hNat := @Utf8.toNat_ofNat
    (0x10000 + (high - 0xD800) * 0x400 + (low - 0xDC00))
    (by omega)
  have hFirst : 0xD800 + (0x10000 + (high - 0xD800) * 0x400 +
      (low - 0xDC00) - 0x10000) / 0x400 = high := by
    omega
  have hSecond : 0xDC00 + (0x10000 + (high - 0xD800) *
      0x400 + (low - 0xDC00) - 0x10000) % 0x400 = low := by
    omega
  rw [encodeChar, pairChar, hNat, if_neg (by omega), hFirst,
    hSecond]

/- Decoded units are the encoding of their text. -/
theorem encode_of_decode
    {units : List Nat}
    {text : List Char}
    (hUnits : ∀ u ∈ units, u < 0x10000)
    (hDecode : decode units = some text) :
    encode text = units := by
  induction units using decode.induct generalizing text with
  | case1 =>
      cases hDecode
      rfl
  | case2 u hHigh =>
      rw [decode, if_pos hHigh] at hDecode
      cases hDecode
  | case3 u hHigh low units hLow ih =>
      rw [decode_pair hHigh hLow, Option.map_eq_some_iff]
        at hDecode
      rcases hDecode with ⟨rest, hRest, rfl⟩
      rw [encode_cons, encodeChar_pairChar hHigh hLow,
        ih (fun x hMem => hUnits x (by simp [hMem])) hRest]
      rfl
  | case4 u hHigh low units hLow =>
      rw [decode, if_pos hHigh, if_neg hLow] at hDecode
      cases hDecode
  | case5 u units hHigh hLow =>
      rw [decode.eq_def] at hDecode
      dsimp only at hDecode
      rw [if_neg hHigh, if_pos hLow] at hDecode
      cases hDecode
  | case6 u units hHigh hLow ih =>
      rw [decode_single hHigh hLow, Option.map_eq_some_iff]
        at hDecode
      rcases hDecode with ⟨rest, hRest, rfl⟩
      rw [encode_cons, encodeChar_ofNat
          (hUnits u List.mem_cons_self) hHigh hLow,
        ih (fun x hMem =>
          hUnits x (List.mem_cons_of_mem _ hMem)) hRest]
      rfl

end Utf16
