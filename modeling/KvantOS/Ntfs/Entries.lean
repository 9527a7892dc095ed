import KvantOS.Ntfs.Index
import KvantOS.Data.Utf16

/-
  This file says what `utf16_to_utf8` makes of the units of
  a name: the text in UTF-8, if there is one and it can be
  stored.

  Key definitions include:
    * `storable`

  Key theorems include:
    * `utf8Bytes_eq`, `utf16Loop_eq`
-/

namespace KvantOS.Ntfs

/- Disjoint bits of a byte are added. -/
theorem or_eq_add
    {high low : Nat}
    (width : Nat)
    (hLow : low < 2 ^ width) :
    (high <<< width) ||| low = high * 2 ^ width + low := by
  rw [Nat.or_comm, Buf.or_shiftLeft_eq_add _ _ hLow,
    Nat.add_comm, Nat.mul_comm]

theorem continuation
    (n : Nat) :
    0x80 ||| (n &&& 0x3F) = n % 64 + 0x80 := by
  have hMod : n &&& 0x3F = n % 64 :=
    Nat.and_two_pow_sub_one_eq_mod n 6
  have hOr := @or_eq_add 2 (n % 64) 6
    (Nat.mod_lt n (by decide))
  rw [hMod, Nat.add_comm]
  exact hOr

/- The driver's bytes of a code point are its encoding. -/
theorem utf8Bytes_eq
    {cp : Nat}
    (hScalar : cp < 0xD800 ∨
      (0xDFFF < cp ∧ cp < 0x110000)) :
    utf8Bytes cp = String.utf8EncodeChar (Char.ofNat cp) := by
  have hChar : ∀ {bytes : List Nat},
      Utf8.Encodes cp bytes →
      String.utf8EncodeChar (Char.ofNat cp) =
        bytes.map UInt8.ofNat := by
    intro bytes hBytes
    apply Utf8.utf8EncodeChar_eq
    rw [Utf8.toNat_ofNat hScalar]
    exact hBytes
  unfold utf8Bytes
  by_cases h1 : cp < 0x80
  · rw [if_pos h1, hChar (.one h1)]
    rfl
  rw [if_neg h1]
  by_cases h2 : cp < 0x800
  · have hLead := @or_eq_add 6 (cp / 64) 5 (by omega)
    rw [if_pos h2, hChar (.two (by omega) h2), continuation,
      Nat.shiftRight_eq_div_pow]
    change [UInt8.ofNat (6 <<< 5 ||| cp / 64), _] = _
    rw [hLead, Nat.add_comm]
    rfl
  rw [if_neg h2]
  by_cases h3 : cp < 0x10000
  · have hLead := @or_eq_add 14 (cp / 4096) 4 (by omega)
    rw [if_pos h3, hChar (.three (by omega) h3 (by omega)),
      continuation, continuation, Nat.shiftRight_eq_div_pow,
      Nat.shiftRight_eq_div_pow]
    change [UInt8.ofNat (14 <<< 4 ||| cp / 4096), _, _] = _
    rw [hLead, Nat.add_comm]
    rfl
  · have hLead := @or_eq_add 30 (cp / 262144) 3 (by omega)
    rw [if_neg h3, hChar (.four (by omega) (by omega)),
      continuation, continuation, continuation,
      Nat.shiftRight_eq_div_pow, Nat.shiftRight_eq_div_pow,
      Nat.shiftRight_eq_div_pow]
    change [UInt8.ofNat (30 <<< 3 ||| cp / 262144), _, _,
      _] = _
    rw [hLead, Nat.add_comm]
    rfl

theorem length_utf8Bytes (cp : Nat) :
    (utf8Bytes cp).length = utf8Length cp := by
  unfold utf8Bytes utf8Length
  split
  · rfl
  · split
    · rfl
    · split <;> rfl

/- The text of a name, if it can be stored in `dstsz` bytes. -/
def storable
    (dstsz n : Nat)
    (text : List Char) : Option (List UInt8) :=
  if Char.ofNat 0 ∈ text ∨
      dstsz ≤ n + (Utf8.encode text).length then
    none
  else
    some (Utf8.encode text)

/- One more character in front. -/
theorem storeUtf8_eq
    {cp n dstsz : Nat}
    {rest : Nat → Option (List UInt8)}
    {text : Option (List Char)}
    (hScalar : cp < 0xD800 ∨
      (0xDFFF < cp ∧ cp < 0x110000))
    (hRest : ∀ n, n < dstsz →
      rest n = text.bind (storable dstsz n)) :
    storeUtf8 cp n dstsz rest =
      (text.map (Char.ofNat cp :: ·)).bind
        (storable dstsz n) := by
  have hZero : Char.ofNat 0 = Char.ofNat cp ↔ cp = 0 := by
    constructor
    · intro hSame
      have hNat := congrArg Char.toNat hSame
      rw [Utf8.toNat_ofNat hScalar] at hNat
      exact hNat.symm
    · rintro rfl
      rfl
  have hLength := length_utf8Bytes cp
  rw [utf8Bytes_eq hScalar] at hLength
  have hEncode : ∀ t : List Char,
      (Utf8.encode (Char.ofNat cp :: t)).length =
        utf8Length cp + (Utf8.encode t).length := by
    intro t
    rw [Utf8.encode_cons, List.length_append, hLength]
  unfold storeUtf8
  by_cases hNul : cp = 0
  · rw [if_pos (by simp [hNul])]
    cases text with
    | none => rfl
    | some t =>
        rw [Option.map_some, Option.bind_some, storable,
          if_pos (.inl (by simp [hNul]))]
  · rw [if_neg (by simpa using hNul)]
    by_cases hFull : n + utf8Length cp ≥ dstsz
    · rw [if_pos hFull]
      cases text with
      | none => rfl
      | some t =>
          have hLen := hEncode t
          rw [Option.map_some, Option.bind_some, storable,
            if_pos (.inr (by omega))]
    · rw [if_neg hFull, hRest _ (by omega)]
      cases text with
      | none => rfl
      | some t =>
          have hLen := hEncode t
          rw [Option.map_some, Option.bind_some,
            Option.bind_some]
          have hBad : (Char.ofNat 0 ∈ Char.ofNat cp :: t ∨
              dstsz ≤ n +
                (Utf8.encode (Char.ofNat cp :: t)).length) ↔
              (Char.ofNat 0 ∈ t ∨ dstsz ≤
                n + utf8Length cp +
                  (Utf8.encode t).length) := by
            rw [List.mem_cons, hZero, hLen, ← Nat.add_assoc]
            simp [hNul]
          unfold storable
          by_cases hRefused : Char.ofNat 0 ∈ t ∨ dstsz ≤
              n + utf8Length cp + (Utf8.encode t).length
          · rw [if_pos hRefused, if_pos (hBad.mpr hRefused)]
            rfl
          · rw [if_neg hRefused,
              if_neg (mt hBad.mp hRefused), Option.map_some,
              Utf8.encode_cons, utf8Bytes_eq hScalar]

/- The tests of the driver for surrogates. -/
theorem highTest (u : Nat) :
    (u ≥ 0xD800 && u ≤ 0xDBFF) =
      decide (Utf16.IsHigh u) := by
  rw [Bool.eq_iff_iff, Bool.and_eq_true, decide_eq_true_iff,
    decide_eq_true_iff, decide_eq_true_iff]
  rfl

theorem lowTest (u : Nat) :
    (u ≥ 0xDC00 && u ≤ 0xDFFF) =
      decide (Utf16.IsLow u) := by
  rw [Bool.eq_iff_iff, Bool.and_eq_true, decide_eq_true_iff,
    decide_eq_true_iff, decide_eq_true_iff]
  rfl

theorem notLowTest (u : Nat) :
    (u < 0xDC00 || u > 0xDFFF) =
      !decide (Utf16.IsLow u) := by
  rw [Bool.eq_iff_iff, Bool.or_eq_true, decide_eq_true_iff,
    decide_eq_true_iff, Bool.not_eq_true',
    decide_eq_false_iff_not]
  unfold Utf16.IsLow
  omega

/- The conversion gives the text in UTF-8, or nothing. -/
theorem utf16Loop_eq
    {dstsz : Nat}
    {units : List Nat}
    (hUnits : ∀ u ∈ units, u < 0x10000)
    {n : Nat}
    (hN : n < dstsz) :
    utf16Loop dstsz units n =
      (Utf16.decode units).bind (storable dstsz n) := by
  induction units using Utf16.decode.induct generalizing n with
  | case1 =>
      rw [Utf16.decode, Option.bind_some, storable, if_neg]
      · rfl
      · rintro (hMem | hLong)
        · cases hMem
        · exact absurd hLong (by simpa using hN)
  | case2 u hHigh =>
      rw [utf16Loop, highTest,
        if_pos (decide_eq_true hHigh), Utf16.decode,
        if_pos hHigh]
      rfl
  | case3 u hHigh low units hLow ih =>
      rw [utf16Loop, highTest,
        if_pos (decide_eq_true hHigh), notLowTest,
        if_neg (by simp [hLow]),
        Utf16.decode_pair hHigh hLow]
      unfold Utf16.IsHigh at hHigh
      unfold Utf16.IsLow at hLow
      exact storeUtf8_eq (by omega) fun n hN =>
        ih (fun x hMem => hUnits x (by simp [hMem])) hN
  | case4 u hHigh low units hLow =>
      rw [utf16Loop, highTest,
        if_pos (decide_eq_true hHigh), notLowTest,
        if_pos (by simp [hLow]), Utf16.decode, if_pos hHigh,
        if_neg hLow]
      rfl
  | case5 u units hHigh hLow =>
      rw [utf16Loop.eq_def, Utf16.decode.eq_def]
      dsimp only
      rw [highTest, lowTest, if_neg (by simp [hHigh]),
        if_pos (decide_eq_true hLow), if_neg hHigh,
        if_pos hLow]
      rfl
  | case6 u units hHigh hLow ih =>
      have hUnit := hUnits u List.mem_cons_self
      rw [utf16Loop.eq_def, Utf16.decode_single hHigh hLow]
      dsimp only
      rw [highTest, lowTest, if_neg (by simp [hHigh]),
        if_neg (by simp [hLow])]
      unfold Utf16.IsHigh at hHigh
      unfold Utf16.IsLow at hLow
      exact storeUtf8_eq (by omega) fun n hN =>
        ih (fun x hMem =>
          hUnits x (List.mem_cons_of_mem _ hMem)) hN

end KvantOS.Ntfs
