import KvantOS.Ntfs.Entries

/-
  This file models the buffer that `utf16_to_utf8` fills,
  byte by byte, and proves that the conversion is exact: it
  goes through for the encodings of storable texts, leaves
  their UTF-8 form with a terminator, and keeps to the
  buffer also when it gives up half way.

  Key definitions include:
    * `utf16ToUtf8In`

  Key theorems include:
    * `utf16Store_writes`, `utf16ToUtf8_exact`
-/

namespace KvantOS.Ntfs

/-
  A code point is stored after `n` bytes, if it fits. The
  sum stays below `dstsz + 4`.
-/
def storeUtf8In
    (cp n dstsz : Nat)
    (dst : Buf)
    (rest : Nat → Buf → Bool × Buf) : Bool × Buf :=
  if cp == 0 then
    (false, dst)
  else if n + utf8Length cp ≥ dstsz then
    (false, dst)
  else
    rest (n + utf8Length cp)
      (dst.copy n (Buf.ofList (utf8Bytes cp))
        (utf8Length cp))

/- The loop of `utf16_to_utf8`, and its terminator. -/
def utf16Store
    (dstsz : Nat) :
    List Nat → (n : Nat) → Buf → Bool × Buf
  | [], n, dst => (true, dst.fill n 0 1)
  | u :: units, n, dst =>
      if u ≥ 0xD800 && u ≤ 0xDBFF then
        match units with
        | [] => (false, dst)
        | lo :: units =>
            if lo < 0xDC00 || lo > 0xDFFF then
              (false, dst)
            else
              storeUtf8In
                (0x10000 + (u - 0xD800) * 1024 +
                  (lo - 0xDC00))
                n dstsz dst (utf16Store dstsz units)
      else if u ≥ 0xDC00 && u ≤ 0xDFFF then
        (false, dst)
      else
        storeUtf8In u n dstsz dst (utf16Store dstsz units)

/-
  `utf16_to_utf8`: what it returns, and the buffer of
  `dstsz` bytes after.
-/
def utf16ToUtf8In
    (b : Buf)
    (p chars : Nat)
    (dst : Buf)
    (dstsz : Nat) : Bool × Buf :=
  utf16Store dstsz (utf16Units b p chars) 0 dst

--
-- What It Holds
--

/-
  From place `n` on the buffer holds these bytes and a
  terminator, or the call has failed; either way it is
  unchanged before them and from `dstsz` on.
-/
def WritesName
    (dstsz n : Nat)
    (dst : Buf) :
    Option NtfsName → Bool × Buf → Prop
  | none, out =>
      out.1 = false ∧
        ∀ a, a < n ∨ dstsz ≤ a → out.2 a = dst a
  | some bytes, out =>
      out.1 = true ∧ n + bytes.length < dstsz ∧
        (∀ i, i < bytes.length →
          out.2 (n + i) = bytes.getD i 0) ∧
        out.2 (n + bytes.length) = 0 ∧
        ∀ a, a < n ∨ n + bytes.length < a →
          out.2 a = dst a

section Writing

variable {dstsz : Nat}

theorem storeUtf8_writes
    {cp n : Nat}
    {dst : Buf}
    {rest : Nat → Option NtfsName}
    {restIn : Nat → Buf → Bool × Buf}
    (hRest : ∀ n dst, n < dstsz →
      WritesName dstsz n dst (rest n) (restIn n dst)) :
    WritesName dstsz n dst (storeUtf8 cp n dstsz rest)
      (storeUtf8In cp n dstsz dst restIn) := by
  unfold storeUtf8 storeUtf8In
  split
  · exact ⟨rfl, fun _ _ => rfl⟩
  · split
    · exact ⟨rfl, fun _ _ => rfl⟩
    · next hFits =>
        have hLength := length_utf8Bytes cp
        have hLater := hRest (n + utf8Length cp)
          (dst.copy n (Buf.ofList (utf8Bytes cp))
            (utf8Length cp)) (by omega)
        cases hBytes : rest (n + utf8Length cp) with
        | none =>
            rw [hBytes] at hLater
            refine ⟨hLater.1, fun a ha => ?_⟩
            rw [hLater.2 a (by omega)]
            exact Buf.copy_outside (by omega)
        | some bytes =>
            rw [hBytes] at hLater
            rcases hLater with
              ⟨hOk, hEnd, hHolds, hZero, hOut⟩
            rw [Option.map_some]
            refine ⟨hOk, ?_, ?_, ?_, ?_⟩
            · rw [List.length_append]
              omega
            · intro i hi
              rw [List.length_append] at hi
              by_cases hHere : i < utf8Length cp
              · rw [hOut _ (by omega),
                  Buf.copy_inside (by omega) (by omega),
                  List.getD_append _ _ _ _ (by omega)]
                unfold Buf.ofList
                congr 1
                omega
              · have hAt := hHolds (i - utf8Length cp)
                  (by omega)
                have hSum : n + utf8Length cp +
                    (i - utf8Length cp) = n + i := by omega
                rw [hSum] at hAt
                rw [hAt,
                  List.getD_append_right _ _ _ _ (by omega),
                  hLength]
            · rw [List.length_append, hLength,
                ← Nat.add_assoc]
              exact hZero
            · intro a ha
              rw [List.length_append] at ha
              rw [hOut a (by omega)]
              exact Buf.copy_outside (by omega)

/- The buffer gets what the conversion finds. -/
theorem utf16Store_writes
    (units : List Nat)
    {n : Nat}
    (hN : n < dstsz)
    (dst : Buf) :
    WritesName dstsz n dst (utf16Loop dstsz units n)
      (utf16Store dstsz units n dst) := by
  induction units using Utf16.decode.induct
      generalizing n dst with
  | case1 =>
      refine ⟨rfl, by simpa using hN, by simp, ?_, ?_⟩
      · exact if_pos (by simp)
      · intro a ha
        simp only [List.length_nil] at ha
        exact if_neg (by omega)
  | case2 u hHigh =>
      rw [utf16Loop, utf16Store, highTest,
        if_pos (decide_eq_true hHigh),
        if_pos (decide_eq_true hHigh)]
      exact ⟨rfl, fun _ _ => rfl⟩
  | case3 u hHigh low units hLow ih =>
      have hPair : ¬ (!decide (Utf16.IsLow low)) = true := by
        simp [hLow]
      rw [utf16Loop, utf16Store, highTest,
        if_pos (decide_eq_true hHigh),
        if_pos (decide_eq_true hHigh), notLowTest,
        if_neg hPair, if_neg hPair]
      generalize 0x10000 + (u - 0xD800) * 1024 +
        (low - 0xDC00) = cp
      exact storeUtf8_writes (fun n dst hN => ih hN dst)
  | case4 u hHigh low units hLow =>
      have hAlone : (!decide (Utf16.IsLow low)) = true := by
        simp [hLow]
      rw [utf16Loop, utf16Store, highTest,
        if_pos (decide_eq_true hHigh),
        if_pos (decide_eq_true hHigh), notLowTest,
        if_pos hAlone, if_pos hAlone]
      exact ⟨rfl, fun _ _ => rfl⟩
  | case5 u units hHigh hLow =>
      have hNotHigh : ¬ decide (Utf16.IsHigh u) = true := by
        simpa using hHigh
      rw [utf16Loop.eq_def, utf16Store.eq_def]
      dsimp only
      rw [highTest, lowTest, if_neg hNotHigh,
        if_neg hNotHigh, if_pos (decide_eq_true hLow),
        if_pos (decide_eq_true hLow)]
      exact ⟨rfl, fun _ _ => rfl⟩
  | case6 u units hHigh hLow ih =>
      have hNotHigh : ¬ decide (Utf16.IsHigh u) = true := by
        simpa using hHigh
      have hNotLow : ¬ decide (Utf16.IsLow u) = true := by
        simpa using hLow
      rw [utf16Loop.eq_def, utf16Store.eq_def]
      dsimp only
      rw [highTest, lowTest, if_neg hNotHigh,
        if_neg hNotHigh, if_neg hNotLow, if_neg hNotLow]
      exact storeUtf8_writes (fun n dst hN => ih hN dst)

end Writing

--
-- Exactness
--

/-
  The units are the encoding of a text without a zero whose
  UTF-8 form has room for a terminator.
-/
def Convertible
    (dstsz : Nat)
    (units : List Nat)
    (text : List Char) : Prop :=
  Utf16.encode text = units ∧ Char.ofNat 0 ∉ text ∧
    (Utf8.encode text).length + 1 ≤ dstsz

theorem units_lt
    (b : Buf)
    (p chars : Nat) :
    ∀ u ∈ utf16Units b p chars, u < 0x10000 := by
  intro u hMem
  rcases List.mem_map.mp hMem with ⟨i, -, rfl⟩
  exact b.get16_lt _

/- The conversion succeeds for convertible texts only. -/
theorem utf16Loop_some_iff
    {dstsz : Nat}
    {units : List Nat}
    (hUnits : ∀ u ∈ units, u < 0x10000)
    (hPos : 0 < dstsz)
    (bytes : NtfsName) :
    utf16Loop dstsz units 0 = some bytes ↔
      ∃ text, Convertible dstsz units text ∧
        bytes = Utf8.encode text := by
  rw [utf16Loop_eq hUnits hPos, Option.bind_eq_some_iff]
  unfold Convertible storable
  constructor
  · rintro ⟨text, hDecode, hStored⟩
    rw [Option.ite_none_left_eq_some, not_or,
      Option.some_inj] at hStored
    rcases hStored with ⟨⟨hZero, hRoom⟩, rfl⟩
    exact ⟨text, ⟨Utf16.encode_of_decode hUnits hDecode,
      hZero, by omega⟩, rfl⟩
  · rintro ⟨text, ⟨hEncode, hZero, hRoom⟩, rfl⟩
    refine ⟨text, ?_, ?_⟩
    · rw [← hEncode, Utf16.decode_encode]
    · rw [if_neg]
      rintro (hMem | hLong)
      · exact hZero hMem
      · omega

/-
  The conversion returns 1 exactly for the encodings of
  texts that fit; the buffer then starts with the text in
  UTF-8 and its terminator. No byte outside is written.
-/
theorem utf16ToUtf8_exact
    (b : Buf)
    (p chars : Nat)
    (dst : Buf)
    {dstsz : Nat}
    (hPos : 1 ≤ dstsz) :
    ((utf16ToUtf8In b p chars dst dstsz).1 = true ↔
      ∃ text, Convertible dstsz (utf16Units b p chars)
        text) ∧
    (∀ text, Convertible dstsz (utf16Units b p chars) text →
      (utf16ToUtf8In b p chars dst dstsz).2.toList
          ((Utf8.encode text).length + 1) =
        Utf8.encode text ++ [0]) ∧
    ∀ a, dstsz ≤ a →
      (utf16ToUtf8In b p chars dst dstsz).2 a = dst a := by
  have hUnits := units_lt b p chars
  have hWrites := utf16Store_writes
    (utf16Units b p chars) hPos dst
  unfold utf16ToUtf8In
  cases hLoop : utf16Loop dstsz
      (utf16Units b p chars) 0 with
  | none =>
      rw [hLoop] at hWrites
      have hNone : ¬ ∃ text, Convertible dstsz
          (utf16Units b p chars) text := by
        rintro ⟨text, hText⟩
        have hSome := (utf16Loop_some_iff hUnits hPos
          _).mpr ⟨text, hText, rfl⟩
        rw [hLoop] at hSome
        cases hSome
      refine ⟨?_, ?_, fun a ha => hWrites.2 a (.inr ha)⟩
      · rw [hWrites.1]
        exact ⟨nofun, fun h => absurd h hNone⟩
      · exact fun text hText => absurd ⟨text, hText⟩ hNone
  | some bytes =>
      rw [hLoop] at hWrites
      rcases hWrites with ⟨hOk, hEnd, hHolds, hZero, hOut⟩
      rcases (utf16Loop_some_iff hUnits hPos bytes).mp hLoop
        with ⟨text, hText, rfl⟩
      refine ⟨?_, ?_, fun a ha => hOut a (.inr (by omega))⟩
      · rw [hOk]
        exact ⟨fun _ => ⟨text, hText⟩, fun _ => rfl⟩
      · intro text' hText'
        have hSame : text' = text := by
          have hDecode := Utf16.decode_encode text'
          rw [hText'.1, ← hText.1, Utf16.decode_encode]
            at hDecode
          exact (Option.some.inj hDecode).symm
        subst hSame
        unfold Buf.toList
        rw [List.range_succ, List.map_append,
          List.map_singleton]
        simp only [Nat.zero_add] at hHolds hZero
        rw [hZero]
        congr 1
        apply List.ext_getElem
        · simp
        · intro i hi hi'
          rw [List.getElem_map, List.getElem_range,
            hHolds i hi', List.getD_eq_getElem _ _ hi']

/- A buffer of one byte takes the empty name only. -/
theorem utf16ToUtf8_exact_empty :
    (utf16ToUtf8In Buf.zero 0 0 Buf.zero 1).1 = true ↔
      ∃ text, Convertible 1 (utf16Units Buf.zero 0 0)
        text :=
  (utf16ToUtf8_exact Buf.zero 0 0 Buf.zero
    (Nat.le_refl 1)).1

end KvantOS.Ntfs
