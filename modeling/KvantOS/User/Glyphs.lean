import KvantOS.Data.Utf8Boundary
import KvantOS.User.Service

/-
  This file proves that `glyph_count` accepts exactly the
  UTF-8 texts without control characters, counts their
  characters, and reads no byte behind the text.

  Key definitions include:
    * `Printable`, `glyphHead`
    * `glyphCountAt`, `glyphCountInt`

  Key theorems include:
    * `glyphCount_iff`, `glyphCountInt_exact`
-/

namespace KvantOS.User

open Utf8

--
-- Characters
--

/- Not a control character of ASCII. -/
def Printable (c : Char) : Prop :=
  0x20 ≤ c.toNat ∧ c.toNat ≠ 0x7F

/- A byte that continues a character. -/
theorem follows_iff (c : UInt8) :
    (c &&& 0xC0 != 0x80) = false ↔
      0x80 ≤ c.toNat ∧ c.toNat < 0xC0 := by
  rw [bne_eq_false_iff_eq]
  exact and_eq_continues c

variable {c : UInt8} {rest : List UInt8}

theorem followBytes_cons
    {cp : Nat}
    (hFollows : 0x80 ≤ c.toNat ∧ c.toNat < 0xC0) :
    followBytes cp (c :: rest) =
      followBytes (cp * 64 + c.toNat % 64) rest := by
  have hLow : c.toNat &&& 63 = c.toNat % 64 :=
    Nat.and_two_pow_sub_one_eq_mod c.toNat 6
  have hLess : c.toNat % 64 < 2 ^ 6 :=
    Nat.mod_lt _ (by decide)
  have hJoin : cp <<< 6 ||| c.toNat % 64 =
      cp * 64 + c.toNat % 64 := by
    rw [← Nat.shiftLeft_add_eq_or_of_lt hLess,
      Nat.shiftLeft_eq]
  rw [followBytes, (follows_iff c).mpr hFollows, hLow, hJoin]
  rfl

theorem followBytes_out
    {cp : Nat}
    (hOut : ¬(0x80 ≤ c.toNat ∧ c.toNat < 0xC0)) :
    followBytes cp (c :: rest) = none := by
  rw [← follows_iff c, Bool.not_eq_false] at hOut
  rw [followBytes, hOut]
  rfl

/- Bytes that follow give their number, or nothing. -/
theorem followBytes_some
    {cp n : Nat}
    (hSome : followBytes cp (c :: rest) = some n) :
    (0x80 ≤ c.toNat ∧ c.toNat < 0xC0) ∧
      followBytes (cp * 64 + c.toNat % 64) rest =
        some n := by
  by_cases hFollows : 0x80 ≤ c.toNat ∧ c.toNat < 0xC0
  · rw [followBytes_cons hFollows] at hSome
    exact ⟨hFollows, hSome⟩
  · rw [followBytes_out hFollows] at hSome
    cases hSome

/-
  How many bytes follow the first byte of a character that
  is not ASCII, when they are as they should be.
-/
def glyphHead
    (c : UInt8)
    (rest : List UInt8) : Option Nat :=
  match leadByte c.toNat with
  | none => none
  | some (bits, more, least) =>
      if more > rest.length then
        none
      else
        match followBytes bits (rest.take more) with
        | none => none
        | some cp =>
            if cp < least || cp > 0x10FFFF ||
                (cp ≥ 0xD800 && cp ≤ 0xDFFF) then
              none
            else
              some more

theorem glyphCount_head
    {fuel : Nat}
    (hWide : ¬c < 128) :
    glyphCount (fuel + 1) (c :: rest) =
      match glyphHead c rest with
      | none => none
      | some more =>
          (glyphCount fuel (rest.drop more)).map (· + 1) := by
  rw [glyphCount, if_neg hWide, glyphHead]
  cases leadByte c.toNat with
  | none => rfl
  | some lead =>
      obtain ⟨bits, more, least⟩ := lead
      dsimp only
      by_cases hShort : more > rest.length
      · rw [if_pos hShort, if_pos hShort]
      · rw [if_neg hShort, if_neg hShort]
        cases followBytes bits (rest.take more) with
        | none => rfl
        | some cp =>
            dsimp only
            split
            · rfl
            · rfl

/- A number that the decoder accepts. -/
theorem accepted_iff
    {cp least : Nat} :
    (cp < least || cp > 0x10FFFF ||
        (cp ≥ 0xD800 && cp ≤ 0xDFFF)) = false ↔
      least ≤ cp ∧
        (cp < 0xD800 ∨ 0xDFFF < cp ∧ cp < 0x110000) := by
  simp only [Bool.or_eq_false_iff, Bool.and_eq_false_iff,
    decide_eq_false_iff_not]
  omega

/- What the first byte says, as a number of bits. -/
theorem leadByte_some
    {c bits more least : Nat}
    (hSome : leadByte c = some (bits, more, least)) :
    (more = 1 ∧ least = 0x80 ∧ bits = c - 0xC0 ∧
        0xC2 ≤ c ∧ c ≤ 0xDF) ∨
      (more = 2 ∧ least = 0x800 ∧ bits = c - 0xE0 ∧
        0xE0 ≤ c ∧ c ≤ 0xEF) ∨
      (more = 3 ∧ least = 0x10000 ∧ bits = c - 0xF0 ∧
        0xF0 ≤ c ∧ c ≤ 0xF4) := by
  have h5 : c &&& 31 = c % 32 :=
    Nat.and_two_pow_sub_one_eq_mod c 5
  have h4 : c &&& 15 = c % 16 :=
    Nat.and_two_pow_sub_one_eq_mod c 4
  have h3 : c &&& 7 = c % 8 :=
    Nat.and_two_pow_sub_one_eq_mod c 3
  unfold leadByte at hSome
  rw [h5, h4, h3] at hSome
  split at hSome
  · rename_i hRange
    cases hSome
    exact .inl ⟨rfl, rfl, by omega, hRange⟩
  split at hSome
  · rename_i hRange
    cases hSome
    exact .inr (.inl ⟨rfl, rfl, by omega, hRange⟩)
  split at hSome
  · rename_i hRange
    cases hSome
    exact .inr (.inr ⟨rfl, rfl, by omega, hRange⟩)
  · cases hSome

/- The number that was put together has these bytes. -/
theorem follow_encodes
    {bits more least cp : Nat}
    (hLead : leadByte c.toNat = some (bits, more, least))
    (hRoom : more ≤ rest.length)
    (hFollow : followBytes bits (rest.take more) = some cp)
    (hAccept : least ≤ cp ∧
      (cp < 0xD800 ∨ 0xDFFF < cp ∧ cp < 0x110000)) :
    Encodes cp ((c :: rest.take more).map UInt8.toNat) := by
  rcases leadByte_some hLead with
    ⟨rfl, hLeast, hBits, hLow, hHigh⟩ |
    ⟨rfl, hLeast, hBits, hLow, hHigh⟩ |
    ⟨rfl, hLeast, hBits, hLow, hHigh⟩
  · obtain ⟨b, rest, rfl⟩ :=
      List.exists_cons_of_length_pos hRoom
    rw [List.take_succ_cons, List.take_zero] at hFollow ⊢
    obtain ⟨hB, hCp⟩ := followBytes_some hFollow
    obtain rfl := Option.some.inj hCp
    generalize hN : bits * 64 + b.toNat % 64 = n at hAccept
    have hBytes : [c, b].map UInt8.toNat =
        [n / 64 + 0xC0, n % 64 + 0x80] := by
      simp only [List.map_cons, List.map_nil,
        List.cons.injEq, and_true]
      omega
    rw [hBytes]
    exact .two (by omega) (by omega)
  · obtain ⟨b, rest, rfl⟩ :=
      List.exists_cons_of_length_pos
        (show 0 < rest.length by omega)
    rw [List.length_cons] at hRoom
    obtain ⟨b', rest, rfl⟩ :=
      List.exists_cons_of_length_pos
        (show 0 < rest.length by omega)
    rw [List.take_succ_cons, List.take_succ_cons,
      List.take_zero] at hFollow ⊢
    obtain ⟨hB, hNext⟩ := followBytes_some hFollow
    obtain ⟨hB', hCp⟩ := followBytes_some hNext
    obtain rfl := Option.some.inj hCp
    generalize hN : (bits * 64 + b.toNat % 64) * 64 +
      b'.toNat % 64 = n at hAccept
    have hBytes : [c, b, b'].map UInt8.toNat =
        [n / 4096 + 0xE0, n / 64 % 64 + 0x80,
          n % 64 + 0x80] := by
      simp only [List.map_cons, List.map_nil,
        List.cons.injEq, and_true]
      omega
    rw [hBytes]
    exact .three (by omega) (by omega) (by omega)
  · obtain ⟨b, rest, rfl⟩ :=
      List.exists_cons_of_length_pos
        (show 0 < rest.length by omega)
    rw [List.length_cons] at hRoom
    obtain ⟨b', rest, rfl⟩ :=
      List.exists_cons_of_length_pos
        (show 0 < rest.length by omega)
    rw [List.length_cons] at hRoom
    obtain ⟨b'', rest, rfl⟩ :=
      List.exists_cons_of_length_pos
        (show 0 < rest.length by omega)
    rw [List.take_succ_cons, List.take_succ_cons,
      List.take_succ_cons, List.take_zero] at hFollow ⊢
    obtain ⟨hB, hNext⟩ := followBytes_some hFollow
    obtain ⟨hB', hLast⟩ := followBytes_some hNext
    obtain ⟨hB'', hCp⟩ := followBytes_some hLast
    obtain rfl := Option.some.inj hCp
    generalize hN : ((bits * 64 + b.toNat % 64) * 64 +
      b'.toNat % 64) * 64 + b''.toNat % 64 = n at hAccept
    have hBytes : [c, b, b', b''].map UInt8.toNat =
        [n / 262144 + 0xF0, n / 4096 % 64 + 0x80,
          n / 64 % 64 + 0x80, n % 64 + 0x80] := by
      simp only [List.map_cons, List.map_nil,
        List.cons.injEq, and_true]
      omega
    rw [hBytes]
    exact .four (by omega) (by omega)

/- The bytes that are accepted are those of a character. -/
theorem glyphHead_sound
    {more : Nat}
    (hSome : glyphHead c rest = some more) :
    more ≤ rest.length ∧ ∃ ch : Char, 0x80 ≤ ch.toNat ∧
      String.utf8EncodeChar ch = c :: rest.take more := by
  unfold glyphHead at hSome
  cases hLead : leadByte c.toNat with
  | none =>
      rw [hLead] at hSome
      cases hSome
  | some lead =>
      obtain ⟨bits, count, least⟩ := lead
      rw [hLead] at hSome
      dsimp only at hSome
      split at hSome
      · cases hSome
      · rename_i hRoom
        cases hFollow : followBytes bits (rest.take count) with
        | none =>
            rw [hFollow] at hSome
            cases hSome
        | some cp =>
            rw [hFollow] at hSome
            dsimp only at hSome
            split at hSome
            · cases hSome
            · rename_i hAccept
              rw [Bool.not_eq_true, accepted_iff] at hAccept
              obtain rfl : count = more :=
                Option.some.inj hSome
              refine ⟨by omega, Char.ofNat cp, ?_, ?_⟩
              · rw [toNat_ofNat hAccept.2]
                rcases leadByte_some hLead with
                  hTwo | hThree | hFour
                · omega
                · omega
                · omega
              · refine utf8EncodeChar_ofNat _ hAccept.2 ?_
                exact follow_encodes hLead (by omega) hFollow
                  hAccept

/- Bytes that encode a number are accepted. -/
theorem glyphHead_of_follow
    {bits more least n : Nat}
    {bytes tail : List UInt8}
    (hLead : leadByte c.toNat = some (bits, more, least))
    (hMore : bytes.length = more)
    (hFollow : followBytes bits bytes = some n)
    (hLeast : least ≤ n)
    (hScalar : n < 0xD800 ∨ 0xDFFF < n ∧ n < 0x110000) :
    glyphHead c (bytes ++ tail) = some more := by
  subst hMore
  unfold glyphHead
  rw [hLead]
  dsimp only
  rw [List.length_append, if_neg (by omega), List.take_left,
    hFollow]
  dsimp only
  rw [accepted_iff.mpr ⟨hLeast, hScalar⟩]
  rfl

theorem narrow_iff (c : UInt8) :
    c < 128 ↔ c.toNat < 0x80 :=
  UInt8.lt_iff_toNat_lt

/- One byte that follows, as a number. -/
theorem followBytes_ofNat
    {cp x : Nat}
    (hByte : x < 64) :
    followBytes cp (UInt8.ofNat (x + 0x80) :: rest) =
      followBytes (cp * 64 + x) rest := by
  have hNat : (UInt8.ofNat (x + 0x80)).toNat = x + 0x80 :=
    toNat_ofNat_byte (by omega)
  rw [followBytes_cons (by rw [hNat]; omega), hNat]
  congr 1
  omega

variable {ch : Char}

/- A character beyond ASCII is accepted. -/
theorem glyphHead_complete
    (hWide : 0x80 ≤ ch.toNat)
    (tail : List UInt8) :
    ∃ c rest, String.utf8EncodeChar ch = c :: rest ∧
      ¬c < 128 ∧
      glyphHead c (rest ++ tail) = some rest.length := by
  obtain ⟨bytes, hBytes⟩ := encodes_toNat ch
  have hScalar := toNat_cases ch
  rw [utf8EncodeChar_eq ch hBytes]
  generalize ch.toNat = n at hWide hBytes hScalar
  cases hBytes with
  | one hRange => omega
  | two hLow hHigh =>
      have hFirst : (UInt8.ofNat (n / 64 + 0xC0)).toNat =
          n / 64 + 0xC0 := toNat_ofNat_byte (by omega)
      refine ⟨_, _, rfl, ?_, ?_⟩
      · rw [narrow_iff, hFirst]
        omega
      · have hLead : leadByte (n / 64 + 0xC0) =
            some (n / 64, 1, 0x80) := by
          have hBits : (n / 64 + 0xC0) &&& 31 =
              (n / 64 + 0xC0) % 32 :=
            Nat.and_two_pow_sub_one_eq_mod _ 5
          unfold leadByte
          rw [if_pos (by omega), hBits]
          congr 2
          omega
        rw [← hFirst] at hLead
        refine glyphHead_of_follow (n := n) hLead rfl ?_
          hLow (by omega)
        rw [List.map_cons, List.map_nil,
          followBytes_ofNat (by omega), followBytes]
        congr 1
        omega
  | three hLow hHigh hGap =>
      have hFirst : (UInt8.ofNat (n / 4096 + 0xE0)).toNat =
          n / 4096 + 0xE0 := toNat_ofNat_byte (by omega)
      refine ⟨_, _, rfl, ?_, ?_⟩
      · rw [narrow_iff, hFirst]
        omega
      · have hLead : leadByte (n / 4096 + 0xE0) =
            some (n / 4096, 2, 0x800) := by
          have hBits : (n / 4096 + 0xE0) &&& 15 =
              (n / 4096 + 0xE0) % 16 :=
            Nat.and_two_pow_sub_one_eq_mod _ 4
          unfold leadByte
          rw [if_neg (by omega), if_pos (by omega), hBits]
          congr 2
          omega
        rw [← hFirst] at hLead
        refine glyphHead_of_follow (n := n) hLead rfl ?_
          hLow (by omega)
        rw [List.map_cons, List.map_cons, List.map_nil,
          followBytes_ofNat (by omega),
          followBytes_ofNat (by omega), followBytes]
        congr 1
        omega
  | four hLow hHigh =>
      have hFirst : (UInt8.ofNat (n / 262144 + 0xF0)).toNat =
          n / 262144 + 0xF0 := toNat_ofNat_byte (by omega)
      refine ⟨_, _, rfl, ?_, ?_⟩
      · rw [narrow_iff, hFirst]
        omega
      · have hLead : leadByte (n / 262144 + 0xF0) =
            some (n / 262144, 3, 0x10000) := by
          have hBits : (n / 262144 + 0xF0) &&& 7 =
              (n / 262144 + 0xF0) % 8 :=
            Nat.and_two_pow_sub_one_eq_mod _ 3
          unfold leadByte
          rw [if_neg (by omega), if_neg (by omega),
            if_pos (by omega), hBits]
          congr 2
          omega
        rw [← hFirst] at hLead
        refine glyphHead_of_follow (n := n) hLead rfl ?_
          hLow (by omega)
        rw [List.map_cons, List.map_cons, List.map_cons,
          List.map_nil, followBytes_ofNat (by omega),
          followBytes_ofNat (by omega),
          followBytes_ofNat (by omega), followBytes]
        congr 1
        omega

/- A byte of ASCII is a character of its own. -/
theorem encode_ascii
    (hNarrow : c < 128) :
    String.utf8EncodeChar (Char.ofNat c.toNat) = [c] ∧
      (Char.ofNat c.toNat).toNat = c.toNat := by
  rw [narrow_iff] at hNarrow
  exact ⟨utf8EncodeChar_ofNat [c] (.inl (by omega))
    (.one hNarrow), toNat_ofNat (.inl (by omega))⟩

/- A first byte of ASCII is the first character. -/
theorem head_ascii
    {rest tail : List UInt8}
    (hNarrow : c < 128)
    (hBytes : String.utf8EncodeChar ch ++ tail = c :: rest) :
    ch.toNat = c.toNat ∧ tail = rest := by
  by_cases hWide : 0x80 ≤ ch.toNat
  · obtain ⟨c', rest', hEq, hNot, -⟩ :=
      glyphHead_complete hWide []
    rw [hEq, List.cons_append, List.cons.injEq] at hBytes
    exact absurd (hBytes.1 ▸ hNarrow) hNot
  · have hOne := utf8EncodeChar_eq ch (.one (by omega))
    rw [hOne, List.map_cons, List.map_nil, List.cons_append,
      List.nil_append, List.cons.injEq] at hBytes
    rw [← hBytes.1, toNat_ofNat_byte (by omega)]
    exact ⟨rfl, hBytes.2⟩

/- Control characters, by their byte. -/
theorem control_iff
    (hSame : ch.toNat = c.toNat) :
    (c < 32 || c == 127) = false ↔ Printable ch := by
  have hLow : c < 32 ↔ c.toNat < 0x20 :=
    UInt8.lt_iff_toNat_lt
  have hDel : c = 127 ↔ c.toNat = 0x7F :=
    UInt8.toNat_inj.symm
  unfold Printable
  rw [hSame, Bool.or_eq_false_iff, decide_eq_false_iff_not,
    beq_eq_false_iff_ne, ne_eq, hLow, hDel, not_lt]

theorem printable_wide
    (hWide : 0x80 ≤ ch.toNat) :
    Printable ch :=
  ⟨by omega, by omega⟩

/- A first byte beyond ASCII begins a character. -/
theorem head_wide
    {rest tail : List UInt8}
    (hNot : ¬c < 128)
    (hBytes : String.utf8EncodeChar ch ++ tail = c :: rest) :
    glyphHead c rest =
      some ((String.utf8EncodeChar ch).length - 1) := by
  by_cases hWide : 0x80 ≤ ch.toNat
  · obtain ⟨c', rest', hEq, -, hHead⟩ :=
      glyphHead_complete hWide tail
    rw [hEq, List.cons_append, List.cons.injEq] at hBytes
    rw [← hBytes.1, ← hBytes.2, hHead, hEq]
    rfl
  · have hOne := utf8EncodeChar_eq ch (.one (by omega))
    rw [hOne, List.map_cons, List.map_nil, List.cons_append,
      List.nil_append, List.cons.injEq] at hBytes
    rw [narrow_iff, ← hBytes.1, toNat_ofNat_byte (by omega)]
      at hNot
    omega

theorem glyphCount_nil (fuel k : Nat) :
    glyphCount fuel [] = some k ↔
      ∃ text, encode text = [] ∧ text.length = k ∧
        ∀ ch ∈ text, Printable ch := by
  have hCount : glyphCount fuel [] = some 0 := by
    cases fuel with
    | zero => rfl
    | succ fuel => rfl
  rw [hCount, Option.some.injEq]
  constructor
  · rintro rfl
    exact ⟨[], rfl, rfl, nofun⟩
  · rintro ⟨text, hText, rfl, -⟩
    have hNone : text = [] := encode_injective hText
    rw [hNone]
    rfl

/- One more character in front of a text. -/
theorem printable_cons
    {ch : Char}
    {tail : List UInt8}
    {k : Nat}
    (hFirst : Printable ch) :
    (∃ text, encode text = String.utf8EncodeChar ch ++ tail ∧
        text.length = k ∧ ∀ x ∈ text, Printable x) ↔
      ∃ k', k' + 1 = k ∧
        ∃ text, encode text = tail ∧ text.length = k' ∧
          ∀ x ∈ text, Printable x := by
  constructor
  · rintro ⟨text, hEncode, hLength, hAll⟩
    have hText : text =
        ch :: decode tail := by
      have hDecoded := decode_char_append ch tail
      rw [← hEncode, decode_encode] at hDecoded
      exact hDecoded
    subst hText
    rw [encode_cons, List.append_cancel_left_eq] at hEncode
    exact ⟨_, hLength, _, hEncode, rfl,
      fun x hMem => hAll x (List.mem_cons_of_mem _ hMem)⟩
  · rintro ⟨k', rfl, text, rfl, rfl, hAll⟩
    refine ⟨ch :: text, rfl, rfl, ?_⟩
    intro x hMem
    rcases List.mem_cons.mp hMem with rfl | hLater
    · exact hFirst
    · exact hAll x hLater

/-
  The count is the number of characters of the text that the
  bytes encode, when it has no control characters.
-/
theorem glyphCount_iff
    {fuel k : Nat}
    {bytes : List UInt8}
    (hFuel : bytes.length ≤ fuel) :
    glyphCount fuel bytes = some k ↔
      ∃ text, encode text = bytes ∧ text.length = k ∧
        ∀ ch ∈ text, Printable ch := by
  induction fuel generalizing bytes k with
  | zero =>
      obtain rfl : bytes = [] := by
        simpa using hFuel
      exact glyphCount_nil 0 k
  | succ fuel ih =>
      cases bytes with
      | nil => exact glyphCount_nil (fuel + 1) k
      | cons c rest =>
          rw [List.length_cons] at hFuel
          by_cases hNarrow : c < 128
          · obtain ⟨hEncode, hSame⟩ := encode_ascii hNarrow
            rw [glyphCount, if_pos hNarrow]
            by_cases hPrintable :
                (c < 32 || c == 127) = false
            · rw [hPrintable]
              rw [control_iff hSame] at hPrintable
              have hFront := @printable_cons
                (Char.ofNat c.toNat) rest k hPrintable
              rw [hEncode, List.singleton_append] at hFront
              rw [hFront, if_neg (by decide),
                Option.map_eq_some_iff]
              refine exists_congr fun k' => ?_
              rw [ih (by omega), and_comm]
            · rw [Bool.not_eq_false] at hPrintable
              rw [if_pos hPrintable]
              refine iff_of_false (by simp) ?_
              rintro ⟨text, hText, -, hAll⟩
              cases text with
              | nil => cases hText
              | cons ch text =>
                  rw [encode_cons] at hText
                  obtain ⟨hCh, -⟩ := head_ascii hNarrow hText
                  have hNot := (control_iff hCh).mpr
                    (hAll ch List.mem_cons_self)
                  rw [hPrintable] at hNot
                  cases hNot
          · rw [glyphCount_head hNarrow]
            cases hHead : glyphHead c rest with
            | none =>
                refine iff_of_false (by simp) ?_
                rintro ⟨text, hText, -, -⟩
                cases text with
                | nil => cases hText
                | cons ch text =>
                    rw [encode_cons] at hText
                    rw [head_wide hNarrow hText] at hHead
                    cases hHead
            | some more =>
                obtain ⟨hRoom, ch, hWide, hEncode⟩ :=
                  glyphHead_sound hHead
                have hFront := @printable_cons ch
                  (rest.drop more) k (printable_wide hWide)
                rw [hEncode, List.cons_append,
                  List.take_append_drop] at hFront
                rw [hFront, Option.map_eq_some_iff]
                refine exists_congr fun k' => ?_
                rw [ih (by
                  rw [List.length_drop]
                  omega), and_comm]

--
-- Reads
--

/- The loop over bytes that follow, with the bytes it reads. -/
def followBytesAt
    (p : Buf) :
    (more i cp : Nat) → Option Nat × List Nat
  | 0, _, cp => (some cp, [])
  | more + 1, i, cp =>
      if p i &&& 0xC0 != 0x80 then (none, [i])
      else
        let r := followBytesAt p more (i + 1)
          (cp <<< 6 ||| ((p i).toNat &&& 63))
        (r.1, i :: r.2)

/- `glyph_count` from a byte on, with the bytes it reads. -/
def glyphCountAt
    (p : Buf)
    (n : Nat) :
    (fuel i glyphs : Nat) → Option Nat × List Nat
  | 0, _, glyphs => (some glyphs, [])
  | fuel + 1, i, glyphs =>
      if i < n then
        if p i < 128 then
          if p i < 32 || p i == 127 then (none, [i])
          else
            let r := glyphCountAt p n fuel (i + 1) (glyphs + 1)
            (r.1, i :: r.2)
        else
          match leadByte (p i).toNat with
          | none => (none, [i])
          | some (bits, more, least) =>
              if more > n - (i + 1) then (none, [i])
              else
                match followBytesAt p more (i + 1) bits with
                | (none, reads) => (none, i :: reads)
                | (some cp, reads) =>
                    if cp < least || cp > 0x10FFFF ||
                        (cp ≥ 0xD800 && cp ≤ 0xDFFF) then
                      (none, i :: reads)
                    else
                      let r := glyphCountAt p n fuel
                        (i + 1 + more) (glyphs + 1)
                      (r.1, i :: (reads ++ r.2))
      else
        (some glyphs, [])

/- The `int` that `glyph_count` returns. -/
def glyphCountInt
    (p : Buf)
    (n : Nat) : Int :=
  match (glyphCountAt p n n 0 0).1 with
  | none => -1
  | some glyphs => signed (glyphs % 2 ^ 32)

section Reads

variable {p : Buf} {n : Nat}

theorem drop_toList
    {i : Nat}
    (hIn : i < n) :
    (p.toList n).drop i = p i :: (p.toList n).drop (i + 1) := by
  have hLength : i < (p.toList n).length := by
    simpa [Buf.toList] using hIn
  rw [List.drop_eq_getElem_cons hLength]
  congr 1
  simp [Buf.toList]

theorem followBytesAt_spec
    {more i cp : Nat}
    (hRoom : i + more ≤ n) :
    (followBytesAt p more i cp).1 =
        followBytes cp (((p.toList n).drop i).take more) ∧
      ∀ j ∈ (followBytesAt p more i cp).2, j < n := by
  induction more generalizing i cp with
  | zero => exact ⟨by simp [followBytesAt, followBytes], nofun⟩
  | succ more ih =>
      rw [drop_toList (by omega), List.take_succ_cons,
        followBytesAt, followBytes]
      split
      · refine ⟨rfl, ?_⟩
        intro j hMem
        rw [List.mem_singleton] at hMem
        omega
      · obtain ⟨hResult, hReads⟩ := @ih (i + 1)
          (cp <<< 6 ||| ((p i).toNat &&& 63)) (by omega)
        refine ⟨hResult, ?_⟩
        intro j hMem
        rcases List.mem_cons.mp hMem with rfl | hLater
        · omega
        · exact hReads j hLater

theorem drop_toList_end
    {i : Nat}
    (hOut : n ≤ i) :
    (p.toList n).drop i = [] := by
  rw [List.drop_eq_nil_iff]
  simpa [Buf.toList] using hOut

/- The loop counts the glyphs and stays below the end. -/
theorem glyphCountAt_spec
    {fuel i glyphs : Nat}
    (hFuel : n - i ≤ fuel) :
    (glyphCountAt p n fuel i glyphs).1 =
        (glyphCount fuel ((p.toList n).drop i)).map
          (· + glyphs) ∧
      ∀ j ∈ (glyphCountAt p n fuel i glyphs).2, j < n := by
  induction fuel generalizing i glyphs with
  | zero =>
      rw [drop_toList_end (by omega)]
      exact ⟨by simp [glyphCountAt, glyphCount], nofun⟩
  | succ fuel ih =>
      by_cases hIn : i < n
      · have hOne : ∀ j ∈ [i], j < n := by
          intro j hMem
          rw [List.mem_singleton] at hMem
          omega
        rw [drop_toList hIn, glyphCountAt, if_pos hIn]
        by_cases hNarrow : p i < 128
        · rw [if_pos hNarrow, glyphCount, if_pos hNarrow]
          split
          · exact ⟨rfl, hOne⟩
          · obtain ⟨hResult, hReads⟩ := @ih (i + 1)
              (glyphs + 1) (by omega)
            refine ⟨?_, List.forall_mem_cons.mpr
              ⟨hIn, hReads⟩⟩
            rw [hResult, Option.map_map]
            congr 1
            funext k
            exact (Nat.add_right_comm k 1 glyphs).symm
        · rw [if_neg hNarrow, glyphCount, if_neg hNarrow]
          have hLength : ((p.toList n).drop (i + 1)).length =
              n - (i + 1) := by
            simp [Buf.toList]
          cases leadByte (p i).toNat with
          | none => exact ⟨rfl, hOne⟩
          | some lead =>
              obtain ⟨bits, more, least⟩ := lead
              dsimp only
              rw [hLength]
              split
              · exact ⟨rfl, hOne⟩
              · rename_i hRoom
                obtain ⟨hFollow, hRead⟩ :=
                  @followBytesAt_spec p n more (i + 1) bits
                    (by omega)
                rw [← hFollow]
                generalize followBytesAt p more (i + 1) bits =
                  r at hRead
                obtain ⟨found, reads⟩ := r
                have hFirst : ∀ j ∈ i :: reads, j < n :=
                  List.forall_mem_cons.mpr ⟨hIn, hRead⟩
                cases found with
                | none => exact ⟨rfl, hFirst⟩
                | some cp =>
                    dsimp only
                    split
                    · exact ⟨rfl, hFirst⟩
                    · obtain ⟨hResult, hReads⟩ :=
                        @ih (i + 1 + more) (glyphs + 1)
                          (by omega)
                      refine ⟨?_, ?_⟩
                      · rw [List.drop_drop]
                        dsimp only
                        rw [hResult, Option.map_map]
                        congr 1
                        funext k
                        exact
                          (Nat.add_right_comm k 1 glyphs).symm
                      · intro j hMem
                        rw [← List.cons_append,
                          List.mem_append] at hMem
                        exact hMem.elim (hFirst j) (hReads j)
      · rw [drop_toList_end (by omega), glyphCountAt,
          if_neg hIn]
        exact ⟨by simp [glyphCount], nofun⟩

/- The model that other functions use is the same. -/
theorem glyphCountAt_glyphs :
    (glyphCountAt p n n 0 0).1 = glyphs p n := by
  have hSpec := (@glyphCountAt_spec p n n 0 0 (by omega)).1
  rw [hSpec, List.drop_zero]
  simp [glyphs]

end Reads

theorem length_le_encode (text : List Char) :
    text.length ≤ (encode text).length := by
  induction text with
  | nil => exact Nat.le_refl 0
  | cons ch text ih =>
      have hPos := String.length_utf8EncodeChar ch
      rw [encode_cons, List.length_append, List.length_cons]
      have hSize := ch.utf8Size_pos
      omega

/-
  For any bytes, as many as an `int` counts: the result is
  the number of characters of the text that the bytes encode
  when none is a control character, else -1, and only these
  bytes are read.
-/
theorem glyphCountInt_exact
    (p : Buf)
    (n : Nat)
    (hFits : n < 2 ^ 31) :
    (∀ text, encode text = p.toList n →
      (∀ ch ∈ text, Printable ch) →
        glyphCountInt p n = text.length) ∧
    ((¬∃ text, encode text = p.toList n ∧
      ∀ ch ∈ text, Printable ch) → glyphCountInt p n = -1) ∧
    ∀ j ∈ (glyphCountAt p n n 0 0).2, j < n := by
  have hLength : (p.toList n).length ≤ n := by
    simp [Buf.toList]
  have hIff (k : Nat) := @glyphCount_iff n k _ hLength
  refine ⟨?_, ?_, (glyphCountAt_spec (by omega)).2⟩
  · intro text hEncode hAll
    have hCount := (hIff text.length).mpr
      ⟨text, hEncode, rfl, hAll⟩
    have hShort : text.length ≤ n := by
      refine Nat.le_trans ?_ hLength
      rw [← hEncode]
      exact length_le_encode text
    unfold glyphCountInt
    rw [glyphCountAt_glyphs, glyphs, hCount]
    dsimp only
    unfold signed
    rw [Nat.mod_eq_of_lt (by omega), if_pos (by omega)]
  · intro hNone
    unfold glyphCountInt
    rw [glyphCountAt_glyphs, glyphs]
    cases hCount : glyphCount n (p.toList n) with
    | none => rfl
    | some k =>
        obtain ⟨text, hEncode, -, hAll⟩ := (hIff k).mp hCount
        exact absurd ⟨text, hEncode, hAll⟩ hNone

/- A letter and a letter with an accent, of two bytes. -/
theorem glyphCountInt_exact_accent :
    (∀ text, encode text =
        (Buf.ofList [0x41, 0xC3, 0xA9]).toList 3 →
      (∀ ch ∈ text, Printable ch) →
        glyphCountInt (Buf.ofList [0x41, 0xC3, 0xA9]) 3 =
          text.length) ∧
    ((¬∃ text, encode text =
        (Buf.ofList [0x41, 0xC3, 0xA9]).toList 3 ∧
      ∀ ch ∈ text, Printable ch) →
        glyphCountInt (Buf.ofList [0x41, 0xC3, 0xA9]) 3 =
          -1) ∧
    ∀ j ∈ (glyphCountAt (Buf.ofList [0x41, 0xC3, 0xA9]) 3 3 0
      0).2, j < 3 :=
  glyphCountInt_exact _ 3 (by decide)

example :
    glyphCountInt (Buf.ofList [0x41, 0xC3, 0xA9]) 3 = 2 := by
  decide

end KvantOS.User
