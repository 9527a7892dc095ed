import KvantOS.Data.Utf8
import KvantOS.Data.Word

/-
  This file studies the places between the characters of
  encoded text: in text that is well formed they are the
  places before a byte that is not a continuation.

  Key definitions include:
    * `Continues`, `Boundary`, `Aligned`

  Key theorems include:
    * `boundary_iff`
    * `Valid.append`, `Valid.right`, `Valid.left`
    * `Boundary.replace`
-/

namespace Utf8

/- A byte that continues a character. -/
def Continues (b : UInt8) : Prop :=
  0x80 ≤ b.toNat ∧ b.toNat < 0xC0

/- A place between two characters, or at an end. -/
structure Boundary
    (bytes : List UInt8)
    (i : Nat) : Prop where
  inside : i ≤ bytes.length
  before : Valid (bytes.take i)
  after : Valid (bytes.drop i)

/- A place where no character goes on, in any bytes. -/
structure Aligned
    (bytes : List UInt8)
    (i : Nat) : Prop where
  inside : i ≤ bytes.length
  first : ∀ b, bytes[i]? = some b → ¬Continues b

variable {bytes more : List UInt8} {b : UInt8} {i j : Nat}

/- The two high bits of a byte tell. -/
theorem and_eq_continues (b : UInt8) :
    b &&& 0xC0 = 0x80 ↔ Continues b := by
  have hMask : b.toNat &&& 0xC0 = b.toNat / 64 * 64 :=
    KvantOS.Word.and_high (w := 8) (k := 6) b.toNat_lt
      (by decide)
  unfold Continues
  rw [← UInt8.toNat_inj, UInt8.toNat_and]
  change b.toNat &&& 0xC0 = 0x80 ↔ _
  omega

theorem toNat_ofNat_byte
    {n : Nat}
    (hByte : n < 256) :
    (UInt8.ofNat n).toNat = n :=
  UInt8.toNat_ofNat_of_lt hByte

/-
  The first byte begins a character, the others continue; a
  byte below 0x80 is a character of its own.
-/
theorem encodeChar_shape (c : Char) :
    ∃ first rest, String.utf8EncodeChar c = first :: rest ∧
      ¬Continues first ∧ (∀ x ∈ rest, Continues x) ∧
      (first.toNat < 0x80 → rest = []) := by
  obtain ⟨encoded, hBytes⟩ := encodes_toNat c
  have hLow := hBytes.lt
  rw [utf8EncodeChar_eq c hBytes]
  have hTail (x : Nat) (hx : x < 64) :
      Continues (UInt8.ofNat (x + 0x80)) := by
    unfold Continues
    rw [toNat_ofNat_byte (by omega)]
    omega
  have hHead (x : Nat) (hx : x < 256)
      (hNot : ¬(0x80 ≤ x ∧ x < 0xC0)) :
      ¬Continues (UInt8.ofNat x) := by
    unfold Continues
    rw [toNat_ofNat_byte hx]
    exact hNot
  have hMod (x : Nat) : x % 64 < 64 :=
    Nat.mod_lt x (by decide)
  have hLong (x : Nat) (hx : x < 256) (hMore : 0x80 ≤ x)
      (rest : List UInt8) :
      (UInt8.ofNat x).toNat < 0x80 → rest = [] := by
    rw [toNat_ofNat_byte hx]
    omega
  generalize c.toNat = n at hBytes
  cases hBytes with
  | one hRange =>
      exact ⟨_, _, rfl, hHead _ (by omega) (by omega), nofun,
        fun _ => rfl⟩
  | two hLow hHigh =>
      refine ⟨_, _, rfl, hHead _ (by omega) (by omega), ?_,
        hLong _ (by omega) (by omega) _⟩
      simp only [List.map_cons, List.map_nil,
        List.forall_mem_cons]
      exact ⟨hTail _ (hMod _), nofun⟩
  | three hLow hHigh hGap =>
      refine ⟨_, _, rfl, hHead _ (by omega) (by omega), ?_,
        hLong _ (by omega) (by omega) _⟩
      simp only [List.map_cons, List.map_nil,
        List.forall_mem_cons]
      exact ⟨hTail _ (hMod _), hTail _ (hMod _), nofun⟩
  | four hLow hHigh =>
      refine ⟨_, _, rfl, hHead _ (by omega) (by omega), ?_,
        hLong _ (by omega) (by omega) _⟩
      simp only [List.map_cons, List.map_nil,
        List.forall_mem_cons]
      exact ⟨hTail _ (hMod _), hTail _ (hMod _),
        hTail _ (hMod _), nofun⟩

--
-- Well-Formed Text
--

theorem valid_nil : Valid [] :=
  ⟨[], rfl⟩

theorem Valid.append
    (hValid : Valid bytes)
    (hMore : Valid more) :
    Valid (bytes ++ more) := by
  obtain ⟨text, rfl⟩ := hValid
  obtain ⟨text', rfl⟩ := hMore
  exact ⟨text ++ text', encode_append text text'⟩

/- What follows well-formed text in such a text is one. -/
theorem Valid.right
    (hAll : Valid (bytes ++ more))
    (hValid : Valid bytes) :
    Valid more := by
  obtain ⟨all, hAll⟩ := hAll
  obtain ⟨text, rfl⟩ := hValid
  have hText := decode_encode_append text more
  rw [← hAll, decode_encode] at hText
  rw [hText, encode_append] at hAll
  exact ⟨decode more, List.append_cancel_left hAll⟩

/- The first byte of a text begins a character. -/
theorem Valid.head
    (hValid : Valid (b :: bytes)) :
    ¬Continues b := by
  obtain ⟨text, hText⟩ := hValid
  cases text with
  | nil => cases hText
  | cons c text =>
      obtain ⟨first, rest, hChar, hFirst, -, -⟩ :=
        encodeChar_shape c
      rw [encode_cons, hChar, List.cons_append,
        List.cons.injEq] at hText
      rw [← hText.1]
      exact hFirst

--
-- Boundaries
--

theorem boundary_zero
    (hValid : Valid bytes) :
    Boundary bytes 0 :=
  ⟨Nat.zero_le _, valid_nil, hValid⟩

theorem boundary_length
    (hValid : Valid bytes) :
    Boundary bytes bytes.length where
  inside := Nat.le_refl _
  before := by
    rw [List.take_length]
    exact hValid
  after := by
    rw [List.drop_length]
    exact valid_nil

/- A place where two texts meet. -/
theorem boundary_append
    (hValid : Valid bytes)
    (hMore : Valid more) :
    Boundary (bytes ++ more) bytes.length where
  inside := by simp
  before := by
    rw [List.take_left]
    exact hValid
  after := by
    rw [List.drop_left]
    exact hMore

/- No byte at a boundary continues a character. -/
theorem Boundary.first
    (hBoundary : Boundary bytes i)
    (hByte : bytes[i]? = some b) :
    ¬Continues b := by
  obtain ⟨hIn, rfl⟩ := List.getElem?_eq_some_iff.mp hByte
  have hAfter := hBoundary.after
  rw [List.drop_eq_getElem_cons hIn] at hAfter
  exact hAfter.head

/- A place before a byte that continues nothing. -/
theorem Aligned.boundary
    (hAligned : Aligned bytes i)
    (hValid : Valid bytes) :
    Boundary bytes i := by
  obtain ⟨hInside, hFirst⟩ := hAligned
  obtain ⟨text, rfl⟩ := hValid
  induction text generalizing i with
  | nil =>
      obtain rfl : i = 0 := by
        simpa using hInside
      exact boundary_zero valid_nil
  | cons c text ih =>
      rw [encode_cons] at hInside hFirst ⊢
      by_cases hZero : i = 0
      · rw [hZero]
        exact boundary_zero ⟨c :: text, rfl⟩
      · by_cases hHere : i < (String.utf8EncodeChar c).length
        · -- the other bytes of the character continue it
          obtain ⟨first, rest, hChar, -, hRest, -⟩ :=
            encodeChar_shape c
          rw [hChar] at hHere hFirst
          obtain ⟨k, rfl⟩ : ∃ k, i = k + 1 :=
            ⟨i - 1, by omega⟩
          rw [List.length_cons] at hHere
          have hIn : k < rest.length := by omega
          refine absurd (hRest _ (List.getElem_mem hIn))
            (hFirst _ ?_)
          rw [List.cons_append, List.getElem?_cons_succ,
            List.getElem?_append_left hIn,
            List.getElem?_eq_getElem hIn]
        · have hLater := @ih
            (i - (String.utf8EncodeChar c).length)
            (by
              rw [List.length_append] at hInside
              omega)
            (fun b hByte => hFirst b (by
              rw [List.getElem?_append_right (by omega)]
              exact hByte))
          refine ⟨hInside, ?_, ?_⟩
          · rw [List.take_append,
              List.take_of_length_le (by omega)]
            refine Valid.append ⟨[c], ?_⟩ hLater.before
            rw [encode_cons, encode_nil, List.append_nil]
          · rw [List.drop_append,
              List.drop_of_length_le (by omega),
              List.nil_append]
            exact hLater.after

theorem boundary_iff (hValid : Valid bytes) :
    Boundary bytes i ↔ Aligned bytes i :=
  ⟨fun hBoundary => ⟨hBoundary.inside,
      fun _ hByte => hBoundary.first hByte⟩,
    fun hAligned => hAligned.boundary hValid⟩

/- What precedes well-formed text in such a text is one. -/
theorem Valid.left
    (hAll : Valid (bytes ++ more))
    (hMore : Valid more) :
    Valid bytes := by
  have hPlace : Boundary (bytes ++ more) bytes.length := by
    refine Aligned.boundary ⟨by simp, ?_⟩ hAll
    intro b hByte
    rw [List.getElem?_append_right (Nat.le_refl _),
      Nat.sub_self] at hByte
    exact (boundary_zero hMore).first hByte
  have hBefore := hPlace.before
  rwa [List.take_left] at hBefore

/- The bytes between two boundaries are a text. -/
theorem Boundary.between
    (hFrom : Boundary bytes i)
    (hTo : Boundary bytes j)
    (hOrder : i ≤ j) :
    Valid ((bytes.drop i).take (j - i)) := by
  have hAfter := hFrom.after
  rw [← List.take_append_drop (j - i) (bytes.drop i),
    List.drop_drop, Nat.add_sub_cancel' hOrder] at hAfter
  exact hAfter.left hTo.after

/- A text in the place of what two boundaries enclose. -/
theorem Boundary.replace
    (hFrom : Boundary bytes i)
    (hTo : Boundary bytes j)
    (hMore : Valid more) :
    Valid (bytes.take i ++ more ++ bytes.drop j) ∧
      Boundary (bytes.take i ++ more ++ bytes.drop j)
        (i + more.length) := by
  have hBefore := hFrom.before.append hMore
  refine ⟨hBefore.append hTo.after, ?_⟩
  have hPlace := boundary_append hBefore hTo.after
  rwa [List.length_append, List.length_take,
    Nat.min_eq_left hFrom.inside] at hPlace

/- A text that stands at a boundary ends at one. -/
theorem Boundary.skip
    (hFrom : Boundary bytes i)
    (hMore : Valid more)
    (hHere : (bytes.drop i).take more.length = more)
    (hInside : i + more.length ≤ bytes.length) :
    Boundary bytes (i + more.length) := by
  have hAfter := hFrom.after
  rw [← List.take_append_drop more.length (bytes.drop i),
    hHere] at hAfter
  have hRest := hAfter.right hMore
  rw [List.drop_drop] at hRest
  refine ⟨hInside, ?_, hRest⟩
  rw [List.take_add, hHere]
  exact hFrom.before.append hMore

/- A place is a boundary, or else it is behind the end. -/
theorem boundary_min_iff (hValid : Valid bytes) :
    Boundary bytes (min i bytes.length) ↔
      (i ≤ bytes.length → Aligned bytes i) := by
  rcases Nat.le_total i bytes.length with hInside | hBehind
  · rw [Nat.min_eq_left hInside, boundary_iff hValid]
    exact ⟨fun hAligned _ => hAligned,
      fun hAligned => hAligned hInside⟩
  · rw [Nat.min_eq_right hBehind]
    refine iff_of_true (boundary_length hValid) ?_
    intro hInside
    obtain rfl := Nat.le_antisymm hInside hBehind
    exact (boundary_iff hValid).mp (boundary_length hValid)

/- In the first of two strings. -/
theorem aligned_left
    (hIn : i < bytes.length) :
    Aligned (bytes ++ more) i ↔ Aligned bytes i := by
  have hByte : (bytes ++ more)[i]? = bytes[i]? :=
    List.getElem?_append_left hIn
  constructor
  · intro hAligned
    exact ⟨Nat.le_of_lt hIn, fun b hb =>
      hAligned.first b (hByte.trans hb)⟩
  · intro hAligned
    refine ⟨?_, fun b hb =>
      hAligned.first b (hByte.symm.trans hb)⟩
    rw [List.length_append]
    omega

/- In the second of two strings. -/
theorem aligned_right
    (hBehind : bytes.length ≤ i) :
    Aligned (bytes ++ more) i ↔
      Aligned more (i - bytes.length) := by
  have hByte : (bytes ++ more)[i]? =
      more[i - bytes.length]? :=
    List.getElem?_append_right hBehind
  constructor
  · intro hAligned
    have hInside := hAligned.inside
    rw [List.length_append] at hInside
    exact ⟨by omega, fun b hb =>
      hAligned.first b (hByte.trans hb)⟩
  · intro hAligned
    have hInside := hAligned.inside
    refine ⟨?_, fun b hb =>
      hAligned.first b (hByte.symm.trans hb)⟩
    rw [List.length_append]
    omega

end Utf8
