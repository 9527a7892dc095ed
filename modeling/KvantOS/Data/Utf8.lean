import Mathlib

/-
  This file defines UTF-8 encoding and a total decoder that
  puts one replacement character for every maximal part of a
  sequence that is not UTF-8.

  Key definitions include:
    * `Utf8.encode`, `Utf8.decode`, `Utf8.Valid`

  Key theorems include:
    * `Utf8.decode_encode_append`, `Utf8.decode_split`
    * `Utf8.decode_cut`, `Utf8.take_encode`
-/

namespace Utf8

def encode (text : List Char) : List UInt8 :=
  text.flatMap String.utf8EncodeChar

@[simp]
theorem encode_nil : encode [] = [] :=
  rfl

@[simp]
theorem encode_cons
    (c : Char)
    (text : List Char) :
    encode (c :: text) =
      String.utf8EncodeChar c ++ encode text :=
  rfl

@[simp]
theorem encode_append
    (text text' : List Char) :
    encode (text ++ text') = encode text ++ encode text' :=
  List.flatMap_append

/- The bytes are the encoding of some text. -/
def Valid (bytes : List UInt8) : Prop :=
  ∃ text, encode text = bytes

--
-- Decoding
--

/- The replacement character. -/
def replacement : Char :=
  Char.ofNat 0xFFFD

/-
  A character under way: its bits so far, the range of its
  next byte, and how many bytes come after that one.
-/
structure Pending where
  code : Nat
  low : Nat
  high : Nat
  rest : Nat

/- What the first byte of a character emits or begins. -/
def lead (b : Nat) : List Char × Option Pending :=
  if b < 0x80 then
    ([Char.ofNat b], none)
  else if 0xC2 ≤ b ∧ b ≤ 0xDF then
    ([], some ⟨b - 0xC0, 0x80, 0xBF, 0⟩)
  else if b = 0xE0 then
    ([], some ⟨0, 0xA0, 0xBF, 1⟩)
  else if b = 0xED then
    ([], some ⟨0xD, 0x80, 0x9F, 1⟩)
  else if 0xE1 ≤ b ∧ b ≤ 0xEF then
    ([], some ⟨b - 0xE0, 0x80, 0xBF, 1⟩)
  else if b = 0xF0 then
    ([], some ⟨0, 0x90, 0xBF, 2⟩)
  else if b = 0xF4 then
    ([], some ⟨4, 0x80, 0x8F, 2⟩)
  else if 0xF1 ≤ b ∧ b ≤ 0xF3 then
    ([], some ⟨b - 0xF0, 0x80, 0xBF, 2⟩)
  else
    ([replacement], none)

/- What one more byte of a character emits or continues. -/
def follow
    (p : Pending)
    (b : Nat) : List Char × Option Pending :=
  if p.low ≤ b ∧ b ≤ p.high then
    match p.rest with
    | 0 => ([Char.ofNat (p.code * 64 + (b - 0x80))], none)
    | rest + 1 =>
        ([], some ⟨p.code * 64 + (b - 0x80),
          0x80, 0xBF, rest⟩)
  else
    (replacement :: (lead b).1, (lead b).2)

/-
  Decode from between characters, or within one. A byte that
  cannot continue a character ends it with a replacement and
  is looked at again as a first byte.
-/
def decodeFrom :
    Option Pending → List UInt8 → List Char
  | none, [] => []
  | some _, [] => [replacement]
  | none, b :: bytes =>
      (lead b.toNat).1 ++ decodeFrom (lead b.toNat).2 bytes
  | some p, b :: bytes =>
      (follow p b.toNat).1 ++
        decodeFrom (follow p b.toNat).2 bytes

def decode (bytes : List UInt8) : List Char :=
  decodeFrom none bytes

example : decode [0xD0, 0x90, 0xFF, 0xE2, 0x82] =
    [Char.ofNat 0x410, replacement, replacement] := by
  decide

--
-- Encoded Characters
--

/- The scalar values, and the gap of the surrogates. -/
theorem toNat_cases (c : Char) :
    c.toNat < 0xD800 ∨
      (0xDFFF < c.toNat ∧ c.toNat < 0x110000) :=
  c.valid

theorem toNat_ofNat
    {n : Nat}
    (hScalar : n < 0xD800 ∨ (0xDFFF < n ∧ n < 0x110000)) :
    (Char.ofNat n).toNat = n := by
  unfold Char.ofNat
  rw [dif_pos hScalar]
  rfl

/-
  The bytes of a character, by its range: what each of them
  is, as a number.
-/
inductive Encodes (n : Nat) : List Nat → Prop where
  | one
      (hRange : n < 0x80) :
      Encodes n [n]
  | two
      (hLow : 0x80 ≤ n)
      (hHigh : n < 0x800) :
      Encodes n [n / 64 + 0xC0, n % 64 + 0x80]
  | three
      (hLow : 0x800 ≤ n)
      (hHigh : n < 0x10000)
      (hScalar : n < 0xD800 ∨ 0xDFFF < n) :
      Encodes n [n / 4096 + 0xE0, n / 64 % 64 + 0x80,
        n % 64 + 0x80]
  | four
      (hLow : 0x10000 ≤ n)
      (hHigh : n < 0x110000) :
      Encodes n [n / 262144 + 0xF0, n / 4096 % 64 + 0x80,
        n / 64 % 64 + 0x80, n % 64 + 0x80]

variable {bytes : List Nat}

theorem utf8EncodeChar_eq
    (c : Char)
    (hBytes : Encodes c.toNat bytes) :
    String.utf8EncodeChar c = bytes.map UInt8.ofNat := by
  unfold String.utf8EncodeChar
  change Encodes c.val.toNat bytes at hBytes
  generalize c.val.toNat = n at hBytes
  cases hBytes with
  | one hRange =>
      simp only
      rw [if_pos (by omega)]
      rfl
  | two hLow hHigh =>
      simp only
      rw [if_neg (by omega), if_pos (by omega),
        Nat.mod_eq_of_lt (by omega)]
      rfl
  | three hLow hHigh hScalar =>
      simp only
      rw [if_neg (by omega), if_neg (by omega),
        if_pos (by omega),
        Nat.mod_eq_of_lt (show n / 4096 < 16 by omega)]
      rfl
  | four hLow hHigh =>
      simp only
      rw [if_neg (by omega), if_neg (by omega),
        if_neg (by omega),
        Nat.mod_eq_of_lt (show n / 262144 < 8 by omega)]
      rfl

theorem encodes_toNat (c : Char) :
    ∃ bytes, Encodes c.toNat bytes := by
  have hScalar := toNat_cases c
  generalize c.toNat = n at hScalar
  by_cases h1 : n < 0x80
  · exact ⟨_, .one h1⟩
  by_cases h2 : n < 0x800
  · exact ⟨_, .two (by omega) h2⟩
  by_cases h3 : n < 0x10000
  · exact ⟨_, .three (by omega) h3 (by omega)⟩
  · exact ⟨_, .four (by omega) (by omega)⟩

variable {n : Nat}

/- Every byte of an encoding is a byte. -/
theorem Encodes.lt
    (hBytes : Encodes n bytes) :
    ∀ b ∈ bytes, b < 256 := by
  cases hBytes with
  | one hRange =>
      intro b hMem
      simp only [List.mem_singleton] at hMem
      omega
  | two hLow hHigh =>
      intro b hMem
      simp only [List.mem_cons, List.not_mem_nil,
        or_false] at hMem
      omega
  | three hLow hHigh hScalar =>
      intro b hMem
      simp only [List.mem_cons, List.not_mem_nil,
        or_false] at hMem
      omega
  | four hLow hHigh =>
      intro b hMem
      simp only [List.mem_cons, List.not_mem_nil,
        or_false] at hMem
      omega

/- What the decoder emits within some bytes, and then. -/
def scan :
    Option Pending → List Nat → List Char × Option Pending
  | p, [] => ([], p)
  | none, b :: bytes =>
      ((lead b).1 ++ (scan (lead b).2 bytes).1,
        (scan (lead b).2 bytes).2)
  | some p, b :: bytes =>
      ((follow p b).1 ++ (scan (follow p b).2 bytes).1,
        (scan (follow p b).2 bytes).2)

/- The decoder goes on from where a scan ends. -/
theorem decodeFrom_append
    (p : Option Pending)
    (hBytes : ∀ b ∈ bytes, b < 256)
    (more : List UInt8) :
    decodeFrom p (bytes.map UInt8.ofNat ++ more) =
      (scan p bytes).1 ++ decodeFrom (scan p bytes).2 more := by
  induction bytes generalizing p with
  | nil => cases p <;> rfl
  | cons b bytes ih =>
      have hByte : (UInt8.ofNat b).toNat = b := by
        rw [UInt8.toNat_ofNat']
        exact Nat.mod_eq_of_lt (hBytes b (by simp))
      have hRest : ∀ x ∈ bytes, x < 256 :=
        fun x hMem => hBytes x (List.mem_cons_of_mem _ hMem)
      cases p with
      | none =>
          rw [List.map_cons, List.cons_append, decodeFrom,
            hByte, ih (lead b).2 hRest, ← List.append_assoc]
          rfl
      | some p =>
          rw [List.map_cons, List.cons_append, decodeFrom,
            hByte, ih (follow p b).2 hRest,
            ← List.append_assoc]
          rfl

--
-- Steps of the Decoder
--

section Steps

variable {b : Nat} {p : Pending}

theorem lead_one
    (hb : b < 0x80) :
    lead b = ([Char.ofNat b], none) :=
  if_pos hb

theorem lead_two
    (hLow : 0xC2 ≤ b)
    (hHigh : b ≤ 0xDF) :
    lead b = ([], some ⟨b - 0xC0, 0x80, 0xBF, 0⟩) := by
  unfold lead
  rw [if_neg (by omega), if_pos ⟨hLow, hHigh⟩]

/-
  The second byte of three is in range exactly when the
  character is neither overlong nor a surrogate.
-/
theorem lead_three
    (hLow : 0xE0 ≤ b)
    (hHigh : b ≤ 0xEF) :
    ∃ low high,
      lead b = ([], some ⟨b - 0xE0, low, high, 1⟩) ∧
      ∀ x, (low ≤ x ∧ x ≤ high) ↔
        0x80 ≤ x ∧ x ≤ 0xBF ∧
          0x20 ≤ (b - 0xE0) * 64 + (x - 0x80) ∧
          ((b - 0xE0) * 64 + (x - 0x80) < 0x360 ∨
            0x37F < (b - 0xE0) * 64 + (x - 0x80)) := by
  unfold lead
  rw [if_neg (by omega), if_neg (by omega)]
  by_cases h0 : b = 0xE0
  · rw [if_pos h0]
    refine ⟨0xA0, 0xBF, by rw [h0], fun x => ?_⟩
    omega
  rw [if_neg h0]
  by_cases hD : b = 0xED
  · rw [if_pos hD]
    refine ⟨0x80, 0x9F, by rw [hD], fun x => ?_⟩
    omega
  rw [if_neg hD, if_pos (by omega)]
  refine ⟨0x80, 0xBF, rfl, fun x => ?_⟩
  omega

/-
  The second byte of four is in range exactly when the
  character is neither overlong nor beyond the last one.
-/
theorem lead_four
    (hLow : 0xF0 ≤ b)
    (hHigh : b ≤ 0xF4) :
    ∃ low high,
      lead b = ([], some ⟨b - 0xF0, low, high, 2⟩) ∧
      ∀ x, (low ≤ x ∧ x ≤ high) ↔
        0x80 ≤ x ∧ x ≤ 0xBF ∧
          0x10 ≤ (b - 0xF0) * 64 + (x - 0x80) ∧
          (b - 0xF0) * 64 + (x - 0x80) < 0x110 := by
  unfold lead
  rw [if_neg (by omega), if_neg (by omega),
    if_neg (by omega), if_neg (by omega),
    if_neg (by omega)]
  by_cases h0 : b = 0xF0
  · rw [if_pos h0]
    refine ⟨0x90, 0xBF, by rw [h0], fun x => ?_⟩
    omega
  rw [if_neg h0]
  by_cases h4 : b = 0xF4
  · rw [if_pos h4]
    refine ⟨0x80, 0x8F, by rw [h4], fun x => ?_⟩
    omega
  rw [if_neg h4, if_pos (by omega)]
  refine ⟨0x80, 0xBF, rfl, fun x => ?_⟩
  omega

/- No other byte begins a character. -/
theorem lead_other
    (hOne : 0x80 ≤ b)
    (hTwo : b < 0xC2 ∨ 0xDF < b)
    (hMore : b < 0xE0 ∨ 0xF4 < b) :
    lead b = ([replacement], none) := by
  unfold lead
  rw [if_neg (by omega), if_neg (by omega),
    if_neg (by omega), if_neg (by omega),
    if_neg (by omega), if_neg (by omega),
    if_neg (by omega), if_neg (by omega)]

theorem follow_last
    {code low high : Nat}
    (hRange : low ≤ b ∧ b ≤ high) :
    follow ⟨code, low, high, 0⟩ b =
      ([Char.ofNat (code * 64 + (b - 0x80))], none) :=
  if_pos hRange

theorem follow_more
    {code low high rest : Nat}
    (hRange : low ≤ b ∧ b ≤ high) :
    follow ⟨code, low, high, rest + 1⟩ b =
      ([], some ⟨code * 64 + (b - 0x80),
        0x80, 0xBF, rest⟩) :=
  if_pos hRange

theorem follow_out
    (hRange : ¬(p.low ≤ b ∧ b ≤ p.high)) :
    follow p b =
      (replacement :: (lead b).1, (lead b).2) :=
  if_neg hRange

end Steps

/- The decoder ends a character where its encoding ends. -/
theorem scan_encodes
    (hBytes : Encodes n bytes) :
    scan none bytes = ([Char.ofNat n], none) := by
  cases hBytes with
  | one hRange =>
      simp only [scan, lead_one hRange, List.append_nil]
  | two hLow hHigh =>
      have hLead := lead_two (b := n / 64 + 0xC0)
        (by omega) (by omega)
      have hCode : (n / 64 + 0xC0 - 0xC0) * 64 +
          (n % 64 + 0x80 - 0x80) = n := by
        omega
      simp only [scan, hLead]
      rw [follow_last (by omega), hCode]
      rfl
  | three hLow hHigh hScalar =>
      rcases lead_three (b := n / 4096 + 0xE0)
        (by omega) (by omega) with
        ⟨low, high, hLead, hRange⟩
      have hSecond := (hRange (n / 64 % 64 + 0x80)).mpr
        (by omega)
      have hCode : ((n / 4096 + 0xE0 - 0xE0) * 64 +
          (n / 64 % 64 + 0x80 - 0x80)) * 64 +
          (n % 64 + 0x80 - 0x80) = n := by
        omega
      simp only [scan, hLead]
      rw [follow_more hSecond]
      simp only [scan]
      rw [follow_last (by omega), hCode]
      rfl
  | four hLow hHigh =>
      rcases lead_four (b := n / 262144 + 0xF0)
        (by omega) (by omega) with
        ⟨low, high, hLead, hRange⟩
      have hSecond := (hRange (n / 4096 % 64 + 0x80)).mpr
        (by omega)
      have hCode : (((n / 262144 + 0xF0 - 0xF0) * 64 +
          (n / 4096 % 64 + 0x80 - 0x80)) * 64 +
          (n / 64 % 64 + 0x80 - 0x80)) * 64 +
          (n % 64 + 0x80 - 0x80) = n := by
        omega
      simp only [scan, hLead]
      rw [follow_more hSecond]
      simp only [scan]
      rw [follow_more (by omega)]
      simp only [scan]
      rw [follow_last (by omega), hCode]
      rfl

/- Within an encoding the decoder waits for more. -/
theorem scan_cut
    {n k : Nat}
    (hBytes : Encodes n bytes)
    (hPos : 0 < k)
    (hCut : k < bytes.length) :
    (scan none (bytes.take k)).1 = [] ∧
      (scan none (bytes.take k)).2.isSome := by
  cases hBytes with
  | one hRange =>
      simp only [List.length_singleton] at hCut
      omega
  | two hLow hHigh =>
      simp only [List.length_cons, List.length_nil] at hCut
      have hk : k = 1 := by omega
      have hLead := lead_two (b := n / 64 + 0xC0)
        (by omega) (by omega)
      subst hk
      simp only [List.take, scan, hLead]
      exact ⟨rfl, rfl⟩
  | three hLow hHigh hScalar =>
      rcases lead_three (b := n / 4096 + 0xE0)
        (by omega) (by omega) with
        ⟨low, high, hLead, hRange⟩
      have hSecond := (hRange (n / 64 % 64 + 0x80)).mpr
        (by omega)
      simp only [List.length_cons, List.length_nil] at hCut
      have hk : k = 1 ∨ k = 2 := by omega
      rcases hk with rfl | rfl
      · simp only [List.take, scan, hLead]
        exact ⟨rfl, rfl⟩
      · simp only [List.take, scan, hLead]
        rw [follow_more hSecond]
        exact ⟨rfl, rfl⟩
  | four hLow hHigh =>
      rcases lead_four (b := n / 262144 + 0xF0)
        (by omega) (by omega) with
        ⟨low, high, hLead, hRange⟩
      have hSecond := (hRange (n / 4096 % 64 + 0x80)).mpr
        (by omega)
      simp only [List.length_cons, List.length_nil] at hCut
      have hk : k = 1 ∨ k = 2 ∨ k = 3 := by omega
      rcases hk with rfl | rfl | rfl
      · simp only [List.take, scan, hLead]
        exact ⟨rfl, rfl⟩
      · simp only [List.take, scan, hLead]
        rw [follow_more hSecond]
        exact ⟨rfl, rfl⟩
      · simp only [List.take, scan, hLead]
        rw [follow_more hSecond]
        simp only [scan]
        rw [follow_more (by omega)]
        exact ⟨rfl, rfl⟩

--
-- Decoding Encoded Text
--

theorem decode_char_append
    (c : Char)
    (more : List UInt8) :
    decode (String.utf8EncodeChar c ++ more) =
      c :: decode more := by
  rcases encodes_toNat c with ⟨bytes, hBytes⟩
  unfold decode
  rw [utf8EncodeChar_eq c hBytes,
    decodeFrom_append none hBytes.lt, scan_encodes hBytes,
    Char.ofNat_toNat]
  rfl

/- Encoded text is decoded, and then what follows it. -/
theorem decode_encode_append
    (text : List Char)
    (more : List UInt8) :
    decode (encode text ++ more) = text ++ decode more := by
  induction text with
  | nil => rfl
  | cons c text ih =>
      rw [encode_cons, List.append_assoc,
        decode_char_append, ih]
      rfl

theorem decode_encode (text : List Char) :
    decode (encode text) = text := by
  have hText := decode_encode_append text []
  rw [List.append_nil] at hText
  rw [hText]
  exact List.append_nil text

theorem encode_injective
    {text text' : List Char}
    (hSame : encode text = encode text') :
    text = text' := by
  rw [← decode_encode text, hSame, decode_encode]

/- A character cut short becomes one replacement. -/
theorem decode_cut
    (text : List Char)
    (c : Char)
    {k : Nat}
    (hPos : 0 < k)
    (hCut : k < (String.utf8EncodeChar c).length) :
    decode (encode text ++
      (String.utf8EncodeChar c).take k) =
        text ++ [replacement] := by
  rcases encodes_toNat c with ⟨bytes, hBytes⟩
  rw [utf8EncodeChar_eq c hBytes, List.length_map] at hCut
  have hScan := scan_cut hBytes hPos hCut
  have hLt : ∀ b ∈ bytes.take k, b < 256 :=
    fun b hMem => hBytes.lt b (List.mem_of_mem_take hMem)
  have hDecode := decodeFrom_append none hLt []
  rw [List.append_nil, hScan.1] at hDecode
  rw [decode_encode_append, utf8EncodeChar_eq c hBytes,
    ← List.map_take]
  unfold decode
  rw [hDecode]
  rcases Option.isSome_iff_exists.mp hScan.2 with ⟨p, hp⟩
  rw [hp]
  rfl

--
-- Decoding Any Bytes
--

/- The character that some bytes encode. -/
theorem utf8EncodeChar_ofNat
    (bytes : List UInt8)
    (hScalar : n < 0xD800 ∨ (0xDFFF < n ∧ n < 0x110000))
    (hBytes : Encodes n (bytes.map UInt8.toNat)) :
    String.utf8EncodeChar (Char.ofNat n) = bytes := by
  rw [← toNat_ofNat hScalar] at hBytes
  rw [utf8EncodeChar_eq _ hBytes, List.map_map]
  conv_rhs => rw [← List.map_id bytes]
  apply List.map_congr_left
  intro b _
  exact UInt8.ofNat_toNat

theorem decodeFrom_out
    {code low high rest : Nat}
    {b : UInt8}
    (hRange : ¬(low ≤ b.toNat ∧ b.toNat ≤ high))
    (bytes : List UInt8) :
    ∃ later,
      decodeFrom (some ⟨code, low, high, rest⟩)
        (b :: bytes) = replacement :: later := by
  rw [decodeFrom, follow_out hRange]
  exact ⟨_, rfl⟩

/- The first bytes are a character, or are replaced. -/
def HeadDecodes (bytes : List UInt8) : Prop :=
  (∃ c more, bytes = String.utf8EncodeChar c ++ more) ∨
    ∃ later, decode bytes = replacement :: later

/- What follows a first byte that begins a character: the
  bytes end, or the second one is out of range, or it is the
  rest that decides. -/
theorem headDecodes_second
    {b : UInt8}
    {p : Pending}
    (hLead : lead b.toNat = ([], some p))
    (hSecond : ∀ (x : UInt8) (bytes : List UInt8),
      p.low ≤ x.toNat ∧ x.toNat ≤ p.high →
        (∃ c more, b :: x :: bytes =
          String.utf8EncodeChar c ++ more) ∨
          ∃ later, decodeFrom (some p) (x :: bytes) =
            replacement :: later)
    (bytes : List UInt8) :
    HeadDecodes (b :: bytes) := by
  have hDecode : decode (b :: bytes) =
      decodeFrom (some p) bytes := by
    rw [decode, decodeFrom, hLead]
    rfl
  rw [HeadDecodes, hDecode]
  cases bytes with
  | nil => exact .inr ⟨[], rfl⟩
  | cons x bytes =>
      by_cases hRange : p.low ≤ x.toNat ∧ x.toNat ≤ p.high
      · exact hSecond x bytes hRange
      · exact .inr (decodeFrom_out hRange bytes)

/- What follows the first byte of two. -/
theorem headDecodes_two
    {b : UInt8}
    (hLow : 0xC2 ≤ b.toNat)
    (hHigh : b.toNat ≤ 0xDF) :
    ∀ bytes : List UInt8, HeadDecodes (b :: bytes) := by
  refine headDecodes_second (lead_two hLow hHigh) ?_
  intro x bytes hRange
  dsimp only at hRange
  generalize hn : (b.toNat - 0xC0) * 64 +
    (x.toNat - 0x80) = n
  have hEnc : Encodes n [n / 64 + 0xC0, n % 64 + 0x80] :=
    .two (by omega) (by omega)
  rw [show n / 64 + 0xC0 = b.toNat by omega,
    show n % 64 + 0x80 = x.toNat by omega] at hEnc
  refine .inl ⟨Char.ofNat n, bytes, ?_⟩
  rw [utf8EncodeChar_ofNat [b, x] (by omega) hEnc]
  rfl

/- What follows the first byte of three. -/
theorem headDecodes_three
    {b : UInt8}
    (hLow : 0xE0 ≤ b.toNat)
    (hHigh : b.toNat ≤ 0xEF) :
    ∀ bytes : List UInt8, HeadDecodes (b :: bytes) := by
  rcases lead_three hLow hHigh with
    ⟨low, high, hLead, hSecond⟩
  refine headDecodes_second hLead fun x bytes hRange => ?_
  have hBound := (hSecond x.toNat).mp hRange
  rw [decodeFrom, follow_more hRange]
  cases bytes with
  | nil => exact .inr ⟨[], rfl⟩
  | cons y bytes =>
      by_cases hThird : 0x80 ≤ y.toNat ∧ y.toNat ≤ 0xBF
      · generalize hn : ((b.toNat - 0xE0) * 64 +
          (x.toNat - 0x80)) * 64 + (y.toNat - 0x80) = n
        have hEnc : Encodes n [n / 4096 + 0xE0,
            n / 64 % 64 + 0x80, n % 64 + 0x80] :=
          .three (by omega) (by omega) (by omega)
        rw [show n / 4096 + 0xE0 = b.toNat by omega,
          show n / 64 % 64 + 0x80 = x.toNat by omega,
          show n % 64 + 0x80 = y.toNat by omega] at hEnc
        refine .inl ⟨Char.ofNat n, bytes, ?_⟩
        rw [utf8EncodeChar_ofNat [b, x, y] (by omega) hEnc]
        rfl
      · exact .inr (decodeFrom_out hThird bytes)

/- What follows the first byte of four. -/
theorem headDecodes_four
    {b : UInt8}
    (hLow : 0xF0 ≤ b.toNat)
    (hHigh : b.toNat ≤ 0xF4) :
    ∀ bytes : List UInt8, HeadDecodes (b :: bytes) := by
  rcases lead_four hLow hHigh with
    ⟨low, high, hLead, hSecond⟩
  refine headDecodes_second hLead fun x bytes hRange => ?_
  have hBound := (hSecond x.toNat).mp hRange
  rw [decodeFrom, follow_more hRange]
  cases bytes with
  | nil => exact .inr ⟨[], rfl⟩
  | cons y bytes =>
      by_cases hThird : 0x80 ≤ y.toNat ∧ y.toNat ≤ 0xBF
      · rw [decodeFrom, follow_more hThird]
        cases bytes with
        | nil => exact .inr ⟨[], rfl⟩
        | cons z bytes =>
            by_cases hFourth :
                0x80 ≤ z.toNat ∧ z.toNat ≤ 0xBF
            · generalize hn : (((b.toNat - 0xF0) * 64 +
                (x.toNat - 0x80)) * 64 +
                (y.toNat - 0x80)) * 64 +
                (z.toNat - 0x80) = n
              have hEnc : Encodes n [n / 262144 + 0xF0,
                  n / 4096 % 64 + 0x80,
                  n / 64 % 64 + 0x80, n % 64 + 0x80] :=
                .four (by omega) (by omega)
              rw [show n / 262144 + 0xF0 = b.toNat by omega,
                show n / 4096 % 64 + 0x80 = x.toNat by omega,
                show n / 64 % 64 + 0x80 = y.toNat by omega,
                show n % 64 + 0x80 = z.toNat by omega]
                at hEnc
              refine .inl ⟨Char.ofNat n, bytes, ?_⟩
              rw [utf8EncodeChar_ofNat [b, x, y, z]
                (by omega) hEnc]
              rfl
            · exact .inr (decodeFrom_out hFourth bytes)
      · exact .inr (decodeFrom_out hThird bytes)

theorem headDecodes
    (b : UInt8)
    (bytes : List UInt8) :
    HeadDecodes (b :: bytes) := by
  have hByte := b.toNat_lt
  by_cases h1 : b.toNat < 0x80
  · refine .inl ⟨Char.ofNat b.toNat, bytes, ?_⟩
    rw [utf8EncodeChar_ofNat [b] (by omega) (.one h1)]
    rfl
  by_cases h2 : 0xC2 ≤ b.toNat ∧ b.toNat ≤ 0xDF
  · exact headDecodes_two h2.1 h2.2 bytes
  by_cases h3 : 0xE0 ≤ b.toNat ∧ b.toNat ≤ 0xEF
  · exact headDecodes_three h3.1 h3.2 bytes
  by_cases h4 : 0xF0 ≤ b.toNat ∧ b.toNat ≤ 0xF4
  · exact headDecodes_four h4.1 h4.2 bytes
  · refine .inr ⟨decode bytes, ?_⟩
    rw [decode, decodeFrom, lead_other (by omega) (by omega)
      (by omega)]
    rfl

/-
  Any bytes are encoded text, then nothing, or then bytes
  that begin no character and decode to a replacement.
-/
theorem decode_split (bytes : List UInt8) :
    ∃ text more, bytes = encode text ++ more ∧
      ((more = [] ∧ decode bytes = text) ∨
        ((∀ c later,
            more ≠ String.utf8EncodeChar c ++ later) ∧
          more ≠ [] ∧
          ∃ later, decode bytes =
            text ++ replacement :: later)) := by
  induction hLength : bytes.length using
    Nat.strongRecOn generalizing bytes with
  | ind n ih =>
      by_cases hHead : ∃ c more,
          bytes = String.utf8EncodeChar c ++ more
      · rcases hHead with ⟨c, more, rfl⟩
        have hSize : 0 < (String.utf8EncodeChar c).length :=
          List.length_pos_of_ne_nil
            String.utf8EncodeChar_ne_nil
        rw [List.length_append] at hLength
        rcases ih more.length (by omega) more rfl with
          ⟨text, rest, hMore, hRest⟩
        refine ⟨c :: text, rest, ?_, ?_⟩
        · rw [encode_cons, List.append_assoc, ← hMore]
        · rw [decode_char_append]
          rcases hRest with
            ⟨hNil, hText⟩ | ⟨hBad, hNe, later, hText⟩
          · exact .inl ⟨hNil, by rw [hText]⟩
          · exact .inr ⟨hBad, hNe, later, by rw [hText]; rfl⟩
      · cases bytes with
        | nil => exact ⟨[], [], rfl, .inl ⟨rfl, rfl⟩⟩
        | cons b bytes =>
            refine ⟨[], b :: bytes, rfl, .inr ⟨?_, ?_, ?_⟩⟩
            · intro c later hEq
              exact hHead ⟨c, later, hEq⟩
            · simp
            · exact (headDecodes b bytes).resolve_left hHead

/- NUL is the only character that encodes to a zero byte. -/
theorem zero_mem_encode
    {text : List Char} :
    0 ∈ encode text ↔ Char.ofNat 0 ∈ text := by
  have hChar : ∀ c : Char,
      0 ∈ String.utf8EncodeChar c ↔ Char.ofNat 0 = c := by
    intro c
    constructor
    · intro hMem
      rcases encodes_toNat c with ⟨bytes, hBytes⟩
      rw [utf8EncodeChar_eq c hBytes] at hMem
      rcases List.mem_map.mp hMem with ⟨b, hb, hZero⟩
      have hNat : b = 0 := by
        have hLt := hBytes.lt b hb
        have hByte := congrArg UInt8.toNat hZero
        rw [UInt8.toNat_ofNat', Nat.mod_eq_of_lt hLt]
          at hByte
        exact hByte
      subst hNat
      have hCode : c.toNat = 0 := by
        generalize c.toNat = n at hBytes
        cases hBytes <;> simp at hb
        omega
      rw [← hCode, Char.ofNat_toNat]
    · rintro rfl
      decide
  unfold encode
  rw [List.mem_flatMap]
  constructor
  · rintro ⟨c, hMem, hZero⟩
    rw [(hChar c).mp hZero]
    exact hMem
  · intro hMem
    exact ⟨_, hMem, (hChar _).mpr rfl⟩

--
-- NUL in Decoded Text
--

/- The least character that the next bytes can complete. -/
def Pending.least (p : Pending) : Nat :=
  p.code * 64 * 64 ^ p.rest +
    (p.low - 0x80) * 64 ^ p.rest

/- The first number above those that they can complete. -/
def Pending.bound (p : Pending) : Nat :=
  p.code * 64 * 64 ^ p.rest +
    (p.high - 0x80) * 64 ^ p.rest + 64 ^ p.rest

/-
  What is under way becomes a scalar value beyond ASCII.
-/
structure Pending.Proper (p : Pending) : Prop where
  rest : p.rest < 3
  low : 0x80 ≤ p.low
  least : 0x80 ≤ p.least
  scalar : p.bound ≤ 0xD800 ∨
    (0xDFFF < p.least ∧ p.bound ≤ 0x110000)

/- What a first byte can do. -/
theorem lead_cases (b : Nat) :
    (b < 0x80 ∧ lead b = ([Char.ofNat b], none)) ∨
      lead b = ([replacement], none) ∨
      ∃ p, lead b = ([], some p) ∧ p.Proper := by
  unfold lead
  by_cases hOne : b < 0x80
  · rw [if_pos hOne]
    exact .inl ⟨hOne, rfl⟩
  rw [if_neg hOne]
  refine .inr ?_
  by_cases hTwo : 0xC2 ≤ b ∧ b ≤ 0xDF
  · rw [if_pos hTwo]
    refine .inr ⟨_, rfl, ?_⟩
    constructor <;>
      simp only [Pending.least, Pending.bound] <;> omega
  rw [if_neg hTwo]
  by_cases hLeast : b = 0xE0
  · rw [if_pos hLeast]
    refine .inr ⟨_, rfl, ?_⟩
    constructor <;>
      simp only [Pending.least, Pending.bound] <;> omega
  rw [if_neg hLeast]
  by_cases hBelow : b = 0xED
  · rw [if_pos hBelow]
    refine .inr ⟨_, rfl, ?_⟩
    constructor <;>
      simp only [Pending.least, Pending.bound] <;> omega
  rw [if_neg hBelow]
  by_cases hThree : 0xE1 ≤ b ∧ b ≤ 0xEF
  · rw [if_pos hThree]
    refine .inr ⟨_, rfl, ?_⟩
    constructor <;>
      simp only [Pending.least, Pending.bound] <;> omega
  rw [if_neg hThree]
  by_cases hBeyond : b = 0xF0
  · rw [if_pos hBeyond]
    refine .inr ⟨_, rfl, ?_⟩
    constructor <;>
      simp only [Pending.least, Pending.bound] <;> omega
  rw [if_neg hBeyond]
  by_cases hLast : b = 0xF4
  · rw [if_pos hLast]
    refine .inr ⟨_, rfl, ?_⟩
    constructor <;>
      simp only [Pending.least, Pending.bound] <;> omega
  rw [if_neg hLast]
  by_cases hFour : 0xF1 ≤ b ∧ b ≤ 0xF3
  · rw [if_pos hFour]
    refine .inr ⟨_, rfl, ?_⟩
    constructor <;>
      simp only [Pending.least, Pending.bound] <;> omega
  rw [if_neg hFour]
  exact .inl rfl

theorem lead_proper
    {b : Nat}
    {p : Pending}
    (hLead : (lead b).2 = some p) :
    p.Proper := by
  rcases lead_cases b with ⟨-, hEq⟩ | hEq | ⟨q, hEq, hProper⟩
  · rw [hEq] at hLead
    cases hLead
  · rw [hEq] at hLead
    cases hLead
  · rw [hEq] at hLead
    cases hLead
    exact hProper

theorem nul_ne_replacement :
    Char.ofNat 0 ≠ replacement := by
  intro hEq
  have hCode := congrArg Char.toNat hEq
  rw [replacement, toNat_ofNat (by omega),
    toNat_ofNat (by omega)] at hCode
  omega

theorem zero_mem_lead
    {b : Nat}
    (hMem : Char.ofNat 0 ∈ (lead b).1) :
    b = 0 := by
  rcases lead_cases b with ⟨hOne, hEq⟩ | hEq | ⟨q, hEq, -⟩
  · rw [hEq] at hMem
    have hCode := congrArg Char.toNat
      (List.mem_singleton.mp hMem)
    rw [toNat_ofNat (by omega), toNat_ofNat (by omega)]
      at hCode
    exact hCode.symm
  · rw [hEq] at hMem
    exact absurd (List.mem_singleton.mp hMem)
      nul_ne_replacement
  · rw [hEq] at hMem
    cases hMem

/- One more byte of a character keeps it proper. -/
theorem follow_proper
    {b : Nat}
    {p q : Pending}
    (hProper : p.Proper)
    (hFollow : (follow p b).2 = some q) :
    q.Proper := by
  unfold follow at hFollow
  split at hFollow
  · next hRange =>
      rcases p with ⟨code, low, high, rest⟩
      rcases hProper with ⟨hRest, hLow, hLeast, hScalar⟩
      simp only [Pending.least, Pending.bound]
        at hRest hLow hLeast hScalar hRange hFollow
      cases rest with
      | zero => cases hFollow
      | succ rest =>
          injection hFollow with hFollow
          subst hFollow
          have hCases : rest = 0 ∨ rest = 1 := by omega
          rcases hCases with rfl | rfl
          all_goals
            constructor
            all_goals
              simp only [Pending.least, Pending.bound]
              omega
  · exact lead_proper hFollow

theorem zero_mem_follow
    {b : Nat}
    {p : Pending}
    (hProper : p.Proper)
    (hMem : Char.ofNat 0 ∈ (follow p b).1) :
    b = 0 := by
  unfold follow at hMem
  split at hMem
  · next hRange =>
      rcases p with ⟨code, low, high, rest⟩
      rcases hProper with ⟨hRest, hLow, hLeast, hScalar⟩
      simp only [Pending.least, Pending.bound]
        at hRest hLow hLeast hScalar hRange hMem
      cases rest with
      | zero =>
          have hEq := congrArg Char.toNat
            (List.mem_singleton.mp hMem)
          rw [toNat_ofNat (by omega),
            toNat_ofNat (by omega)] at hEq
          omega
      | succ rest => cases hMem
  · rcases List.mem_cons.mp hMem with hEq | hMem
    · exact absurd hEq nul_ne_replacement
    · exact zero_mem_lead hMem

/- Only a zero byte decodes to NUL. -/
theorem zero_mem_decode
    {bytes : List UInt8}
    (hMem : Char.ofNat 0 ∈ decode bytes) :
    0 ∈ bytes := by
  have hFrom : ∀ p : Option Pending,
      (∀ q, p = some q → q.Proper) →
      Char.ofNat 0 ∈ decodeFrom p bytes →
      0 ∈ bytes := by
    clear hMem
    induction bytes with
    | nil =>
        intro p _ hMem
        cases p with
        | none => cases hMem
        | some p => simp [decodeFrom, replacement] at hMem
    | cons b bytes ih =>
        intro p hProper hMem
        have hHead : b.toNat = 0 → 0 ∈ b :: bytes := by
          intro hZero
          rw [show b = 0 from UInt8.toNat_inj.mp hZero]
          exact List.mem_cons_self ..
        cases p with
        | none =>
            rw [decodeFrom, List.mem_append] at hMem
            rcases hMem with hMem | hMem
            · exact hHead (zero_mem_lead hMem)
            · exact List.mem_cons_of_mem _
                (ih _ (fun q h => lead_proper h) hMem)
        | some p =>
            have hProper := hProper p rfl
            rw [decodeFrom, List.mem_append] at hMem
            rcases hMem with hMem | hMem
            · exact hHead (zero_mem_follow hProper hMem)
            · exact List.mem_cons_of_mem _
                (ih _ (fun q h => follow_proper hProper h)
                  hMem)
  exact hFrom none (fun q h => by cases h) hMem

--
-- Cut Encodings
--

/-
  The first bytes of an encoding are encoded text, and then
  at most the beginning of one more character.
-/
theorem take_encode
    (text : List Char)
    (n : Nat) :
    ∃ text' part,
      (encode text).take n = encode text' ++ part ∧
        (part = [] ∨ ∃ c k, 0 < k ∧
          k < (String.utf8EncodeChar c).length ∧
          part = (String.utf8EncodeChar c).take k ∧
          (encode text').length + k = n) := by
  induction text generalizing n with
  | nil => exact ⟨[], [], List.take_nil, .inl rfl⟩
  | cons c text ih =>
      rw [encode_cons]
      by_cases hZero : n = 0
      · subst hZero
        exact ⟨[], [], List.take_zero, .inl rfl⟩
      by_cases hCut : n < (String.utf8EncodeChar c).length
      · refine ⟨[], (String.utf8EncodeChar c).take n, ?_,
          .inr ⟨c, n, by omega, hCut, rfl, Nat.zero_add n⟩⟩
        rw [List.take_append_of_le_length
          (Nat.le_of_lt hCut)]
        rfl
      · rcases ih (n - (String.utf8EncodeChar c).length) with
          ⟨text', part, hTake, hPart⟩
        refine ⟨c :: text', part, ?_, ?_⟩
        · rw [List.take_append, List.take_of_length_le
            (Nat.le_of_not_lt hCut), hTake, encode_cons,
            List.append_assoc]
        · refine hPart.imp (fun h => h) ?_
          rintro ⟨c', k, hPos, hLt, hEq, hSum⟩
          refine ⟨c', k, hPos, hLt, hEq, ?_⟩
          rw [encode_cons, List.length_append]
          omega

/- Decode, encode again, and cut to a length. -/
def recode
    (n : Nat)
    (bytes : List UInt8) : List UInt8 :=
  (encode (decode bytes)).take n

/-
  Encoded text, or encoded text that is followed by the
  beginning of a replacement character where it is cut.
-/
def Stable
    (n : Nat)
    (bytes : List UInt8) : Prop :=
  Valid bytes ∨
    (bytes.length = n ∧ ∃ text k, 0 < k ∧ k < 3 ∧
      bytes = encode text ++
        (String.utf8EncodeChar replacement).take k)

theorem length_replacement :
    (String.utf8EncodeChar replacement).length = 3 := by
  decide

theorem recode_of_valid
    {bytes : List UInt8}
    (hValid : Valid bytes)
    (hLength : bytes.length ≤ n) :
    recode n bytes = bytes := by
  rcases hValid with ⟨text, rfl⟩
  rw [recode, decode_encode,
    List.take_of_length_le hLength]

/- A cut character is cut again where its place was. -/
theorem recode_cut
    (text : List Char)
    (c : Char)
    {n k : Nat}
    (hPos : 0 < k)
    (hCut : k < (String.utf8EncodeChar c).length)
    (hLength : (encode text).length + k = n) :
    recode n (encode text ++
      (String.utf8EncodeChar c).take k) =
        encode text ++
          (String.utf8EncodeChar replacement).take k := by
  rw [recode, decode_cut text c hPos hCut, encode_append,
    encode_cons, encode_nil, List.append_nil,
    List.take_append, List.take_of_length_le (by omega)]
  congr 2
  omega

/- Which bytes decoding and encoding again leaves alone. -/
theorem recode_eq_iff
    {bytes : List UInt8}
    (hLength : bytes.length ≤ n) :
    recode n bytes = bytes ↔ Stable n bytes := by
  constructor
  · intro hSame
    rcases decode_split bytes with
      ⟨text, more, hBytes, ⟨rfl, -⟩ | ⟨hBad, hNe, later,
        hDecode⟩⟩
    · refine .inl ⟨text, ?_⟩
      rw [hBytes, List.append_nil]
    · have hSize : (encode text).length ≤ n := by
        rw [hBytes, List.length_append] at hLength
        omega
      -- what follows the text is what was put in its place
      have hMore : more = (String.utf8EncodeChar replacement
          ++ encode later).take
            (n - (encode text).length) := by
        have hTake := hSame
        rw [recode, hDecode, encode_append, encode_cons,
          List.take_append, List.take_of_length_le hSize,
          hBytes] at hTake
        exact (List.append_cancel_left hTake).symm
      have hShort : n - (encode text).length < 3 := by
        by_contra hLong
        apply hBad replacement ((encode later).take
          (n - (encode text).length - 3))
        rw [hMore, List.take_append, length_replacement,
          List.take_of_length_le]
        rw [length_replacement]
        omega
      have hPart : more = (String.utf8EncodeChar
          replacement).take (n - (encode text).length) := by
        rw [hMore, List.take_append_of_le_length]
        rw [length_replacement]
        omega
      have hCount : more.length =
          n - (encode text).length := by
        rw [hPart, List.length_take, length_replacement]
        omega
      have hPos := List.length_pos_of_ne_nil hNe
      refine .inr ⟨?_, text, n - (encode text).length,
        by omega, hShort, ?_⟩
      · rw [hBytes, List.length_append, hCount]
        omega
      · rw [← hPart]
        exact hBytes
  · rintro (hValid | ⟨hFull, text, k, hPos, hCut, rfl⟩)
    · exact recode_of_valid hValid hLength
    · have hLt :
          k < (String.utf8EncodeChar replacement).length := by
        rw [length_replacement]
        exact hCut
      apply recode_cut text replacement hPos hLt
      rw [List.length_append, List.length_take] at hFull
      omega

/- Two rounds of decoding and encoding settle any bytes. -/
theorem stable_recode_recode
    (n : Nat)
    (bytes : List UInt8) :
    Stable n (recode n (recode n bytes)) := by
  rcases take_encode (decode bytes) n with
    ⟨text, part, hFirst, rfl | ⟨c, k, hPos, hCut, rfl,
      hLength⟩⟩
  · have hSize : (encode text).length ≤ n := by
      rw [List.append_nil] at hFirst
      rw [← hFirst]
      exact List.length_take_le ..
    rw [List.append_nil] at hFirst
    rw [show recode n bytes = encode text from hFirst,
      recode_of_valid ⟨text, rfl⟩ hSize]
    exact .inl ⟨text, rfl⟩
  · have hWidth : k ≤ 3 := by
      have hFour := c.utf8Size_le_four
      rw [← String.length_utf8EncodeChar] at hFour
      omega
    rw [show recode n bytes = _ from hFirst,
      recode_cut text c hPos hCut hLength]
    by_cases hThree : k = 3
    · refine .inl ⟨text ++ [replacement], ?_⟩
      rw [encode_append, List.take_of_length_le]
      · simp
      · rw [length_replacement]
        omega
    · refine .inr ⟨?_, text, k, hPos, by omega, rfl⟩
      rw [List.length_append, List.length_take,
        length_replacement]
      omega

end Utf8
