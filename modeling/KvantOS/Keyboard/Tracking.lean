import KvantOS.Keyboard.Keymap

/-
  This file proves that the state of the keyboard decoder
  follows the keys that are physically held.

  Key definitions include:
    * `Key`, `Code` and `Code.bytes`
    * `heldAfter`: the keys that are held after a code
    * `Follows`: what the decoder knows of them

  Key theorems include:
    * `feedAll_follows`
-/

namespace KvantOS.Keyboard

--
-- Keys and Codes
--

/- A physical key, by its code and whether the prefix E0
  stands before it. -/
structure Key where
  ext : Bool
  code : Nat
  deriving DecidableEq

def leftShift : Key := ⟨false, 0x2a⟩

def rightShift : Key := ⟨false, 0x36⟩

def leftCtrl : Key := ⟨false, 0x1d⟩

def rightCtrl : Key := ⟨true, 0x1d⟩

def leftAlt : Key := ⟨false, 0x38⟩

def rightAlt : Key := ⟨true, 0x38⟩

def capsLock : Key := ⟨false, 0x3a⟩

/- The last byte of a make or a break code. -/
def Key.byte
    (k : Key)
    (down : Bool) : Nat :=
  if down then k.code else k.code + 0x80

/- A code of the keyboard or of its controller. -/
inductive Code where
  | key (k : Key) (down : Bool)
  | fakeShift (right down : Bool)
  | pause
  | reply (scan : Nat)

def Code.bytes : Code → List Nat
  | .key k down =>
    if k.ext then [0xe0, k.byte down] else [k.byte down]
  | .fakeShift right down =>
    [0xe0, Key.byte ⟨true, if right then 0x36 else 0x2a⟩ down]
  | .pause => [0xe1, 0x1d, 0x45, 0xe1, 0x9d, 0xc5]
  | .reply scan => [scan]

/- No byte of a key is a prefix. After the prefix E0 it is no
  reply either, and no fake Shift. -/
structure Key.Valid (k : Key) : Prop where
  small : k.code < 0x80
  plain : k.code ≠ 0x60 ∧ k.code ≠ 0x61
  noReply : k.ext = true →
    ∀ down, isReply (k.byte down) = false
  noShift : k.ext = true → k.code ≠ 0x2a ∧ k.code ≠ 0x36

def Code.Valid : Code → Prop
  | .key k _ => k.Valid
  | .reply scan => isReply scan = true
  | _ => True

/- The codes that are about no key. -/
def Code.Silent : Code → Prop
  | .key _ _ => False
  | _ => True

--
-- The Keys Held
--

/- A repeated make holds the key on. -/
def heldAfter (held : Key → Bool) : Code → Key → Bool
  | .key k down => Function.update held k down
  | _ => held

def shiftHeld (held : Key → Bool) : Bool :=
  held leftShift || held rightShift

def ctrlHeld (held : Key → Bool) : Bool :=
  held leftCtrl || held rightCtrl

def altHeld (held : Key → Bool) : Bool :=
  held leftAlt || held rightAlt

def modifiersHeld (held : Key → Bool) : Nat :=
  (shiftHeld held).toNat + 2 * (ctrlHeld held).toNat +
    4 * (altHeld held).toNat

def altShiftHeld (held : Key → Bool) : Bool :=
  altHeld held && shiftHeld held

/- The key whose state a bit of `pressed` is. -/
def bitKey : Fin 7 → Key
  | 0 => leftShift
  | 1 => rightShift
  | 2 => leftCtrl
  | 3 => rightCtrl
  | 4 => leftAlt
  | 5 => rightAlt
  | 6 => capsLock

theorem bitKey_injective : Function.Injective bitKey := by
  decide

/- What the decoder knows of the keys held. -/
structure Follows
    (s : Keymap)
    (held : Key → Bool) : Prop where
  bits : ∀ i : Fin 7, s.pressed.getLsbD i = held (bitKey i)
  extended : s.extended = false
  skip : s.skip = 0
  combo : s.combo = altShiftHeld held

theorem follows_init :
    Follows keymapInit fun _ => false where
  bits := by
    intro i
    simp [keymapInit]
  extended := rfl
  skip := rfl
  combo := rfl

/- Two bits of a mask, one by one. -/
theorem and_pair_ne_zero
    (p : BitVec 32)
    (i j : Nat) :
    p &&& (BitVec.twoPow 32 i ||| BitVec.twoPow 32 j) ≠ 0 ↔
      (p &&& BitVec.twoPow 32 i ≠ 0 ∨
        p &&& BitVec.twoPow 32 j ≠ 0) := by
  rw [BitVec.and_or_distrib_left]
  exact (not_congr BitVec.or_eq_zero_iff).trans not_and_or

theorem and_bit_ne_zero
    (p : BitVec 32)
    (i : Fin 7) :
    p &&& BitVec.twoPow 32 i ≠ 0 ↔ p.getLsbD i = true := by
  have hBit : BitVec.twoPow 32 i ≠ 0 := by
    revert i
    decide
  rw [BitVec.and_twoPow]
  split <;> simp_all

variable {held : Key → Bool} {s : Keymap}

/- The modifiers depend on the bits alone. -/
theorem keymapModifiers_eq
    (hBits :
      ∀ i : Fin 7, s.pressed.getLsbD i = held (bitKey i)) :
    keymapModifiers s = modifiersHeld held := by
  have hPair (i j : Fin 7) :
      s.pressed &&&
          (BitVec.twoPow 32 i ||| BitVec.twoPow 32 j) ≠ 0 ↔
        (held (bitKey i) || held (bitKey j)) = true := by
    rw [and_pair_ne_zero, and_bit_ne_zero, and_bit_ne_zero,
      hBits, hBits, Bool.or_eq_true]
  have hShift := hPair 0 1
  have hCtrl := hPair 2 3
  have hAlt := hPair 4 5
  change s.pressed &&& 3 ≠ 0 ↔ shiftHeld held = true at hShift
  change s.pressed &&& 12 ≠ 0 ↔ ctrlHeld held = true at hCtrl
  change s.pressed &&& 48 ≠ 0 ↔ altHeld held = true at hAlt
  rw [keymapModifiers, modifiersHeld]
  simp only [hShift, hCtrl, hAlt]
  cases shiftHeld held <;> cases ctrlHeld held <;>
    cases altHeld held <;> rfl

theorem altShiftHeld_iff
    (held : Key → Bool) :
    decide (modifiersHeld held &&& 5 = 5) =
      altShiftHeld held := by
  rw [modifiersHeld, altShiftHeld]
  cases shiftHeld held <;> cases ctrlHeld held <;>
    cases altHeld held <;> rfl

--
-- One Byte
--

variable {k : Key}

/- A byte of a key says which key it is and which way it
  goes. -/
theorem byte_parts
    (hSmall : k.code < 0x80)
    (down : Bool) :
    k.byte down &&& 0x7f = k.code ∧
      decide (k.byte down &&& 0x80 ≠ 0) = !down := by
  have hAll : ∀ c : Fin 128, ∀ d e : Bool,
      Key.byte ⟨e, c⟩ d &&& 0x7f = c.val ∧
        decide (Key.byte ⟨e, c⟩ d &&& 0x80 ≠ 0) = !d := by
    decide
  exact hAll ⟨k.code, hSmall⟩ down k.ext

/- What the last byte of a code does. -/
def feedKey
    (s : Keymap)
    (k : Key)
    (down : Bool) : Keymap × Option KbdEvent :=
  if bitOf k.ext k.code ≠ 0 then
    feedBit s (bitOf k.ext k.code) !down
  else if down then (s, translate s k.ext k.code)
  else (s, none)

theorem keymapFeed_byte
    (hSkip : s.skip = 0)
    (hExt : s.extended = false)
    (hValid : k.Valid)
    (down : Bool)
    (hReply : isReply (k.byte down) = false) :
    keymapFeed { s with extended := k.ext } (k.byte down) =
      feedKey s k down := by
  have hParts := byte_parts hValid.small down
  have hE1 : k.byte down ≠ 0xe1 := by
    have := hValid.plain
    have := hValid.small
    simp only [Key.byte]
    split <;> omega
  have hE0 : k.byte down ≠ 0xe0 := by
    have := hValid.plain
    have := hValid.small
    simp only [Key.byte]
    split <;> omega
  obtain ⟨pressed, layout, caps, extended, skip, combo⟩ := s
  obtain rfl : skip = 0 := hSkip
  obtain rfl : extended = false := hExt
  simp only [keymapFeed, hReply, hE1, hE0, hParts.1,
    hParts.2, feedKey]
  cases down <;> rfl

--
-- One Code
--

/- A make code of CapsLock that is no repeat. -/
def capsPress (held : Key → Bool) : Code → Bool
  | .key k down =>
    decide (k = capsLock) && down && !held capsLock
  | _ => false

/- A code leaves a state that follows the keys, and toggles
  CapsLock and the layout as they ask. -/
structure Tracks
    (s : Keymap)
    (held : Key → Bool)
    (c : Code)
    (r : Keymap × List KbdEvent) : Prop where
  follows : Follows r.1 (heldAfter held c)
  caps : r.1.caps = (s.caps ^^ capsPress held c)
  layout : r.1.layout =
    (s.layout ^^
      (altShiftHeld (heldAfter held c) &&
        !altShiftHeld held))
  codepoint : ∀ e ∈ r.2, e.codepoint ≠ 0 →
    ctrlHeld (heldAfter held c) = false ∧
      altHeld (heldAfter held c) = false

variable {c : Code}

variable {events : List KbdEvent}

/- A code that changes neither the state nor the keys that
  have a bit. -/
theorem tracks_of_same
    (h : Follows s held)
    (hHeld : ∀ i,
      heldAfter held c (bitKey i) = held (bitKey i))
    (hCaps : capsPress held c = false)
    (hEvents : ∀ e ∈ events, e.codepoint ≠ 0 →
      ctrlHeld held = false ∧ altHeld held = false) :
    Tracks s held c (s, events) := by
  have hShift : shiftHeld (heldAfter held c) =
      shiftHeld held :=
    congrArg₂ or (hHeld 0) (hHeld 1)
  have hCtrl : ctrlHeld (heldAfter held c) = ctrlHeld held :=
    congrArg₂ or (hHeld 2) (hHeld 3)
  have hAlt : altHeld (heldAfter held c) = altHeld held :=
    congrArg₂ or (hHeld 4) (hHeld 5)
  have hCombo : altShiftHeld (heldAfter held c) =
      altShiftHeld held :=
    congrArg₂ and hAlt hShift
  constructor
  · constructor
    · intro i
      rw [h.bits, hHeld]
    · exact h.extended
    · exact h.skip
    · exact h.combo.trans hCombo.symm
  · rw [hCaps, Bool.xor_false]
  · rw [hCombo, Bool.and_not_self, Bool.xor_false]
  · rw [hCtrl, hAlt]
    exact hEvents

variable {down : Bool}

theorem tracks_of_no_bit
    (h : Follows s held)
    (hNe : ∀ i, bitKey i ≠ k)
    (hEvents : ∀ e ∈ events, e.codepoint ≠ 0 →
      ctrlHeld held = false ∧ altHeld held = false) :
    Tracks s held (.key k down) (s, events) := by
  have hHeld (i : Fin 7) :
      heldAfter held (.key k down) (bitKey i) =
        held (bitKey i) :=
    Function.update_of_ne (hNe i) _ _
  have hKey : k ≠ capsLock := (hNe 6).symm
  have hCaps : capsPress held (.key k down) = false := by
    simp [capsPress, hKey]
  exact tracks_of_same h hHeld hCaps hEvents

/- A key has a bit of its own, or none. -/
theorem bitOf_cases (k : Key) :
    (∃ i : Fin 7, k = bitKey i ∧
      bitOf k.ext k.code = BitVec.twoPow 32 i) ∨
      (bitOf k.ext k.code = 0 ∧ ∀ i, bitKey i ≠ k) := by
  obtain ⟨ext, code⟩ := k
  by_cases hKey : ∃ i, ⟨ext, code⟩ = bitKey i
  · obtain ⟨i, hi⟩ := hKey
    refine .inl ⟨i, hi, ?_⟩
    have hAll : ∀ i : Fin 7,
        bitOf (bitKey i).ext (bitKey i).code =
          BitVec.twoPow 32 i := by
      decide
    rw [hi, hAll]
  · refine .inr ⟨?_, fun i hi => hKey ⟨i, hi.symm⟩⟩
    have h0 := fun h => hKey ⟨0, h⟩
    have h1 := fun h => hKey ⟨1, h⟩
    have h2 := fun h => hKey ⟨2, h⟩
    have h3 := fun h => hKey ⟨3, h⟩
    have h4 := fun h => hKey ⟨4, h⟩
    have h5 := fun h => hKey ⟨5, h⟩
    have h6 := fun h => hKey ⟨6, h⟩
    simp only [bitKey, leftShift, rightShift, leftCtrl,
      rightCtrl, leftAlt, rightAlt, capsLock, Key.mk.injEq,
      imp_false] at h0 h1 h2 h3 h4 h5 h6
    cases ext <;> simp_all [bitOf]

theorem update_bitKey
    (held : Key → Bool)
    (i j : Fin 7)
    (down : Bool) :
    Function.update held (bitKey i) down (bitKey j) =
      if j = i then down else held (bitKey j) := by
  simp only [Function.update_apply,
    bitKey_injective.eq_iff]

/- A bit is set and cleared without the others. -/
theorem pressed_getLsbD
    (p : BitVec 32)
    (i j : Fin 7)
    (down : Bool) :
    (if (!down) = true then p &&& ~~~BitVec.twoPow 32 i
      else p ||| BitVec.twoPow 32 i).getLsbD j =
      if j = i then down else p.getLsbD j := by
  have hj : (j : Nat) < 32 := by omega
  by_cases hij : j = i
  · subst hij
    cases down <;> simp [hj]
  · have hNe : (j : Nat) ≠ i := Fin.val_ne_of_ne hij
    cases down <;> simp [hij, hj, hNe]

theorem twoPow_eq_caps :
    ∀ i : Fin 7, BitVec.twoPow 32 i = 64 ↔ i = 6 := by
  decide

/- The state and the event after a key that has a bit. -/
theorem feedBit_eq
    {held held' : Key → Bool}
    (h : Follows s held)
    (i : Fin 7)
    (down : Bool)
    (hHeld : held' = Function.update held (bitKey i) down) :
    ∃ p : BitVec 32,
      (∀ j : Fin 7, p.getLsbD j = held' (bitKey j)) ∧
      feedBit s (BitVec.twoPow 32 i) (!down) =
        if altShiftHeld held' && !altShiftHeld held then
          ({ s with
              pressed := p
              caps := s.caps ^^
                capsPress held (.key (bitKey i) down)
              layout := !s.layout
              combo := altShiftHeld held' },
            some ⟨0x100, 0, modifiersHeld held', 0⟩)
        else
          ({ s with
              pressed := p
              caps := s.caps ^^
                capsPress held (.key (bitKey i) down)
              combo := altShiftHeld held' }, none) := by
  let p :=
    if (!down) = true then
      s.pressed &&& ~~~BitVec.twoPow 32 i
    else s.pressed ||| BitVec.twoPow 32 i
  have hBits (j : Fin 7) :
      p.getLsbD j = held' (bitKey j) := by
    rw [hHeld, update_bitKey, ← h.bits]
    exact pressed_getLsbD s.pressed i j down
  have hMods (caps : Bool) :
      keymapModifiers
          { s with pressed := p, caps := caps } =
        modifiersHeld held' :=
    keymapModifiers_eq hBits
  have hAlready :
      decide (s.pressed &&& BitVec.twoPow 32 i ≠ 0) =
        held (bitKey i) := by
    rw [← h.bits]
    exact Bool.eq_iff_iff.mpr
      (decide_eq_true_iff.trans (and_bit_ne_zero _ i))
  have hCaps :
      (if BitVec.twoPow 32 i = 64 ∧ (!down) = false ∧
          held (bitKey i) = false
        then !s.caps else s.caps) =
        (s.caps ^^ capsPress held (.key (bitKey i) down)) := by
    have hKey : bitKey i = capsLock ↔ i = 6 :=
      bitKey_injective.eq_iff' rfl
    simp only [twoPow_eq_caps, capsPress, hKey]
    by_cases hi : i = 6
    · subst hi
      cases down <;> cases hOld : held (bitKey 6) <;>
        simp_all [bitKey]
    · simp [hi]
  refine ⟨p, hBits, ?_⟩
  rw [feedBit, hAlready, hCaps]
  change (if decide (keymapModifiers
      { s with pressed := p, caps := _ } &&& 5 = 5) &&
        !s.combo then _ else _) = _
  rw [hMods, altShiftHeld_iff, h.combo]

/- A key that has a bit. -/
theorem feedBit_tracks
    (h : Follows s held)
    (i : Fin 7)
    (down : Bool) :
    Tracks s held (.key (bitKey i) down)
      ((feedBit s (BitVec.twoPow 32 i) !down).1,
        (feedBit s (BitVec.twoPow 32 i) !down).2.toList) := by
  obtain ⟨p, hBits, hEq⟩ := feedBit_eq h i down rfl
  rw [hEq]
  split
  case isTrue hToggle =>
    refine ⟨⟨hBits, h.extended, h.skip, rfl⟩, rfl, ?_, ?_⟩
    · exact (Bool.xor_true _).symm.trans
        (congrArg _ hToggle.symm)
    · intro e he hPoint
      rw [Option.toList_some, List.mem_singleton] at he
      exact absurd (congrArg KbdEvent.codepoint he) hPoint
  case isFalse hToggle =>
    refine ⟨⟨hBits, h.extended, h.skip, rfl⟩, rfl, ?_, ?_⟩
    · exact (Bool.xor_false _).symm.trans
        (congrArg _ (Bool.eq_false_of_not_eq_true hToggle).symm)
    · simp

/- An event of a key that has no bit. -/
theorem translate_codepoint
    (h : Follows s held)
    {ext : Bool}
    {sc : Nat}
    {e : KbdEvent}
    (he : translate s ext sc = some e)
    (hPoint : e.codepoint ≠ 0) :
    ctrlHeld held = false ∧ altHeld held = false := by
  rw [translate, keymapModifiers_eq h.bits,
    Option.map_eq_some_iff] at he
  obtain ⟨⟨key, cp⟩, -, rfl⟩ := he
  have hMods : modifiersHeld held &&& 6 = 0 := by
    by_contra hNe
    exact hPoint (if_pos (.inr (.inr hNe)))
  revert hMods
  rw [modifiersHeld]
  cases shiftHeld held <;> cases ctrlHeld held <;>
    cases altHeld held <;> decide

/- A key, whether it has a bit or not. -/
theorem feedKey_tracks
    (h : Follows s held)
    (k : Key)
    (down : Bool) :
    Tracks s held (.key k down)
      ((feedKey s k down).1,
        (feedKey s k down).2.toList) := by
  rcases bitOf_cases k with ⟨i, rfl, hBit⟩ | ⟨hBit, hNe⟩
  · have hSet : BitVec.twoPow 32 i ≠ 0 := by
      revert i
      decide
    rw [feedKey, hBit, if_pos hSet]
    exact feedBit_tracks h i down
  · rw [feedKey, hBit, if_neg (not_not_intro rfl)]
    cases down
    · exact tracks_of_no_bit h hNe (by simp)
    · refine tracks_of_no_bit h hNe fun e he => ?_
      exact translate_codepoint h (Option.mem_toList.mp he)

/- The bytes of a key. -/
theorem feedAll_key
    (h : Follows s held)
    (hValid : k.Valid) :
    Tracks s held (.key k down)
      (feedAll s (Code.key k down).bytes) := by
  have hTracks := feedKey_tracks h k down
  have hByte := keymapFeed_byte h.skip h.extended hValid down
  have hSame : { s with extended := false } = s := by
    rw [← h.extended]
  by_cases hExt : k.ext = true
  · have hPrefix : keymapFeed s 0xe0 =
        ({ s with extended := true }, none) := by
      simp [keymapFeed, isReply, h.skip]
    rw [hExt] at hByte
    simpa [Code.bytes, hExt, feedAll, hPrefix,
      hByte (hValid.noReply hExt down)] using hTracks
  · rw [Bool.not_eq_true] at hExt
    rw [hExt, hSame] at hByte
    simp only [Code.bytes, hExt, Bool.false_eq_true,
      if_false, feedAll, List.append_nil]
    cases hReply : isReply (k.byte down) with
    | false => rwa [hByte hReply]
    | true =>
      -- such a byte has no bit and no event of its own
      rcases bitOf_cases k with ⟨i, rfl, -⟩ | ⟨-, hNe⟩
      · have hAll : ∀ i : Fin 7, ∀ down,
            isReply ((bitKey i).byte down) = false := by
          decide
        rw [hAll] at hReply
        contradiction
      · rw [keymapFeed, hReply]
        exact tracks_of_no_bit h hNe (by simp)

/- A code about no key changes nothing. -/
theorem feedAll_silent
    (h : Follows s held)
    (hValid : c.Valid)
    (hSilent : c.Silent) :
    feedAll s c.bytes = (s, []) := by
  obtain ⟨pressed, layout, caps, extended, skip, combo⟩ := s
  obtain rfl : skip = 0 := h.skip
  obtain rfl : extended = false := h.extended
  cases c with
  | key k down => exact hSilent.elim
  | fakeShift right down =>
    cases right <;> cases down <;> rfl
  | pause => rfl
  | reply scan =>
    have hReply : isReply scan = true := hValid
    simp [Code.bytes, feedAll, keymapFeed, hReply]

theorem feedAll_tracks
    (h : Follows s held)
    (hValid : c.Valid) :
    Tracks s held c (feedAll s c.bytes) := by
  by_cases hSilent : c.Silent
  · rw [feedAll_silent h hValid hSilent]
    cases c with
    | key k down => exact hSilent.elim
    | _ => exact tracks_of_same h (fun _ => rfl) rfl (by simp)
  · cases c with
    | key k down => exact feedAll_key h hValid
    | _ => exact absurd trivial hSilent

--
-- Whole Streams
--

/- The keys that are held after a stream of codes. -/
def heldAfterAll (codes : List Code) : Key → Bool :=
  codes.foldl heldAfter fun _ => false

/- The decoder after the bytes of a stream. -/
def keymapAfter (codes : List Code) : Keymap :=
  (feedAll keymapInit (codes.flatMap Code.bytes)).1

theorem follows_run
    (h : Follows s held)
    {codes : List Code}
    (hCodes : ∀ c ∈ codes, c.Valid) :
    Follows (feedAll s (codes.flatMap Code.bytes)).1
      (codes.foldl heldAfter held) := by
  induction codes generalizing s held with
  | nil => exact h
  | cons c codes ih =>
    rw [List.forall_mem_cons] at hCodes
    rw [List.flatMap_cons, feedAll_append, List.foldl_cons]
    exact ih (feedAll_tracks h hCodes.1).follows hCodes.2

/-
  After any stream of codes, and after each further code:
  the modifiers are those of the keys held, no prefix is
  pending, CapsLock and the layout have been toggled by a
  press and by Alt and Shift coming together, a code about
  no key has changed nothing, and no event has a code point
  while Ctrl or Alt is held.
-/
theorem feedAll_follows
    (codes : List Code)
    (hCodes : ∀ c ∈ codes, c.Valid)
    (c : Code)
    (hValid : c.Valid) :
    let s := keymapAfter codes
    let s' := keymapAfter (codes ++ [c])
    let events := (feedAll s c.bytes).2
    let held := heldAfterAll codes
    let held' := heldAfterAll (codes ++ [c])
    keymapModifiers s' = modifiersHeld held' ∧
      s'.extended = false ∧ s'.skip = 0 ∧
      s'.caps = (s.caps ^^ capsPress held c) ∧
      s'.layout =
        (s.layout ^^
          (altShiftHeld held' && !altShiftHeld held)) ∧
      (c.Silent → s' = s ∧ events = []) ∧
      ∀ e ∈ events, e.codepoint ≠ 0 →
        ctrlHeld held' = false ∧ altHeld held' = false := by
  intro s s' events held held'
  have hFollows : Follows s held :=
    follows_run follows_init hCodes
  have hTracks := feedAll_tracks hFollows hValid
  have hNext : s' = (feedAll s c.bytes).1 := by
    simp only [s', s, keymapAfter, List.flatMap_append,
      feedAll_append, List.flatMap_singleton]
  have hHeld : held' = heldAfter held c := by
    simp only [held', held, heldAfterAll, List.foldl_append,
      List.foldl_cons, List.foldl_nil]
  rw [hNext, hHeld]
  refine ⟨keymapModifiers_eq hTracks.follows.bits,
    hTracks.follows.extended, hTracks.follows.skip,
    hTracks.caps, hTracks.layout, fun hSilent => ?_,
    hTracks.codepoint⟩
  have hSame : feedAll s c.bytes = (s, []) :=
    feedAll_silent hFollows hValid hSilent
  simp only [events, hSame, and_self]

/- Alt is pressed, then Shift, then a fake Shift comes. -/
theorem feedAll_follows_alt :
    let codes := [Code.key leftAlt true]
    keymapModifiers (keymapAfter
        (codes ++ [Code.key leftShift true])) =
      modifiersHeld (heldAfterAll
        (codes ++ [Code.key leftShift true])) := by
  have hKey (k : Key) (hk : k = leftAlt ∨ k = leftShift) :
      k.Valid := by
    rcases hk with rfl | rfl <;>
      exact ⟨by decide, by decide, by decide, by decide⟩
  exact (feedAll_follows [Code.key leftAlt true]
    (fun c hc => by
      rw [List.mem_singleton] at hc
      subst hc
      exact hKey _ (.inl rfl))
    (Code.key leftShift true) (hKey _ (.inr rfl))).1

end KvantOS.Keyboard
