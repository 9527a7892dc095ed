import Mathlib.Data.BitVec
import Mathlib.Logic.Function.Basic

/-
  This file models the keyboard decoder: scan codes of set 1
  go in a byte at a time, and key events come out.

  Key definitions include:
    * `Keymap` and `keymapModifiers`
    * `keymapFeed` and `feedAll`
-/

namespace KvantOS.Keyboard

private def ascii (s : String) : List Nat :=
  s.toList.map Char.toNat

/- Characters 39, 96 and 123 to 126 are the quotes, the
  braces, the bar and the tilde. -/
def lower (sc : Nat) : Nat :=
  ([0, 27] ++ ascii "1234567890-=" ++ [8, 9] ++
    ascii "qwertyuiop[]" ++ [10, 0] ++ ascii "asdfghjkl;" ++
      [39, 96, 0, 92] ++ ascii "zxcvbnm,./" ++
        [0, 42, 0, 32, 0]).getD sc 0

def upper (sc : Nat) : Nat :=
  ([0, 27] ++ ascii "!@#$%^&*()_+" ++ [8, 9] ++
    ascii "QWERTYUIOP" ++ [123, 125, 10, 0] ++
      ascii "ASDFGHJKL:" ++ [34, 126, 0, 124] ++
        ascii "ZXCVBNM<>?" ++ [0, 42, 0, 32, 0]).getD sc 0

/- Only the letters have an entry. -/
def russian (sc : Nat) : Nat :=
  (List.replicate 16 0 ++
    [0x439, 0x446, 0x443, 0x43a, 0x435, 0x43d, 0x433, 0x448,
      0x449, 0x437, 0x445, 0x44a, 0, 0, 0x444, 0x44b, 0x432,
      0x430, 0x43f, 0x440, 0x43e, 0x43b, 0x434, 0x436, 0x44d,
      0x451, 0, 0, 0x44f, 0x447, 0x441, 0x43c, 0x438, 0x442,
      0x44c, 0x431, 0x44e]).getD sc 0

def navigation : Nat → Nat
  | 0x48 => 0x81
  | 0x50 => 0x82
  | 0x4b => 0x83
  | 0x4d => 0x84
  | 0x47 => 0x85
  | 0x4f => 0x86
  | 0x49 => 0x87
  | 0x51 => 0x88
  | 0x53 => 0x89
  | 0x52 => 0x8a
  | _ => 0

--
-- State
--

structure KbdEvent where
  key : Nat
  codepoint : Nat
  modifiers : Nat
  physical : Nat
  deriving DecidableEq

structure Keymap where
  pressed : BitVec 32
  layout : Bool
  caps : Bool
  extended : Bool
  skip : Nat
  combo : Bool

/- `keymap_init`. -/
def keymapInit : Keymap :=
  ⟨0, false, false, false, 0, false⟩

/- Shift is 1, Ctrl is 2 and Alt is 4. -/
def keymapModifiers (s : Keymap) : Nat :=
  (if s.pressed &&& 3 ≠ 0 then 1 else 0) |||
    (if s.pressed &&& 12 ≠ 0 then 2 else 0) |||
      (if s.pressed &&& 48 ≠ 0 then 4 else 0)

--
-- Translation
--

/- The code point of a letter key in the second layout. -/
def russianOf
    (sc : Nat)
    (shifted caps : Bool)
    (cp : Nat) : Nat :=
  if russian sc ≠ 0 then
    if shifted ^^ caps then
      if russian sc = 0x451 then 0x401
      else russian sc - 0x20
    else russian sc
  else if sc = 0x35 then if shifted then 44 else 46
  else if sc = 0x2b then if shifted then 47 else 92
  else if shifted then
    match sc with
    | 3 => 34
    | 4 => 0x2116
    | 5 => 59
    | 7 => 58
    | 8 => 63
    | _ => cp
  else cp

/- The key and the code point of a scan code, before Ctrl is
  folded into it. -/
def keyOf
    (s : Keymap)
    (mods : Nat)
    (ext : Bool)
    (sc : Nat) : Option (Nat × Nat) :=
  if ext then
    if sc = 0x1c then some (10, 0)
    else if sc = 0x35 then some (47, 47)
    else if navigation sc = 0 then none
    else some (navigation sc, 0)
  else if 0x3b ≤ sc ∧ sc ≤ 0x44 then
    some (0x90 + (sc - 0x3b), 0)
  else if navigation sc ≠ 0 then some (navigation sc, 0)
  else if lower sc = 0 then none
  else
    let shifted := decide (mods &&& 1 ≠ 0)
    let up :=
      if 97 ≤ lower sc ∧ lower sc ≤ 122 then
        shifted ^^ s.caps
      else shifted
    let key := if up then upper sc else lower sc
    some (key,
      if s.layout then russianOf sc shifted s.caps key
      else key)

/- Ctrl makes a control character of a letter. -/
def foldCtrl
    (mods key : Nat) : Nat :=
  if mods &&& 2 = 0 then key
  else if 97 ≤ key ∧ key ≤ 122 then key - 97 + 1
  else if 65 ≤ key ∧ key ≤ 90 then key - 65 + 1
  else key

def translate
    (s : Keymap)
    (ext : Bool)
    (sc : Nat) : Option KbdEvent :=
  let mods := keymapModifiers s
  (keyOf s mods ext sc).map fun (key, cp) =>
    let folded := foldCtrl mods key
    ⟨folded,
      if folded < 32 ∨ 127 ≤ folded ∨ mods &&& 6 ≠ 0 then 0
      else cp, mods, key⟩

--
-- Feeding
--

/- The bit of a key in `pressed`: the two Shifts, Ctrls and
  Alts, and CapsLock. -/
def bitOf
    (ext : Bool)
    (sc : Nat) : BitVec 32 :=
  if sc = 0x2a ∧ ext = false then 1
  else if sc = 0x36 ∧ ext = false then 2
  else if sc = 0x1d then if ext then 8 else 4
  else if sc = 0x38 then if ext then 32 else 16
  else if sc = 0x3a ∧ ext = false then 64
  else 0

def feedBit
    (s : Keymap)
    (bit : BitVec 32)
    (release : Bool) : Keymap × Option KbdEvent :=
  let already := decide (s.pressed &&& bit ≠ 0)
  let s' : Keymap :=
    { s with
      pressed :=
        if release then s.pressed &&& ~~~bit
        else s.pressed ||| bit
      caps :=
        if bit = 64 ∧ release = false ∧ already = false then
          !s.caps
        else s.caps }
  let mods := keymapModifiers s'
  let combo := decide (mods &&& 5 = 5)
  if combo && !s.combo then
    ({ s' with combo := combo, layout := !s.layout },
      some ⟨0x100, 0, mods, 0⟩)
  else ({ s' with combo := combo }, none)

/- What the controller says of itself, not of a key. -/
def isReply (scan : Nat) : Bool :=
  255 < scan || scan == 0xfa || scan == 0xfe ||
    scan == 0xee || scan == 0 || scan == 0xff

/- `keymap_feed`. -/
def keymapFeed
    (s : Keymap)
    (scan : Nat) : Keymap × Option KbdEvent :=
  if isReply scan then (s, none)
  else if s.skip ≠ 0 then
    ({ s with skip := s.skip - 1 }, none)
  else if scan = 0xe1 then
    ({ s with skip := 5, extended := false }, none)
  else if scan = 0xe0 then
    ({ s with extended := true }, none)
  else
    let release := decide (scan &&& 0x80 ≠ 0)
    let sc := scan &&& 0x7f
    let bit := bitOf s.extended sc
    let s' := { s with extended := false }
    if bit ≠ 0 then feedBit s' bit release
    else if release then (s', none)
    else (s', translate s' s.extended sc)

/- The bytes of a stream, and the events they give. -/
def feedAll
    (s : Keymap) : List Nat → Keymap × List KbdEvent
  | [] => (s, [])
  | scan :: scans =>
    let r := keymapFeed s scan
    let rest := feedAll r.1 scans
    (rest.1, r.2.toList ++ rest.2)

theorem feedAll_append
    (s : Keymap)
    (xs ys : List Nat) :
    feedAll s (xs ++ ys) =
      ((feedAll (feedAll s xs).1 ys).1,
        (feedAll s xs).2 ++
          (feedAll (feedAll s xs).1 ys).2) := by
  induction xs generalizing s with
  | nil => simp [feedAll]
  | cons x xs ih => simp [feedAll, ih]

end KvantOS.Keyboard
