import KvantOS.Block.Bytes

/-
  This file models the text document of the source file
  `textedit.c`: lines in one byte buffer, a caret and a
  selection.

  Key definitions include:
    * `TextDoc`, `TextMark`, `normalize`
    * `textImport`, `textExport`
    * `textPosition`, `textRange`
    * `textNext`, `textPrev`
-/

namespace KvantOS.Editor

--
-- Documents
--

/- `ED_CAP`, `ED_COLS` and `ED_QUERY_CAP`. -/
def edCap : Nat := 65536
def edCols : Nat := 120
def edQueryCap : Nat := 128

/- Lines end in a zero byte; `start` has their offsets. -/
structure TextDoc where
  data : Buf
  start : Nat → Nat
  lines : Nat
  cy : Nat
  cx : Nat
  top : Int
  left : Int
  dirty : Bool
  ay : Nat
  ax : Nat
  selecting : Bool
  used : Nat
  width : Nat

/- The caret, the view, the anchor and the revision. -/
structure TextMark where
  cy : Nat
  cx : Nat
  top : Int
  left : Int
  ay : Nat
  ax : Nat
  selecting : Bool
  revision : Nat
  deriving DecidableEq

/- A byte as text: lines are separated by newlines. -/
def shown (c : UInt8) : UInt8 :=
  if c = 0 then 10 else c

/- The string from the start of a row to its zero byte. -/
def textLine
    (d : TextDoc)
    (row : Nat) : List UInt8 :=
  ((d.data.drop (d.start row)).toList
    (edCap - d.start row)).takeWhile (· != 0)

def textReset (d : TextDoc) : TextDoc :=
  { d with
    data := fun i => if i = 0 then 0 else d.data i
    start := fun r => if r = 0 then 0 else d.start r
    used := 0
    width := 0
    lines := 1
    cx := 0
    cy := 0
    top := 0
    left := 0
    dirty := false
    ax := 0
    ay := 0
    selecting := false }

--
-- Characters
--

/- `(c & 0xc0) == 0x80`: not the first byte of a character. -/
def isTail (c : UInt8) : Bool :=
  c &&& 0xC0 == 0x80

def textNext
    (s : List UInt8)
    (col : Nat) : Nat :=
  if col < s.length then
    col + 1 + ((s.drop (col + 1)).takeWhile isTail).length
  else
    col

/- `while (col > 0 && (s[col] & 0xc0) == 0x80) col--`. -/
def backOver
    (s : List UInt8) : Nat → Nat
  | 0 => 0
  | col + 1 =>
      if isTail (s.getD (col + 1) 0) then
        backOver s col
      else
        col + 1

def textPrev
    (s : List UInt8) : Nat → Nat
  | 0 => 0
  | col + 1 => backOver s col

/- The characters before a byte. -/
def columnsFrom
    (s : List UInt8)
    (byte : Nat) : Nat → Nat → Nat
  | 0, _ => 0
  | fuel + 1, i =>
      if i < s.length ∧ i < byte then
        columnsFrom s byte fuel (textNext s i) + 1
      else
        0

def textColumn
    (s : List UInt8)
    (byte : Nat) : Nat :=
  columnsFrom s byte byte 0

--
-- Import and Export
--

/- The bytes that `normalize` writes for one byte. -/
def expand (c : UInt8) : List UInt8 :=
  if c = 13 then []
  else if c = 9 then [32, 32, 32, 32]
  else [c]

/- The column after a byte. -/
def columnAfter
    (col : Nat)
    (c : UInt8) : Nat :=
  if c = 10 then 0
  else if c = 9 then col + 4
  else col + 1

def normalizeFrom :
    Nat → Nat → List UInt8 → Option (List UInt8)
  | _, _, [] => some []
  | used, col, c :: rest =>
      if c = 13 then
        normalizeFrom used col rest
      else if c ≠ 10 ∧ c ≠ 9 ∧ (c < 32 ∨ c = 127) then
        none
      else if edCols < columnAfter col c then
        none
      else if edCap - 1 < used + (expand c).length then
        none
      else
        (normalizeFrom (used + (expand c).length)
          (columnAfter col c) rest).map (expand c ++ ·)

/-
  Tabs are expanded and carriage returns are dropped; `none`
  for control characters, long lines and too much text.
-/
def normalize (s : List UInt8) : Option (List UInt8) :=
  normalizeFrom 0 0 s

/- The offsets behind the newlines of a text. -/
def startsFrom : Nat → List UInt8 → List Nat
  | _, [] => []
  | n, c :: rest =>
      if c = 10 then
        (n + 1) :: startsFrom (n + 1) rest
      else
        startsFrom (n + 1) rest

def textStarts (s : List UInt8) : List Nat :=
  0 :: startsFrom 0 s

/- The text of a string, up to its zero byte. -/
def textImport
    (d : TextDoc)
    (s : List UInt8) : TextDoc :=
  let s := s.takeWhile (· != 0)
  let starts := textStarts s
  let d : TextDoc :=
    { d with
      data := fun i =>
        if i < s.length then
          if s.getD i 0 = 10 then 0 else s.getD i 0
        else if i = s.length then 0
        else d.data i
      start := fun r => starts.getD r (d.start r)
      used := s.length
      lines := starts.length }
  { d with
    width := ((List.range d.lines).map (fun r =>
      textColumn (textLine d r) (textLine d r).length)).foldl
        max 0 }

/- The document is left alone when the text is refused. -/
def textSet
    (d : TextDoc)
    (s : List UInt8) : Bool × TextDoc :=
  if edCap ≤ s.length then (false, d)
  else
    match normalize s with
    | none => (false, d)
    | some t => (true, textImport (textReset d) t)

def textExport (d : TextDoc) : List UInt8 :=
  (d.data.toList d.used).map shown

--
-- Positions
--

def textOffset
    (d : TextDoc)
    (row col : Nat) : Nat :=
  d.start row + col

/- The binary search for the first line past an offset. -/
def searchStart
    (d : TextDoc)
    (offset : Nat) : Nat → Nat → Nat → Nat
  | 0, low, _ => low
  | fuel + 1, low, high =>
      if low < high then
        if d.start (low + (high - low) / 2) ≤ offset then
          searchStart d offset fuel
            (low + (high - low) / 2 + 1) high
        else
          searchStart d offset fuel low
            (low + (high - low) / 2)
      else
        low

def textPosition
    (d : TextDoc)
    (offset : Nat) : TextDoc :=
  let offset := if d.used < offset then d.used else offset
  let low := searchStart d offset d.lines 0 d.lines
  { d with
    cy := low - 1
    cx := offset - d.start (low - 1) }

def textSelected (d : TextDoc) : Bool :=
  d.selecting && (d.cy != d.ay || d.cx != d.ax)

/- The selection, or the caret twice. -/
def textRange (d : TextDoc) : Nat × Nat :=
  let caret := textOffset d d.cy d.cx
  if textSelected d then
    let n := textOffset d d.ay d.ax
    if n < caret then (n, caret) else (caret, n)
  else
    (caret, caret)

def mark
    (d : TextDoc)
    (revision : Nat) : TextMark where
  cy := d.cy
  cx := d.cx
  top := d.top
  left := d.left
  ay := d.ay
  ax := d.ax
  selecting := d.selecting
  revision := revision

def restore
    (d : TextDoc)
    (m : TextMark) : TextDoc :=
  { d with
    cy := m.cy
    cx := m.cx
    top := m.top
    left := m.left
    ay := m.ay
    ax := m.ax
    selecting := m.selecting }

end KvantOS.Editor
