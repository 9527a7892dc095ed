import KvantOS.Editor.Document

/-
  This file models the edits of `textedit.c` and the history
  that takes them back: deltas in one packed byte buffer.

  Key definitions include:
    * `TextChange`, `TextUndo`, `historyPush`
    * `replaceCommit`
    * `textReplace`, `textDelete`, `textReplaceAll`
    * `historyApply`, `textUndo`, `textRedo`
-/

namespace KvantOS.Editor

--
-- The History
--

/- `ED_HISTORY_STEPS` and `ED_HISTORY_BYTES`. -/
def edHistorySteps : Nat := 64
def edHistoryBytes : Nat := edCap * 2

/- `~0u`, which is the number of no revision. -/
def noRevision : Nat := 2 ^ 32 - 1

structure TextChange where
  pos : Nat
  removed : Nat
  inserted : Nat
  data : Nat
  before : TextMark
  after : TextMark
  deriving DecidableEq

/- The `count` changes of the array are a list here. -/
structure TextUndo where
  data : Buf
  changes : List TextChange
  used : Nat
  cursor : Nat
  serial : Nat
  current : Nat
  saved : Nat

def TextUndo.count (u : TextUndo) : Nat :=
  u.changes.length

/- Write to a change of the array. -/
def TextUndo.edit
    (u : TextUndo)
    (i : Nat)
    (f : TextChange → TextChange) : TextUndo :=
  { u with changes := u.changes.modify i f }

def textHistoryReset
    (d : TextDoc)
    (u : TextUndo) : TextUndo :=
  { u with
    used := 0
    changes := []
    cursor := 0
    serial := 0
    current := 0
    saved := if d.dirty then noRevision else 0 }

def textSaved
    (d : TextDoc)
    (u : TextUndo) : TextDoc × TextUndo :=
  ({ d with dirty := false }, { u with saved := u.current })

/- Drop the oldest change. -/
def dropOldest (u : TextUndo) : TextUndo :=
  match u.changes with
  | [] => u
  | c :: rest =>
      let cut := c.removed + c.inserted
      { u with
        data := u.data.copy 0 (u.data.drop cut) (u.used - cut)
        changes := rest.map (fun c =>
          { c with data := c.data - cut })
        used := u.used - cut
        cursor := u.cursor - 1 }

/- Drop changes until there is room; a round for each. -/
def makeRoom
    (bytes : Nat) : Nat → TextUndo → TextUndo
  | 0, u => u
  | fuel + 1, u =>
      if u.count ≠ 0 ∧ (u.count = edHistorySteps ∨
          edHistoryBytes < u.used + bytes) then
        makeRoom bytes fuel (dropOldest u)
      else
        u

/- Undone changes are discarded. -/
def dropUndone (u : TextUndo) : TextUndo :=
  { u with
    used :=
      match u.changes[u.cursor]? with
      | some c => c.data
      | none => u.used
    changes := u.changes.take u.cursor }

/- The change that was pushed is the last of the result. -/
def historyPush
    (d : TextDoc)
    (u : TextUndo)
    (bytes : Nat) : TextUndo :=
  let u :=
    if noRevision - 1 ≤ u.serial then textHistoryReset d u
    else u
  let u := dropUndone u
  let u := makeRoom bytes u.count u
  let c : TextChange :=
    { pos := 0
      removed := 0
      inserted := 0
      data := u.used
      before := mark d u.current
      after := mark d u.current }
  { u with
    changes := u.changes ++ [c]
    used := u.used + bytes
    cursor := u.count + 1 }

--
-- Edits
--

/- The length of an insertion after `normalize`. -/
def insertedLength : List UInt8 → Nat
  | [] => 0
  | c :: rest =>
      (if c = 13 then 0 else if c = 9 then 4 else 1) +
        insertedLength rest

/-
  Record and make an edit that puts the new text in the place
  of the bytes from `a` to `b`; `before` is the whole text,
  normalised, and its insertion has `inserted` bytes.
-/
def replaceCommit
    (d : TextDoc)
    (u : TextUndo)
    (a b inserted : Nat)
    (before : List UInt8) : TextDoc × TextUndo :=
  let u := historyPush d u (b - a + inserted)
  let last := u.count - 1
  -- the `data` of the change that was pushed
  let place := u.used - (b - a + inserted)
  let u : TextUndo :=
    { u with
      data := (u.data.copy place
        (fun i => shown (d.data (a + i))) (b - a)).copy
          (place + (b - a)) (Buf.ofList (before.drop a))
          inserted }
  let u := u.edit last (fun c =>
    { c with
      pos := a
      removed := b - a
      inserted := inserted })
  let d := textPosition (textImport d before) (a + inserted)
  let d : TextDoc :=
    { d with selecting := false, dirty := true }
  let serial := (u.serial + 1) % 2 ^ 32
  let u : TextUndo :=
    { u with serial := serial, current := serial }
  (d, u.edit last (fun c =>
    { c with after := mark d u.current }))

/- Put a string in the place of the selection. -/
def textReplace
    (d : TextDoc)
    (u : TextUndo)
    (s : List UInt8) : Bool × TextDoc × TextUndo :=
  let before := textExport d
  let a := (textRange d).1
  let b := (textRange d).2
  if edCap ≤ s.length ∨
      edCap ≤ before.length - (b - a) + s.length then
    (false, d, u)
  else
    match normalize
        (before.take a ++ s ++ before.drop b) with
    | none => (false, d, u)
    | some before =>
        if a = b ∧ insertedLength s = 0 then
          (true, d, u)
        else
          (true, replaceCommit d u a b (insertedLength s)
            before)

/- Give the last change the mark from before the call. -/
def fixBefore
    (u : TextUndo)
    (original : TextMark) : TextUndo :=
  u.edit (u.cursor - 1) (fun c =>
    { c with
      before :=
        { original with revision := c.before.revision } })

/- The caret after it moved over one character. -/
def deleteCaret
    (d : TextDoc)
    (backwards : Bool) : Nat × Nat :=
  if backwards then
    if d.cx ≠ 0 then
      (d.cy, textPrev (textLine d d.cy) d.cx)
    else
      (d.cy - 1, (textLine d (d.cy - 1)).length)
  else if d.cx < (textLine d d.cy).length then
    (d.cy, textNext (textLine d d.cy) d.cx)
  else
    (d.cy + 1, 0)

/- There is nothing to delete. -/
def atEdge
    (d : TextDoc)
    (backwards : Bool) : Bool :=
  if backwards then textOffset d d.cy d.cx == 0
  else
    d.cy == d.lines - 1 &&
      (textLine d d.cy).length ≤ d.cx

def textDelete
    (d : TextDoc)
    (u : TextUndo)
    (backwards : Bool) : Bool × TextDoc × TextUndo :=
  if textSelected d then
    textReplace d u []
  else if atEdge d backwards then
    (true, d, u)
  else
    let original := mark d u.current
    let d' : TextDoc :=
      { d with
        ay := d.cy
        ax := d.cx
        selecting := true
        cy := (deleteCaret d backwards).1
        cx := (deleteCaret d backwards).2 }
    match textReplace d' u [] with
    | (true, d, u) => (true, d, fixBefore u original)
    | (false, d, u) => (false, restore d original, u)

--
-- Undo and Redo
--

def historyApply
    (d : TextDoc)
    (u : TextUndo)
    (redo : Bool) : Bool × TextDoc × TextUndo :=
  if (if redo then u.cursor == u.count else u.cursor == 0)
  then
    (false, d, u)
  else
    match u.changes[if redo then u.cursor
        else u.cursor - 1]? with
    | none => (false, d, u)
    | some c =>
        let removed := if redo then c.removed else c.inserted
        let inserted := if redo then c.inserted else c.removed
        let payload := u.data.drop
          (c.data + if redo then c.removed else 0)
        let before := textExport d
        let after := before.take c.pos ++
          payload.toList inserted ++
          before.drop (c.pos + removed)
        let m := if redo then c.after else c.before
        let d := restore (textImport d after) m
        (true,
          { d with dirty := m.revision != u.saved },
          { u with
            current := m.revision
            cursor :=
              if redo then u.cursor + 1 else u.cursor - 1 })

def textUndo
    (d : TextDoc)
    (u : TextUndo) : Bool × TextDoc × TextUndo :=
  historyApply d u false

def textRedo
    (d : TextDoc)
    (u : TextUndo) : Bool × TextDoc × TextUndo :=
  historyApply d u true

--
-- Replacing All
--

/- An offset between two characters. -/
def boundary
    (d : TextDoc)
    (i : Nat) : Bool :=
  i == d.used || !isTail (d.data i)

def textMatches
    (d : TextDoc)
    (q : List UInt8)
    (i : Nat) : Bool :=
  i ≤ d.used && q.length ≤ d.used - i && boundary d i &&
    boundary d (i + q.length) &&
    ((d.data.drop i).toList q.length).map shown == q

def queryOk (q : List UInt8) : Bool :=
  match q with
  | [] => false
  | c :: _ => q.length < edQueryCap && !isTail c &&
      q.all (· != 0)

/- The text with replacements, and how many were made. -/
def substitute
    (d : TextDoc)
    (q s : List UInt8) :
    Nat → Nat → List UInt8 → Nat → Option (List UInt8 × Nat)
  | 0, _, out, hits => some (out, hits)
  | fuel + 1, i, out, hits =>
      if i < d.used then
        if textMatches d q i then
          if edCap - out.length ≤ s.length then none
          else
            substitute d q s fuel (i + q.length) (out ++ s)
              (hits + 1)
        else if edCap - 1 ≤ out.length then none
        else
          substitute d q s fuel (i + 1)
            (out ++ [shown (d.data i)]) hits
      else
        some (out, hits)

/- The second result is `*count`. -/
def textReplaceAll
    (d : TextDoc)
    (u : TextUndo)
    (q s : List UInt8) : Bool × Nat × TextDoc × TextUndo :=
  if !queryOk q || edQueryCap ≤ s.length then
    (false, 0, d, u)
  else
    match substitute d q s d.used 0 [] 0 with
    | none => (false, 0, d, u)
    | some (replaced, hits) =>
        if hits = 0 then (true, 0, d, u)
        else if replaced = textExport d then
          (true, hits, d, u)
        else
          let original := mark d u.current
          let caret := textOffset d d.cy d.cx
          let d' : TextDoc :=
            { d with
              ay := 0
              ax := 0
              cy := d.lines - 1
              cx := (textLine d (d.lines - 1)).length
              selecting := true }
          match textReplace d' u replaced with
          | (false, d, u) => (false, 0, restore d original, u)
          | (true, d, u) =>
              let u := fixBefore u original
              let d := textPosition d caret
              (true, hits, d, u.edit (u.cursor - 1) (fun c =>
                { c with after := mark d u.current }))

end KvantOS.Editor
