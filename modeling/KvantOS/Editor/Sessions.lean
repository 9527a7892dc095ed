import KvantOS.Editor.Exact
import KvantOS.Editor.Normal

/-
  This file follows everything that calls of the editor lead
  to, copies of documents included, and gives the rule for
  what holds of the document and of every state that undo
  and redo may bring back.

  Key definitions include:
    * `textCopy`, `Worked`
    * `Everywhere`, `Sized`, `Kept`

  Key theorems include:
    * `Everywhere.step`, `worked_kept`
-/

namespace KvantOS.Editor

variable {s t : List UInt8} {d : TextDoc} {u : TextUndo}
variable {r : Editing} {c : TextCall}

/- Only the text and the offsets in use are copied. -/
def textCopy (dst src : TextDoc) : TextDoc :=
  { src with
    data := fun i =>
      if i ≤ src.used then src.data i else dst.data i
    start := fun r =>
      if r < src.lines then src.start r else dst.start r }

theorem textCopy_holds
    (dst : TextDoc)
    (hHolds : Holds d s) :
    Holds (textCopy dst d) s where
  used := hHolds.used
  data := by
    intro i x hAt
    have hIn := (List.getElem?_eq_some_iff.mp hAt).1
    have hUsed := hHolds.used
    unfold textCopy
    dsimp only
    rw [if_pos (by omega)]
    exact hHolds.data i x hAt
  stop := by
    have hUsed := hHolds.used
    unfold textCopy
    dsimp only
    rw [if_pos (by omega)]
    exact hHolds.stop
  lines := hHolds.lines
  start := by
    intro row x hAt
    have hIn := (List.getElem?_eq_some_iff.mp hAt).1
    have hLines := hHolds.lines
    unfold textCopy
    dsimp only
    rw [if_pos (by omega)]
    exact hHolds.start row x hAt

/- Everything that the calls lead to. -/
inductive Worked : Editing → Prop where
  | empty
      (d : TextDoc)
      (u : TextUndo) :
      Worked (opened (textReset d) u)
  | load
      (d d' : TextDoc)
      (u : TextUndo)
      (x : List UInt8)
      (hSet : textSet d x = (true, d')) :
      Worked (opened d' u)
  | copy
      {r : Editing}
      (dst : TextDoc)
      (u : TextUndo)
      (hWorked : Worked r) :
      Worked (opened (textCopy dst r.doc) u)
  | step
      {r : Editing}
      {c : TextCall}
      (hWorked : Worked r)
      (hAllowed : Allowed r c) :
      Worked (step r c)

--
-- Every State
--

/- What holds now, and of all that may be brought back. -/
structure Everywhere
    (p : Snapshot → Prop)
    (r : Editing) : Prop where
  now : p (snapshot r.doc)
  edits : r.timeline.All p

/- The calls that change the text or the caret anew. -/
def Changes : TextCall → Prop
  | .undo => False
  | .redo => False
  | .saved => False
  | .reset => False
  | _ => True

variable {p : Snapshot → Prop}

theorem observe_all
    (hAll : Everywhere p r)
    (hNew : p (snapshot (step r c).doc))
    (hObserve : (step r c).timeline = r.timeline ∨
      (step r c).timeline = r.timeline.record
        ⟨snapshot r.doc, snapshot (step r c).doc⟩) :
    Everywhere p (step r c) := by
  refine ⟨hNew, ?_⟩
  rcases hObserve with hSame | hRecord
  · rw [hSame]
    exact hAll.edits
  · rw [hRecord]
    exact hAll.edits.record ⟨hAll.now, hNew⟩

/- Undo and redo bring back what there was. -/
theorem Everywhere.step
    (hDescribed : Described r)
    (hAll : Everywhere p r)
    (hNew : Changes c → p (snapshot (step r c).doc)) :
    Everywhere p (step r c) := by
  have hEdit (hObserve : (KvantOS.Editor.step r c).timeline =
      if (call r.doc r.undo c).1 && makes r.doc c then
        r.timeline.record ⟨snapshot r.doc,
          snapshot (KvantOS.Editor.step r c).doc⟩
      else
        r.timeline)
      (hChanges : Changes c) :
      Everywhere p (KvantOS.Editor.step r c) := by
    refine observe_all hAll (hNew hChanges) ?_
    rw [hObserve]
    split
    · exact .inr rfl
    · exact .inl rfl
  obtain ⟨texts, hSynced⟩ := id hDescribed
  cases c with
  | replace x => exact hEdit rfl trivial
  | delete backwards => exact hEdit rfl trivial
  | replaceAll q x => exact hEdit rfl trivial
  | move m =>
      exact observe_all hAll (hNew trivial) (.inl rfl)
  | saved => exact ⟨hAll.now, hAll.edits⟩
  | reset => exact ⟨hAll.now, Timeline.all_empty⟩
  | undo =>
      rcases textUndo_synced hSynced with ⟨_, hFail⟩ |
        ⟨e, past, d', u', hPast, hUndo, _, hMark, hNext⟩
      · unfold KvantOS.Editor.step call observe
        dsimp only
        rw [hFail]
        exact hAll
      · unfold KvantOS.Editor.step call observe
        dsimp only
        rw [hUndo]
        refine ⟨?_, hAll.edits.undo⟩
        unfold snapshot
        dsimp only
        rw [hNext.export, hMark]
        exact (hAll.edits e (by rw [hPast]; simp)).1
  | redo =>
      rcases textRedo_synced hSynced with ⟨_, hFail⟩ |
        ⟨e, future, d', u', hFuture, hRedo, _, hMark, hNext⟩
      · unfold KvantOS.Editor.step call observe
        dsimp only
        rw [hFail]
        exact hAll
      · unfold KvantOS.Editor.step call observe
        dsimp only
        rw [hRedo]
        refine ⟨?_, hAll.edits.redo⟩
        unfold snapshot
        dsimp only
        rw [hNext.export, hMark]
        exact (hAll.edits e (by rw [hFuture]; simp)).2

--
-- What Edits Make
--

/- The documents differ in the caret and the view only. -/
structure SameText (d d' : TextDoc) : Prop where
  data : d'.data = d.data
  start : d'.start = d.start
  lines : d'.lines = d.lines
  used : d'.used = d.used
  width : d'.width = d.width

/- The text with a string in the place of the selection. -/
def spliced
    (d : TextDoc)
    (x : List UInt8) : List UInt8 :=
  (textExport d).take (textRange d).1 ++ x ++
    (textExport d).drop (textRange d).2

/- What a replacement returns. -/
theorem textReplace_cases
    (d : TextDoc)
    (u : TextUndo)
    (x : List UInt8) :
    (textReplace d u x = (false, d, u) ∧
        (edCap ≤ x.length ∨
          edCap ≤ (textExport d).length -
            ((textRange d).2 - (textRange d).1) + x.length ∨
          normalize (spliced d x) = none)) ∨
      (textReplace d u x = (true, d, u) ∧
        (textRange d).1 = (textRange d).2 ∧
        insertedLength x = 0) ∨
      ∃ t u', normalize (spliced d x) = some t ∧
        textReplace d u x = (true,
          editedDoc d t ((textRange d).1 + insertedLength x),
          u') := by
  unfold textReplace
  dsimp only
  by_cases hLong : edCap ≤ x.length ∨
      edCap ≤ (textExport d).length -
        ((textRange d).2 - (textRange d).1) + x.length
  · rw [if_pos hLong]
    exact .inl ⟨rfl, hLong.imp_right .inl⟩
  · rw [if_neg hLong]
    have hWhole : (textExport d).take (textRange d).1 ++ x ++
        (textExport d).drop (textRange d).2 = spliced d x :=
      rfl
    rw [hWhole]
    cases hNormal : normalize (spliced d x) with
    | none => exact .inl ⟨rfl, .inr (.inr rfl)⟩
    | some t =>
        dsimp only
        by_cases hNothing :
            (textRange d).1 = (textRange d).2 ∧
              insertedLength x = 0
        · rw [if_pos hNothing]
          exact .inr (.inl ⟨rfl, hNothing⟩)
        · rw [if_neg hNothing]
          exact .inr (.inr ⟨t, _, rfl, rfl⟩)

theorem sameText_edited
    (d : TextDoc)
    (t : List UInt8)
    (place : Nat) :
    SameText (textImport d t) (editedDoc d t place) :=
  ⟨rfl, rfl, rfl, rfl, rfl⟩

theorem sameText_restore
    (d : TextDoc)
    (m : TextMark) :
    SameText d (restore d m) :=
  ⟨rfl, rfl, rfl, rfl, rfl⟩

theorem sameText_position
    (d : TextDoc)
    (place : Nat) :
    SameText d (textPosition d place) :=
  ⟨rfl, rfl, rfl, rfl, rfl⟩

section Keeps

variable {P : TextDoc → Prop}

/- What holds after imports holds after every edit. -/
theorem textReplace_keeps
    (hSame : ∀ d d', SameText d d' → P d → P d')
    (hImport : ∀ d t, Proper t → P (textImport d t))
    (u : TextUndo)
    (x : List UInt8)
    (hDoc : P d) :
    P (textReplace d u x).2.1 := by
  rcases textReplace_cases d u x with
    ⟨hFail, -⟩ | ⟨hNothing, -⟩ | ⟨t, u', hNormal, hEdit⟩
  · rw [hFail]
    exact hDoc
  · rw [hNothing]
    exact hDoc
  · rw [hEdit]
    exact hSame _ _ (sameText_edited d t _)
      (hImport d t (normalize_proper hNormal))

theorem textDelete_keeps
    (hSame : ∀ d d', SameText d d' → P d → P d')
    (hImport : ∀ d t, Proper t → P (textImport d t))
    (u : TextUndo)
    (backwards : Bool)
    (hDoc : P d) :
    P (textDelete d u backwards).2.1 := by
  have hReplace (d : TextDoc) (hDoc : P d) :=
    textReplace_keeps hSame hImport u [] hDoc
  unfold textDelete
  split
  · exact hReplace d hDoc
  · split
    · exact hDoc
    · have hMoved := hReplace
        { d with
          ay := d.cy
          ax := d.cx
          selecting := true
          cy := (deleteCaret d backwards).1
          cx := (deleteCaret d backwards).2 }
        (hSame d _ ⟨rfl, rfl, rfl, rfl, rfl⟩ hDoc)
      dsimp only
      split
      · rename_i hEdit
        rw [hEdit] at hMoved
        exact hMoved
      · rename_i hFail
        rw [hFail] at hMoved
        exact hSame _ _ (sameText_restore _ _) hMoved

theorem textReplaceAll_keeps
    (hSame : ∀ d d', SameText d d' → P d → P d')
    (hImport : ∀ d t, Proper t → P (textImport d t))
    (u : TextUndo)
    (q x : List UInt8)
    (hDoc : P d) :
    P (textReplaceAll d u q x).2.2.1 := by
  unfold textReplaceAll
  split
  · exact hDoc
  · split
    · exact hDoc
    · split
      · exact hDoc
      · split
        · exact hDoc
        · rename_i replaced hits _ _ _
          have hMoved := textReplace_keeps hSame hImport u
            replaced
            (hSame d
              { d with
                ay := 0
                ax := 0
                cy := d.lines - 1
                cx := (textLine d (d.lines - 1)).length
                selecting := true }
              ⟨rfl, rfl, rfl, rfl, rfl⟩ hDoc)
          dsimp only
          split
          · rename_i hFail
            rw [hFail] at hMoved
            exact hSame _ _ (sameText_restore _ _) hMoved
          · rename_i hEdit
            rw [hEdit] at hMoved
            exact hSame _ _ (sameText_position _ _) hMoved

theorem call_keeps
    (hSame : ∀ d d', SameText d d' → P d → P d')
    (hImport : ∀ d t, Proper t → P (textImport d t))
    (u : TextUndo)
    (hChanges : Changes c)
    (hDoc : P d) :
    P (call d u c).2.1 := by
  cases c with
  | replace x => exact textReplace_keeps hSame hImport u x hDoc
  | delete backwards =>
      exact textDelete_keeps hSame hImport u backwards hDoc
  | replaceAll q x =>
      exact textReplaceAll_keeps hSame hImport u q x hDoc
  | move m => exact hSame _ _ (sameText_restore d m) hDoc
  | undo => cases hChanges
  | redo => cases hChanges
  | saved => cases hChanges
  | reset => cases hChanges

end Keeps

--
-- Widths
--

/- The width is that of the widest row. -/
def Sized (d : TextDoc) : Prop :=
  d.width = ((List.range d.lines).map (fun r =>
    textColumn (textLine d r) (textLine d r).length)).foldl
      max 0

theorem sized_import
    (d : TextDoc)
    (t : List UInt8) :
    Sized (textImport d t) :=
  rfl

theorem textLine_same
    {d d' : TextDoc}
    (hData : d'.data = d.data)
    (hStart : d'.start = d.start)
    (row : Nat) :
    textLine d' row = textLine d row := by
  unfold textLine
  rw [hData, hStart]

theorem Sized.same
    {d d' : TextDoc}
    (hSame : SameText d d')
    (hSized : Sized d) :
    Sized d' := by
  unfold Sized at hSized ⊢
  rw [hSame.width, hSame.lines, hSized]
  refine congrArg (List.foldl max 0) (List.map_congr_left ?_)
  intro row _
  rw [textLine_same hSame.data hSame.start]

theorem sized_reset (d : TextDoc) : Sized (textReset d) := by
  have hLine := textLine_eq (r := 0) (x := 0)
    (textReset_holds d) ⟨by decide, nofun⟩ rfl
  unfold Sized
  show 0 = ([0].map (fun row => textColumn
    (textLine (textReset d) row)
    (textLine (textReset d) row).length)).foldl max 0
  rw [List.map_singleton, hLine]
  rfl

theorem Sized.copy
    (dst : TextDoc)
    (hHolds : Holds d s)
    (hClean : Clean s)
    (hSized : Sized d) :
    Sized (textCopy dst d) := by
  have hCopy := textCopy_holds dst hHolds
  unfold Sized at hSized ⊢
  show d.width = _
  rw [hSized]
  refine congrArg (List.foldl max 0) (List.map_congr_left ?_)
  intro row hMem
  have hStart := hHolds.getElem?_start (List.mem_range.mp hMem)
  rw [textLine_eq hHolds hClean hStart,
    textLine_eq hCopy hClean hStart]

--
-- Runs
--

/- What is true of every state that calls lead to. -/
structure Kept (r : Editing) : Prop where
  described : Described r
  proper : Everywhere (fun x => Proper x.text) r
  sized : Sized r.doc

theorem Described.holds
    (hDescribed : Described r) :
    Holds r.doc (textExport r.doc) := by
  obtain ⟨texts, hSynced⟩ := hDescribed
  exact hSynced.holds

theorem textExport_same
    {d d' : TextDoc}
    (hSame : SameText d d') :
    textExport d' = textExport d := by
  unfold textExport
  rw [hSame.data, hSame.used]

theorem historyApply_sized
    (u : TextUndo)
    (redo : Bool)
    (hSized : Sized d) :
    Sized (historyApply d u redo).2.1 := by
  unfold historyApply
  generalize (if redo then u.cursor == u.count
    else u.cursor == 0) = spent
  cases spent with
  | true => exact hSized
  | false =>
      generalize u.changes[if redo then u.cursor
        else u.cursor - 1]? = found
      cases found with
      | none => exact hSized
      | some c =>
          exact (sized_import d _).same
            ⟨rfl, rfl, rfl, rfl, rfl⟩

theorem Kept.step
    (hKept : Kept r)
    (hAllowed : Allowed r c) :
    Kept (step r c) := by
  have hDoc (hChanges : Changes c) :
      Proper (textExport (call r.doc r.undo c).2.1) := by
    refine call_keeps (P := fun d => Proper (textExport d))
      ?_ ?_ r.undo hChanges hKept.proper.now
    · intro d d' hSame hProper
      rw [textExport_same hSame]
      exact hProper
    · intro d t hProper
      rw [textExport_eq (textImport_holds d hProper.clean)
        hProper.clean]
      exact hProper
  refine ⟨(step_synced hKept.described hAllowed).1,
    Everywhere.step hKept.described hKept.proper hDoc, ?_⟩
  show Sized (call r.doc r.undo c).2.1
  cases c with
  | undo => exact historyApply_sized r.undo false hKept.sized
  | redo => exact historyApply_sized r.undo true hKept.sized
  | saved => exact hKept.sized
  | reset => exact hKept.sized
  | replace x =>
      exact call_keeps (c := .replace x)
        (fun _ _ hSame hSized => hSized.same hSame)
        (fun d t _ => sized_import d t) r.undo trivial
        hKept.sized
  | delete backwards =>
      exact call_keeps (c := .delete backwards)
        (fun _ _ hSame hSized => hSized.same hSame)
        (fun d t _ => sized_import d t) r.undo trivial
        hKept.sized
  | replaceAll q x =>
      exact call_keeps (c := .replaceAll q x)
        (fun _ _ hSame hSized => hSized.same hSame)
        (fun d t _ => sized_import d t) r.undo trivial
        hKept.sized
  | move m =>
      exact call_keeps (c := .move m)
        (fun _ _ hSame hSized => hSized.same hSame)
        (fun d t _ => sized_import d t) r.undo trivial
        hKept.sized

/- A document that was loaded, with an empty history. -/
theorem opened_kept
    (u : TextUndo)
    (hHolds : Holds d s)
    (hProper : Proper s)
    (hPlace : MarkOk s (mark d 0))
    (hSized : Sized d) :
    Kept (opened d u) where
  described :=
    opened_described u hHolds hProper.clean hPlace
  proper := by
    refine ⟨?_, Timeline.all_empty⟩
    show Proper (textExport d)
    rw [textExport_eq hHolds hProper.clean]
    exact hProper
  sized := hSized

theorem textSet_some
    {d' : TextDoc}
    {x : List UInt8}
    (hSet : textSet d x = (true, d')) :
    ∃ t, normalize x = some t ∧
      d' = textImport (textReset d) t := by
  unfold textSet at hSet
  split at hSet
  · cases hSet
  · split at hSet
    · cases hSet
    · rename_i t hNormal
      rw [Prod.mk.injEq] at hSet
      exact ⟨t, hNormal, hSet.2.symm⟩

theorem worked_kept
    (hWorked : Worked r) :
    Kept r := by
  induction hWorked with
  | empty d u =>
      exact opened_kept u (textReset_holds d) proper_nil
        ⟨⟨0, rfl, Nat.zero_le _⟩, nofun⟩ (sized_reset d)
  | load d d' u x hSet =>
      obtain ⟨t, hNormal, rfl⟩ := textSet_some hSet
      have hProper := normalize_proper hNormal
      exact opened_kept u
        (textImport_holds _ hProper.clean) hProper
        ⟨⟨0, rfl, Nat.zero_le _⟩, nofun⟩ (sized_import _ t)
  | copy dst u _ ih =>
      obtain ⟨texts, hSynced⟩ := ih.described
      exact opened_kept u
        (textCopy_holds dst hSynced.holds) ih.proper.now
        hSynced.place
        (ih.sized.copy dst hSynced.holds hSynced.clean)
  | step _ hAllowed ih => exact ih.step hAllowed

end KvantOS.Editor
