import KvantOS.Editor.Undo

/-
  This file states what undo and redo restore in every state
  that calls lead to, and what an edit discards.

  Key definitions include:
    * `Bounded`, `UndoExact`, `Spent`

  Key theorems include:
    * `undo_iterate`, `redo_iterate`, `undo_exact`
    * `edit_drops_history`
-/

namespace KvantOS.Editor

variable {s saved : List UInt8} {d : TextDoc} {u : TextUndo}
variable {texts : Nat → List UInt8}
variable {timeline : Timeline Snapshot} {r : Editing}

--
-- Exactness
--

/- Everything stays inside the buffers. -/
structure Bounded (r : Editing) : Prop where
  bytes : r.undo.used ≤ edHistoryBytes
  steps : r.undo.count ≤ edHistorySteps
  deltas : ∀ c ∈ r.undo.changes,
    c.data < edHistoryBytes ∧ c.data + c.size ≤ r.undo.used
  text : r.doc.used < edCap
  rows : ∀ row, row < r.doc.lines → r.doc.start row ≤ r.doc.used
  caret : r.doc.cy < r.doc.lines ∧
    textOffset r.doc r.doc.cy r.doc.cx ≤ r.doc.used
  selection : (textRange r.doc).1 ≤ (textRange r.doc).2 ∧
    (textRange r.doc).2 ≤ r.doc.used

theorem Synced.bounded
    (hSynced : Synced texts r.saved (textExport r.doc) r.doc
      r.undo r.timeline) :
    Bounded r := by
  have hStored := hSynced.stored
  have hHolds := hSynced.holds
  have hUsed := hHolds.used
  refine ⟨hStored.bytes, hStored.steps, ?_, ?_, ?_, ⟨?_, ?_⟩,
    ?_⟩
  · intro c hMem
    have hBytes := hStored.bytes
    have hIn := hStored.packed.bounds hMem
    have hFilled := ((List.forall₂_and_left _ _).mp
      (hStored.each.imp
        (fun _ _ hRecords => ⟨hRecords.filled, hRecords⟩))).1
          c hMem
    omega
  · rw [hUsed]
    exact hSynced.clean.room
  · intro row hRow
    rw [hUsed]
    exact (textStarts_next (hHolds.getElem?_start hRow)).1
  · obtain ⟨x, hStart, _⟩ := hSynced.place.caret
    rw [hHolds.lines]
    exact (List.getElem?_eq_some_iff.mp hStart).1
  · rw [hUsed]
    exact textOffset_le hHolds hSynced.place.caret
  · rw [hUsed]
    exact textRange_spec hHolds hSynced.place

theorem undo_step
    (hDescribed : Described r)
    (hSome : r.undo.cursor ≠ 0) :
    (call r.doc r.undo .undo).1 = true ∧
      (step r .undo).timeline = r.timeline.undo ∧
      r.undo.cursor = (step r .undo).undo.cursor + 1 ∧
      ∃ e past, r.timeline.past = e :: past ∧
        snapshot (step r .undo).doc = e.before := by
  obtain ⟨texts, hSynced⟩ := hDescribed
  rcases textUndo_synced hSynced with ⟨hZero, _⟩ |
    ⟨e, past, d', u', hPast, hUndo, hCursor, hMark, hNext⟩
  · exact absurd hZero hSome
  · unfold step call observe
    dsimp only
    rw [hUndo]
    refine ⟨rfl, rfl, hCursor, e, past, hPast, ?_⟩
    unfold snapshot
    dsimp only
    rw [hNext.export, hMark]

theorem redo_step
    (hDescribed : Described r)
    (hSome : r.timeline.future ≠ []) :
    (call r.doc r.undo .redo).1 = true ∧
      (step r .redo).timeline = r.timeline.redo ∧
      (step r .redo).undo.cursor = r.undo.cursor + 1 ∧
      ∃ e future, r.timeline.future = e :: future ∧
        snapshot (step r .redo).doc = e.after := by
  obtain ⟨texts, hSynced⟩ := hDescribed
  rcases textRedo_synced hSynced with ⟨hNone, _⟩ |
    ⟨e, future, d', u', hFuture, hRedo, hCursor, hMark,
      hNext⟩
  · exact absurd hNone hSome
  · unfold step call observe
    dsimp only
    rw [hRedo]
    refine ⟨rfl, rfl, hCursor, e, future, hFuture, ?_⟩
    unfold snapshot
    dsimp only
    rw [hNext.export, hMark]

variable {m : Nat}

/- Several undos, and several redos. -/
theorem undo_iterate
    (hDescribed : Described r)
    (hEnough : m ≤ r.undo.cursor) :
    Described ((step · .undo)^[m] r) ∧
      ((step · .undo)^[m] r).timeline =
        Timeline.undo^[m] r.timeline ∧
      r.undo.cursor =
        ((step · .undo)^[m] r).undo.cursor + m := by
  induction m generalizing r with
  | zero => exact ⟨hDescribed, rfl, rfl⟩
  | succ m ih =>
      obtain ⟨_, hTimeline, hCursor, _⟩ :=
        undo_step hDescribed (by omega)
      obtain ⟨hLast, hAll, hLeft⟩ := ih
        (step_synced (c := .undo) hDescribed trivial).1
        (by omega)
      rw [Function.iterate_succ_apply,
        Function.iterate_succ_apply, ← hTimeline]
      exact ⟨hLast, hAll, by omega⟩

theorem redo_iterate
    (hDescribed : Described r)
    (hEnough : m ≤ r.timeline.future.length)
    (hSome : 0 < m) :
    ((step · .redo)^[m] r).timeline =
        Timeline.redo^[m] r.timeline ∧
      ((step · .redo)^[m] r).undo.cursor =
        r.undo.cursor + m ∧
      ∃ e past,
        ((step · .redo)^[m] r).timeline.past = e :: past ∧
        snapshot ((step · .redo)^[m] r).doc = e.after := by
  induction m generalizing r with
  | zero => exact absurd hSome (Nat.lt_irrefl 0)
  | succ m ih =>
      have hMore : r.timeline.future ≠ [] := by
        intro hNone
        rw [hNone, List.length_nil] at hEnough
        omega
      obtain ⟨_, hTimeline, hCursor, e, future, hFuture,
        hSnapshot⟩ := redo_step hDescribed hMore
      have hRedo : r.timeline.redo =
          ⟨e :: r.timeline.past, future⟩ := by
        unfold Timeline.redo
        rw [hFuture]
      rw [Function.iterate_succ_apply,
        Function.iterate_succ_apply, ← hTimeline]
      by_cases hZero : m = 0
      · subst hZero
        refine ⟨rfl, hCursor, e, r.timeline.past, ?_,
          hSnapshot⟩
        show (step r .redo).timeline.past = _
        rw [hTimeline, hRedo]
      · obtain ⟨hAll, hLeft, hLast⟩ := ih
          (step_synced (c := .redo) hDescribed trivial).1
          (by
            rw [hTimeline, hRedo]
            rw [hFuture, List.length_cons] at hEnough
            exact Nat.le_of_succ_le_succ hEnough)
          (by omega)
        exact ⟨hAll, by omega, hLast⟩

/-
  What undo and redo restore, and what an edit discards: the
  undone changes and, while revision numbers last, none of
  the others but the oldest where there is no room.
-/
structure UndoExact (r : Editing) : Prop where
  undone : r.undo.count =
    r.undo.cursor + r.timeline.future.length
  undoes : (call r.doc r.undo .undo).1 = true ↔
    r.undo.cursor ≠ 0
  undo : (call r.doc r.undo .undo).1 = true →
    ∃ e past, r.timeline.past = e :: past ∧
      snapshot (step r .undo).doc = e.before
  redoes : (call r.doc r.undo .redo).1 = true ↔
    r.undo.cursor ≠ r.undo.count
  redo : (call r.doc r.undo .redo).1 = true →
    ∃ e future, r.timeline.future = e :: future ∧
      snapshot (step r .redo).doc = e.after
  roundTrip : ∀ m, 0 < m → m ≤ r.undo.cursor →
    ((step · .redo)^[m] ((step · .undo)^[m] r)).timeline =
        r.timeline ∧
      ((step · .redo)^[m]
        ((step · .undo)^[m] r)).undo.cursor = r.undo.cursor ∧
      ∃ e past, r.timeline.past = e :: past ∧
        snapshot ((step · .redo)^[m]
          ((step · .undo)^[m] r)).doc = e.after
  edit : ∀ c, Allowed r c →
    (call r.doc r.undo c).1 = true → makes r.doc c = true →
      (step r c).timeline = r.timeline.record
        ⟨snapshot r.doc, snapshot (step r c).doc⟩ ∧
      Discards r.undo (step r c).undo

theorem future_undo_iterate
    {t : Timeline Snapshot}
    (hEnough : m ≤ t.past.length) :
    (Timeline.undo^[m] t).future.length =
      t.future.length + m := by
  induction m generalizing t with
  | zero => rfl
  | succ m ih =>
      obtain ⟨past, future⟩ := t
      cases past with
      | nil => simp at hEnough
      | cons e past =>
          rw [Function.iterate_succ_apply]
          have hRest := ih (t := ⟨past, e :: future⟩)
            (Nat.le_of_succ_le_succ hEnough)
          rw [show Timeline.undo ⟨e :: past, future⟩ =
            ⟨past, e :: future⟩ from rfl, hRest]
          simp only [List.length_cons]
          omega

theorem described_exact
    (hDescribed : Described r) :
    UndoExact r := by
  obtain ⟨texts, hSynced⟩ := id hDescribed
  have hDepth := hSynced.depth
  have hCount := hSynced.stored.count_eq
  rw [List.length_append, ← hSynced.cursor_eq] at hCount
  have hUndoes : (call r.doc r.undo .undo).1 = true ↔
      r.undo.cursor ≠ 0 := by
    refine ⟨?_, fun hSome => (undo_step hDescribed hSome).1⟩
    intro hTrue hZero
    rcases textUndo_synced hSynced with ⟨_, hFail⟩ |
      ⟨_, _, _, _, _, _, hCursor, _⟩
    · unfold call at hTrue
      rw [hFail] at hTrue
      cases hTrue
    · omega
  have hRedoes : (call r.doc r.undo .redo).1 = true ↔
      r.timeline.future ≠ [] := by
    refine ⟨?_, fun hSome => (redo_step hDescribed hSome).1⟩
    intro hTrue hNone
    rcases textRedo_synced hSynced with ⟨_, hFail⟩ |
      ⟨_, _, _, _, hFuture, _⟩
    · unfold call at hTrue
      rw [hFail] at hTrue
      cases hTrue
    · rw [hNone] at hFuture
      cases hFuture
  refine ⟨hCount, hUndoes, ?_, ?_, ?_, ?_, ?_⟩
  · intro hTrue
    exact (undo_step hDescribed (hUndoes.mp hTrue)).2.2.2
  · rw [hRedoes, hCount, ← List.length_pos_iff_ne_nil]
    omega
  · intro hTrue
    exact (redo_step hDescribed (hRedoes.mp hTrue)).2.2.2
  · intro m hSome hEnough
    obtain ⟨hMiddle, hBack, hLeft⟩ :=
      undo_iterate hDescribed hEnough
    have hMany : m ≤
        ((step · .undo)^[m] r).timeline.future.length := by
      rw [hBack, future_undo_iterate (by omega)]
      omega
    obtain ⟨hForth, hCursor, hLast⟩ :=
      redo_iterate hMiddle hMany hSome
    rw [hBack, Timeline.redo_undo_iterate (by omega)]
      at hForth
    rw [hForth] at hLast
    exact ⟨hForth, by omega, hLast⟩
  · intro c hAllowed hTrue hMakes
    refine ⟨?_, (step_synced hDescribed hAllowed).2 hTrue
      hMakes⟩
    cases c with
    | replace x =>
        unfold step observe
        dsimp only
        rw [hTrue, hMakes]
        rfl
    | delete backwards =>
        unfold step observe
        dsimp only
        rw [hTrue, hMakes]
        rfl
    | replaceAll q x =>
        unfold step observe
        dsimp only
        rw [hTrue, hMakes]
        rfl
    | undo => cases hMakes
    | redo => cases hMakes
    | saved => cases hMakes
    | reset => cases hMakes
    | move m => cases hMakes

/- Undo and redo are exact, inside the buffers. -/
theorem undo_exact
    (hReach : Reach r) :
    UndoExact r ∧ Bounded r := by
  have hDescribed := reach_described hReach
  obtain ⟨texts, hSynced⟩ := id hDescribed
  exact ⟨described_exact hDescribed, hSynced.bounded⟩

/- After typing one letter. -/
theorem undo_exact_letter :
    UndoExact (step (opened (textReset blankDoc) blankUndo)
        (.replace [97])) ∧
      Bounded (step (opened (textReset blankDoc) blankUndo)
        (.replace [97])) :=
  undo_exact (.step (.empty blankDoc blankUndo) trivial)

--
-- The Last Revision
--

theorem textRange_caret
    (hOff : d.selecting = false) :
    (textRange d).2 = (textRange d).1 := by
  unfold textRange textSelected
  dsimp only
  rw [hOff]
  rfl

variable {n : Nat}

/- A letter can be typed into a short text of letters. -/
theorem textReplace_letter
    (hSynced : Synced texts saved (List.replicate n 97) d u
      timeline)
    (hShort : n ≤ 2)
    (hOff : d.selecting = false) :
    (textReplace d u [97]).1 = true ∧
      (List.replicate n 97).take (textRange d).1 ++
          [(97 : UInt8)].flatMap expand ++
          (List.replicate n 97).drop (textRange d).2 =
        List.replicate (n + 1) 97 := by
  obtain ⟨_, hEnd⟩ :=
    textRange_spec hSynced.holds hSynced.place
  rw [textRange_caret hOff, List.length_replicate] at hEnd
  have hText : (List.replicate n (97 : UInt8)).take
      (textRange d).1 ++ [97] ++
        (List.replicate n 97).drop (textRange d).1 =
      List.replicate (n + 1) 97 := by
    rw [List.take_replicate, List.drop_replicate,
      show [(97 : UInt8)] = List.replicate 1 97 from rfl,
      List.replicate_append_replicate,
      List.replicate_append_replicate]
    congr 1
    omega
  refine ⟨?_, ?_⟩
  · have hNormal : normalize (List.replicate (n + 1) 97) =
        some (List.replicate (n + 1) 97) := by
      obtain rfl | rfl | rfl : n = 0 ∨ n = 1 ∨ n = 2 := by
        omega
      · decide
      · decide
      · decide
    unfold textReplace
    dsimp only
    rw [hSynced.export, textRange_caret hOff, hText, hNormal,
      if_neg (by
        rw [List.length_replicate]
        unfold edCap
        simp only [List.length_singleton]
        omega)]
    dsimp only
    split
    · rfl
    · rfl
  · rw [textRange_caret hOff]
    exact hText

theorem type_letter
    (hDescribed : Described r)
    (hText : textExport r.doc = List.replicate n 97)
    (hShort : n ≤ 2)
    (hOff : r.doc.selecting = false) :
    textExport (step r (.replace [97])).doc =
        List.replicate (n + 1) 97 ∧
      (step r (.replace [97])).doc.selecting = false ∧
      (step r (.replace [97])).timeline =
        r.timeline.record ⟨snapshot r.doc,
          snapshot (step r (.replace [97])).doc⟩ ∧
      (call r.doc r.undo (.replace [97])).1 = true ∧
      Discards r.undo (step r (.replace [97])).undo := by
  obtain ⟨texts, hSynced⟩ := id hDescribed
  rw [hText] at hSynced
  obtain ⟨hOk, hResult⟩ :=
    textReplace_letter hSynced hShort hOff
  have hMakes : makes r.doc (.replace [97]) = true := by
    unfold makes
    rw [Bool.or_eq_true]
    exact Or.inr rfl
  obtain ⟨hTimeline, hDiscards⟩ :=
    (described_exact hDescribed).edit (.replace [97]) trivial
      hOk hMakes
  rcases textReplace_synced hSynced [97] with
    hFail | ⟨_, _, hNone⟩ |
    ⟨_, t, d', u', hEdit, _, hLetters, hStill, hNext, _⟩
  · rw [hFail] at hOk
    cases hOk
  · cases hNone
  · refine ⟨?_, ?_, hTimeline, hOk, hDiscards⟩
    · unfold step call
      dsimp only
      rw [hEdit]
      dsimp only
      rw [hNext.export, hLetters, hResult]
    · unfold step call
      dsimp only
      rw [hEdit]
      exact hStill

theorem textUndo_serial
    (d : TextDoc)
    (u : TextUndo) :
    (textUndo d u).2.2.serial = u.serial := by
  unfold textUndo historyApply
  simp only [Bool.false_eq_true, if_false]
  split
  · rfl
  · split
    · rfl
    · rfl

theorem textUndo_changes
    (d : TextDoc)
    (u : TextUndo) :
    (textUndo d u).2.2.changes = u.changes := by
  unfold textUndo historyApply
  simp only [Bool.false_eq_true, if_false]
  split
  · rfl
  · split
    · rfl
    · rfl

/- Revisions that were used up by typing and undoing. -/
structure Spent
    (k : Nat)
    (r : Editing) : Prop where
  reach : Reach r
  text : textExport r.doc = []
  off : r.doc.selecting = false
  past : r.timeline.past = []
  cursor : r.undo.cursor = 0
  serial : r.undo.serial = k

theorem Spent.next
    {k : Nat}
    (hSpent : Spent k r)
    (hLess : k < noRevision - 1) :
    Spent (k + 1)
      (step (step r (.replace [97])) .undo) := by
  have hDescribed := reach_described hSpent.reach
  have hTyped := Reach.step (c := .replace [97])
    hSpent.reach trivial
  obtain ⟨_, _, hTimeline, _, hDiscards⟩ :=
    type_letter (n := 0) hDescribed hSpent.text (by decide)
      hSpent.off
  have hKept := hDiscards.kept
  have hAdded := hDiscards.added
  have hSerial := hDiscards.serial
    (by rw [hSpent.serial]; exact hLess)
  have hCursor := hSpent.cursor
  obtain ⟨_, hBack, hLeft, e, past, hPast, hSnapshot⟩ :=
    undo_step (reach_described hTyped) (by omega)
  rw [hTimeline] at hPast hBack
  obtain ⟨rfl, hRest⟩ := List.cons.inj hPast
  have hMark := congrArg (fun x => x.mark.selecting) hSnapshot
  refine ⟨.step hTyped trivial, ?_, ?_, ?_, by omega, ?_⟩
  · exact (congrArg Snapshot.text hSnapshot).trans hSpent.text
  · exact hMark.trans hSpent.off
  · rw [hBack]
    exact hSpent.past
  · exact (textUndo_serial _ _).trans
      (hSerial.trans (by rw [hSpent.serial]))

theorem spent_exists
    {k : Nat}
    (hLe : k ≤ noRevision - 1) :
    ∃ r, Spent k r := by
  induction k with
  | zero =>
      exact ⟨opened (textReset blankDoc) blankUndo,
        .empty _ _, rfl, rfl, rfl, rfl, rfl⟩
  | succ k ih =>
      obtain ⟨r, hSpent⟩ := ih (by omega)
      exact ⟨_, hSpent.next (by omega)⟩

/- The bytes of the changes, by the texts of the edits. -/
theorem bytesOf_le
    {data : Buf}
    {serial : Nat}
    {changes : List TextChange}
    {edits : List (Edit Snapshot)}
    (hEach : List.Forall₂ (Records data texts serial) changes
      edits) :
    bytesOf changes ≤ (edits.map (fun e =>
      e.before.text.length + e.after.text.length)).sum := by
  induction hEach with
  | nil => exact Nat.le_refl 0
  | cons hHere _ ih =>
      obtain ⟨pre, post, hBefore, hAfter, _⟩ := hHere.delta
      unfold bytesOf at ih ⊢
      rw [List.map_cons, List.sum_cons, List.map_cons,
        List.sum_cons, hBefore, hAfter]
      simp only [List.length_append, Buf.length_toList,
        TextChange.size]
      omega

theorem bytesOf_drop_le
    (changes : List TextChange)
    (k : Nat) :
    bytesOf (changes.drop k) ≤ bytesOf changes := by
  have hSum := congrArg bytesOf
    (List.take_append_drop k changes)
  unfold bytesOf at hSum ⊢
  rw [List.map_append, List.sum_append] at hSum
  omega

theorem bytesOf_take_le
    (changes : List TextChange)
    (k : Nat) :
    bytesOf (changes.take k) ≤ bytesOf changes := by
  have hSum := congrArg bytesOf
    (List.take_append_drop k changes)
  unfold bytesOf at hSum ⊢
  rw [List.map_append, List.sum_append] at hSum
  omega

/- The bytes of the changes before the cursor. -/
theorem Described.bytes_le
    {past : List (Edit Snapshot)}
    (hDescribed : Described r)
    (hPast : r.timeline.past = past)
    (hFuture : r.timeline.future = []) :
    bytesOf r.undo.changes ≤ (past.map (fun e =>
      e.before.text.length + e.after.text.length)).sum := by
  obtain ⟨texts, hSynced⟩ := hDescribed
  have hLe := bytesOf_le hSynced.stored.each
  rw [hFuture, List.append_nil, hPast, List.map_reverse,
    List.sum_reverse] at hLe
  refine hLe.trans ?_
  have hSum := congrArg (fun l : List (Edit Snapshot) =>
    (l.map (fun e =>
      e.before.text.length + e.after.text.length)).sum)
    (List.take_append_drop r.undo.cursor past)
  rw [List.map_append, List.sum_append] at hSum
  omega

/-
  When revision numbers run out, an edit after an undo drops
  a change that was not undone, although there is room.
-/
theorem edit_drops_history :
    ∃ r, Reach r ∧ r.undo.cursor = 1 ∧ r.undo.count = 2 ∧
      r.undo.used ≤ 4 ∧
      (call r.doc r.undo (.replace [97])).1 = true ∧
      (step r (.replace [97])).undo.cursor = 1 := by
  obtain ⟨r, hSpent⟩ :=
    spent_exists (k := noRevision - 3) (by decide)
  have hText : textExport r.doc = List.replicate 0 97 :=
    hSpent.text
  have hFirst := Reach.step (c := .replace [97])
    hSpent.reach trivial
  obtain ⟨hText₁, hOff₁, hTime₁, _, hDiscards₁⟩ :=
    type_letter (reach_described hSpent.reach) hText
      (by decide) hSpent.off
  generalize step r (.replace [97]) = r₁ at *
  have hSecond := Reach.step (c := .replace [97])
    hFirst trivial
  obtain ⟨hText₂, hOff₂, hTime₂, _, hDiscards₂⟩ :=
    type_letter (reach_described hFirst) hText₁ (by decide)
      hOff₁
  generalize step r₁ (.replace [97]) = r₂ at *
  -- there is room for both letters
  have hPast₁ : r₁.timeline.past =
      [⟨snapshot r.doc, snapshot r₁.doc⟩] := by
    rw [hTime₁]
    unfold Timeline.record
    rw [hSpent.past]
  have hPast₂ : r₂.timeline.past =
      [⟨snapshot r₁.doc, snapshot r₂.doc⟩,
        ⟨snapshot r.doc, snapshot r₁.doc⟩] := by
    rw [hTime₂]
    unfold Timeline.record
    rw [hPast₁]
  have hBytes₁ := (reach_described hFirst).bytes_le hPast₁
    (by rw [hTime₁]; rfl)
  have hBytes₂ := (reach_described hSecond).bytes_le hPast₂
    (by rw [hTime₂]; rfl)
  simp only [snapshot, hText, hText₁, hText₂, List.map_cons,
    List.map_nil, List.sum_cons, List.sum_nil,
    List.length_replicate] at hBytes₁ hBytes₂
  have hCursor := hSpent.cursor
  have hSerial := hSpent.serial
  have hLimit : noRevision = 4294967295 := rfl
  have hSerial₁ := hDiscards₁.serial (by omega)
  have hSerial₂ := hDiscards₂.serial (by omega)
  have hKept₁ := hDiscards₁.kept
  have hAdded₁ := hDiscards₁.added
  have hKept₂ := hDiscards₂.kept
  have hUndone₂ := hDiscards₂.undone
  have hCursor₂ : r₂.undo.cursor = 2 := by
    have hFew : edHistorySteps = 64 := rfl
    have hRoom : edHistoryBytes = 131072 := rfl
    rcases hDiscards₂.needed (by omega) with
      hAll | hSteps | hBytes
    · omega
    · omega
    · have hTake := bytesOf_take_le r₁.undo.changes
        r₁.undo.cursor
      have hDrop := bytesOf_drop_le
        (r₁.undo.changes.take r₁.undo.cursor)
        (r₁.undo.cursor - r₂.undo.cursor)
      have hNew := bytesOf_drop_le r₂.undo.changes
        (r₂.undo.cursor - 1)
      omega
  -- one of them is undone
  have hThird := Reach.step (c := .undo) hSecond trivial
  obtain ⟨_, _, hCursor₃, e, past, hHead, hSnapshot⟩ :=
    undo_step (reach_described hSecond) (by omega)
  have hSerial₃ : (step r₂ .undo).undo.serial =
      r₂.undo.serial := textUndo_serial _ _
  have hChanges₃ : (step r₂ .undo).undo.changes =
      r₂.undo.changes := textUndo_changes _ _
  rw [hPast₂] at hHead
  obtain ⟨rfl, _⟩ := List.cons.inj hHead
  have hMark := congrArg (fun x => x.mark.selecting) hSnapshot
  have hText₃ := congrArg Snapshot.text hSnapshot
  obtain ⟨texts, hSynced⟩ := reach_described hThird
  have hUsed := hSynced.stored.packed.eq
  obtain ⟨_, _, _, hOk, hDiscards⟩ := type_letter
    (reach_described hThird) (hText₃.trans hText₁) (by decide)
    (hMark.trans hOff₁)
  refine ⟨_, hThird, by omega, ?_, ?_, hOk,
    hDiscards.guard (by omega)⟩
  · unfold TextUndo.count at hUndone₂ ⊢
    rw [hChanges₃, hUndone₂, hCursor₂]
  · rw [hChanges₃] at hUsed
    omega

end KvantOS.Editor
