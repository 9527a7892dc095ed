import KvantOS.Editor.Replacing

/-
  This file follows the other edits of a document: deleting
  a character and replacing all matches are replacements with
  a selection of their own, recorded with the marks from
  before the call.

  Key definitions include:
    * `deletes`, `replaces`, `Outcome`

  Key theorems include:
    * `Synced.relabel`, `textDelete_synced`
    * `textReplaceAll_synced`
-/

namespace KvantOS.Editor

variable {s t saved : List UInt8} {d : TextDoc}
variable {u u' : TextUndo} {texts texts' : Nat → List UInt8}
variable {e : Edit Snapshot} {timeline : Timeline Snapshot}

--
-- Moving and Relabelling
--

variable {m : TextMark}

/- The caret and the selection are moved. -/
theorem Synced.move
    (hSynced : Synced texts saved s d u timeline)
    (hOk : MarkOk s m) :
    Synced texts saved s (restore d m) u timeline :=
  { hSynced with
    holds := hSynced.holds.congr rfl rfl rfl rfl
    place := ⟨hOk.caret, hOk.anchor⟩ }

theorem forall₂_last
    {α β : Type}
    {r : α → β → Prop}
    {l : List α}
    {m : List β}
    {y : β}
    (hEach : List.Forall₂ r l (m ++ [y])) :
    ∃ rest x, l = rest ++ [x] ∧ List.Forall₂ r rest m ∧
      r x y := by
  refine ⟨l.take m.length, ?_⟩
  have hFirst := List.forall₂_take_append _ m [y] hEach
  have hLast := List.forall₂_drop_append _ m [y] hEach
  rw [List.forall₂_cons_right_iff] at hLast
  obtain ⟨x, rest, hHere, hNone, hDrop⟩ := hLast
  rw [List.forall₂_nil_right_iff] at hNone
  refine ⟨x, ?_, hFirst, hHere⟩
  rw [← hNone, ← hDrop, List.take_append_drop]

variable {f : TextChange → TextChange}

/- The last change is given other marks of the same places. -/
theorem Synced.relabel
    {d' : TextDoc}
    {e' : Edit Snapshot}
    (hSynced : Synced texts saved s d u (timeline.record e))
    (hUndone : u.count = u.cursor)
    (hAdded : 0 < u.cursor)
    (hSize : ∀ c, (f c).data = c.data ∧ (f c).size = c.size)
    (hRecords : ∀ c, Records u.data texts u.serial c e →
      Records u.data texts u.serial (f c) e')
    (hHolds : Holds d' s)
    (hPlace : MarkOk s (mark d' 0))
    (hDirty : d'.dirty = d.dirty)
    (hBefore : e'.before.text = e.before.text)
    (hAfter : e'.after.text = e.after.text)
    (hValid : e'.before.Valid ∧ e'.after.Valid) :
    Synced texts saved s d' (u.edit (u.cursor - 1) f)
      (timeline.record e') := by
  obtain ⟨k, hCursor⟩ : ∃ k, u.cursor = k + 1 :=
    ⟨u.cursor - 1, by omega⟩
  have hStored := hSynced.stored
  have hPast (x : Edit Snapshot) :
      (((timeline.record x).past.take (k + 1)).reverse ++
        (timeline.record x).future) =
        (timeline.past.take k).reverse ++ [x] := by
    show (x :: timeline.past.take k).reverse ++ [] = _
    rw [List.reverse_cons, List.append_nil]
  rw [hCursor, hPast] at hStored
  obtain ⟨rest, c, hChanges, hRest, hLast⟩ :=
    forall₂_last hStored.each
  have hLength : rest.length = u.cursor - 1 := by
    have hCount : u.changes.length = u.cursor := hUndone
    rw [hChanges, List.length_append] at hCount
    simp only [List.length_singleton] at hCount
    omega
  have hNew : (u.edit (u.cursor - 1) f).changes =
      rest ++ [f c] := by
    unfold TextUndo.edit
    dsimp only
    rw [hChanges, ← hLength, modify_last]
  have hPacked := hStored.packed
  rw [hChanges, packed_append] at hPacked
  obtain ⟨m, hFirst, hHere, hTop⟩ := hPacked
  obtain ⟨hBehind, hAhead⟩ := hSynced.joined
  exact
    { hSynced with
      holds := hHolds
      place := hPlace
      depth := hSynced.depth
      stored := by
        show Stored texts _
          (((timeline.record e').past.take u.cursor).reverse ++
            (timeline.record e').future)
        rw [hCursor, hPast]
        rw [hCursor] at hNew
        refine ⟨?_, hStored.bytes, ?_, ?_⟩
        · rw [hNew, packed_append]
          refine ⟨m, hFirst, ?_, ?_⟩
          · rw [(hSize c).1]
            exact hHere
          · rw [(hSize c).2]
            exact hTop
        · have hSteps := hStored.steps
          unfold TextUndo.count at hSteps ⊢
          rw [hChanges] at hSteps
          rw [hNew]
          rw [List.length_append] at hSteps ⊢
          exact hSteps
        · rw [hNew]
          exact List.rel_append hRest (List.Forall₂.cons
            (hRecords c hLast) List.Forall₂.nil)
      joined := by
        refine ⟨⟨?_, ?_⟩, trivial⟩
        · rw [hAfter]
          exact hBehind.1
        · rw [hBefore]
          exact hBehind.2
      valid := by
        intro x hMem
        rcases List.mem_append.mp hMem with hPastMem | hNone
        · rcases List.mem_cons.mp hPastMem with rfl | hOld
          · exact hValid
          · exact hSynced.valid x (List.mem_append_left _
              (List.mem_cons_of_mem _ hOld))
        · cases hNone
      dirty := by
        rw [hDirty]
        exact hSynced.dirty }

theorem bytesOf_edit
    (hSize : ∀ c, (f c).size = c.size)
    (i k : Nat) :
    bytesOf ((u.edit i f).changes.drop k) =
      bytesOf (u.changes.drop k) := by
  have hMap : (u.edit i f).changes.map TextChange.size =
      u.changes.map TextChange.size := by
    unfold TextUndo.edit
    apply List.ext_getElem?
    intro j
    simp only [List.getElem?_map, List.getElem?_modify]
    cases u.changes[j]? with
    | none => rfl
    | some c =>
        by_cases hHere : i = j
        · simp [hHere, hSize]
        · simp [hHere]
  unfold bytesOf
  rw [List.map_drop, List.map_drop, hMap]

theorem Discards.edit
    {i : Nat}
    (hDiscards : Discards u u')
    (hSize : ∀ c, (f c).size = c.size) :
    Discards u (u'.edit i f) :=
  { hDiscards with
    undone := by
      have hCount := hDiscards.undone
      unfold TextUndo.count at hCount ⊢
      unfold TextUndo.edit
      dsimp only
      rw [List.length_modify]
      exact hCount
    needed := by
      intro hLess
      rw [bytesOf_edit hSize]
      exact hDiscards.needed hLess }

/- The marks of a change are replaced. -/
theorem Records.remark
    {data : Buf}
    {serial : Nat}
    {c : TextChange}
    (m' : TextMark)
    (hRecords : Records data texts serial c e)
    (hBefore : texts m.revision = e.before.text)
    (hBeforeLe : m.revision ≤ serial)
    (hAfter : texts m'.revision = e.after.text)
    (hAfterLe : m'.revision ≤ serial) :
    Records data texts serial
      { c with before := m, after := m' }
      ⟨⟨e.before.text, m.plain⟩, ⟨e.after.text, m'.plain⟩⟩ where
  delta := hRecords.delta
  filled := hRecords.filled
  before := rfl
  after := rfl
  beforeText := hBefore
  afterText := hAfter
  beforeLe := hBeforeLe
  afterLe := hAfterLe

/- The mark from before the call takes the place of another. -/
theorem Synced.fixed
    (original : TextMark)
    (hSynced : Synced texts saved s d u (timeline.record e))
    (hUndone : u.count = u.cursor)
    (hAdded : 0 < u.cursor)
    (hOk : MarkOk e.before.text original) :
    Synced texts saved s d (fixBefore u original)
      (timeline.record
        ⟨⟨e.before.text, original.plain⟩, e.after⟩) := by
  have hValid := hSynced.valid e (by simp [Timeline.record])
  refine hSynced.relabel hUndone hAdded
    (fun c => ⟨rfl, rfl⟩) ?_ hSynced.holds hSynced.place rfl rfl
    rfl ⟨⟨hValid.1.clean, hOk.caret, hOk.anchor⟩, hValid.2⟩
  intro c hRecords
  have hNew := hRecords.remark
    (m := { original with revision := c.before.revision })
    c.after hRecords.beforeText hRecords.beforeLe hRecords.afterText
    hRecords.afterLe
  have hMark := hRecords.after
  rw [hMark] at hNew
  exact hNew

--
-- Deleting
--

/- The caret moves to another place in the text. -/
theorem deleteCaret_spec
    {backwards : Bool}
    (hHolds : Holds d s)
    (hClean : Clean s)
    (hCaret : CaretOk s d.cy d.cx)
    (hEdge : atEdge d backwards = false) :
    CaretOk s (deleteCaret d backwards).1
        (deleteCaret d backwards).2 ∧
      textOffset d (deleteCaret d backwards).1
          (deleteCaret d backwards).2 ≠
        textOffset d d.cy d.cx := by
  obtain ⟨x, hStart, hCol⟩ := hCaret
  have hLine := textLine_eq hHolds hClean hStart
  have hFirst := hHolds.start d.cy x hStart
  have hRow : d.cy < d.lines := by
    rw [hHolds.lines]
    exact (List.getElem?_eq_some_iff.mp hStart).1
  unfold atEdge at hEdge
  unfold deleteCaret
  unfold textOffset at hEdge ⊢
  cases backwards with
  | true =>
      simp only [if_true, beq_eq_false_iff_ne] at hEdge
      rw [if_pos rfl]
      by_cases hZero : d.cx = 0
      · rw [if_neg (by simpa using hZero)]
        have hTop : d.cy ≠ 0 := by
          intro hNone
          have hOrigin := hHolds.start 0 0 rfl
          rw [hNone, hOrigin, hZero] at hEdge
          exact hEdge rfl
        have hPrev := hHolds.getElem?_start
          (r := d.cy - 1) (by omega)
        have hNext := (textStarts_next hPrev).2
        rw [show d.cy - 1 + 1 = d.cy by omega, hStart] at hNext
        rw [textLine_eq hHolds hClean hPrev]
        refine ⟨⟨_, hPrev, Nat.le_refl _⟩, ?_⟩
        split at hNext
        · rw [Option.some.injEq] at hNext
          dsimp only
          omega
        · cases hNext
      · rw [if_pos hZero, hLine]
        have hLess := textPrev_lt (lineAt s x) hZero
        refine ⟨⟨x, hStart, ?_⟩, ?_⟩
        · dsimp only
          omega
        · dsimp only
          omega
  | false =>
      simp only [Bool.false_eq_true, if_false] at hEdge ⊢
      rw [hLine] at hEdge ⊢
      by_cases hMore : d.cx < (lineAt s x).length
      · rw [if_pos hMore]
        obtain ⟨hLess, hLe⟩ := textNext_bounds hMore
        refine ⟨⟨x, hStart, hLe⟩, ?_⟩
        dsimp only
        omega
      · rw [if_neg hMore]
        have hNotLast : d.cy + 1 < d.lines := by
          by_contra hLast
          have hHere : d.cy = d.lines - 1 := by omega
          simp [hHere, show (lineAt s x).length ≤ d.cx by omega]
            at hEdge
        have hAfter := hHolds.getElem?_start hNotLast
        have hNext := (textStarts_next hStart).2
        rw [hAfter] at hNext
        refine ⟨⟨_, hAfter, Nat.zero_le _⟩, ?_⟩
        split at hNext
        · rw [Option.some.injEq] at hNext
          dsimp only
          omega
        · cases hNext

/- The selection is not empty when its ends differ. -/
theorem textRange_ne
    (hSelecting : d.selecting = true)
    (hNe : textOffset d d.cy d.cx ≠ textOffset d d.ay d.ax) :
    (textRange d).1 ≠ (textRange d).2 := by
  have hSelected : textSelected d = true := by
    unfold textSelected
    rw [hSelecting, Bool.true_and, Bool.or_eq_true]
    by_contra hSame
    rw [not_or] at hSame
    simp only [bne_iff_ne, ne_eq, not_not] at hSame
    rw [hSame.1, hSame.2] at hNe
    exact hNe rfl
  unfold textRange
  dsimp only
  rw [if_pos hSelected]
  split
  · dsimp only
    omega
  · dsimp only
    omega

/- The call makes an edit, unless it is refused. -/
def deletes
    (d : TextDoc)
    (backwards : Bool) : Bool :=
  if textSelected d then
    (textRange d).1 != (textRange d).2
  else
    !atEdge d backwards

/-
  A call is refused, changes nothing as there is nothing to
  change, or is recorded as one edit.
-/
def Outcome
    (saved s : List UInt8)
    (d : TextDoc)
    (u : TextUndo)
    (timeline : Timeline Snapshot)
    (makes : Bool)
    (r : Bool × TextDoc × TextUndo) : Prop :=
  r = (false, d, u) ∨ (r = (true, d, u) ∧ makes = false) ∨
    ∃ texts' t d' u', r = (true, d', u') ∧ makes = true ∧
      Synced texts' saved t d' u' (timeline.record
        ⟨⟨s, mark d 0⟩, ⟨t, mark d' 0⟩⟩) ∧
      Discards u u'

theorem textDelete_synced
    (hSynced : Synced texts saved s d u timeline)
    (backwards : Bool) :
    Outcome saved s d u timeline (deletes d backwards)
      (textDelete d u backwards) := by
  unfold textDelete deletes
  by_cases hSelected : textSelected d = true
  · rw [if_pos hSelected, if_pos hSelected]
    rcases textReplace_synced hSynced [] with
      hFail | ⟨hNothing, hSame, _⟩ |
      ⟨texts', t, d', u', hEdit, hSome, _, _, hNext,
        hDiscards⟩
    · exact Or.inl hFail
    · exact Or.inr (Or.inl ⟨hNothing, by simp [hSame]⟩)
    · refine Or.inr (Or.inr ⟨texts', t, d', u', hEdit, ?_,
        hNext, hDiscards⟩)
      rcases hSome with hNe | hNone
      · simpa using hNe
      · exact absurd rfl hNone
  · rw [if_neg hSelected, if_neg hSelected]
    cases hEdge : atEdge d backwards with
    | true => exact Or.inr (Or.inl ⟨rfl, rfl⟩)
    | false =>
        obtain ⟨hCaret, hNe⟩ := deleteCaret_spec hSynced.holds
          hSynced.clean hSynced.place.caret hEdge
        have hMoved := hSynced.move
          (m := ⟨(deleteCaret d backwards).1,
            (deleteCaret d backwards).2, d.top, d.left, d.cy,
            d.cx, true, 0⟩)
          ⟨hCaret, fun _ => hSynced.place.caret⟩
        simp only [Bool.false_eq_true, if_false]
        rcases textReplace_synced hMoved [] with
          hFail | ⟨_, hSame, _⟩ |
          ⟨texts', t, d', u', hEdit, _, _, _, hNext,
            hDiscards⟩
        · left
          unfold restore at hFail
          dsimp only at hFail
          rw [hFail]
          rfl
        · exact absurd hSame (textRange_ne rfl hNe)
        · refine Or.inr (Or.inr ⟨texts', t, d',
            fixBefore u' (mark d u.current), ?_, rfl, ?_,
            hDiscards.edit (fun c => rfl)⟩)
          · unfold restore at hEdit
            dsimp only at hEdit
            rw [hEdit]
          · exact hNext.fixed _ hDiscards.undone
              hDiscards.added
              ⟨hSynced.place.caret, hSynced.place.anchor⟩

--
-- Replacing All
--

/- There are matches, and replacing them makes a difference. -/
def replaces
    (d : TextDoc)
    (q x : List UInt8) : Bool :=
  match substitute d q x d.used 0 [] 0 with
  | none => false
  | some (replaced, hits) =>
      hits != 0 && replaced != textExport d

/- The whole text is selected. -/
theorem selectAll_spec
    (hHolds : Holds d s)
    (hClean : Clean s) :
    CaretOk s (d.lines - 1)
        (textLine d (d.lines - 1)).length ∧
      textOffset d (d.lines - 1)
        (textLine d (d.lines - 1)).length = s.length ∧
      CaretOk s 0 0 ∧ textOffset d 0 0 = 0 := by
  have hLines : 0 < d.lines := by
    rw [hHolds.lines]
    exact Nat.succ_pos _
  have hLast := hHolds.getElem?_start
    (r := d.lines - 1) (by omega)
  obtain ⟨hLe, hNext⟩ := textStarts_next hLast
  rw [textLine_eq hHolds hClean hLast]
  refine ⟨⟨_, hLast, Nat.le_refl _⟩, ?_, ⟨0, rfl,
    Nat.zero_le _⟩, hHolds.start 0 0 rfl⟩
  have hFits := lineAt_length_le s (d.start (d.lines - 1))
  have hNone : (textStarts s)[d.lines - 1 + 1]? = none := by
    rw [List.getElem?_eq_none_iff, hHolds.lines]
    omega
  rw [hNone] at hNext
  unfold textOffset
  split at hNext
  · cases hNext
  · omega

/- A document without text has no match. -/
theorem substitute_empty
    {q x replaced : List UInt8}
    {hits : Nat}
    (hUsed : d.used = 0)
    (hSome : substitute d q x d.used 0 [] 0 =
      some (replaced, hits)) :
    hits = 0 := by
  rw [hUsed] at hSome
  unfold substitute at hSome
  simp only [Option.some.injEq, Prod.mk.injEq] at hSome
  exact hSome.2.symm

/- The marks of the edit are those around the whole call. -/
theorem Synced.aroundAll
    {d₁ : TextDoc}
    (hSynced : Synced texts saved s d u timeline)
    (hNext : Synced texts' saved t d₁ u' (timeline.record
      ⟨⟨s, m⟩, ⟨t, mark d₁ 0⟩⟩))
    (hDiscards : Discards u u')
    (caret : Nat) :
    Synced texts' saved t (textPosition d₁ caret)
        ((fixBefore u' (mark d u.current)).edit
          (u'.cursor - 1) (fun c =>
            { c with
              after := mark (textPosition d₁ caret)
                u'.current }))
        (timeline.record ⟨⟨s, mark d 0⟩,
          ⟨t, mark (textPosition d₁ caret) 0⟩⟩) ∧
      Discards u
        ((fixBefore u' (mark d u.current)).edit
          (u'.cursor - 1) (fun c =>
            { c with
              after := mark (textPosition d₁ caret)
                u'.current })) := by
  have hFixed := hNext.fixed (mark d u.current)
    hDiscards.undone hDiscards.added
    ⟨hSynced.place.caret, hSynced.place.anchor⟩
  have hLater := hDiscards.edit
    (f := fun c =>
      { c with
        before :=
          { mark d u.current with
            revision := c.before.revision } })
    (i := u'.cursor - 1) (fun c => rfl)
  have hPlace : MarkOk t (mark (textPosition d₁ caret) 0) :=
    ⟨textPosition_spec hNext.holds caret,
      hNext.place.anchor⟩
  refine ⟨?_, hLater.edit (fun c => rfl)⟩
  refine hFixed.relabel hLater.undone hLater.added
    (fun c => ⟨rfl, rfl⟩) ?_
    (hNext.holds.congr rfl rfl rfl rfl) hPlace rfl rfl rfl
    ⟨hSynced.snapshot, hNext.clean, hPlace⟩
  intro c hRecords
  have hNew := hRecords.remark
    (m := c.before)
    (mark (textPosition d₁ caret) u'.current)
    hRecords.beforeText hRecords.beforeLe
    hNext.current hNext.currentLe
  have hMark := hRecords.before
  rw [hMark] at hNew
  exact hNew

theorem textReplaceAll_synced
    (hSynced : Synced texts saved s d u timeline)
    (q x : List UInt8) :
    Outcome saved s d u timeline (replaces d q x)
      ((textReplaceAll d u q x).1,
        (textReplaceAll d u q x).2.2) := by
  have hAll := selectAll_spec hSynced.holds hSynced.clean
  obtain ⟨hCaret, hLast, hAnchor, hFirst⟩ := hAll
  have hMoved := hSynced.move
    (m := ⟨d.lines - 1, (textLine d (d.lines - 1)).length,
      d.top, d.left, 0, 0, true, 0⟩)
    ⟨hCaret, fun _ => hAnchor⟩
  unfold textReplaceAll replaces
  by_cases hBad : (!queryOk q ||
      decide (edQueryCap ≤ x.length)) = true
  · rw [if_pos hBad]
    exact Or.inl rfl
  · rw [if_neg hBad]
    cases hSub : substitute d q x d.used 0 [] 0 with
    | none => exact Or.inl rfl
    | some r =>
        obtain ⟨replaced, hits⟩ := r
        dsimp only
        by_cases hHits : hits = 0
        · rw [if_pos hHits]
          exact Or.inr (Or.inl ⟨rfl, by simp [hHits]⟩)
        · rw [if_neg hHits]
          by_cases hSame : replaced = textExport d
          · rw [if_pos hSame]
            exact Or.inr (Or.inl ⟨rfl, by simp [hSame]⟩)
          · rw [if_neg hSame]
            have hText : s.length ≠ 0 := by
              intro hNone
              exact hHits (substitute_empty
                (by rw [hSynced.holds.used, hNone]) hSub)
            rcases textReplace_synced hMoved replaced with
              hFail | ⟨_, hNothing, _⟩ |
              ⟨texts', t, d', u', hEdit, _, _, _, hNext,
                hDiscards⟩
            · left
              unfold restore at hFail
              dsimp only at hFail
              rw [hFail]
              rfl
            · refine absurd hNothing (textRange_ne rfl ?_)
              unfold textOffset at hLast hFirst ⊢
              dsimp only [restore]
              omega
            · obtain ⟨hResult, hLater⟩ :=
                hSynced.aroundAll hNext hDiscards
                  (textOffset d d.cy d.cx)
              refine Or.inr (Or.inr ⟨texts', t, _, _, ?_,
                by simp [hHits, hSame], hResult, hLater⟩)
              unfold restore at hEdit
              dsimp only at hEdit
              rw [hEdit]
              rfl

end KvantOS.Editor
