import KvantOS.Editor.Sessions

/-
  This file states the representation of a document byte by
  byte and proves it after every call, when the history is
  emptied with each document that is loaded.

  Key definitions include:
    * `Represented`, `SameShown`, `DocCall`

  Key theorems include:
    * `represented_of_holds`, `worked_represented`
    * `kept_history_breaks`
-/

namespace KvantOS.Editor

variable {s : List UInt8} {d d' : TextDoc} {u : TextUndo}
variable {r : Editing} {c : TextCall}

--
-- The Representation
--

/-
  Zero bytes end the lines and the text, the offsets of the
  lines are those behind the zeros, and the caret is in its
  line.
-/
structure Represented (d : TextDoc) : Prop where
  stop : d.data d.used = 0
  ends : ∀ i, i < d.used → (d.data i = 0 ↔
    ∃ row, row + 1 < d.lines ∧ d.start (row + 1) = i + 1)
  starts : (List.range d.lines).map d.start =
    0 :: ((List.range d.used).filter
      (fun i => d.data i == 0)).map (· + 1)
  width : IsGreatest {w | ∃ row, row < d.lines ∧
    textColumn (textLine d row) (textLine d row).length = w}
    d.width
  bytes : ∀ i, i < d.used →
    d.data i = 0 ∨ (32 ≤ d.data i ∧ d.data i ≠ 127)
  short : ∀ row, row < d.lines →
    (textLine d row).length ≤ edCols
  room : d.used < edCap
  caret : d.cy < d.lines ∧
    d.cx ≤ (textLine d d.cy).length

/- The documents show the same text. -/
structure SameShown (d d' : TextDoc) : Prop where
  used : d'.used = d.used
  data : ∀ i, i ≤ d.used → d'.data i = d.data i
  lines : d'.lines = d.lines
  start : ∀ row, row < d.lines → d'.start row = d.start row
  width : d'.width = d.width

/- The offsets behind the newlines, in order. -/
theorem startsFrom_filter
    (n : Nat)
    (s : List UInt8) :
    startsFrom n s =
      ((List.range s.length).filter
        (fun i => s[i]? == some 10)).map (n + · + 1) := by
  induction s generalizing n with
  | nil => rfl
  | cons c rest ih =>
      have hRest : (List.range rest.length).filter
          ((fun i => (c :: rest)[i]? == some 10) ∘
            Nat.succ) =
          (List.range rest.length).filter
            (fun i => rest[i]? == some 10) :=
        rfl
      have hShift (l : List Nat) :
          (l.map Nat.succ).map (n + · + 1) =
            l.map (n + 1 + · + 1) := by
        rw [List.map_map]
        refine List.map_congr_left fun i _ => ?_
        simp only [Function.comp_apply]
        omega
      rw [startsFrom, List.length_cons,
        List.range_succ_eq_map, List.filter_cons,
        List.filter_map, hRest, ih]
      by_cases hNew : c = 10
      · subst hNew
        have hFirst : ((10 :: rest)[0]? ==
            some (10 : UInt8)) = true := by
          simp
        rw [if_pos rfl, if_pos hFirst, List.map_cons, hShift]
      · have hNot : ((c :: rest)[0]? == some 10) = false := by
          simpa using hNew
        rw [if_neg hNew, hNot, if_neg (by decide), hShift]

/- The least and the greatest of what a fold compares. -/
theorem foldl_max_mem
    (a : Nat)
    (l : List Nat) :
    l.foldl max a ∈ a :: l ∧
      ∀ x ∈ a :: l, x ≤ l.foldl max a := by
  induction l generalizing a with
  | nil => simp
  | cons b l ih =>
      obtain ⟨hMem, hLe⟩ := ih (max a b)
      rw [List.foldl_cons]
      have hFirst := hLe (max a b) List.mem_cons_self
      refine ⟨?_, ?_⟩
      · rcases List.mem_cons.mp hMem with hHere | hLater
        · rw [hHere]
          rcases Nat.le_total a b with hOrder | hOrder
          · rw [Nat.max_eq_right hOrder]
            simp
          · rw [Nat.max_eq_left hOrder]
            exact List.mem_cons_self
        · exact List.mem_cons_of_mem _
            (List.mem_cons_of_mem _ hLater)
      · intro x hIn
        rcases List.mem_cons.mp hIn with rfl | hIn
        · omega
        · rcases List.mem_cons.mp hIn with rfl | hLater
          · omega
          · exact hLe x (List.mem_cons_of_mem _ hLater)

theorem Sized.greatest
    (hSized : Sized d)
    (hLines : 0 < d.lines) :
    IsGreatest {w | ∃ row, row < d.lines ∧
      textColumn (textLine d row) (textLine d row).length = w}
      d.width := by
  have hMax := foldl_max_mem 0
    ((List.range d.lines).map (fun row =>
      textColumn (textLine d row) (textLine d row).length))
  rw [← hSized] at hMax
  have hEach (row : Nat) (hRow : row < d.lines) :
      textColumn (textLine d row) (textLine d row).length ≤
        d.width :=
    hMax.2 _ (List.mem_cons_of_mem _
      (List.mem_map_of_mem (List.mem_range.mpr hRow)))
  refine ⟨?_, ?_⟩
  · rcases List.mem_cons.mp hMax.1 with hZero | hMem
    · refine ⟨0, hLines, ?_⟩
      have hFirst := hEach 0 hLines
      rw [hZero] at hFirst ⊢
      omega
    · obtain ⟨row, hRow, hEq⟩ := List.mem_map.mp hMem
      exact ⟨row, List.mem_range.mp hRow, hEq⟩
  · rintro w ⟨row, hRow, rfl⟩
    exact hEach row hRow

/- Each byte is that of the text, a zero at a line's end. -/
theorem Holds.byte
    (hHolds : Holds d s)
    (hProper : Proper s)
    {i : Nat}
    (hi : i < d.used) :
    ∃ c, s[i]? = some c ∧ Printed c ∧
      d.data i = if c = 10 then 0 else c := by
  have hUsed := hHolds.used
  have hAt := List.getElem?_eq_getElem
    (show i < s.length by omega)
  exact ⟨_, hAt, hProper.printed _ (List.getElem_mem _),
    hHolds.data i _ hAt⟩

theorem Holds.zero_iff
    (hHolds : Holds d s)
    (hProper : Proper s)
    {i : Nat}
    (hi : i < d.used) :
    d.data i = 0 ↔ s[i]? = some 10 := by
  obtain ⟨c, hAt, hPrinted, hData⟩ := hHolds.byte hProper hi
  rw [hAt, hData, Option.some.injEq]
  split
  · rename_i hNew
    exact iff_of_true rfl hNew
  · rename_i hNew
    exact iff_of_false hPrinted.plain.1 hNew

theorem Holds.starts
    (hHolds : Holds d s) :
    (List.range d.lines).map d.start = textStarts s := by
  apply List.ext_getElem?
  intro row
  rw [List.getElem?_map]
  by_cases hRow : row < d.lines
  · rw [List.getElem?_range hRow,
      hHolds.getElem?_start hRow]
    rfl
  · have hLines := hHolds.lines
    rw [List.getElem?_eq_none (by simpa using hRow),
      List.getElem?_eq_none (by omega)]
    rfl

/- The lines start behind the zeros. -/
theorem Holds.starts_zeros
    (hHolds : Holds d s)
    (hProper : Proper s) :
    (List.range d.lines).map d.start =
      0 :: ((List.range d.used).filter
        (fun i => d.data i == 0)).map (· + 1) := by
  have hUsed := hHolds.used
  have hFilter : (List.range s.length).filter
      (fun i => s[i]? == some 10) =
      (List.range d.used).filter (fun i => d.data i == 0) := by
    rw [hUsed]
    refine List.filter_congr fun i hMem => ?_
    rw [List.mem_range, ← hUsed] at hMem
    rw [Bool.eq_iff_iff, beq_iff_eq, beq_iff_eq,
      hHolds.zero_iff hProper hMem]
  rw [hHolds.starts, ← hFilter, textStarts, startsFrom_filter]
  simp only [Nat.zero_add]

theorem starts_behind
    (hLines : 0 < d.lines)
    (hStarts : (List.range d.lines).map d.start =
      0 :: ((List.range d.used).filter
        (fun i => d.data i == 0)).map (· + 1))
    {i : Nat}
    (hi : i < d.used) :
    d.data i = 0 ↔
      ∃ row, row + 1 < d.lines ∧ d.start (row + 1) = i + 1 := by
  rw [show d.lines = d.lines - 1 + 1 by omega,
    List.range_succ_eq_map, List.map_cons, List.map_map,
    List.cons.injEq] at hStarts
  have hMem := congrArg (fun l => i + 1 ∈ l) hStarts.2
  simp only [List.mem_map, List.mem_range, List.mem_filter,
    beq_iff_eq, Nat.add_right_cancel_iff,
    exists_eq_right] at hMem
  constructor
  · intro hNull
    obtain ⟨row, hRow, hStart⟩ := hMem.mpr ⟨hi, hNull⟩
    exact ⟨row, by omega, hStart⟩
  · rintro ⟨row, hRow, hStart⟩
    exact (hMem.mp ⟨row, by omega, hStart⟩).2

/- A document that holds a proper text is as it should be. -/
theorem represented_of_holds
    (hHolds : Holds d s)
    (hProper : Proper s)
    (hSized : Sized d)
    (hCaret : CaretOk s d.cy d.cx) :
    Represented d := by
  have hUsed := hHolds.used
  have hAll := hHolds.starts_zeros hProper
  have hPos : 0 < d.lines := by
    rw [hHolds.lines]
    exact Nat.succ_pos _
  refine
    { stop := by
        rw [hUsed]
        exact hHolds.stop
      ends := fun i hi => starts_behind hPos hAll hi
      starts := hAll
      width := hSized.greatest hPos
      bytes := ?_
      short := ?_
      room := by
        rw [hUsed]
        exact hProper.room
      caret := ?_ }
  · intro i hi
    obtain ⟨c, hAt, hPrinted, hData⟩ := hHolds.byte hProper hi
    rw [hData]
    split
    · exact .inl rfl
    · rename_i hNew
      exact .inr (hPrinted.resolve_left hNew)
  · intro row hRow
    rw [textLine_eq hHolds hProper.clean
      (hHolds.getElem?_start hRow)]
    exact hProper.lines _
  · obtain ⟨x, hStart, hCol⟩ := hCaret
    refine ⟨?_, ?_⟩
    · rw [hHolds.lines]
      exact (List.getElem?_eq_some_iff.mp hStart).1
    · rw [textLine_eq hHolds hProper.clean hStart]
      exact hCol

/- Loading an exported text makes the same document. -/
theorem textSet_textExport
    (hHolds : Holds d s)
    (hProper : Proper s)
    (hSized : Sized d)
    (d₀ : TextDoc) :
    ∃ d', textSet d₀ (textExport d) = (true, d') ∧
      SameShown d d' := by
  have hHolds' := textImport_holds (textReset d₀)
    hProper.clean
  have hLines : (textImport (textReset d₀) s).lines =
      d.lines :=
    hHolds'.lines.trans hHolds.lines.symm
  refine ⟨textImport (textReset d₀) s, ?_, ?_⟩
  · unfold textSet
    rw [textExport_eq hHolds hProper.clean,
      if_neg (Nat.not_le.mpr hProper.room), hProper.normalize]
  · refine
      { used := hHolds'.used.trans hHolds.used.symm
        data := ?_
        lines := hLines
        start := ?_
        width := ?_ }
    · intro i hi
      rw [hHolds.used] at hi
      rcases Nat.eq_or_lt_of_le hi with rfl | hLess
      · rw [hHolds'.stop, hHolds.stop]
      · have hAt := List.getElem?_eq_getElem hLess
        rw [hHolds'.data i _ hAt, hHolds.data i _ hAt]
    · intro row hRow
      exact hHolds'.start row _ (hHolds.getElem?_start hRow)
    · have hSized' := sized_import (textReset d₀) s
      unfold Sized at hSized hSized'
      rw [hSized', hSized, hLines]
      refine congrArg (List.foldl max 0)
        (List.map_congr_left fun row hMem => ?_)
      have hStart :=
        hHolds.getElem?_start (List.mem_range.mp hMem)
      rw [textLine_eq hHolds' hProper.clean hStart,
        textLine_eq hHolds hProper.clean hStart]

--
-- Calls that Fail
--

theorem Outcome.fails
    {saved : List UInt8}
    {timeline : Timeline Snapshot}
    {makes : Bool}
    {result : Bool × TextDoc × TextUndo}
    (hOutcome : Outcome saved s d u timeline makes result)
    (hFail : result.1 = false) :
    result.2 = (d, u) := by
  rcases hOutcome with hFails | ⟨hNothing, -⟩ |
    ⟨_, _, _, _, hEdit, -⟩
  · rw [hFails]
  · rw [hNothing] at hFail
    cases hFail
  · rw [hEdit] at hFail
    cases hFail

theorem historyApply_fails
    {redo : Bool}
    (hFail : (historyApply d u redo).1 = false) :
    (historyApply d u redo).2 = (d, u) := by
  unfold historyApply at hFail ⊢
  generalize (if redo then u.cursor == u.count
    else u.cursor == 0) = spent at hFail ⊢
  cases spent with
  | true => rfl
  | false =>
      generalize u.changes[if redo then u.cursor
        else u.cursor - 1]? = found at hFail ⊢
      cases found with
      | none => rfl
      | some c => cases hFail

/- A call that fails changes nothing. -/
theorem call_fails
    (hDescribed : Described r)
    (hFail : (call r.doc r.undo c).1 = false) :
    (call r.doc r.undo c).2 = (r.doc, r.undo) := by
  obtain ⟨texts, hSynced⟩ := hDescribed
  cases c with
  | replace x =>
      exact (textReplace_outcome hSynced x).fails hFail
  | delete backwards =>
      exact (textDelete_synced hSynced backwards).fails hFail
  | replaceAll q x =>
      exact (textReplaceAll_synced hSynced q x).fails hFail
  | undo => exact historyApply_fails hFail
  | redo => exact historyApply_fails hFail
  | saved => cases hFail
  | reset => cases hFail
  | move m => cases hFail

theorem textSet_fails
    {x : List UInt8}
    (hSet : textSet d x = (false, d')) :
    d' = d := by
  unfold textSet at hSet
  split at hSet
  · exact (Prod.mk.inj hSet).2.symm
  · split at hSet
    · exact (Prod.mk.inj hSet).2.symm
    · cases hSet

/-
  After every sequence of calls in which a document that is
  loaded or copied comes with an empty history: the document
  is as it should be, loading what it exports makes the same
  document, and a call that fails changes nothing.
-/
theorem worked_represented
    (hWorked : Worked r) :
    Represented r.doc ∧
      (∀ d, ∃ d', textSet d (textExport r.doc) = (true, d') ∧
        SameShown r.doc d') ∧
      (∀ c, (call r.doc r.undo c).1 = false →
        (call r.doc r.undo c).2 = (r.doc, r.undo)) ∧
      ∀ d x d', textSet d x = (false, d') → d' = d := by
  have hKept := worked_kept hWorked
  obtain ⟨texts, hSynced⟩ := hKept.described
  refine ⟨?_, ?_, ?_, ?_⟩
  · exact represented_of_holds hSynced.holds hKept.proper.now
      hKept.sized hSynced.place.caret
  · exact textSet_textExport hSynced.holds hKept.proper.now
      hKept.sized
  · exact fun c => call_fails hKept.described
  · exact fun d x d' => textSet_fails

/- After typing one letter. -/
theorem worked_represented_letter :
    Represented (step (opened (textReset blankDoc) blankUndo)
        (.replace [97])).doc ∧
      (∀ d, ∃ d', textSet d (textExport
          (step (opened (textReset blankDoc) blankUndo)
            (.replace [97])).doc) = (true, d') ∧
        SameShown (step (opened (textReset blankDoc) blankUndo)
          (.replace [97])).doc d') ∧
      (∀ c,
        (call
          (step (opened (textReset blankDoc) blankUndo)
            (.replace [97])).doc
          (step (opened (textReset blankDoc) blankUndo)
            (.replace [97])).undo c).1 = false →
        (call
          (step (opened (textReset blankDoc) blankUndo)
            (.replace [97])).doc
          (step (opened (textReset blankDoc) blankUndo)
            (.replace [97])).undo c).2 =
          ((step (opened (textReset blankDoc) blankUndo)
            (.replace [97])).doc,
          (step (opened (textReset blankDoc) blankUndo)
            (.replace [97])).undo)) ∧
      ∀ d x d', textSet d x = (false, d') → d' = d :=
  worked_represented (.step (.empty blankDoc blankUndo) trivial)

--
-- A History That Is Kept
--

/- The calls, where loading leaves the history alone. -/
inductive DocCall where
  | reset
  | set (x : List UInt8)
  | copy (src : TextDoc)
  | edit (c : TextCall)

def DocCall.run
    (state : TextDoc × TextUndo) :
    DocCall → TextDoc × TextUndo
  | .reset => (textReset state.1, state.2)
  | .set x => ((textSet state.1 x).2, state.2)
  | .copy src => (textCopy state.1 src, state.2)
  | .edit c => (call state.1 state.2 c).2

theorem takeWhile_toList
    {b : Buf}
    {k n : Nat}
    (hInside : k ≤ n)
    (hSome : ∀ i, i < k → b i ≠ 0) :
    k ≤ ((b.toList n).takeWhile (· != 0)).length := by
  have hSplit : b.toList n =
      b.toList k ++ ((List.range (n - k)).map (k + ·)).map b := by
    unfold Buf.toList
    rw [← List.map_append, ← List.range_add,
      Nat.add_sub_cancel' hInside]
  have hFirst : ∀ x ∈ b.toList k, (x != 0) = true := by
    intro x hMem
    obtain ⟨i, hi, rfl⟩ := List.mem_map.mp hMem
    exact bne_iff_ne.mpr (hSome i (List.mem_range.mp hi))
  rw [hSplit, List.takeWhile_append_of_pos hFirst,
    List.length_append]
  simp [Buf.toList]

/- A document of one line has no more than a line. -/
theorem Represented.one_line
    (hOk : Represented d)
    (hLines : d.lines = 1) :
    d.used ≤ edCols := by
  have hStarts := hOk.starts
  rw [hLines, List.range_one, List.map_singleton,
    List.cons.injEq] at hStarts
  have hNone : ∀ i, i < d.used → d.data i ≠ 0 := by
    intro i hi hZero
    have hMem : i + 1 ∈ ((List.range d.used).filter
        (fun i => d.data i == 0)).map (· + 1) :=
      List.mem_map_of_mem (List.mem_filter.mpr
        ⟨List.mem_range.mpr hi, by simpa using hZero⟩)
    rw [← hStarts.2] at hMem
    cases hMem
  refine Nat.le_trans ?_ (hOk.short 0 (by omega))
  unfold textLine
  rw [hStarts.1]
  have hRoom := hOk.room
  refine takeWhile_toList (by omega) fun i hi => ?_
  unfold Buf.drop
  rw [Nat.zero_add]
  exact hNone i hi

/- A full line is loaded, and a letter of the last is redone. -/
def redoneLine : TextDoc × TextUndo :=
  [.edit (.replace [97]), .edit .undo,
    .set (List.replicate 120 98), .edit .redo].foldl
      DocCall.run (textReset blankDoc, blankUndo)

/- The history of the last document makes a line too long. -/
theorem kept_history_breaks :
    ¬∀ calls : List DocCall,
      Represented (calls.foldl DocCall.run
        (textReset blankDoc, blankUndo)).1 := by
  intro hAll
  have hOk : Represented redoneLine.1 := hAll _
  have hLines : redoneLine.1.lines = 1 ∧
      redoneLine.1.used = 121 := by
    decide +kernel
  have hUsed := hOk.one_line hLines.1
  rw [hLines.2] at hUsed
  exact absurd hUsed (by decide)

end KvantOS.Editor
