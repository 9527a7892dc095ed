import KvantOS.Editor.Document
import Mathlib.Data.List.TakeWhile

/-
  This file relates a document to the text it holds: where
  lines start, what a position is, and that import and export
  are inverse.

  Key definitions include:
    * `Clean`, `Holds`
    * `CaretOk`, `MarkOk`

  Key theorems include:
    * `normalize_spec`, `textImport_holds`, `textExport_eq`
    * `textPosition_spec`, `textRange_spec`
-/

namespace KvantOS.Editor

--
-- Texts
--

/- A text that a document can hold. -/
structure Clean (s : List UInt8) : Prop where
  room : s.length < edCap
  plain : ∀ c ∈ s, c ≠ 0 ∧ c ≠ 9 ∧ c ≠ 13

variable {s t : List UInt8} {d : TextDoc}

/- A byte that is written is neither a tab nor a zero. -/
theorem expand_plain
    {c x : UInt8}
    (hAllowed : ¬(c ≠ 10 ∧ c ≠ 9 ∧ (c < 32 ∨ c = 127)))
    (hMem : x ∈ expand c) :
    x ≠ 0 ∧ x ≠ 9 ∧ x ≠ 13 := by
  unfold expand at hMem
  split at hMem
  · cases hMem
  · split at hMem
    · have hSpace : x = 32 := by simpa using hMem
      subst hSpace
      decide
    · rename_i hCr hTab
      rw [List.mem_singleton] at hMem
      subst hMem
      refine ⟨?_, hTab, hCr⟩
      rintro rfl
      exact hAllowed (by decide)

theorem normalizeFrom_spec
    {used col : Nat}
    (hUsed : used < edCap)
    (hSome : normalizeFrom used col s = some t) :
    t = s.flatMap expand ∧ used + t.length < edCap ∧
      ∀ c ∈ t, c ≠ 0 ∧ c ≠ 9 ∧ c ≠ 13 := by
  induction s generalizing used col t with
  | nil =>
      have hNil : t = [] := by
        simpa [normalizeFrom, eq_comm] using hSome
      subst hNil
      exact ⟨rfl, hUsed, by simp⟩
  | cons c rest ih =>
      unfold normalizeFrom at hSome
      split at hSome
      · rename_i hCr
        have hRest := ih hUsed hSome
        have hGone : expand c = [] := by
          unfold expand
          rw [if_pos hCr]
        rw [List.flatMap_cons, hGone, List.nil_append]
        exact hRest
      · split at hSome
        · cases hSome
        · rename_i hAllowed
          split at hSome
          · cases hSome
          · split at hSome
            · cases hSome
            · rename_i hRoom
              rw [Option.map_eq_some_iff] at hSome
              obtain ⟨tail, hTail, rfl⟩ := hSome
              unfold edCap at hUsed hRoom ih ⊢
              obtain ⟨hEq, hLess, hPlain⟩ :=
                ih (by omega) hTail
              refine ⟨?_, ?_, ?_⟩
              · rw [List.flatMap_cons, ← hEq]
              · rw [List.length_append]
                omega
              · intro x hMem
                rcases List.mem_append.mp hMem with hHere | hIn
                · exact expand_plain hAllowed hHere
                · exact hPlain x hIn

theorem normalize_spec
    (hSome : normalize s = some t) :
    t = s.flatMap expand ∧ Clean t := by
  obtain ⟨hEq, hRoom, hPlain⟩ :=
    normalizeFrom_spec (by decide : 0 < edCap) hSome
  exact ⟨hEq, by omega, hPlain⟩

/- Normalisation leaves other bytes as they are. -/
theorem flatMap_expand
    (hPlain : ∀ c ∈ s, c ≠ 9 ∧ c ≠ 13) :
    s.flatMap expand = s := by
  induction s with
  | nil => rfl
  | cons c rest ih =>
      have hHere := hPlain c (by simp)
      have hSame : expand c = [c] := by
        unfold expand
        rw [if_neg hHere.2, if_neg hHere.1]
      rw [List.flatMap_cons, hSame,
        ih (fun x hMem => hPlain x (by simp [hMem]))]
      rfl

theorem Clean.flatMap_expand
    (hClean : Clean s) :
    s.flatMap expand = s :=
  Editor.flatMap_expand fun c hMem => (hClean.plain c hMem).2

--
-- Lines
--

/- The line that starts at an offset. -/
def lineAt
    (s : List UInt8)
    (x : Nat) : List UInt8 :=
  (s.drop x).takeWhile (· != 10)

theorem lineAt_length_le
    (s : List UInt8)
    (x : Nat) :
    (lineAt s x).length ≤ s.length - x := by
  have hLe := (List.takeWhile_sublist
    (l := s.drop x) (· != 10)).length_le
  rwa [List.length_drop] at hLe

/- The next line starts behind the newline, if there is one. -/
theorem startsFrom_eq
    (n : Nat)
    (s : List UInt8) :
    startsFrom n s =
      if (lineAt s 0).length < s.length then
        (n + (lineAt s 0).length + 1) ::
          startsFrom (n + (lineAt s 0).length + 1)
            (s.drop ((lineAt s 0).length + 1))
      else [] := by
  induction s generalizing n with
  | nil => rfl
  | cons c rest ih =>
      rw [startsFrom]
      by_cases hNew : c = 10
      · subst hNew
        have hLine : lineAt (10 :: rest) 0 = [] := rfl
        rw [if_pos rfl, hLine]
        exact (if_pos (Nat.succ_pos _)).symm
      · have hLine : lineAt (c :: rest) 0 =
            c :: lineAt rest 0 := by
          unfold lineAt
          simp [hNew]
        rw [if_neg hNew, ih, hLine]
        simp only [List.length_cons, List.drop_succ_cons,
          Nat.add_lt_add_iff_right]
        have hShift : n + 1 + (lineAt rest 0).length =
            n + ((lineAt rest 0).length + 1) := by omega
        rw [hShift]

theorem lineAt_drop
    (s : List UInt8)
    (x y : Nat) :
    lineAt (s.drop x) y = lineAt s (x + y) := by
  unfold lineAt
  rw [List.drop_drop]

/- From the start of a line to the start of the next. -/
theorem starts_next
    {r n x : Nat}
    (hStart : (n :: startsFrom n s)[r]? = some x) :
    ∃ p, x = n + p ∧ p ≤ s.length ∧
      (n :: startsFrom n s)[r + 1]? =
        if p + (lineAt s p).length < s.length then
          some (x + (lineAt s p).length + 1)
        else none := by
  induction r generalizing n s x with
  | zero =>
      have hHere : n = x := by simpa using hStart
      subst hHere
      refine ⟨0, rfl, Nat.zero_le _, ?_⟩
      rw [List.getElem?_cons_succ, startsFrom_eq, Nat.zero_add]
      split
      · rfl
      · rfl
  | succ r ih =>
      rw [List.getElem?_cons_succ, startsFrom_eq] at hStart
      rw [List.getElem?_cons_succ, startsFrom_eq]
      split at hStart
      · rename_i hMore
        rw [if_pos hMore]
        obtain ⟨p, hEq, hLe, hNext⟩ := ih hStart
        rw [List.length_drop] at hLe hNext
        rw [lineAt_drop] at hNext
        refine ⟨(lineAt s 0).length + 1 + p, by omega,
          by omega, ?_⟩
        rw [hNext]
        exact if_congr (by omega) rfl rfl
      · cases hStart

theorem textStarts_next
    {r x : Nat}
    (hStart : (textStarts s)[r]? = some x) :
    x ≤ s.length ∧
      (textStarts s)[r + 1]? =
        if x + (lineAt s x).length < s.length then
          some (x + (lineAt s x).length + 1)
        else none := by
  obtain ⟨p, hEq, hLe, hNext⟩ := starts_next hStart
  rw [Nat.zero_add] at hEq
  subst hEq
  exact ⟨hLe, hNext⟩

/- Later lines start later. -/
theorem textStarts_mono
    {r r' x x' : Nat}
    (hLe : r ≤ r')
    (hStart : (textStarts s)[r]? = some x)
    (hLater : (textStarts s)[r']? = some x') :
    x ≤ x' := by
  induction r' generalizing x' with
  | zero =>
      have hZero : r = 0 := by omega
      subst hZero
      rw [hStart, Option.some.injEq] at hLater
      omega
  | succ r' ih =>
      by_cases hHere : r = r' + 1
      · subst hHere
        rw [hStart, Option.some.injEq] at hLater
        omega
      · have hInside : r' < (textStarts s).length := by
          have := (List.getElem?_eq_some_iff.mp hLater).1
          omega
        have hPrev : (textStarts s)[r']? =
            some (textStarts s)[r'] :=
          List.getElem?_eq_getElem hInside
        have hBelow := ih (by omega) hPrev
        rw [(textStarts_next hPrev).2] at hLater
        split at hLater
        · rw [Option.some.injEq] at hLater
          omega
        · cases hLater

--
-- Documents
--

/- The document holds the text. -/
structure Holds
    (d : TextDoc)
    (s : List UInt8) : Prop where
  used : d.used = s.length
  data : ∀ i c, s[i]? = some c →
    d.data i = if c = 10 then 0 else c
  stop : d.data s.length = 0
  lines : d.lines = (textStarts s).length
  start : ∀ r x, (textStarts s)[r]? = some x →
    d.start r = x

theorem Clean.takeWhile_eq
    (hClean : Clean s) :
    s.takeWhile (· != 0) = s := by
  rw [List.takeWhile_eq_self_iff]
  intro c hMem
  have hNot := (hClean.plain c hMem).1
  simpa using hNot

theorem textImport_holds
    (d : TextDoc)
    (hClean : Clean s) :
    Holds (textImport d s) s := by
  have hSame := hClean.takeWhile_eq
  refine ⟨?_, ?_, ?_, ?_, ?_⟩
  · show (s.takeWhile (· != 0)).length = s.length
    rw [hSame]
  · intro i c hAt
    have hInside := (List.getElem?_eq_some_iff.mp hAt).1
    unfold textImport
    dsimp only
    rw [hSame, if_pos hInside, List.getD_eq_getElem?_getD,
      hAt]
    rfl
  · unfold textImport
    dsimp only
    rw [hSame, if_neg (Nat.lt_irrefl _), if_pos rfl]
  · unfold textImport
    dsimp only
    rw [hSame]
  · intro r x hAt
    unfold textImport
    dsimp only
    rw [hSame, List.getD_eq_getElem?_getD, hAt]
    rfl

theorem textExport_eq
    (hHolds : Holds d s)
    (hClean : Clean s) :
    textExport d = s := by
  unfold textExport Buf.toList
  apply List.ext_getElem?
  intro i
  rw [List.getElem?_map, List.getElem?_map, hHolds.used]
  by_cases hInside : i < s.length
  · rw [List.getElem?_range hInside,
      List.getElem?_eq_getElem hInside]
    have hByte := hHolds.data i _
      (List.getElem?_eq_getElem hInside)
    have hPlain := hClean.plain _ (List.getElem_mem hInside)
    simp only [Option.map_some, hByte]
    unfold shown
    split
    · rename_i hNew
      simp [hNew]
    · simp [hPlain.1]
  · rw [List.getElem?_eq_none (by simpa using hInside),
      List.getElem?_eq_none (by omega)]
    rfl

/- A row of the buffer is a line of the text. -/
theorem takeWhile_row
    {b : Buf}
    {n : Nat}
    (hPlain : ∀ c ∈ s, c ≠ (0 : UInt8))
    (hData : ∀ i c, s[i]? = some c →
      b i = if c = 10 then 0 else c)
    (hStop : b s.length = 0)
    (hRoom : s.length < n) :
    (b.toList n).takeWhile (· != 0) =
      s.takeWhile (· != 10) := by
  induction s generalizing b n with
  | nil =>
      obtain ⟨n, rfl⟩ : ∃ k, n = k + 1 :=
        ⟨n - 1, by simp only [List.length_nil] at hRoom; omega⟩
      unfold Buf.toList
      rw [List.range_succ_eq_map, List.map_cons,
        List.takeWhile_cons_of_neg (by simpa using hStop)]
      rfl
  | cons c rest ih =>
      simp only [List.length_cons] at hStop hRoom
      obtain ⟨n, rfl⟩ : ∃ k, n = k + 1 :=
        ⟨n - 1, by omega⟩
      have hRest := ih (b := b.drop 1) (n := n)
        (fun x hMem => hPlain x (by simp [hMem]))
        (fun i x hAt => by
          have hByte := hData (i + 1) x (by simpa using hAt)
          rw [← hByte]
          unfold Buf.drop
          rw [Nat.add_comm])
        (by
          rw [← hStop]
          unfold Buf.drop
          rw [Nat.add_comm]) (by omega)
      have hHere := hData 0 c (by simp)
      have hTail : b.toList (n + 1) =
          b 0 :: (b.drop 1).toList n := by
        unfold Buf.toList Buf.drop
        rw [List.range_succ_eq_map, List.map_cons,
          List.map_map]
        refine congrArg _ (List.map_congr_left ?_)
        intro i _
        simp [Nat.add_comm]
      rw [hTail, hHere]
      by_cases hNew : c = 10
      · subst hNew
        rfl
      · have hNot := hPlain c (by simp)
        rw [if_neg hNew, List.takeWhile_cons_of_pos
            (by simpa using hNot), hRest,
          List.takeWhile_cons_of_pos (by simpa using hNew)]

theorem textLine_eq
    {r x : Nat}
    (hHolds : Holds d s)
    (hClean : Clean s)
    (hStart : (textStarts s)[r]? = some x) :
    textLine d r = lineAt s x := by
  have hLe := (textStarts_next hStart).1
  have hRoom := hClean.room
  unfold textLine
  rw [hHolds.start r x hStart]
  refine takeWhile_row (s := s.drop x) ?_ ?_ ?_ ?_
  · intro c hMem
    exact (hClean.plain c (List.mem_of_mem_drop hMem)).1
  · intro i c hAt
    rw [List.getElem?_drop] at hAt
    exact hHolds.data _ _ hAt
  · unfold Buf.drop
    rw [List.length_drop, Nat.add_sub_cancel' hLe]
    exact hHolds.stop
  · rw [List.length_drop]
    omega

--
-- Positions
--

/- A place in the text, by row and column. -/
def CaretOk
    (s : List UInt8)
    (row col : Nat) : Prop :=
  ∃ x, (textStarts s)[row]? = some x ∧
    col ≤ (lineAt s x).length

/- The caret is in the text, and so is a selection. -/
structure MarkOk
    (s : List UInt8)
    (m : TextMark) : Prop where
  caret : CaretOk s m.cy m.cx
  anchor : m.selecting = true → CaretOk s m.ay m.ax

theorem textOffset_le
    {row col : Nat}
    (hHolds : Holds d s)
    (hOk : CaretOk s row col) :
    textOffset d row col ≤ s.length := by
  obtain ⟨x, hStart, hCol⟩ := hOk
  have hLe := (textStarts_next hStart).1
  have hLine := lineAt_length_le s x
  unfold textOffset
  rw [hHolds.start row x hStart]
  omega

/- The lines up to the result start at or before the offset. -/
theorem searchStart_spec
    {offset : Nat}
    (fuel : Nat)
    {low high : Nat}
    (hMono : ∀ r r', r ≤ r' → r' < d.lines →
      d.start r ≤ d.start r')
    (hHigh : high ≤ d.lines)
    (hLow : ∀ r, r < low → d.start r ≤ offset)
    (hAbove : ∀ r, high ≤ r → r < d.lines →
      offset < d.start r)
    (hOrder : low ≤ high)
    (hFuel : high - low ≤ fuel) :
    searchStart d offset fuel low high ≤ d.lines ∧
      (∀ r, r < searchStart d offset fuel low high →
        d.start r ≤ offset) ∧
      (∀ r, searchStart d offset fuel low high ≤ r →
        r < d.lines → offset < d.start r) := by
  induction fuel generalizing low high with
  | zero =>
      have hSame : low = high := by omega
      subst hSame
      exact ⟨hHigh, hLow, hAbove⟩
  | succ fuel ih =>
      unfold searchStart
      by_cases hMore : low < high
      · rw [if_pos hMore]
        by_cases hMid :
            d.start (low + (high - low) / 2) ≤ offset
        · rw [if_pos hMid]
          refine ih hHigh ?_ hAbove (by omega) (by omega)
          intro r hr
          have hLe := hMono r (low + (high - low) / 2)
            (by omega) (by omega)
          omega
        · rw [if_neg hMid]
          refine ih (by omega) hLow ?_ (by omega) (by omega)
          intro r hr hLines
          have hLe := hMono (low + (high - low) / 2) r hr
            hLines
          omega
      · rw [if_neg hMore]
        have hSame : low = high := by omega
        subst hSame
        exact ⟨hHigh, hLow, hAbove⟩

theorem Holds.getElem?_start
    {r : Nat}
    (hHolds : Holds d s)
    (hRow : r < d.lines) :
    (textStarts s)[r]? = some (d.start r) := by
  rw [hHolds.lines] at hRow
  have hAt := List.getElem?_eq_getElem hRow
  rw [hAt, hHolds.start r _ hAt]

/- The row that the search for an offset in the text finds. -/
theorem searchStart_place
    {place : Nat}
    (hHolds : Holds d s)
    (hPlace : place ≤ s.length) :
    ∃ row x,
      searchStart d place d.lines 0 d.lines - 1 = row ∧
        (textStarts s)[row]? = some x ∧
        d.start row = x ∧ x ≤ place ∧
        place ≤ x + (lineAt s x).length := by
  have hFirst : d.start 0 = 0 := hHolds.start 0 0 rfl
  have hLines : 0 < d.lines := by
    rw [hHolds.lines]
    exact Nat.succ_pos _
  have hMono : ∀ r r', r ≤ r' → r' < d.lines →
      d.start r ≤ d.start r' := by
    intro r r' hLe hRow
    exact textStarts_mono hLe
      (hHolds.getElem?_start (by omega))
      (hHolds.getElem?_start hRow)
  obtain ⟨hBound, hBelow, hAbove⟩ := searchStart_spec
    d.lines hMono (Nat.le_refl _)
    (fun r (hNone : r < 0) => absurd hNone (Nat.not_lt_zero r)
      : ∀ r, r < 0 → d.start r ≤ place)
    (by omega) (by omega) (by omega)
  generalize searchStart d place d.lines 0 d.lines = low at *
  have hPos : 0 < low := by
    by_contra hZero
    have hLess := hAbove 0 (by omega) hLines
    omega
  have hHere := hHolds.getElem?_start
    (r := low - 1) (by omega)
  refine ⟨low - 1, _, rfl, hHere, rfl,
    hBelow (low - 1) (by omega), ?_⟩
  have hNext := (textStarts_next hHere).2
  rw [show low - 1 + 1 = low by omega] at hNext
  split at hNext
  · have hIn : low < d.lines := by
      rw [hHolds.lines]
      exact (List.getElem?_eq_some_iff.mp hNext).1
    have hLess := hAbove low (Nat.le_refl _) hIn
    rw [hHolds.start low _ hNext] at hLess
    omega
  · omega

theorem textPosition_clamp
    (hHolds : Holds d s)
    (offset : Nat) :
    (if d.used < offset then d.used else offset) =
      min offset s.length := by
  have hUsed := hHolds.used
  split
  · omega
  · omega

/- The position of an offset is a place in the text. -/
theorem textPosition_spec
    (hHolds : Holds d s)
    (offset : Nat) :
    CaretOk s (textPosition d offset).cy
      (textPosition d offset).cx := by
  obtain ⟨row, x, hRow, hStart, hEq, hFrom, hTo⟩ :=
    searchStart_place hHolds
      (Nat.min_le_right offset s.length)
  unfold textPosition
  dsimp only
  rw [textPosition_clamp hHolds, hRow, hEq]
  exact ⟨x, hStart, by omega⟩

/- It is the offset itself, or the end of the text. -/
theorem textOffset_position
    (hHolds : Holds d s)
    (offset : Nat) :
    textOffset d (textPosition d offset).cy
        (textPosition d offset).cx =
      min offset s.length := by
  obtain ⟨row, x, hRow, _, hEq, hFrom, _⟩ :=
    searchStart_place hHolds
      (Nat.min_le_right offset s.length)
  unfold textPosition textOffset
  dsimp only
  rw [textPosition_clamp hHolds, hRow, hEq]
  omega

/- The ends of the selection. -/
theorem textRange_spec
    {revision : Nat}
    (hHolds : Holds d s)
    (hOk : MarkOk s (mark d revision)) :
    (textRange d).1 ≤ (textRange d).2 ∧
      (textRange d).2 ≤ s.length := by
  have hCaret := textOffset_le hHolds hOk.caret
  unfold textRange
  dsimp only
  split
  · rename_i hSel
    have hOn : d.selecting = true := by
      unfold textSelected at hSel
      rw [Bool.and_eq_true] at hSel
      exact hSel.1
    have hAnchor := textOffset_le hHolds (hOk.anchor hOn)
    dsimp only [mark] at hCaret hAnchor
    split
    · exact ⟨by omega, hCaret⟩
    · exact ⟨by omega, hAnchor⟩
  · exact ⟨Nat.le_refl _, hCaret⟩

--
-- Characters
--

theorem textNext_bounds
    {col : Nat}
    (hCol : col < s.length) :
    col < textNext s col ∧ textNext s col ≤ s.length := by
  have hLe := (List.takeWhile_sublist
    (l := s.drop (col + 1)) isTail).length_le
  rw [List.length_drop] at hLe
  unfold textNext
  rw [if_pos hCol]
  omega

theorem backOver_le
    (s : List UInt8)
    (col : Nat) :
    backOver s col ≤ col := by
  induction col with
  | zero => exact Nat.le_refl 0
  | succ col ih =>
      unfold backOver
      split
      · omega
      · exact Nat.le_refl _

theorem textPrev_lt
    (s : List UInt8)
    {col : Nat}
    (hCol : col ≠ 0) :
    textPrev s col < col := by
  obtain ⟨col, rfl⟩ : ∃ k, col = k + 1 :=
    ⟨col - 1, by omega⟩
  exact Nat.lt_succ_of_le (backOver_le s col)

end KvantOS.Editor
