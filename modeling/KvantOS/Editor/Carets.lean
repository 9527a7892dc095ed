import KvantOS.Editor.Substitution

/-
  This file studies where the calls of the editor leave the
  caret in text that is well formed: between two characters,
  but for one call.

  Key definitions include:
    * `AtCharacter`, `Placed`
    * `staysAligned`, `Harmless`, `Composed`

  Key theorems include:
    * `expand_valid`
    * `textReplace_placed`, `textDelete_placed`
    * `textReplaceAll_placed`, `caret_placed_iff`
-/

namespace KvantOS.Editor

open Utf8 Scan

variable {s t q x y : List UInt8} {c : UInt8} {d : TextDoc}
variable {u : TextUndo} {r : Editing} {row col n : Nat}
variable {places : List Nat}

--
-- Places
--

/- A place in a row, between two characters of the text. -/
def AtCharacter
    (s : List UInt8)
    (row col : Nat) : Prop :=
  ∃ x, (textStarts s)[row]? = some x ∧
    col ≤ (lineAt s x).length ∧ Boundary s (x + col)

/- Text with the caret and a selection between characters. -/
structure Placed (x : Snapshot) : Prop where
  text : Valid x.text
  caret : AtCharacter x.text x.mark.cy x.mark.cx
  anchor : x.mark.selecting = true →
    AtCharacter x.text x.mark.ay x.mark.ax

theorem AtCharacter.caretOk
    (hAt : AtCharacter s row col) :
    CaretOk s row col := by
  obtain ⟨x, hStart, hCol, -⟩ := hAt
  exact ⟨x, hStart, hCol⟩

theorem AtCharacter.boundary
    (hHolds : Holds d s)
    (hAt : AtCharacter s row col) :
    Boundary s (textOffset d row col) := by
  obtain ⟨x, hStart, -, hPlace⟩ := hAt
  unfold textOffset
  rw [hHolds.start row x hStart]
  exact hPlace

theorem atCharacter_iff
    (hHolds : Holds d s)
    (hCaret : CaretOk s row col) :
    AtCharacter s row col ↔
      Boundary s (textOffset d row col) := by
  refine ⟨fun hAt => hAt.boundary hHolds, fun hPlace => ?_⟩
  obtain ⟨x, hStart, hCol⟩ := hCaret
  unfold textOffset at hPlace
  rw [hHolds.start row x hStart] at hPlace
  exact ⟨x, hStart, hCol, hPlace⟩

/- The position of an offset, without a selection. -/
theorem placed_position
    {d' : TextDoc}
    {offset : Nat}
    (hHolds : Holds d t)
    (hValid : Valid t)
    (hText : textExport d' = t)
    (hRow : d'.cy = (textPosition d offset).cy)
    (hCol : d'.cx = (textPosition d offset).cx)
    (hOff : d'.selecting = false) :
    Placed (snapshot d') ↔
      Boundary t (min offset t.length) := by
  have hCaret := textPosition_spec hHolds offset
  have hPlace := atCharacter_iff hHolds hCaret
  rw [textOffset_position hHolds] at hPlace
  unfold snapshot mark
  rw [hText, hRow, hCol, hOff]
  refine ⟨fun hPlaced => hPlace.mp hPlaced.caret, ?_⟩
  exact fun hAt => ⟨hValid, hPlace.mpr hAt, nofun⟩

--
-- Lines
--

theorem getElem?_lineAt
    {i : Nat}
    (x : Nat)
    (hIn : i < (lineAt s x).length) :
    s[x + i]? = (lineAt s x)[i]? := by
  have hPrefix := List.takeWhile_prefix
    (l := s.drop x) (· != 10)
  rw [← List.getElem?_drop, List.getElem?_eq_getElem hIn,
    List.getElem?_eq_getElem
      (Nat.lt_of_lt_of_le hIn hPrefix.length_le),
    Option.some.injEq]
  exact (hPrefix.getElem hIn).symm

/- What is taken ends before a byte that is not wanted. -/
theorem takeWhile_stop
    {p : UInt8 → Bool}
    (hByte : s[(s.takeWhile p).length]? = some c) :
    p c = false := by
  induction s with
  | nil => cases hByte
  | cons b s ih =>
      rw [List.takeWhile_cons] at hByte
      cases hWanted : p b with
      | true =>
          rw [hWanted] at hByte
          exact ih hByte
      | false =>
          rw [hWanted] at hByte
          obtain rfl := Option.some.inj hByte
          exact hWanted

/- A line ends before a newline, or with the text. -/
theorem lineAt_end
    {x : Nat}
    (hByte : s[x + (lineAt s x).length]? = some c) :
    c = 10 := by
  rw [← List.getElem?_drop] at hByte
  simpa using takeWhile_stop hByte

theorem valid_newline : Valid [10] :=
  ⟨['\n'], by decide⟩

theorem not_continues_newline : ¬Continues 10 := by
  unfold Continues
  decide

/- The ends of a line are between characters. -/
theorem boundary_lineEnd
    (hValid : Valid s)
    {x : Nat}
    (hInside : x ≤ s.length) :
    Boundary s (x + (lineAt s x).length) := by
  have hLe := lineAt_length_le s x
  refine Aligned.boundary ⟨by omega, ?_⟩ hValid
  intro c hByte
  rw [lineAt_end hByte]
  exact not_continues_newline

theorem boundary_lineStart
    (hValid : Valid s)
    {x : Nat}
    (hStart : (textStarts s)[row]? = some x) :
    Boundary s x := by
  cases row with
  | zero =>
      obtain rfl : 0 = x := Option.some.inj hStart
      exact boundary_zero hValid
  | succ row =>
      have hRow := (List.getElem?_eq_some_iff.mp hStart).1
      have hPrev := List.getElem?_eq_getElem
        (show row < (textStarts s).length by omega)
      obtain ⟨hInside, hNext⟩ := textStarts_next hPrev
      rw [hStart] at hNext
      split at hNext
      · rename_i hMore
        rw [Option.some.inj hNext]
        have hByte := List.getElem?_eq_getElem hMore
        refine (boundary_lineEnd hValid hInside).skip
          valid_newline ?_ hMore
        rw [List.drop_eq_getElem_cons hMore,
          lineAt_end hByte]
        rfl
      · cases hNext

/- The next character of a line, and the one before. -/
theorem textNext_boundary
    (hValid : Valid s)
    {x : Nat}
    (hInside : x ≤ s.length)
    (hCol : col < (lineAt s x).length) :
    Boundary s (x + textNext (lineAt s x) col) := by
  obtain ⟨hMore, hTo⟩ := textNext_bounds hCol
  rcases Nat.eq_or_lt_of_le hTo with hEnd | hIn
  · rw [hEnd]
    exact boundary_lineEnd hValid hInside
  · have hLe := lineAt_length_le s x
    refine Aligned.boundary ⟨by omega, ?_⟩ hValid
    intro c hByte
    rw [getElem?_lineAt x hIn] at hByte
    unfold textNext at hByte
    rw [if_pos hCol, ← List.getElem?_drop] at hByte
    have hNot := takeWhile_stop hByte
    rwa [← Bool.not_eq_true, isTail_iff] at hNot

theorem backOver_stop
    (s : List UInt8)
    (col : Nat) :
    backOver s col = 0 ∨
      isTail (s.getD (backOver s col) 0) = false := by
  induction col with
  | zero => exact .inl rfl
  | succ col ih =>
      rw [backOver]
      split
      · exact ih
      · rename_i hNot
        exact .inr (Bool.not_eq_true _ ▸ hNot)

theorem textPrev_boundary
    (hValid : Valid s)
    {x : Nat}
    (hPlace : Boundary s x)
    (hCol : col ≤ (lineAt s x).length)
    (hSome : col ≠ 0) :
    Boundary s (x + textPrev (lineAt s x) col) := by
  have hLess := textPrev_lt (lineAt s x) hSome
  have hLe := lineAt_length_le s x
  obtain ⟨col, rfl⟩ : ∃ k, col = k + 1 :=
    ⟨col - 1, by omega⟩
  rcases backOver_stop (lineAt s x) col with hZero | hNot
  · have hStay : textPrev (lineAt s x) (col + 1) = 0 := hZero
    rw [hStay]
    exact hPlace
  · refine Aligned.boundary ⟨by omega, ?_⟩ hValid
    intro c hByte
    rw [getElem?_lineAt x (by omega)] at hByte
    have hHere : (lineAt s x).getD
        (backOver (lineAt s x) col) 0 = c := by
      rw [List.getD_eq_getElem?_getD]
      show ((lineAt s x)[textPrev (lineAt s x)
        (col + 1)]?).getD 0 = c
      rw [hByte]
      rfl
    rw [hHere, ← Bool.not_eq_true, isTail_iff] at hNot
    exact hNot

--
-- Replacing
--

/- Normalised well-formed text is well formed. -/
theorem expand_valid
    (hValid : Valid x) :
    Valid (x.flatMap expand) := by
  obtain ⟨text, rfl⟩ := hValid
  induction text with
  | nil => exact valid_nil
  | cons c text ih =>
      obtain ⟨first, rest, hChar, _, hRest, hAlone⟩ :=
        encodeChar_shape c
      rw [encode_cons, List.flatMap_append]
      refine Valid.append ?_ ih
      by_cases hSpecial : first = 9 ∨ first = 13
      · rw [hChar, hAlone (by
          rcases hSpecial with rfl | rfl
          · decide
          · decide)]
        rcases hSpecial with rfl | rfl
        · exact ⟨[' ', ' ', ' ', ' '], by decide⟩
        · exact valid_nil
      · rw [flatMap_expand]
        · exact ⟨[c], by
            rw [encode_cons, encode_nil, List.append_nil]⟩
        · rw [hChar, List.forall_mem_cons]
          refine ⟨not_or.mp hSpecial, fun b hMem => ?_⟩
          have hHigh := (hRest b hMem).1
          refine ⟨?_, ?_⟩
          · rintro rfl
            exact absurd hHigh (by decide)
          · rintro rfl
            exact absurd hHigh (by decide)

/- The ends of the selection, or the caret. -/
theorem textRange_boundary
    (hHolds : Holds d (textExport d))
    (hPlaced : Placed (snapshot d)) :
    Boundary (textExport d) (textRange d).1 ∧
      Boundary (textExport d) (textRange d).2 := by
  have hCaret := hPlaced.caret.boundary hHolds
  unfold textRange
  dsimp only
  split
  · rename_i hSelected
    have hOn : d.selecting = true := by
      unfold textSelected at hSelected
      rw [Bool.and_eq_true] at hSelected
      exact hSelected.1
    have hAnchor := (hPlaced.anchor hOn).boundary hHolds
    split
    · exact ⟨hAnchor, hCaret⟩
    · exact ⟨hCaret, hAnchor⟩
  · exact ⟨hCaret, hCaret⟩

/- A replacement leaves the caret behind what is new. -/
theorem textReplace_placed
    (hHolds : Holds d (textExport d))
    (hClean : Clean (textExport d))
    (hPlaced : Placed (snapshot d))
    (u : TextUndo)
    (hValid : Valid x) :
    Placed (snapshot (textReplace d u x).2.1) := by
  rcases textReplace_cases d u x with
    ⟨hFail, -⟩ | ⟨hNothing, -⟩ | ⟨t, u', hNormal, hEdit⟩
  · rw [hFail]
    exact hPlaced
  · rw [hNothing]
    exact hPlaced
  · rw [hEdit]
    have hProper := normalize_proper hNormal
    have hImport := textImport_holds d hProper.clean
    obtain ⟨hFrom, hTo⟩ := textRange_boundary hHolds hPlaced
    have hText : t = (textExport d).take (textRange d).1 ++
        x.flatMap expand ++
          (textExport d).drop (textRange d).2 := by
      rw [(normalize_iff.mp hNormal).1]
      unfold spliced
      rw [List.flatMap_append, List.flatMap_append,
        flatMap_expand (fun c hMem =>
          (hClean.plain c (List.mem_of_mem_take hMem)).2),
        flatMap_expand (fun c hMem =>
          (hClean.plain c (List.mem_of_mem_drop hMem)).2)]
    obtain ⟨hNew, hPlace⟩ :=
      hFrom.replace hTo (expand_valid hValid)
    rw [← hText] at hNew hPlace
    have hSame : textExport (editedDoc d t
        ((textRange d).1 + insertedLength x)) = t := by
      rw [textExport_same (sameText_edited d t _)]
      exact textExport_eq hImport hProper.clean
    refine (placed_position hImport hNew hSame rfl rfl
      rfl).mpr ?_
    · rw [insertedLength_eq,
        Nat.min_eq_left hPlace.inside]
      exact hPlace

/- Where the caret goes to select what is deleted. -/
theorem deleteCaret_character
    {backwards : Bool}
    (hHolds : Holds d s)
    (hClean : Clean s)
    (hValid : Valid s)
    (hCaret : CaretOk s d.cy d.cx)
    (hEdge : atEdge d backwards = false) :
    AtCharacter s (deleteCaret d backwards).1
      (deleteCaret d backwards).2 := by
  obtain ⟨hMoved, -⟩ :=
    deleteCaret_spec hHolds hClean hCaret hEdge
  obtain ⟨x, hStart, hCol⟩ := hMoved
  refine ⟨x, hStart, hCol, ?_⟩
  have hInside := (textStarts_next hStart).1
  have hFirst := boundary_lineStart hValid hStart
  have hLine := textLine_eq hHolds hClean hStart
  obtain ⟨y, hHere, hBefore⟩ := hCaret
  unfold deleteCaret at hStart hLine ⊢
  cases backwards with
  | true =>
      simp only [if_true] at hStart hLine ⊢
      by_cases hZero : d.cx ≠ 0
      · rw [if_pos hZero] at hStart hLine ⊢
        dsimp only at hStart hLine ⊢
        rw [hHere, Option.some.injEq] at hStart
        rw [hStart] at hBefore
        rw [hLine]
        exact textPrev_boundary hValid hFirst hBefore hZero
      · rw [if_neg hZero] at hLine ⊢
        dsimp only at hLine ⊢
        rw [hLine]
        exact boundary_lineEnd hValid hInside
  | false =>
      simp only [Bool.false_eq_true, if_false]
        at hStart hLine ⊢
      by_cases hMore : d.cx < (textLine d d.cy).length
      · rw [if_pos hMore] at hLine ⊢
        dsimp only at hLine ⊢
        rw [hLine] at hMore ⊢
        exact textNext_boundary hValid hInside hMore
      · rw [if_neg hMore]
        exact hFirst

/- Deleting leaves the caret where the character was. -/
theorem textDelete_placed
    (hHolds : Holds d (textExport d))
    (hClean : Clean (textExport d))
    (hPlaced : Placed (snapshot d))
    (u : TextUndo)
    (backwards : Bool) :
    Placed (snapshot (textDelete d u backwards).2.1) := by
  unfold textDelete
  split
  · exact textReplace_placed hHolds hClean hPlaced u valid_nil
  · cases hEdge : atEdge d backwards with
    | true => exact hPlaced
    | false =>
        have hMoved := deleteCaret_character hHolds hClean
          hPlaced.text hPlaced.caret.caretOk hEdge
        have hEdit := textReplace_placed
          (d := { d with
            ay := d.cy
            ax := d.cx
            selecting := true
            cy := (deleteCaret d backwards).1
            cx := (deleteCaret d backwards).2 })
          (hHolds.congr rfl rfl rfl rfl) hClean
          ⟨hPlaced.text, hMoved, fun _ => hPlaced.caret⟩ u
          valid_nil
        rcases textReplace_cases { d with
            ay := d.cy
            ax := d.cx
            selecting := true
            cy := (deleteCaret d backwards).1
            cx := (deleteCaret d backwards).2 } u [] with
          ⟨hFail, -⟩ | ⟨hNothing, -⟩ | ⟨t, u', -, hDone⟩
        · rw [if_neg (by decide)]
          dsimp only
          rw [hFail]
          exact hPlaced
        · rw [hNothing] at hEdit
          rw [if_neg (by decide)]
          dsimp only
          rw [hNothing]
          exact hEdit
        · rw [hDone] at hEdit
          rw [if_neg (by decide)]
          dsimp only
          rw [hDone]
          exact hEdit

--
-- Replacing All
--

/-
  Counting `k` bytes from `i` on, with `y` in the place of
  the matches, ends before the first byte of a character.
-/
def staysAligned
    (s y : List UInt8)
    (n : Nat) :
    Nat → List Nat → Nat → Prop
  | i, [], k => i + k ≤ s.length → Aligned s (i + k)
  | i, j :: rest, k =>
      if k < j - i then
        Aligned s (i + k)
      else if k - (j - i) < y.length then
        Aligned y (k - (j - i))
      else
        staysAligned s y n (j + n) rest
          (k - (j - i) - y.length)

/- It is so counted in the text that is built. -/
theorem staysAligned_iff
    {i : Nat}
    (hPlaces : Leftmost (AlignedMatch s q) q.length i places)
    (hInside : i ≤ s.length)
    (k : Nat) :
    staysAligned s y q.length i places k ↔
      (k ≤ (replacedAt s y q.length i places).length →
        Aligned (replacedAt s y q.length i places) k) := by
  induction hPlaces generalizing k with
  | @done i hNone =>
      have hSplit := List.take_append_drop i s
      have hBehind : (s.take i).length ≤ i + k := by
        rw [List.length_take]
        omega
      have hBack := @aligned_right _ (s.drop i) _ hBehind
      rw [hSplit, List.length_take,
        Nat.min_eq_left hInside,
        Nat.add_sub_cancel_left] at hBack
      rw [staysAligned, replacedAt, hBack, List.length_drop]
      exact imp_congr_left (by omega)
  | @next i j rest hLeast hRest ih =>
      have hFrom : i ≤ j := hLeast.1.2
      have hLast := hLeast.1.1.last.inside
      have hLength : ((s.drop i).take (j - i)).length =
          j - i := by
        rw [List.length_take, List.length_drop]
        omega
      rw [staysAligned, replacedAt, List.append_assoc]
      by_cases hKept : k < j - i
      · rw [if_pos hKept, aligned_left (by omega)]
        have hByte : ((s.drop i).take (j - i))[k]? =
            s[i + k]? := by
          rw [List.getElem?_take_of_lt hKept,
            List.getElem?_drop]
        constructor
        · rintro hAligned -
          exact ⟨by omega, fun b hb =>
            hAligned.first b (hByte.symm.trans hb)⟩
        · intro hAligned
          have hHere := hAligned (by
            rw [List.length_append, hLength]
            omega)
          exact ⟨by omega, fun b hb =>
            hHere.first b (hByte.trans hb)⟩
      · rw [if_neg hKept, aligned_right (by omega),
          hLength, List.length_append, hLength]
        by_cases hNew : k - (j - i) < y.length
        · rw [if_pos hNew, aligned_left hNew]
          refine ⟨fun hAligned _ => hAligned,
            fun hAligned => hAligned ?_⟩
          rw [List.length_append]
          omega
        · rw [if_neg hNew, aligned_right (by omega),
            ih hLast, List.length_append]
          exact imp_congr_left (by omega)

/- The text that is built is well formed. -/
theorem replacedAt_valid
    {i : Nat}
    (hPlaces : Leftmost (AlignedMatch s q) q.length i places)
    (hValid : Valid s)
    (hNew : Valid y)
    (hFrom : Boundary s i) :
    Valid (replacedAt s y q.length i places) := by
  induction hPlaces with
  | done _ => exact hFrom.after
  | next hLeast _ ih =>
      have hMatch := hLeast.1.1
      have hTo := hMatch.first.boundary hValid
      exact ((hFrom.between hTo hLeast.1.2).append hNew).append
        (ih (hMatch.last.boundary hValid))

theorem replacedAt_expand
    (hClean : Clean s)
    (x : List UInt8)
    (n i : Nat)
    (places : List Nat) :
    (replacedAt s x n i places).flatMap expand =
      replacedAt s (x.flatMap expand) n i places := by
  have hKept (c : UInt8) (hMem : c ∈ s) :=
    (hClean.plain c hMem).2
  induction places generalizing i with
  | nil =>
      exact flatMap_expand fun c hMem =>
        hKept c (List.mem_of_mem_drop hMem)
  | cons j rest ih =>
      rw [replacedAt, replacedAt, List.flatMap_append,
        List.flatMap_append, ih, flatMap_expand fun c hMem =>
          hKept c
            (List.mem_of_mem_drop (List.mem_of_mem_take hMem))]

/-
  A call is refused, or in the text that it builds the old
  offset of the caret is behind the end or before the first
  byte of a character.
-/
def Harmless
    (s q x : List UInt8)
    (caret : Nat) : Prop :=
  queryOk q = false ∨ edQueryCap ≤ x.length ∨
    ∃ places,
      Leftmost (AlignedMatch s q) q.length 0 places ∧
        (¬Takes (replacedAt s x q.length 0 places) ∨
          (∃ c ∈ replacedAt s x q.length 0 places,
            ¬Typable c) ∨
          staysAligned s (x.flatMap expand) q.length 0 places
            caret)

/- The caret is between characters unless it is harmed. -/
theorem textReplaceAll_placed
    (hHolds : Holds d (textExport d))
    (hProper : Proper (textExport d))
    (hPlaced : Placed (snapshot d))
    (u : TextUndo)
    (q : List UInt8)
    (hValid : Valid x) :
    Placed (snapshot (textReplaceAll d u q x).2.2.1) ↔
      Harmless (textExport d) q x
        (textOffset d d.cy d.cx) := by
  have hClean := hProper.clean
  have hText : Valid (textExport d) := hPlaced.text
  have hCaret := hPlaced.caret.boundary hHolds
  rcases textReplaceAll_cases hHolds hClean u q x with
    ⟨hBad, hWhy⟩ | ⟨places, hPlaces, hCases⟩
  · rw [hBad]
    exact iff_of_true hPlaced (hWhy.imp_right .inl)
  · have hStays := staysAligned_iff (y := x.flatMap expand)
      hPlaces (Nat.zero_le _) (textOffset d d.cy d.cx)
    rw [← replacedAt_expand hClean] at hStays
    rcases hCases with ⟨hFail, hWhy⟩ | ⟨hNothing, hAll⟩ |
      ⟨hQuery, hShort, hRoom, t, place, u', hNormal, hEdit,
        _⟩
    · rw [hFail]
      refine iff_of_true hPlaced (.inr (.inr
        ⟨places, hPlaces, ?_⟩))
      by_contra hNone
      push Not at hNone
      obtain ⟨hTakes, hTypable, -⟩ := hNone
      rcases hWhy with hLong | hNormal
      · have hRoom := hTakes.intermediate
        omega
      · rw [normalize_iff.mpr ⟨rfl, hTypable, hTakes.final,
          hTakes.lines⟩] at hNormal
        cases hNormal
    · rw [hNothing]
      refine iff_of_true hPlaced (.inr (.inr
        ⟨places, hPlaces, .inr (.inr (hStays.mpr ?_))⟩))
      rw [hAll, hClean.flatMap_expand]
      exact fun _ => (boundary_iff hText).mp hCaret
    · rw [hEdit]
      have hNew := normalize_proper hNormal
      have hImport : Holds
          (editedDoc (selectAll d) t place) t :=
        (textImport_holds (selectAll d) hNew.clean).congr
          rfl rfl rfl rfl
      obtain ⟨rfl, hTypable, hFinal, hLines⟩ :=
        normalize_iff.mp hNormal
      have hBuilt := replacedAt_valid hPlaces hText
        (expand_valid hValid) (boundary_zero hText)
      rw [← replacedAt_expand hClean] at hBuilt
      have hPlace := @placed_position _ _
        (replacedDoc d _ place) (textOffset d d.cy d.cx)
        hImport hBuilt (textExport_replacedDoc d hNew place)
        rfl rfl rfl
      rw [hPlace, boundary_min_iff hBuilt, ← hStays]
      constructor
      · intro hStay
        exact .inr (.inr ⟨places, hPlaces, .inr (.inr hStay)⟩)
      · rintro (hBad | hLong | ⟨places', hPlaces', hWhy⟩)
        · rw [hQuery] at hBad
          cases hBad
        · omega
        · obtain rfl := hPlaces.unique hPlaces'
          rcases hWhy with hNot | ⟨c, hMem, hNot⟩ | hStay
          · exact absurd ⟨hRoom, hFinal, hLines⟩ hNot
          · exact absurd (hTypable c hMem) hNot
          · exact hStay

--
-- Runs
--

/- The arguments are well formed. -/
def WellFormed
    (r : Editing) : TextCall → Prop
  | .replace x => Valid x
  | .replaceAll q x => Valid q ∧ Valid x
  | .move m =>
      AtCharacter (textExport r.doc) m.cy m.cx ∧
        (m.selecting = true →
          AtCharacter (textExport r.doc) m.ay m.ax)
  | _ => True

/- Replacing all leaves the caret between characters. -/
def Spares
    (r : Editing) : TextCall → Prop
  | .replaceAll q x =>
      Harmless (textExport r.doc) q x
        (textOffset r.doc r.doc.cy r.doc.cx)
  | _ => True

/- Everything that such calls lead to. -/
inductive Composed : Editing → Prop where
  | empty
      (d : TextDoc)
      (u : TextUndo) :
      Composed (opened (textReset d) u)
  | load
      (d d' : TextDoc)
      (u : TextUndo)
      (x : List UInt8)
      (hValid : Valid x)
      (hSet : textSet d x = (true, d')) :
      Composed (opened d' u)
  | copy
      {r : Editing}
      (dst : TextDoc)
      (u : TextUndo)
      (hComposed : Composed r) :
      Composed (opened (textCopy dst r.doc) u)
  | step
      {r : Editing}
      {c : TextCall}
      (hComposed : Composed r)
      (hFormed : WellFormed r c)
      (hSpares : Spares r c) :
      Composed (step r c)

theorem WellFormed.allowed
    {c : TextCall}
    (hFormed : WellFormed r c) :
    Allowed r c := by
  cases c with
  | move m =>
      exact ⟨hFormed.1.caretOk, fun hOn =>
        (hFormed.2 hOn).caretOk⟩
  | _ => trivial

theorem Composed.worked
    (hComposed : Composed r) :
    Worked r := by
  induction hComposed with
  | empty d u => exact .empty d u
  | load d d' u x _ hSet => exact .load d d' u x hSet
  | copy dst u _ ih => exact .copy dst u ih
  | step _ hFormed _ ih => exact .step ih hFormed.allowed

/- What a call that changes the text or the caret leaves. -/
theorem placed_step_iff
    {c : TextCall}
    (hKept : Kept r)
    (hPlaced : Placed (snapshot r.doc))
    (hFormed : WellFormed r c)
    (hChanges : Changes c) :
    Placed (snapshot (step r c).doc) ↔ Spares r c := by
  have hHolds := hKept.described.holds
  have hProper := hKept.proper.now
  have hClean : Clean (textExport r.doc) := hProper.clean
  cases c with
  | replace x =>
      exact iff_of_true (textReplace_placed hHolds hClean
        hPlaced r.undo hFormed) trivial
  | delete backwards =>
      exact iff_of_true (textDelete_placed hHolds hClean
        hPlaced r.undo backwards) trivial
  | replaceAll q x =>
      exact textReplaceAll_placed hHolds hProper hPlaced
        r.undo q hFormed.2
  | move m =>
      exact iff_of_true
        ⟨hPlaced.text, hFormed.1, hFormed.2⟩ trivial
  | undo => cases hChanges
  | redo => cases hChanges
  | saved => cases hChanges
  | reset => cases hChanges

theorem placed_start
    (hHolds : Holds d s)
    (hClean : Clean s)
    (hValid : Valid s)
    (hRow : d.cy = 0)
    (hCol : d.cx = 0)
    (hOff : d.selecting = false) :
    Placed (snapshot d) := by
  unfold snapshot mark
  rw [textExport_eq hHolds hClean, hRow, hCol, hOff]
  exact ⟨hValid, ⟨0, rfl, Nat.zero_le _, boundary_zero hValid⟩,
    nofun⟩

/- In all states, also in those that may be brought back. -/
theorem composed_placed
    (hComposed : Composed r) :
    Everywhere Placed r := by
  induction hComposed with
  | empty d u =>
      refine ⟨?_, Timeline.all_empty⟩
      exact placed_start (textReset_holds d)
        ⟨by decide, nofun⟩ valid_nil rfl rfl rfl
  | load d d' u x hValid hSet =>
      refine ⟨?_, Timeline.all_empty⟩
      obtain ⟨t, hNormal, rfl⟩ := textSet_some hSet
      have hProper := normalize_proper hNormal
      rw [(normalize_iff.mp hNormal).1] at hProper ⊢
      exact placed_start (textImport_holds _ hProper.clean)
        hProper.clean (expand_valid hValid) rfl rfl rfl
  | @copy r dst u hComposed ih =>
      refine ⟨?_, Timeline.all_empty⟩
      have hKept := worked_kept hComposed.worked
      have hHolds := hKept.described.holds
      have hText := textExport_eq (textCopy_holds dst hHolds)
        hKept.proper.now.clean
      have hNow := ih.now
      unfold opened snapshot
      rw [hText]
      exact hNow
  | @step r c hComposed hFormed hSpares ih =>
      have hKept := worked_kept hComposed.worked
      exact ih.step hKept.described fun hChanges =>
        (placed_step_iff hKept ih.now hFormed hChanges).mpr
          hSpares

/-
  In every run of well-formed calls in which replacing all
  spares the caret, text and caret are in order everywhere;
  and they are so after the next call just when it spares the
  caret.
-/
theorem caret_placed_iff
    (hComposed : Composed r) :
    Placed (snapshot r.doc) ∧
      ∀ c, WellFormed r c →
        (Placed (snapshot (step r c).doc) ↔ Spares r c) := by
  have hAll := composed_placed hComposed
  have hKept := worked_kept hComposed.worked
  refine ⟨hAll.now, fun c hFormed => ?_⟩
  by_cases hChanges : Changes c
  · exact placed_step_iff hKept hAll.now hFormed hChanges
  · have hNext := hAll.step (c := c) hKept.described
      (fun hChange => absurd hChange hChanges)
    refine iff_of_true hNext.now ?_
    cases c with
    | replaceAll q x => exact absurd trivial hChanges
    | _ => trivial

/- The text `ab` with the caret in the middle. -/
def abTyped : Editing :=
  step (opened (textReset blankDoc) blankUndo)
    (.replace [97, 98])

def abMoved : Editing :=
  step abTyped (.move ⟨0, 1, 0, 0, 0, 0, false, 0⟩)

theorem abMoved_composed : Composed abMoved := by
  have hText : textExport abTyped.doc = [97, 98] := by
    decide +kernel
  have hTyped : Composed abTyped :=
    .step (.empty blankDoc blankUndo)
      (show Valid [97, 98] from ⟨['a', 'b'], by decide⟩)
      trivial
  refine .step hTyped ⟨?_, nofun⟩ trivial
  rw [hText]
  have hA : Valid [97] := ⟨['a'], by decide⟩
  have hB : Valid [98] := ⟨['b'], by decide⟩
  exact ⟨0, rfl, by decide, boundary_append hA hB⟩

theorem caret_placed_iff_ab :
    Placed (snapshot abMoved.doc) ∧
      ∀ c, WellFormed abMoved c →
        (Placed (snapshot (step abMoved c).doc) ↔
          Spares abMoved c) :=
  caret_placed_iff abMoved_composed

/- With `é` for `a` the caret is inside of the `é`. -/
theorem caret_inside_character :
    ¬∀ r c, Composed r → WellFormed r c →
      Placed (snapshot (step r c).doc) := by
  intro hAll
  have hPlaced := hAll abMoved (.replaceAll [97] [195, 169])
    abMoved_composed
    ⟨⟨['a'], by decide⟩, ⟨['é'], by decide⟩⟩
  have hAfter : snapshot
      (step abMoved (.replaceAll [97] [195, 169])).doc =
        ⟨[195, 169, 98], ⟨0, 1, 0, 0, 0, 0, false, 0⟩⟩ := by
    unfold snapshot
    rw [Snapshot.mk.injEq]
    decide +kernel
  rw [hAfter] at hPlaced
  obtain ⟨x, hStart, -, hPlace⟩ := hPlaced.caret
  obtain rfl : 0 = x := Option.some.inj hStart
  exact hPlace.first rfl ⟨by decide, by decide⟩

end KvantOS.Editor
