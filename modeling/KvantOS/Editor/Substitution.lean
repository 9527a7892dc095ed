import KvantOS.Editor.Search
import KvantOS.Editor.Sessions

/-
  This file proves that replacing all matches is the
  substitution that it should be, in every state that calls
  lead to.

  Key definitions include:
    * `replacedAt`, `Substituted`, `Refused`

  Key theorems include:
    * `substitute_spec`, `textReplaceAll_exact`
-/

namespace KvantOS.Editor

open Scan

variable {s q x t : List UInt8} {d : TextDoc} {u : TextUndo}
variable {r : Editing} {i hits fuel : Nat} {out : List UInt8}
variable {places : List Nat}

--
-- The Scratch Buffer
--

/- The text from `i` on, with `x` for `n` bytes at places. -/
def replacedAt
    (s x : List UInt8)
    (n : Nat) :
    Nat → List Nat → List UInt8
  | i, [] => s.drop i
  | i, j :: rest =>
      (s.drop i).take (j - i) ++ x ++
        replacedAt s x n (j + n) rest

theorem replacedAt_here
    (s x : List UInt8)
    (n i : Nat)
    (rest : List Nat) :
    replacedAt s x n i (i :: rest) =
      x ++ replacedAt s x n (i + n) rest := by
  rw [replacedAt, Nat.sub_self, List.take_zero,
    List.nil_append]

/- A byte before the next place is kept. -/
theorem replacedAt_skip
    {n : Nat}
    {c : UInt8}
    (hAt : s[i]? = some c)
    (hFrom : ∀ j ∈ places, i + 1 ≤ j) :
    replacedAt s x n i places =
      c :: replacedAt s x n (i + 1) places := by
  obtain ⟨hIn, hByte⟩ := List.getElem?_eq_some_iff.mp hAt
  have hDrop : s.drop i = c :: s.drop (i + 1) := by
    rw [List.drop_eq_getElem_cons hIn, hByte]
  cases places with
  | nil => exact hDrop
  | cons j rest =>
      have hMore := hFrom j List.mem_cons_self
      rw [replacedAt, replacedAt, hDrop,
        show j - i = (j - (i + 1)) + 1 by omega,
        List.take_succ_cons, List.cons_append,
        List.cons_append]

theorem AlignedMatch.below
    (hSome : 0 < q.length)
    (hMatch : AlignedMatch s q i) :
    i < s.length := by
  have hInside := hMatch.last.inside
  omega

/- Behind the text there is nothing to replace. -/
theorem replacedAt_behind
    (hSome : 0 < q.length)
    (hBehind : ¬i < s.length)
    (hPlaces : Leftmost (AlignedMatch s q) q.length i places) :
    places = [] ∧ replacedAt s x q.length i places = [] := by
  cases hPlaces with
  | done _ => exact ⟨rfl, List.drop_eq_nil_of_le (by omega)⟩
  | next hLeast _ =>
      have hFrom := hLeast.1.2
      have hLess := hLeast.1.1.below hSome
      omega

/- What is built, if there is room for it. -/
theorem substitute_spec
    (hHolds : Holds d s)
    (hClean : Clean s)
    (hSome : 0 < q.length)
    (hFuel : s.length - i ≤ fuel)
    (hRoom : out.length < edCap)
    (hPlaces : Leftmost (AlignedMatch s q) q.length i places) :
    substitute d q x fuel i out hits =
      if out.length +
          (replacedAt s x q.length i places).length < edCap then
        some (out ++ replacedAt s x q.length i places,
          hits + places.length)
      else
        none := by
  have hUsed := hHolds.used
  induction fuel generalizing i out hits places with
  | zero =>
      obtain ⟨rfl, hNil⟩ := replacedAt_behind (x := x) hSome
        (by omega) hPlaces
      rw [substitute, hNil, List.append_nil, List.length_nil,
        List.length_nil, Nat.add_zero, Nat.add_zero,
        if_pos hRoom]
  | succ fuel ih =>
      rw [substitute, hUsed]
      by_cases hIn : i < s.length
      · rw [if_pos hIn]
        by_cases hMatch : AlignedMatch s q i
        · obtain ⟨rest, rfl, hRest⟩ := hPlaces.of_here hMatch
          rw [if_pos
            ((textMatches_aligned hHolds hClean).mpr hMatch),
            replacedAt_here, List.length_append,
            List.length_cons]
          by_cases hLong : edCap - out.length ≤ x.length
          · rw [if_pos hLong, if_neg (by omega)]
          · have hShort : (out ++ x).length < edCap := by
              rw [List.length_append]
              omega
            rw [if_neg hLong, ih (by omega) hShort hRest,
              List.length_append, List.append_assoc,
              Nat.add_assoc, Nat.add_right_comm hits,
              Nat.add_assoc hits]
        · have hRest := hPlaces.of_skip hMatch
          have hAt := List.getElem?_eq_getElem hIn
          rw [if_neg (mt
            (textMatches_aligned hHolds hClean).mp hMatch),
            replacedAt_skip hAt hRest.from_start,
            shown_eq hHolds hClean hAt, List.length_cons]
          by_cases hLong : edCap - 1 ≤ out.length
          · rw [if_pos hLong, if_neg (by omega)]
          · have hShort : (out ++ [s[i]]).length < edCap := by
              rw [List.length_append, List.length_singleton]
              omega
            rw [if_neg hLong, ih (by omega) hShort hRest,
              List.length_append, List.length_singleton,
              List.append_assoc, List.singleton_append,
              Nat.add_assoc, Nat.add_comm 1]
      · obtain ⟨rfl, hNil⟩ := replacedAt_behind (x := x) hSome
          hIn hPlaces
        rw [if_neg hIn, hNil, List.append_nil,
          List.length_nil, List.length_nil, Nat.add_zero,
          Nat.add_zero, if_pos hRoom]

/- Every byte is one of the text or of the replacement. -/
theorem mem_replacedAt
    {n : Nat}
    {c : UInt8}
    (hMem : c ∈ replacedAt s x n i places) :
    c ∈ s ∨ c ∈ x := by
  induction places generalizing i with
  | nil => exact .inl (List.mem_of_mem_drop hMem)
  | cons j rest ih =>
      rw [replacedAt, List.mem_append, List.mem_append] at hMem
      rcases hMem with (hBefore | hHere) | hLater
      · exact .inl
          (List.mem_of_mem_drop (List.mem_of_mem_take hBefore))
      · exact .inr hHere
      · exact ih hLater

--
-- The Call
--

/- The whole text is selected. -/
def selectAll (d : TextDoc) : TextDoc :=
  { d with
    ay := 0
    ax := 0
    cy := d.lines - 1
    cx := (textLine d (d.lines - 1)).length
    selecting := true }

theorem textRange_selectAll
    (hHolds : Holds d s)
    (hClean : Clean s) :
    textRange (selectAll d) = (0, s.length) := by
  obtain ⟨_, hLast, _, hFirst⟩ := selectAll_spec hHolds hClean
  have hCaret : textOffset (selectAll d) (selectAll d).cy
      (selectAll d).cx = s.length := hLast
  have hAnchor : textOffset (selectAll d) (selectAll d).ay
      (selectAll d).ax = 0 := hFirst
  by_cases hSelected : textSelected (selectAll d) = true
  · unfold textRange
    dsimp only
    rw [if_pos hSelected, hCaret, hAnchor]
    split
    · rfl
    · rw [show s.length = 0 by omega]
  · have hEmpty : s.length = 0 := by
      by_contra hSome
      refine hSelected ?_
      unfold textSelected
      rw [show (selectAll d).selecting = true from rfl,
        Bool.true_and, Bool.or_eq_true]
      by_contra hSame
      simp only [not_or, bne_iff_ne, ne_eq, not_not] at hSame
      rw [hSame.1, hSame.2, hAnchor] at hCaret
      exact hSome hCaret.symm
    unfold textRange
    dsimp only
    rw [if_neg hSelected, hCaret, hEmpty]

theorem spliced_selectAll
    (hHolds : Holds d s)
    (hClean : Clean s)
    (x : List UInt8) :
    spliced (selectAll d) x = x := by
  have hText : textExport (selectAll d) = s :=
    textExport_eq (d := d) hHolds hClean
  unfold spliced
  rw [textRange_selectAll hHolds hClean, hText,
    List.take_zero, List.drop_length, List.nil_append,
    List.append_nil]

/- The document with another text and the old caret offset. -/
def replacedDoc
    (d : TextDoc)
    (t : List UInt8)
    (place : Nat) : TextDoc :=
  textPosition (editedDoc (selectAll d) t place)
    (textOffset d d.cy d.cx)

theorem textExport_replacedDoc
    (d : TextDoc)
    (hProper : Proper t)
    (place : Nat) :
    textExport (replacedDoc d t place) = t := by
  unfold replacedDoc
  rw [textExport_same (sameText_position _ _),
    textExport_same (sameText_edited _ t _)]
  exact textExport_eq (textImport_holds _ hProper.clean)
    hProper.clean

/- With all of a text selected, the new text stays. -/
theorem textReplace_selectAll
    (hHolds : Holds d s)
    (hClean : Clean s)
    (hFilled : 0 < s.length)
    (hRoom : x.length < edCap)
    (u : TextUndo) :
    (textReplace (selectAll d) u x = (false, selectAll d, u) ∧
        normalize x = none) ∨
      ∃ t place u', normalize x = some t ∧
        textReplace (selectAll d) u x =
          (true, editedDoc (selectAll d) t place, u') := by
  have hText : textExport (selectAll d) = s :=
    textExport_eq (d := d) hHolds hClean
  have hEdit := textReplace_cases (selectAll d) u x
  rw [spliced_selectAll hHolds hClean,
    textRange_selectAll hHolds hClean, hText] at hEdit
  rcases hEdit with ⟨hFail, hWhy⟩ | ⟨_, hEmpty, _⟩ |
    ⟨t, u', hNormal, hEdit⟩
  · refine .inl ⟨hFail, ?_⟩
    rcases hWhy with hLong | hLong | hNormal
    · omega
    · omega
    · exact hNormal
  · exact absurd hEmpty (Nat.ne_of_lt hFilled)
  · exact .inr ⟨t, _, u', hNormal, hEdit⟩

/- What a call returns, by the text that it builds. -/
theorem textReplaceAll_cases
    (hHolds : Holds d s)
    (hClean : Clean s)
    (u : TextUndo)
    (q x : List UInt8) :
    (textReplaceAll d u q x = (false, 0, d, u) ∧
        (queryOk q = false ∨ edQueryCap ≤ x.length)) ∨
      ∃ places,
        Leftmost (AlignedMatch s q) q.length 0 places ∧
        ((textReplaceAll d u q x = (false, 0, d, u) ∧
            (edCap ≤
                (replacedAt s x q.length 0 places).length ∨
              normalize (replacedAt s x q.length 0 places) =
                none)) ∨
          (textReplaceAll d u q x =
              (true, places.length, d, u) ∧
            replacedAt s x q.length 0 places = s) ∨
          queryOk q = true ∧ x.length < edQueryCap ∧
            (replacedAt s x q.length 0 places).length <
              edCap ∧
            ∃ t place u',
              normalize (replacedAt s x q.length 0 places) =
                some t ∧
              textReplaceAll d u q x =
                (true, places.length, replacedDoc d t place,
                  u') ∧
              replaces d q x = true) := by
  unfold textReplaceAll replaces
  by_cases hBad : (!queryOk q ||
      decide (edQueryCap ≤ x.length)) = true
  · rw [if_pos hBad]
    rw [Bool.or_eq_true, Bool.not_eq_true',
      decide_eq_true_eq] at hBad
    exact .inl ⟨rfl, hBad⟩
  · rw [if_neg hBad]
    have hGood : queryOk q = true ∧ x.length < edQueryCap := by
      simpa using hBad
    have hSome : 0 < q.length := by
      cases q with
      | nil => cases hGood.1
      | cons c rest => exact Nat.succ_pos _
    have hUsed := hHolds.used
    obtain ⟨places, hPlaces⟩ := leftmost_exists hSome
      (fun j hMatch => AlignedMatch.below hSome hMatch) 0
    refine .inr ⟨places, hPlaces, ?_⟩
    have hEmpty : ([] : List Nat).length < edCap := by decide
    rw [substitute_spec hHolds hClean hSome
      (by omega) hEmpty hPlaces, List.length_nil,
      Nat.zero_add, Nat.zero_add, List.nil_append]
    generalize hAll :
      replacedAt s x q.length 0 places = replaced
    by_cases hRoom : replaced.length < edCap
    · rw [if_pos hRoom]
      dsimp only
      rw [textExport_eq hHolds hClean]
      by_cases hNone : places.length = 0
      · rw [if_pos hNone, hNone]
        rw [List.length_eq_zero_iff] at hNone
        refine .inr (.inl ⟨rfl, ?_⟩)
        rw [← hAll, hNone, replacedAt, List.drop_zero]
      · rw [if_neg hNone]
        by_cases hSame : replaced = s
        · rw [if_pos hSame]
          exact .inr (.inl ⟨rfl, hSame⟩)
        · rw [if_neg hSame]
          have hMakes : (places.length != 0 &&
              replaced != s) = true := by
            simp [hNone, hSame]
          have hFilled : 0 < s.length := by
            by_contra hEnd
            have hNil := (replacedAt_behind (x := x) hSome
              (i := 0) (by omega) hPlaces).1
            rw [hNil] at hNone
            exact hNone rfl
          have hEdit := textReplace_selectAll hHolds hClean
            hFilled hRoom u
          unfold selectAll at hEdit
          rcases hEdit with ⟨hFail, hNormal⟩ |
            ⟨t, place, u', hNormal, hEdit⟩
          · rw [hFail]
            exact .inl ⟨rfl, .inr hNormal⟩
          · rw [hEdit]
            exact .inr (.inr ⟨hGood.1, hGood.2, hRoom, t,
              place, _, hNormal, rfl, hMakes⟩)
    · rw [if_neg hRoom]
      exact .inl ⟨rfl, .inl (by omega)⟩

--
-- The Substitution
--

/- The last call is one step of the history. -/
structure OneStep
    (r : Editing)
    (q x : List UInt8) : Prop where
  recorded : (step r (.replaceAll q x)).timeline =
    r.timeline.record ⟨snapshot r.doc,
      snapshot (step r (.replaceAll q x)).doc⟩
  discards : Discards r.undo (step r (.replaceAll q x)).undo
  undoes : (call (step r (.replaceAll q x)).doc
    (step r (.replaceAll q x)).undo .undo).1 = true
  restores :
    snapshot (step (step r (.replaceAll q x)) .undo).doc =
      snapshot r.doc

/- What a call that succeeds leaves. -/
structure Substituted
    (r : Editing)
    (q x : List UInt8)
    (places : List Nat) : Prop where
  text : textExport (step r (.replaceAll q x)).doc =
    (replacedAt (textExport r.doc) x q.length 0
      places).flatMap expand
  count : (textReplaceAll r.doc r.undo q x).2.1 =
    places.length
  history :
    (textReplaceAll r.doc r.undo q x).2.2 =
        (r.doc, r.undo) ∨
      OneStep r q x

/- A text that a document can take. -/
structure Takes (t : List UInt8) : Prop where
  intermediate : t.length < edCap
  final : (t.flatMap expand).length < edCap
  lines : LinesFit (t.flatMap expand)

/- Why a call is refused. -/
def Refused
    (s q x : List UInt8) : Prop :=
  queryOk q = false ∨ edQueryCap ≤ x.length ∨
    (∃ c ∈ x, ¬Typable c) ∨
    ∃ places,
      Leftmost (AlignedMatch s q) q.length 0 places ∧
        ¬Takes (replacedAt s x q.length 0 places)

/- A recorded call can be undone. -/
theorem oneStep_of_replaces
    (hDescribed : Described r)
    (hTrue : (call r.doc r.undo (.replaceAll q x)).1 = true)
    (hMakes : replaces r.doc q x = true) :
    OneStep r q x := by
  obtain ⟨hRecorded, hDiscards⟩ :=
    (described_exact hDescribed).edit (.replaceAll q x)
      trivial hTrue hMakes
  have hNext := (step_synced (c := .replaceAll q x)
    hDescribed trivial).1
  have hAdded := hDiscards.added
  obtain ⟨hUndoes, _, _, e, past, hPast, hBefore⟩ :=
    undo_step hNext (by omega)
  refine ⟨hRecorded, hDiscards, hUndoes, ?_⟩
  rw [hRecorded] at hPast
  rw [hBefore, ← (List.cons.inj hPast).1]

/- Where normalising fails, a byte or a limit is the cause. -/
theorem refused_of_normalize
    (hPrinted : ∀ c ∈ s, Printed c)
    (hPlaces : Leftmost (AlignedMatch s q) q.length 0 places)
    (hNone : normalize (replacedAt s x q.length 0 places) =
      none) :
    Refused s q x := by
  by_cases hTypable : ∀ c ∈ x, Typable c
  · refine .inr (.inr (.inr ⟨places, hPlaces, fun hTakes => ?_⟩))
    have hSome := normalize_iff.mpr ⟨rfl, ?_, hTakes.final,
      hTakes.lines⟩
    · rw [hNone] at hSome
      cases hSome
    · intro c hMem
      rcases mem_replacedAt hMem with hOld | hNew
      · exact (hPrinted c hOld).typable
      · exact hTypable c hNew
  · push Not at hTypable
    exact .inr (.inr (.inl hTypable))

/-
  When replacing all succeeds, the text is that with the
  leftmost matches replaced, normalised, the count is theirs
  and a change is one step that undo takes back; else nothing
  is changed, and a query, a replacement or a limit is the
  cause.
-/
theorem textReplaceAll_exact
    (hWorked : Worked r)
    (q x : List UInt8) :
    ((textReplaceAll r.doc r.undo q x).1 = true →
      ∃ places,
        Leftmost (AlignedMatch (textExport r.doc) q) q.length
          0 places ∧
          Substituted r q x places) ∧
      ((textReplaceAll r.doc r.undo q x).1 = false →
        (textReplaceAll r.doc r.undo q x).2 =
            (0, r.doc, r.undo) ∧
          Refused (textExport r.doc) q x) := by
  have hKept := worked_kept hWorked
  have hProper := hKept.proper.now
  have hHolds := hKept.described.holds
  have hSame : (textExport r.doc).flatMap expand =
      textExport r.doc :=
    hProper.clean.flatMap_expand
  rcases textReplaceAll_cases hHolds hProper.clean r.undo q x
    with ⟨hBad, hWhy⟩ | ⟨places, hPlaces, hCases⟩
  · rw [hBad]
    exact ⟨nofun, fun _ => ⟨rfl, hWhy.imp_right .inl⟩⟩
  · rcases hCases with ⟨hFail, hWhy⟩ | ⟨hNothing, hAll⟩ |
      ⟨_, _, _, t, place, u', hNormal, hEdit, hMakes⟩
    · rw [hFail]
      refine ⟨nofun, fun _ => ⟨rfl, ?_⟩⟩
      rcases hWhy with hLong | hNone
      · refine .inr (.inr (.inr ⟨places, hPlaces, ?_⟩))
        intro hTakes
        have hShort := hTakes.intermediate
        omega
      · exact refused_of_normalize hProper.printed hPlaces
          hNone
    · refine ⟨fun _ => ⟨places, hPlaces, ?_⟩, ?_⟩
      · refine ⟨?_, by rw [hNothing], .inl (by rw [hNothing])⟩
        rw [hAll, hSame]
        unfold step call
        dsimp only
        rw [hNothing]
      · rw [hNothing]
        exact nofun
    · refine ⟨fun _ => ⟨places, hPlaces, ?_⟩, ?_⟩
      · refine ⟨?_, by rw [hEdit], .inr
          (oneStep_of_replaces hKept.described ?_ hMakes)⟩
        · unfold step call
          dsimp only
          rw [hEdit]
          exact (textExport_replacedDoc _
            (normalize_proper hNormal) place).trans
              (normalize_iff.mp hNormal).1
        · unfold call
          dsimp only
          rw [hEdit]
      · rw [hEdit]
        exact nofun

/- A document in which `aba` was typed. -/
def abaTyped : Editing :=
  step (opened (textReset blankDoc) blankUndo)
    (.replace [97, 98, 97])

/- Every `a` is replaced by `cd`. -/
theorem textReplaceAll_exact_aba :
    ((textReplaceAll abaTyped.doc abaTyped.undo [97]
        [99, 100]).1 = true →
      ∃ places,
        Leftmost
          (AlignedMatch (textExport abaTyped.doc) [97]) 1 0
          places ∧
          Substituted abaTyped [97] [99, 100] places) ∧
      ((textReplaceAll abaTyped.doc abaTyped.undo [97]
          [99, 100]).1 = false →
        (textReplaceAll abaTyped.doc abaTyped.undo [97]
            [99, 100]).2 =
            (0, abaTyped.doc, abaTyped.undo) ∧
          Refused (textExport abaTyped.doc) [97]
            [99, 100]) :=
  textReplaceAll_exact
    (.step (c := .replace [97, 98, 97])
      (.empty blankDoc blankUndo) trivial) [97] [99, 100]

example :
    (textReplaceAll abaTyped.doc abaTyped.undo [97]
      [99, 100]).2.1 = 2 := by
  decide +kernel

end KvantOS.Editor
