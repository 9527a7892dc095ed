import KvantOS.Data.Scan
import KvantOS.Data.Utf8Boundary
import KvantOS.Editor.Undo

/-
  This file models the search of `textedit.c` and proves that
  it finds the match it should, in both directions and with
  or without going on from the other end.

  Key definitions include:
    * `matchReads`, `textFind`
    * `MatchAt`, `AlignedMatch`

  Key theorems include:
    * `textMatches_aligned`, `textMatches_iff`
    * `textFind_exact`
-/

namespace KvantOS.Editor

open Utf8 Scan

/- What `boundary` reads. -/
def boundaryReads
    (d : TextDoc)
    (i : Nat) : List Nat :=
  if i = d.used then [] else [i]

/- What the comparison with a query reads. -/
def compareReads
    (d : TextDoc) :
    List UInt8 → Nat → List Nat
  | [], _ => []
  | c :: rest, i =>
      if shown (d.data i) = c then
        i :: compareReads d rest (i + 1)
      else
        [i]

/- What `matches` reads. -/
def matchReads
    (d : TextDoc)
    (q : List UInt8)
    (i : Nat) : List Nat :=
  if d.used < i ∨ d.used - i < q.length then []
  else if !boundary d i then boundaryReads d i
  else
    boundaryReads d i ++ (boundaryReads d (i + q.length) ++
      if boundary d (i + q.length) then compareReads d q i
      else [])

def lookAt
    (d : TextDoc)
    (q : List UInt8) : Look :=
  fun i => (textMatches d q i, matchReads d q i)

/- Where the match is, and the bytes of `data` that are read. -/
def textFind
    (d : TextDoc)
    (q : List UInt8)
    (start : Nat)
    (backwards wrap : Bool) : Option Nat × List Nat :=
  if !queryOk q || d.used < q.length then (none, [])
  else
    let last := d.used - q.length
    let start := if d.used < start then d.used else start
    if !backwards then
      retry wrap
        (findUp (lookAt d q) (last + 1 - start) start)
        (findUp (lookAt d q) (min start (last + 1)) 0)
    else
      let first := if start < last then start else last
      retry wrap
        (findDown (lookAt d q) (first + 1) (first + 1))
        (findDown (lookAt d q) (last - first) (last + 1))

--
-- Matches
--

/- The query is in the text, between two boundaries. -/
structure MatchAt
    (s q : List UInt8)
    (i : Nat) : Prop where
  first : Boundary s i
  last : Boundary s (i + q.length)
  text : (s.drop i).take q.length = q

theorem isTail_iff (c : UInt8) :
    isTail c = true ↔ Continues c := by
  unfold isTail
  rw [beq_iff_eq]
  exact and_eq_continues c

variable {s q : List UInt8} {d : TextDoc} {i start : Nat}

/- The code looks at bytes; newlines are stored as zeros. -/
theorem boundary_aligned
    (hHolds : Holds d s)
    (hInside : i ≤ s.length) :
    boundary d i = true ↔ Aligned s i := by
  have hUsed := hHolds.used
  unfold boundary
  rw [Bool.or_eq_true, beq_iff_eq, Bool.not_eq_true',
    ← Bool.not_eq_true, isTail_iff]
  by_cases hEnd : i = s.length
  · refine iff_of_true (.inl (by omega)) ⟨hInside, ?_⟩
    intro b hByte
    rw [hEnd, List.getElem?_eq_none (Nat.le_refl _)] at hByte
    cases hByte
  · have hByte := List.getElem?_eq_getElem
      (show i < s.length by omega)
    have hAligned : Aligned s i ↔ ¬Continues s[i] := by
      refine ⟨fun hFirst => hFirst.first _ hByte,
        fun hNot => ⟨hInside, ?_⟩⟩
      intro b hAt
      rw [hByte, Option.some.injEq] at hAt
      exact hAt ▸ hNot
    rw [hAligned, hHolds.data i _ hByte,
      or_iff_right (by omega)]
    split
    · rename_i hNew
      rw [hNew]
      refine iff_of_true ?_ ?_
      · unfold Continues
        decide
      · unfold Continues
        decide
    · exact Iff.rfl

/- The query is in any bytes, between aligned places. -/
structure AlignedMatch
    (s q : List UInt8)
    (i : Nat) : Prop where
  first : Aligned s i
  last : Aligned s (i + q.length)
  text : (s.drop i).take q.length = q

theorem textMatches_aligned
    (hHolds : Holds d s)
    (hClean : Clean s) :
    textMatches d q i = true ↔ AlignedMatch s q i := by
  have hUsed := hHolds.used
  have hShown : ((d.data.drop i).toList q.length).map shown =
      Buf.toList (fun k => shown (d.data (i + k)))
        q.length := by
    simp [Buf.toList, Buf.drop]
  unfold textMatches
  simp only [Bool.and_eq_true, decide_eq_true_eq, beq_iff_eq]
  constructor
  · rintro ⟨⟨⟨⟨hIn, hRoom⟩, hFirst⟩, hLast⟩, hText⟩
    rw [hShown, toList_removed hHolds hClean (by omega)]
      at hText
    exact
      { first := (boundary_aligned hHolds (by omega)).mp hFirst
        last := (boundary_aligned hHolds (by omega)).mp hLast
        text := hText }
  · intro hMatch
    have hInside := hMatch.last.inside
    refine ⟨⟨⟨⟨by omega, by omega⟩, ?_⟩, ?_⟩, ?_⟩
    · exact (boundary_aligned hHolds (by omega)).mpr
        hMatch.first
    · exact (boundary_aligned hHolds hInside).mpr hMatch.last
    · rw [hShown, toList_removed hHolds hClean hInside]
      exact hMatch.text

theorem textMatches_iff
    (hHolds : Holds d s)
    (hClean : Clean s)
    (hValid : Valid s) :
    textMatches d q i = true ↔ MatchAt s q i := by
  rw [textMatches_aligned hHolds hClean]
  constructor
  · intro hMatch
    exact ⟨hMatch.first.boundary hValid,
      hMatch.last.boundary hValid, hMatch.text⟩
  · intro hMatch
    exact ⟨(boundary_iff hValid).mp hMatch.first,
      (boundary_iff hValid).mp hMatch.last, hMatch.text⟩

--
-- Reads
--

theorem compareReads_below
    (d : TextDoc)
    (hRoom : i + q.length ≤ d.used) :
    ∀ x ∈ compareReads d q i, x < d.used := by
  induction q generalizing i with
  | nil => exact nofun
  | cons c rest ih =>
      rw [List.length_cons] at hRoom
      rw [compareReads]
      split
      · rw [List.forall_mem_cons]
        exact ⟨by omega, ih (by omega)⟩
      · rw [List.forall_mem_cons]
        exact ⟨by omega, nofun⟩

theorem boundaryReads_below
    (d : TextDoc)
    (hInside : i ≤ d.used) :
    ∀ x ∈ boundaryReads d i, x < d.used := by
  unfold boundaryReads
  split
  · exact nofun
  · rw [List.forall_mem_cons]
    exact ⟨by omega, nofun⟩

/- A comparison stays inside the text. -/
theorem matchReads_below
    (d : TextDoc)
    (q : List UInt8)
    (i : Nat) :
    ∀ x ∈ matchReads d q i, x < d.used := by
  unfold matchReads
  split
  · exact nofun
  · have hFirst := boundaryReads_below (i := i) d (by omega)
    split
    · exact hFirst
    · intro x hMem
      rcases List.mem_append.mp hMem with hHere | hMem
      · exact hFirst x hHere
      · rcases List.mem_append.mp hMem with hHere | hMem
        · exact boundaryReads_below (i := i + q.length) d
            (by omega) x hHere
        · split at hMem
          · exact compareReads_below d (by omega) x hMem
          · cases hMem

theorem textFind_reads
    (d : TextDoc)
    (q : List UInt8)
    (start : Nat)
    (backwards wrap : Bool) :
    ∀ x ∈ (textFind d q start backwards wrap).2,
      x < d.used := by
  have hUp (left i : Nat) :=
    @findUp_reads (lookAt d q) left i _ (matchReads_below d q)
  have hDown (left i : Nat) :=
    @findDown_reads (lookAt d q) left i _
      (matchReads_below d q)
  unfold textFind
  split
  · exact nofun
  · dsimp only
    cases backwards with
    | false => exact retry_reads (hUp _ _) (hUp _ _)
    | true => exact retry_reads (hDown _ _) (hDown _ _)

--
-- Exactness
--

/- A query that is a text is accepted. -/
theorem queryOk_of_valid
    (hQuery : Valid q)
    (hSome : 1 ≤ q.length)
    (hShort : q.length < edQueryCap)
    (hNul : ∀ c ∈ q, c ≠ 0) :
    queryOk q = true := by
  cases q with
  | nil => cases hSome
  | cons c rest =>
      have hHead := hQuery.head
      rw [← isTail_iff, Bool.not_eq_true] at hHead
      unfold queryOk
      simp only [hHead, Bool.not_false, Bool.and_true,
        Bool.and_eq_true, decide_eq_true_eq,
        List.all_eq_true, bne_iff_ne]
      exact ⟨hShort, hNul⟩

/-
  A search finds the first match from its start on, or the
  last one up to its start; where there is none and it may
  wrap, the first or the last match of all. It reads nothing
  but the text.
-/
theorem textFind_exact
    (hHolds : Holds d s)
    (hClean : Clean s)
    (hValid : Valid s)
    (hQuery : Valid q)
    (hSome : 1 ≤ q.length)
    (hShort : q.length < edQueryCap)
    (hNul : ∀ c ∈ q, c ≠ 0)
    (start : Nat)
    (wrap : Bool) :
    FoundUp (MatchAt s q) start wrap
        (textFind d q start false wrap).1 ∧
      FoundDown (MatchAt s q) start wrap
        (textFind d q start true wrap).1 ∧
      ∀ backwards,
        ∀ x ∈ (textFind d q start backwards wrap).2,
          x < d.used := by
  have hOk := queryOk_of_valid hQuery hSome hShort hNul
  have hUsed := hHolds.used
  have hLook (j : Nat) :
      (lookAt d q j).1 = true ↔ MatchAt s q j :=
    textMatches_iff hHolds hClean hValid
  have hInside (j : Nat) (hMatch : MatchAt s q j) :
      j + q.length ≤ d.used := by
    rw [hUsed]
    exact hMatch.last.inside
  have hLast (j : Nat) (hMatch : MatchAt s q j) :
      j ≤ d.used - q.length ∧ j < d.used := by
    have hRoom := hInside j hMatch
    omega
  by_cases hLong : d.used < q.length
  · have hNone (j : Nat) : ¬MatchAt s q j := by
      intro hMatch
      have hRoom := hInside j hMatch
      omega
    have hFail (backwards : Bool) :
        textFind d q start backwards wrap = (none, []) := by
      unfold textFind
      rw [if_pos (by simp [hLong])]
    refine ⟨⟨?_, ?_⟩, ⟨?_, ?_⟩, fun backwards =>
      textFind_reads d q start backwards wrap⟩
    · rw [hFail]
      exact fun i => nofun
    · rw [hFail]
      exact iff_of_true rfl
        ⟨fun j hMatch => absurd hMatch (hNone j),
          fun _ => hNone⟩
    · rw [hFail]
      exact fun i => nofun
    · rw [hFail]
      exact iff_of_true rfl
        ⟨fun j hMatch => absurd hMatch (hNone j),
          fun _ => hNone⟩
  · refine ⟨?_, ?_, fun backwards =>
      textFind_reads d q start backwards wrap⟩
    · unfold textFind
      rw [if_neg (by simp [hOk, hLong])]
      refine retry_up hLook ?_ ?_
      · intro j hMatch
        have hEnd := hLast j hMatch
        omega
      · intro j hMatch
        have hEnd := hLast j hMatch
        split
        · omega
        · exact Iff.rfl
    · unfold textFind
      rw [if_neg (by simp [hOk, hLong])]
      have hClamp : min d.used start =
          if d.used < start then d.used else start := by
        split
        · omega
        · omega
      rw [← hClamp]
      refine retry_down hLook (fun j hMatch =>
        (hLast j hMatch).1) ?_ ?_
      · split
        · omega
        · exact Nat.le_refl _
      · intro j hMatch
        have hEnd := hLast j hMatch
        split
        · omega
        · omega

/- A document with the text `aba`. -/
def abaDoc : TextDoc :=
  textImport (textReset blankDoc) [97, 98, 97]

/- Of the two matches, the second is found and then both. -/
theorem textFind_exact_aba :
    FoundUp (MatchAt [97, 98, 97] [97]) 1 true
        (textFind abaDoc [97] 1 false true).1 ∧
      FoundDown (MatchAt [97, 98, 97] [97]) 1 true
        (textFind abaDoc [97] 1 true true).1 ∧
      ∀ backwards,
        ∀ x ∈ (textFind abaDoc [97] 1 backwards true).2,
          x < abaDoc.used :=
  textFind_exact
    (textImport_holds _ ⟨by decide, by simp⟩)
    ⟨by decide, by simp⟩ ⟨['a', 'b', 'a'], by decide⟩
    ⟨['a'], by decide⟩ (by decide) (by decide) (by simp) 1
    true

example : (textFind abaDoc [97] 1 false true).1 = some 2 := by
  decide

end KvantOS.Editor
