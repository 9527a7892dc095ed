import KvantOS.Editor.Layout

/-
  This file says exactly which texts `normalize` accepts, and
  what it makes of them: a text of allowed bytes that has
  room and whose lines are short.

  Key definitions include:
    * `Typable`, `LinesFit`, `Proper`

  Key theorems include:
    * `normalize_iff`
    * `normalize_proper`, `Proper.normalize`
-/

namespace KvantOS.Editor

variable {s t : List UInt8} {c : UInt8}

--
-- Bytes and Lines
--

/- A byte that may be typed or loaded. -/
def Typable (c : UInt8) : Prop :=
  c = 13 ∨ c = 10 ∨ c = 9 ∨ (32 ≤ c ∧ c ≠ 127)

/- A byte of a text: a newline, or no control character. -/
def Printed (c : UInt8) : Prop :=
  c = 10 ∨ (32 ≤ c ∧ c ≠ 127)

/- From every place the line ends within `edCols` bytes. -/
def LinesFit (s : List UInt8) : Prop :=
  ∀ x, (lineAt s x).length ≤ edCols

/- The same for a text that continues a line. -/
def FitsFrom
    (col : Nat)
    (s : List UInt8) : Prop :=
  col + (lineAt s 0).length ≤ edCols ∧ LinesFit s

/- A text as it is in a document. -/
structure Proper (s : List UInt8) : Prop where
  room : s.length < edCap
  printed : ∀ c ∈ s, Printed c
  lines : LinesFit s

theorem Printed.plain
    (hPrinted : Printed c) :
    c ≠ 0 ∧ c ≠ 9 ∧ c ≠ 13 := by
  rcases hPrinted with rfl | ⟨hLow, -⟩
  · decide
  · refine ⟨?_, ?_, ?_⟩
    · rintro rfl
      exact absurd hLow (by decide)
    · rintro rfl
      exact absurd hLow (by decide)
    · rintro rfl
      exact absurd hLow (by decide)

theorem Printed.typable
    (hPrinted : Printed c) :
    Typable c :=
  .inr (hPrinted.elim .inl (fun hPlain => .inr (.inr hPlain)))

theorem Proper.clean
    (hProper : Proper s) :
    Clean s :=
  ⟨hProper.room, fun c hMem =>
    (hProper.printed c hMem).plain⟩

theorem proper_nil : Proper [] where
  room := by decide
  printed := nofun
  lines := by
    intro x
    rw [lineAt, List.drop_nil]
    exact Nat.zero_le _

theorem lineAt_cons
    (hNot : c ≠ 10)
    (s : List UInt8) :
    lineAt (c :: s) 0 = c :: lineAt s 0 := by
  unfold lineAt
  simp [hNot]

variable {col : Nat}

theorem fitsFrom_nil
    (hCol : col ≤ edCols) :
    FitsFrom col [] :=
  ⟨hCol, proper_nil.lines⟩

theorem fitsFrom_newline
    (hCol : col ≤ edCols) :
    FitsFrom col (10 :: s) ↔ FitsFrom 0 s := by
  constructor
  · rintro ⟨-, hLines⟩
    have hRest : LinesFit s := fun x => hLines (x + 1)
    exact ⟨by rw [Nat.zero_add]; exact hRest 0, hRest⟩
  · rintro ⟨-, hLines⟩
    refine ⟨hCol, ?_⟩
    rintro (_ | x)
    · exact Nat.zero_le _
    · exact hLines x

theorem fitsFrom_cons
    (hNot : c ≠ 10) :
    FitsFrom col (c :: s) ↔ FitsFrom (col + 1) s := by
  unfold FitsFrom
  rw [lineAt_cons hNot, List.length_cons]
  constructor
  · rintro ⟨hHere, hLines⟩
    exact ⟨by omega, fun x => hLines (x + 1)⟩
  · rintro ⟨hHere, hLines⟩
    refine ⟨by omega, ?_⟩
    rintro (_ | x)
    · rw [lineAt_cons hNot, List.length_cons]
      omega
    · exact hLines x

/- The bytes of one character end at the next column. -/
theorem fitsFrom_expand
    (hCr : c ≠ 13)
    (hCol : col ≤ edCols) :
    FitsFrom col (expand c ++ s) ↔
      FitsFrom (columnAfter col c) s := by
  unfold expand columnAfter
  rw [if_neg hCr]
  by_cases hTab : c = 9
  · subst hTab
    have hSpace : (32 : UInt8) ≠ 10 := by decide
    simp only [if_true, List.cons_append, List.nil_append,
      fitsFrom_cons hSpace]
    rfl
  · rw [if_neg hTab, List.singleton_append, if_neg hTab]
    by_cases hNew : c = 10
    · subst hNew
      exact fitsFrom_newline hCol
    · rw [if_neg hNew]
      exact fitsFrom_cons hNew

--
-- Normalisation
--

theorem typable_iff :
    Typable c ↔
      c = 13 ∨ ¬(c ≠ 10 ∧ c ≠ 9 ∧ (c < 32 ∨ c = 127)) := by
  unfold Typable
  rw [← UInt8.not_lt]
  tauto

theorem FitsFrom.column
    {col : Nat}
    (hFits : FitsFrom col s) :
    col ≤ edCols :=
  Nat.le_trans (Nat.le_add_right _ _) hFits.1

/- What is accepted from a column and a length on. -/
theorem normalizeFrom_iff
    {used col : Nat}
    (hUsed : used < edCap)
    (hCol : col ≤ edCols) :
    normalizeFrom used col s = some t ↔
      t = s.flatMap expand ∧ (∀ c ∈ s, Typable c) ∧
        used + t.length < edCap ∧ FitsFrom col t := by
  induction s generalizing used col t with
  | nil =>
      rw [normalizeFrom, Option.some.injEq]
      constructor
      · rintro rfl
        exact ⟨rfl, by simp, hUsed, fitsFrom_nil hCol⟩
      · rintro ⟨hText, -⟩
        exact hText.symm
  | cons c rest ih =>
      rw [normalizeFrom, List.flatMap_cons,
        List.forall_mem_cons, typable_iff]
      by_cases hCr : c = 13
      · have hGone : expand c = [] := by
          unfold expand
          rw [if_pos hCr]
        rw [if_pos hCr, ih hUsed hCol, hGone]
        simp [hCr]
      · rw [if_neg hCr]
        by_cases hBad : c ≠ 10 ∧ c ≠ 9 ∧ (c < 32 ∨ c = 127)
        · rw [if_pos hBad]
          refine iff_of_false (by rintro ⟨⟩) ?_
          rintro ⟨-, ⟨hGood, -⟩, -⟩
          exact hGood.elim hCr (fun hNot => hNot hBad)
        · rw [if_neg hBad]
          by_cases hLong : edCols < columnAfter col c
          · rw [if_pos hLong]
            refine iff_of_false (by rintro ⟨⟩) ?_
            rintro ⟨rfl, -, -, hFits⟩
            rw [fitsFrom_expand hCr hCol] at hFits
            have := hFits.column
            omega
          · rw [if_neg hLong]
            by_cases hFull :
                edCap - 1 < used + (expand c).length
            · rw [if_pos hFull]
              refine iff_of_false (by rintro ⟨⟩) ?_
              rintro ⟨rfl, -, hRoom, -⟩
              rw [List.length_append] at hRoom
              omega
            · rw [if_neg hFull, Option.map_eq_some_iff]
              unfold edCap at hUsed hFull ih ⊢
              constructor
              · rintro ⟨tail, hTail, rfl⟩
                rw [ih (by omega) (by omega)] at hTail
                obtain ⟨rfl, hAll, hRoom, hFits⟩ := hTail
                refine ⟨rfl, ⟨.inr hBad, hAll⟩, ?_, ?_⟩
                · rw [List.length_append]
                  omega
                · exact (fitsFrom_expand hCr hCol).mpr hFits
              · rintro ⟨rfl, ⟨-, hAll⟩, hRoom, hFits⟩
                rw [List.length_append] at hRoom
                rw [fitsFrom_expand hCr hCol] at hFits
                refine ⟨_, (ih (by omega) (by omega)).mpr
                  ⟨rfl, hAll, by omega, hFits⟩, rfl⟩

/- What `normalize` accepts, and what it makes of it. -/
theorem normalize_iff :
    normalize s = some t ↔
      t = s.flatMap expand ∧ (∀ c ∈ s, Typable c) ∧
        t.length < edCap ∧ LinesFit t := by
  unfold normalize
  rw [normalizeFrom_iff (by decide) (Nat.zero_le _),
    Nat.zero_add]
  refine and_congr_right fun _ => and_congr_right fun _ =>
    and_congr_right fun _ => ⟨fun hFits => hFits.2, ?_⟩
  intro hLines
  exact ⟨by rw [Nat.zero_add]; exact hLines 0, hLines⟩

theorem expand_printed
    (hTypable : Typable c) :
    ∀ x ∈ expand c, Printed x := by
  unfold expand
  split
  · exact nofun
  · split
    · intro x hMem
      have hSpace : x = 32 := by simpa using hMem
      rw [hSpace]
      exact .inr (by decide)
    · rename_i hCr hTab
      rw [List.forall_mem_singleton]
      rcases hTypable with hBad | hNew | hBad | hPlain
      · exact absurd hBad hCr
      · exact .inl hNew
      · exact absurd hBad hTab
      · exact .inr hPlain

/- The result is a text as it is in a document. -/
theorem normalize_proper
    (hSome : normalize s = some t) :
    Proper t := by
  obtain ⟨rfl, hAll, hRoom, hLines⟩ :=
    normalize_iff.mp hSome
  refine ⟨hRoom, ?_, hLines⟩
  intro x hMem
  obtain ⟨c, hIn, hHere⟩ := List.mem_flatMap.mp hMem
  exact expand_printed (hAll c hIn) x hHere

/- Such a text is left as it is. -/
theorem Proper.normalize
    (hProper : Proper s) :
    normalize s = some s := by
  refine normalize_iff.mpr ⟨?_, ?_, hProper.room,
    hProper.lines⟩
  · exact hProper.clean.flatMap_expand.symm
  · exact fun c hMem => (hProper.printed c hMem).typable

end KvantOS.Editor
