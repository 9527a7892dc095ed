import KvantOS.Calculator.Correctness

/-
  This file proves that the command reports the value of the
  joined arguments under the grammar, or that there is none:
  unless the text divides -2147483648 by -1, which stops the
  machine.

  Key definitions include:
    * `joined`, `Computes`, `NeverTraps`

  Key theorems include:
    * `joinArgs_eq`, `cmdCalc_of_reads`
    * `computes_iff`, `minimum_traps`
-/

namespace KvantOS.Calculator

--
-- Arguments
--

/-
  The arguments with spaces between them, cut at the size
  of the buffer.
-/
def joined (args : List CStr) : List UInt8 :=
  ([ch ' '].intercalate (args.map CStr.bytes)).take textMax

variable {buf : List UInt8}

theorem copyArg_eq
    (s : List UInt8)
    (hBuf : buf.length ≤ textMax) :
    copyArg buf s = (buf ++ s).take textMax := by
  induction s generalizing buf with
  | nil =>
      rw [copyArg, List.append_nil, List.take_of_length_le hBuf]
  | cons b s ih =>
      rw [copyArg]
      split
      · rw [ih (by rw [List.length_append]; exact ‹_›),
          List.append_assoc]
        rfl
      · have hFull : buf.length = textMax := by omega
        rw [← hFull, List.take_left]

/- The loop stops when the text is cut. -/
theorem joinArgs_full
    (args : List CStr)
    (hFull : textMax ≤ buf.length) :
    joinArgs buf args = buf := by
  cases args with
  | nil => rfl
  | cons arg args => rw [joinArgs, if_neg (not_lt.mpr hFull)]

theorem joinArgs_cons
    (arg : CStr)
    (args : List CStr)
    (hFree : buf.length < textMax) :
    joinArgs buf (arg :: args) =
      joinArgs
        (if args = [] then (buf ++ arg.bytes).take textMax
          else (buf ++ arg.bytes).take textMax ++ [ch ' '])
        args := by
  rw [joinArgs, if_pos hFree, copyArg_eq _ hFree.le]

/- A space can follow the text that is cut. -/
theorem joinArgs_append
    {buf : List UInt8}
    (args : List CStr)
    (hBuf : buf.length ≤ textMax) :
    ∃ blanks, (blanks = [] ∨ blanks = [ch ' ']) ∧
      joinArgs buf args =
        (buf ++ [ch ' '].intercalate
          (args.map CStr.bytes)).take textMax ++ blanks := by
  induction args generalizing buf with
  | nil =>
      refine ⟨[], .inl rfl, ?_⟩
      rw [joinArgs, List.append_nil, List.map_nil,
        List.intercalate_nil, List.append_nil,
        List.take_of_length_le hBuf]
  | cons arg args ih =>
      rcases hBuf.lt_or_eq with hFree | hFull
      · rw [joinArgs_cons arg args hFree]
        by_cases hLast : args = []
        · subst hLast
          refine ⟨[], .inl rfl, ?_⟩
          rw [if_pos rfl, joinArgs, List.append_nil,
            List.map_singleton, List.intercalate_singleton]
        · rw [if_neg hLast, List.map_cons,
            List.intercalate_cons_of_ne_nil
              (List.map_eq_nil_iff.not.mpr hLast)]
          by_cases hFits : (buf ++ arg.bytes).length < textMax
          · rw [List.take_of_length_le hFits.le]
            obtain ⟨blanks, hBlanks, hEq⟩ :=
              @ih (buf ++ arg.bytes ++ [ch ' ']) (by
                rw [List.length_append]
                exact hFits)
            refine ⟨blanks, hBlanks, hEq.trans ?_⟩
            simp only [List.append_assoc]
          · -- The space is written behind the cut text.
            have hCut := not_lt.mp hFits
            refine ⟨[ch ' '], .inr rfl, ?_⟩
            rw [joinArgs_full, List.append_assoc arg.bytes,
              ← List.append_assoc buf,
              List.take_append_of_le_length hCut]
            rw [List.length_append, List.length_take_of_le hCut]
            exact Nat.le_succ _
      · refine ⟨[], .inl rfl, ?_⟩
        rw [joinArgs_full _ hFull.ge, List.append_nil, ← hFull,
          List.take_left]

theorem joinArgs_eq
    (args : List CStr) :
    joinArgs [] args = joined args ∨
      joinArgs [] args = joined args ++ [ch ' '] := by
  obtain ⟨blanks, rfl | rfl, hEq⟩ :=
    @joinArgs_append [] args (Nat.zero_le _)
  · exact .inl (hEq.trans (List.append_nil _))
  · exact .inr hEq

theorem joinArgs_noNul
    (args : List CStr)
    (hBuf : 0 ∉ buf) :
    0 ∉ joinArgs buf args := by
  induction args generalizing buf with
  | nil => exact hBuf
  | cons arg args ih =>
      rcases lt_or_ge buf.length textMax with hFree | hFull
      · rw [joinArgs_cons arg args hFree]
        have hCopy : 0 ∉ (buf ++ arg.bytes).take textMax := by
          intro hMem
          rcases List.mem_append.mp (List.mem_of_mem_take hMem)
            with hMem | hMem
          · exact hBuf hMem
          · exact arg.noNul hMem
        refine ih ?_
        split
        · exact hCopy
        · intro hMem
          rcases List.mem_append.mp hMem with hMem | hMem
          · exact hCopy hMem
          · exact absurd (List.mem_singleton.mp hMem) (by decide)
      · rw [joinArgs_full _ hFull]
        exact hBuf

/- The buffer holds the text and its terminator. -/
theorem joinArgs_length
    (args : List CStr) :
    (joinArgs [] args).length < 160 := by
  have hJoined : (joined args).length ≤ textMax :=
    List.length_take_le _ _
  rw [textMax] at hJoined
  rcases joinArgs_eq args with hEq | hEq
  · rw [hEq]
    omega
  · rw [hEq, List.length_append, List.length_singleton]
    omega

theorem isText_joinArgs
    (args : List CStr)
    (e : Expr) :
    IsText (joinArgs [] args) e ↔ IsText (joined args) e := by
  rcases joinArgs_eq args with hEq | hEq
  · rw [hEq]
  · rw [hEq, isText_append_blank]

--
-- Reports
--

/- The reports that are not a value. -/
def Report.isError : Report → Bool
  | .value _ _ => false
  | _ => true

/-
  The command ends with a report: the value of the text, or
  an error exactly when the text is not in the grammar or
  divides by zero.
-/
def Computes (args : List CStr) : Prop :=
  ∃ report,
    (∀ turns, 480 ≤ turns →
      cmdCalc turns args = .ok report) ∧
    (∀ v, (∃ text, report = .value text v) ↔
      ∃ e, IsText (joined args) e ∧ e.eval = some v) ∧
    (report.isError = true ↔
      (∃ e, IsText (joined args) e ∧ e.eval = none) ∨
        ¬ ∃ e, IsText (joined args) e)

/-
  Nothing in the reading of the text divides -2147483648
  by -1.
-/
def NeverTraps (args : List CStr) : Prop :=
  ∀ e q,
    Reads ZeroDivides (.whole (.chain .sum))
      (joinArgs [] args) e q →
    ¬ e.Traps

/- The command with the reading of its text. -/
theorem cmdCalc_of_reads
    {args : List CStr}
    {e : Expr}
    {q : List UInt8}
    (hSome : args ≠ [])
    (hReads :
      Reads ZeroDivides (.whole (.chain .sum))
        (joinArgs [] args) e q)
    {turns : Nat}
    (hTurns : 480 ≤ turns) :
    cmdCalc turns args =
      if e.Traps then .error .division
      else .ok (conclude (joinArgs [] args) e.value
        ⟨q, e.report none⟩) := by
  have hLength := joinArgs_length args
  have hEnough :
      3 * (joinArgs [] args).length + 3 ≤ turns := by omega
  have hExpr := calcExpr_of_reads hReads hEnough
  simp only [cmdCalc, if_neg hSome, hExpr, outcome]
  split <;> rfl

/- A value is concluded at the end of a text without errors. -/
theorem conclude_eq_value_iff
    {buf q : List UInt8}
    {v w : Int32}
    {err : Option CalcErr}
    (hText : 0 ∉ q) :
    (∃ text, conclude buf v ⟨q, err⟩ = .value text w) ↔
      err = none ∧ skipWs q = [] ∧ v = w := by
  have hPeek : peek (skipWs q) = 0 ↔ skipWs q = [] := by
    constructor
    · intro hZero
      cases hEq : skipWs q with
      | nil => rfl
      | cons c p =>
          rw [hEq] at hZero
          obtain rfl : c = 0 := hZero
          exact absurd ((skipWs_suffix q).subset
            (hEq ▸ List.mem_cons_self)) hText
    · intro hEnd
      rw [hEnd]
      rfl
  simp only [conclude, Calc.skipWs, ne_eq, hPeek]
  rcases err with _ | _ | _
  · by_cases hEnd : skipWs q = [] <;> simp [hEnd]
  · simp
  · simp

theorem isError_iff
    (report : Report) :
    report.isError = true ↔
      ¬ ∃ v text, report = .value text v := by
  cases report <;> simp [Report.isError]

/- A text without a value divides by zero or is no text. -/
theorem no_value_iff
    (s : List UInt8) :
    (¬ ∃ v e, IsText s e ∧ e.eval = some v) ↔
      (∃ e, IsText s e ∧ e.eval = none) ∨
        ¬ ∃ e, IsText s e := by
  constructor
  · intro hNone
    by_cases hSome : ∃ e, IsText s e
    · obtain ⟨e, hText⟩ := hSome
      refine .inl ⟨e, hText, ?_⟩
      by_contra hEval
      obtain ⟨v, hv⟩ := Option.ne_none_iff_exists'.mp hEval
      exact hNone ⟨v, e, hText, hv⟩
    · exact .inr hSome
  · rintro (⟨e, hText, hEval⟩ | hNone) ⟨v, e', hText', hEval'⟩
    · rw [isText_unique hText hText', hEval'] at hEval
      cases hEval
    · exact hNone ⟨e', hText'⟩

/- The empty text is not in the grammar. -/
theorem not_isText_nil
    (e : Expr) :
    ¬ IsText [] e := by
  rintro ⟨core, blanks, hEq, -, hSpells⟩
  obtain ⟨c, hLast, -⟩ := spells_getLast hSpells
  rw [(List.append_eq_nil_iff.mp hEq.symm).1] at hLast
  cases hLast

/- Its reading lacks an operand. -/
theorem reads_nil :
    Reads ZeroDivides (.whole (.chain .sum)) [] .missing [] :=
  .chain
    (.chain
      (.missing (by
        simp [StartsFactor, ch, skipWs, peek, Lexical.isDigit]))
      (.finish rfl))
    (.finish rfl)

/- A report that has the values of the text has its errors. -/
theorem computes_of_values
    {args : List CStr}
    {report : Report}
    (hRun :
      ∀ turns, 480 ≤ turns → cmdCalc turns args = .ok report)
    (hValues :
      ∀ v, (∃ text, report = .value text v) ↔
        ∃ e, IsText (joined args) e ∧ e.eval = some v) :
    Computes args := by
  refine ⟨report, hRun, hValues, ?_⟩
  rw [isError_iff, ← no_value_iff]
  exact not_congr (exists_congr hValues)

/-
  The command computes the value of its text exactly when
  the text does not trap.
-/
theorem computes_iff
    (args : List CStr) :
    Computes args ↔ NeverTraps args := by
  obtain ⟨e, q, hReads⟩ :=
    @reads_total ZeroDivides
      (.whole (.chain .sum)) (joinArgs [] args)
  constructor
  · rintro ⟨report, hRun, -, -⟩ e' q' hReads' hTraps
    by_cases hSome : args = []
    · subst hSome
      obtain ⟨rfl, -⟩ := reads_unique hReads' reads_nil
      exact hTraps
    · have hResult := hRun 480 le_rfl
      rw [cmdCalc_of_reads hSome hReads' le_rfl,
        if_pos hTraps] at hResult
      cases hResult
  · intro hNever
    by_cases hSome : args = []
    · subst hSome
      refine @computes_of_values [] .usage
        (fun turns _ => rfl) fun v => ?_
      constructor
      · rintro ⟨text, hValue⟩
        cases hValue
      · rintro ⟨t, hText, -⟩
        exact absurd hText (not_isText_nil t)
    · refine computes_of_values (fun turns hTurns =>
        (cmdCalc_of_reads hSome hReads hTurns).trans
          (if_neg (hNever e q hReads))) fun v => ?_
      have hText : 0 ∉ q := fun hMem =>
        joinArgs_noNul args List.not_mem_nil
          ((reads_suffix hReads).subset hMem)
      rw [conclude_eq_value_iff hText,
        ← isText_eval_iff hReads v]
      exact exists_congr fun t =>
        and_congr_left' (isText_joinArgs args t)

/- The smallest number, divided by -1. -/
def minimumArgs : List CStr :=
  [⟨"-2147483648/-1".toList.map ch, by decide⟩]

theorem minimum_traps :
    ¬ Computes minimumArgs := by
  rintro ⟨report, hRun, -, -⟩
  have hTrap :
      cmdCalc 480 minimumArgs = .error .division := by
    decide +kernel
  rw [hRun 480 le_rfl] at hTrap
  cases hTrap

end KvantOS.Calculator
