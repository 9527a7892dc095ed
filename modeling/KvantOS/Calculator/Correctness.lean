import KvantOS.Calculator.Readings

/-
  This file proves that the readings of texts are those of
  the grammar: a reading with a value is a spelling, and a
  text in the grammar is read as what it spells.

  Key definitions include:
    * `Spelled`, `Expr.Unstopped`
    * `Follows`, `Resumes`

  Key theorems include:
    * `spells_of_reads`, `reads_of_isText`, `isText_unique`
    * `isText_eval_iff`
-/

namespace KvantOS.Calculator

open Lexical (isDigit)

theorem blank_of_skipWs :
    (s : List UInt8) →
      ∃ blanks, Blank blanks ∧ s = blanks ++ skipWs s
  | [] => ⟨[], blank_nil, rfl⟩
  | c :: s => by
      by_cases hSpace : c = ch ' '
      · obtain ⟨blanks, hBlanks, hEq⟩ := blank_of_skipWs s
        refine ⟨c :: blanks, ?_, ?_⟩
        · rintro d (_ | ⟨_, hMem⟩)
          · exact hSpace
          · exact hBlanks d hMem
        · rw [skipWs, if_pos hSpace, List.cons_append, ← hEq]
      · refine ⟨[], blank_nil, ?_⟩
        rw [skipWs, if_neg hSpace, List.nil_append]

variable {c : UInt8}

theorem blank_of_skipWs_cons
    {s p : List UInt8}
    (hHead : skipWs s = c :: p) :
    ∃ blanks, Blank blanks ∧ s = blanks ++ c :: p := by
  obtain ⟨blanks, hBlanks, hEq⟩ := blank_of_skipWs s
  exact ⟨blanks, hBlanks, hHead ▸ hEq⟩

/- What has been read is spelled by the grammar. -/
def Spelled
    (part : Part)
    (s : List UInt8)
    (e : Expr)
    (q : List UInt8) : Prop :=
  match part with
  | .whole k =>
      ∃ core blanks, s = core ++ (blanks ++ q) ∧
        Blank blanks ∧ Spells k core e
  | .loop l a =>
      a.eval.isSome ∧
        ∀ core blanks, Blank blanks →
          Spells (.chain l) core a →
          ∃ core' blanks',
            core ++ (blanks ++ s) = core' ++ (blanks' ++ q) ∧
              Blank blanks' ∧ Spells (.chain l) core' e

variable {e : Expr}

variable {s q : List UInt8}

/- An expression with a value is read from its spelling. -/
theorem spells_of_reads
    {part : Part}
    (hReads : Reads ZeroDivides part s e q)
    (hEval : e.eval.isSome) :
    Spelled part s e q := by
  induction hReads with
  | missing hHead => cases hEval
  | number hHead =>
      rename_i s
      obtain ⟨blanks, hBlanks, hEq⟩ := blank_of_skipWs s
      refine ⟨_, [], ?_, blank_nil, .number hBlanks ?_
        fun c hMem => List.mem_takeWhile_imp hMem⟩
      · rw [List.nil_append, List.append_assoc,
          List.takeWhile_append_dropWhile, ← hEq]
      · rw [eq_cons_of_peek (s := skipWs s) rfl (by
          intro hZero
          rw [hZero] at hHead
          exact absurd hHead (by decide)),
          List.takeWhile_cons_of_pos hHead]
        exact List.cons_ne_nil _ _
  | minus hHead hReads ih =>
      obtain ⟨blanks, hBlanks, rfl⟩ := blank_of_skipWs_cons hHead
      obtain ⟨core, blanks', rfl, hBlanks', hSpells⟩ :=
        ih (Option.isSome_map.symm.trans hEval)
      refine ⟨_, blanks', ?_, hBlanks', .minus hBlanks hSpells⟩
      simp only [List.append_assoc, List.cons_append]
  | plus hHead hReads ih =>
      obtain ⟨blanks, hBlanks, rfl⟩ := blank_of_skipWs_cons hHead
      obtain ⟨core, blanks', rfl, hBlanks', hSpells⟩ := ih hEval
      refine ⟨_, blanks', ?_, hBlanks', .plus hBlanks hSpells⟩
      simp only [List.append_assoc, List.cons_append]
  | group hHead hReads hClose ih =>
      obtain ⟨blanks, hBlanks, rfl⟩ := blank_of_skipWs_cons hHead
      obtain ⟨inner, hInner, rfl⟩ := blank_of_skipWs_cons hClose
      obtain ⟨core, blanks', rfl, hBlanks', hSpells⟩ := ih hEval
      refine ⟨_, [], ?_, blank_nil,
        .group hBlanks hSpells (hBlanks'.append hInner)⟩
      simp only [List.append_assoc, List.cons_append,
        List.nil_append]
  | unclosed hHead hReads hClose ih => cases hEval
  | chain hReads hLoop ih ihLoop =>
      obtain ⟨hOperand, hRest⟩ := ihLoop hEval
      obtain ⟨core, blanks, rfl, hBlanks, hSpells⟩ := ih hOperand
      exact hRest core blanks hBlanks (.operand hSpells)
  | finish hHead =>
      rename_i l s a
      refine ⟨hEval, fun core blanks hBlanks hSpells => ?_⟩
      obtain ⟨blanks', hBlanks', hEq⟩ := blank_of_skipWs s
      refine ⟨core, blanks ++ blanks', ?_,
        hBlanks.append hBlanks', hSpells⟩
      rw [List.append_assoc, ← hEq]
  | stop hHead hOp hReads hStops ih =>
      obtain ⟨v, hv⟩ := Option.isSome_iff_exists.mp hEval
      obtain ⟨x, y, hx, hy, hDivides, -⟩ := eval_binary hv
      rw [← value_of_eval hy] at hDivides
      exact absurd hStops hDivides
  | next hHead hOp hReads hStops hLoop ih ihLoop =>
      obtain ⟨hBinary, hRest⟩ := ihLoop hEval
      obtain ⟨v, hv⟩ := Option.isSome_iff_exists.mp hBinary
      obtain ⟨x, y, hx, hy, -⟩ := eval_binary hv
      refine ⟨Option.isSome_of_mem hx,
        fun core blanks hBlanks hSpells => ?_⟩
      obtain ⟨inner, hInner, rfl⟩ := blank_of_skipWs_cons hHead
      obtain ⟨core', blanks', rfl, hBlanks', hSpells'⟩ :=
        ih (Option.isSome_of_mem hy)
      obtain ⟨core'', blanks'', hEq, hBlanks'', hWhole⟩ :=
        hRest _ blanks' hBlanks'
          (.binary hSpells (hBlanks.append hInner) hOp hSpells')
      refine ⟨core'', blanks'', ?_, hBlanks'', hWhole⟩
      rw [← hEq]
      simp only [List.append_assoc, List.cons_append]

--
-- Completeness
--

/- No operator of an expression ends its chain. -/
def Expr.Unstopped
    (stops : Op → Expr → Prop) : Expr → Prop
  | .missing => True
  | .number _ => True
  | .minus e => e.Unstopped stops
  | .plus e => e.Unstopped stops
  | .group e => e.Unstopped stops
  | .unclosed e => e.Unstopped stops
  | .binary op a b =>
      a.Unstopped stops ∧ b.Unstopped stops ∧ ¬ stops op b

/- Nothing divides by zero in an expression with a value. -/
theorem unstopped_of_eval
    {v : Int32}
    (hEval : e.eval = some v) :
    e.Unstopped ZeroDivides := by
  induction e generalizing v with
  | missing => trivial
  | number digits => trivial
  | minus e ih =>
      obtain ⟨w, hw, -⟩ := Option.map_eq_some_iff.mp hEval
      exact ih hw
  | plus e ih => exact ih hEval
  | group e ih => exact ih hEval
  | unclosed e ih => cases hEval
  | binary op a b ihA ihB =>
      obtain ⟨x, y, hx, hy, hDivides, -⟩ := eval_binary hEval
      refine ⟨ihA hx, ihB hy, ?_⟩
      rw [← value_of_eval hy] at hDivides
      exact hDivides

theorem unstopped_never
    (e : Expr) :
    e.Unstopped (fun _ _ => False) := by
  induction e with
  | missing => trivial
  | number digits => trivial
  | minus e ih => exact ih
  | plus e ih => exact ih
  | group e ih => exact ih
  | unclosed e ih => exact ih
  | binary op a b ihA ihB => exact ⟨ihA, ihB, id⟩

/- What follows does not go on with a spelling. -/
def Follows
    (k : Kind)
    (rest : List UInt8) : Prop :=
  isDigit (peek rest) = false ∧
    (k = .chain .sum → termOp (peek (skipWs rest)) = none)

theorem skipWs_blank
    {blanks : List UInt8}
    (hBlanks : Blank blanks)
    (s : List UInt8) :
    skipWs (blanks ++ s) = skipWs s := by
  induction blanks with
  | nil => rfl
  | cons c blanks ih =>
      have hSpace := hBlanks c List.mem_cons_self
      rw [List.cons_append, skipWs, if_pos hSpace]
      exact ih fun d hMem =>
        hBlanks d (List.mem_cons_of_mem c hMem)

theorem skipWs_token
    {blanks s : List UInt8}
    (hBlanks : Blank blanks)
    (hToken : c ≠ ch ' ') :
    skipWs (blanks ++ c :: s) = c :: s := by
  rw [skipWs_blank hBlanks, skipWs, if_neg hToken]

variable {k : Kind}

/- Spaces and a token that goes on with nothing. -/
theorem follows_token
    {blanks s : List UInt8}
    (hBlanks : Blank blanks)
    (hToken : c ≠ ch ' ')
    (hDigit : isDigit c = false)
    (hOp : k = .chain .sum → termOp c = none) :
    Follows k (blanks ++ c :: s) := by
  constructor
  · cases blanks with
    | nil => exact hDigit
    | cons d blanks =>
        have hSpace := hBlanks d List.mem_cons_self
        change isDigit d = false
        rw [hSpace]
        decide
  · rw [skipWs_token hBlanks hToken]
    exact hOp

variable {l : Level}

/- An operator is no space, no digit, and of one level. -/
theorem op_token
    {op : Op}
    (hOp : l.op c = some op) :
    c ≠ ch ' ' ∧ isDigit c = false ∧
      (Kind.chain l = .chain .sum → termOp c = none) := by
  cases l with
  | product =>
      have hChar : c = ch '*' ∨ c = ch '/' ∨ c = ch '%' := by
        by_contra hNone
        simp only [not_or] at hNone
        simp [Level.op, termOp, hNone] at hOp
      refine ⟨?_, ?_, nofun⟩ <;>
        rcases hChar with rfl | rfl | rfl <;> decide
  | sum =>
      have hChar : c = ch '+' ∨ c = ch '-' := by
        by_contra hNone
        simp only [not_or] at hNone
        simp [Level.op, exprOp, hNone] at hOp
      rcases hChar with rfl | rfl <;> decide

/- The digits of a number, up to what follows. -/
theorem span_digits
    {digits rest : List UInt8}
    (hDigits : ∀ c ∈ digits, isDigit c = true)
    (hRest : isDigit (peek rest) = false) :
    (digits ++ rest).takeWhile isDigit = digits ∧
      (digits ++ rest).dropWhile isDigit = rest := by
  rw [List.takeWhile_append_of_pos hDigits,
    List.dropWhile_append_of_pos hDigits]
  cases rest with
  | nil => exact ⟨List.append_nil digits, rfl⟩
  | cons c rest =>
      have hNeg : ¬ isDigit c = true := by
        rw [show isDigit c = false from hRest]
        decide
      rw [List.takeWhile_cons_of_neg hNeg,
        List.dropWhile_cons_of_neg hNeg]
      exact ⟨List.append_nil digits, rfl⟩

section Completeness

variable {stops : Op → Expr → Prop}

/- How the reading of a spelling goes on with the rest. -/
def Resumes
    (stops : Op → Expr → Prop)
    (k : Kind)
    (s : List UInt8)
    (e : Expr)
    (rest : List UInt8) : Prop :=
  match k with
  | .factor =>
      Reads stops (.whole .factor) (s ++ rest) e rest
  | .chain l =>
      ∀ e' q, Reads stops (.loop l e) rest e' q →
        Reads stops (.whole (.chain l)) (s ++ rest) e' q

/- A loop begins with spaces, or without. -/
theorem loop_congr
    {s t q : List UInt8}
    {a e : Expr}
    (hSkip : skipWs s = skipWs t)
    (hLoop : Reads stops (.loop l a) t e q) :
    Reads stops (.loop l a) s e q := by
  cases hLoop with
  | finish hHead =>
      rw [← hSkip] at hHead ⊢
      exact .finish hHead
  | stop hHead hOp hReads hStops =>
      exact .stop (hSkip.trans hHead) hOp hReads hStops
  | next hHead hOp hReads hStops hLoop =>
      exact .next (hSkip.trans hHead) hOp hReads hStops hLoop

/- An operand is read up to the spaces behind it. -/
theorem operand_of_resumes
    {s rest : List UInt8}
    (hResumes : Resumes stops l.operand s e rest)
    (hFollows : Follows (.chain l) rest) :
    ∃ q, skipWs q = skipWs rest ∧
      Reads stops (.whole l.operand) (s ++ rest) e q := by
  cases l with
  | product => exact ⟨rest, rfl, hResumes⟩
  | sum =>
      exact ⟨skipWs rest, skipWs_skipWs rest,
        hResumes e _ (.finish (hFollows.2 rfl))⟩

theorem Follows.operand
    {rest : List UInt8}
    (hFollows : Follows (.chain l) rest) :
    Follows l.operand rest :=
  ⟨hFollows.1, by cases l <;> exact nofun⟩

/- A spelling is read as the expression that it spells. -/
theorem resumes_of_spells
    {s rest : List UInt8}
    (hSpells : Spells k s e)
    (hUnstopped : e.Unstopped stops)
    (hFollows : Follows k rest) :
    Resumes stops k s e rest := by
  induction hSpells generalizing rest with
  | number hBlanks hSome hDigits =>
      rename_i blanks digits
      obtain ⟨c, ds, rfl⟩ := List.exists_cons_of_ne_nil hSome
      have hDigit := hDigits c List.mem_cons_self
      have hToken : c ≠ ch ' ' := by
        intro hSpace
        rw [hSpace] at hDigit
        exact absurd hDigit (by decide)
      have hSkip :
          skipWs (blanks ++ (c :: ds) ++ rest) =
            (c :: ds) ++ rest := by
        rw [List.append_assoc]
        exact skipWs_token hBlanks hToken
      obtain ⟨hTake, hDrop⟩ := span_digits hDigits hFollows.1
      have hReads :
          Reads stops (.whole .factor)
            (blanks ++ (c :: ds) ++ rest) _ _ :=
        .number (by rw [hSkip]; exact hDigit)
      rw [hSkip, hTake, hDrop] at hReads
      exact hReads
  | minus hBlanks hSpells ih =>
      refine .minus ?_ (ih hUnstopped ⟨hFollows.1, nofun⟩)
      rw [List.append_assoc, List.cons_append]
      exact skipWs_token hBlanks (by decide)
  | plus hBlanks hSpells ih =>
      refine .plus ?_ (ih hUnstopped ⟨hFollows.1, nofun⟩)
      rw [List.append_assoc, List.cons_append]
      exact skipWs_token hBlanks (by decide)
  | group hBlanks hSpells hInner ih =>
      rename_i blanks s inner e
      have hClose :
          Follows (.chain .sum) (inner ++ ch ')' :: rest) :=
        follows_token hInner (by decide) (by decide) (by decide)
      have hSkip : skipWs (inner ++ ch ')' :: rest) = _ :=
        skipWs_token hInner (by decide)
      have hLoop :
          Reads stops (.loop .sum e) (inner ++ ch ')' :: rest)
            e _ :=
        .finish (by rw [hSkip]; rfl)
      rw [hSkip] at hLoop
      refine .group ?_ (ih hUnstopped hClose e _ hLoop) rfl
      simp only [List.append_assoc, List.cons_append,
        List.nil_append]
      exact skipWs_token hBlanks (by decide)
  | operand hSpells ih =>
      intro e' r hLoop
      obtain ⟨q, hSkip, hReads⟩ := operand_of_resumes
        (ih hUnstopped hFollows.operand) hFollows
      exact .chain hReads (loop_congr hSkip hLoop)
  | binary hLeft hBlanks hOp hRight ihL ihR =>
      intro e' r hLoop
      obtain ⟨hA, hB, hStops⟩ := hUnstopped
      obtain ⟨hToken, hDigit, hLevel⟩ := op_token hOp
      obtain ⟨q, hSkip, hReads⟩ := operand_of_resumes
        (ihR hB hFollows.operand) hFollows
      have hResumes := ihL hA
        (follows_token hBlanks hToken hDigit hLevel) e' r
        (.next (skipWs_token hBlanks hToken) hOp hReads hStops
          (loop_congr hSkip hLoop))
      simpa only [List.append_assoc, List.cons_append]
        using hResumes

/- A text in the grammar is read to its end. -/
theorem reads_of_isText
    (hText : IsText s e)
    (hUnstopped : e.Unstopped stops) :
    Reads stops (.whole (.chain .sum)) s e [] := by
  obtain ⟨core, blanks, rfl, hBlanks, hSpells⟩ := hText
  have hEnd : skipWs blanks = [] := by
    have hSkip := skipWs_blank hBlanks []
    rwa [List.append_nil] at hSkip
  have hFollows : Follows (.chain .sum) blanks := by
    constructor
    · cases blanks with
      | nil => decide
      | cons c blanks =>
          have hSpace := hBlanks c List.mem_cons_self
          change isDigit c = false
          rw [hSpace]
          decide
    · rw [hEnd]
      decide
  refine resumes_of_spells hSpells hUnstopped hFollows e [] ?_
  rw [← hEnd]
  exact .finish (by rw [hEnd]; rfl)

end Completeness

/- The grammar is unambiguous. -/
theorem isText_unique
    {e e' : Expr}
    (hText : IsText s e)
    (hText' : IsText s e') :
    e = e' :=
  (reads_unique
    (reads_of_isText hText (unstopped_never e))
    (reads_of_isText hText' (unstopped_never e'))).1

/- The values of a text are those that the reading finds. -/
theorem isText_eval_iff
    (hReads :
      Reads ZeroDivides (.whole (.chain .sum)) s e q)
    (v : Int32) :
    (∃ t, IsText s t ∧ t.eval = some v) ↔
      e.report none = none ∧ skipWs q = [] ∧
        e.value = v := by
  constructor
  · rintro ⟨t, hText, hEval⟩
    obtain ⟨rfl, rfl⟩ := reads_unique hReads
      (reads_of_isText hText (unstopped_of_eval hEval))
    exact ⟨report_of_eval hEval none, rfl,
      value_of_eval hEval⟩
  · rintro ⟨hReport, hEnd, rfl⟩
    cases hEval : e.eval with
    | none =>
        have hSome := report_isSome_of_eval hEval none
        rw [hReport] at hSome
        cases hSome
    | some v =>
        obtain ⟨core, blanks, rfl, hBlanks, hSpells⟩ :=
          spells_of_reads hReads (hEval ▸ rfl)
        obtain ⟨inner, hInner, hRest⟩ := blank_of_skipWs q
        rw [hEnd, List.append_nil] at hRest
        exact ⟨e, ⟨core, blanks ++ q, rfl,
          hBlanks.append (hRest ▸ hInner), hSpells⟩,
          (value_of_eval hEval).symm ▸ hEval⟩

end KvantOS.Calculator
