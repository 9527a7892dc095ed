import KvantOS.Calculator.Model

/-
  This file defines the expressions of the calculator: their
  values in 32 bits, and the texts that spell them.

  Key definitions include:
    * `Expr`, `Expr.value`, `Expr.eval`
    * `Expr.Traps`, `Expr.report`
    * `Spells`, `IsText`

  Key theorems include:
    * `value_of_eval`, `report_of_eval`
    * `isText_append_blank`
-/

namespace KvantOS.Calculator

open Lexical (isDigit)

--
-- Expressions
--

/-
  An expression, as it is read from any text: it may lack
  operands and closing parentheses.
-/
inductive Expr where
  | missing
  | number (digits : List UInt8)
  | minus (e : Expr)
  | plus (e : Expr)
  | group (e : Expr)
  | unclosed (e : Expr)
  | binary (op : Op) (a b : Expr)
  deriving DecidableEq

/- The number that digits are the decimal notation of. -/
def decimal (digits : List UInt8) : Nat :=
  digits.foldl (fun n c => n * 10 + (c.toNat - 48)) 0

namespace Expr

/- The value of an expression, or that it has none. -/
def eval : Expr → Option Int32
  | .missing => none
  | .number digits => some (Int32.ofNat (decimal digits))
  | .minus e => e.eval.map (- ·)
  | .plus e => e.eval
  | .group e => e.eval
  | .unclosed _ => none
  | .binary op a b => do
      let v ← a.eval
      let r ← b.eval
      if op.divides = true ∧ r = 0 then none
      else some (op.value v r)

/- A value with 0 for what has none. -/
def value : Expr → Int32
  | .missing => 0
  | .number digits => Int32.ofNat (decimal digits)
  | .minus e => -e.value
  | .plus e => e.value
  | .group e => e.value
  | .unclosed _ => 0
  | .binary op a b =>
      if op.divides = true ∧ b.value = 0 then 0
      else op.value a.value b.value

/-
  Some `/` or `%` has the operands -2147483648 and -1, with
  0 for operands that have no value.
-/
def Traps : Expr → Prop
  | .missing => False
  | .number _ => False
  | .minus e => e.Traps
  | .plus e => e.Traps
  | .group e => e.Traps
  | .unclosed e => e.Traps
  | .binary op a b =>
      a.Traps ∨ b.Traps ∨
        op.divides = true ∧ a.value = Int32.minValue ∧
          b.value = -1

/- The error that an expression leaves. -/
def report : Expr → Option CalcErr → Option CalcErr
  | .missing, _ => some .bad
  | .number _, err => err
  | .minus e, err => e.report err
  | .plus e, err => e.report err
  | .group e, err => e.report err
  | .unclosed _, _ => some .bad
  | .binary op a b, err =>
      if op.divides = true ∧ b.value = 0 then
        some .division
      else b.report (a.report err)

end Expr

instance decidableTraps :
    (e : Expr) → Decidable e.Traps
  | .missing => inferInstanceAs (Decidable False)
  | .number _ => inferInstanceAs (Decidable False)
  | .minus e => decidableTraps e
  | .plus e => decidableTraps e
  | .group e => decidableTraps e
  | .unclosed e => decidableTraps e
  | .binary _ a b =>
      have := decidableTraps a
      have := decidableTraps b
      inferInstanceAs (Decidable (_ ∨ _ ∨ _))

variable {v : Int32}

/- An operator has a value when both operands have one. -/
theorem eval_binary
    {op : Op}
    {a b : Expr}
    (hEval : (Expr.binary op a b).eval = some v) :
    ∃ x y, a.eval = some x ∧ b.eval = some y ∧
      ¬ (op.divides = true ∧ y = 0) ∧ v = op.value x y := by
  simp only [Expr.eval, Option.bind_eq_bind,
    Option.bind_eq_some_iff] at hEval
  obtain ⟨x, hx, y, hy, hApply⟩ := hEval
  split at hApply
  · cases hApply
  · exact ⟨x, y, hx, hy, ‹_›, (Option.some.inj hApply).symm⟩

variable {e : Expr}

theorem value_of_eval
    (hEval : e.eval = some v) :
    e.value = v := by
  induction e generalizing v with
  | missing => cases hEval
  | number digits => exact Option.some.inj hEval
  | minus e ih =>
      obtain ⟨w, hw, rfl⟩ := Option.map_eq_some_iff.mp hEval
      exact congrArg (- ·) (ih hw)
  | plus e ih => exact ih hEval
  | group e ih => exact ih hEval
  | unclosed e ih => cases hEval
  | binary op a b ihA ihB =>
      obtain ⟨x, y, hx, hy, hDivides, rfl⟩ := eval_binary hEval
      rw [Expr.value, ihA hx, ihB hy, if_neg hDivides]

theorem report_of_eval
    (hEval : e.eval = some v)
    (err : Option CalcErr) :
    e.report err = err := by
  induction e generalizing v err with
  | missing => cases hEval
  | number digits => rfl
  | minus e ih =>
      obtain ⟨w, hw, -⟩ := Option.map_eq_some_iff.mp hEval
      exact ih hw err
  | plus e ih => exact ih hEval err
  | group e ih => exact ih hEval err
  | unclosed e ih => cases hEval
  | binary op a b ihA ihB =>
      obtain ⟨x, y, hx, hy, hDivides, -⟩ := eval_binary hEval
      rw [Expr.report, value_of_eval hy, if_neg hDivides,
        ihA hx, ihB hy]

/- An error stays, or is another one. -/
theorem report_isSome
    (e : Expr)
    {err : Option CalcErr}
    (hErr : err.isSome) :
    (e.report err).isSome := by
  induction e generalizing err with
  | missing => rfl
  | number digits => exact hErr
  | minus e ih => exact ih hErr
  | plus e ih => exact ih hErr
  | group e ih => exact ih hErr
  | unclosed e ih => rfl
  | binary op a b ihA ihB =>
      rw [Expr.report]
      split
      · rfl
      · exact ihB (ihA hErr)

/- Exactly the expressions without a value leave an error. -/
theorem report_isSome_of_eval
    (hEval : e.eval = none)
    (err : Option CalcErr) :
    (e.report err).isSome := by
  induction e generalizing err with
  | missing => rfl
  | number digits => cases hEval
  | minus e ih =>
      exact ih (Option.map_eq_none_iff.mp hEval) err
  | plus e ih => exact ih hEval err
  | group e ih => exact ih hEval err
  | unclosed e ih => rfl
  | binary op a b ihA ihB =>
      rw [Expr.report]
      split
      · rfl
      · rename_i hZero
        cases hA : a.eval with
        | none => exact report_isSome b (ihA hA err)
        | some v =>
            refine ihB ?_ _
            cases hB : b.eval with
            | none => rfl
            | some r =>
                rw [value_of_eval hB] at hZero
                simp [Expr.eval, hA, hB, hZero] at hEval

--
-- Texts
--

/- The two levels of operators. -/
inductive Level where
  | product
  | sum
  deriving DecidableEq

/- The parts of the grammar. -/
inductive Kind where
  | factor
  | chain (l : Level)
  deriving DecidableEq

namespace Level

/- The operators of a level. -/
def op : Level → UInt8 → Option Op
  | .product => termOp
  | .sum => exprOp

/- What the operators of a level stand between. -/
def operand : Level → Kind
  | .product => .factor
  | .sum => .chain .product

end Level

/- There is nothing but spaces. -/
def Blank (s : List UInt8) : Prop :=
  ∀ c ∈ s, c = ch ' '

/-
  The grammar: the operators of a level associate to the
  left, and spaces may stand before every token.
-/
inductive Spells : Kind → List UInt8 → Expr → Prop where
  | number {blanks digits : List UInt8}
      (hBlanks : Blank blanks)
      (hSome : digits ≠ [])
      (hDigits : ∀ c ∈ digits, isDigit c = true) :
      Spells .factor (blanks ++ digits) (.number digits)
  | minus {blanks s : List UInt8} {e : Expr}
      (hBlanks : Blank blanks)
      (hSpells : Spells .factor s e) :
      Spells .factor (blanks ++ ch '-' :: s) (.minus e)
  | plus {blanks s : List UInt8} {e : Expr}
      (hBlanks : Blank blanks)
      (hSpells : Spells .factor s e) :
      Spells .factor (blanks ++ ch '+' :: s) (.plus e)
  | group {blanks s inner : List UInt8} {e : Expr}
      (hBlanks : Blank blanks)
      (hSpells : Spells (.chain .sum) s e)
      (hInner : Blank inner) :
      Spells .factor
        (blanks ++ ch '(' :: (s ++ (inner ++ [ch ')'])))
        (.group e)
  | operand {l : Level} {s : List UInt8} {e : Expr}
      (hSpells : Spells l.operand s e) :
      Spells (.chain l) s e
  | binary {l : Level} {s blanks t : List UInt8} {c : UInt8}
      {op : Op} {a b : Expr}
      (hLeft : Spells (.chain l) s a)
      (hBlanks : Blank blanks)
      (hOp : l.op c = some op)
      (hRight : Spells l.operand t b) :
      Spells (.chain l) (s ++ (blanks ++ c :: t))
        (.binary op a b)

/- A whole text in the grammar. -/
def IsText
    (s : List UInt8)
    (e : Expr) : Prop :=
  ∃ core blanks, s = core ++ blanks ∧ Blank blanks ∧
    Spells (.chain .sum) core e

theorem blank_nil : Blank [] :=
  fun _ hMem => absurd hMem List.not_mem_nil

theorem Blank.append
    {s t : List UInt8}
    (hLeft : Blank s)
    (hRight : Blank t) :
    Blank (s ++ t) :=
  fun c hMem =>
    (List.mem_append.mp hMem).elim (hLeft c) (hRight c)

/- The last character of a spelling is not a space. -/
theorem spells_getLast
    {k : Kind}
    {s : List UInt8}
    (hSpells : Spells k s e) :
    ∃ c, s.getLast? = some c ∧ c ≠ ch ' ' := by
  induction hSpells with
  | number hBlanks hSome hDigits =>
      rename_i blanks digits
      have hLast := List.getLast_mem hSome
      refine ⟨digits.getLast hSome, ?_, ?_⟩
      · rw [List.getLast?_append_of_ne_nil _ hSome,
          List.getLast?_eq_some_getLast hSome]
      · intro hSpace
        have hDigit := hDigits _ hLast
        rw [hSpace] at hDigit
        exact absurd hDigit (by decide)
  | minus hBlanks hSpells ih =>
      obtain ⟨c, hc, hNe⟩ := ih
      exact ⟨c, by simp [List.getLast?_append,
        List.getLast?_cons, hc], hNe⟩
  | plus hBlanks hSpells ih =>
      obtain ⟨c, hc, hNe⟩ := ih
      exact ⟨c, by simp [List.getLast?_append,
        List.getLast?_cons, hc], hNe⟩
  | group hBlanks hSpells hInner ih =>
      exact ⟨ch ')', by simp [List.getLast?_append,
        List.getLast?_cons], by decide⟩
  | operand hSpells ih => exact ih
  | binary hLeft hBlanks hOp hRight ihL ihR =>
      obtain ⟨c, hc, hNe⟩ := ihR
      exact ⟨c, by simp [List.getLast?_append,
        List.getLast?_cons, hc], hNe⟩

/- A space behind a text does not change what it spells. -/
theorem isText_append_blank
    (s : List UInt8)
    (e : Expr) :
    IsText (s ++ [ch ' ']) e ↔ IsText s e := by
  constructor
  · rintro ⟨core, blanks, hEq, hBlanks, hSpells⟩
    rcases List.eq_nil_or_concat blanks with
      rfl | ⟨blanks', c, rfl⟩
    · obtain ⟨c, hc, hNe⟩ := spells_getLast hSpells
      rw [← List.append_nil core, ← hEq] at hc
      simp at hc
      exact absurd hc.symm hNe
    · rw [List.concat_eq_append, ← List.append_assoc] at hEq
      obtain ⟨rfl, -⟩ := List.append_inj' hEq rfl
      exact ⟨core, blanks', rfl,
        fun d hMem => hBlanks d (by simp [hMem]), hSpells⟩
  · rintro ⟨core, blanks, rfl, hBlanks, hSpells⟩
    refine ⟨core, blanks ++ [ch ' '],
      List.append_assoc .., hBlanks.append ?_, hSpells⟩
    exact fun c hMem => List.mem_singleton.mp hMem

end KvantOS.Calculator
