import KvantOS.Calculator.Grammar

/-
  This file defines how a text is read from the left to the
  right, with its errors: every text has one reading. The
  calculator reads a text this way and computes the value of
  the expression, unless it divides -2147483648 by -1.

  Key definitions include:
    * `Part`, `Reads`, `ZeroDivides`
    * `outcome`

  Key theorems include:
    * `reads_total`, `reads_unique`, `calcExpr_of_reads`
-/

namespace KvantOS.Calculator

open Lexical (isDigit)

--
-- Spaces
--

theorem skipWs_suffix :
    (s : List UInt8) → skipWs s <:+ s
  | [] => List.suffix_rfl
  | c :: s => by
      rw [skipWs]
      split
      · exact (skipWs_suffix s).trans (List.suffix_cons c s)
      · exact List.suffix_rfl

@[simp]
theorem skipWs_skipWs :
    (s : List UInt8) → skipWs (skipWs s) = skipWs s
  | [] => rfl
  | c :: s => by
      by_cases hSpace : c = ch ' '
      · rw [skipWs, if_pos hSpace, skipWs_skipWs s]
      · rw [skipWs, if_neg hSpace, skipWs, if_neg hSpace]

variable {c : UInt8} {s p : List UInt8}

theorem tail_suffix_of_skipWs
    (hHead : skipWs s = c :: p) :
    p <:+ s :=
  (List.suffix_cons c p).trans (hHead ▸ skipWs_suffix s)

theorem length_lt_of_skipWs
    (hHead : skipWs s = c :: p) :
    p.length < s.length := by
  have hLength := (skipWs_suffix s).length_le
  rw [hHead, List.length_cons] at hLength
  omega

theorem heads_eq
    {s p p' : List UInt8}
    {c c' : UInt8}
    (hHead : skipWs s = c :: p)
    (hHead' : skipWs s = c' :: p') :
    c = c' ∧ p = p' :=
  List.cons.inj (hHead.symm.trans hHead')

theorem eq_cons_of_peek
    (hPeek : peek s = c)
    (hNe : c ≠ 0) :
    s = c :: s.tail := by
  cases s with
  | nil => exact absurd hPeek.symm hNe
  | cons d s => rw [← hPeek]; rfl

--
-- Readings
--

/- What is read: a part, or the rest of a chain. -/
inductive Part where
  | whole (k : Kind)
  | loop (l : Level) (acc : Expr)

/- The characters that a factor starts with. -/
def StartsFactor (c : UInt8) : Prop :=
  c = ch '(' ∨ c = ch '-' ∨ c = ch '+' ∨ isDigit c = true

/-
  A text is read as an expression, up to the text that
  follows it. A chain can stop behind an operand.
-/
inductive Reads
    (stops : Op → Expr → Prop) :
    Part → List UInt8 → Expr → List UInt8 → Prop where
  | missing {s : List UInt8}
      (hHead : ¬ StartsFactor (peek (skipWs s))) :
      Reads stops (.whole .factor) s .missing (skipWs s)
  | number {s : List UInt8}
      (hHead : isDigit (peek (skipWs s)) = true) :
      Reads stops (.whole .factor) s
        (.number ((skipWs s).takeWhile isDigit))
        ((skipWs s).dropWhile isDigit)
  | minus {s p q : List UInt8} {e : Expr}
      (hHead : skipWs s = ch '-' :: p)
      (hReads : Reads stops (.whole .factor) p e q) :
      Reads stops (.whole .factor) s (.minus e) q
  | plus {s p q : List UInt8} {e : Expr}
      (hHead : skipWs s = ch '+' :: p)
      (hReads : Reads stops (.whole .factor) p e q) :
      Reads stops (.whole .factor) s (.plus e) q
  | group {s p q r : List UInt8} {e : Expr}
      (hHead : skipWs s = ch '(' :: p)
      (hReads : Reads stops (.whole (.chain .sum)) p e q)
      (hClose : skipWs q = ch ')' :: r) :
      Reads stops (.whole .factor) s (.group e) r
  | unclosed {s p q : List UInt8} {e : Expr}
      (hHead : skipWs s = ch '(' :: p)
      (hReads : Reads stops (.whole (.chain .sum)) p e q)
      (hClose : peek (skipWs q) ≠ ch ')') :
      Reads stops (.whole .factor) s (.unclosed e) (skipWs q)
  | chain {l : Level} {s q r : List UInt8} {a e : Expr}
      (hReads : Reads stops (.whole l.operand) s a q)
      (hLoop : Reads stops (.loop l a) q e r) :
      Reads stops (.whole (.chain l)) s e r
  | finish {l : Level} {s : List UInt8} {a : Expr}
      (hHead : l.op (peek (skipWs s)) = none) :
      Reads stops (.loop l a) s a (skipWs s)
  | stop {l : Level} {s p q : List UInt8} {c : UInt8}
      {op : Op} {a b : Expr}
      (hHead : skipWs s = c :: p)
      (hOp : l.op c = some op)
      (hReads : Reads stops (.whole l.operand) p b q)
      (hStops : stops op b) :
      Reads stops (.loop l a) s (.binary op a b) q
  | next {l : Level} {s p q r : List UInt8} {c : UInt8}
      {op : Op} {a b e : Expr}
      (hHead : skipWs s = c :: p)
      (hOp : l.op c = some op)
      (hReads : Reads stops (.whole l.operand) p b q)
      (hStops : ¬ stops op b)
      (hLoop : Reads stops (.loop l (.binary op a b)) q e r) :
      Reads stops (.loop l a) s e r

section Readings

variable {stops : Op → Expr → Prop}

/- What follows is the end of the text. -/
theorem reads_suffix
    {part : Part}
    {s q : List UInt8}
    {e : Expr}
    (hReads : Reads stops part s e q) :
    q <:+ s := by
  induction hReads with
  | missing hHead => exact skipWs_suffix _
  | number hHead =>
      exact (List.dropWhile_suffix _).trans (skipWs_suffix _)
  | minus hHead hReads ih =>
      exact ih.trans (tail_suffix_of_skipWs hHead)
  | plus hHead hReads ih =>
      exact ih.trans (tail_suffix_of_skipWs hHead)
  | group hHead hReads hClose ih =>
      exact (tail_suffix_of_skipWs hClose).trans
        (ih.trans (tail_suffix_of_skipWs hHead))
  | unclosed hHead hReads hClose ih =>
      exact (skipWs_suffix _).trans
        (ih.trans (tail_suffix_of_skipWs hHead))
  | chain hReads hLoop ih ihLoop => exact ihLoop.trans ih
  | finish hHead => exact skipWs_suffix _
  | stop hHead hOp hReads hStops ih =>
      exact ih.trans (tail_suffix_of_skipWs hHead)
  | next hHead hOp hReads hStops hLoop ih ihLoop =>
      exact ihLoop.trans
        (ih.trans (tail_suffix_of_skipWs hHead))

/- A text has at most one reading. -/
theorem reads_unique
    {part : Part}
    {s q q' : List UInt8}
    {e e' : Expr}
    (hReads : Reads stops part s e q)
    (hReads' : Reads stops part s e' q') :
    e = e' ∧ q = q' := by
  induction hReads generalizing e' q' with
  | missing hHead =>
      cases hReads' with
      | missing hHead' => exact ⟨rfl, rfl⟩
      | _ => simp_all [StartsFactor, peek]
  | number hHead =>
      cases hReads' with
      | number hHead' => exact ⟨rfl, rfl⟩
      | _ => simp_all [StartsFactor, peek, isDigit, ch]
  | minus hHead hReads ih =>
      cases hReads' with
      | minus hHead' hReads' =>
          obtain ⟨-, rfl⟩ := heads_eq hHead hHead'
          obtain ⟨rfl, rfl⟩ := ih hReads'
          exact ⟨rfl, rfl⟩
      | _ => simp_all [StartsFactor, peek, isDigit, ch]
  | plus hHead hReads ih =>
      cases hReads' with
      | plus hHead' hReads' =>
          obtain ⟨-, rfl⟩ := heads_eq hHead hHead'
          obtain ⟨rfl, rfl⟩ := ih hReads'
          exact ⟨rfl, rfl⟩
      | _ => simp_all [StartsFactor, peek, isDigit, ch]
  | group hHead hReads hClose ih =>
      cases hReads' with
      | group hHead' hReads' hClose' =>
          obtain ⟨-, rfl⟩ := heads_eq hHead hHead'
          obtain ⟨rfl, rfl⟩ := ih hReads'
          exact ⟨rfl, (heads_eq hClose hClose').2⟩
      | unclosed hHead' hReads' hClose' =>
          obtain ⟨-, rfl⟩ := heads_eq hHead hHead'
          obtain ⟨rfl, rfl⟩ := ih hReads'
          exact absurd (hClose ▸ rfl) hClose'
      | _ => simp_all [StartsFactor, peek, isDigit, ch]
  | unclosed hHead hReads hClose ih =>
      cases hReads' with
      | group hHead' hReads' hClose' =>
          obtain ⟨-, rfl⟩ := heads_eq hHead hHead'
          obtain ⟨rfl, rfl⟩ := ih hReads'
          exact absurd (hClose' ▸ rfl) hClose
      | unclosed hHead' hReads' hClose' =>
          obtain ⟨-, rfl⟩ := heads_eq hHead hHead'
          obtain ⟨rfl, rfl⟩ := ih hReads'
          exact ⟨rfl, rfl⟩
      | _ => simp_all [StartsFactor, peek, isDigit, ch]
  | chain hReads hLoop ih ihLoop =>
      cases hReads' with
      | chain hReads' hLoop' =>
          obtain ⟨rfl, rfl⟩ := ih hReads'
          exact ihLoop hLoop'
  | finish hHead =>
      cases hReads' with
      | finish hHead' => exact ⟨rfl, rfl⟩
      | _ => simp_all [peek]
  | stop hHead hOp hReads hStops ih =>
      cases hReads' with
      | finish hHead' => simp_all [peek]
      | stop hHead' hOp' hReads' hStops' =>
          obtain ⟨rfl, rfl⟩ := heads_eq hHead hHead'
          obtain rfl := Option.some.inj (hOp.symm.trans hOp')
          obtain ⟨rfl, rfl⟩ := ih hReads'
          exact ⟨rfl, rfl⟩
      | next hHead' hOp' hReads' hStops' hLoop' =>
          obtain ⟨rfl, rfl⟩ := heads_eq hHead hHead'
          obtain rfl := Option.some.inj (hOp.symm.trans hOp')
          obtain ⟨rfl, rfl⟩ := ih hReads'
          exact absurd hStops hStops'
  | next hHead hOp hReads hStops hLoop ih ihLoop =>
      cases hReads' with
      | finish hHead' => simp_all [peek]
      | stop hHead' hOp' hReads' hStops' =>
          obtain ⟨rfl, rfl⟩ := heads_eq hHead hHead'
          obtain rfl := Option.some.inj (hOp.symm.trans hOp')
          obtain ⟨rfl, rfl⟩ := ih hReads'
          exact absurd hStops' hStops
      | next hHead' hOp' hReads' hStops' hLoop' =>
          obtain ⟨rfl, rfl⟩ := heads_eq hHead hHead'
          obtain rfl := Option.some.inj (hOp.symm.trans hOp')
          obtain ⟨rfl, rfl⟩ := ih hReads'
          exact ihLoop hLoop'

/- A factor can be read when shorter texts can. -/
theorem factor_of_shorter
    (hShorter :
      ∀ part t, t.length < s.length →
        ∃ e q, Reads stops part t e q) :
    ∃ e q, Reads stops (.whole .factor) s e q := by
  by_cases hOpen : peek (skipWs s) = ch '('
  · have hHead := eq_cons_of_peek hOpen (by decide)
    obtain ⟨e, q, hReads⟩ := hShorter (.whole (.chain .sum))
      _ (length_lt_of_skipWs hHead)
    by_cases hClose : peek (skipWs q) = ch ')'
    · exact ⟨.group e, _, .group hHead hReads
        (eq_cons_of_peek hClose (by decide))⟩
    · exact ⟨.unclosed e, _, .unclosed hHead hReads hClose⟩
  by_cases hMinus : peek (skipWs s) = ch '-'
  · have hHead := eq_cons_of_peek hMinus (by decide)
    obtain ⟨e, q, hReads⟩ := hShorter (.whole .factor)
      _ (length_lt_of_skipWs hHead)
    exact ⟨.minus e, q, .minus hHead hReads⟩
  by_cases hPlus : peek (skipWs s) = ch '+'
  · have hHead := eq_cons_of_peek hPlus (by decide)
    obtain ⟨e, q, hReads⟩ := hShorter (.whole .factor)
      _ (length_lt_of_skipWs hHead)
    exact ⟨.plus e, q, .plus hHead hReads⟩
  by_cases hDigit : isDigit (peek (skipWs s)) = true
  · exact ⟨_, _, .number hDigit⟩
  · exact ⟨.missing, _, .missing (by
      rintro (h | h | h | h) <;> contradiction)⟩

/- No operator is the terminator of the text. -/
theorem op_zero (l : Level) : l.op 0 = none := by
  cases l <;> rfl

/- The rest of a chain can be read when shorter texts can. -/
theorem loop_of_shorter
    (hShorter :
      ∀ part t, t.length < s.length →
        ∃ e q, Reads stops part t e q)
    (l : Level)
    (a : Expr) :
    ∃ e q, Reads stops (.loop l a) s e q := by
  cases hOp : l.op (peek (skipWs s)) with
  | none => exact ⟨a, _, .finish hOp⟩
  | some op =>
      have hHead := eq_cons_of_peek rfl (by
        intro hZero
        rw [hZero, op_zero] at hOp
        cases hOp)
      have hLength := length_lt_of_skipWs hHead
      obtain ⟨b, q, hReads⟩ :=
        hShorter (.whole l.operand) _ hLength
      by_cases hStops : stops op b
      · exact ⟨_, q, .stop hHead hOp hReads hStops⟩
      · have hRest := (reads_suffix hReads).length_le
        obtain ⟨e, r, hLoop⟩ :=
          hShorter (.loop l (.binary op a b)) q (by omega)
        exact ⟨e, r, .next hHead hOp hReads hStops hLoop⟩

/- Every text has a reading. -/
theorem reads_total
    (part : Part)
    (s : List UInt8) :
    ∃ e q, Reads stops part s e q := by
  induction hLength : s.length using Nat.strong_induction_on
    generalizing part s with
  | _ n ih =>
      have hShorter :
          ∀ part t, t.length < s.length →
            ∃ e q, Reads stops part t e q :=
        fun part t hLt =>
          ih t.length (hLength ▸ hLt) part t rfl
      -- The operands are read at the same place.
      have hChain :
          ∀ l, (∃ e q, Reads stops (.whole l.operand) s e q) →
            ∃ e q, Reads stops (.whole (.chain l)) s e q := by
        rintro l ⟨a, q, hReads⟩
        have hSuffix := reads_suffix hReads
        rcases hSuffix.length_le.lt_or_eq with hLt | hEq
        · obtain ⟨e, r, hLoop⟩ := hShorter (.loop l a) q hLt
          exact ⟨e, r, .chain hReads hLoop⟩
        · obtain rfl := hSuffix.eq_of_length hEq
          obtain ⟨e, r, hLoop⟩ := loop_of_shorter hShorter l a
          exact ⟨e, r, .chain hReads hLoop⟩
      match part with
      | .whole .factor => exact factor_of_shorter hShorter
      | .whole (.chain .product) =>
          exact hChain .product (factor_of_shorter hShorter)
      | .whole (.chain .sum) =>
          exact hChain .sum
            (hChain .product (factor_of_shorter hShorter))
      | .loop l a => exact loop_of_shorter hShorter l a

end Readings

--
-- Calculator
--

/- The calculator leaves a term behind a zero divisor. -/
def ZeroDivides
    (op : Op)
    (b : Expr) : Prop :=
  op.divides = true ∧ b.value = 0

/- What the calculator makes of an expression. -/
def outcome
    (e : Expr)
    (err : Option CalcErr)
    (q : List UInt8) : Except Fault (Int32 × Calc) :=
  if e.Traps then
    .error .division
  else
    .ok (e.value, ⟨q, e.report err⟩)

/- The function that reads a kind of expressions. -/
def Kind.calc :
    Kind → (turns : Nat) → Calc →
      Except Fault (Int32 × Calc)
  | .factor => calcFactor
  | .chain .product => calcTerm
  | .chain .sum => calcExpr

/- The loop over the operators of a level. -/
def Level.calc :
    Level → (turns : Nat) → Int32 → Calc →
      Except Fault (Int32 × Calc)
  | .product => calcTermLoop
  | .sum => calcExprLoop

/- A part of the calculator, from what it has read. -/
def Part.calc
    (part : Part)
    (turns : Nat)
    (s : List UInt8)
    (err : Option CalcErr) : Except Fault (Int32 × Calc) :=
  match part with
  | .whole k => k.calc turns ⟨s, err⟩
  | .loop l a => do
      let (v, c) ← outcome a err s
      l.calc turns v c

/- The turns that a part takes on the empty text. -/
def Part.turns : Part → Nat
  | .whole .factor => 1
  | .whole (.chain .product) => 2
  | .whole (.chain .sum) => 3
  | .loop _ _ => 1

theorem calc_chain
    (l : Level)
    (turns : Nat)
    (c : Calc) :
    (Kind.chain l).calc (turns + 1) c =
      (do
        let (v, c) ← l.operand.calc turns c
        l.calc turns v c) := by
  cases l <;> rfl

/- A factor with a parenthesis or a sign. -/
theorem calcFactor_open
    (hHead : skipWs s = ch '(' :: p)
    (turns : Nat)
    (err : Option CalcErr) :
    calcFactor (turns + 1) ⟨s, err⟩ =
      calcExpr turns ⟨p, err⟩ >>=
        fun r => .ok (r.2.close r.1) := by
  simp only [calcFactor, Calc.skipWs, Calc.next, hHead, peek,
    List.headD_cons, List.tail_cons, if_true]
  rfl

theorem calcFactor_minus
    (hHead : skipWs s = ch '-' :: p)
    (turns : Nat)
    (err : Option CalcErr) :
    calcFactor (turns + 1) ⟨s, err⟩ =
      calcFactor turns ⟨p, err⟩ >>=
        fun r => .ok (-r.1, r.2) := by
  simp only [calcFactor, Calc.skipWs, Calc.next, hHead, peek,
    List.headD_cons, List.tail_cons, if_true]
  rw [if_neg (by decide)]
  rfl

theorem calcFactor_plus
    (hHead : skipWs s = ch '+' :: p)
    (turns : Nat)
    (err : Option CalcErr) :
    calcFactor (turns + 1) ⟨s, err⟩ =
      calcFactor turns ⟨p, err⟩ := by
  simp only [calcFactor, Calc.skipWs, Calc.next, hHead, peek,
    List.headD_cons, List.tail_cons, if_true]
  rw [if_neg (by decide), if_neg (by decide)]

/- What a loop does with an operator and its operand. -/
def combine
    (l : Level)
    (op : Op)
    (turns : Nat)
    (v : Int32)
    (operand : Int32 × Calc) : Except Fault (Int32 × Calc) :=
  if op.divides = true ∧ operand.1 = 0 then
    .ok (operand.2.fail .division)
  else do
    let v ← op.apply v operand.1
    l.calc turns v operand.2

variable {op : Op}

theorem exprOp_divides
    (hOp : exprOp c = some op) :
    op.divides = false := by
  simp only [exprOp] at hOp
  split at hOp
  · obtain rfl := Option.some.inj hOp
    rfl
  · split at hOp
    · obtain rfl := Option.some.inj hOp
      rfl
    · cases hOp

variable {l : Level}

/- A loop ends at what is no operator of its level. -/
theorem calc_loop_none
    (hOp : l.op (peek (skipWs s)) = none)
    (turns : Nat)
    (v : Int32)
    (err : Option CalcErr) :
    l.calc (turns + 1) v ⟨s, err⟩ =
      .ok (v, ⟨skipWs s, err⟩) := by
  cases l with
  | product =>
      change calcTermLoop (turns + 1) v ⟨s, err⟩ = _
      have hTerm : termOp (peek (skipWs s)) = none := hOp
      simp only [calcTermLoop, Calc.skipWs, hTerm]
  | sum =>
      change calcExprLoop (turns + 1) v ⟨s, err⟩ = _
      have hExpr : exprOp (peek (skipWs s)) = none := hOp
      simp only [calcExprLoop, Calc.skipWs, hExpr]

/-
  A loop goes on behind an operator. The two loops are one,
  as `+` and `-` do not divide.
-/
theorem calc_loop_some
    (hHead : skipWs s = c :: p)
    (hOp : l.op c = some op)
    (turns : Nat)
    (v : Int32)
    (err : Option CalcErr) :
    l.calc (turns + 1) v ⟨s, err⟩ =
      l.operand.calc turns ⟨p, err⟩ >>=
        combine l op turns v := by
  cases l with
  | product =>
      change calcTermLoop (turns + 1) v ⟨s, err⟩ = _
      simp only [calcTermLoop, Calc.skipWs, Calc.next, hHead,
        peek, List.headD_cons, List.tail_cons]
      have hTerm : termOp c = some op := hOp
      rw [hTerm]
      rfl
  | sum =>
      change calcExprLoop (turns + 1) v ⟨s, err⟩ = _
      simp only [calcExprLoop, Calc.skipWs, Calc.next, hHead,
        peek, List.headD_cons, List.tail_cons]
      have hExpr : exprOp c = some op := hOp
      rw [hExpr]
      have hCombine :
          combine .sum op turns v = fun r =>
            op.apply v r.1 >>= (calcExprLoop turns · r.2) := by
        funext r
        rw [combine, if_neg (by simp [exprOp_divides hOp])]
        rfl
      rw [hCombine]
      rfl

variable {e : Expr} {err : Option CalcErr} {q : List UInt8}

/- What follows an expression, when it does not trap. -/
theorem outcome_bind
    (f : Int32 × Calc → Except Fault (Int32 × Calc)) :
    outcome e err q >>= f =
      if e.Traps then .error .division
      else f (e.value, ⟨q, e.report err⟩) := by
  unfold outcome
  split <;> rfl

/- An operator without a value leaves its chain. -/
theorem combine_stop
    {a b : Expr}
    (hTraps : ¬ a.Traps)
    (hStops : ZeroDivides op b)
    (turns : Nat) :
    outcome b (a.report err) q >>=
        combine l op turns a.value =
      outcome (.binary op a b) err q := by
  have hNe : b.value ≠ -1 := by
    rw [hStops.2]
    decide
  have hZero : op.divides = true ∧ b.value = 0 := hStops
  rw [outcome_bind, outcome]
  simp only [combine, Expr.value, Expr.report, Expr.Traps,
    if_pos hZero, hTraps, hNe, and_false, or_false, false_or]
  rfl

/- The other operators are part of their chain. -/
theorem combine_next
    {a b : Expr}
    (hTraps : ¬ a.Traps)
    (hStops : ¬ ZeroDivides op b)
    (turns : Nat) :
    outcome b (a.report err) q >>=
        combine l op turns a.value =
      (Part.loop l (.binary op a b)).calc turns q err := by
  have hZero : ¬ (op.divides = true ∧ b.value = 0) := hStops
  have hFaults :
      op.Faults a.value b.value ↔
        op.divides = true ∧ a.value = Int32.minValue ∧
          b.value = -1 := by
    constructor
    · rintro ⟨hDivides, hNone | hMin⟩
      · exact absurd ⟨hDivides, hNone⟩ hStops
      · exact ⟨hDivides, hMin⟩
    · rintro ⟨hDivides, hMin⟩
      exact ⟨hDivides, .inr hMin⟩
  rw [Part.calc, outcome_bind, outcome_bind]
  simp only [combine, Op.apply, Expr.value, Expr.report,
    Expr.Traps, if_neg hZero, hFaults, hTraps, false_or]
  by_cases hB : b.Traps
  · simp only [hB, true_or, if_true]
  · simp only [hB, false_or, if_false]
    split <;> rfl

/- The digits of a number are read into 32 bits. -/
theorem readDigits_eq
    (s : List UInt8)
    (n : Nat) :
    readDigits (Int32.ofNat n) s =
      (Int32.ofNat ((s.takeWhile isDigit).foldl
        (fun n c => n * 10 + (c.toNat - 48)) n),
        s.dropWhile isDigit) := by
  induction s generalizing n with
  | nil => rfl
  | cons c s ih =>
      rw [readDigits]
      split
      · rename_i hDigit
        rw [List.takeWhile_cons_of_pos hDigit,
          List.dropWhile_cons_of_pos hDigit, List.foldl_cons,
          ← ih, Int32.ofNat_add, Int32.ofNat_mul]
        rfl
      · rename_i hDigit
        rw [List.takeWhile_cons_of_neg hDigit,
          List.dropWhile_cons_of_neg hDigit, List.foldl_nil]

theorem turns_succ
    {part : Part}
    {n turns : Nat}
    (hTurns : n + part.turns ≤ turns) :
    ∃ t, turns = t + 1 := by
  refine ⟨turns - 1, ?_⟩
  have hPos : 0 < part.turns := by
    rcases part with (_ | _ | _) | _ <;>
      exact Nat.succ_pos _
  omega

/- The calculator reads a text and computes its value. -/
theorem calc_of_reads
    {part : Part}
    (hReads : Reads ZeroDivides part s e q)
    {turns : Nat}
    (hTurns : 3 * s.length + part.turns ≤ turns)
    (err : Option CalcErr) :
    part.calc turns s err = outcome e err q := by
  induction hReads generalizing turns err with
  | missing hHead =>
      obtain ⟨turns, rfl⟩ := turns_succ hTurns
      simp only [StartsFactor, not_or] at hHead
      simp only [Part.calc, Kind.calc, calcFactor,
        Calc.skipWs, Calc.number, hHead, if_false]
      rfl
  | number hHead =>
      rename_i s
      obtain ⟨turns, rfl⟩ := turns_succ hTurns
      have hSigns :
          peek (skipWs s) ≠ ch '(' ∧ peek (skipWs s) ≠ ch '-' ∧
            peek (skipWs s) ≠ ch '+' := by
        refine ⟨?_, ?_, ?_⟩ <;>
          (intro hSign
           rw [hSign] at hHead
           exact absurd hHead (by decide))
      simp only [Part.calc, Kind.calc, calcFactor,
        Calc.skipWs, Calc.number, hHead, hSigns, if_false,
        if_true]
      rw [show (0 : Int32) = Int32.ofNat 0 from rfl,
        readDigits_eq]
      rfl
  | minus hHead hReads ih =>
      obtain ⟨turns, rfl⟩ := turns_succ hTurns
      have hLength := length_lt_of_skipWs hHead
      simp only [Part.turns] at hTurns ih
      have hRest : calcFactor turns _ = _ :=
        ih (by omega) err
      change calcFactor (turns + 1) _ = _
      rw [calcFactor_minus hHead, hRest, outcome_bind]
      rfl
  | plus hHead hReads ih =>
      obtain ⟨turns, rfl⟩ := turns_succ hTurns
      have hLength := length_lt_of_skipWs hHead
      simp only [Part.turns] at hTurns ih
      have hRest : calcFactor turns _ = _ :=
        ih (by omega) err
      change calcFactor (turns + 1) _ = _
      rw [calcFactor_plus hHead, hRest]
      rfl
  | group hHead hReads hClose ih =>
      obtain ⟨turns, rfl⟩ := turns_succ hTurns
      have hLength := length_lt_of_skipWs hHead
      simp only [Part.turns] at hTurns ih
      have hRest : calcExpr turns _ = _ :=
        ih (by omega) err
      change calcFactor (turns + 1) _ = _
      rw [calcFactor_open hHead, hRest, outcome_bind]
      simp only [Calc.close, Calc.skipWs, Calc.next, hClose,
        peek, List.headD_cons, List.tail_cons, if_true]
      rfl
  | unclosed hHead hReads hClose ih =>
      obtain ⟨turns, rfl⟩ := turns_succ hTurns
      have hLength := length_lt_of_skipWs hHead
      simp only [Part.turns] at hTurns ih
      have hRest : calcExpr turns _ = _ :=
        ih (by omega) err
      change calcFactor (turns + 1) _ = _
      rw [calcFactor_open hHead, hRest, outcome_bind]
      simp only [Calc.close, Calc.skipWs, hClose, if_false]
      rfl
  | chain hReads hLoop ih ihLoop =>
      rename_i l s q r a e
      obtain ⟨turns, rfl⟩ := turns_succ hTurns
      have hLength := (reads_suffix hReads).length_le
      have hRest : l.operand.calc turns ⟨s, err⟩ = _ :=
        ih (by cases l <;>
          simp only [Part.turns, Level.operand] at hTurns ⊢ <;>
          omega) err
      change (Kind.chain l).calc (turns + 1) ⟨s, err⟩ = _
      rw [calc_chain, hRest]
      refine ihLoop ?_ err
      cases l <;> simp only [Part.turns] at hTurns ⊢ <;> omega
  | finish hHead =>
      obtain ⟨turns, rfl⟩ := turns_succ hTurns
      rw [Part.calc, outcome_bind, outcome]
      exact if_congr Iff.rfl rfl
        (calc_loop_none hHead turns _ _)
  | stop hHead hOp hReads hStops ih =>
      rename_i l s p q c op a b
      obtain ⟨turns, rfl⟩ := turns_succ hTurns
      have hLength := length_lt_of_skipWs hHead
      simp only [Part.turns] at hTurns
      rw [Part.calc, outcome_bind]
      split
      · rename_i hTraps
        have hBinary : (Expr.binary op a b).Traps := .inl hTraps
        rw [outcome, if_pos hBinary]
      · rename_i hTraps
        have hRest : l.operand.calc turns _ = _ :=
          ih (by cases l <;>
            simp only [Part.turns, Level.operand] <;> omega)
            (a.report err)
        rw [← combine_stop hTraps hStops, ← hRest]
        exact calc_loop_some hHead hOp turns _ _
  | next hHead hOp hReads hStops hLoop ih ihLoop =>
      rename_i l s p q r c op a b e
      obtain ⟨turns, rfl⟩ := turns_succ hTurns
      have hLength := length_lt_of_skipWs hHead
      have hSuffix := (reads_suffix hReads).length_le
      simp only [Part.turns] at hTurns ihLoop
      have hRun := @ihLoop turns (by omega) err
      rw [← hRun, Part.calc, outcome_bind]
      split
      · rename_i hTraps
        have hBinary : (Expr.binary op a b).Traps := .inl hTraps
        rw [Part.calc, outcome, if_pos hBinary]
        rfl
      · rename_i hTraps
        have hRest : l.operand.calc turns _ = _ :=
          ih (by cases l <;>
            simp only [Part.turns, Level.operand] <;> omega)
            (a.report err)
        rw [← combine_next hTraps hStops, ← hRest]
        exact calc_loop_some hHead hOp turns _ _

/- `calc_expr` on a text, with its reading. -/
theorem calcExpr_of_reads
    (hReads :
      Reads ZeroDivides (.whole (.chain .sum)) s e q)
    {turns : Nat}
    (hTurns : 3 * s.length + 3 ≤ turns) :
    calcExpr turns ⟨s, none⟩ = outcome e none q :=
  calc_of_reads hReads hTurns none

end KvantOS.Calculator
