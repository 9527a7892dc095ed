import KvantOS.Data.CString
import KvantOS.Data.Lexemes

/-
  This file models the calculator of the source file
  `utilcmds.c`: a recursive descent over the joined
  arguments that evaluates while it parses.

  Key definitions include:
    * `Op`, `termOp`, `exprOp`
    * `Calc`
    * `calcFactor`, `calcTerm`, `calcExpr`
    * `joinArgs`, `cmdCalc`
-/

namespace KvantOS.Calculator

open Lexical (isDigit)

--
-- Operators
--

/- The code of a character. -/
def ch (c : Char) : UInt8 :=
  c.toNat.toUInt8

inductive Op where
  | add
  | sub
  | mul
  | div
  | mod
  deriving DecidableEq

/- What stops the machine, or the model of it. -/
inductive Fault where
  /- `idiv` raises its exception. -/
  | division
  /- The model has run out of turns. -/
  | turns
  deriving DecidableEq

/- The operators of `calc_term`. -/
def termOp (c : UInt8) : Option Op :=
  if c = ch '*' then some .mul
  else if c = ch '/' then some .div
  else if c = ch '%' then some .mod
  else none

/- The operators of `calc_expr`. -/
def exprOp (c : UInt8) : Option Op :=
  if c = ch '+' then some .add
  else if c = ch '-' then some .sub
  else none

namespace Op

/- `op == '/' || op == '%'`. -/
def divides : Op → Bool
  | .div => true
  | .mod => true
  | _ => false

/- The value of an operator, in 32 bits. -/
def value : Op → Int32 → Int32 → Int32
  | .add, v, r => v + r
  | .sub, v, r => v - r
  | .mul, v, r => v * r
  | .div, v, r => v / r
  | .mod, v, r => v % r

/- The operands for which `idiv` raises an exception. -/
def Faults (op : Op) (v r : Int32) : Prop :=
  op.divides = true ∧
    (r = 0 ∨ v = Int32.minValue ∧ r = -1)

instance
    (op : Op)
    (v r : Int32) : Decidable (op.Faults v r) :=
  inferInstanceAs (Decidable (_ ∧ _))

/- An operator as the machine computes it. -/
def apply
    (op : Op)
    (v r : Int32) : Except Fault Int32 :=
  if op.Faults v r then
    .error .division
  else
    .ok (op.value v r)

end Op

--
-- State
--

/- The values of `calc_err` other than zero. -/
inductive CalcErr where
  | bad
  | division
  deriving DecidableEq

/- `calc_p`, as what it points at, and `calc_err`. -/
structure Calc where
  p : List UInt8
  err : Option CalcErr
  deriving DecidableEq

/- `*calc_p`. -/
def peek (p : List UInt8) : UInt8 :=
  p.headD 0

/- `calc_skip_ws`. -/
def skipWs : List UInt8 → List UInt8
  | [] => []
  | c :: p => if c = ch ' ' then skipWs p else c :: p

/- The loop over the digits of a number. -/
def readDigits : Int32 → List UInt8 → Int32 × List UInt8
  | v, [] => (v, [])
  | v, c :: p =>
      if isDigit c then
        readDigits (v * 10 + Int32.ofNat (c.toNat - 48)) p
      else (v, c :: p)

namespace Calc

def skipWs (c : Calc) : Calc :=
  { c with p := Calculator.skipWs c.p }

/- `calc_p++`. -/
def next (c : Calc) : Calc :=
  { c with p := c.p.tail }

/- `calc_err = e; return 0`. -/
def fail
    (c : Calc)
    (e : CalcErr) : Int32 × Calc :=
  (0, { c with err := some e })

/- What `calc_factor` does behind an inner expression. -/
def close
    (v : Int32)
    (c : Calc) : Int32 × Calc :=
  let c := c.skipWs
  if peek c.p = ch ')' then (v, c.next) else c.fail .bad

/- What `calc_factor` does with a number. -/
def number (c : Calc) : Int32 × Calc :=
  if isDigit (peek c.p) then
    ((readDigits 0 c.p).1,
      { c with p := (readDigits 0 c.p).2 })
  else c.fail .bad

end Calc

--
-- Parser
--

mutual

/- `calc_factor`. -/
def calcFactor :
    (turns : Nat) → Calc → Except Fault (Int32 × Calc)
  | 0, _ => .error .turns
  | turns + 1, c =>
      let c := c.skipWs
      if peek c.p = ch '(' then do
        let (v, c) ← calcExpr turns c.next
        return c.close v
      else if peek c.p = ch '-' then do
        let (v, c) ← calcFactor turns c.next
        return (-v, c)
      else if peek c.p = ch '+' then
        calcFactor turns c.next
      else .ok c.number

/- `calc_term`. -/
def calcTerm :
    (turns : Nat) → Calc → Except Fault (Int32 × Calc)
  | 0, _ => .error .turns
  | turns + 1, c => do
      let (v, c) ← calcFactor turns c
      calcTermLoop turns v c

/- The loop of `calc_term`, with `v`. -/
def calcTermLoop :
    (turns : Nat) → Int32 → Calc →
      Except Fault (Int32 × Calc)
  | 0, _, _ => .error .turns
  | turns + 1, v, c =>
      let c := c.skipWs
      match termOp (peek c.p) with
      | none => .ok (v, c)
      | some op => do
          let (r, c) ← calcFactor turns c.next
          if op.divides = true ∧ r = 0 then
            return c.fail .division
          else
            let v ← op.apply v r
            calcTermLoop turns v c

/- `calc_expr`. -/
def calcExpr :
    (turns : Nat) → Calc → Except Fault (Int32 × Calc)
  | 0, _ => .error .turns
  | turns + 1, c => do
      let (v, c) ← calcTerm turns c
      calcExprLoop turns v c

/- The loop of `calc_expr`, with `v`. -/
def calcExprLoop :
    (turns : Nat) → Int32 → Calc →
      Except Fault (Int32 × Calc)
  | 0, _, _ => .error .turns
  | turns + 1, v, c =>
      let c := c.skipWs
      match exprOp (peek c.p) with
      | none => .ok (v, c)
      | some op => do
          let (r, c) ← calcTerm turns c.next
          let v ← op.apply v r
          calcExprLoop turns v c

end

--
-- Command
--

/- What `cmd_calc` prints. -/
inductive Report where
  | usage
  | divisionByZero
  | badExpression
  | value (text : List UInt8) (result : Int32)
  deriving DecidableEq

/- `sizeof(buf) - 2`. -/
def textMax : Nat := 158

/- The loop over the characters of an argument. -/
def copyArg :
    (buf s : List UInt8) → List UInt8
  | buf, [] => buf
  | buf, b :: s =>
      if buf.length < textMax then
        copyArg (buf ++ [b]) s
      else buf

/- The loop over the arguments, with what `buf` holds. -/
def joinArgs :
    (buf : List UInt8) → List CStr → List UInt8
  | buf, [] => buf
  | buf, arg :: args =>
      if buf.length < textMax then
        let buf := copyArg buf arg.bytes
        joinArgs
          (if args = [] then buf else buf ++ [ch ' ']) args
      else buf

/- What `cmd_calc` prints for a result. -/
def conclude
    (buf : List UInt8)
    (result : Int32)
    (c : Calc) : Report :=
  let c := c.skipWs
  if c.err = some .division then .divisionByZero
  else if c.err ≠ none ∨ peek c.p ≠ 0 then .badExpression
  else .value buf result

/- `cmd_calc`, for the arguments behind the command. -/
def cmdCalc
    (turns : Nat)
    (args : List CStr) : Except Fault Report :=
  if args = [] then
    .ok .usage
  else do
    let buf := joinArgs [] args
    let (result, c) ← calcExpr turns ⟨buf, none⟩
    return conclude buf result c

end KvantOS.Calculator
