import Mathlib.Logic.Function.Basic

/-
  This file defines programs that talk to an environment
  through typed commands: a program either returns or issues
  one command and continues with the reply it gets.

  The type is generic in the command signature, so that one
  program text can be run against a perfect environment,
  a faulty one, or a lower layer of the same system.

  Key definitions include:
    * `Prog`, `Prog.perform`, `Prog.run`
    * `Prog.interp`, `Prog.interpState`, `Prog.Only`
-/

--
-- Programs
--

/-
  A program over the commands `C`, where a command `c` is
  answered by a reply of type `R c`.
-/
inductive Prog
    (C : Type)
    (R : C → Type)
    (α : Type) : Type where
  | ret (value : α)
  | step (command : C) (next : R command → Prog C R α)

namespace Prog

variable {C : Type} {R : C → Type} {α β γ : Type}

/- Sequential composition. -/
protected def bind :
    Prog C R α → (α → Prog C R β) → Prog C R β
  | .ret value, f => f value
  | .step command next, f =>
      .step command (fun reply => (next reply).bind f)

instance : Monad (Prog C R) where
  pure := .ret
  bind := Prog.bind

/- The program that issues one command. -/
def perform (command : C) : Prog C R (R command) :=
  .step command .ret

@[simp]
theorem pure_eq (value : α) :
    (pure value : Prog C R α) = .ret value :=
  rfl

@[simp]
theorem ret_bind
    (value : α)
    (f : α → Prog C R β) :
    (Prog.ret value >>= f) = f value :=
  rfl

@[simp]
theorem step_bind
    (command : C)
    (next : R command → Prog C R α)
    (f : α → Prog C R β) :
    (Prog.step command next >>= f) =
      .step command (fun reply => next reply >>= f) :=
  rfl

theorem bind_ret
    (program : Prog C R α) :
    program >>= Prog.ret = program := by
  induction program with
  | ret value => rfl
  | step command next ih =>
      rw [step_bind]
      exact congrArg _ (funext ih)

theorem bind_bind
    (program : Prog C R α)
    (f : α → Prog C R β)
    (g : β → Prog C R γ) :
    (program >>= f) >>= g =
      program >>= fun value => f value >>= g := by
  induction program with
  | ret value => rfl
  | step command next ih =>
      simp only [step_bind]
      exact congrArg _ (funext ih)

instance : LawfulMonad (Prog C R) :=
  LawfulMonad.mk' _ bind_ret (fun _ _ => rfl) bind_bind

end Prog

--
-- Deterministic Execution
--

namespace Prog

variable {C : Type} {R : C → Type} {α β S : Type}

/-
  Run a program against an environment that answers every
  command from its own state.
-/
def run
    (answer : (command : C) → S → R command × S) :
    Prog C R α → S → α × S
  | .ret value, state => (value, state)
  | .step command next, state =>
      let reply := answer command state
      (next reply.1).run answer reply.2

@[simp]
theorem run_ret
    (answer : (command : C) → S → R command × S)
    (value : α)
    (state : S) :
    (Prog.ret value : Prog C R α).run answer state =
      (value, state) :=
  rfl

@[simp]
theorem run_step
    (answer : (command : C) → S → R command × S)
    (command : C)
    (next : R command → Prog C R α)
    (state : S) :
    (Prog.step command next).run answer state =
      (next (answer command state).1).run answer
        (answer command state).2 :=
  rfl

@[simp]
theorem run_bind
    (answer : (command : C) → S → R command × S)
    (program : Prog C R α)
    (f : α → Prog C R β)
    (state : S) :
    (program >>= f).run answer state =
      (f (program.run answer state).1).run answer
        (program.run answer state).2 := by
  induction program generalizing state with
  | ret value => rfl
  | step command next ih =>
      rw [step_bind, run_step, ih]
      rfl

end Prog

--
-- Interpretation in a Lower Layer
--

namespace Prog

variable {C : Type} {R : C → Type}
variable {C' : Type} {R' : C' → Type} {α β : Type}

/- Replace every command by a program of a lower layer. -/
def interp
    (handle : (command : C) → Prog C' R' (R command)) :
    Prog C R α → Prog C' R' α
  | .ret value => .ret value
  | .step command next =>
      handle command >>= fun reply =>
        (next reply).interp handle

@[simp]
theorem interp_ret
    (handle : (command : C) → Prog C' R' (R command))
    (value : α) :
    (Prog.ret value : Prog C R α).interp handle =
      .ret value :=
  rfl

@[simp]
theorem interp_step
    (handle : (command : C) → Prog C' R' (R command))
    (command : C)
    (next : R command → Prog C R α) :
    (Prog.step command next).interp handle =
      handle command >>= fun reply =>
        (next reply).interp handle :=
  rfl

@[simp]
theorem interp_bind
    (handle : (command : C) → Prog C' R' (R command))
    (program : Prog C R α)
    (f : α → Prog C R β) :
    (program >>= f).interp handle =
      program.interp handle >>= fun value =>
        (f value).interp handle := by
  induction program with
  | ret value => rfl
  | step command next ih =>
      simp only [step_bind, interp_step, bind_bind]
      exact congrArg _ (funext ih)

end Prog

namespace Prog

variable {C : Type} {R : C → Type}
variable {C' : Type} {R' : C' → Type} {α β S : Type}

/-
  Replace every command by a program of a lower layer that
  has a state of its own.
-/
def interpState
    (handle : (command : C) → S →
      Prog C' R' (R command × S)) :
    Prog C R α → S → Prog C' R' (α × S)
  | .ret value, state => .ret (value, state)
  | .step command next, state =>
      handle command state >>= fun out =>
        (next out.1).interpState handle out.2

end Prog

--
-- Command Discipline
--

namespace Prog

variable {C : Type} {R : C → Type} {α β : Type}

/-
  Every command the program can ever issue satisfies `P`,
  whatever the environment replies.
-/
def Only (P : C → Prop) : Prog C R α → Prop
  | .ret _ => True
  | .step command next =>
      P command ∧ ∀ reply, (next reply).Only P

@[simp]
theorem only_ret
    (P : C → Prop)
    (value : α) :
    (Prog.ret value : Prog C R α).Only P :=
  trivial

theorem Only.bind
    {P : C → Prop}
    {program : Prog C R α}
    {f : α → Prog C R β}
    (hProgram : program.Only P)
    (hNext : ∀ value, (f value).Only P) :
    (program >>= f).Only P := by
  induction program with
  | ret value => exact hNext value
  | step command next ih =>
      exact ⟨hProgram.1,
        fun reply => ih reply (hProgram.2 reply)⟩

end Prog
