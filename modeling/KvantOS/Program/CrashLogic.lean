import KvantOS.Program.Basic
import Mathlib.Order.Basic

/-
  This file gives programs a nondeterministic semantics and
  a crash Hoare logic for it.

  A handler relates a command and the state before it to the
  possible replies and states after it. `Prog.Steps` is
  partial execution, so the states it reaches are exactly
  the points at which a run can be cut. `Prog.Spec` is the
  matching assertion: every state on the way satisfies the
  crash condition, and every completed run the postcondition.

  `Explains` is what survives a history of crashes.

  Key theorems include:
    * `Prog.Spec.bind`, `Prog.Spec.consequence`
    * `Prog.Spec.run`
-/

--
-- Partial Execution
--

/-
  The possible replies to a command and states after it.
-/
abbrev Handler
    (C : Type)
    (R : C → Type)
    (S : Type) :=
  (command : C) → S → R command → S → Prop

namespace Prog

variable {C : Type} {R : C → Type} {α β S : Type}

/-
  `Steps H p s q t`: running `p` from `s` can get to the
  point where `q` is left to be run in state `t`.
-/
inductive Steps (H : Handler C R S) :
    Prog C R α → S → Prog C R α → S → Prop where
  | refl (program : Prog C R α) (state : S) :
      Steps H program state program state
  | step
      {command : C}
      {next : R command → Prog C R α}
      {state state' : S}
      {reply : R command}
      {program : Prog C R α}
      {final : S}
      (hCommand : H command state reply state')
      (hNext : Steps H (next reply) state' program final) :
      Steps H (.step command next) state program final

/- A completed run with its result. -/
def Returns
    (H : Handler C R S)
    (program : Prog C R α)
    (state : S)
    (value : α)
    (final : S) : Prop :=
  Steps H program state (.ret value) final

/- A state at which a run of the program can be cut. -/
def Passes
    (H : Handler C R S)
    (program : Prog C R α)
    (state final : S) : Prop :=
  ∃ rest, Steps H program state rest final

namespace Steps

variable {H : Handler C R S}

theorem trans
    {p q r : Prog C R α}
    {s t u : S}
    (hFirst : Steps H p s q t)
    (hSecond : Steps H q t r u) :
    Steps H p s r u := by
  induction hFirst with
  | refl program state => exact hSecond
  | step hCommand hNext ih =>
      exact .step hCommand (ih hSecond)

theorem bind
    {p q : Prog C R α}
    {s t : S}
    (hSteps : Steps H p s q t)
    (f : α → Prog C R β) :
    Steps H (p >>= f) s (q >>= f) t := by
  induction hSteps with
  | refl program state => exact .refl _ _
  | step hCommand hNext ih =>
      exact .step hCommand ih

/-
  A run of a sequence is inside the first part, or the first
  part has returned.
-/
theorem bind_cases
    {p : Prog C R α}
    {f : α → Prog C R β}
    {q : Prog C R β}
    {s t : S}
    (hSteps : Steps H (p >>= f) s q t) :
    (∃ command next,
      q = .step command (fun reply => next reply >>= f) ∧
        Steps H p s (.step command next) t) ∨
      ∃ a u, Steps H p s (.ret a) u ∧
        Steps H (f a) u q t := by
  induction p generalizing s with
  | ret value => exact .inr ⟨value, s, .refl _ _, hSteps⟩
  | step command next ih =>
      rw [step_bind] at hSteps
      cases hSteps with
      | refl => exact .inl ⟨command, next, rfl, .refl _ _⟩
      | step hCommand hNext =>
          rcases ih _ hNext with
            ⟨c, n, rfl, hRest⟩ | ⟨a, u, hRest, hLast⟩
          · exact .inl ⟨c, n, rfl, .step hCommand hRest⟩
          · exact .inr ⟨a, u, .step hCommand hRest, hLast⟩

/- A program that has returned goes nowhere. -/
theorem of_ret
    {a : α}
    {q : Prog C R α}
    {s t : S}
    (hSteps : Steps H (.ret a) s q t) :
    q = .ret a ∧ t = s := by
  cases hSteps with
  | refl => exact ⟨rfl, rfl⟩

/- What a program may issue bounds what is left of it. -/
theorem only
    {P : C → Prop}
    {p q : Prog C R α}
    {s t : S}
    (hSteps : Steps H p s q t)
    (hOnly : p.Only P) :
    q.Only P := by
  induction hSteps with
  | refl => exact hOnly
  | step hCommand hNext ih => exact ih (hOnly.2 _)

end Steps

theorem Returns.bind
    {H : Handler C R S}
    {p : Prog C R α}
    {f : α → Prog C R β}
    {s t u : S}
    {a : α}
    {b : β}
    (hFirst : Returns H p s a t)
    (hSecond : Returns H (f a) t b u) :
    Returns H (p >>= f) s b u :=
  (Steps.bind hFirst f).trans hSecond

end Prog

--
-- Crash Specifications
--

namespace Prog

variable {C : Type} {R : C → Type} {α β S : Type}

/-
  Every state the program passes through from `state`
  satisfies `crash`, and every completed run ends with a
  result and a state in `post`.
-/
def Spec
    (H : Handler C R S)
    (crash : S → Prop) :
    Prog C R α → (α → S → Prop) → S → Prop
  | .ret value, post, state =>
      crash state ∧ post value state
  | .step command next, post, state =>
      crash state ∧
        ∀ reply state', H command state reply state' →
          (next reply).Spec H crash post state'

variable {H : Handler C R S} {crash : S → Prop}

theorem spec_step
    {command : C}
    {next : R command → Prog C R α}
    {post : α → S → Prop}
    {state : S} :
    (Prog.step command next).Spec H crash post state ↔
      crash state ∧
        ∀ reply state', H command state reply state' →
          (next reply).Spec H crash post state' :=
  Iff.rfl

theorem Spec.crash_start
    {program : Prog C R α}
    {post : α → S → Prop}
    {state : S}
    (hSpec : program.Spec H crash post state) :
    crash state := by
  cases program with
  | ret value => exact hSpec.1
  | step command next => exact hSpec.1

/- Weaken the crash condition and the postcondition. -/
theorem Spec.consequence
    {crash' : S → Prop}
    {program : Prog C R α}
    {post post' : α → S → Prop}
    {state : S}
    (hSpec : program.Spec H crash post state)
    (hCrash : ∀ s, crash s → crash' s)
    (hPost : ∀ a s, crash s → post a s → post' a s) :
    program.Spec H crash' post' state := by
  induction program generalizing state with
  | ret value =>
      exact ⟨hCrash _ hSpec.1, hPost _ _ hSpec.1 hSpec.2⟩
  | step command next ih =>
      exact ⟨hCrash _ hSpec.1, fun reply state' hStep =>
        ih reply (hSpec.2 reply state' hStep)⟩

theorem Spec.post
    {program : Prog C R α}
    {post post' : α → S → Prop}
    {state : S}
    (hSpec : program.Spec H crash post state)
    (hPost : ∀ a s, post a s → post' a s) :
    program.Spec H crash post' state :=
  hSpec.consequence (fun _ h => h)
    (fun a s _ h => hPost a s h)

/- The sequencing rule. -/
theorem Spec.bind
    {program : Prog C R α}
    {f : α → Prog C R β}
    {post : β → S → Prop}
    {state : S}
    (hSpec : program.Spec H crash
      (fun a s => (f a).Spec H crash post s) state) :
    (program >>= f).Spec H crash post state := by
  induction program generalizing state with
  | ret value => exact hSpec.2
  | step command next ih =>
      exact ⟨hSpec.1, fun reply state' hStep =>
        ih reply (hSpec.2 reply state' hStep)⟩

/-
  The sequencing rule with an explicit intermediate
  assertion.
-/
theorem Spec.seq
    {program : Prog C R α}
    {f : α → Prog C R β}
    {mid : α → S → Prop}
    {post : β → S → Prop}
    {state : S}
    (hFirst : program.Spec H crash mid state)
    (hSecond : ∀ a s, mid a s →
      (f a).Spec H crash post s) :
    (program >>= f).Spec H crash post state :=
  (hFirst.post hSecond).bind

/- What a specification says of any partial run. -/
theorem Spec.steps
    {program rest : Prog C R α}
    {post : α → S → Prop}
    {state final : S}
    (hSpec : program.Spec H crash post state)
    (hSteps : Steps H program state rest final) :
    rest.Spec H crash post final := by
  induction hSteps with
  | refl program state => exact hSpec
  | step hCommand hNext ih =>
      exact ih (hSpec.2 _ _ hCommand)

theorem Spec.passes
    {program : Prog C R α}
    {post : α → S → Prop}
    {state final : S}
    (hSpec : program.Spec H crash post state)
    (hPasses : Passes H program state final) :
    crash final := by
  obtain ⟨rest, hSteps⟩ := hPasses
  exact (hSpec.steps hSteps).crash_start

theorem Spec.returns
    {program : Prog C R α}
    {post : α → S → Prop}
    {state final : S}
    {value : α}
    (hSpec : program.Spec H crash post state)
    (hReturns : Returns H program state value final) :
    post value final :=
  (hSpec.steps hReturns).2

/-
  An assertion kept by every command is kept by every
  program, at every point.
-/
theorem Spec.invariant
    (P : C → Prop)
    {I : S → Prop}
    (hKeep : ∀ command state reply state',
      P command → I state →
        H command state reply state' → I state')
    {program : Prog C R α}
    (hOnly : program.Only P)
    {state : S}
    (hState : I state) :
    program.Spec H I (fun _ _ => True) state := by
  induction program generalizing state with
  | ret value => exact ⟨hState, trivial⟩
  | step command next ih =>
      refine ⟨hState, fun reply state' hStep => ?_⟩
      exact ih reply (hOnly.2 reply)
        (hKeep _ _ _ _ hOnly.1 hState hStep)

end Prog

--
-- Deterministic Runs and Interpretation
--

namespace Prog

variable {C : Type} {R : C → Type}
variable {C' : Type} {R' : C' → Type} {α S S' : Type}

/- The handler of a deterministic environment. -/
def answering
    (answer : (command : C) → S → R command × S) :
    Handler C R S :=
  fun command state reply state' =>
    answer command state = (reply, state')

/- A deterministic run is a completed run. -/
theorem returns_run
    (answer : (command : C) → S → R command × S)
    (program : Prog C R α)
    (state : S) :
    Returns (answering answer) program state
      (program.run answer state).1
      (program.run answer state).2 := by
  induction program generalizing state with
  | ret value => exact .refl _ _
  | step command next ih =>
      exact .step (by rfl) (ih _ _)

/- Enlarging the handler keeps every partial run. -/
theorem Steps.mono
    {H H' : Handler C R S}
    (hHandler : ∀ c s r s', H c s r s' → H' c s r s')
    {p q : Prog C R α}
    {s t : S}
    (hSteps : Steps H p s q t) :
    Steps H' p s q t := by
  induction hSteps with
  | refl program state => exact .refl _ _
  | step hCommand hNext ih =>
      exact .step (hHandler _ _ _ _ hCommand) ih

/- A run with possible answers is a possible run. -/
theorem returns_possible
    {H : Handler C R S}
    {answer : (command : C) → S → R command × S}
    (hAnswer : ∀ c s, H c s (answer c s).1 (answer c s).2)
    (program : Prog C R α)
    (state : S) :
    Returns H program state (program.run answer state).1
      (program.run answer state).2 := by
  refine (returns_run answer program state).mono ?_
  intro c s r s' hEq
  have hPossible := hAnswer c s
  rw [hEq] at hPossible
  exact hPossible

/-
  What holds of all runs holds of the deterministic one, as
  long as its answers are among the possible ones.
-/
theorem Spec.run
    {H : Handler C R S}
    {crash : S → Prop}
    {answer : (command : C) → S → R command × S}
    (hAnswer : ∀ c s, H c s (answer c s).1 (answer c s).2)
    {program : Prog C R α}
    {post : α → S → Prop}
    {state : S}
    (hSpec : program.Spec H crash post state) :
    post (program.run answer state).1
      (program.run answer state).2 :=
  hSpec.returns (returns_possible hAnswer program state)

end Prog

--
-- Histories
--

/-
  What a history of calls says of what they change: a call
  had its effect or was lost, and one marked as done had it.
-/
inductive Explains
    {C F : Type}
    (effect : C → F → F → Prop) :
    List (C × Bool) → F → F → Prop where
  | nil
      {files : F} :
      Explains effect [] files files
  | done
      {h : List (C × Bool)}
      {c : C}
      {ok : Bool}
      {files files' files'' : F}
      (hBefore : Explains effect h files files')
      (hEffect : effect c files' files'') :
      Explains effect (h ++ [(c, ok)]) files files''
  | lost
      {h : List (C × Bool)}
      {c : C}
      {files files' : F}
      (hBefore : Explains effect h files files') :
      Explains effect (h ++ [(c, false)]) files files'
