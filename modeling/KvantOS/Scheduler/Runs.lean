import KvantOS.Scheduler.Steps

/-
  This file follows the scheduler through every sequence of
  calls.  Beside the scheduler it keeps what the calls have
  done to each task, which is known by a number of its own,
  since addresses may come back from the allocator.

  Key definitions include:
    * `World`, `Act`, `Allowed`, `act`, `Reach`
    * `Inv`, `Safe`

  Key theorems include:
    * `schedule_inv`, `reach_inv`, `scheduler_safe`
-/

namespace KvantOS.Scheduler

open KvantOS.Ring

--
-- Worlds
--

/-
  The tasks that were created and not freed, the number of
  each, how many there were, those that died, those that were
  freed, the wake tick of each that still has to sleep, and
  the stack each was given.
-/
structure World where
  sched : Sched
  live : List Nat
  number : Nat → Nat
  born : Nat
  died : List Nat
  freed : List Nat
  asleep : Nat → Option Nat
  stack : Nat → Nat

inductive Act where
  | create (t stack : Nat)
  | kill (id : Nat)
  | exit
  | sleep (ms hz : Nat)
  | advance (n : Nat)
  | schedule

/- A block in use: a task or the stack of one. -/
def World.InUse (w : World) (a : Nat) : Prop :=
  a ∈ w.live ∨ ∃ t ∈ w.live, (w.sched.mem t).stackBase = a

/-
  The allocator returns 0 or blocks that are not in use, and
  a task that has exited does not call `task_sleep`.
-/
def Allowed (w : World) : Act → Prop
  | .create t stack =>
      (t ≠ 0 → ¬w.InUse t) ∧
        (stack ≠ 0 → ¬w.InUse stack ∧ stack ≠ t)
  | .sleep _ _ =>
      (w.sched.mem w.sched.current).state ≠ .dead
  | _ => True

/- The scheduler goes on, and a task freed is gone. -/
def collect
    (w : World)
    (s : Sched) : Option Nat → World
  | none => { w with sched := s }
  | some t =>
      { w with
        sched := s
        live := w.live.erase t
        freed := w.number t :: w.freed }

/- The tasks whose wake tick has not come by a tick. -/
def stillAsleep
    (asleep : Nat → Option Nat)
    (ticks k : Nat) : Option Nat :=
  (asleep k).filter (fun tick => ticks < tick)

def act (w : World) : Act → World
  | .create t stack =>
      let r := taskCreate t stack w.sched
      if r.1 = 0 then
        { w with sched := r.2 }
      else
        { w with
          sched := r.2
          live := t :: w.live
          number := Function.update w.number t w.born
          born := w.born + 1
          asleep := Function.update w.asleep w.born none
          stack := Function.update w.stack w.born stack }
  | .kill id =>
      let r := taskKill id w.sched
      { w with
        sched := r.2
        died := w.died ++ (w.live.filter (fun t =>
          (r.2.mem t).state == .dead &&
            (w.sched.mem t).state != .dead)).map w.number }
  | .exit =>
      { w with
        sched := taskExit w.sched
        died := w.number w.sched.current :: w.died }
  | .sleep ms hz =>
      let s := taskSleep ms hz w.sched
      let tick := (s.mem s.current).wakeTick
      { w with
        sched := s
        asleep := Function.update w.asleep
          (w.number w.sched.current)
          (if s.ticks < tick then some tick else none) }
  | .advance n =>
      let ticks := (w.sched.ticks + n) % 2 ^ 64
      { w with
        sched := { w.sched with ticks := ticks }
        asleep := stillAsleep w.asleep ticks }
  | .schedule =>
      let r := schedule w.sched
      collect w r.2 r.1.freed

/- After `sched_init` there is the task of the kernel. -/
def start
    (mem : Nat → Task)
    (t ticks : Nat) : World where
  sched := schedInit mem t ticks
  live := [t]
  number := fun _ => 0
  born := 1
  died := []
  freed := []
  asleep := fun _ => none
  stack := fun _ => 0

inductive Reach : World → Prop where
  | start
      {mem : Nat → Task}
      {t ticks : Nat}
      (hBlock : t ≠ 0) :
      Reach (start mem t ticks)
  | act
      {w : World}
      {a : Act}
      (hReach : Reach w)
      (hAllowed : Allowed w a) :
      Reach (act w a)

--
-- The Invariant
--

/- What holds in every state. -/
structure Inv (w : World) : Prop where
  ring : ∃ rest,
    IsRing (nextOf w.sched) w.sched.current rest ∧
      ∀ t, t ∈ w.live ↔ t ∈ w.sched.current :: rest
  once : w.live.Nodup
  tasks : w.sched.tasks ∈ w.live
  nonzero : ∀ t ∈ w.live, t ≠ 0
  number : ∀ t ∈ w.live, w.number t < w.born
  apart : ∀ t ∈ w.live, ∀ t' ∈ w.live,
    w.number t = w.number t' → t = t'
  dead : ∀ t ∈ w.live,
    ((w.sched.mem t).state = .dead ↔ w.number t ∈ w.died)
  diedBorn : ∀ k ∈ w.died, k < w.born
  freedDied : ∀ k ∈ w.freed, k ∈ w.died
  freedOnce : w.freed.Nodup
  freedGone : ∀ t ∈ w.live, w.number t ∉ w.freed
  asleep : ∀ t ∈ w.live, ∀ tick,
    w.asleep (w.number t) = some tick →
      (w.sched.mem t).wakeTick = tick ∧
        w.sched.ticks < tick ∧
        (w.sched.mem t).state ≠ .ready
  stack : ∀ t ∈ w.live,
    (w.sched.mem t).stackBase = w.stack (w.number t)
  heldStacks : ∀ t ∈ w.live, (w.sched.mem t).stackBase ≠ 0 →
    (w.sched.mem t).stackBase ∉ w.live ∧
      ∀ t' ∈ w.live,
        (w.sched.mem t').stackBase =
          (w.sched.mem t).stackBase → t' = t

section Steps

variable {w : World}

theorem Inv.current_mem
    (hInv : Inv w) :
    w.sched.current ∈ w.live := by
  obtain ⟨rest, _, hMem⟩ := hInv.ring
  exact (hMem _).mpr List.mem_cons_self

theorem start_inv
    (mem : Nat → Task)
    {t : Nat}
    (ticks : Nat)
    (hBlock : t ≠ 0) :
    Inv (start mem t ticks) := by
  have hMem : (start mem t ticks).sched.mem t =
      { id := 0, state := .ready, wakeTick := 0,
        stackBase := 0, switches := 0, next := t } :=
    Function.update_self ..
  have hOnly : ∀ {a}, a ∈ (start mem t ticks).live → a = t :=
    fun hIn => List.mem_singleton.mp hIn
  exact
    { ring := ⟨[], ⟨congrArg Task.next hMem,
        List.nodup_singleton t⟩, fun _ => Iff.rfl⟩
      once := List.nodup_singleton t
      tasks := List.mem_singleton.mpr rfl
      nonzero := fun a hIn => hOnly hIn ▸ hBlock
      number := fun _ _ => Nat.zero_lt_one
      apart := fun a hA b hB _ =>
        (hOnly hA).trans (hOnly hB).symm
      dead := by
        intro a hIn
        rw [hOnly hIn, hMem]
        exact ⟨fun hBad => (by cases hBad), fun hBad =>
          absurd hBad List.not_mem_nil⟩
      diedBorn := fun _ hBad => absurd hBad List.not_mem_nil
      freedDied := fun _ hBad => absurd hBad List.not_mem_nil
      freedOnce := List.nodup_nil
      freedGone := fun _ _ => List.not_mem_nil
      asleep := fun _ _ _ hBad => by cases hBad
      stack := by
        intro a hIn
        rw [hOnly hIn, hMem]
        rfl
      heldStacks := by
        intro a hIn hBad
        rw [hOnly hIn, hMem] at hBad
        exact absurd rfl hBad }

variable {s : Sched}

/-
  A step that leaves the ring and the stacks alone, marks
  tasks of the ring and gives the turn to one of them.
-/
theorem Inv.change
    (died : List Nat)
    (asleep : Nat → Option Nat)
    (hInv : Inv w)
    (hNext : ∀ t, (s.mem t).next = (w.sched.mem t).next)
    (hStack : ∀ t,
      (s.mem t).stackBase = (w.sched.mem t).stackBase)
    (hCurrent : s.current ∈ w.live)
    (hTasks : s.tasks = w.sched.tasks)
    (hDead : ∀ t ∈ w.live,
      ((s.mem t).state = .dead ↔ w.number t ∈ died))
    (hDied : ∀ k ∈ w.died, k ∈ died)
    (hBorn : ∀ k ∈ died, k < w.born)
    (hAsleep : ∀ t ∈ w.live, ∀ tick,
      asleep (w.number t) = some tick →
        (s.mem t).wakeTick = tick ∧ s.ticks < tick ∧
          (s.mem t).state ≠ .ready) :
    Inv
      { w with sched := s, died := died, asleep := asleep } := by
  have hSame : nextOf s = nextOf w.sched := funext hNext
  obtain ⟨rest, hRing, hLive⟩ := hInv.ring
  exact
    { ring := by
        dsimp only
        rw [hSame]
        rcases List.mem_cons.mp ((hLive _).mp hCurrent) with
          hSelf | hOther
        · rw [hSelf]
          exact ⟨rest, hRing, hLive⟩
        · obtain ⟨xs, ys, rfl⟩ := List.append_of_mem hOther
          refine ⟨ys ++ w.sched.current :: xs, hRing.rotate, ?_⟩
          intro t
          rw [hLive t]
          simp only [List.mem_cons, List.mem_append]
          tauto
      once := hInv.once
      tasks := by
        dsimp only
        rw [hTasks]
        exact hInv.tasks
      nonzero := hInv.nonzero
      number := hInv.number
      apart := hInv.apart
      dead := hDead
      diedBorn := hBorn
      freedDied := fun k hIn => hDied k (hInv.freedDied k hIn)
      freedOnce := hInv.freedOnce
      freedGone := hInv.freedGone
      asleep := hAsleep
      stack := fun t hIn =>
        (hStack t).trans (hInv.stack t hIn)
      heldStacks := by
        intro t hIn hNonzero
        dsimp only at hNonzero ⊢
        simp only [hStack] at hNonzero ⊢
        exact hInv.heldStacks t hIn hNonzero }

/- One task is marked; its links and its stack stay. -/
theorem edit_kept
    {f : Task → Task}
    (s : Sched)
    (a : Nat)
    (hNext : ∀ t, (f t).next = t.next)
    (hStack : ∀ t, (f t).stackBase = t.stackBase)
    (t : Nat) :
    ((s.edit a f).mem t).next = (s.mem t).next ∧
      ((s.edit a f).mem t).stackBase =
        (s.mem t).stackBase := by
  by_cases hEq : t = a
  · subst hEq
    rw [edit_self]
    exact ⟨hNext _, hStack _⟩
  · rw [edit_ne hEq]
    exact ⟨rfl, rfl⟩

--
-- Schedule
--

/- Waking tasks whose tick has come. -/
theorem Inv.woken
    (hInv : Inv w)
    (hWoken : Woken w.sched s) :
    Inv { w with sched := s } := by
  have hFields : ∀ t,
      (s.mem t).stackBase = (w.sched.mem t).stackBase ∧
        (s.mem t).wakeTick = (w.sched.mem t).wakeTick ∧
        ((s.mem t).state = .dead ↔
          (w.sched.mem t).state = .dead) := by
    intro t
    rcases hWoken.mem t with hSame | ⟨hSleep, _, hReady⟩
    · rw [hSame]
      exact ⟨rfl, rfl, Iff.rfl⟩
    · rw [hReady, hSleep]
      exact ⟨rfl, rfl, by simp⟩
  refine hInv.change w.died w.asleep hWoken.next (fun t => (hFields t).1)
    (hWoken.current ▸ hInv.current_mem) hWoken.tasks
    (fun t hIn => (hFields t).2.2.trans (hInv.dead t hIn))
    (fun k hIn => hIn) hInv.diedBorn ?_
  intro t hIn tick hSome
  obtain ⟨hTick, hBefore, hState⟩ :=
    hInv.asleep t hIn tick hSome
  rw [(hFields t).2.1, hWoken.ticks]
  refine ⟨hTick, hBefore, ?_⟩
  rcases hWoken.mem t with hSame | ⟨_, hDue, _⟩
  · rw [hSame]
    exact hState
  · omega

/- Another task of the ring goes on. -/
theorem Inv.switch
    {next : Nat}
    (hInv : Inv w)
    (hNext : next ∈ w.live) :
    Inv { w with sched := switchTo next w.sched } := by
  have hTask : ∀ t,
      ((switchTo next w.sched).mem t).state =
          (w.sched.mem t).state ∧
        ((switchTo next w.sched).mem t).wakeTick =
          (w.sched.mem t).wakeTick := by
    intro t
    unfold switchTo
    by_cases hEq : t = next
    · subst hEq
      rw [edit_self]
      exact ⟨rfl, rfl⟩
    · rw [edit_ne hEq]
      exact ⟨rfl, rfl⟩
  have hKept := edit_kept { w.sched with current := next } next
    (f := fun t => { t with
      switches := (t.switches + 1) % 2 ^ 32 })
    (fun _ => rfl) (fun _ => rfl)
  refine hInv.change w.died w.asleep (fun t => (hKept t).1)
    (fun t => (hKept t).2) hNext rfl ?_ (fun k hIn => hIn)
    hInv.diedBorn ?_
  · intro t hIn
    rw [(hTask t).1]
    exact hInv.dead t hIn
  · intro t hIn tick hSome
    rw [(hTask t).1, (hTask t).2]
    exact hInv.asleep t hIn tick hSome

/- The task that the search finds may go on. -/
theorem Inv.picked
    (hInv : Inv w) :
    Inv { w with sched := (pickNext w.sched).2 } ∧
      (pickNext w.sched).2.current = w.sched.current ∧
      ∀ a, (pickNext w.sched).1 = some a →
        a ∈ w.live ∧ w.number a ∉ w.died ∧
          w.asleep (w.number a) = none := by
  obtain ⟨rest, hRing, hLive⟩ := hInv.ring
  obtain ⟨hWoken, hFound⟩ := pickNext_spec hRing
  have hPicked := hInv.woken hWoken
  refine ⟨hPicked, hWoken.current, ?_⟩
  intro a hSome
  obtain ⟨hMem, hReady⟩ := hFound a hSome
  have hIn : a ∈ w.live := (hLive a).mpr hMem
  refine ⟨hIn, ?_, ?_⟩
  · intro hDied
    have hState := (hPicked.dead a hIn).mpr hDied
    dsimp only at hState
    rw [hReady] at hState
    cases hState
  · cases hAsleep : w.asleep (w.number a) with
    | none => rfl
    | some tick =>
        exact absurd hReady
          (hPicked.asleep a hIn tick hAsleep).2.2

/- A dead task other than the current one is taken out. -/
theorem Inv.cutOut
    {xs ys : List Nat}
    {n : Nat}
    (hInv : Inv w)
    (hRing : IsRing (nextOf w.sched) w.sched.current
      (xs ++ n :: ys))
    (hLive : ∀ t, t ∈ w.live ↔
      t ∈ w.sched.current :: (xs ++ n :: ys))
    (hDead : (w.sched.mem n).state = .dead) :
    Inv
      { w with
        sched := Scheduler.cutOut w.sched
          ((w.sched.current :: xs).getLast
            (List.cons_ne_nil _ _)) n
        live := w.live.erase n
        freed := w.number n :: w.freed } := by
  have hCut := cutOut_ring hRing
  have hIn : n ∈ w.live := by
    rw [hLive n]
    simp
  have hNodup : (n :: (ys ++ w.sched.current :: xs)).Nodup :=
    hRing.rotate.nodup
  have hErase : ∀ {t}, t ∈ w.live.erase n →
      t ∈ w.live ∧ t ≠ n := by
    intro t hMem
    have hFacts := hInv.once.mem_erase_iff.mp hMem
    exact ⟨hFacts.2, hFacts.1⟩
  have hTask : ∀ t,
      ((Scheduler.cutOut w.sched
        ((w.sched.current :: xs).getLast
          (List.cons_ne_nil _ _)) n).mem t).state =
          (w.sched.mem t).state ∧
        ((Scheduler.cutOut w.sched
          ((w.sched.current :: xs).getLast
            (List.cons_ne_nil _ _)) n).mem t).wakeTick =
          (w.sched.mem t).wakeTick ∧
        ((Scheduler.cutOut w.sched
          ((w.sched.current :: xs).getLast
            (List.cons_ne_nil _ _)) n).mem t).stackBase =
          (w.sched.mem t).stackBase := by
    intro t
    unfold Scheduler.cutOut
    dsimp only
    by_cases hEq : t = (w.sched.current :: xs).getLast
        (List.cons_ne_nil _ _)
    · rw [hEq, edit_self]
      exact ⟨rfl, rfl, rfl⟩
    · rw [edit_ne hEq]
      exact ⟨rfl, rfl, rfl⟩
  have hLeft : ∀ t, t ∈ w.live.erase n ↔
      t ∈ w.sched.current :: (xs ++ ys) := by
    intro t
    rw [hInv.once.mem_erase_iff, hLive t]
    have hNot := (List.nodup_cons.mp hNodup).1
    simp only [List.mem_cons, List.mem_append, not_or]
      at hNot ⊢
    constructor
    · rintro ⟨hNe, hMem⟩
      tauto
    · intro hMem
      refine ⟨?_, by tauto⟩
      rintro rfl
      tauto
  exact
    { ring := ⟨xs ++ ys, hCut, hLeft⟩
      once := hInv.once.erase n
      tasks := by
        unfold Scheduler.cutOut
        dsimp only
        have hTaskIn := hInv.tasks
        split
        · have hNextIn := hRing.rotate.next_mem
            List.mem_cons_self
          rw [hLeft]
          have hNe : nextOf w.sched n ≠ n := by
            intro hSelf
            have hPath := hRing.rotate.path
            cases hYs : ys ++ w.sched.current :: xs with
            | nil => simp at hYs
            | cons y zs =>
                rw [hYs] at hPath hNodup
                have hY : nextOf w.sched n = y := hPath.1
                rw [hSelf] at hY
                rw [hY] at hNodup
                exact (List.nodup_cons.mp hNodup).1
                  List.mem_cons_self
          have hGoal : nextOf w.sched n ∈
              w.sched.current :: (xs ++ ys) := by
            simp only [List.mem_cons, List.mem_append]
              at hNextIn ⊢
            tauto
          exact hGoal
        · rename_i hOther
          exact hInv.once.mem_erase_iff.mpr
            ⟨hOther, hTaskIn⟩
      nonzero := fun t hMem =>
        hInv.nonzero t (hErase hMem).1
      number := fun t hMem => hInv.number t (hErase hMem).1
      apart := fun t hMem t' hMem' =>
        hInv.apart t (hErase hMem).1 t' (hErase hMem').1
      dead := by
        intro t hMem
        dsimp only
        rw [(hTask t).1]
        exact hInv.dead t (hErase hMem).1
      diedBorn := hInv.diedBorn
      freedDied := by
        intro k hMem
        rcases List.mem_cons.mp hMem with rfl | hOld
        · exact (hInv.dead n hIn).mp hDead
        · exact hInv.freedDied k hOld
      freedOnce := List.nodup_cons.mpr
        ⟨hInv.freedGone n hIn, hInv.freedOnce⟩
      freedGone := by
        intro t hMem hFreed
        obtain ⟨hOld, hNe⟩ := hErase hMem
        rcases List.mem_cons.mp hFreed with hEq | hBefore
        · exact hNe (hInv.apart t hOld n hIn hEq)
        · exact hInv.freedGone t hOld hBefore
      asleep := by
        intro t hMem tick hSome
        dsimp only
        rw [(hTask t).1, (hTask t).2.1]
        exact hInv.asleep t (hErase hMem).1 tick hSome
      stack := by
        intro t hMem
        dsimp only
        rw [(hTask t).2.2]
        exact hInv.stack t (hErase hMem).1
      heldStacks := by
        intro t hMem hNonzero
        dsimp only at hNonzero ⊢
        simp only [(hTask _).2.2] at hNonzero ⊢
        obtain ⟨hOut, hOnly⟩ :=
          hInv.heldStacks t (hErase hMem).1 hNonzero
        exact ⟨fun hBad => hOut (hErase hBad).1,
          fun t' hMem' => hOnly t' (hErase hMem').1⟩ }

/- The reaper frees a dead task of the ring, or none. -/
theorem reapOne_inv
    (hInv : Inv w) :
    Inv (collect w (reapOne w.sched).2 (reapOne w.sched).1) ∧
      (reapOne w.sched).2.current = w.sched.current ∧
      ∀ n, (reapOne w.sched).1 = some n →
        n ∈ w.live ∧ n ≠ w.sched.current ∧
          w.number n ∈ w.died := by
  obtain ⟨rest, hRing, hLive⟩ := hInv.ring
  rcases reapOne_spec hRing with
    hNone | ⟨xs, n, ys, hRest, hDead, hSome⟩
  · rw [hNone]
    exact ⟨hInv, rfl, fun n hBad => by cases hBad⟩
  · subst hRest
    rw [hSome]
    refine ⟨hInv.cutOut hRing hLive hDead, rfl, ?_⟩
    intro n' hEq
    cases hEq
    have hIn : n ∈ w.live := by
      rw [hLive n]
      simp
    refine ⟨hIn, ?_, (hInv.dead n hIn).mp hDead⟩
    rintro rfl
    have hNodup := (List.nodup_cons.mp hRing.nodup).1
    simp at hNodup

/- The reaper, the search, and the switch if there is one. -/
theorem schedule_cases (s : Sched) :
    schedule s =
        (⟨(reapOne s).1, none⟩,
          (pickNext (reapOne s).2).2) ∨
      ∃ next,
        (pickNext (reapOne s).2).1 = some next ∧
        schedule s =
          (⟨(reapOne s).1, some next⟩,
            switchTo next (pickNext (reapOne s).2).2) := by
  unfold schedule
  dsimp only
  cases hPick : (pickNext (reapOne s).2).1 with
  | none => exact Or.inl rfl
  | some next =>
      dsimp only
      split
      · exact Or.inl rfl
      · exact Or.inr ⟨next, rfl, rfl⟩

/- What one call of `schedule` frees and switches to. -/
structure Proper (w : World) : Prop where
  freed : ∀ n, (schedule w.sched).1.freed = some n →
    n ∈ w.live ∧ n ≠ w.sched.current ∧
      n ≠ (schedule w.sched).2.current ∧
      w.number n ∈ w.died ∧ w.number n ∉ w.freed ∧
      (w.sched.mem n).stackBase = w.stack (w.number n)
  target : ∀ t, (schedule w.sched).1.target = some t →
    t = (schedule w.sched).2.current ∧ t ∈ w.live ∧
      w.number t ∉ w.died ∧ w.asleep (w.number t) = none
  stays : (schedule w.sched).1.target = none →
    (schedule w.sched).2.current = w.sched.current

/- Collecting changes the list of tasks only. -/
theorem collect_fields
    (w : World)
    (s : Sched)
    (freed : Option Nat) :
    (collect w s freed).sched = s ∧
      (collect w s freed).number = w.number ∧
      (collect w s freed).died = w.died ∧
      (collect w s freed).asleep = w.asleep ∧
      (∀ t, t ∈ (collect w s freed).live → t ∈ w.live) ∧
      ∀ s', { collect w s freed with sched := s' } =
        collect w s' freed := by
  cases freed with
  | none => exact ⟨rfl, rfl, rfl, rfl, fun _ hIn => hIn,
      fun _ => rfl⟩
  | some n => exact ⟨rfl, rfl, rfl, rfl,
      fun _ hIn => List.mem_of_mem_erase hIn, fun _ => rfl⟩

theorem schedule_inv
    (hInv : Inv w) :
    Inv (act w .schedule) ∧ Proper w := by
  obtain ⟨hReaped, hCurrent, hFreed⟩ := reapOne_inv hInv
  obtain ⟨hSched, hNumber, hDied, hAsleep, hSub, hWith⟩ :=
    collect_fields w (reapOne w.sched).2 (reapOne w.sched).1
  have hStill := hReaped.current_mem
  obtain ⟨hPicked, hPickedCurrent, hFound⟩ := hReaped.picked
  rw [hSched] at hPicked hPickedCurrent hFound hStill
  rw [hNumber, hDied, hAsleep] at hFound
  rw [hCurrent] at hStill
  -- A freed task is a dead one that does not run.
  have hProper : ∀ n, (reapOne w.sched).1 = some n →
      ∀ c, c ∈ (collect w (reapOne w.sched).2
        (reapOne w.sched).1).live →
      n ∈ w.live ∧ n ≠ w.sched.current ∧ n ≠ c ∧
        w.number n ∈ w.died ∧ w.number n ∉ w.freed ∧
        (w.sched.mem n).stackBase = w.stack (w.number n) := by
    intro n hSome c hMem
    obtain ⟨hIn, hNe, hGone⟩ := hFreed n hSome
    refine ⟨hIn, hNe, ?_, hGone, hInv.freedGone n hIn,
      hInv.stack n hIn⟩
    rintro rfl
    rw [hSome] at hMem
    exact (hInv.once.mem_erase_iff.mp hMem).1 rfl
  rcases schedule_cases w.sched with
    hStays | ⟨next, hPick, hSwitch⟩
  · refine ⟨?_, ⟨?_, ?_, ?_⟩⟩
    · unfold act
      rw [hStays]
      dsimp only
      rw [← hWith]
      exact hPicked
    · intro n hSome
      rw [hStays] at hSome ⊢
      exact hProper n hSome _ (by
        rw [hPickedCurrent, hCurrent]
        exact hStill)
    · intro t hSome
      rw [hStays] at hSome
      cases hSome
    · intro _
      rw [hStays]
      exact hPickedCurrent.trans hCurrent
  · obtain ⟨hIn, hAlive, hAwake⟩ := hFound next hPick
    refine ⟨?_, ⟨?_, ?_, ?_⟩⟩
    · unfold act
      rw [hSwitch]
      dsimp only
      rw [← hWith]
      exact hPicked.switch hIn
    · intro n hSome
      rw [hSwitch] at hSome ⊢
      exact hProper n hSome _ hIn
    · intro t hSome
      rw [hSwitch] at hSome ⊢
      cases hSome
      exact ⟨rfl, hSub next hIn, hAlive, hAwake⟩
    · intro hNone
      rw [hSwitch] at hNone
      cases hNone

--
-- The Other Calls
--

theorem edit_current
    (s : Sched)
    (f : Task → Task) :
    (s.edit s.current f).mem (s.edit s.current f).current =
      f (s.mem s.current) :=
  edit_self

theorem exit_inv
    (hInv : Inv w) :
    Inv (act w .exit) := by
  have hCurrent := hInv.current_mem
  have hKept := edit_kept (f := fun t =>
    { t with state := .dead }) w.sched w.sched.current
    (fun _ => rfl) (fun _ => rfl)
  refine hInv.change _ w.asleep
    (fun t => (hKept t).1)
    (fun t => (hKept t).2) hCurrent rfl ?_
    (fun k hIn => List.mem_cons_of_mem _ hIn) ?_ ?_
  · intro t hIn
    unfold taskExit
    by_cases hEq : t = w.sched.current
    · subst hEq
      rw [edit_self]
      simp
    · rw [edit_ne hEq, hInv.dead t hIn, List.mem_cons]
      have hNe : w.number t ≠ w.number w.sched.current :=
        fun hSame => hEq (hInv.apart t hIn _ hCurrent hSame)
      simp [hNe]
  · intro k hIn
    rcases List.mem_cons.mp hIn with rfl | hOld
    · exact hInv.number _ hCurrent
    · exact hInv.diedBorn k hOld
  · intro t hIn tick hSome
    obtain ⟨hTick, hBefore, hState⟩ :=
      hInv.asleep t hIn tick hSome
    unfold taskExit
    by_cases hEq : t = w.sched.current
    · subst hEq
      rw [edit_self]
      exact ⟨hTick, hBefore, by simp⟩
    · rw [edit_ne hEq]
      exact ⟨hTick, hBefore, hState⟩

theorem sleep_inv
    (ms hz : Nat)
    (hInv : Inv w)
    (hAlive :
      (w.sched.mem w.sched.current).state ≠ .dead) :
    Inv (act w (.sleep ms hz)) := by
  have hCurrent := hInv.current_mem
  have hKept := edit_kept (f := fun t =>
    { t with
      state := .sleeping
      wakeTick :=
        (w.sched.ticks + delayOf ms hz) % 2 ^ 64 })
    w.sched w.sched.current
    (fun _ => rfl) (fun _ => rfl)
  refine hInv.change w.died _
    (fun t => (hKept t).1)
    (fun t => (hKept t).2) hCurrent rfl ?_
    (fun k hIn => hIn) hInv.diedBorn ?_
  · intro t hIn
    unfold taskSleep
    by_cases hEq : t = w.sched.current
    · subst hEq
      rw [edit_self, ← hInv.dead _ hIn]
      simp [hAlive]
    · rw [edit_ne hEq]
      exact hInv.dead t hIn
  · intro t hIn tick hSome
    unfold taskSleep at hSome ⊢
    by_cases hEq : t = w.sched.current
    · subst hEq
      rw [Function.update_self] at hSome
      split at hSome
      · rename_i hLater
        cases hSome
        have hMarked := fun f => edit_current w.sched f
        rw [hMarked] at hLater ⊢
        rw [edit_self]
        exact ⟨rfl, hLater, by simp⟩
      · cases hSome
    · have hNe : w.number t ≠ w.number w.sched.current :=
        fun hSame => hEq (hInv.apart t hIn _ hCurrent hSame)
      rw [Function.update_of_ne hNe] at hSome
      rw [edit_ne hEq]
      exact hInv.asleep t hIn tick hSome

theorem advance_inv
    (n : Nat)
    (hInv : Inv w) :
    Inv (act w (.advance n)) := by
  refine hInv.change w.died _
    (fun _ => rfl) (fun _ => rfl) hInv.current_mem rfl
    hInv.dead (fun k hIn => hIn) hInv.diedBorn ?_
  intro t hIn tick hSome
  unfold stillAsleep at hSome
  rw [Option.filter_eq_some_iff] at hSome
  obtain ⟨hBefore, hLater⟩ := hSome
  obtain ⟨hTick, _, hState⟩ := hInv.asleep t hIn tick hBefore
  exact ⟨hTick, of_decide_eq_true hLater, hState⟩

/- A call of `task_kill` ends one task at most. -/
theorem kill_inv
    (id : Nat)
    (hInv : Inv w) :
    Inv (act w (.kill id)) := by
  obtain ⟨rest, hRing, hLive⟩ := hInv.ring
  obtain ⟨s, hAfter⟩ : ∃ s, (taskKill id w.sched).2 = s :=
    ⟨_, rfl⟩
  have hCase := @killFrom_spec w.sched id 256
    w.sched.current w.sched.current rest hRing
    List.mem_cons_self
  have hCall : (killFrom id 256 w.sched.current w.sched).2 =
      s := hAfter
  rw [hCall] at hCase
  -- Links, stacks and wake ticks stay; the dead stay dead.
  have hKept : ∀ t, (s.mem t).next = (w.sched.mem t).next ∧
      (s.mem t).stackBase = (w.sched.mem t).stackBase ∧
      (s.mem t).wakeTick = (w.sched.mem t).wakeTick ∧
      ((s.mem t).state = (w.sched.mem t).state ∨
        (s.mem t).state = .dead) := by
    intro t
    rcases hCase with hSame | ⟨a, _, _, _, hEdit⟩
    · rw [hSame]
      exact ⟨rfl, rfl, rfl, Or.inl rfl⟩
    · rw [hEdit]
      by_cases hEq : t = a
      · subst hEq
        rw [edit_self]
        exact ⟨rfl, rfl, rfl, Or.inr rfl⟩
      · rw [edit_ne hEq]
        exact ⟨rfl, rfl, rfl, Or.inl rfl⟩
  have hFields : s.current = w.sched.current ∧
      s.tasks = w.sched.tasks ∧ s.ticks = w.sched.ticks := by
    rcases hCase with hSame | ⟨a, _, _, _, hEdit⟩
    · rw [hSame]
      exact ⟨rfl, rfl, rfl⟩
    · rw [hEdit]
      exact ⟨rfl, rfl, rfl⟩
  have hNew : ∀ k, k ∈ (w.live.filter (fun t =>
      (s.mem t).state == .dead &&
        (w.sched.mem t).state != .dead)).map w.number ↔
      ∃ t ∈ w.live, (s.mem t).state = .dead ∧
        (w.sched.mem t).state ≠ .dead ∧ w.number t = k := by
    intro k
    simp only [List.mem_map, List.mem_filter,
      Bool.and_eq_true, beq_iff_eq, bne_iff_ne, and_assoc]
  unfold act
  dsimp only
  rw [hAfter]
  refine hInv.change _ w.asleep (fun t => (hKept t).1)
    (fun t => (hKept t).2.1)
    (hFields.1 ▸ hInv.current_mem) hFields.2.1 ?_
    (fun k hIn => List.mem_append_left _ hIn) ?_ ?_
  · intro t hIn
    rw [List.mem_append, hNew, ← hInv.dead t hIn]
    constructor
    · intro hDead
      by_cases hBefore : (w.sched.mem t).state = .dead
      · exact Or.inl hBefore
      · exact Or.inr ⟨t, hIn, hDead, hBefore, rfl⟩
    · rintro (hBefore | ⟨t', hIn', hDead, _, hEq⟩)
      · rcases (hKept t).2.2.2 with hSame | hDead
        · rw [hSame]
          exact hBefore
        · exact hDead
      · rw [← hInv.apart t' hIn' t hIn hEq]
        exact hDead
  · intro k hIn
    rcases List.mem_append.mp hIn with hOld | hAdded
    · exact hInv.diedBorn k hOld
    · obtain ⟨t, hMem, _, _, rfl⟩ := (hNew k).mp hAdded
      exact hInv.number t hMem
  · intro t hIn tick hSome
    obtain ⟨hTick, hBefore, hState⟩ :=
      hInv.asleep t hIn tick hSome
    rw [(hKept t).2.2.1, hFields.2.2]
    refine ⟨hTick, hBefore, ?_⟩
    rcases (hKept t).2.2.2 with hSame | hDead
    · rw [hSame]
      exact hState
    · rw [hDead]
      decide

/- A task was made behind the current one. -/
structure Created
    (s s' : Sched)
    (t stack : Nat) : Prop where
  newTask : s'.mem t =
    { id := s.nextId, state := .ready, wakeTick := 0,
      stackBase := stack, switches := 0,
      next := (s.mem s.current).next }
  head : s'.mem s.current =
    { s.mem s.current with next := t }
  other : ∀ a, a ≠ t → a ≠ s.current → s'.mem a = s.mem a
  current : s'.current = s.current
  tasks : s'.tasks = s.tasks
  ticks : s'.ticks = s.ticks

variable {t stack : Nat}

theorem taskCreate_created
    (hTask : t ≠ 0)
    (hStack : stack ≠ 0)
    (hNe : t ≠ s.current) :
    (taskCreate t stack s).1 = t ∧
      Created s (taskCreate t stack s).2 t stack := by
  unfold taskCreate
  simp only [if_neg hTask, if_neg hStack]
  refine ⟨trivial, ?_, ?_, ?_, rfl, rfl, rfl⟩
  · rw [edit_ne hNe]
    exact Function.update_self ..
  · rw [edit_self]
    dsimp only
    rw [Function.update_of_ne hNe.symm]
  · intro a hA hC
    rw [edit_ne hC]
    exact Function.update_of_ne hA _ _

/- The other tasks keep all but their places. -/
theorem Created.same
    {s s' : Sched}
    {t stack : Nat}
    (hMade : Created s s' t stack)
    {a : Nat}
    (hA : a ≠ t) :
    (s'.mem a).state = (s.mem a).state ∧
      (s'.mem a).wakeTick = (s.mem a).wakeTick ∧
      (s'.mem a).stackBase = (s.mem a).stackBase := by
  by_cases hC : a = s.current
  · rw [hC, hMade.head]
    exact ⟨rfl, rfl, rfl⟩
  · rw [hMade.other a hA hC]
    exact ⟨rfl, rfl, rfl⟩

theorem Created.ring
    {s s' : Sched}
    (hMade : Created s s' t stack)
    {rest : List Nat}
    (hRing : IsRing (nextOf s) s.current rest)
    (hNew : t ∉ s.current :: rest) :
    IsRing (nextOf s') s.current (t :: rest) := by
  have hNext : nextOf s' t = nextOf s s.current := by
    unfold nextOf
    rw [hMade.newTask]
  refine hRing.insert hNew hNext
    (congrArg Task.next hMade.head) fun x hIn => ?_
  refine congrArg Task.next (hMade.other x ?_ ?_)
  · exact fun hEq => hNew (hEq ▸ List.mem_cons_of_mem _ hIn)
  · exact fun hEq => (List.nodup_cons.mp hRing.nodup).1
      (hEq ▸ hIn)

/- A new task is put behind the current one. -/
theorem create_inv
    (hInv : Inv w)
    (hAllowed : Allowed w (.create t stack)) :
    Inv (act w (.create t stack)) := by
  by_cases hTask : t = 0
  · unfold act taskCreate
    simp only [hTask, if_true]
    exact hInv
  by_cases hStack : stack = 0
  · unfold act taskCreate
    simp only [if_neg hTask, hStack, if_true]
    exact hInv.change w.died w.asleep
      (fun _ => rfl) (fun _ => rfl)
      hInv.current_mem rfl hInv.dead (fun _ hIn => hIn)
      hInv.diedBorn hInv.asleep
  have hFresh := hAllowed.1 hTask
  obtain ⟨hFreshStack, hApart⟩ := hAllowed.2 hStack
  have hNotLive : t ∉ w.live := fun hIn => hFresh (Or.inl hIn)
  have hCurrent := hInv.current_mem
  have hNe : t ≠ w.sched.current :=
    fun hEq => hNotLive (hEq ▸ hCurrent)
  obtain ⟨hFst, hMade⟩ :=
    taskCreate_created hTask hStack hNe
  obtain ⟨r, hResult⟩ : ∃ r, taskCreate t stack w.sched = r :=
    ⟨_, rfl⟩
  rw [hResult] at hFst hMade
  obtain ⟨rest, hRing, hLive⟩ := hInv.ring
  have hNewRing := hMade.ring hRing
    (fun hIn => hNotLive ((hLive t).mpr hIn))
  have hSame := fun a => @Created.same _ _ _ _ hMade a
  -- A task of the new list is the new one or an old one.
  have hOld : ∀ {a}, a ∈ w.live → a ≠ t :=
    fun hIn hEq => hNotLive (hEq ▸ hIn)
  have hNumber : ∀ {a}, a ∈ w.live →
      Function.update w.number t w.born a = w.number a :=
    fun hIn => Function.update_of_ne (hOld hIn) _ _
  have hSelf : Function.update w.number t w.born t = w.born :=
    Function.update_self ..
  have hLater : ∀ {a}, a ∈ w.live → w.number a ≠ w.born :=
    fun hIn => Nat.ne_of_lt (hInv.number _ hIn)
  unfold act
  dsimp only
  rw [hResult, if_neg (hFst.symm ▸ hTask)]
  exact
    { ring := by
        refine ⟨t :: rest, ?_⟩
        dsimp only
        rw [hMade.current]
        refine ⟨hNewRing, ?_⟩
        intro a
        rw [List.mem_cons, hLive a]
        simp only [List.mem_cons]
        tauto
      once := List.nodup_cons.mpr ⟨hNotLive, hInv.once⟩
      tasks := by
        dsimp only
        rw [hMade.tasks]
        exact List.mem_cons_of_mem t hInv.tasks
      nonzero := by
        intro a hIn
        rcases List.mem_cons.mp hIn with rfl | hMem
        · exact hTask
        · exact hInv.nonzero a hMem
      number := by
        intro a hIn
        dsimp only
        rcases List.mem_cons.mp hIn with rfl | hMem
        · rw [hSelf]
          exact Nat.lt_succ_self _
        · rw [hNumber hMem]
          exact Nat.lt_succ_of_lt (hInv.number a hMem)
      apart := by
        intro a hIn b hIn' hEq
        dsimp only at hEq
        rcases List.mem_cons.mp hIn with rfl | hMem
        · rcases List.mem_cons.mp hIn' with rfl | hMem'
          · rfl
          · rw [hSelf, hNumber hMem'] at hEq
            exact absurd hEq.symm (hLater hMem')
        · rcases List.mem_cons.mp hIn' with rfl | hMem'
          · rw [hSelf, hNumber hMem] at hEq
            exact absurd hEq (hLater hMem)
          · rw [hNumber hMem, hNumber hMem'] at hEq
            exact hInv.apart a hMem b hMem' hEq
      dead := by
        intro a hIn
        dsimp only
        rcases List.mem_cons.mp hIn with rfl | hMem
        · rw [hMade.newTask, hSelf]
          exact ⟨fun hBad => (by cases hBad), fun hBad =>
            absurd (hInv.diedBorn _ hBad)
              (Nat.lt_irrefl _)⟩
        · rw [(hSame a (hOld hMem)).1, hNumber hMem]
          exact hInv.dead a hMem
      diedBorn := fun k hIn =>
        Nat.lt_succ_of_lt (hInv.diedBorn k hIn)
      freedDied := hInv.freedDied
      freedOnce := hInv.freedOnce
      freedGone := by
        intro a hIn
        dsimp only
        rcases List.mem_cons.mp hIn with rfl | hMem
        · rw [hSelf]
          intro hBad
          exact absurd (hInv.diedBorn _
            (hInv.freedDied _ hBad)) (Nat.lt_irrefl _)
        · rw [hNumber hMem]
          exact hInv.freedGone a hMem
      asleep := by
        intro a hIn tick hSome
        dsimp only at hSome ⊢
        rcases List.mem_cons.mp hIn with rfl | hMem
        · rw [hSelf, Function.update_self] at hSome
          cases hSome
        · rw [hNumber hMem,
            Function.update_of_ne (hLater hMem)] at hSome
          rw [(hSame a (hOld hMem)).1,
            (hSame a (hOld hMem)).2.1, hMade.ticks]
          exact hInv.asleep a hMem tick hSome
      stack := by
        intro a hIn
        dsimp only
        rcases List.mem_cons.mp hIn with rfl | hMem
        · rw [hMade.newTask, hSelf, Function.update_self]
        · rw [(hSame a (hOld hMem)).2.2, hNumber hMem,
            Function.update_of_ne (hLater hMem)]
          exact hInv.stack a hMem
      heldStacks := by
        intro a hIn hNonzero
        dsimp only at hNonzero ⊢
        rcases List.mem_cons.mp hIn with rfl | hMem
        · rw [hMade.newTask] at hNonzero ⊢
          dsimp only
          refine ⟨?_, ?_⟩
          · rw [List.mem_cons, not_or]
            exact ⟨hApart, fun hBad =>
              hFreshStack (Or.inl hBad)⟩
          · intro b hIn' hEq
            rcases List.mem_cons.mp hIn' with rfl | hMem'
            · rfl
            · rw [(hSame b (hOld hMem')).2.2] at hEq
              exact absurd (Or.inr ⟨b, hMem', hEq⟩)
                hFreshStack
        · rw [(hSame a (hOld hMem)).2.2] at hNonzero ⊢
          obtain ⟨hOut, hOnly⟩ :=
            hInv.heldStacks a hMem hNonzero
          refine ⟨?_, ?_⟩
          · rw [List.mem_cons, not_or]
            exact ⟨fun hEq =>
              hFresh (Or.inr ⟨a, hMem, hEq⟩), hOut⟩
          · intro b hIn' hEq
            rcases List.mem_cons.mp hIn' with rfl | hMem'
            · rw [hMade.newTask] at hEq
              exact absurd (Or.inr ⟨a, hMem, hEq.symm⟩)
                hFreshStack
            · rw [(hSame b (hOld hMem')).2.2] at hEq
              exact hOnly b hMem' hEq }

end Steps

--
-- Every Run
--

theorem reach_inv
    {w : World}
    (hReach : Reach w) :
    Inv w := by
  induction hReach with
  | start hBlock => exact start_inv _ _ hBlock
  | @act w a hReach hAllowed ih =>
      cases a with
      | create t stack => exact create_inv ih hAllowed
      | kill id => exact kill_inv id ih
      | exit => exact exit_inv ih
      | sleep ms hz => exact sleep_inv ms hz ih hAllowed
      | advance n => exact advance_inv n ih
      | schedule => exact (schedule_inv ih).1

/-
  In every state the successors form one ring of the current
  task and all others that were created and not freed, each
  once.  Tasks are freed once and after their death, with
  their own stack, and `schedule` frees no task that runs and
  switches to none that is dead or has to sleep.
-/
structure Safe (w : World) : Prop where
  ring : ∃ rest,
    IsRing (nextOf w.sched) w.sched.current rest ∧
      ∀ t, t ∈ w.live ↔ t ∈ w.sched.current :: rest
  once : w.live.Nodup
  tasks : w.sched.tasks ∈ w.live
  current : w.sched.current ∈ w.live
  freedDied : ∀ k ∈ w.freed, k ∈ w.died
  freedOnce : w.freed.Nodup
  heldStacks : ∀ t ∈ w.live, (w.sched.mem t).stackBase ≠ 0 →
    (w.sched.mem t).stackBase ∉ w.live ∧
      ∀ t' ∈ w.live,
        (w.sched.mem t').stackBase =
          (w.sched.mem t).stackBase → t' = t
  schedule : Proper w

theorem scheduler_safe
    {w : World}
    (hReach : Reach w) :
    Safe w := by
  have hInv := reach_inv hReach
  exact
    { ring := hInv.ring
      once := hInv.once
      tasks := hInv.tasks
      current := hInv.current_mem
      freedDied := hInv.freedDied
      freedOnce := hInv.freedOnce
      heldStacks := hInv.heldStacks
      schedule := (schedule_inv hInv).2 }

/- A task is created, sleeps, and the kernel goes on. -/
theorem scheduler_safe_two :
    Safe (act (act (start
      (fun _ => ⟨0, .ready, 0, 0, 0, 0⟩) 8 0)
      (.create 16 64)) .schedule) ∧
      (act (act (start
        (fun _ => ⟨0, .ready, 0, 0, 0, 0⟩) 8 0)
        (.create 16 64)) .schedule).sched.current = 16 :=
  ⟨scheduler_safe (.act (a := .schedule)
    (.act (a := .create 16 64) (.start (by decide))
      ⟨fun _ => by
          rintro (hIn | ⟨t, hIn, hEq⟩)
          · exact absurd hIn (by decide)
          · rw [List.mem_singleton.mp hIn] at hEq
            exact absurd hEq (by decide),
        fun _ => ⟨by
          rintro (hIn | ⟨t, hIn, hEq⟩)
          · exact absurd hIn (by decide)
          · rw [List.mem_singleton.mp hIn] at hEq
            exact absurd hEq (by decide), by decide⟩⟩)
    trivial), by decide⟩

end KvantOS.Scheduler
