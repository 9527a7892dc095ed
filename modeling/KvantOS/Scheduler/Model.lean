import Mathlib

/-
  This file models the scheduler: tasks in a circular list,
  `schedule` with its reaper and its search, and the calls
  that create, put to sleep and end tasks.

  A task is known by its address, and memory is a function
  from addresses to tasks.  `context_switch` is the change of
  `current`.  Names, stack contents and the interrupt flag
  are left out: every call runs with interrupts off.

  Key definitions include:
    * `Task`, `Sched`
    * `schedInit`, `taskCreate`
    * `reapOne`, `pickNext`, `schedule`
    * `taskSleep`, `taskKill`, `taskExit`
-/

namespace KvantOS.Scheduler

/- `TASK_READY`, `TASK_SLEEPING` and `TASK_DEAD` -/
inductive TaskState where
  | ready
  | sleeping
  | dead
  deriving DecidableEq

structure Task where
  id : Nat
  state : TaskState
  wakeTick : Nat
  stackBase : Nat
  switches : Nat
  next : Nat

/- The static variables, the tasks and the timer. -/
structure Sched where
  mem : Nat → Task
  current : Nat
  tasks : Nat
  nextId : Nat
  ticks : Nat

/- The scheduler with one task changed. -/
def Sched.edit
    (s : Sched)
    (t : Nat)
    (f : Task → Task) : Sched :=
  { s with mem := Function.update s.mem t (f (s.mem t)) }

/- `sched_init` with the block that `kmalloc` gave. -/
def schedInit
    (mem : Nat → Task)
    (t ticks : Nat) : Sched where
  mem := Function.update mem t
    { id := 0
      state := .ready
      wakeTick := 0
      stackBase := 0
      switches := 0
      next := t }
  current := t
  tasks := t
  nextId := 1
  ticks := ticks

/-
  `task_create` with an entry point, the results of its calls
  of `kmalloc` for the task and for the stack.  It returns
  the task or 0.
-/
def taskCreate
    (t stack : Nat)
    (s : Sched) : Nat × Sched :=
  if t = 0 then
    (0, s)
  else
    let id := s.nextId
    let s := { s with nextId := (s.nextId + 1) % 2 ^ 32 }
    if stack = 0 then
      (0, s)
    else
      let mem := Function.update s.mem t
        { id := id
          state := .ready
          wakeTick := 0
          stackBase := stack
          switches := 0
          next := (s.mem s.current).next }
      let s := { s with mem := mem }
      (t, s.edit s.current (fun c => { c with next := t }))

--
-- Switching
--

/- The search of `reap_one` from a task on. -/
def reapFrom
    (s : Sched) :
    (rounds p : Nat) → Option Nat × Sched
  | 0, _ => (none, s)
  | rounds + 1, p =>
      let n := (s.mem p).next
      if n = s.current then
        (none, s)
      else if (s.mem n).state = .dead then
        let next := (s.mem n).next
        let s' := s.edit p (fun t => { t with next := next })
        (some n,
          { s' with
            tasks := if s.tasks = n then next else s.tasks })
      else
        reapFrom s rounds n

/- The task taken out of the ring; it is freed with its
  stack. -/
def reapOne (s : Sched) : Option Nat × Sched :=
  reapFrom s 64 s.current

/- A sleeping task whose tick has come is ready. -/
def wake
    (t : Nat)
    (s : Sched) : Sched :=
  if (s.mem t).state = .sleeping ∧
      (s.mem t).wakeTick ≤ s.ticks then
    s.edit t (fun c => { c with state := .ready })
  else s

/- The search of `pick_next` from a task on. -/
def pickFrom :
    (rounds t : Nat) → Sched → Option Nat × Sched
  | 0, _, s => (none, s)
  | rounds + 1, t, s =>
      let s := wake t s
      if (s.mem t).state = .ready then
        (some t, s)
      else if t = s.current then
        (none, s)
      else
        pickFrom rounds (s.mem t).next s

def pickNext (s : Sched) : Option Nat × Sched :=
  let r := pickFrom 256 (s.mem s.current).next s
  match r.1 with
  | some t => (some t, r.2)
  | none =>
      if (r.2.mem r.2.current).state = .ready then
        (some r.2.current, r.2)
      else
        (none, r.2)

/- What a call of `schedule` freed, and what it switched to. -/
structure Switch where
  freed : Option Nat
  target : Option Nat

/- The switch to another task. -/
def switchTo
    (next : Nat)
    (s : Sched) : Sched :=
  ({ s with current := next }).edit next (fun t =>
    { t with switches := (t.switches + 1) % 2 ^ 32 })

def schedule (s : Sched) : Switch × Sched :=
  let reaped := reapOne s
  let picked := pickNext reaped.2
  match picked.1 with
  | none => (⟨reaped.1, none⟩, picked.2)
  | some next =>
      if next = picked.2.current then
        (⟨reaped.1, none⟩, picked.2)
      else
        (⟨reaped.1, some next⟩, switchTo next picked.2)

--
-- Sleeping and Ending
--

/- The ticks of `ms` milliseconds at `hz` ticks a second. -/
def delayOf (ms hz : Nat) : Nat :=
  let delay := ((ms / 1000) * hz +
    ((ms % 1000) * hz % 2 ^ 32 + 999) % 2 ^ 32 / 1000) % 2 ^ 64
  if ms ≠ 0 ∧ delay = 0 then 1 else delay

/-
  `task_sleep` up to its call of `schedule`.  Interrupts are
  on again before that call, so it is a step of its own.
-/
def taskSleep
    (ms hz : Nat)
    (s : Sched) : Sched :=
  s.edit s.current (fun t =>
    { t with
      state := .sleeping
      wakeTick := (s.ticks + delayOf ms hz) % 2 ^ 64 })

/- The search of `task_kill` from a task on. -/
def killFrom
    (id : Nat) :
    (guard t : Nat) → Sched → Int × Sched
  | 0, _, s => (-1, s)
  | guard + 1, t, s =>
      if (s.mem t).id = id ∧ (s.mem t).state ≠ .dead then
        if t = s.current then
          (-2, s)
        else
          (0, s.edit t (fun c => { c with state := .dead }))
      else if (s.mem t).next = s.current then
        (-1, s)
      else
        killFrom id guard (s.mem t).next s

def taskKill
    (id : Nat)
    (s : Sched) : Int × Sched :=
  killFrom id 256 s.current s

/-
  `task_exit` up to its loop.  The loop calls `schedule` for
  ever, so nothing else runs in this task.
-/
def taskExit (s : Sched) : Sched :=
  s.edit s.current (fun t => { t with state := .dead })

end KvantOS.Scheduler
