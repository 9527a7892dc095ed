import KvantOS.Scheduler.Runs

/-
  This file proves that the scheduler is fair: a task that
  may go on gets its turn within a number of calls of
  `schedule` that is known in advance, whatever the calls in
  between do.

  Key definitions include:
    * `Due`, `Waiting`, `Ahead`
    * `Waits`

  Key theorems include:
    * `pickFrom_first`, `schedule_ahead`, `act_ahead`
    * `waits_bounded`, `schedule_reaps_iff`
-/

namespace KvantOS.Scheduler

open KvantOS.Ring

variable {s s' : Sched} {t d : Nat}

--
-- The First Task
--

/- It is ready, or asleep and its tick has come. -/
def Due (s : Sched) (t : Nat) : Prop :=
  (s.mem t).state = .ready ∨
    (s.mem t).state = .sleeping ∧
      (s.mem t).wakeTick ≤ s.ticks

theorem Due.woken
    (hDue : Due s t)
    (hWoken : Woken s s') :
    Due s' t := by
  unfold Due
  rcases hWoken.mem t with hSame | ⟨-, -, hReady⟩
  · rw [hSame, hWoken.ticks]
    exact hDue
  · exact .inl (by rw [hReady])

theorem Due.wake
    (hDue : Due s t) :
    ((wake t s).mem t).state = .ready := by
  unfold Scheduler.wake
  split
  · rw [edit_self]
  · exact hDue.resolve_right ‹_›

/- No task behind the first one that is due is found. -/
theorem pickFrom_first
    {xs : List Nat}
    {a rounds : Nat}
    (hPath : Path (nextOf s) a xs t)
    (hDue : Due s t)
    (hNot : s.current ∉ xs)
    (hRounds : xs.length < rounds) :
    ∃ x ∈ xs ++ [t],
      (pickFrom rounds (nextOf s a) s).1 = some x := by
  induction xs generalizing s a rounds with
  | nil =>
      have hNext : nextOf s a = t := hPath
      rcases Nat.exists_eq_add_of_lt hRounds with ⟨r, rfl⟩
      rw [hNext]
      exact ⟨t, List.mem_singleton_self t,
        congrArg Prod.fst (if_pos hDue.wake)⟩
  | cons x xs ih =>
      rcases hPath with ⟨hNext, hPath⟩
      rcases Nat.exists_eq_succ_of_ne_zero
        (Nat.ne_zero_of_lt hRounds) with ⟨r, rfl⟩
      have hWake := wake_spec x s
      rw [hNext, pickFrom]
      generalize wake x s = s₁ at hWake ⊢
      rw [List.mem_cons, not_or] at hNot
      by_cases hReady : (s₁.mem x).state = .ready
      · rw [if_pos hReady]
        exact ⟨x, List.mem_cons_self, rfl⟩
      · have hSame : nextOf s₁ = nextOf s :=
          funext hWake.next
        rw [← hSame] at hPath
        rw [if_neg hReady, hWake.current,
          if_neg (Ne.symm hNot.1)]
        rcases ih hPath (hDue.woken hWake)
          (hWake.current ▸ hNot.2)
          (Nat.lt_of_succ_lt_succ hRounds) with
          ⟨y, hMem, hFound⟩
        exact ⟨y, List.mem_cons_of_mem x hMem, hFound⟩

--
-- The Tasks Ahead
--

/- No more than `d` tasks come before `t` in the ring. -/
def Ahead (s : Sched) (t d : Nat) : Prop :=
  ∃ xs ys, xs.length ≤ d ∧
    IsRing (nextOf s) s.current (xs ++ t :: ys)

/- A step that leaves the ring alone. -/
theorem Ahead.same
    (hAhead : Ahead s t d)
    (hNext : ∀ a, (s'.mem a).next = (s.mem a).next)
    (hCurrent : s'.current = s.current) :
    Ahead s' t d := by
  have hSame : nextOf s' = nextOf s := funext hNext
  unfold Ahead
  rw [hSame, hCurrent]
  exact hAhead

/- Reaping takes no task that is due out of the ring. -/
theorem reapOne_ahead
    (hAhead : Ahead s t d)
    (hDue : Due s t) :
    Ahead (reapOne s).2 t d ∧ Due (reapOne s).2 t ∧
      (reapOne s).2.current = s.current := by
  rcases hAhead with ⟨xs, ys, hLe, hRing⟩
  rcases reapOne_spec hRing with
    hNone | ⟨us, n, vs, hSplit, hDead, hSome⟩
  · rw [hNone]
    exact ⟨⟨xs, ys, hLe, hRing⟩, hDue, rfl⟩
  · have hNe : n ≠ t := by
      rintro rfl
      rcases hDue with hReady | ⟨hSleep, -⟩
      · exact absurd (hReady.symm.trans hDead) (by decide)
      · exact absurd (hSleep.symm.trans hDead) (by decide)
    have hErase : us ++ vs = (xs ++ t :: ys).erase n := by
      have hNodup := (List.nodup_cons.mp hRing.nodup).2
      rw [hSplit, List.nodup_middle] at hNodup
      have hNot := (List.nodup_cons.mp hNodup).1
      rw [hSplit, List.erase_append_right _
        fun hIn => hNot (List.mem_append_left vs hIn),
        List.erase_cons_head]
    rw [hSplit] at hRing
    have hCut := cutOut_ring hRing
    rw [hErase, List.erase_append, List.erase_cons_tail
      (by simpa using Ne.symm hNe)] at hCut
    rw [hSome]
    refine ⟨?_, ?_, rfl⟩
    · split at hCut
      · exact ⟨xs.erase n, ys,
          List.length_erase_le.trans hLe, hCut⟩
      · exact ⟨xs, ys.erase n, hLe, hCut⟩
    · unfold Due cutOut
      dsimp only
      by_cases hEq : t = (s.current :: us).getLast
          (List.cons_ne_nil _ _)
      · rw [hEq, edit_self]
        exact hEq ▸ hDue
      · rw [edit_ne hEq]
        exact hDue

/- It is the turn of the task, or of one ahead of it. -/
theorem schedule_ahead
    (hAhead : Ahead s t d)
    (hDue : Due s t)
    (hFew : d < 256) :
    (schedule s).2.current = t ∨
      0 < d ∧ Ahead (schedule s).2 t (d - 1) := by
  rcases reapOne_ahead hAhead hDue with
    ⟨⟨xs, ys, hLe, hRing⟩, hDue, -⟩
  unfold schedule
  dsimp only
  generalize (reapOne s).2 = s at hRing hDue ⊢
  rcases path_append.mp hRing.path with ⟨hPath, -⟩
  have hNot := (List.nodup_cons.mp hRing.nodup).1
  rcases pickFrom_first hPath hDue
    (fun hIn => hNot (List.mem_append_left _ hIn))
    (hLe.trans_lt hFew) with ⟨x, hMem, hFound⟩
  have hPick : (pickNext s).1 = some x := by
    have hStart : nextOf s s.current =
      (s.mem s.current).next := rfl
    rw [hStart] at hFound
    unfold pickNext
    dsimp only
    rw [hFound]
  have hWoken := (pickNext_spec hRing).1
  generalize pickNext s = r at hPick hWoken ⊢
  rw [hPick]
  dsimp only
  rw [hWoken.current, if_neg]
  · by_cases hEq : x = t
    · exact .inl hEq
    · have hIn : x ∈ xs := by simpa [hEq] using hMem
      rcases List.append_of_mem hIn with ⟨us, vs, rfl⟩
      rw [List.append_assoc, List.cons_append] at hRing
      have hTurn := hRing.rotate
      rw [List.append_assoc, List.cons_append] at hTurn
      rw [List.length_append, List.length_cons] at hLe
      refine .inr ⟨by omega, vs, ys ++ s.current :: us,
        by omega, ?_⟩
      have hSame : nextOf (switchTo x r.2) = nextOf s := by
        funext a
        rw [← hWoken.next]
        exact (edit_kept (f := fun c => { c with
            switches := (c.switches + 1) % 2 ^ 32 })
          { r.2 with current := x } x
          (fun _ => rfl) (fun _ => rfl) a).1
      rw [hSame]
      exact hTurn
  · rintro rfl
    rcases List.mem_append.mp hMem with hIn | hIn
    · exact hNot (List.mem_append_left _ hIn)
    · exact hNot (List.mem_append_right _
        (List.mem_cons.mpr (.inl (List.mem_singleton.mp hIn))))

--
-- Waiting
--

/- A task that may go on, while another one runs. -/
structure Waiting (t : Nat) (w : World) : Prop where
  live : t ∈ w.live
  other : t ≠ w.sched.current
  due : Due w.sched t

/- The calls of `schedule`, and those of `task_create`. -/
def Act.turns : Act → Nat
  | .schedule => 1
  | _ => 0

def Act.made : Act → Nat
  | .create _ _ => 1
  | _ => 0

/-
  Calls one after another while a task waits, with the number
  of those of `schedule` and of `task_create`.
-/
inductive Waits (t : Nat) (w : World) :
    Nat → Nat → World → Prop
  | start
      (hWaiting : Waiting t w) :
      Waits t w 0 0 w
  | act
      {n c : Nat}
      {w' : World}
      {a : Act}
      (hWaits : Waits t w n c w')
      (hAllowed : Allowed w' a)
      (hWaiting : Waiting t (act w' a)) :
      Waits t w (n + a.turns) (c + a.made) (act w' a)

variable {w w' : World} {n c : Nat}

theorem Waits.waiting
    (hWaits : Waits t w n c w') :
    Waiting t w' := by
  cases hWaits with
  | start hWaiting => exact hWaiting
  | act _ _ hWaiting => exact hWaiting

theorem Waits.reach
    (hWaits : Waits t w n c w')
    (hReach : Reach w) :
    Reach w' := by
  induction hWaits with
  | start hWaiting => exact hReach
  | act _ hAllowed _ ih => exact .act ih hAllowed

theorem Inv.ring_length
    (hInv : Inv w) :
    ∃ rest, IsRing (nextOf w.sched) w.sched.current rest ∧
      (∀ t, t ∈ w.live ↔ t ∈ w.sched.current :: rest) ∧
      w.live.length = rest.length + 1 := by
  rcases hInv.ring with ⟨rest, hRing, hLive⟩
  have hPerm : w.live.Perm (w.sched.current :: rest) :=
    (List.perm_ext_iff_of_nodup hInv.once hRing.nodup).mpr
      hLive
  exact ⟨rest, hRing, hLive, hPerm.length_eq⟩

/- All but the current task and `t` may be ahead of it. -/
theorem Waiting.ahead
    (hWaiting : Waiting t w)
    (hInv : Inv w) :
    ∃ d, Ahead w.sched t d ∧ d + 2 ≤ w.live.length := by
  rcases hInv.ring_length with ⟨rest, hRing, hLive, hLength⟩
  have hIn := ((hLive t).mp hWaiting.live)
  rcases List.append_of_mem
    ((List.mem_cons.mp hIn).resolve_left hWaiting.other) with
    ⟨xs, ys, rfl⟩
  refine ⟨xs.length, ⟨xs, ys, Nat.le_refl _, hRing⟩, ?_⟩
  rw [List.length_append, List.length_cons] at hLength
  omega

theorem create_ahead
    {a stack : Nat}
    (hAhead : Ahead w.sched t d)
    (hInv : Inv w)
    (hAllowed : Allowed w (.create a stack)) :
    Ahead (taskCreate a stack w.sched).2 t (d + 1) := by
  rcases hAhead with ⟨xs, ys, hLe, hRing⟩
  have hMore : xs.length ≤ d + 1 := by omega
  by_cases hTask : a = 0
  · rw [taskCreate, if_pos hTask]
    exact ⟨xs, ys, hMore, hRing⟩
  by_cases hStack : stack = 0
  · rw [taskCreate, if_neg hTask]
    dsimp only
    rw [if_pos hStack]
    exact ⟨xs, ys, hMore, hRing⟩
  rcases hInv.ring with ⟨rest, hRing', hLive⟩
  have hRest := hRing'.path.unique hRing.path
    (List.nodup_cons.mp hRing'.nodup).1
    (List.nodup_cons.mp hRing.nodup).1
  have hNew : a ∉ w.sched.current :: (xs ++ t :: ys) :=
    fun hIn => hAllowed.1 hTask
      (.inl ((hLive a).mpr (hRest ▸ hIn)))
  have hMade := (taskCreate_created hTask hStack
    fun hEq => hNew (List.mem_cons.mpr (.inl hEq))).2
  refine ⟨a :: xs, ys, Nat.succ_le_succ hLe, ?_⟩
  rw [hMade.current]
  exact hMade.ring hRing hNew

/- What one call does to the number of tasks ahead. -/
theorem act_ahead
    {a : Act}
    (hAhead : Ahead w.sched t d)
    (hInv : Inv w)
    (hAllowed : Allowed w a)
    (hWaiting : Waiting t w)
    (hStill : Waiting t (act w a))
    (hFew : d < 256) :
    a.turns ≤ d ∧
      Ahead (act w a).sched t (d - a.turns + a.made) := by
  have hEdit : ∀ b (f : Task → Task),
      (∀ c, (f c).next = c.next) →
      (∀ c, (f c).stackBase = c.stackBase) →
      Ahead (w.sched.edit b f) t d := fun b f hNext hStack =>
    hAhead.same (fun c => (edit_kept _ b hNext hStack c).1) rfl
  cases a with
  | create b stack =>
      have hSched : (act w (.create b stack)).sched =
          (taskCreate b stack w.sched).2 := by
        unfold act
        dsimp only
        split <;> rfl
      rw [hSched]
      exact ⟨Nat.zero_le d, create_ahead hAhead hInv hAllowed⟩
  | kill id =>
      refine ⟨Nat.zero_le d, ?_⟩
      rcases hAhead with ⟨xs, ys, hLe, hRing⟩
      change Ahead (killFrom id 256 _ _).2 t d
      rcases killFrom_spec hRing List.mem_cons_self with
        hSame | ⟨b, -, -, -, hKilled⟩
      · rw [hSame]
        exact ⟨xs, ys, hLe, hRing⟩
      · rw [hKilled]
        exact hEdit b _ (fun _ => rfl) fun _ => rfl
  | exit =>
      refine ⟨Nat.zero_le d, hEdit _ (fun c =>
        { c with state := .dead }) ?_ ?_⟩ <;>
          exact fun _ => rfl
  | sleep ms hz =>
      refine ⟨Nat.zero_le d, hEdit _ (fun c =>
        { c with
          state := .sleeping
          wakeTick := (w.sched.ticks + delayOf ms hz) %
            2 ^ 64 }) ?_ ?_⟩ <;> exact fun _ => rfl
  | advance n => exact ⟨Nat.zero_le d, hAhead⟩
  | schedule =>
      have hSched : (act w .schedule).sched =
          (schedule w.sched).2 := (collect_fields ..).1
      have hOther := hStill.other
      rw [hSched] at hOther ⊢
      rcases schedule_ahead hAhead hWaiting.due hFew with
        hTurn | hAhead
      · exact absurd hTurn.symm hOther
      · exact hAhead

/-
  A task that may go on all the time waits for fewer calls of
  `schedule` than there are other tasks, those that are made
  meanwhile included: up to 257 tasks, as far as the search
  of `pick_next` goes.
-/
theorem waits_bounded
    (hReach : Reach w)
    (hWaits : Waits t w n c w')
    (hFew : w.live.length + c ≤ 257) :
    n + 2 ≤ w.live.length + c := by
  have hAhead : ∃ d, Ahead w'.sched t d ∧
      d + n + 2 ≤ w.live.length + c := by
    induction hWaits with
    | start hWaiting => exact hWaiting.ahead (reach_inv hReach)
    | @act n c w' a hWaits hAllowed hStill ih =>
        rcases ih (by omega) with ⟨d, hAhead, hLe⟩
        rcases act_ahead hAhead
          (reach_inv (hWaits.reach hReach)) hAllowed
          hWaits.waiting hStill (by omega) with
          ⟨hTurns, hAhead⟩
        exact ⟨_, hAhead, by omega⟩
  rcases hAhead with ⟨d, -, hLe⟩
  omega

/- Of two new tasks the first one lets the other go ahead. -/
theorem waits_bounded_two :
    let w := act (act (start
      (fun _ => ⟨0, .ready, 0, 0, 0, 0⟩) 8 0)
      (.create 16 64)) (.create 24 72)
    (act w .schedule).sched.current = 24 ∧
      1 + 2 ≤ w.live.length + 0 := by
  intro w
  have hReach : Reach w :=
    .act (a := .create 24 72)
      (.act (a := .create 16 64) (.start (by decide))
        (by unfold Allowed World.InUse; decide))
      (by unfold Allowed World.InUse; decide)
  have hWaits : Waits 16 w 1 0 (act w .schedule) :=
    .act (a := .schedule)
      (.start ⟨by decide, by decide, .inl (by decide)⟩)
      trivial ⟨by decide, by decide, .inl (by decide)⟩
  exact ⟨by decide, waits_bounded hReach hWaits (by decide)⟩

--
-- Reaping
--

/- When the search finds nothing, nobody in reach is dead. -/
theorem reapFrom_none
    {rounds p : Nat}
    {todo : List Nat}
    (hPath : Path (nextOf s) p todo s.current)
    (hNot : s.current ∉ todo)
    (hRounds : todo.length ≤ rounds)
    (hNone : (reapFrom s rounds p).1 = none) :
    ∀ n ∈ todo, (s.mem n).state ≠ .dead := by
  induction todo generalizing rounds p with
  | nil => nofun
  | cons n todo ih =>
      rcases Nat.exists_eq_succ_of_ne_zero
        (Nat.ne_zero_of_lt hRounds) with ⟨r, rfl⟩
      have hNext : (s.mem p).next = n := hPath.1
      rw [List.mem_cons, not_or] at hNot
      rw [reapFrom, hNext] at hNone
      dsimp only at hNone
      rw [if_neg (Ne.symm hNot.1)] at hNone
      split at hNone
      · cases hNone
      · exact List.forall_mem_cons.mpr ⟨‹_›, ih hPath.2 hNot.2
          (Nat.le_of_succ_le_succ hRounds) hNone⟩

/-
  With up to 65 tasks a call of `schedule` frees a task just
  when there is a dead one that does not run.
-/
theorem schedule_reaps_iff
    (hReach : Reach w)
    (hFew : w.live.length ≤ 65) :
    (schedule w.sched).1.freed ≠ none ↔
      ∃ t ∈ w.live, t ≠ w.sched.current ∧
        w.number t ∈ w.died := by
  have hInv := reach_inv hReach
  constructor
  · intro hSome
    rcases Option.ne_none_iff_exists'.mp hSome with ⟨n, hFreed⟩
    rcases (schedule_inv hInv).2.freed n hFreed with
      ⟨hIn, hNe, -, hDied, -⟩
    exact ⟨n, hIn, hNe, hDied⟩
  · rintro ⟨t, hIn, hNe, hDied⟩ hNone
    have hReap : (reapOne w.sched).1 = none := by
      rcases schedule_cases w.sched with
        hStays | ⟨next, -, hSwitch⟩
      · rw [hStays] at hNone
        exact hNone
      · rw [hSwitch] at hNone
        exact hNone
    rcases hInv.ring_length with
      ⟨rest, hRing, hLive, hLength⟩
    refine reapFrom_none hRing.path
      (List.nodup_cons.mp hRing.nodup).1 (by omega) hReap t
      ((List.mem_cons.mp ((hLive t).mp hIn)).resolve_left hNe)
      ((hInv.dead t hIn).mpr hDied)

/- A task that is killed is freed at the next call. -/
theorem schedule_reaps_killed :
    let w := act (act (start
      (fun _ => ⟨0, .ready, 0, 0, 0, 0⟩) 8 0)
      (.create 16 64)) (.kill 1)
    (schedule w.sched).1.freed ≠ none := by
  intro w
  have hReach : Reach w :=
    .act (a := .kill 1)
      (.act (a := .create 16 64) (.start (by decide))
        (by unfold Allowed World.InUse; decide)) trivial
  exact (schedule_reaps_iff hReach (by decide)).mpr
    ⟨16, by decide, by decide, by decide⟩

end KvantOS.Scheduler
