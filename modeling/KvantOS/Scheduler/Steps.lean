import KvantOS.Data.Ring
import KvantOS.Scheduler.Model

/-
  This file proves what the reaper, the search for a task and
  `schedule` do to the circular list and to the tasks in it.

  Key definitions include:
    * `nextOf`, `Woken`, `cutOut`

  Key theorems include:
    * `reapOne_spec`, `pickNext_spec`, `killFrom_spec`
-/

namespace KvantOS.Scheduler

open KvantOS.Ring

def nextOf (s : Sched) (t : Nat) : Nat :=
  (s.mem t).next

section Edits

variable {s : Sched} {t : Nat} {f : Task → Task}

@[simp] theorem edit_self :
    (s.edit t f).mem t = f (s.mem t) :=
  Function.update_self ..

@[simp] theorem edit_ne
    {a : Nat}
    (hNe : a ≠ t) :
    (s.edit t f).mem a = s.mem a :=
  Function.update_of_ne hNe _ _

end Edits

/- The ring without `n`, which the task `p` led to. -/
def cutOut
    (s : Sched)
    (p n : Nat) : Sched :=
  let next := (s.mem n).next
  let s' := s.edit p (fun t => { t with next := next })
  { s' with tasks := if s.tasks = n then next else s.tasks }

section Reaping

variable {s : Sched}

/- The search stops at a dead task of the ring or finds
  none. -/
theorem reapFrom_spec
    {rounds p : Nat}
    {seen todo : List Nat}
    (hRing : IsRing (nextOf s) s.current (seen ++ todo))
    (hAt : p = (s.current :: seen).getLast
      (List.cons_ne_nil _ _)) :
    reapFrom s rounds p = (none, s) ∨
      ∃ xs n ys,
        seen ++ todo = xs ++ n :: ys ∧
        (s.mem n).state = .dead ∧
        reapFrom s rounds p =
          (some n, cutOut s
            ((s.current :: xs).getLast
              (List.cons_ne_nil _ _)) n) := by
  induction rounds generalizing p seen todo with
  | zero => exact Or.inl rfl
  | succ rounds ih =>
      unfold reapFrom
      dsimp only
      by_cases hBack : (s.mem p).next = s.current
      · rw [if_pos hBack]
        exact Or.inl rfl
      · rw [if_neg hBack]
        cases todo with
        | nil =>
            rw [List.append_nil] at hRing
            have hLast := hRing.path.last
            rw [← hAt] at hLast
            exact absurd hLast hBack
        | cons n ys =>
            have hNext := (path_append.mp hRing.path).1.last
            rw [← hAt] at hNext
            have hN : (s.mem p).next = n := hNext
            by_cases hDead :
                (s.mem (s.mem p).next).state = .dead
            · rw [if_pos hDead, hN]
              rw [hN] at hDead
              refine Or.inr ⟨seen, n, ys, rfl, hDead, ?_⟩
              rw [hAt]
              rfl
            · rw [if_neg hDead, hN]
              have hAssoc : seen ++ n :: ys =
                  (seen ++ [n]) ++ ys := by simp
              rw [hAssoc] at hRing ⊢
              exact ih hRing (by simp)

theorem reapOne_spec
    {rest : List Nat}
    (hRing : IsRing (nextOf s) s.current rest) :
    reapOne s = (none, s) ∨
      ∃ xs n ys,
        rest = xs ++ n :: ys ∧
        (s.mem n).state = .dead ∧
        reapOne s =
          (some n, cutOut s
            ((s.current :: xs).getLast
              (List.cons_ne_nil _ _)) n) :=
  @reapFrom_spec s 64 s.current [] rest hRing rfl

/- What taking a task out of the ring leaves. -/
theorem cutOut_ring
    {xs ys : List Nat}
    {n : Nat}
    (hRing : IsRing (nextOf s) s.current (xs ++ n :: ys)) :
    IsRing
      (nextOf (cutOut s
        ((s.current :: xs).getLast (List.cons_ne_nil _ _)) n))
      s.current (xs ++ ys) := by
  refine hRing.remove ?_ ?_
  · unfold nextOf cutOut
    dsimp only
    rw [edit_self]
  · intro x _ hNe
    unfold nextOf cutOut
    dsimp only
    rw [edit_ne hNe]

end Reaping

--
-- Searching
--

/- Some tasks whose tick has come are ready, and nothing else
  has changed. -/
structure Woken (s s' : Sched) : Prop where
  current : s'.current = s.current
  tasks : s'.tasks = s.tasks
  nextId : s'.nextId = s.nextId
  ticks : s'.ticks = s.ticks
  mem : ∀ t, s'.mem t = s.mem t ∨
    ((s.mem t).state = .sleeping ∧
      (s.mem t).wakeTick ≤ s.ticks ∧
      s'.mem t = { s.mem t with state := .ready })

section Searching

variable {s s₁ s₂ : Sched} {t : Nat}

theorem Woken.refl (s : Sched) : Woken s s :=
  ⟨rfl, rfl, rfl, rfl, fun _ => Or.inl rfl⟩

theorem Woken.trans
    (hFirst : Woken s s₁)
    (hSecond : Woken s₁ s₂) :
    Woken s s₂ := by
  refine ⟨hSecond.current.trans hFirst.current,
    hSecond.tasks.trans hFirst.tasks,
    hSecond.nextId.trans hFirst.nextId,
    hSecond.ticks.trans hFirst.ticks, ?_⟩
  intro t
  rcases hSecond.mem t with hSame | ⟨hSleep, hTick, hReady⟩
  · rw [hSame]
    exact hFirst.mem t
  · rcases hFirst.mem t with hOld | ⟨_, _, hBefore⟩
    · rw [hOld] at hSleep hTick hReady
      rw [hFirst.ticks] at hTick
      exact Or.inr ⟨hSleep, hTick, hReady⟩
    · rw [hBefore] at hSleep
      cases hSleep

theorem Woken.next
    (hWoken : Woken s s₁)
    (t : Nat) :
    nextOf s₁ t = nextOf s t := by
  unfold nextOf
  rcases hWoken.mem t with hSame | ⟨_, _, hReady⟩
  · rw [hSame]
  · rw [hReady]

theorem wake_spec
    (t : Nat)
    (s : Sched) :
    Woken s (wake t s) := by
  unfold wake
  split
  · rename_i hDue
    refine ⟨rfl, rfl, rfl, rfl, ?_⟩
    intro a
    by_cases hEq : a = t
    · subst hEq
      exact Or.inr ⟨hDue.1, hDue.2, edit_self⟩
    · exact Or.inl (edit_ne hEq)
  · exact .refl s

/- The search finds a ready task of the ring or none. -/
theorem pickFrom_spec
    {c : Nat}
    {rest : List Nat}
    {rounds : Nat}
    (hRing : IsRing (nextOf s) c rest)
    (hMem : t ∈ c :: rest) :
    Woken s (pickFrom rounds t s).2 ∧
      ∀ a, (pickFrom rounds t s).1 = some a →
        a ∈ c :: rest ∧
        ((pickFrom rounds t s).2.mem a).state = .ready := by
  induction rounds generalizing t s with
  | zero => exact ⟨.refl s, fun a hNone => by cases hNone⟩
  | succ rounds ih =>
      have hWake := wake_spec t s
      unfold pickFrom
      dsimp only
      generalize wake t s = s₁ at hWake ⊢
      by_cases hReady : (s₁.mem t).state = .ready
      · rw [if_pos hReady]
        refine ⟨hWake, ?_⟩
        intro a hSome
        cases hSome
        exact ⟨hMem, hReady⟩
      · rw [if_neg hReady]
        by_cases hTurn : t = s₁.current
        · rw [if_pos hTurn]
          exact ⟨hWake, fun a hNone => by cases hNone⟩
        · rw [if_neg hTurn]
          have hSame : nextOf s₁ = nextOf s :=
            funext hWake.next
          have hRing₁ : IsRing (nextOf s₁) c rest :=
            hSame ▸ hRing
          obtain ⟨hRest, hFound⟩ :=
            ih hRing₁ (hRing₁.next_mem hMem)
          exact ⟨hWake.trans hRest, hFound⟩

theorem pickNext_spec
    {rest : List Nat}
    (hRing : IsRing (nextOf s) s.current rest) :
    Woken s (pickNext s).2 ∧
      ∀ a, (pickNext s).1 = some a →
        a ∈ s.current :: rest ∧
        ((pickNext s).2.mem a).state = .ready := by
  obtain ⟨hWoken, hFound⟩ := @pickFrom_spec s
    (nextOf s s.current) s.current rest 256 hRing
    (hRing.next_mem List.mem_cons_self)
  have hStart : nextOf s s.current =
      (s.mem s.current).next := rfl
  rw [hStart] at hWoken hFound
  unfold pickNext
  dsimp only
  generalize pickFrom 256 (s.mem s.current).next s = r
    at hWoken hFound ⊢
  cases hResult : r.1 with
  | some t =>
      refine ⟨hWoken, ?_⟩
      intro a hSome
      cases hSome
      exact hFound t hResult
  | none =>
      dsimp only
      split
      · rename_i hReady
        refine ⟨hWoken, ?_⟩
        intro a hSome
        cases hSome
        rw [hWoken.current] at hReady ⊢
        exact ⟨List.mem_cons_self, hReady⟩
      · exact ⟨hWoken, fun a hNone => by cases hNone⟩

end Searching

--
-- Killing
--

/- A task of the ring other than the current one is marked,
  or nothing changes. -/
theorem killFrom_spec
    {s : Sched}
    {id guard t c : Nat}
    {rest : List Nat}
    (hRing : IsRing (nextOf s) c rest)
    (hMem : t ∈ c :: rest) :
    (killFrom id guard t s).2 = s ∨
      ∃ a, a ∈ c :: rest ∧ a ≠ s.current ∧
        (killFrom id guard t s).1 = 0 ∧
        (killFrom id guard t s).2 =
          s.edit a (fun c => { c with state := .dead }) := by
  induction guard generalizing t with
  | zero => exact Or.inl rfl
  | succ guard ih =>
      unfold killFrom
      split
      · split
        · exact Or.inl rfl
        · rename_i hNe
          exact Or.inr ⟨t, hMem, hNe, rfl, rfl⟩
      · split
        · exact Or.inl rfl
        · exact ih (hRing.next_mem hMem)

end KvantOS.Scheduler
