import Mathlib.Logic.Function.Iterate

/-
  This file develops linear undo histories over an arbitrary
  type of states: edits that can be taken back, and those that
  were taken back and can be made again.

  Key definitions include:
    * `Edit`, `Timeline`
    * `Timeline.record`, `Timeline.undo`, `Timeline.redo`
    * `Behind`, `Ahead`, `Timeline.Joined`

  Key theorems include:
    * `Timeline.redo_undo_iterate`
    * `Timeline.Joined.record`, `.undo`, `.redo`
    * `Timeline.All.record`, `.undo`, `.redo`
-/

namespace KvantOS

--
-- Edits
--

/- The states around an edit. -/
structure Edit (σ : Type) where
  before : σ
  after : σ

/- Edits that were made, and undone ones, nearest first. -/
structure Timeline (σ : Type) where
  past : List (Edit σ)
  future : List (Edit σ)

variable {σ τ : Type}

namespace Timeline

/- A new edit discards the ones that were undone. -/
def record
    (t : Timeline σ)
    (e : Edit σ) : Timeline σ where
  past := e :: t.past
  future := []

def undo (t : Timeline σ) : Timeline σ :=
  match t.past with
  | [] => t
  | e :: past => ⟨past, e :: t.future⟩

def redo (t : Timeline σ) : Timeline σ :=
  match t.future with
  | [] => t
  | e :: future => ⟨e :: t.past, future⟩

theorem redo_undo
    {t : Timeline σ}
    (hPast : t.past ≠ []) :
    t.undo.redo = t := by
  obtain ⟨past, future⟩ := t
  cases past with
  | nil => exact absurd rfl hPast
  | cons e past => rfl

theorem past_undo_iterate
    (t : Timeline σ)
    (m : Nat) :
    (undo^[m] t).past = t.past.drop m := by
  induction m generalizing t with
  | zero => rfl
  | succ m ih =>
      rw [Function.iterate_succ_apply, ih]
      obtain ⟨past, future⟩ := t
      cases past with
      | nil => simp [undo]
      | cons e past => rfl

/- As many redos as undos lead back. -/
theorem redo_undo_iterate
    {t : Timeline σ}
    {m : Nat}
    (hEnough : m ≤ t.past.length) :
    redo^[m] (undo^[m] t) = t := by
  induction m with
  | zero => rfl
  | succ m ih =>
      rw [Function.iterate_succ_apply' undo,
        Function.iterate_succ_apply redo, redo_undo,
        ih (by omega)]
      rw [past_undo_iterate]
      intro hNil
      rw [List.drop_eq_nil_iff] at hNil
      omega

end Timeline

--
-- Joined Edits
--

variable {f : σ → τ}

/- Each edit starts in what the one before it led to. -/
def Behind (f : σ → τ) : τ → List (Edit σ) → Prop
  | _, [] => True
  | x, e :: past =>
      f e.after = x ∧ Behind f (f e.before) past

def Ahead (f : σ → τ) : τ → List (Edit σ) → Prop
  | _, [] => True
  | x, e :: future =>
      f e.before = x ∧ Ahead f (f e.after) future

/- The edits lead to the present and on from it. -/
structure Timeline.Joined
    (f : σ → τ)
    (t : Timeline σ)
    (x : τ) : Prop where
  behind : Behind f x t.past
  ahead : Ahead f x t.future

namespace Timeline

theorem Joined.record
    {t : Timeline σ}
    {e : Edit σ}
    (hJoined : Joined f t (f e.before)) :
    Joined f (t.record e) (f e.after) where
  behind := ⟨rfl, hJoined.behind⟩
  ahead := trivial

theorem Joined.undo
    {t : Timeline σ}
    {x : τ}
    {e : Edit σ}
    {past : List (Edit σ)}
    (hJoined : Joined f t x)
    (hPast : t.past = e :: past) :
    Joined f t.undo (f e.before) := by
  obtain ⟨all, future⟩ := t
  dsimp only at hPast
  subst hPast
  obtain ⟨⟨hAfter, hBehind⟩, hAhead⟩ := hJoined
  refine ⟨hBehind, rfl, ?_⟩
  rw [hAfter]
  exact hAhead

theorem Joined.redo
    {t : Timeline σ}
    {x : τ}
    {e : Edit σ}
    {future : List (Edit σ)}
    (hJoined : Joined f t x)
    (hFuture : t.future = e :: future) :
    Joined f t.redo (f e.after) := by
  obtain ⟨past, all⟩ := t
  dsimp only at hFuture
  subst hFuture
  obtain ⟨hBehind, hBefore, hAhead⟩ := hJoined
  refine ⟨⟨rfl, ?_⟩, hAhead⟩
  rw [hBefore]
  exact hBehind

/- What holds of the states around every edit. -/
def All
    (p : σ → Prop)
    (t : Timeline σ) : Prop :=
  ∀ e ∈ t.past ++ t.future, p e.before ∧ p e.after

variable {p : σ → Prop}

theorem all_empty : All p ⟨[], []⟩ :=
  nofun

theorem All.record
    {t : Timeline σ}
    {e : Edit σ}
    (hAll : All p t)
    (hEdit : p e.before ∧ p e.after) :
    All p (t.record e) := by
  intro x hMem
  rcases List.mem_append.mp hMem with hPast | hNone
  · rcases List.mem_cons.mp hPast with rfl | hOld
    · exact hEdit
    · exact hAll x (List.mem_append_left _ hOld)
  · cases hNone

theorem All.undo
    {t : Timeline σ}
    (hAll : All p t) :
    All p t.undo := by
  obtain ⟨past, future⟩ := t
  cases past with
  | nil => exact hAll
  | cons e past =>
      intro x hMem
      refine hAll x ?_
      rcases List.mem_append.mp hMem with hPast | hFuture
      · exact List.mem_append_left _
          (List.mem_cons_of_mem _ hPast)
      · rcases List.mem_cons.mp hFuture with rfl | hOld
        · exact List.mem_append_left _ List.mem_cons_self
        · exact List.mem_append_right _ hOld

theorem All.redo
    {t : Timeline σ}
    (hAll : All p t) :
    All p t.redo := by
  obtain ⟨past, future⟩ := t
  cases future with
  | nil => exact hAll
  | cons e future =>
      intro x hMem
      refine hAll x ?_
      rcases List.mem_append.mp hMem with hPast | hFuture
      · rcases List.mem_cons.mp hPast with rfl | hOld
        · exact List.mem_append_right _ List.mem_cons_self
        · exact List.mem_append_left _ hOld
      · exact List.mem_append_right _
          (List.mem_cons_of_mem _ hFuture)

end Timeline

end KvantOS
