import Mathlib.Data.List.Basic
import Mathlib.Data.Nat.Basic

/-
  This file studies first-fit placement among extents: a
  search that jumps past every extent in its way finds the
  least place where a run of the wanted length fits.

  Key definitions include:
    * `Extent`, `Extent.Meets`, `Fits`
    * `skipTo`, `firstFit`

  Key theorems include:
    * `firstFit_spec`, `firstFit_least`, `firstFit_isSome`
-/

--
-- Extents
--

/- A run of units. -/
structure Extent where
  start : Nat
  length : Nat
  deriving DecidableEq

namespace Extent

/- The first unit after the extent. -/
def stop (e : Extent) : Nat :=
  e.start + e.length

/- The extent meets the `need` units from `place`. -/
def Meets
    (e : Extent)
    (place need : Nat) : Prop :=
  place < e.stop ∧ e.start < place + need

instance
    (e : Extent)
    (place need : Nat) :
    Decidable (e.Meets place need) :=
  inferInstanceAs (Decidable (_ ∧ _))

/- Disjoint extents share no unit. -/
def Disjoint (e e' : Extent) : Prop :=
  ¬e.Meets e'.start e'.length

variable {e e' : Extent}

theorem Disjoint.symm
    (hDisjoint : e.Disjoint e') :
    e'.Disjoint e := by
  intro hMeets
  apply hDisjoint
  exact ⟨hMeets.2, hMeets.1⟩

/- Disjoint extents share no unit. -/
theorem Disjoint.ne
    (hDisjoint : e.Disjoint e')
    {unit unit' : Nat}
    (hStart : e.start ≤ unit)
    (hStop : unit < e.stop)
    (hStart' : e'.start ≤ unit')
    (hStop' : unit' < e'.stop) :
    unit ≠ unit' := by
  rintro rfl
  apply hDisjoint
  exact ⟨Nat.lt_of_le_of_lt hStart' hStop,
    Nat.lt_of_le_of_lt hStart hStop'⟩

end Extent

/- The `need` units from `place` meet no extent. -/
def Fits
    (extents : List Extent)
    (place need : Nat) : Prop :=
  ∀ e ∈ extents, ¬e.Meets place need

--
-- Skipping
--

/- One step of the scan for the place to skip to. -/
def skipStep
    (place need : Nat)
    (next : Option Nat)
    (e : Extent) : Option Nat :=
  if e.Meets place need then
    some (max (next.getD 0) e.stop)
  else
    next

/-
  Where to look next: past all extents in the way, or `none`
  when there are none.
-/
def skipTo
    (extents : List Extent)
    (place need : Nat) : Option Nat :=
  extents.foldl (skipStep place need) none

section Skip

variable {extents : List Extent} {place need : Nat}

/-
  The scan keeps the furthest stop of the extents in the way
  of the run, beginning with what it knew.
-/
theorem foldl_skipStep
    (extents : List Extent)
    (place need : Nat)
    (start : Option Nat) :
    match extents.foldl (skipStep place need) start with
    | none =>
        start = none ∧ Fits extents place need
    | some next =>
        (start = some next ∨
          ∃ e ∈ extents, e.Meets place need ∧
            e.stop = next) ∧
        (∀ first, start = some first → first ≤ next) ∧
        ∀ e ∈ extents, e.Meets place need →
          e.stop ≤ next := by
  induction extents generalizing start with
  | nil =>
      cases start with
      | none => exact ⟨rfl, fun e hMem => by cases hMem⟩
      | some first =>
          refine ⟨.inl rfl, ?_, fun e hMem => by cases hMem⟩
          intro other hEq
          cases hEq
          exact Nat.le_refl _
  | cons e rest ih =>
      rw [List.foldl_cons]
      have hRest := ih (skipStep place need start e)
      by_cases hMeets : e.Meets place need
      · have hStep : skipStep place need start e =
            some (max (start.getD 0) e.stop) :=
          if_pos hMeets
        rw [hStep] at hRest ⊢
        cases hFold : rest.foldl (skipStep place need)
            (some (max (start.getD 0) e.stop)) with
        | none =>
            rw [hFold] at hRest
            cases hRest.1
        | some next =>
            rw [hFold] at hRest
            rcases hRest with ⟨hFrom, hFirst, hAll⟩
            have hMax := hFirst _ rfl
            refine ⟨?_, ?_, ?_⟩
            · rcases hFrom with hFrom | ⟨e', hMem, hE'⟩
              · cases start with
                | none =>
                    refine .inr ⟨e, ?_, hMeets, ?_⟩
                    · exact List.mem_cons_self ..
                    · simpa using hFrom
                | some first =>
                    have hFrom' :
                        max first e.stop = next := by
                      simpa using hFrom
                    rcases Nat.le_total first e.stop with
                      hLe | hLe
                    · refine .inr ⟨e, ?_, hMeets, ?_⟩
                      · exact List.mem_cons_self ..
                      · omega
                    · exact .inl (by rw [← hFrom']; simp [hLe])
              · exact .inr
                  ⟨e', List.mem_cons_of_mem _ hMem, hE'⟩
            · rintro first rfl
              simp only [Option.getD_some] at hMax
              omega
            · intro e' hMem hE'
              rcases List.mem_cons.mp hMem with rfl | hMem
              · omega
              · exact hAll e' hMem hE'
      · have hStep : skipStep place need start e = start :=
          if_neg hMeets
        rw [hStep] at hRest ⊢
        cases hFold : rest.foldl (skipStep place need)
            start with
        | none =>
            rw [hFold] at hRest
            refine ⟨hRest.1, ?_⟩
            intro e' hMem
            rcases List.mem_cons.mp hMem with rfl | hMem
            · exact hMeets
            · exact hRest.2 e' hMem
        | some next =>
            rw [hFold] at hRest
            rcases hRest with ⟨hFrom, hFirst, hAll⟩
            refine ⟨?_, hFirst, ?_⟩
            · rcases hFrom with hFrom | ⟨e', hMem, hE'⟩
              · exact .inl hFrom
              · exact .inr
                  ⟨e', List.mem_cons_of_mem _ hMem, hE'⟩
            · intro e' hMem hE'
              rcases List.mem_cons.mp hMem with rfl | hMem
              · exact absurd hE' hMeets
              · exact hAll e' hMem hE'

theorem fits_of_skipTo
    (hSkip : skipTo extents place need = none) :
    Fits extents place need := by
  have hScan := foldl_skipStep extents place need none
  rw [← skipTo, hSkip] at hScan
  exact hScan.2

variable {next : Nat}

theorem skipTo_spec
    (hSkip : skipTo extents place need = some next) :
    (∃ e ∈ extents, e.Meets place need ∧
      e.stop = next) ∧
    ∀ e ∈ extents, e.Meets place need →
      e.stop ≤ next := by
  have hScan := foldl_skipStep extents place need none
  rw [← skipTo, hSkip] at hScan
  rcases hScan with ⟨hFrom, -, hAll⟩
  refine ⟨?_, hAll⟩
  rcases hFrom with hFrom | hFrom
  · cases hFrom
  · exact hFrom

theorem skipTo_gt
    (hSkip : skipTo extents place need = some next) :
    place < next := by
  rcases (skipTo_spec hSkip).1 with ⟨e, -, hMeets, rfl⟩
  exact hMeets.1

/-
  Nothing that starts before the place skipped to fits: the
  extent that ends there is still in its way.
-/
theorem not_fits_of_skipTo
    {next other : Nat}
    (hSkip : skipTo extents place need = some next)
    (hFrom : place ≤ other)
    (hBefore : other < next) :
    ¬Fits extents other need := by
  rcases (skipTo_spec hSkip).1 with
    ⟨e, hMem, hMeets, rfl⟩
  intro hFits
  apply hFits e hMem
  refine ⟨hBefore, ?_⟩
  have hStart := hMeets.2
  omega

end Skip

--
-- First Fit
--

/- The search, with a bound on its rounds. -/
def firstFit
    (extents : List Extent)
    (need : Nat) :
    (rounds place : Nat) → Option Nat
  | 0, _ => none
  | rounds + 1, place =>
      match skipTo extents place need with
      | none => some place
      | some next => firstFit extents need rounds next

/- The extents that a search from `place` may still meet. -/
def ahead
    (extents : List Extent)
    (place : Nat) : Nat :=
  extents.countP (fun e => place < e.stop)

section FirstFit

variable {extents : List Extent} {need : Nat}

theorem firstFit_spec
    {rounds place found : Nat}
    (hFound : firstFit extents need rounds place =
      some found) :
    place ≤ found ∧ Fits extents found need := by
  induction rounds generalizing place with
  | zero => cases hFound
  | succ rounds ih =>
      rw [firstFit] at hFound
      cases hSkip : skipTo extents place need with
      | none =>
          simp only [hSkip, Option.some.injEq] at hFound
          subst hFound
          exact ⟨Nat.le_refl _, fits_of_skipTo hSkip⟩
      | some next =>
          simp only [hSkip] at hFound
          have hLater := ih hFound
          have hNext := skipTo_gt hSkip
          exact ⟨by omega, hLater.2⟩

/- Nothing before the place found fits. -/
theorem firstFit_least
    {rounds place found other : Nat}
    (hFound : firstFit extents need rounds place =
      some found)
    (hFrom : place ≤ other)
    (hBefore : other < found) :
    ¬Fits extents other need := by
  induction rounds generalizing place with
  | zero => cases hFound
  | succ rounds ih =>
      rw [firstFit] at hFound
      cases hSkip : skipTo extents place need with
      | none =>
          simp only [hSkip, Option.some.injEq] at hFound
          omega
      | some next =>
          simp only [hSkip] at hFound
          by_cases hNext : next ≤ other
          · exact ih hFound hNext
          · exact not_fits_of_skipTo hSkip hFrom (by omega)

/- A search further on meets no more extents. -/
theorem ahead_le
    (extents : List Extent)
    {place place' : Nat}
    (hPlace : place ≤ place') :
    ahead extents place' ≤ ahead extents place := by
  apply List.countP_mono_left
  intro e _ hStop
  simp only [decide_eq_true_eq] at hStop ⊢
  omega

/- Every skip leaves an extent behind. -/
theorem ahead_lt
    {e : Extent}
    {place place' : Nat}
    (hMem : e ∈ extents)
    (hPlace : place < e.stop)
    (hStop : e.stop ≤ place') :
    ahead extents place' < ahead extents place := by
  induction extents with
  | nil => cases hMem
  | cons a rest ih =>
      simp only [ahead, List.countP_cons, decide_eq_true_eq]
        at ih ⊢
      rcases List.mem_cons.mp hMem with rfl | hMem
      · have hRest := ahead_le rest
          (Nat.le_trans (Nat.le_of_lt hPlace) hStop)
        simp only [ahead] at hRest
        rw [if_pos hPlace, if_neg (Nat.not_lt.mpr hStop)]
        omega
      · have hRest := ih hMem
        split <;> split <;> omega

theorem ahead_skipTo
    {place next : Nat}
    (hSkip : skipTo extents place need = some next) :
    ahead extents next < ahead extents place := by
  rcases (skipTo_spec hSkip).1 with
    ⟨e, hMem, hMeets, hStop⟩
  exact ahead_lt hMem hMeets.1 (Nat.le_of_eq hStop)

/-
  With more rounds than extents ahead, the search ends with
  a place.
-/
theorem firstFit_isSome
    {rounds place : Nat}
    (hRounds : ahead extents place < rounds) :
    ∃ found, firstFit extents need rounds place =
      some found := by
  induction rounds generalizing place with
  | zero => omega
  | succ rounds ih =>
      rw [firstFit]
      cases hSkip : skipTo extents place need with
      | none => exact ⟨place, rfl⟩
      | some next =>
          have hAhead := ahead_skipTo hSkip
          exact ih (by omega)

/- More rounds find the same place. -/
theorem firstFit_more
    {rounds place found : Nat}
    (hFound : firstFit extents need rounds place =
      some found)
    (extra : Nat) :
    firstFit extents need (rounds + extra) place =
      some found := by
  induction rounds generalizing place with
  | zero => cases hFound
  | succ rounds ih =>
      rw [Nat.succ_add, firstFit]
      rw [firstFit] at hFound
      cases hSkip : skipTo extents place need with
      | none => simpa only [hSkip] using hFound
      | some next =>
          simp only [hSkip] at hFound ⊢
          exact ih hFound

end FirstFit
