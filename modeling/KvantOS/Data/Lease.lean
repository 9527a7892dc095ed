import KvantOS.Data.FirstFit
import Mathlib.Logic.Function.Basic

/-
  This file reads a history of grants and uses as leases: a
  holder may use what lies inside the extent of its last
  grant, until something drops the lease.

  It is generic in the holders.

  Key definitions include:
    * `Lease.Entry`, `Lease.holder`, `Lease.Lawful`
    * `Lease.LastGrant`, `Lease.Respected`, `Lease.Tracks`

  Key theorems include:
    * `Lease.Lawful.respected`, `Lease.Tracks.use`
    * `Lease.Tracks.drop`, `Lease.Tracks.grant`
-/

/- One extent lies wholly inside another. -/
def Extent.Within (e e' : Extent) : Prop :=
  e'.start ≤ e.start ∧ e.stop ≤ e'.stop

namespace Lease

variable {K : Type}

--
-- Histories
--

/-
  What is recorded: a lease is granted, one lease or every
  lease is dropped, a holder uses an extent, or it does what
  takes a lease of any extent.
-/
inductive Entry (K : Type) where
  | grant (key : K) (extent : Extent)
  | drop (key : K)
  | dropAll
  | use (key : K) (extent : Extent)
  | touch (key : K)

/- An entry that ends the lease of a holder. -/
def Entry.Ends (entry : Entry K) (key : K) : Prop :=
  match entry with
  | .grant k _ => k = key
  | .drop k => k = key
  | .dropAll => True
  | .use _ _ => False
  | .touch _ => False

/-
  The last grant of a holder was of this extent, and nothing
  has ended the lease since.
-/
def LastGrant
    (past : List (Entry K))
    (key : K)
    (lease : Extent) : Prop :=
  ∃ after before,
    past = after ++ .grant key lease :: before ∧
      ∀ entry ∈ after, ¬entry.Ends key

/-
  Whatever happened under a lease happened after its grant,
  before its end, and inside its extent.
-/
structure Respected (log : List (Entry K)) : Prop where
  use : ∀ later past key extent,
    log = later ++ .use key extent :: past →
      ∃ lease, LastGrant past key lease ∧
        extent.Within lease
  touch : ∀ later past key,
    log = later ++ .touch key :: past →
      ∃ lease, LastGrant past key lease

theorem LastGrant.cons
    {past : List (Entry K)}
    {key : K}
    {lease : Extent}
    {entry : Entry K}
    (hGrant : LastGrant past key lease)
    (hKeeps : ¬entry.Ends key) :
    LastGrant (entry :: past) key lease := by
  rcases hGrant with ⟨after, before, rfl, hAfter⟩
  refine ⟨entry :: after, before, rfl, ?_⟩
  intro e hMem
  rcases List.mem_cons.mp hMem with rfl | hMem
  · exact hKeeps
  · exact hAfter e hMem

variable [DecidableEq K]

/- The lease of a holder, from the latest entry on. -/
def holder : List (Entry K) → K → Option Extent
  | [], _ => none
  | .grant key extent :: past, k =>
      if k = key then some extent else holder past k
  | .drop key :: past, k =>
      if k = key then none else holder past k
  | .dropAll :: _, _ => none
  | .use _ _ :: past, k => holder past k
  | .touch _ :: past, k => holder past k

/-
  Every use lay wholly inside the lease that its holder had
  at the time.
-/
def Lawful : List (Entry K) → Prop
  | [] => True
  | .use key extent :: past =>
      (∃ lease, holder past key = some lease ∧
        extent.Within lease) ∧ Lawful past
  | .touch key :: past =>
      (∃ lease, holder past key = some lease) ∧ Lawful past
  | .grant _ _ :: past => Lawful past
  | .drop _ :: past => Lawful past
  | .dropAll :: past => Lawful past

/-
  The leases that a state believes in are those of the
  history.
-/
def Tracks
    (believed : K → Option Extent)
    (log : List (Entry K)) : Prop :=
  ∀ key lease, believed key = some lease →
    holder log key = some lease

--
-- Histories, Entry by Entry
--

/- A lease that is held was granted and not ended since. -/
theorem lastGrant_of_holder
    {past : List (Entry K)}
    {key : K}
    {lease : Extent}
    (hHolder : holder past key = some lease) :
    LastGrant past key lease := by
  induction past with
  | nil => cases hHolder
  | cons entry past ih =>
      cases entry with
      | grant k extent =>
          by_cases hEq : key = k
          · rw [holder, if_pos hEq] at hHolder
            injection hHolder with hHolder
            refine ⟨[], past, ?_, by simp⟩
            rw [hEq, hHolder, List.nil_append]
          · rw [holder, if_neg hEq] at hHolder
            exact (ih hHolder).cons (Ne.symm hEq)
      | drop k =>
          by_cases hEq : key = k
          · rw [holder, if_pos hEq] at hHolder
            cases hHolder
          · rw [holder, if_neg hEq] at hHolder
            exact (ih hHolder).cons (Ne.symm hEq)
      | dropAll => cases hHolder
      | use k extent => exact (ih hHolder).cons id
      | touch k => exact (ih hHolder).cons id

theorem lawful_of_cons
    {entry : Entry K}
    {past : List (Entry K)}
    (hLawful : Lawful (entry :: past)) :
    Lawful past := by
  cases entry with
  | grant k extent => exact hLawful
  | drop k => exact hLawful
  | dropAll => exact hLawful
  | use k extent => exact hLawful.2
  | touch k => exact hLawful.2

theorem lawful_of_append
    {later past : List (Entry K)}
    (hLawful : Lawful (later ++ past)) :
    Lawful past := by
  induction later with
  | nil => exact hLawful
  | cons entry later ih =>
      exact ih (lawful_of_cons hLawful)

/- A lawful history respects every lease. -/
theorem Lawful.respected
    {log : List (Entry K)}
    (hLawful : Lawful log) :
    Respected log where
  use := by
    rintro later past key extent rfl
    rcases (lawful_of_append hLawful).1 with
      ⟨lease, hHolder, hWithin⟩
    exact ⟨lease, lastGrant_of_holder hHolder, hWithin⟩
  touch := by
    rintro later past key rfl
    rcases (lawful_of_append hLawful).1 with
      ⟨lease, hHolder⟩
    exact ⟨lease, lastGrant_of_holder hHolder⟩

--
-- Preservation
--

variable {believed believed' : K → Option Extent}
variable {log : List (Entry K)} {key : K}

/- Believing in less is always safe. -/
theorem Tracks.mono
    (hTracks : Tracks believed log)
    (hLess : ∀ k lease, believed' k = some lease →
      believed k = some lease) :
    Tracks believed' log :=
  fun k lease h => hTracks k lease (hLess k lease h)

/- A use leaves the leases alone. -/
theorem Tracks.use
    (hTracks : Tracks believed log)
    (key : K)
    (extent : Extent) :
    Tracks believed (.use key extent :: log) :=
  hTracks

/- A holder that gives up its lease may drop it. -/
theorem Tracks.drop
    (hTracks : Tracks believed log)
    (hLess : ∀ k lease, believed' k = some lease →
      k ≠ key ∧ believed k = some lease) :
    Tracks believed' (.drop key :: log) := by
  intro k lease h
  rcases hLess k lease h with ⟨hNe, hOld⟩
  exact (if_neg hNe).trans (hTracks k lease hOld)

/- Nobody believes in a lease once all are dropped. -/
theorem tracks_dropAll
    (hNone : ∀ k, believed' k = none) :
    Tracks believed' (.dropAll :: log) := by
  intro k lease h
  rw [hNone k] at h
  cases h

/- A granted lease is believed in by its holder. -/
theorem Tracks.grant
    {extent : Extent}
    (hTracks : Tracks believed log)
    (hSelf : ∀ lease, believed' key = some lease →
      lease = extent)
    (hLess : ∀ k lease, k ≠ key →
      believed' k = some lease → believed k = some lease) :
    Tracks believed' (.grant key extent :: log) := by
  intro k lease h
  by_cases hEq : k = key
  · subst hEq
    rw [hSelf lease h]
    exact if_pos rfl
  · exact (if_neg hEq).trans
      (hTracks k lease (hLess k lease hEq h))

/- A use inside a lease that is believed in is lawful. -/
theorem Lawful.use
    {extent lease : Extent}
    (hLawful : Lawful log)
    (hTracks : Tracks believed log)
    (hLease : believed key = some lease)
    (hWithin : extent.Within lease) :
    Lawful (.use key extent :: log) :=
  ⟨⟨lease, hTracks key lease hLease, hWithin⟩, hLawful⟩

theorem Lawful.touch
    {lease : Extent}
    (hLawful : Lawful log)
    (hTracks : Tracks believed log)
    (hLease : believed key = some lease) :
    Lawful (.touch key :: log) :=
  ⟨⟨lease, hTracks key lease hLease⟩, hLawful⟩

end Lease
