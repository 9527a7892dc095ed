import KvantOS.Kvfs.Space
import Mathlib.Order.Bounds.Basic

/-
  This file proves that the search for space returns the
  least place with room, or 0 when there is none, and that
  its rounds are enough and its sums do not wrap.

  Key definitions include:
    * `Vacant`, `ExtentsOk`
    * `findSpaceIn`, `candidates`, `Found`

  Key theorems include:
    * `vacant_iff`, `findSpaceIn_found`, `findSpace_least`
-/

namespace KvantOS.Kvfs

/-
  The `need` sectors from a place are in the data area, and
  no entry in use has one of them.
-/
structure Vacant
    (fs : Fs)
    (need place : Nat) : Prop where
  low : fs.super.dataStart.toNat ≤ place
  high : place + need ≤ fs.super.totalSectors.toNat
  free : ∀ i, (fs.dir i).live → ∀ sector,
    place ≤ sector → sector < place + need →
      ¬(((fs.dir i).start.toNat ≤ sector) ∧
        sector < (fs.dir i).start.toNat +
          (fs.dir i).sectors.toNat)

/- The checks of mounting on the extents of the entries. -/
structure ExtentsOk (fs : Fs) : Prop where
  inRange : ∀ i, (fs.dir i).live →
    fs.super.dataStart.toNat ≤ (fs.dir i).start.toNat ∧
      0 < (fs.dir i).sectors.toNat ∧
      (fs.dir i).start.toNat + (fs.dir i).sectors.toNat ≤
        fs.super.totalSectors.toNat
  disjoint : ∀ i j, (fs.dir i).live → (fs.dir j).live →
    i ≠ j →
      (extentOf (fs.dir i)).Disjoint (extentOf (fs.dir j))

/- The search with a number of rounds. -/
def findSpaceIn
    (fs : Fs)
    (need : UInt32)
    (rounds : Nat) : UInt32 :=
  if noRoom fs.super.totalSectors fs.super.dataStart need
  then
    0
  else
    findSpaceFrom fs need rounds fs.super.dataStart

/- The candidates that are compared with the extents. -/
def candidates
    (fs : Fs)
    (need : UInt32) :
    (guard : Nat) → (candidate : UInt32) → List UInt32
  | 0, _ => []
  | guard + 1, candidate =>
      let (clash, next) :=
        spaceScan fs.dir candidate need
      candidate ::
        if !clash || noRoom fs.super.totalSectors next need
        then
          []
        else
          candidates fs need guard next

section Finding

variable {fs : Fs} {need : UInt32}

theorem ExtentsOk.below
    (hOk : ExtentsOk fs) :
    InRange fs.super.totalSectors.toNat fs.dir :=
  fun i hLive => (hOk.inRange i hLive).2.2

/- Extents that share no sector do not meet. -/
theorem vacant_iff
    (hOk : ExtentsOk fs)
    {need place : Nat}
    (hNeed : 1 ≤ need) :
    Vacant fs need place ↔
      fs.super.dataStart.toNat ≤ place ∧
        place + need ≤ fs.super.totalSectors.toNat ∧
        Fits (extents fs.dir) place need := by
  constructor
  · intro hVacant
    refine ⟨hVacant.low, hVacant.high, ?_⟩
    intro e hMem hMeets
    obtain ⟨i, hLive, rfl⟩ := mem_extents.mp hMem
    have hSome := (hOk.inRange i hLive).2.1
    change place < (fs.dir i).start.toNat +
        (fs.dir i).sectors.toNat ∧
      (fs.dir i).start.toNat < place + need at hMeets
    -- the later of the two starts is a sector of both
    exact hVacant.free i hLive
      (max place (fs.dir i).start.toNat)
      (Nat.le_max_left ..) (by omega) (by omega)
  · rintro ⟨hLow, hHigh, hFits⟩
    refine ⟨hLow, hHigh, ?_⟩
    intro i hLive sector hFrom hTo hShared
    apply hFits _ (mem_extents.mpr ⟨i, hLive, rfl⟩)
    change place < (fs.dir i).start.toNat +
        (fs.dir i).sectors.toNat ∧
      (fs.dir i).start.toNat < place + need
    omega

/- Every candidate leaves room below the end. -/
theorem candidates_room
    {guard : Nat}
    {candidate : UInt32}
    (hRoom : candidate.toNat + need.toNat ≤
      fs.super.totalSectors.toNat) :
    ∀ c ∈ candidates fs need guard candidate,
      c.toNat + need.toNat ≤
        fs.super.totalSectors.toNat := by
  induction guard generalizing candidate with
  | zero => simp [candidates]
  | succ guard ih =>
      intro c hMem
      rw [candidates, List.mem_cons] at hMem
      rcases hMem with rfl | hLater
      · exact hRoom
      · split at hLater
        · cases hLater
        · rename_i hMore
          simp only [Bool.or_eq_true, not_or,
            Bool.not_eq_true] at hMore
          exact ih (noRoom_eq_false.mp hMore.2) c hLater

/- Where the first fit lies, and that rounds are enough. -/
theorem findSpaceIn_firstFit
    (hOk : ExtentsOk fs)
    (hRoom : noRoom fs.super.totalSectors
      fs.super.dataStart need = false)
    {rounds : Nat}
    (hRounds : kvfsMaxFiles + 1 ≤ rounds) :
    ∃ found,
      (findSpaceIn fs need rounds).toNat =
        (if found + need.toNat ≤
            fs.super.totalSectors.toNat then found else 0) ∧
      fs.super.dataStart.toNat ≤ found ∧
      Fits (extents fs.dir) found need.toNat ∧
      ∀ place, fs.super.dataStart.toNat ≤ place →
        place < found →
          ¬Fits (extents fs.dir) place need.toNat := by
  obtain ⟨found, hFound⟩ := @firstFit_isSome _ need.toNat _ _
    (ahead_extents_lt fs.dir fs.super.dataStart.toNat)
  have hMore := firstFit_more hFound
    (rounds - (kvfsMaxFiles + 1))
  rw [Nat.add_sub_cancel' hRounds] at hMore
  have hNat := @toNat_findSpaceFrom _ _ fs hOk.below rounds
    (noRoom_eq_false.mp hRoom)
  rw [hMore, Option.filter_some] at hNat
  refine ⟨found, ?_, (firstFit_spec hFound).1,
    (firstFit_spec hFound).2, fun place hFrom hBefore =>
      firstFit_least hFound hFrom hBefore⟩
  unfold findSpaceIn
  rw [hRoom]
  simp only [Bool.false_eq_true, if_false]
  rw [hNat]
  by_cases hFits : found + need.toNat ≤
      fs.super.totalSectors.toNat
  · simp [hFits]
  · simp [hFits]

/- The result is the least place with room, or 0. -/
structure Found
    (fs : Fs)
    (need result : UInt32) : Prop where
  least : result ≠ 0 →
    IsLeast {place | Vacant fs need.toNat place} result.toNat
  full : result = 0 ↔ ¬∃ place, Vacant fs need.toNat place

theorem Found.unique
    {result other : UInt32}
    (hFound : Found fs need result)
    (hOther : Found fs need other) :
    result = other := by
  by_cases hZero : result = 0
  · rw [hZero, hOther.full.mpr (hFound.full.mp hZero)]
  · have hSome : other ≠ 0 := fun hNone =>
      hZero (hFound.full.mpr (hOther.full.mp hNone))
    exact UInt32.toNat_inj.mp
      ((hFound.least hZero).unique (hOther.least hSome))

theorem noRoom_full
    (hRoom : noRoom fs.super.totalSectors
      fs.super.dataStart need = true) :
    ¬∃ place, Vacant fs need.toNat place := by
  rintro ⟨place, hVacant⟩
  have hLow := hVacant.low
  have hHigh := hVacant.high
  have hFree : noRoom fs.super.totalSectors
      fs.super.dataStart need = false :=
    noRoom_eq_false.mpr (by omega)
  rw [hRoom] at hFree
  cases hFree

/- Enough rounds find the least place. -/
theorem findSpaceIn_found
    (hData : fs.super.dataStart ≠ 0)
    (hOk : ExtentsOk fs)
    (hNeed : 1 ≤ need.toNat)
    {rounds : Nat}
    (hRounds : kvfsMaxFiles + 1 ≤ rounds) :
    Found fs need (findSpaceIn fs need rounds) := by
  have hStart : 0 < fs.super.dataStart.toNat := by
    rw [Nat.pos_iff_ne_zero]
    exact fun hZero => hData (UInt32.toNat_inj.mp hZero)
  cases hRoom : noRoom fs.super.totalSectors
      fs.super.dataStart need with
  | true =>
      have hNone : findSpaceIn fs need rounds = 0 := by
        unfold findSpaceIn
        rw [hRoom]
        rfl
      exact ⟨fun hSome => absurd hNone hSome,
        fun _ => noRoom_full hRoom, fun _ => hNone⟩
  | false =>
      obtain ⟨found, hNat, hFrom, hFits, hLeast⟩ :=
        findSpaceIn_firstFit hOk hRoom hRounds
      have hBefore : ∀ place, Vacant fs need.toNat place →
          found ≤ place := by
        intro place hVacant
        by_contra hLess
        exact hLeast place hVacant.low (by omega)
          ((vacant_iff hOk hNeed).mp hVacant).2.2
      by_cases hIn : found + need.toNat ≤
          fs.super.totalSectors.toNat
      · rw [if_pos hIn] at hNat
        have hVacant : Vacant fs need.toNat found :=
          (vacant_iff hOk hNeed).mpr ⟨hFrom, hIn, hFits⟩
        refine ⟨fun _ => ?_, iff_of_false ?_ ?_⟩
        · rw [hNat]
          exact ⟨hVacant, hBefore⟩
        · intro hZero
          rw [hZero] at hNat
          have hNone : found = 0 := hNat.symm
          omega
        · exact fun hNone => hNone ⟨found, hVacant⟩
      · rw [if_neg hIn] at hNat
        have hZero : findSpaceIn fs need rounds = 0 :=
          UInt32.toNat_inj.mp hNat
        refine ⟨fun hSome => absurd hZero hSome,
          iff_of_true hZero ?_⟩
        rintro ⟨place, hVacant⟩
        have hAfter := hBefore place hVacant
        have hHigh := hVacant.high
        omega

/-
  The search returns the least place with room, and 0 when
  there is none; more rounds change nothing, and no sum with
  a candidate wraps.
-/
theorem findSpace_least
    (fs : Fs)
    (need : UInt32)
    (hData : fs.super.dataStart ≠ 0)
    (hOk : ExtentsOk fs)
    (hNeed : 1 ≤ need.toNat) :
    (findSpace fs need ≠ 0 →
      IsLeast {place | Vacant fs need.toNat place}
        (findSpace fs need).toNat) ∧
    (findSpace fs need = 0 ↔
      ¬∃ place, Vacant fs need.toNat place) ∧
    (∀ rounds, kvfsMaxFiles + 1 ≤ rounds →
      findSpaceIn fs need rounds = findSpace fs need) ∧
    (noRoom fs.super.totalSectors fs.super.dataStart need =
        false →
      ∀ rounds, ∀ c ∈ candidates fs need rounds
        fs.super.dataStart, c.toNat + need.toNat < 2 ^ 32) := by
  have hFound : Found fs need (findSpace fs need) :=
    findSpaceIn_found hData hOk hNeed (Nat.le_refl _)
  refine ⟨hFound.least, hFound.full, ?_, ?_⟩
  · intro rounds hRounds
    exact (findSpaceIn_found hData hOk hNeed hRounds).unique
      hFound
  · intro hRoom rounds c hMem
    have hTotal := fs.super.totalSectors.toNat_lt
    have hBound := candidates_room
      (noRoom_eq_false.mp hRoom) c hMem
    omega

end Finding

/- Two entries with a gap of two sectors between them. -/
def gapFs : Fs where
  super :=
    { Super.zero with
      totalSectors := 2200
      dataStart := 2057 }
  dir := fun i =>
    if i = 3 then
      { Dirent.zero with start := 2060, sectors := 4, flags := 1 }
    else if i = 1 then
      { Dirent.zero with start := 2057, sectors := 1, flags := 1 }
    else
      Dirent.zero
  mounted := true
  dev := 0

theorem gapFs_live
    {i : Fin 64}
    (hLive : (gapFs.dir i).live) :
    i = 3 ∨ i = 1 := by
  by_contra hNot
  rw [not_or] at hNot
  have hZero : gapFs.dir i = Dirent.zero := by
    unfold gapFs
    dsimp only
    rw [if_neg hNot.1, if_neg hNot.2]
  rw [hZero] at hLive
  exact absurd hLive (by decide)

theorem gapFs_ok : ExtentsOk gapFs where
  inRange := by
    intro i hLive
    rcases gapFs_live hLive with rfl | rfl
    · decide
    · decide
  disjoint := by
    intro i j hLive hLive' hNe
    rcases gapFs_live hLive with rfl | rfl
    · rcases gapFs_live hLive' with rfl | rfl
      · exact absurd rfl hNe
      · unfold Extent.Disjoint
        decide
    · rcases gapFs_live hLive' with rfl | rfl
      · unfold Extent.Disjoint
        decide
      · exact absurd rfl hNe

/- Three sectors do not fit in the gap. -/
theorem findSpace_least_gap :
    (findSpace gapFs 3 ≠ 0 →
      IsLeast {place | Vacant gapFs 3 place}
        (findSpace gapFs 3).toNat) ∧
    (findSpace gapFs 3 = 0 ↔ ¬∃ place, Vacant gapFs 3 place) ∧
    (∀ rounds, kvfsMaxFiles + 1 ≤ rounds →
      findSpaceIn gapFs 3 rounds = findSpace gapFs 3) ∧
    (noRoom gapFs.super.totalSectors gapFs.super.dataStart 3 =
        false →
      ∀ rounds, ∀ c ∈ candidates gapFs 3 rounds
        gapFs.super.dataStart, c.toNat + 3 < 2 ^ 32) :=
  findSpace_least gapFs 3 (by decide) gapFs_ok (by decide)

example : findSpace gapFs 3 = 2064 := by decide +kernel

end KvantOS.Kvfs
