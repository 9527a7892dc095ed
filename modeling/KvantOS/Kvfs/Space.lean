import KvantOS.Kvfs.Directory

/-
  This file proves that the search for space in 32-bit
  arithmetic is the first-fit search among the extents in
  use, cut off at the end of the file system.

  Key definitions include:
    * `extents`, `placeFor`

  Key theorems include:
    * `toNat_findSpace`, `placeFor_spec`
-/

namespace KvantOS.Kvfs

--
-- Extents in Use
--

/- The extents of the entries among some slots. -/
def extentsOf
    (dir : Dir)
    (among : List (Fin 64)) : List Extent :=
  (among.filter fun i => (dir i).live).map
    fun i => extentOf (dir i)

/- The extents in use. -/
def extents (dir : Dir) : List Extent :=
  extentsOf dir (List.finRange 64)

theorem mem_extents
    {dir : Dir}
    {e : Extent} :
    e ∈ extents dir ↔
      ∃ i, (dir i).live ∧ extentOf (dir i) = e := by
  simp [extents, extentsOf]

theorem length_extents_le (dir : Dir) :
    (extents dir).length ≤ 64 := by
  unfold extents extentsOf
  rw [List.length_map]
  refine Nat.le_trans (List.length_filter_le ..) ?_
  simp

/- A search meets at most every extent. -/
theorem ahead_extents_lt
    (dir : Dir)
    (place : Nat) :
    ahead (extents dir) place < kvfsMaxFiles + 1 := by
  have hCount : ahead (extents dir) place ≤
      (extents dir).length :=
    List.countP_le_length
  have hLength := length_extents_le dir
  unfold kvfsMaxFiles
  omega

/-
  Where the first fit from the start of the data area lies,
  when it ends inside the file system.
-/
def placeFor
    (used : List Extent)
    (total need : Nat) : Option Nat :=
  (firstFit used need (kvfsMaxFiles + 1)
    dataStart.toNat).filter
      fun place => place + need ≤ total

theorem placeFor_spec
    {used : List Extent}
    {total need place : Nat}
    (hPlace : placeFor used total need = some place) :
    2057 ≤ place ∧ place + need ≤ total ∧
      Fits used place need := by
  rcases Option.filter_eq_some_iff.mp hPlace with
    ⟨hFit, hRoom⟩
  have hSpec := firstFit_spec hFit
  have hData : dataStart.toNat = 2057 := rfl
  rw [hData] at hSpec
  exact ⟨hSpec.1, by simpa using hRoom, hSpec.2⟩

--
-- The Search in 32 Bits
--

section Search

variable {total : UInt32} {dir : Dir}
variable {candidate need : UInt32}

theorem noRoom_eq_false
    {limit : UInt32} :
    noRoom limit candidate need = false ↔
      candidate.toNat + need.toNat ≤ limit.toNat := by
  unfold noRoom
  rw [Bool.or_eq_false_iff, decide_eq_false_iff_not,
    decide_eq_false_iff_not, UInt32.not_lt, UInt32.not_lt]
  constructor
  · rintro ⟨hLe, hRoom⟩
    rw [UInt32.le_iff_toNat_le,
      UInt32.toNat_sub_of_le _ _ hLe] at hRoom
    rw [UInt32.le_iff_toNat_le] at hLe
    omega
  · intro hRoom
    have hLe : candidate ≤ limit := by
      rw [UInt32.le_iff_toNat_le]
      omega
    refine ⟨hLe, ?_⟩
    rw [UInt32.le_iff_toNat_le,
      UInt32.toNat_sub_of_le _ _ hLe]
    omega

/- No entry in use ends behind the file system. -/
def InRange
    (total : Nat)
    (dir : Dir) : Prop :=
  ∀ i, (dir i).live → (extentOf (dir i)).stop ≤ total

theorem DirOk.inRange
    {total : Nat}
    (hOk : DirOk total dir) :
    InRange total dir :=
  fun i hLive => (hOk.entry i hLive).high

variable {i : Fin 64}

/- The end of an extent does not wrap around. -/
theorem InRange.toNat_stop
    (hIn : InRange total.toNat dir)
    (hLive : (dir i).live) :
    ((dir i).start + (dir i).sectors).toNat =
      (extentOf (dir i)).stop := by
  have hHigh := hIn i hLive
  have hTotal := total.toNat_lt
  rw [UInt32.toNat_add]
  exact Nat.mod_eq_of_lt (Nat.lt_of_le_of_lt hHigh hTotal)

/- What the scan knows: the furthest end, if any. -/
def ScanIs
    (scan : Bool × UInt32)
    (next : Option Nat) : Prop :=
  (scan = (false, 0) ∧ next = none) ∨
    (scan.1 = true ∧ next = some scan.2.toNat)

/- One entry of the scan in 32 bits. -/
def spaceStep
    (dir : Dir)
    (candidate need : UInt32)
    (scan : Bool × UInt32)
    (i : Fin 64) : Bool × UInt32 :=
  if (dir i).live then
    let a := (dir i).start
    let b := (dir i).start + (dir i).sectors
    if candidate < b ∧ a < candidate + need then
      (true, if scan.2 < b then b else scan.2)
    else
      scan
  else
    scan

theorem spaceScan_eq_foldl :
    spaceScan dir candidate need =
      (List.finRange 64).foldl
        (spaceStep dir candidate need) (false, 0) :=
  rfl

variable {next : Option Nat} {scan : Bool × UInt32}

/- The scan takes the end of an entry in the way. -/
theorem spaceStep_live
    (hIn : InRange total.toNat dir)
    (hRoom : candidate.toNat + need.toNat ≤ total.toNat)
    (hScan : ScanIs scan next)
    (hLive : (dir i).live) :
    ScanIs (spaceStep dir candidate need scan i)
      (skipStep candidate.toNat need.toNat next
        (extentOf (dir i))) := by
  have hTotal := total.toNat_lt
  have hStop := hIn.toNat_stop hLive
  have hEnd : (candidate + need).toNat =
      candidate.toNat + need.toNat := by
    rw [UInt32.toNat_add]
    exact Nat.mod_eq_of_lt
      (Nat.lt_of_le_of_lt hRoom hTotal)
  have hMeets :
      (candidate < (dir i).start + (dir i).sectors ∧
        (dir i).start < candidate + need) ↔
        (extentOf (dir i)).Meets
          candidate.toNat need.toNat := by
    rw [UInt32.lt_iff_toNat_lt, UInt32.lt_iff_toNat_lt,
      hStop, hEnd]
    rfl
  unfold spaceStep skipStep
  rw [if_pos hLive]
  by_cases hWay : (extentOf (dir i)).Meets
      candidate.toNat need.toNat
  · rw [if_pos hWay]
    simp only
    rw [if_pos (hMeets.mpr hWay)]
    refine .inr ⟨rfl, ?_⟩
    have hLow : scan.2.toNat = next.getD 0 := by
      rcases hScan with ⟨rfl, rfl⟩ | ⟨-, rfl⟩ <;> rfl
    congr 1
    rw [← hLow, ← hStop]
    simp only
    split
    · next hLt =>
        rw [UInt32.lt_iff_toNat_lt] at hLt
        omega
    · next hLt =>
        rw [UInt32.lt_iff_toNat_lt] at hLt
        omega
  · rw [if_neg hWay]
    simp only
    rw [if_neg (fun h => hWay (hMeets.mp h))]
    exact hScan

theorem foldl_spaceStep
    (hIn : InRange total.toNat dir)
    (hRoom : candidate.toNat + need.toNat ≤ total.toNat)
    (among : List (Fin 64))
    (hScan : ScanIs scan next) :
    ScanIs
      (among.foldl (spaceStep dir candidate need) scan)
      ((extentsOf dir among).foldl
        (skipStep candidate.toNat need.toNat) next) := by
  induction among generalizing scan next with
  | nil => exact hScan
  | cons i rest ih =>
      rw [List.foldl_cons]
      by_cases hLive : (dir i).live
      · have hHead : extentsOf dir (i :: rest) =
            extentOf (dir i) :: extentsOf dir rest := by
          unfold extentsOf
          rw [List.filter_cons_of_pos (by simpa using hLive),
            List.map_cons]
        rw [hHead, List.foldl_cons]
        exact ih (spaceStep_live hIn hRoom hScan hLive)
      · have hHead : extentsOf dir (i :: rest) =
            extentsOf dir rest := by
          unfold extentsOf
          rw [List.filter_cons_of_neg (by simpa using hLive)]
        have hStep :
            spaceStep dir candidate need scan i = scan :=
          if_neg hLive
        rw [hHead, hStep]
        exact ih hScan

/- One round of the search is one skip. -/
theorem spaceScan_is
    (hIn : InRange total.toNat dir)
    (hRoom : candidate.toNat + need.toNat ≤ total.toNat) :
    ScanIs (spaceScan dir candidate need)
      (skipTo (extents dir) candidate.toNat
        need.toNat) := by
  rw [spaceScan_eq_foldl]
  exact foldl_spaceStep hIn hRoom _ (.inl ⟨rfl, rfl⟩)

variable {fs : Fs}

/- The search in 32 bits is the first fit that has room. -/
theorem toNat_findSpaceFrom
    (hIn : InRange fs.super.totalSectors.toNat fs.dir)
    {guard : Nat}
    (hRoom : candidate.toNat + need.toNat ≤
      fs.super.totalSectors.toNat) :
    (findSpaceFrom fs need guard candidate).toNat =
      ((firstFit (extents fs.dir) need.toNat guard
        candidate.toNat).filter fun place =>
          place + need.toNat ≤
            fs.super.totalSectors.toNat).getD 0 := by
  induction guard generalizing candidate with
  | zero => rfl
  | succ guard ih =>
      rw [findSpaceFrom, firstFit]
      rcases spaceScan_is hIn hRoom with
        ⟨hScan, hSkip⟩ | ⟨hClash, hSkip⟩
      · rw [hScan, hSkip]
        simp only [Bool.not_false, if_true]
        rw [noRoom_eq_false.mpr hRoom, Option.filter_some]
        simp only [Bool.false_eq_true, if_false,
          decide_eq_true_eq, if_pos hRoom]
        rfl
      · rw [hSkip]
        simp only [hClash, Bool.not_true,
          Bool.false_eq_true, if_false]
        cases hNext : noRoom fs.super.totalSectors
            (spaceScan fs.dir candidate need).2 need with
        | false =>
            simp only [Bool.false_eq_true, if_false]
            exact ih (noRoom_eq_false.mp hNext)
        | true =>
            -- the first fit lies at least as far as here
            have hFar : ¬(spaceScan fs.dir candidate
                need).2.toNat + need.toNat ≤
                  fs.super.totalSectors.toNat := by
              rw [← noRoom_eq_false, hNext]
              decide
            simp only [if_true]
            cases hFit : firstFit (extents fs.dir)
                need.toNat guard
                (spaceScan fs.dir candidate need).2.toNat with
            | none => rfl
            | some place =>
                have hPlace := (firstFit_spec hFit).1
                rw [Option.filter_some, if_neg]
                · rfl
                · simp only [decide_eq_true_eq]
                  omega

/- `find_space` returns the place, or 0 when there is none. -/
theorem toNat_findSpace
    (hOk : DirOk fs.super.totalSectors.toNat fs.dir)
    (hData : fs.super.dataStart = dataStart)
    (need : UInt32) :
    (findSpace fs need).toNat =
      (placeFor (extents fs.dir)
        fs.super.totalSectors.toNat need.toNat).getD 0 := by
  unfold findSpace placeFor
  rw [hData]
  cases hNo : noRoom fs.super.totalSectors dataStart
      need with
  | false =>
      simp only [hNo, Bool.false_eq_true, if_false]
      exact toNat_findSpaceFrom hOk.inRange
        (noRoom_eq_false.mp hNo)
  | true =>
      have hFar : ¬dataStart.toNat + need.toNat ≤
          fs.super.totalSectors.toNat := by
        rw [← noRoom_eq_false, hNo]
        decide
      simp only [hNo, if_true]
      cases hFit : firstFit (extents fs.dir) need.toNat
          (kvfsMaxFiles + 1) dataStart.toNat with
      | none => rfl
      | some place =>
          have hPlace := (firstFit_spec hFit).1
          rw [Option.filter_some, if_neg]
          · rfl
          · simp only [decide_eq_true_eq]
            omega

/- Space that was found is free. -/
theorem findSpace_spec
    (hOk : DirOk fs.super.totalSectors.toNat fs.dir)
    (hData : fs.super.dataStart = dataStart)
    (hFound : findSpace fs need ≠ 0) :
    2057 ≤ (findSpace fs need).toNat ∧
      (findSpace fs need).toNat + need.toNat ≤
        fs.super.totalSectors.toNat ∧
      Fits (extents fs.dir) (findSpace fs need).toNat
        need.toNat := by
  have hNat := toNat_findSpace hOk hData need
  cases hPlace : placeFor (extents fs.dir)
      fs.super.totalSectors.toNat need.toNat with
  | none =>
      rw [hPlace] at hNat
      exact absurd (UInt32.toNat_inj.mp hNat) hFound
  | some place =>
      rw [hPlace] at hNat
      rw [hNat]
      exact placeFor_spec hPlace

end Search

end KvantOS.Kvfs
