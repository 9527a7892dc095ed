import KvantOS.Kvfs.Model
import KvantOS.Data.SlotMap
import KvantOS.Data.FirstFit

/-
  This file reads a KvFS directory as a finite map from names
  to files, and restates the checks of mounting over the
  natural numbers, where extents cannot wrap around.

  Key definitions include:
    * `File`, `FileMap`
    * `fileOf`, `fileMap`
    * `EntryOk`, `DirOk`

  Key theorems include:
    * `dirValid_iff`, `DirOk.represents`
    * `DirOk.set`, `DirOk.clear`
-/

namespace KvantOS.Kvfs

--
-- Files
--

/- The contents of a file and whether it is executable. -/
@[ext]
structure File where
  data : List UInt8
  exec : Bool
  deriving DecidableEq

/- What the file system stores: files under names. -/
abbrev FileMap :=
  CStr → Option File

/- The extent of an entry. -/
def extentOf (e : Dirent) : Extent where
  start := e.start.toNat
  length := e.sectors.toNat

/- Byte `i` of the body that begins in a sector. -/
def bodyByte
    (disk : Nat → Sector)
    (start i : Nat) : UInt8 :=
  (disk (start + i / 512)).toBuf (i % 512)

/- The file that an entry describes. -/
def fileOf
    (disk : Nat → Sector)
    (e : Dirent) : File where
  data := (List.range e.size.toNat).map
    (bodyByte disk e.start.toNat)
  exec := e.isExec

/- What each slot of the directory binds. -/
def slots
    (dir : Dir)
    (disk : Nat → Sector) :
    Fin 64 → Option (CStr × File) :=
  fun i =>
    if (dir i).live then
      some ((dir i).nameOf, fileOf disk (dir i))
    else
      none

/- The files of a disk, by lookup in its directory. -/
def fileMap
    (dir : Dir)
    (disk : Nat → Sector) : FileMap :=
  fun name =>
    (findEntry dir name).map fun i => fileOf disk (dir i)

--
-- Entry Checks over Natural Numbers
--

theorem toNat_sectorsFor (size : UInt32) :
    (sectorsFor size).toNat =
      (size.toNat + 511) / 512 := by
  have hLt := size.toNat_lt
  unfold sectorsFor
  rw [UInt32.toNat_add]
  have hDiv : (size / 512).toNat = size.toNat / 512 := rfl
  have hMod : (size % 512).toNat = size.toNat % 512 := rfl
  by_cases hRest : size % 512 = 0
  · have hZero : size.toNat % 512 = 0 := by
      rw [← hMod, hRest]
      rfl
    rw [if_neg (by simpa using hRest), hDiv]
    simp only [UInt32.toNat_zero]
    omega
  · have hPos : size.toNat % 512 ≠ 0 := by
      intro hZero
      apply hRest
      apply UInt32.toNat_inj.mp
      rw [hMod, hZero]
      rfl
    rw [if_pos hRest, hDiv]
    have hOne : (1 : UInt32).toNat = 1 := rfl
    rw [hOne]
    omega

/- The meaning of the checks on one entry. -/
structure EntryOk
    (total : Nat)
    (e : Dirent) : Prop where
  terminated : CStr.Terminated e.name
  named : e.nameOf.bytes ≠ []
  flags : e.flags &&& ~~~3 = 0
  nonempty : 0 < e.sectors.toNat
  low : 2057 ≤ e.start.toNat
  high : (extentOf e).stop ≤ total
  fits : e.size.toNat ≤ e.sectors.toNat * 512
  small : e.size.toNat < 2 ^ 31

section Entries

variable {super : Super} {e d : Dirent}

theorem entryValid_iff :
    EntryValid super e ↔
      EntryOk super.totalSectors.toNat e := by
  have hData : dataStart.toNat = 2057 := rfl
  have hMax : (0x7fffffff : UInt32).toNat = 2 ^ 31 - 1 := rfl
  have hName : e.name 0 ≠ 0 ↔ e.nameOf.bytes ≠ [] :=
    not_congr CStr.ofBuffer_eq_nil_iff.symm
  have hSectors : e.sectors ≠ 0 ↔ 0 < e.sectors.toNat := by
    rw [Nat.pos_iff_ne_zero, not_iff_not,
      ← UInt32.toNat_inj]
    rfl
  unfold EntryValid
  rw [hName, hSectors]
  constructor
  · rintro ⟨hTerm, hNamed, hFlags, hPos, hLow, hStart, hRoom,
      hSize, hSmall⟩
    rw [UInt32.le_iff_toNat_le] at hLow hRoom hSize hSmall
    rw [UInt32.toNat_sub_of_le _ _
      (UInt32.le_of_lt hStart)] at hRoom
    rw [UInt32.lt_iff_toNat_lt] at hStart
    rw [toNat_sectorsFor] at hSize
    refine ⟨hTerm, hNamed, hFlags, hPos, by omega, ?_,
      by omega, by omega⟩
    change e.start.toNat + e.sectors.toNat ≤ _
    omega
  · intro hOk
    have hHigh : e.start.toNat + e.sectors.toNat ≤
        super.totalSectors.toNat :=
      hOk.high
    have hPos := hOk.nonempty
    have hLow := hOk.low
    have hFits := hOk.fits
    have hSmall := hOk.small
    have hStart : e.start < super.totalSectors := by
      rw [UInt32.lt_iff_toNat_lt]
      omega
    refine ⟨hOk.terminated, hOk.named, hOk.flags, hPos,
      ?_, hStart, ?_, ?_, ?_⟩
    · rw [UInt32.le_iff_toNat_le]
      omega
    · rw [UInt32.le_iff_toNat_le, UInt32.toNat_sub_of_le _ _
        (UInt32.le_of_lt hStart)]
      omega
    · rw [UInt32.le_iff_toNat_le, toNat_sectorsFor]
      omega
    · rw [UInt32.le_iff_toNat_le]
      omega

/- The end of an extent does not wrap around. -/
theorem EntryOk.toNat_stop
    {total : UInt32}
    (hOk : EntryOk total.toNat e) :
    (e.start + e.sectors).toNat = (extentOf e).stop := by
  have hHigh := hOk.high
  have hTotal := total.toNat_lt
  rw [UInt32.toNat_add]
  exact Nat.mod_eq_of_lt (Nat.lt_of_le_of_lt hHigh hTotal)

theorem conflict_iff
    {total : UInt32}
    (hOk : EntryOk total.toNat e)
    (hOk' : EntryOk total.toNat d) :
    Conflict e d ↔
      e.nameOf = d.nameOf ∨
        ¬(extentOf e).Disjoint (extentOf d) := by
  unfold Conflict
  rw [UInt32.lt_iff_toNat_lt, UInt32.lt_iff_toNat_lt,
    hOk.toNat_stop, hOk'.toNat_stop, Extent.Disjoint,
    not_not, and_comm]
  rfl

end Entries

/- The meaning of the directory check of mounting. -/
structure DirOk
    (total : Nat)
    (dir : Dir) : Prop where
  entry : ∀ i, (dir i).live → EntryOk total (dir i)
  names : ∀ i j, (dir i).live → (dir j).live →
    (dir i).nameOf = (dir j).nameOf → i = j
  disjoint : ∀ i j, (dir i).live → (dir j).live →
    i ≠ j → (extentOf (dir i)).Disjoint (extentOf (dir j))

theorem dirValid_iff
    {super : Super}
    {dir : Dir} :
    DirValid super dir ↔
      DirOk super.totalSectors.toNat dir := by
  constructor
  · intro hValid
    have hEntry : ∀ i, (dir i).live →
        EntryOk super.totalSectors.toNat (dir i) :=
      fun i hLive => entryValid_iff.mp (hValid i hLive).1
    have hApart : ∀ i j, (dir i).live → (dir j).live →
        j < i → (dir i).nameOf ≠ (dir j).nameOf ∧
          (extentOf (dir i)).Disjoint
            (extentOf (dir j)) := by
      intro i j hI hJ hLt
      have hNo := (hValid i hI).2 j hLt hJ
      rw [conflict_iff (hEntry i hI) (hEntry j hJ),
        not_or, not_not] at hNo
      exact hNo
    refine ⟨hEntry, ?_, ?_⟩
    · intro i j hI hJ hName
      rcases lt_trichotomy i j with hLt | hEq | hLt
      · exact absurd hName.symm (hApart j i hJ hI hLt).1
      · exact hEq
      · exact absurd hName (hApart i j hI hJ hLt).1
    · intro i j hI hJ hNe
      rcases lt_or_gt_of_ne hNe with hLt | hLt
      · exact (hApart j i hJ hI hLt).2.symm
      · exact (hApart i j hI hJ hLt).2
  · intro hOk i hLive
    refine ⟨entryValid_iff.mpr (hOk.entry i hLive), ?_⟩
    intro j hLt hJ
    rw [conflict_iff (hOk.entry i hLive) (hOk.entry j hJ),
      not_or, not_not]
    refine ⟨?_, hOk.disjoint i j hLive hJ hLt.ne'⟩
    intro hName
    exact hLt.ne' (hOk.names i j hLive hJ hName)

--
-- Lookup
--

section Lookup

variable {dir : Dir} {name : CStr} {i : Fin 64}

theorem findEntry_some
    (hFind : findEntry dir name = some i) :
    (dir i).live ∧ (dir i).nameOf = name := by
  have hTest := List.find?_some hFind
  simpa using hTest

theorem findEntry_none
    (hFind : findEntry dir name = none)
    (hLive : (dir i).live) :
    (dir i).nameOf ≠ name := by
  have hTest := List.find?_eq_none.mp hFind i
    (List.mem_finRange i)
  simp only [Bool.and_eq_true, decide_eq_true_eq,
    not_and] at hTest
  exact hTest hLive

theorem findFree_some
    (hFind : findFree dir = some i) :
    ¬(dir i).live := by
  have hTest := List.find?_some hFind
  simpa using hTest

/- Lookup finds the entry in use under a name. -/
theorem DirOk.findEntry_eq
    {total : Nat}
    (hOk : DirOk total dir)
    (hLive : (dir i).live) :
    findEntry dir (dir i).nameOf = some i := by
  cases hFind : findEntry dir (dir i).nameOf with
  | none => exact absurd rfl (findEntry_none hFind hLive)
  | some j =>
      have hFound := findEntry_some hFind
      rw [hOk.names j i hFound.1 hLive hFound.2]

end Lookup

--
-- The Directory as a Map
--

section Map

variable {total : Nat} {dir : Dir} {disk : Nat → Sector}
variable {i : Fin 64} {e : Dirent}

theorem slots_live
    (hLive : (dir i).live) :
    slots dir disk i =
      some ((dir i).nameOf, fileOf disk (dir i)) :=
  if_pos hLive

theorem slots_free
    (hFree : ¬(dir i).live) :
    slots dir disk i = none :=
  if_neg hFree

theorem slots_eq_some
    {name : CStr}
    {file : File}
    (hSlot : slots dir disk i = some (name, file)) :
    (dir i).live ∧ (dir i).nameOf = name ∧
      fileOf disk (dir i) = file := by
  by_cases hLive : (dir i).live
  · rw [slots_live hLive] at hSlot
    cases hSlot
    exact ⟨hLive, rfl, rfl⟩
  · rw [slots_free hLive] at hSlot
    cases hSlot

theorem DirOk.distinct
    (hOk : DirOk total dir)
    (disk : Nat → Sector) :
    SlotMap.Distinct (slots dir disk) := by
  intro i j name file file' hI hJ
  have hI := slots_eq_some hI
  have hJ := slots_eq_some hJ
  exact hOk.names i j hI.1 hJ.1 (hI.2.1.trans hJ.2.1.symm)

/- Lookup by name is the map that the slots store. -/
theorem DirOk.represents
    (hOk : DirOk total dir)
    (disk : Nat → Sector) :
    SlotMap.Represents (slots dir disk)
      (fileMap dir disk) := by
  intro name file
  constructor
  · intro hSome
    rcases Option.map_eq_some_iff.mp hSome with
      ⟨i, hFind, hFile⟩
    have hFound := findEntry_some hFind
    refine ⟨i, ?_⟩
    rw [slots_live hFound.1, hFound.2, hFile]
  · rintro ⟨i, hSlot⟩
    rcases slots_eq_some hSlot with ⟨hLive, rfl, rfl⟩
    unfold fileMap
    rw [hOk.findEntry_eq hLive]
    rfl

theorem slots_update_live
    (hLive : e.live) :
    slots (Function.update dir i e) disk =
      Function.update (slots dir disk) i
        (some (e.nameOf, fileOf disk e)) := by
  funext j
  by_cases hEq : j = i
  · subst hEq
    rw [Function.update_self]
    simp only [slots, Function.update_self, if_pos hLive]
  · rw [Function.update_of_ne hEq]
    simp only [slots, Function.update_of_ne hEq]

theorem slots_update_free
    (hFree : ¬e.live) :
    slots (Function.update dir i e) disk =
      Function.update (slots dir disk) i none := by
  funext j
  by_cases hEq : j = i
  · subst hEq
    rw [Function.update_self]
    simp only [slots, Function.update_self, if_neg hFree]
  · rw [Function.update_of_ne hEq]
    simp only [slots, Function.update_of_ne hEq]

/- A slot may be freed. -/
theorem DirOk.clear
    (hOk : DirOk total dir)
    (hFree : ¬e.live)
    (i : Fin 64) :
    DirOk total (Function.update dir i e) := by
  have hOther : ∀ j,
      (Function.update dir i e j).live →
        Function.update dir i e j = dir j := by
    intro j hLive
    by_cases hEq : j = i
    · rw [hEq, Function.update_self] at hLive
      exact absurd hLive hFree
    · exact Function.update_of_ne hEq ..
  refine ⟨?_, ?_, ?_⟩
  · intro j hLive
    have hEntry := hOther j hLive
    rw [hEntry] at hLive ⊢
    exact hOk.entry j hLive
  · intro j k hJ hK
    have hEntry := hOther j hJ
    have hEntry' := hOther k hK
    rw [hEntry] at hJ ⊢
    rw [hEntry'] at hK ⊢
    exact hOk.names j k hJ hK
  · intro j k hJ hK
    have hEntry := hOther j hJ
    have hEntry' := hOther k hK
    rw [hEntry] at hJ ⊢
    rw [hEntry'] at hK ⊢
    exact hOk.disjoint j k hJ hK

/-
  A slot may take a sound entry whose name and extent no
  other slot uses.
-/
theorem DirOk.set
    (hOk : DirOk total dir)
    (hEntry : EntryOk total e)
    (hName : ∀ j, j ≠ i → (dir j).live →
      (dir j).nameOf ≠ e.nameOf)
    (hApart : ∀ j, j ≠ i → (dir j).live →
      (extentOf (dir j)).Disjoint (extentOf e)) :
    DirOk total (Function.update dir i e) := by
  refine ⟨?_, ?_, ?_⟩
  · intro j hLive
    by_cases hJ : j = i
    · rw [hJ, Function.update_self]
      exact hEntry
    · rw [Function.update_of_ne hJ] at hLive ⊢
      exact hOk.entry j hLive
  · intro j k hLiveJ hLiveK hSame
    by_cases hJ : j = i
    · by_cases hK : k = i
      · rw [hJ, hK]
      · rw [hJ, Function.update_self,
          Function.update_of_ne hK] at hSame
        rw [Function.update_of_ne hK] at hLiveK
        exact absurd hSame.symm (hName k hK hLiveK)
    · rw [Function.update_of_ne hJ] at hLiveJ hSame
      by_cases hK : k = i
      · rw [hK, Function.update_self] at hSame
        exact absurd hSame (hName j hJ hLiveJ)
      · rw [Function.update_of_ne hK] at hLiveK hSame
        exact hOk.names j k hLiveJ hLiveK hSame
  · intro j k hLiveJ hLiveK hNe
    by_cases hJ : j = i
    · have hK : k ≠ i := by
        rintro rfl
        exact hNe hJ
      rw [Function.update_of_ne hK] at hLiveK ⊢
      rw [hJ, Function.update_self]
      exact (hApart k hK hLiveK).symm
    · rw [Function.update_of_ne hJ] at hLiveJ ⊢
      by_cases hK : k = i
      · rw [hK, Function.update_self]
        exact hApart j hJ hLiveJ
      · rw [Function.update_of_ne hK] at hLiveK ⊢
        exact hOk.disjoint j k hLiveJ hLiveK hNe

end Map

end KvantOS.Kvfs
