import KvantOS.Kvfs.Mount
import KvantOS.Kvfs.Space

/-
  This file proves that publishing a directory entry is
  atomic: it switches the files of the disk from one map to
  another in one sector write, and fences the mount when
  that write is reported as failed.

  Key definitions include:
    * `SpareFailures`, `SaveResult`, `Atomic`

  Key theorems include:
    * `fileMap_congr`, `Sound.spare`, `commitEntry_atomic`
-/

namespace KvantOS.Kvfs

section Frame

variable {total : Nat} {dir : Dir} {disk disk' : Nat → Sector}
variable {e : Dirent}

/- A file depends on the sectors of its extent only. -/
theorem fileOf_congr
    (hFits : e.size.toNat ≤ e.sectors.toNat * 512)
    (hSame : ∀ lba, e.start.toNat ≤ lba →
      lba < (extentOf e).stop → disk lba = disk' lba) :
    fileOf disk e = fileOf disk' e := by
  refine File.ext ?_ rfl
  apply List.map_congr_left
  intro i hi
  have hSize := List.mem_range.mp hi
  unfold bodyByte
  rw [hSame _ (Nat.le_add_right ..)]
  change _ < e.start.toNat + e.sectors.toNat
  omega

/- The map depends on the extents in use only. -/
theorem fileMap_congr
    (hOk : DirOk total dir)
    (hSame : ∀ i, (dir i).live → ∀ lba,
      (dir i).start.toNat ≤ lba →
      lba < (extentOf (dir i)).stop →
      disk lba = disk' lba) :
    fileMap dir disk = fileMap dir disk' := by
  funext name
  unfold fileMap
  cases hFind : findEntry dir name with
  | none => rfl
  | some i =>
      have hLive := (findEntry_some hFind).1
      rw [Option.map_some, Option.map_some, fileOf_congr
        (hOk.entry i hLive).fits (hSame i hLive)]

/- The directory depends on its sectors only. -/
theorem diskDir_congr
    (hSame : ∀ lba, 2049 ≤ lba → lba < 2057 →
      disk lba = disk' lba) :
    diskDir disk = diskDir disk' := by
  funext i
  have hi := i.isLt
  have hBase : dirSector.toNat = 2049 := rfl
  unfold diskDir groupSector
  rw [hBase, hSame _ (by omega) (by omega)]

end Frame

--
-- Writes to Spare Sectors
--

/- No write of a directory sector was reported as failed. -/
def SpareFailures (d d' : Ata) : Prop :=
  ∃ recent, d'.failed = recent ++ d.failed ∧
    ∀ lba ∈ recent, lba < 2049 ∨ 2057 ≤ lba

theorem SpareFailures.refl (d : Ata) :
    SpareFailures d d :=
  ⟨[], rfl, fun _ hMem => by cases hMem⟩

/- Only some spare sectors changed. -/
structure SpareOnly
    (d : Ata)
    (start need : Nat)
    (d' : Ata) : Prop where
  drive : d'.drive = d.drive
  sectors : d'.sectors = d.sectors
  outside : ∀ lba, lba < start ∨ start + need ≤ lba →
    d'.disk lba = d.disk lba
  failures : SpareFailures d d'

namespace SpareOnly

variable {d d' : Ata} {start need : Nat}

theorem refl
    (d : Ata)
    (start need : Nat) :
    SpareOnly d start need d where
  drive := rfl
  sectors := rfl
  outside := fun _ _ => rfl
  failures := .refl d

theorem put
    (hSpare : SpareOnly d start need d')
    {lba : UInt32}
    (hLow : start ≤ lba.toNat)
    (hHigh : lba.toNat < start + need)
    (data : Sector) :
    SpareOnly d start need (d'.put lba data) where
  drive := hSpare.drive
  sectors := hSpare.sectors
  outside := by
    intro other hOther
    rw [Ata.put_disk, Function.update_of_ne (by omega)]
    exact hSpare.outside other hOther
  failures := hSpare.failures

theorem fail
    (hSpare : SpareOnly d start need d')
    (lba : UInt32)
    (hLba : 2057 ≤ lba.toNat) :
    SpareOnly d start need (d'.fail lba) where
  drive := hSpare.drive
  sectors := hSpare.sectors
  outside := hSpare.outside
  failures := by
    rcases hSpare.failures with ⟨recent, hFailed, hAll⟩
    refine ⟨lba.toNat :: recent, ?_, ?_⟩
    · rw [Ata.fail_failed, hFailed]
      rfl
    · intro other hMem
      rcases List.mem_cons.mp hMem with rfl | hMem
      · exact .inr hLba
      · exact hAll other hMem

end SpareOnly

/- A sector of an extent in use is not a spare one. -/
theorem outside_of_fits
    {dir : Dir}
    {start need lba : Nat}
    (hFits : Fits (extents dir) start need)
    {i : Fin 64}
    (hLive : (dir i).live)
    (hLow : (dir i).start.toNat ≤ lba)
    (hHigh : lba < (extentOf (dir i)).stop) :
    lba < start ∨ start + need ≤ lba := by
  have hNot := hFits _ (mem_extents.mpr ⟨i, hLive, rfl⟩)
  by_contra hInside
  apply hNot
  refine ⟨by omega, ?_⟩
  change (dir i).start.toNat < _
  omega

section Spare

variable {fs : Fs} {d d' : Ata} {start need : Nat}

/- Writes to spare sectors leave every file alone. -/
theorem Sound.spare
    (hSound : Sound fs d)
    (hStart : 2057 ≤ start)
    (hFits : Fits (extents fs.dir) start need)
    (hSpare : SpareOnly d start need d') :
    Sound fs d' ∧ diskMap d' = diskMap d := by
  have hAccepted := hSound.accepted
  have hDir : diskDir d'.disk = diskDir d.disk := by
    apply diskDir_congr
    intro lba _ hHigh
    exact hSpare.outside lba (.inl (by omega))
  have hSuper : diskSuper d' = diskSuper d := by
    unfold diskSuper
    rw [hSpare.outside _ (.inl ?_)]
    have hBase : kvfsBase.toNat = 2048 := rfl
    omega
  constructor
  · exact
      { accepted :=
          { drive := by
              rw [hSpare.drive]
              exact hAccepted.drive
            magic := by
              rw [hSuper]
              exact hAccepted.magic
            version := by
              rw [hSuper]
              exact hAccepted.version
            super := by
              rw [hSuper, hSpare.sectors]
              exact hAccepted.super
            dir := by
              rw [hSuper, hDir]
              exact hAccepted.dir }
        mounted := hSound.mounted
        dev := hSound.dev.trans hSpare.drive.symm
        total := by
          rw [hSuper]
          exact hSound.total
        data := hSound.data
        dir := hSound.dir.trans hDir.symm }
  · unfold diskMap
    rw [hDir]
    apply fileMap_congr hAccepted.dir
    intro i hLive lba hLow hHigh
    apply hSpare.outside
    rw [hSound.dir] at hFits
    exact outside_of_fits hFits hLive hLow hHigh

theorem Sound.dirOk
    (hSound : Sound fs d) :
    DirOk fs.super.totalSectors.toNat fs.dir := by
  rw [hSound.total, hSound.dir]
  exact hSound.accepted.dir

theorem Sound.map_eq
    (hSound : Sound fs d) :
    diskMap d = fileMap fs.dir d.disk := by
  rw [diskMap, hSound.dir]

end Spare

/-
  How a change of the files to `target` ends.

  `done`: it is on the disk. `refused`: every file is as it
  was. `fenced`: a directory write failed, with an unknown
  outcome, and nothing is mounted any more.
-/
inductive SaveResult
    (lossy : Bool)
    (d : Ata)
    (target : FileMap)
    (out : Int × Fs)
    (d' : Ata) : Prop where
  | done
      (hCode : out.1 = 0)
      (hSound : Sound out.2 d')
      (hMap : diskMap d' = target)
      (hFailures : SpareFailures d d')
  | refused
      (hCode : out.1 < 0)
      (hSound : Sound out.2 d')
      (hMap : diskMap d' = diskMap d)
      (hFailures : SpareFailures d d')
      (hTarget : lossy = false → target = diskMap d)
  | fenced
      (hLossy : lossy = true)
      (hCode : out.1 < 0)
      (hMounted : out.2.mounted = false)

/-
  Wherever the program stops, the disk mounts with the files
  as they were or with those of the target.
-/
def Atomic
    (d : Ata)
    (target : FileMap)
    (program : AtaProg (Int × Fs)) : Prop :=
  ∀ lossy, program.Spec (Ata.answers lossy)
    (fun d' => Accepted d' ∧
      (diskMap d' = diskMap d ∨ diskMap d' = target))
    (SaveResult lossy d target) d

--
-- Publishing an Entry
--

section Commit

variable {fs : Fs} {d : Ata} {slot : Fin 64} {entry : Dirent}

/- The directory sector with one entry replaced. -/
def commitSector
    (dir : Dir)
    (slot : Fin 64)
    (entry : Dirent) : Sector :=
  (((dirBytes dir).drop (slot.val / 8 * 512)).copy
    (slot.val % 8 * 64) entry.toBytes 64).toSector

theorem ofBytes_commitSector
    (dir : Dir)
    (slot : Fin 64)
    (entry : Dirent)
    {i : Fin 64}
    (hGroup : i.val / 8 = slot.val / 8) :
    Dirent.ofBytes ((commitSector dir slot entry).toBuf.drop
      (i.val % 8 * 64)) =
        Function.update dir slot entry i := by
  by_cases hEq : i = slot
  · rw [hEq, Function.update_self,
      ← Dirent.ofBytes_toBytes entry]
    apply Dirent.ofBytes_congr
    intro j hj
    have hInside : slot.val % 8 * 64 + j < 512 := by omega
    change (commitSector dir slot _).toBuf
      (slot.val % 8 * 64 + j) = _
    rw [commitSector, Buf.toBuf_toSector hInside,
      Buf.copy_inside (Nat.le_add_right ..) (by omega),
      Nat.add_sub_cancel_left, Dirent.ofBytes_toBytes]
  · have hNe : i.val % 8 ≠ slot.val % 8 := by
      intro hRest
      apply hEq
      apply Fin.ext
      omega
    rw [Function.update_of_ne hEq, ← ofBytes_dirGroup dir i]
    apply Dirent.ofBytes_congr
    intro j hj
    have hInside : i.val % 8 * 64 + j < 512 := by omega
    change (commitSector dir slot entry).toBuf
        (i.val % 8 * 64 + j) =
      (dirGroup dir (i.val / 8)).toBuf (i.val % 8 * 64 + j)
    rw [commitSector, dirGroup, Buf.toBuf_toSector hInside,
      Buf.toBuf_toSector hInside,
      Buf.copy_outside (by omega), hGroup]

/- The write that publishes an entry. -/
theorem diskDir_commit
    {disk : Nat → Sector}
    (slot : Fin 64)
    (entry : Dirent) :
    diskDir (Function.update disk (groupSector slot)
      (commitSector (diskDir disk) slot entry)) =
        Function.update (diskDir disk) slot entry := by
  funext i
  by_cases hGroup : i.val / 8 = slot.val / 8
  · have hSector : groupSector i = groupSector slot := by
      unfold groupSector
      rw [hGroup]
    rw [← ofBytes_commitSector (diskDir disk) slot entry
      hGroup]
    unfold diskDir
    rw [hSector, Function.update_self]
  · have hSector : groupSector i ≠ groupSector slot := by
      unfold groupSector
      omega
    have hNe : i ≠ slot := by
      rintro rfl
      exact hGroup rfl
    rw [Function.update_of_ne hNe]
    unfold diskDir
    rw [Function.update_of_ne hSector]

theorem groupSector_eq (slot : Fin 64) :
    (dirSector + .ofNat (slot.val / 8)).toNat =
      groupSector slot := by
  have hSlot := slot.isLt
  exact toNat_dirSector (by omega)

theorem groupSector_bounds (slot : Fin 64) :
    2049 ≤ groupSector slot ∧ groupSector slot < 2057 := by
  have hSlot := slot.isLt
  have hBase : dirSector.toNat = 2049 := rfl
  unfold groupSector
  omega

/- The disk once the entry is published. -/
theorem Sound.commit
    (hSound : Sound fs d)
    (hDir : DirOk fs.super.totalSectors.toNat
      (Function.update fs.dir slot entry))
    {d' : Ata}
    (hDrive : d'.drive = d.drive)
    (hSectors : d'.sectors = d.sectors)
    (hDisk : d'.disk = Function.update d.disk
      (groupSector slot) (commitSector fs.dir slot entry))
    (count : UInt32) :
    Sound { fs with
        super := { fs.super with fileCount := count }
        dir := Function.update fs.dir slot entry } d' ∧
      diskMap d' =
        fileMap (Function.update fs.dir slot entry)
          d.disk := by
  have hAccepted := hSound.accepted
  have hBounds := groupSector_bounds slot
  have hDirs : diskDir d'.disk =
      Function.update fs.dir slot entry := by
    rw [hDisk, hSound.dir]
    exact diskDir_commit slot entry
  have hSuper : diskSuper d' = diskSuper d := by
    have hBase : kvfsBase.toNat = 2048 := rfl
    unfold diskSuper
    rw [hDisk, Function.update_of_ne (by omega)]
  constructor
  · exact
      { accepted :=
          { drive := by
              rw [hDrive]
              exact hAccepted.drive
            magic := by
              rw [hSuper]
              exact hAccepted.magic
            version := by
              rw [hSuper]
              exact hAccepted.version
            super := by
              rw [hSuper, hSectors]
              exact hAccepted.super
            dir := by
              rw [hSuper, hDirs, ← hSound.total]
              exact hDir }
        mounted := hSound.mounted
        dev := hSound.dev.trans hDrive.symm
        total := by
          rw [hSuper]
          exact hSound.total
        data := hSound.data
        dir := hDirs.symm }
  · unfold diskMap
    rw [hDirs]
    apply fileMap_congr hDir
    intro i hLive lba hLow _
    have hStart := (hDir.entry i hLive).low
    rw [hDisk, Function.update_of_ne (by omega)]

/-
  Publishing an entry that keeps the directory sound is
  atomic, and succeeds when no write fails.
-/
theorem commitEntry_atomic
    (hSound : Sound fs d)
    (hDir : DirOk fs.super.totalSectors.toNat
      (Function.update fs.dir slot entry)) :
    Atomic d
      (fileMap (Function.update fs.dir slot entry) d.disk)
      (commitEntry fs slot entry) := by
  intro lossy
  have hAccepted := hSound.accepted
  have hRange : d.InRange fs.dev
      (dirSector + .ofNat (slot.val / 8)) := by
    rw [hSound.dev]
    apply hAccepted.inRange
    have hTotal := hAccepted.total.1
    have hBounds := groupSector_bounds slot
    rw [groupSector_eq]
    omega
  have hPut : ∀ d' : Ata,
      d'.drive = d.drive → d'.sectors = d.sectors →
      d'.disk = (d.put (dirSector + .ofNat (slot.val / 8))
        (commitSector fs.dir slot entry)).disk →
      ∀ count, Sound { fs with
          super := { fs.super with fileCount := count }
          dir := Function.update fs.dir slot entry } d' ∧
        diskMap d' =
          fileMap (Function.update fs.dir slot entry)
            d.disk := by
    intro d' hDrive hSectors hDisk
    rw [Ata.put_disk, groupSector_eq] at hDisk
    exact hSound.commit hDir hDrive hSectors hDisk
  unfold commitEntry
  apply AtaProg.spec_write
  · exact ⟨hAccepted, .inl rfl⟩
  · intro _
    have hNew := hPut (d.put _ _) rfl rfl rfl
      (.ofNat (kvfsFileCount { fs with
        dir := Function.update fs.dir slot entry }))
    refine ⟨⟨hNew.1.accepted, .inr hNew.2⟩, ?_⟩
    exact .done rfl hNew.1 hNew.2 (.refl d)
  · intro hFault
    refine ⟨⟨⟨hAccepted.drive, hAccepted.magic,
      hAccepted.version, hAccepted.super,
      hAccepted.dir⟩, .inl rfl⟩, ?_⟩
    exact .fenced (hFault hRange) (by simp) rfl
  · intro _ hLossy
    have hNew := hPut ((d.put _ _).fail
      (dirSector + .ofNat (slot.val / 8))) rfl rfl rfl 0
    refine ⟨⟨hNew.1.accepted, .inr hNew.2⟩, ?_⟩
    exact .fenced hLossy (by simp) rfl

end Commit

end KvantOS.Kvfs
