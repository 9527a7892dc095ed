import KvantOS.Kvfs.Directory

/-
  This file proves what mounting and formatting a KvFS disk
  do: a mount succeeds exactly on the disks that pass its
  checks, and its memory then mirrors the disk.

  Key definitions include:
    * `Accepted`, `diskMap`, `mountedFs`
    * `Sound`

  Key theorems include:
    * `kvfsMount_spec`, `kvfsMount_run`, `kvfsFormat_spec`
-/

namespace KvantOS.Kvfs

--
-- Disks That Mount
--

/- The superblock that a disk holds. -/
def diskSuper (d : Ata) : Super :=
  .ofSector (d.disk kvfsBase.toNat)

/- The files that a disk holds. -/
def diskMap (d : Ata) : FileMap :=
  fileMap (diskDir d.disk) d.disk

/- The disk passes every check of mounting. -/
structure Accepted (d : Ata) : Prop where
  drive : 0 ≤ d.drive
  magic : (diskSuper d).magic = kvfsMagic
  version : (diskSuper d).version = kvfsVersion
  super : SuperValid (diskSuper d) d.sectors
  dir : DirOk (diskSuper d).totalSectors.toNat
    (diskDir d.disk)

/- The state that mounting a disk leaves in memory. -/
def mountedFs (d : Ata) : Fs where
  super :=
    { diskSuper d with
      fileCount := .ofNat (liveCount (diskDir d.disk)) }
  dir := diskDir d.disk
  mounted := true
  dev := d.drive

/- The memory of a mounted file system mirrors its disk. -/
structure Sound
    (fs : Fs)
    (d : Ata) : Prop where
  accepted : Accepted d
  mounted : fs.mounted = true
  dev : fs.dev = d.drive
  total : fs.super.totalSectors =
    (diskSuper d).totalSectors
  data : fs.super.dataStart = dataStart
  dir : fs.dir = diskDir d.disk

section Accepted

variable {d : Ata}

theorem Accepted.sound
    (hAccepted : Accepted d) :
    Sound (mountedFs d) d where
  accepted := hAccepted
  mounted := rfl
  dev := rfl
  total := rfl
  data := hAccepted.super.1
  dir := rfl

/- The size of the file system, as numbers. -/
theorem Accepted.total
    (hAccepted : Accepted d) :
    2121 ≤ (diskSuper d).totalSectors.toNat ∧
      (diskSuper d).totalSectors.toNat ≤
        d.sectors.toNat := by
  have hLow := hAccepted.super.2.1
  have hHigh := hAccepted.super.2.2
  rw [UInt32.le_iff_toNat_le] at hLow hHigh
  exact ⟨hLow, hHigh⟩

/- A sector of the file system is one of the disk. -/
theorem Accepted.inRange
    (hAccepted : Accepted d)
    {lba : UInt32}
    (hLba : lba.toNat < (diskSuper d).totalSectors.toNat) :
    d.InRange d.drive lba :=
  ⟨rfl, hAccepted.drive,
    Nat.lt_of_lt_of_le hLba hAccepted.total.2⟩

end Accepted

theorem toNat_dirSector
    {s : Nat}
    (hs : s < 8) :
    (dirSector + UInt32.ofNat s).toNat = 2049 + s := by
  rw [UInt32.toNat_add]
  have hBase : dirSector.toNat = 2049 := rfl
  have hNat : (UInt32.ofNat s).toNat = s :=
    UInt32.toNat_ofNat_of_lt' (by
      have hSize : UInt32.size = 2 ^ 32 := rfl
      omega)
  rw [hBase, hNat]
  exact Nat.mod_eq_of_lt (by omega)

section ReadDir

variable {d : Ata} {lossy : Bool} {dev : Int}

/-
  Round by round the directory in memory becomes that of the
  disk.
-/
theorem readDirFrom_spec
    {left s : Nat}
    {dir : Dir}
    (hRounds : s + left = 8)
    (hRead : ∀ i : Fin 64, i.val / 8 < s →
      dir i = diskDir d.disk i) :
    (readDirFrom dev left s dir).Spec (Ata.answers lossy)
      (fun d' => d' = d)
      (fun out d' => d' = d ∧
        ((out.1 = true ∧ out.2 = diskDir d.disk) ∨
          (out.1 = false ∧
            ((∀ k, k < 8 → d.InRange dev
              (dirSector + .ofNat k)) → lossy = true))))
      d := by
  induction left generalizing s dir with
  | zero =>
      refine ⟨rfl, rfl, .inl ⟨rfl, ?_⟩⟩
      funext i
      have hi := i.isLt
      exact hRead i (by omega)
  | succ left ih =>
      have hs : s < 8 := by omega
      rw [readDirFrom]
      apply AtaProg.spec_read
      · rfl
      · intro hFault
        refine ⟨rfl, rfl, .inr ⟨rfl, fun hAll => ?_⟩⟩
        exact hFault (hAll s hs)
      · intro hRange
        apply ih (by omega)
        intro i hi
        unfold loadGroup
        by_cases hGroup : i.val / 8 = s
        · rw [if_pos hGroup, toNat_dirSector hs]
          unfold diskDir groupSector
          rw [hGroup]
          rfl
        · rw [if_neg hGroup]
          exact hRead i (by omega)

theorem readDir_spec
    (dir : Dir) :
    (readDir dev dir).Spec (Ata.answers lossy)
      (fun d' => d' = d)
      (fun out d' => d' = d ∧
        ((out.1 = true ∧ out.2 = diskDir d.disk) ∨
          (out.1 = false ∧
            ((∀ k, k < 8 → d.InRange dev
              (dirSector + .ofNat k)) → lossy = true))))
      d :=
  readDirFrom_spec rfl (fun i hi => absurd hi (by omega))

end ReadDir

--
-- Mounting
--

section Mount

variable {d : Ata} {lossy : Bool}

/-
  What a mount may return: success with the disk mirrored in
  memory, or a failure that an acceptable disk on a drive
  without faults never gives.
-/
def MountPost
    (lossy : Bool)
    (d : Ata)
    (out : Int × Fs) : Prop :=
  (out.1 = 0 ∧ Accepted d ∧ out.2 = mountedFs d) ∨
    (out.1 < 0 ∧ out.2.mounted = false ∧
      (Accepted d → lossy = true))

theorem kvfsMount_spec
    (lossy : Bool)
    (d : Ata)
    (fs : Fs) :
    (kvfsMount fs).Spec (Ata.answers lossy)
      (fun d' => d' = d)
      (fun out d' => d' = d ∧ MountPost lossy d out) d := by
  -- a refusal is a failed check of the disk
  have hRefuse : ∀ (code : Int) (fs' : Fs),
      code < 0 → fs'.mounted = false → ¬Accepted d →
      (return (code, fs') : AtaProg (Int × Fs)).Spec
        (Ata.answers lossy) (fun d' => d' = d)
        (fun out d' => d' = d ∧ MountPost lossy d out)
        d := by
    intro code fs' hCode hMounted hNot
    exact ⟨rfl, rfl, .inr ⟨hCode, hMounted,
      fun hAccepted => absurd hAccepted hNot⟩⟩
  unfold kvfsMount
  apply AtaProg.spec_bootDrive
  · rfl
  simp only
  split
  · next hDrive =>
      apply hRefuse _ _ (by decide) rfl
      intro hAccepted
      exact absurd hAccepted.drive (by omega)
  next hDrive =>
  apply AtaProg.spec_read
  · rfl
  · intro hFault
    refine ⟨rfl, rfl, .inr ⟨by simp, rfl, ?_⟩⟩
    intro hAccepted
    apply hFault
    apply hAccepted.inRange
    have hTotal := hAccepted.total.1
    have hBase : kvfsBase.toNat = 2048 := rfl
    omega
  intro hRange
  change Prog.Spec _ _ (ite _ _ _) _ _
  split
  · next hMagic =>
      apply hRefuse _ _ (by decide) rfl
      exact fun hAccepted => hMagic hAccepted.magic
  next hMagic =>
  split
  · next hVersion =>
      apply hRefuse _ _ (by decide) rfl
      exact fun hAccepted => hVersion hAccepted.version
  next hVersion =>
  apply AtaProg.spec_sectors
  · rfl
  have hSectors : d.sectorsOf d.drive = d.sectors :=
    if_pos ⟨rfl, by omega⟩
  rw [hSectors]
  split
  · next hSuper =>
      apply hRefuse _ _ (by decide) rfl
      exact fun hAccepted => hSuper hAccepted.super
  next hSuper =>
  apply (readDir_spec _).seq
  rintro ⟨ok, dir⟩ d' ⟨rfl, hDir⟩
  rcases hDir with ⟨rfl, rfl⟩ | ⟨rfl, hFault⟩
  · simp only [Bool.not_true, Bool.false_eq_true, if_false]
    split
    · next hDir =>
        apply hRefuse _ _ (by decide) rfl
        intro hAccepted
        exact hDir (dirValid_iff.mpr hAccepted.dir)
    · next hDir =>
        refine ⟨rfl, rfl, .inl ⟨rfl, ?_, rfl⟩⟩
        exact
          { drive := by omega
            magic := not_not.mp hMagic
            version := not_not.mp hVersion
            super := not_not.mp hSuper
            dir := dirValid_iff.mp (not_not.mp hDir) }
  · refine ⟨rfl, rfl, .inr ⟨by simp, rfl, ?_⟩⟩
    intro hAccepted
    apply hFault
    intro k hk
    apply hAccepted.inRange
    have hTotal := hAccepted.total.1
    rw [toNat_dirSector hk]
    omega

/- On a drive without faults an acceptable disk mounts. -/
theorem kvfsMount_run
    (hAccepted : Accepted d)
    (fs : Fs) :
    (kvfsMount fs).run Ata.perfect d =
      ((0, mountedFs d), d) := by
  have hRun := Prog.Spec.run (Ata.answers_perfect false)
    (kvfsMount_spec false d fs)
  rcases hRun with ⟨hDisk, ⟨hCode, -, hFs⟩ | ⟨-, -, hFault⟩⟩
  · rw [← hCode, ← hFs]
    exact Prod.ext rfl hDisk
  · exact absurd (hFault hAccepted) (by decide)

/- A mount that succeeds was of an acceptable disk. -/
theorem accepted_of_mount
    {fs : Fs}
    (hCode : ((kvfsMount fs).run Ata.perfect d).1.1 = 0) :
    Accepted d := by
  have hRun := Prog.Spec.run (Ata.answers_perfect false)
    (kvfsMount_spec false d fs)
  rcases hRun with ⟨-, ⟨-, hAccepted, -⟩ | ⟨hNeg, -, -⟩⟩
  · exact hAccepted
  · rw [hCode] at hNeg
    exact absurd hNeg (by decide)

end Mount

--
-- Formatting
--

section Format

variable {d : Ata} {lossy : Bool}

/- Only the directory sectors below `s` were written. -/
structure DirWritten
    (d : Ata)
    (dir : Dir)
    (s : Nat)
    (d' : Ata) : Prop where
  drive : d'.drive = d.drive
  sectors : d'.sectors = d.sectors
  inside : ∀ k, k < s →
    d'.disk (2049 + k) = dirGroup dir k
  outside : ∀ lba, lba < 2049 → d'.disk lba = d.disk lba

theorem writeDirFrom_spec
    {dev : Int}
    {dir : Dir}
    {left s : Nat}
    {d₀ d : Ata}
    (hRounds : s + left = 8)
    (hWritten : DirWritten d₀ dir s d) :
    (writeDirFrom dev dir left s).Spec (Ata.answers lossy)
      (fun _ => True)
      (fun ok d' => ok = true → DirWritten d₀ dir 8 d')
      d := by
  induction left generalizing s d with
  | zero =>
      refine ⟨trivial, fun _ => ?_⟩
      have hs : s = 8 := by omega
      rwa [hs] at hWritten
  | succ left ih =>
      have hs : s < 8 := by omega
      rw [writeDirFrom]
      apply AtaProg.spec_write trivial
      · intro _
        apply ih (by omega)
        refine ⟨hWritten.drive, hWritten.sectors, ?_, ?_⟩
        · intro k hk
          rw [Ata.put_disk, toNat_dirSector hs]
          by_cases hEq : k = s
          · rw [hEq, Function.update_self]
          · rw [Function.update_of_ne (by omega)]
            exact hWritten.inside k (by omega)
        · intro lba hLba
          rw [Ata.put_disk, toNat_dirSector hs,
            Function.update_of_ne (by omega)]
          exact hWritten.outside lba hLba
      · intro _
        exact ⟨trivial, fun h => by cases h⟩
      · intro _ _
        exact ⟨trivial, fun h => by cases h⟩

/- A written directory is the directory of the disk. -/
theorem DirWritten.diskDir_eq
    {dir : Dir}
    {d d' : Ata}
    (hWritten : DirWritten d dir 8 d') :
    diskDir d'.disk = dir := by
  funext i
  have hi := i.isLt
  have hBase : dirSector.toNat = 2049 := rfl
  unfold diskDir groupSector
  rw [hBase, hWritten.inside (i.val / 8) (by omega)]
  exact ofBytes_dirGroup dir i

theorem not_live_zero : ¬Dirent.zero.live := by
  decide

/- The empty directory stores no file. -/
theorem fileMap_zero
    (disk : Nat → Sector) :
    fileMap (fun _ => .zero) disk = fun _ => none := by
  have hOk : DirOk 0 (fun _ => Dirent.zero) :=
    { entry := fun _ hLive => absurd hLive not_live_zero
      names := fun _ _ hLive =>
        absurd hLive not_live_zero
      disjoint := fun _ _ hLive =>
        absurd hLive not_live_zero }
  exact (hOk.represents disk).unique
    (SlotMap.represents_empty fun _ =>
      slots_free not_live_zero)

/-
  What formatting returns: an empty file system mirrored in
  memory, or no mount at all.
-/
theorem kvfsFormat_spec
    (lossy : Bool)
    (d : Ata)
    (fs : Fs) :
    (kvfsFormat fs).Spec (Ata.answers lossy)
      (fun _ => True)
      (fun out d' =>
        (out.1 = 0 ∧ Sound out.2 d' ∧
          diskMap d' = fun _ => none) ∨
        (out.1 < 0 ∧ out.2.mounted = false)) d := by
  unfold kvfsFormat
  apply AtaProg.spec_bootDrive trivial
  simp only
  split
  · exact ⟨trivial, .inr ⟨by simp, rfl⟩⟩
  next hDrive =>
  apply AtaProg.spec_sectors trivial
  have hSectors : d.sectorsOf d.drive = d.sectors :=
    if_pos ⟨rfl, by omega⟩
  rw [hSectors]
  split
  · exact ⟨trivial, .inr ⟨by simp, rfl⟩⟩
  next hTotal =>
  apply AtaProg.spec_write trivial
  · intro _
    simp only [Bool.not_true, Bool.false_eq_true, if_false]
    generalize hSuper : ({ Super.zero with
      magic := kvfsMagic
      version := kvfsVersion
      totalSectors := d.sectors
      dataStart := dataStart
      fileCount := 0 } : Super) = super
    have hStart : DirWritten (d.put kvfsBase super.toSector)
        (fun _ => .zero) 0 (d.put kvfsBase super.toSector) :=
      { drive := rfl
        sectors := rfl
        inside := fun k hk => absurd hk (by omega)
        outside := fun _ _ => rfl }
    apply (writeDirFrom_spec rfl hStart).seq
    intro ok d' hWritten
    cases ok with
    | false => exact ⟨trivial, .inr ⟨by simp, rfl⟩⟩
    | true =>
        have hDone := hWritten rfl
        have hDir := hDone.diskDir_eq
        have hDisk : diskSuper d' = super := by
          unfold diskSuper
          rw [hDone.outside _ (by decide), Ata.put_disk,
            Function.update_self]
          exact Super.ofSector_toSector super
        have hDrive' : d'.drive = d.drive := hDone.drive
        have hSectors' : d'.sectors = d.sectors :=
          hDone.sectors
        have hOk : DirOk super.totalSectors.toNat
            (fun _ => Dirent.zero) :=
          { entry := fun _ hLive =>
              absurd hLive not_live_zero
            names := fun _ _ hLive =>
              absurd hLive not_live_zero
            disjoint := fun _ _ hLive =>
              absurd hLive not_live_zero }
        refine ⟨trivial, .inl ⟨rfl, ?_, ?_⟩⟩
        · exact
            { accepted :=
                { drive := by
                    rw [hDrive']
                    omega
                  magic := by rw [hDisk, ← hSuper]
                  version := by rw [hDisk, ← hSuper]
                  super := by
                    rw [hDisk, hSectors', ← hSuper]
                    refine ⟨rfl, ?_, UInt32.le_refl _⟩
                    exact UInt32.not_lt.mp hTotal
                  dir := by
                    rw [hDisk, hDir]
                    exact hOk }
              mounted := rfl
              dev := hDrive'.symm
              total := by rw [hDisk]
              data := by rw [← hSuper]
              dir := hDir.symm }
        · unfold diskMap
          rw [hDir]
          exact fileMap_zero d'.disk
  · intro _
    exact ⟨trivial, .inr ⟨by simp, rfl⟩⟩
  · intro _ _
    exact ⟨trivial, .inr ⟨by simp, rfl⟩⟩

end Format

end KvantOS.Kvfs
