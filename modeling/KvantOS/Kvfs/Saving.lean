import KvantOS.Kvfs.Commit

/-
  This file proves that saving, deleting and renaming a file
  are atomic changes of the map of files, and that reading
  delivers the bytes of the map.

  Key definitions include:
    * `bytesOf`, `Settles`

  Key theorems include:
    * `kvfsWrite_settles`, `kvfsDelete_settles`
    * `kvfsRename_settles`, `kvfsRead_spec`
-/

namespace KvantOS.Kvfs

/-
  A call is refused before it touches the disk, or it is an
  atomic change to files that its effect allows.
-/
def Settles
    (fs : Fs)
    (d : Ata)
    (effect : FileMap → Prop)
    (program : AtaProg (Int × Fs)) : Prop :=
  (∃ code, code < 0 ∧ program = return (code, fs)) ∨
    ∃ target, effect target ∧ Atomic d target program

theorem Settles.refused
    {fs : Fs}
    {d : Ata}
    {effect : FileMap → Prop}
    {code : Int}
    (hCode : code < 0) :
    Settles fs d effect (return (code, fs)) :=
  .inl ⟨code, hCode, rfl⟩

theorem SpareFailures.trans
    {d d' d'' : Ata}
    (hFirst : SpareFailures d d')
    (hSecond : SpareFailures d' d'') :
    SpareFailures d d'' := by
  rcases hFirst with ⟨recent, hFailed, hAll⟩
  rcases hSecond with ⟨recent', hFailed', hAll'⟩
  refine ⟨recent' ++ recent, ?_, ?_⟩
  · rw [hFailed', hFailed, List.append_assoc]
  · intro lba hMem
    rcases List.mem_append.mp hMem with hMem | hMem
    · exact hAll' lba hMem
    · exact hAll lba hMem

variable {target : FileMap}

/- A change after steps that left every file alone. -/
theorem SaveResult.after
    {lossy : Bool}
    {d d' d'' : Ata}
    {out : Int × Fs}
    (hMap : diskMap d' = diskMap d)
    (hFailures : SpareFailures d d')
    (hResult : SaveResult lossy d' target out d'') :
    SaveResult lossy d target out d'' := by
  cases hResult with
  | done hCode hSound hTarget hLater =>
      exact .done hCode hSound hTarget
        (hFailures.trans hLater)
  | refused hCode hSound hSame hLater hTarget =>
      rw [hMap] at hSame hTarget
      exact .refused hCode hSound hSame
        (hFailures.trans hLater) hTarget
  | fenced hLossy hCode hMounted =>
      exact .fenced hLossy hCode hMounted

--
-- Names in a Directory
--

section Slots

variable {total : Nat} {dir : Dir} {disk : Nat → Sector}
variable {name : CStr} {slot : Fin 64}

theorem fileMap_none
    (hFind : findEntry dir name = none) :
    fileMap dir disk name = none := by
  unfold fileMap
  rw [hFind]
  rfl

theorem fileMap_some
    (hFind : findEntry dir name = some slot) :
    fileMap dir disk name =
      some (fileOf disk (dir slot)) := by
  unfold fileMap
  rw [hFind]
  rfl

/- The slot found under a name stores its binding. -/
theorem slots_of_findEntry
    (hFind : findEntry dir name = some slot) :
    slots dir disk slot =
      some (name, fileOf disk (dir slot)) := by
  have hFound := findEntry_some hFind
  rw [slots_live hFound.1, hFound.2]

/- The slot of a save is the name's own, or a free one. -/
theorem saveSlot_cases
    (hSlot : saveSlot dir name = some slot) :
    findEntry dir name = some slot ∨
      (findEntry dir name = none ∧ ¬(dir slot).live) := by
  unfold saveSlot at hSlot
  cases hFind : findEntry dir name with
  | some i =>
      rw [hFind] at hSlot
      exact .inl hSlot
  | none =>
      rw [hFind] at hSlot
      exact .inr ⟨rfl, findFree_some hSlot⟩

/- No other slot holds the name that a save publishes. -/
theorem DirOk.saveSlot_unique
    (hOk : DirOk total dir)
    (hSlot : saveSlot dir name = some slot)
    {other : Fin 64}
    (hNe : other ≠ slot)
    (hLive : (dir other).live) :
    (dir other).nameOf ≠ name := by
  rcases saveSlot_cases hSlot with hFind | ⟨hFind, -⟩
  · have hFound := findEntry_some hFind
    intro hName
    apply hNe
    exact hOk.names other slot hLive hFound.1
      (hName.trans hFound.2.symm)
  · exact findEntry_none hFind hLive

/- Publishing in the slot of a save binds the name. -/
theorem DirOk.fileMap_save
    {entry : Dirent}
    (hOk : DirOk total dir)
    (hSlot : saveSlot dir name = some slot)
    (hDir : DirOk total (Function.update dir slot entry))
    (hLive : entry.live)
    (hName : entry.nameOf = name) :
    fileMap (Function.update dir slot entry) disk =
      Function.update (fileMap dir disk) name
        (some (fileOf disk entry)) := by
  apply (hDir.represents disk).unique
  rw [slots_update_live hLive, hName]
  rcases saveSlot_cases hSlot with
    hFind | ⟨hFind, hFree⟩
  · have hRebound := (hOk.represents disk).rebind
      (hOk.distinct disk) (slots_of_findEntry hFind)
      (.inl rfl) (fileOf disk entry)
    rwa [Function.update_idem] at hRebound
  · exact (hOk.represents disk).fill (slots_free hFree)
      (fileMap_none hFind) _

end Slots

--
-- File Bodies
--

/- The bytes that a caller hands over. -/
def bytesOf
    (data : Option Buf)
    (size : UInt32) : List UInt8 :=
  (data.getD .zero).toList size.toNat

theorem toNat_saveSectors (size : UInt32) :
    (saveSectors size).toNat =
      max 1 ((size.toNat + 511) / 512) := by
  have hNat := toNat_sectorsFor size
  unfold saveSectors
  split
  · next hZero =>
      rw [hZero] at hNat
      have hNone : (0 : UInt32).toNat = 0 := rfl
      have hOne : (1 : UInt32).toNat = 1 := rfl
      omega
  · next hPos =>
      have hNe : (sectorsFor size).toNat ≠ 0 :=
        fun h => hPos (UInt32.toNat_inj.mp h)
      omega

/- The offset of a body sector does not wrap around. -/
theorem toNat_offset
    {k : Nat}
    (hk : k < 2 ^ 23) :
    (UInt32.ofNat k * 512).toNat = k * 512 := by
  rw [UInt32.toNat_mul, UInt32.toNat_ofNat']
  change k % 2 ^ 32 * 512 % 2 ^ 32 = k * 512
  omega

/- The bytes of the sector are those that remain. -/
theorem toNat_remaining
    {size offset : UInt32}
    (hOffset : offset < size) :
    (if 512 < size - offset then 512
      else size - offset).toNat =
        min 512 (size.toNat - offset.toNat) := by
  have hRest : (size - offset).toNat =
      size.toNat - offset.toNat :=
    UInt32.toNat_sub_of_le _ _ (UInt32.le_of_lt hOffset)
  split
  · next hMany =>
      rw [UInt32.lt_iff_toNat_lt, hRest] at hMany
      exact (Nat.min_eq_left (Nat.le_of_lt hMany)).symm
  · next hFew =>
      rw [UInt32.lt_iff_toNat_lt, hRest] at hFew
      rw [hRest]
      exact (Nat.min_eq_right (Nat.le_of_not_lt hFew)).symm

/- A byte of a body sector. -/
theorem bodySector_byte
    {data : Buf}
    {size : UInt32}
    {k i : Nat}
    (hk : k < 2 ^ 23)
    (hi : i < 512)
    (hSize : k * 512 + i < size.toNat) :
    (bodySector data size (.ofNat k)).toBuf i =
      data (k * 512 + i) := by
  have hOffset := toNat_offset hk
  have hLt : UInt32.ofNat k * 512 < size := by
    rw [UInt32.lt_iff_toNat_lt, hOffset]
    exact Nat.lt_of_le_of_lt (Nat.le_add_right ..) hSize
  unfold bodySector
  simp only [if_pos hLt]
  rw [Buf.toBuf_toSector hi, toNat_remaining hLt, hOffset,
    Buf.copy_inside (Nat.zero_le _) (by clear hOffset; omega)]
  rfl

section Body

variable {fs : Fs} {d₀ d : Ata} {lossy : Bool}
variable {start size : UInt32} {data : Buf} {need : Nat}

/-
  Writing a body into spare sectors leaves every file alone,
  and fails on a lossy drive only.
-/
theorem writeBody_spec
    (lossy : Bool)
    (data : Buf)
    (size : UInt32)
    (hSound : Sound fs d₀)
    (hStart : 2057 ≤ start.toNat)
    (hRoom : start.toNat + need ≤
      fs.super.totalSectors.toNat)
    (hFits : Fits (extents fs.dir) start.toNat need)
    {left : Nat}
    {s : UInt32}
    (hRounds : s.toNat + left = need)
    (hSpare : SpareOnly d₀ start.toNat need d)
    (hWritten : ∀ k, k < s.toNat →
      d.disk (start.toNat + k) =
        bodySector data size (.ofNat k)) :
    (writeBody fs.dev start data size left s).Spec
      (Ata.answers lossy)
      (fun d' => Accepted d' ∧ diskMap d' = diskMap d₀)
      (fun ok d' => SpareOnly d₀ start.toNat need d' ∧
        (ok = true → ∀ k, k < need →
          d'.disk (start.toNat + k) =
            bodySector data size (.ofNat k)) ∧
        (ok = false → lossy = true)) d := by
  have hTotal := fs.super.totalSectors.toNat_lt
  have hCrash : ∀ {d'}, SpareOnly d₀ start.toNat need d' →
      Accepted d' ∧ diskMap d' = diskMap d₀ := by
    intro d' hSpare'
    have hLater := hSound.spare hStart hFits hSpare'
    exact ⟨hLater.1.accepted, hLater.2⟩
  induction left generalizing s d with
  | zero =>
      refine ⟨hCrash hSpare, hSpare, ?_, fun h => by cases h⟩
      intro _ k hk
      exact hWritten k (by omega)
  | succ left ih =>
      have hLba : (start + s).toNat =
          start.toNat + s.toNat := by
        rw [UInt32.toNat_add]
        exact Nat.mod_eq_of_lt (by omega)
      have hNext : (s + 1).toNat = s.toNat + 1 := by
        rw [UInt32.toNat_add]
        exact Nat.mod_eq_of_lt (by
          have hOne : (1 : UInt32).toNat = 1 := rfl
          omega)
      have hRange : d.InRange fs.dev (start + s) := by
        have hAccepted :=
          (hSound.spare hStart hFits hSpare).1
        rw [hAccepted.dev]
        apply hAccepted.accepted.inRange
        rw [← hAccepted.total, hLba]
        omega
      have hPut : SpareOnly d₀ start.toNat need
          (d.put (start + s) (bodySector data size s)) :=
        hSpare.put (by omega) (by omega) _
      rw [writeBody]
      apply AtaProg.spec_write
      · exact hCrash hSpare
      · intro _
        apply ih (by omega) hPut
        intro k hk
        rw [Ata.put_disk, hLba]
        by_cases hEq : k = s.toNat
        · rw [hEq, Function.update_self, UInt32.ofNat_toNat]
        · rw [Function.update_of_ne (by omega)]
          exact hWritten k (by omega)
      · intro hFault
        have hFail := hSpare.fail (start + s) (by omega)
        refine ⟨hCrash hFail, hFail, ?_, fun _ => ?_⟩
        · intro hOk
          cases hOk
        · exact hFault hRange
      · intro _ hLossy
        have hFail := hPut.fail (start + s) (by omega)
        refine ⟨hCrash hFail, hFail, ?_, fun _ => hLossy⟩
        intro hOk
        cases hOk

/- A saved file is in use, with no flag but its own. -/
theorem savedFlags_spec :
    ∀ isExec, savedFlags isExec &&& 1 ≠ 0 ∧
      (savedFlags isExec &&& 2 != 0) = isExec ∧
      savedFlags isExec &&& ~~~3 = 0 := by
  decide

variable {isExec : Bool}

/- A saved entry describes the bytes it was saved with. -/
theorem fileOf_savedEntry
    {disk : Nat → Sector}
    {name : CStr}
    (hSmall : size.toNat < 2 ^ 31)
    (hWritten : ∀ k, k < (saveSectors size).toNat →
      disk (start.toNat + k) =
        bodySector data size (.ofNat k)) :
    fileOf disk (savedEntry name start size isExec) =
      ⟨data.toList size.toNat, isExec⟩ := by
  have hNeed := toNat_saveSectors size
  apply File.ext
  · apply List.map_congr_left
    intro i hi
    have hSize : i < size.toNat := List.mem_range.mp hi
    change (disk (start.toNat + i / 512)).toBuf _ = _
    rw [hWritten (i / 512) (by omega),
      bodySector_byte (by omega)
        (Nat.mod_lt _ (by decide)) (by omega)]
    congr 1
    omega
  · exact (savedFlags_spec isExec).2.1

theorem savedEntry_live
    (name : CStr)
    (start size : UInt32)
    (isExec : Bool) :
    (savedEntry name start size isExec).live :=
  (savedFlags_spec isExec).1

/- A saved entry passes the checks of mounting. -/
theorem entryOk_savedEntry
    {total : Nat}
    {name : CStr}
    (hLow : name.length ≠ 0)
    (hHigh : name.length < 40)
    (hStart : 2057 ≤ start.toNat)
    (hRoom : start.toNat + (saveSectors size).toNat ≤ total)
    (hSmall : size.toNat < 2 ^ 31) :
    EntryOk total (savedEntry name start size isExec) := by
  have hNeed := toNat_saveSectors size
  have hName :
      (savedEntry name start size isExec).nameOf = name :=
    CStr.ofBuffer_toBuffer hHigh
  refine
    { terminated := CStr.terminated_toBuffer hHigh
      named := ?_
      flags := ?_
      nonempty := ?_
      low := hStart
      high := hRoom
      fits := ?_
      small := hSmall }
  · rw [hName]
    exact fun h => hLow (congrArg List.length h)
  · exact (savedFlags_spec isExec).2.2
  · change 0 < (saveSectors size).toNat
    omega
  · change size.toNat ≤ (saveSectors size).toNat * 512
    omega

end Body

section Save

variable {fs : Fs} {d : Ata}

/- Save in a slot, once the checks have passed. -/
theorem save_atomic
    {name : CStr}
    {data : Buf}
    {size : UInt32}
    {isExec : Bool}
    {slot : Fin 64}
    (hSound : Sound fs d)
    (hLow : name.length ≠ 0)
    (hHigh : name.length < 40)
    (hSmall : size.toNat < 2 ^ 31)
    (hSlot : saveSlot fs.dir name = some slot)
    (hFound : findSpace fs (saveSectors size) ≠ 0) :
    Atomic d
      (Function.update (diskMap d) name
        (some ⟨data.toList size.toNat, isExec⟩))
      (do
        let start := findSpace fs (saveSectors size)
        if !(← writeBody fs.dev start data size
            (saveSectors size).toNat 0) then
          return (-2, fs)
        else
          commitEntry fs slot
            (savedEntry name start size isExec)) := by
  intro lossy
  have hOk := hSound.dirOk
  rcases findSpace_spec hOk hSound.data hFound with
    ⟨hStart, hRoom, hFits⟩
  generalize findSpace fs (saveSectors size) = start
    at hStart hRoom hFits
  have hBody := writeBody_spec lossy data size
    (s := 0) hSound hStart hRoom hFits (Nat.zero_add _) (.refl d _ _)
    (fun k hk => absurd hk (Nat.not_lt_zero k))
  simp only
  apply (hBody.consequence
    (fun _ h => ⟨h.1, .inl h.2⟩) (fun _ _ _ h => h)).seq
  intro ok d' hPost
  rcases hPost with ⟨hSpare, hWritten, hLossy⟩
  have hLater := hSound.spare hStart hFits hSpare
  cases ok with
  | false =>
      refine ⟨⟨hLater.1.accepted, .inl hLater.2⟩, ?_⟩
      refine .refused (by simp) hLater.1 hLater.2
        hSpare.failures ?_
      intro hNot
      rw [hLossy rfl] at hNot
      cases hNot
  | true =>
      have hEntry : EntryOk fs.super.totalSectors.toNat
          (savedEntry name start size isExec) :=
        entryOk_savedEntry hLow hHigh hStart hRoom hSmall
      have hName : (savedEntry name start size
          isExec).nameOf = name :=
        CStr.ofBuffer_toBuffer hHigh
      have hDir : DirOk fs.super.totalSectors.toNat
          (Function.update fs.dir slot
            (savedEntry name start size isExec)) := by
        apply hOk.set hEntry
        · intro other hNe hLive
          rw [hName]
          exact hOk.saveSlot_unique hSlot hNe hLive
        · intro other _ hLive
          exact hFits _ (mem_extents.mpr ⟨other, hLive, rfl⟩)
      have hTarget : fileMap (Function.update fs.dir slot
            (savedEntry name start size isExec)) d'.disk =
          Function.update (diskMap d) name
            (some ⟨data.toList size.toNat, isExec⟩) := by
        rw [hOk.fileMap_save hSlot hDir
            (savedEntry_live name start size isExec) hName,
          fileOf_savedEntry hSmall (hWritten rfl),
          ← hLater.1.map_eq, hLater.2]
      have hCommit :=
        commitEntry_atomic hLater.1 hDir lossy
      rw [hTarget] at hCommit
      refine hCommit.consequence ?_ ?_
      · intro d'' hCrash
        rw [hLater.2] at hCrash
        exact hCrash
      · intro out d'' _ hResult
        exact hResult.after hLater.2 hSpare.failures

/- Saving a file binds its name to the data. -/
theorem kvfsWrite_settles
    (hSound : Sound fs d)
    (name : Option CStr)
    (data : Option Buf)
    (size : UInt32)
    (isExec : Bool) :
    Settles fs d
      (fun files => ∃ key, name = some key ∧
        files = Function.update (diskMap d) key
          (some ⟨bytesOf data size, isExec⟩))
      (kvfsWrite fs name data size isExec) := by
  unfold kvfsWrite
  rw [hSound.mounted]
  simp only [Bool.not_true, Bool.false_eq_true, if_false]
  cases name with
  | none => exact .refused (by decide)
  | some name =>
      simp only
      split
      · exact .refused (by decide)
      next hLow =>
      split
      · exact .refused (by decide)
      next hHigh =>
      split
      · exact .refused (by decide)
      next hData =>
      cases hSlot : saveSlot fs.dir name with
      | none => exact .refused (by decide)
      | some slot =>
          simp only
          split
          · exact .refused (by decide)
          next hFound =>
          have hSmall : size.toNat < 2 ^ 31 := by
            have hLe := UInt32.not_lt.mp (not_or.mp hData).2
            rw [UInt32.le_iff_toNat_le] at hLe
            exact Nat.lt_of_le_of_lt hLe (by decide)
          refine .inr ⟨_, ⟨name, rfl, rfl⟩, ?_⟩
          exact save_atomic hSound hLow (by omega) hSmall
            hSlot hFound

end Save

--
-- Deletion and Renaming
--

section Entries

variable {fs : Fs} {d : Ata}

theorem not_live_of_flags
    {e : Dirent}
    (hFlags : e.flags = 0) :
    ¬e.live := by
  unfold Dirent.live
  rw [hFlags]
  decide

/- Deleting a file unbinds its name. -/
theorem kvfsDelete_settles
    (hSound : Sound fs d)
    (name : CStr) :
    Settles fs d
      (fun files => (∃ file, diskMap d name = some file) ∧
        files = Function.update (diskMap d) name none)
      (kvfsDelete fs name) := by
  have hOk := hSound.dirOk
  unfold kvfsDelete
  rw [hSound.mounted]
  simp only [Bool.not_true, Bool.false_eq_true, if_false]
  cases hFind : findEntry fs.dir name with
  | none => exact .refused (by decide)
  | some slot =>
      have hFree :
          ¬({ fs.dir slot with flags := 0 } : Dirent).live :=
        not_live_of_flags rfl
      have hDir := hOk.clear hFree slot
      refine .inr ⟨_, ⟨⟨fileOf d.disk (fs.dir slot), ?_⟩, ?_⟩,
        commitEntry_atomic hSound hDir⟩
      · rw [hSound.map_eq]
        exact fileMap_some hFind
      · rw [hSound.map_eq]
        apply (hDir.represents d.disk).unique
        rw [slots_update_free hFree]
        exact (hOk.represents d.disk).clear
          (hOk.distinct d.disk) (slots_of_findEntry hFind)

/- A native name fits its buffer. -/
theorem nativeNameLength_spec
    {name : Option CStr}
    {n : Nat}
    (hLength : ¬nativeNameLength name n < 0) :
    ∃ key, name = some key ∧ key.length < n ∧
      key.length ≠ 0 ∧
      nativeNameLength name n = key.length := by
  cases name with
  | none => exact absurd (Int.negSucc_lt_zero 0) hLength
  | some key =>
      refine ⟨key, rfl, ?_⟩
      unfold nativeNameLength at hLength ⊢
      simp only at hLength ⊢
      split at hLength
      · exact absurd (by decide) hLength
      next hBad =>
      split at hLength
      · exact absurd (by decide) hLength
      next hShape =>
      rw [if_neg hBad, if_neg hShape]
      rw [not_or, not_or, List.length_take] at hShape
      unfold CStr.length
      rw [List.length_take]
      omega

variable {key : CStr}

/- The buffer of a renamed entry holds its new name. -/
theorem ofBuffer_renamedBuffer
    (hLength : key.length < 40) :
    CStr.ofBuffer (renamedBuffer key key.length) = key := by
  apply CStr.ofBuffer_eq hLength
  intro i hi
  unfold renamedBuffer
  split
  · rfl
  · next hPast =>
      exact (List.getD_eq_default _ _
        (Nat.le_of_not_lt hPast)).symm

theorem terminated_renamedBuffer
    (hLength : key.length < 40) :
    CStr.Terminated (renamedBuffer key key.length) :=
  ⟨⟨key.length, hLength⟩, if_neg (Nat.lt_irrefl _)⟩

/- Give the entry of a file a name that is not in use. -/
theorem rename_atomic
    {src dst : CStr}
    {slot : Fin 64}
    (hSound : Sound fs d)
    (hFind : findEntry fs.dir src = some slot)
    (hFree : findEntry fs.dir dst = none)
    (hLength : dst.length < 40)
    (hNamed : dst.length ≠ 0) :
    Atomic d
      (Function.update (Function.update (diskMap d) src none)
        dst (some (fileOf d.disk (fs.dir slot))))
      (commitEntry fs slot { fs.dir slot with
        name := renamedBuffer dst dst.length }) := by
  have hOk := hSound.dirOk
  have hFound := findEntry_some hFind
  generalize hEntry : ({ fs.dir slot with
    name := renamedBuffer dst dst.length } : Dirent) = entry
  have hName : entry.nameOf = dst := by
    rw [← hEntry]
    exact ofBuffer_renamedBuffer hLength
  have hLive : entry.live := by
    rw [← hEntry]
    exact hFound.1
  have hExtent : extentOf entry = extentOf (fs.dir slot) := by
    rw [← hEntry]
    rfl
  have hFile : fileOf d.disk entry =
      fileOf d.disk (fs.dir slot) := by
    rw [← hEntry]
    rfl
  have hOld := hOk.entry slot hFound.1
  have hNew : EntryOk fs.super.totalSectors.toNat entry :=
    { terminated := by
        rw [← hEntry]
        exact terminated_renamedBuffer hLength
      named := by
        rw [hName]
        exact fun h => hNamed (congrArg List.length h)
      flags := by
        rw [← hEntry]
        exact hOld.flags
      nonempty := by
        rw [← hEntry]
        exact hOld.nonempty
      low := by
        rw [← hEntry]
        exact hOld.low
      high := by
        rw [hExtent]
        exact hOld.high
      fits := by
        rw [← hEntry]
        exact hOld.fits
      small := by
        rw [← hEntry]
        exact hOld.small }
  have hDir : DirOk fs.super.totalSectors.toNat
      (Function.update fs.dir slot entry) := by
    apply hOk.set hNew
    · intro other _ hLiveOther
      rw [hName]
      exact findEntry_none hFree hLiveOther
    · intro other hNe hLiveOther
      rw [hExtent]
      exact hOk.disjoint other slot hLiveOther hFound.1 hNe
  have hTarget :
      fileMap (Function.update fs.dir slot entry) d.disk =
        Function.update
          (Function.update (diskMap d) src none) dst
          (some (fileOf d.disk (fs.dir slot))) := by
    rw [hSound.map_eq]
    apply (hDir.represents d.disk).unique
    rw [slots_update_live hLive, hName, hFile]
    exact (hOk.represents d.disk).rebind
      (hOk.distinct d.disk) (slots_of_findEntry hFind)
      (.inr (fileMap_none hFree)) _
  rw [← hTarget]
  exact commitEntry_atomic hSound hDir

/- Changing the code of a failure keeps a change atomic. -/
theorem Atomic.recode
    {program : AtaProg (Int × Fs)}
    {failure : Int}
    (hAtomic : Atomic d target program)
    (hFailure : failure < 0) :
    Atomic d target (do
      let (code, fs) ← program
      return (if code ≠ 0 then failure else 0, fs)) := by
  intro lossy
  apply ((hAtomic lossy).consequence (fun _ h => h)
    (fun _ _ hCrash hResult => And.intro hCrash hResult)).seq
  rintro ⟨code, fs'⟩ d' ⟨hCrash, hResult⟩
  refine ⟨hCrash, ?_⟩
  cases hResult with
  | done hCode hSound hMap hFailures =>
      refine .done ?_ hSound hMap hFailures
      exact if_neg (not_not.mpr hCode)
  | refused hCode hSound hMap hFailures hTarget =>
      refine .refused ?_ hSound hMap hFailures hTarget
      change (if code ≠ 0 then failure else 0) < 0
      rwa [if_pos (Int.ne_of_lt hCode)]
  | fenced hLossy hCode hMounted =>
      refine .fenced hLossy ?_ hMounted
      change (if code ≠ 0 then failure else 0) < 0
      rwa [if_pos (Int.ne_of_lt hCode)]

/-
  Renaming a file moves its binding to a name that was not
  bound, or changes nothing when the names are the same.
-/
theorem kvfsRename_settles
    (hSound : Sound fs d)
    (src dst : Option CStr) :
    Settles fs d
      (fun files => ∃ key key' file,
        src = some key ∧ dst = some key' ∧
        diskMap d key = some file ∧
        (key' = key ∨ diskMap d key' = none) ∧
        files = Function.update
          (Function.update (diskMap d) key none)
          key' (some file))
      (kvfsRename fs src dst) := by
  unfold kvfsRename
  rw [hSound.mounted]
  simp only [Bool.not_true, Bool.false_eq_true, if_false]
  split
  · exact .refused (by decide)
  next hNames =>
  rw [not_or] at hNames
  rcases nativeNameLength_spec hNames.1 with
    ⟨key', rfl, hLength, hNamed, hCode⟩
  rcases nativeNameLength_spec hNames.2 with
    ⟨key, rfl, -, -, -⟩
  simp only
  cases hFind : findEntry fs.dir key with
  | none => exact .refused (by decide)
  | some slot =>
      have hFile : diskMap d key =
          some (fileOf d.disk (fs.dir slot)) := by
        rw [hSound.map_eq]
        exact fileMap_some hFind
      simp only
      split
      · next hSame =>
          subst hSame
          refine .inr ⟨diskMap d,
            ⟨key, key, _, rfl, rfl, hFile, .inl rfl, ?_⟩, ?_⟩
          · rw [Function.update_idem, ← hFile,
              Function.update_eq_self]
          · intro lossy
            refine ⟨⟨hSound.accepted, .inl rfl⟩, ?_⟩
            exact .done rfl hSound rfl (.refl d)
      next hOther =>
      split
      · exact .refused (by decide)
      next hFree =>
      have hNone : findEntry fs.dir key' = none := by
        simpa using hFree
      refine .inr ⟨_,
        ⟨key, key', _, rfl, rfl, hFile, .inr ?_, rfl⟩, ?_⟩
      · rw [hSound.map_eq]
        exact fileMap_none hNone
      · rw [hCode]
        exact (rename_atomic hSound hFind hNone hLength
          hNamed).recode (by decide)

end Entries

--
-- Reading
--

section Read

variable {fs : Fs} {d : Ata}

/- The first `count` bytes of a body, over a buffer. -/
def bodyOver
    (disk : Nat → Sector)
    (start count : Nat)
    (buf : Buf) : Buf :=
  fun j => if j < count then bodyByte disk start j else buf j

/- One more sector of a body in the buffer. -/
theorem bodyOver_copy
    {disk : Nat → Sector}
    {start k count : Nat}
    (buf : Buf)
    (hChunk : count ≤ 512) :
    (bodyOver disk start (k * 512) buf).copy (k * 512)
        (disk (start + k)).toBuf count =
      bodyOver disk start (k * 512 + count) buf := by
  funext j
  unfold bodyOver
  by_cases hBefore : j < k * 512
  · have hInside : j < k * 512 + count :=
      Nat.lt_of_lt_of_le hBefore (Nat.le_add_right ..)
    rw [Buf.copy_outside (.inl hBefore), if_pos hBefore,
      if_pos hInside]
  · by_cases hInside : j < k * 512 + count
    · rw [Buf.copy_inside (by omega) hInside,
        if_pos hInside]
      unfold bodyByte
      have hSector : j / 512 = k := by omega
      have hByte : j % 512 = j - k * 512 := by omega
      rw [hSector, hByte]
    · rw [Buf.copy_outside (.inr (by omega)),
        if_neg hBefore, if_neg hInside]

/- The rounds of a read fill the buffer sector by sector. -/
theorem readBody_spec
    (lossy : Bool)
    (start size : UInt32)
    (buf : Buf)
    {need left k : Nat}
    (hSound : Sound fs d)
    (hNeed : need = (size.toNat + 511) / 512)
    (hSmall : size.toNat < 2 ^ 31)
    (hRoom : start.toNat + need ≤
      fs.super.totalSectors.toNat)
    (hRounds : k + left = need) :
    (readBody fs.dev start size left (.ofNat k)
      (bodyOver d.disk start.toNat
        (min (k * 512) size.toNat) buf)).Spec
      (Ata.answers lossy)
      (fun d' => d' = d)
      (fun out d' => d' = d ∧
        ((out.1 = true ∧ out.2 =
          bodyOver d.disk start.toNat size.toNat buf) ∨
        (out.1 = false ∧ lossy = true))) d := by
  have hTotal := fs.super.totalSectors.toNat_lt
  induction left generalizing k with
  | zero =>
      refine ⟨rfl, rfl, .inl ⟨rfl, ?_⟩⟩
      rw [Nat.min_eq_right (by omega)]
  | succ left ih =>
      have hNat : (UInt32.ofNat k).toNat = k := by
        rw [UInt32.toNat_ofNat']
        exact Nat.mod_eq_of_lt (by omega)
      have hOffset := toNat_offset (k := k) (by omega)
      have hLba : (start + .ofNat k).toNat =
          start.toNat + k := by
        rw [UInt32.toNat_add, hNat]
        exact Nat.mod_eq_of_lt (by
          clear hOffset
          omega)
      have hNext : UInt32.ofNat k + 1 = .ofNat (k + 1) :=
        (UInt32.ofNat_add k 1).symm
      have hBefore : k * 512 < size.toNat := by
        clear hOffset
        omega
      have hLt : UInt32.ofNat k * 512 < size := by
        rw [UInt32.lt_iff_toNat_lt, hOffset]
        exact hBefore
      have hRange : d.InRange fs.dev (start + .ofNat k) := by
        rw [hSound.dev]
        apply hSound.accepted.inRange
        rw [← hSound.total, hLba]
        clear hOffset
        omega
      rw [readBody]
      apply AtaProg.spec_read
      · rfl
      · intro hFault
        exact ⟨rfl, rfl, .inr ⟨rfl, hFault hRange⟩⟩
      · intro _
        simp only
        rw [hNext, hLba, toNat_remaining hLt, hOffset,
          Nat.min_eq_left (Nat.le_of_lt hBefore),
          bodyOver_copy buf (Nat.min_le_left ..)]
        have hCount : k * 512 +
            min 512 (size.toNat - k * 512) =
              min ((k + 1) * 512) size.toNat := by
          clear hOffset
          omega
        rw [hCount]
        exact ih (by omega)

/-
  What a read returns: the first bytes of the binding, or a
  failure when the name is unbound or the drive lossy.
-/
theorem kvfsRead_spec
    (lossy : Bool)
    (hSound : Sound fs d)
    (name : CStr)
    (buf : Buf)
    (max : UInt32) :
    (kvfsRead fs name buf max).Spec (Ata.answers lossy)
      (fun d' => d' = d)
      (fun out d' => d' = d ∧
        ((out.1 < 0 ∧
            (diskMap d name = none ∨ lossy = true)) ∨
          ∃ file, diskMap d name = some file ∧
            out.1 = (min file.data.length max.toNat : Nat) ∧
            ∀ j, out.2 j =
              if j < min file.data.length max.toNat then
                file.data.getD j 0
              else
                buf j)) d := by
  have hOk := hSound.dirOk
  unfold kvfsRead
  rw [hSound.mounted]
  simp only [Bool.not_true, Bool.false_eq_true, if_false]
  cases hFind : findEntry fs.dir name with
  | none =>
      refine ⟨rfl, rfl, .inl ⟨by simp, .inl ?_⟩⟩
      rw [hSound.map_eq]
      exact fileMap_none hFind
  | some i =>
      have hFound := findEntry_some hFind
      have hEntry := hOk.entry i hFound.1
      have hFile : diskMap d name =
          some (fileOf d.disk (fs.dir i)) := by
        rw [hSound.map_eq]
        exact fileMap_some hFind
      have hLength :
          (fileOf d.disk (fs.dir i)).data.length =
            (fs.dir i).size.toNat := by
        simp [fileOf]
      simp only
      generalize hSize : (if max < (fs.dir i).size then max
        else (fs.dir i).size) = size
      have hMin : size.toNat =
          min (fs.dir i).size.toNat max.toNat := by
        rw [← hSize]
        split
        · next hLt =>
            rw [UInt32.lt_iff_toNat_lt] at hLt
            omega
        · next hGe =>
            rw [UInt32.lt_iff_toNat_lt] at hGe
            omega
      have hSmall := hEntry.small
      have hFits := hEntry.fits
      have hHigh : (fs.dir i).start.toNat +
          (fs.dir i).sectors.toNat ≤
            fs.super.totalSectors.toNat :=
        hEntry.high
      have hNeed : ((size + 511) / 512).toNat =
          (size.toNat + 511) / 512 := by
        rw [UInt32.toNat_div, UInt32.toNat_add]
        change (size.toNat + 511) % 2 ^ 32 / 512 = _
        rw [Nat.mod_eq_of_lt (by omega)]
      have hBody := readBody_spec lossy (fs.dir i).start
        size buf (k := 0) hSound rfl (by omega) (by omega)
        (Nat.zero_add _)
      have hStart : bodyOver d.disk (fs.dir i).start.toNat
          (min (0 * 512) size.toNat) buf = buf := by
        funext j
        exact if_neg (by omega)
      rw [hStart] at hBody
      rw [hNeed]
      apply hBody.seq
      rintro ⟨ok, out⟩ d' ⟨rfl, ⟨rfl, rfl⟩ | ⟨rfl, hLossy⟩⟩
      · refine ⟨rfl, rfl, .inr ⟨_, hFile, ?_, ?_⟩⟩
        · rw [hLength, ← hMin]
        · intro j
          rw [hLength, ← hMin]
          change (if j < size.toNat then _ else _) = _
          split
          · next hInside =>
              have hj : j < (fs.dir i).size.toNat := by
                omega
              rw [List.getD_eq_getElem _ _
                (by rw [hLength]; exact hj)]
              simp [fileOf]
          · rfl
      · exact ⟨rfl, rfl, .inl ⟨by simp, .inr hLossy⟩⟩

end Read

end KvantOS.Kvfs
