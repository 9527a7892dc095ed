import KvantOS.Kvfs.Calls

/-
  This file proves that KvFS implements a finite map from
  names to files: from any disk that mounts, every sequence
  of calls acts as on the map, and the memory keeps
  mirroring a disk that mounts again to the same map. The
  adapters of `vfs_native.c` read what they have written.

  Key definitions include:
    * `Started`, `runCalls`, `Mirrors`
    * `kfsRead`, `kfsWrite`

  Key theorems include:
    * `runCalls_sound`, `kvfs_implements_map`
    * `kfs_round_trip`
-/

namespace KvantOS.Kvfs

/- A mount or a format has just succeeded. -/
def Started
    (fs : Fs)
    (d : Ata) : Prop :=
  ∃ fs₀ d₀,
    (kvfsMount fs₀).run Ata.perfect d₀ = ((0, fs), d) ∨
      (kvfsFormat fs₀).run Ata.perfect d₀ = ((0, fs), d)

/- A sequence of calls, one after the other. -/
def runCalls : List Call → Fs → AtaProg Fs
  | [], fs => return fs
  | c :: rest, fs => do
      let out ← c.program fs
      runCalls rest out.fs

section Runs

variable {fs : Fs} {d : Ata}

theorem Started.sound
    (hStarted : Started fs d) :
    Sound fs d := by
  rcases hStarted with ⟨fs₀, d₀, hMount | hFormat⟩
  · have hRun := Prog.Spec.run (Ata.answers_perfect false)
      (kvfsMount_spec false d₀ fs₀)
    rw [hMount] at hRun
    rcases hRun with
      ⟨rfl, ⟨-, hAccepted, hFs⟩ | ⟨hCode, -, -⟩⟩
    · rw [show fs = mountedFs d from hFs]
      exact hAccepted.sound
    · exact absurd hCode (Int.lt_irrefl 0)
  · have hRun := Prog.Spec.run (Ata.answers_perfect false)
      (kvfsFormat_spec false d₀ fs₀)
    rw [hFormat] at hRun
    rcases hRun with ⟨-, hSound, -⟩ | ⟨hCode, -⟩
    · exact hSound
    · exact absurd hCode (Int.lt_irrefl 0)

/- Every sequence of calls keeps memory and disk in step. -/
theorem runCalls_sound
    (hSound : Sound fs d)
    (calls : List Call) :
    Sound ((runCalls calls fs).run Ata.perfect d).1
      ((runCalls calls fs).run Ata.perfect d).2 := by
  induction calls generalizing fs d with
  | nil => exact hSound
  | cons c rest ih =>
      rcases c.spec hSound with ⟨target, hSpec⟩
      rw [runCalls, Prog.run_bind]
      exact ih hSpec.run.1

end Runs

/-
  The directory in memory is that of the disk and passes the
  checks of mounting, so that a mount shows the same files.
-/
structure Mirrors
    (fs : Fs)
    (d : Ata) : Prop where
  mounted : fs.mounted = true
  same : fs.dir = diskDir d.disk
  inside : fs.super.totalSectors.toNat ≤ d.sectors.toNat
  valid : DirOk fs.super.totalSectors.toNat fs.dir
  remount : ∀ fs₀, ∃ fs',
    (kvfsMount fs₀).run Ata.perfect d = ((0, fs'), d) ∧
      fileMap fs'.dir d.disk = fileMap fs.dir d.disk

theorem Sound.mirrors
    {fs : Fs}
    {d : Ata}
    (hSound : Sound fs d) :
    Mirrors fs d where
  mounted := hSound.mounted
  same := hSound.dir
  inside := by
    rw [hSound.total]
    exact hSound.accepted.total.2
  valid := hSound.dirOk
  remount := by
    intro fs₀
    refine ⟨mountedFs d,
      kvfsMount_run hSound.accepted fs₀, ?_⟩
    rw [hSound.dir]
    rfl

--
-- The Finite Map
--

/-
  After any sequence of calls, the next call does to the
  files what it means, and memory mirrors the disk before
  and after it.
-/
theorem kvfs_implements_map
    {fs : Fs}
    {d : Ata}
    (hStarted : Started fs d)
    (calls : List Call)
    (c : Call) :
    let before := (runCalls calls fs).run Ata.perfect d
    let done := (c.program before.1).run
      Ata.perfect before.2
    Mirrors before.1 before.2 ∧
      c.Does done.1
        (fileMap before.1.dir before.2.disk)
        (fileMap done.1.fs.dir done.2.disk) ∧
      Mirrors done.1.fs done.2 := by
  have hSound := runCalls_sound hStarted.sound calls
  rcases c.spec hSound with ⟨target, hSpec⟩
  have hRun := hSpec.run
  refine ⟨hSound.mirrors, ?_, hRun.1.mirrors⟩
  rw [← hSound.map_eq, ← hRun.1.map_eq]
  exact hRun.2.1

/- A blank drive of two mebibytes. -/
def blankAta : Ata where
  drive := 0
  sectors := 4096
  disk := fun _ _ => 0
  failed := []

/- Memory before anything was mounted. -/
def bootFs : Fs where
  super := .zero
  dir := fun _ => .zero
  mounted := false
  dev := -1

/- The blank drive once it is formatted. -/
def formatted : (Int × Fs) × Ata :=
  (kvfsFormat bootFs).run Ata.perfect blankAta

theorem started_formatted :
    Started formatted.1.2 formatted.2 :=
  ⟨bootFs, blankAta, .inr
    (Prod.ext (Prod.ext (by decide) rfl) rfl)⟩

theorem kvfs_implements_map_formatted :
    Mirrors formatted.1.2 formatted.2 :=
  (kvfs_implements_map started_formatted []
    (.delete ⟨[65], by decide⟩)).1

--
-- The Virtual File System
--

/- The path without its leading slashes. -/
def strip (path : CStr) : CStr where
  bytes := path.bytes.dropWhile (· == 0x2F)
  noNul := fun hIn =>
    path.noNul ((List.dropWhile_sublist _).subset hIn)

/- The characters of `.kapp`. -/
def kapp : List UInt8 := [0x2E, 0x6B, 0x61, 0x70, 0x70]

/- `kfs_write`: the size, or -1. -/
def kfsWrite
    (fs : Fs)
    (path : CStr)
    (data : Option Buf)
    (size : UInt32) : AtaProg (Int × Fs) := do
  let name := strip path
  let l := name.length
  let isExec := 5 < l && name.bytes.drop (l - 5) == kapp
  let (r, fs) ← kvfsWrite fs name data size isExec
  return (if r = 0 then (size.toNat : Int).bmod (2 ^ 32)
    else -1, fs)

/-
  `kfs_read`: the bytes read, or nothing for -1. The buffer
  is what `kmalloc` gives, if it gives one.
-/
def kfsRead
    (fs : Fs)
    (memory : Option Buf)
    (path : CStr)
    (off max : UInt32) : AtaProg (Option (List UInt8)) :=
  let name := strip path
  let total := kvfsSize fs name
  if !kvfsExists fs name then return none
  else if total ≤ off then return some []
  else
    match memory with
    | none => return none
    | some tmp => do
        let (r, tmp) ← kvfsRead fs name tmp total
        if r < 0 ∨ r ≠ total.toNat then return none
        else
          let n := total - off
          let n := if max < n then max else n
          return some ((List.range n.toNat).map fun k =>
            tmp (off.toNat + k))

/- A copy from an offset is a slice of the whole. -/
theorem slice_eq
    {size off max : UInt32}
    (hInside : ¬size ≤ off)
    (f : Nat → UInt8) :
    (List.range (if max < size - off then max
        else size - off).toNat).map (fun k =>
          f (off.toNat + k)) =
      (((List.range size.toNat).map f).drop
        off.toNat).take max.toNat := by
  have hNat := UInt32.toNat_sub_of_le _ _
    (UInt32.le_of_lt (UInt32.not_le.mp hInside))
  refine List.ext_getElem ?_ ?_
  · simp only [List.length_map, List.length_range,
      List.length_take, List.length_drop]
    split
    · rename_i hLess
      rw [UInt32.lt_iff_toNat_lt] at hLess
      omega
    · rename_i hLess
      rw [UInt32.lt_iff_toNat_lt] at hLess
      omega
  · intro k _ _
    simp

/- A path reads as the file of its name. -/
theorem Sound.kfsRead_eq
    {fs : Fs}
    {d : Ata}
    (hSound : Sound fs d)
    (tmp : Buf)
    (path : CStr)
    (off max : UInt32) :
    ((kfsRead fs (some tmp) path off max).run
      Ata.perfect d).1 = (diskMap d (strip path)).map
        fun file =>
          (file.data.drop off.toNat).take max.toNat := by
  have hMap := hSound.map_eq
  unfold kfsRead kvfsExists kvfsSize
  rw [hSound.mounted]
  dsimp only
  cases hFind : findEntry fs.dir (strip path) with
  | none =>
      rw [hMap, fileMap_none hFind]
      rfl
  | some i =>
      have hFile : fileMap fs.dir d.disk _ = _ :=
        fileMap_some hFind
      rw [← hMap] at hFile
      rw [hFile]
      simp only [Bool.not_true, Bool.false_eq_true, if_false,
        Option.isSome_some, Bool.and_self, Option.map_some]
      by_cases hPast : (fs.dir i).size ≤ off
      · rw [if_pos hPast]
        rw [UInt32.le_iff_toNat_le] at hPast
        simp [fileOf, List.drop_eq_nil_of_le, hPast]
      · have hRead := Prog.Spec.run
          (Ata.answers_perfect false)
          (kvfsRead_spec false hSound (strip path) tmp
            (fs.dir i).size)
        rw [if_neg hPast, Prog.run_bind]
        generalize (kvfsRead fs (strip path) tmp
          (fs.dir i).size).run Ata.perfect d = out at hRead ⊢
        rcases hRead with
          ⟨-, ⟨-, hNone | hLossy⟩ | ⟨file, hIs, hCode, hOut⟩⟩
        · rw [hFile] at hNone
          cases hNone
        · cases hLossy
        · cases hFile.symm.trans hIs
          have hLength : (fileOf d.disk (fs.dir i)).data.length =
              (fs.dir i).size.toNat := by
            simp [fileOf]
          rw [hLength, Nat.min_self] at hCode hOut
          have hData : (List.range (fs.dir i).size.toNat).map
              out.1.2 = (fileOf d.disk (fs.dir i)).data := by
            refine List.ext_getElem (by simp [hLength]) ?_
            intro k hK _
            have hLess : k < (fs.dir i).size.toNat := by
              simpa using hK
            simp [hOut, hLess, hLength]
          rw [hCode, if_neg (by simp)]
          simp only [Prog.pure_eq, Prog.run_ret]
          rw [slice_eq hPast, hData]

/- The flag of a program is all that depends on the name. -/
theorem Sound.kfsWrite_run
    {fs : Fs}
    {d : Ata}
    (hSound : Sound fs d)
    (path : CStr)
    (data : Option Buf)
    (size : UInt32) :
    let done := (kfsWrite fs path data size).run
      Ata.perfect d
    Sound done.1.2 done.2 ∧
      (done.1.1 = -1 ∧ diskMap done.2 = diskMap d ∨
        done.1.1 = (size.toNat : Int).bmod (2 ^ 32) ∧
          ∃ isExec, diskMap done.2 = Function.update
            (diskMap d) (strip path)
            (some ⟨bytesOf data size, isExec⟩)) := by
  unfold kfsWrite
  dsimp only
  generalize (decide (5 < (strip path).length) && _) = isExec
  rcases Call.spec hSound (.write (some (strip path)) data
    size isExec) with ⟨target, hSpec⟩
  have hRun := hSpec.run
  unfold Call.program at hRun
  rw [Prog.run_bind] at hRun
  rw [Prog.run_bind]
  generalize (kvfsWrite fs (some (strip path)) data size
    isExec).run Ata.perfect d = out at hRun ⊢
  rcases hRun with ⟨hSound', hDoes, -⟩
  refine ⟨hSound', ?_⟩
  rcases hDoes with ⟨hCode, key, hKey, hMap⟩ | ⟨hCode, hMap⟩
  · cases hKey
    exact .inr ⟨if_pos hCode, isExec, hMap⟩
  · exact .inl ⟨if_neg (Int.ne_of_lt hCode), hMap⟩

/-
  What is written under a path is read back, under all paths
  of its name, and no other file reads differently.
-/
theorem kfs_round_trip
    {fs : Fs}
    {d : Ata}
    (hStarted : Started fs d)
    (calls : List Call)
    (path : CStr)
    (data : Option Buf)
    (size : UInt32) :
    let before := (runCalls calls fs).run Ata.perfect d
    let done := (kfsWrite before.1 path data size).run
      Ata.perfect before.2
    ∀ tmp other off max,
      let read := fun fs d => ((kfsRead fs (some tmp) other
        off max).run Ata.perfect d).1
      done.1.1 = -1 ∧
          read done.1.2 done.2 = read before.1 before.2 ∨
        done.1.1 = (size.toNat : Int).bmod (2 ^ 32) ∧
          read done.1.2 done.2 =
            if strip other = strip path then
              some (((bytesOf data size).drop
                off.toNat).take max.toNat)
            else read before.1 before.2 := by
  intro before done tmp other off max read
  have hSound := runCalls_sound hStarted.sound calls
  rcases hSound.kfsWrite_run path data size with
    ⟨hSound', hMap⟩
  have hBefore : read before.1 before.2 = _ :=
    hSound.kfsRead_eq tmp other off max
  have hDone : read done.1.2 done.2 = _ :=
    hSound'.kfsRead_eq tmp other off max
  rw [hBefore, hDone]
  rcases hMap with ⟨hCode, hSame⟩ | ⟨hCode, isExec, hNew⟩
  · rw [hSame]
    exact .inl ⟨hCode, rfl⟩
  · refine .inr ⟨hCode, ?_⟩
    rw [hNew, Function.update_apply]
    split <;> rfl

/- A file that is written with a slash and read without. -/
theorem kfs_round_trip_formatted :
    let done := (kfsWrite formatted.1.2
      ⟨[0x2F, 65], by decide⟩ (some .zero) 1).run Ata.perfect
        formatted.2
    done.1.1 = 1 ∧
      ((kfsRead done.1.2 (some .zero) ⟨[65], by decide⟩ 0
        9).run Ata.perfect done.2).1 = some [0] := by
  have hCode : ((kfsWrite formatted.1.2
      ⟨[0x2F, 65], by decide⟩ (some .zero) 1).run Ata.perfect
        formatted.2).1.1 = 1 := by decide +kernel
  rcases kfs_round_trip started_formatted []
    ⟨[0x2F, 65], by decide⟩ (some .zero) 1 .zero
    ⟨[65], by decide⟩ 0 9 with ⟨hBad, -⟩ | ⟨-, hRead⟩
  · cases hCode.symm.trans hBad
  · exact ⟨hCode, hRead.trans (if_pos (by decide))⟩

end KvantOS.Kvfs
