import KvantOS.Fat.Listing
import KvantOS.Fat.Transparency
import KvantOS.Ntfs.Listing
import KvantOS.Vfs.Model

/-
  This file puts the FAT and the NTFS driver under the VFS:
  pages of a directory that are read with `vfs_readdir_many`
  and single entries from `vfs_readdir` are all parts of one
  listing, as long as the disks stay the same.

  FAT fills pages by itself. For NTFS the VFS reads entries
  one by one.

  Key definitions include:
    * `Drives`, `Driver`, `Quiet`
    * `Driver.listing`

  Key theorems include:
    * `vfsReaddirMany_answers`, `vfs_pages`
-/

namespace KvantOS.Vfs

open Pages Ntfs

--
-- Drivers
--

/-
  What the drivers keep of the volumes between two calls, by
  their names: all of FAT, and `read_error` of NTFS.
-/
structure Drives where
  fat : List UInt8 → FatWorld
  readError : List UInt8 → Bool

/- A call of FAT on the volume of this name. -/
def onFat
    (name : List UInt8)
    (call : FatM (Option (List VfsDirent))) :
    Listing Drives :=
  fun w =>
    let out := call.eval (w.fs.fat name)
    (out.1, { w with fs := { w.fs with
      fat := Function.update w.fs.fat name out.2 } })

/- The entry that `nlist_cb` fills in; it has no times. -/
def ntfsVfsDirent (e : NtfsDirent) : VfsDirent where
  name := e.name
  isDir := e.isDir
  isReadonly := e.isReadonly
  isHidden := e.isHidden
  isSystem := e.isSystem
  size := e.size
  mtimeYear := 0
  mtimeMonth := 0
  mtimeDay := 0
  mtimeHour := 0
  mtimeMin := 0

/- A result of `ntfs_op_readdir`, and the entry with it. -/
def ntfsAnswer
    (out : Int × Option NtfsDirent) :
    Option (List VfsDirent) :=
  if out.1 < 0 then none
  else some (out.2.map ntfsVfsDirent).toList

/- A call of NTFS on the volume of this name. -/
def onNtfs
    (name : List UInt8)
    (call : NtfsM (Int × Option NtfsDirent)) :
    Listing Drives :=
  fun w =>
    let out := call (w.fs.readError name)
    (ntfsAnswer out.1, { w with fs := { w.fs with
      readError :=
        Function.update w.fs.readError name out.2 } })

/- The two drivers that the listing calls are about. -/
inductive Driver where
  | fat (v : FatVol)
  | ntfs (v : NtfsVol) (disk : NtfsDisk)

namespace Driver

/- `fat_ops` and `ntfs_ops`, on the volume of this name. -/
def ops
    (name : List UInt8) :
    Driver → VfsOps Drives
  | .fat v =>
      { readdir := some (fun path index =>
          onFat name (fatOpReaddir v path.bytes index))
        readdirMany := some (fun path first count =>
          onFat name
            (fatOpReaddirMany v path.bytes first count)) }
  | .ntfs v disk =>
      { readdir := some (fun path index =>
          onNtfs name (ntfsOpReaddir v disk path index))
        readdirMany := none }

/- All entries of a directory. -/
def listing
    (name : List UInt8)
    (path : CStr)
    (fs : Drives) :
    Driver → List VfsDirent
  | .fat v => fatListing v path.bytes (fs.fat name)
  | .ntfs v disk =>
      (ntfsListing v disk path).map ntfsVfsDirent

/- Nothing is being written on the volume. -/
def Idle
    (name : List UInt8)
    (fs : Drives) :
    Driver → Prop
  | .fat _ => (fs.fat name).1.writing = false
  | .ntfs _ _ => True

end Driver

/-
  Listing calls have led from one state to another: the
  namespace and the disks are the same, and FAT volumes that
  nobody was writing to are as they were for a reader.
-/
structure Quiet
    (w w' : World Drives) : Prop where
  generation : w'.generation = w.generation
  fat : ∀ name, (w.fs.fat name).1.writing = false →
    Resting (w.fs.fat name).2 (w.fs.fat name).1
      (w'.fs.fat name)

theorem Quiet.refl (w : World Drives) : Quiet w w where
  generation := rfl
  fat _ hIdle := ⟨rfl, rfl, rfl, rfl, hIdle⟩

section Calls

variable {w : World Drives} {name : List UInt8}

/- FAT gives pages, and other volumes are not touched. -/
theorem onFat_answers
    (v : FatVol)
    (hIdle : (w.fs.fat name).1.writing = false)
    (path : CStr)
    (first count : Nat) :
    Answers (fun first count =>
        onFat name (fatOpReaddirMany v path.bytes first count))
      (Quiet w) ((Driver.fat v).listing name path w.fs)
      first count where
  stays w' hQuiet := by
    constructor
    · exact hQuiet.generation
    · intro other hOther
      change Resting _ _ (Function.update w'.fs.fat name _
        other)
      by_cases hEq : other = name
      · subst hEq
        rw [Function.update_self]
        exact (fatOpReaddirMany_page (hQuiet.fat _ hIdle) v
          path.bytes first count).1
      · rw [Function.update_of_ne hEq]
        exact hQuiet.fat other hOther
  page w' hQuiet :=
    (fatOpReaddirMany_page (hQuiet.fat _ hIdle) v
      path.bytes first count).2

theorem onNtfs_answers
    (v : NtfsVol)
    (disk : NtfsDisk)
    (path : CStr)
    (i : Nat) :
    Answers (fun i _ =>
        onNtfs name (ntfsOpReaddir v disk path (i : Nat)))
      (Quiet w) ((Driver.ntfs v disk).listing name path w.fs)
      i 1 where
  stays w' hQuiet := ⟨hQuiet.generation, hQuiet.fat⟩
  page w' hQuiet := by
    have hEntry := ntfsOpReaddir_entry v disk path i
      (w'.fs.readError name)
    unfold onNtfs Driver.listing
    dsimp only
    rcases hEntry with hNone | ⟨x, hx, hSome⟩ | ⟨hEnd, hNone⟩
    · rw [hNone]
      exact .inl rfl
    · rw [hSome]
      refine .inr ?_
      have hMapped : ((ntfsListing v disk path).map
          ntfsVfsDirent)[i]? = some (ntfsVfsDirent x) := by
        rw [List.getElem?_map, hx]
        rfl
      rw [page_one hMapped]
      rfl
    · rw [hNone]
      refine .inr ?_
      rw [page_of_end (by rw [List.length_map]; exact hEnd)]
      rfl

end Calls

--
-- Calls of the VFS
--

section Calls

variable {σ : Type}

/- The check after a call turns an answer into an error. -/
theorem checked_cases
    (epoch bound : Nat)
    (out : Option (List VfsDirent) × World σ) :
    (checked epoch bound out).2 = out.2 ∧
      ((checked epoch bound out).1 = none ∨
        (checked epoch bound out).1 = out.1) := by
  rcases out with ⟨answer, w⟩
  cases answer with
  | none => exact ⟨rfl, .inl rfl⟩
  | some l =>
      rw [checked]
      by_cases hHolds : (epoch == w.generation &&
          decide (l.length ≤ bound)) = true
      · rw [if_pos hHolds]
        exact ⟨rfl, .inr rfl⟩
      · rw [if_neg hHolds]
        exact ⟨rfl, .inl rfl⟩

theorem current_cases
    (epoch bound : Nat)
    (out : Option (List VfsDirent) × World σ) :
    (current epoch bound out).2 = out.2 ∧
      ((current epoch bound out).1 = none ∨
        (current epoch bound out).1 = out.1) := by
  unfold current
  split
  · exact ⟨rfl, .inl rfl⟩
  · exact checked_cases epoch bound out

variable {vols : List (VfsVolume Drives)}
variable {path rest : CStr} {vol : VfsVolume Drives}
variable {driver : Driver} {w : World Drives}

/- A single entry, by its index. -/
theorem vfsReaddir_answers
    (hResolve : resolve vols path = some (vol, rest))
    (hOps : vol.ops = some (driver.ops vol.name))
    (hIdle : driver.Idle vol.name w.fs)
    (i : Nat) :
    Answers (fun i _ => vfsReaddir vols path (i : Nat))
      (Quiet w) (driver.listing vol.name rest w.fs) i 1 := by
  have hIndex : ¬((i : Int) < 0) := by omega
  cases driver with
  | fat v =>
      apply (onFat_answers v hIdle rest i 1).mono
      intro w'
      unfold vfsReaddir
      rw [if_neg hIndex, hResolve]
      dsimp only
      rw [hOps]
      exact current_cases _ _ _
  | ntfs v disk =>
      apply (onNtfs_answers v disk rest i).mono
      intro w'
      unfold vfsReaddir
      rw [if_neg hIndex, hResolve]
      dsimp only
      rw [hOps]
      exact current_cases _ _ _

/- A page, which FAT fills, and the VFS for NTFS. -/
theorem vfsReaddirMany_answers
    (hResolve : resolve vols path = some (vol, rest))
    (hOps : vol.ops = some (driver.ops vol.name))
    (hIdle : driver.Idle vol.name w.fs)
    (first count : Nat) :
    Answers (fun first count =>
        vfsReaddirMany vols path (first : Nat) (count : Nat))
      (Quiet w) (driver.listing vol.name rest w.fs)
      first count := by
  by_cases hBounds : ((first : Int) < 0 ||
      (count : Int) < 1 || (count : Int) > 128 ||
      (first : Int) > 0x7FFFFFFF - count) = true
  · have hRefused : ∀ w', vfsReaddirMany vols path first
        count w' = (none, w') := by
      intro w'
      unfold vfsReaddirMany
      rw [if_pos hBounds]
    constructor
    · intro w' hQuiet
      rw [hRefused]
      exact hQuiet
    · intro w' hQuiet
      rw [hRefused]
      exact .inl rfl
  · cases driver with
    | fat v =>
        apply (onFat_answers v hIdle rest first count).mono
        intro w'
        unfold vfsReaddirMany
        rw [if_neg hBounds, hResolve]
        dsimp only
        rw [hOps]
        exact current_cases _ _ _
    | ntfs v disk =>
        have hLoop : ∀ epoch, Answers (fun first count =>
            readLoop (fun i w => checked epoch 1
              (onNtfs vol.name
                (ntfsOpReaddir v disk rest (i : Nat)) w))
              count first) (Quiet w)
            ((Driver.ntfs v disk).listing vol.name rest w.fs)
            first count := by
          intro epoch
          apply readLoop_answers
          intro i hLow hHigh
          apply (onNtfs_answers v disk rest i).mono
          intro w'
          exact checked_cases _ _ _
        have hMany : ∀ w', vfsReaddirMany vols path first
            count w' = current w'.generation count
              (readLoop (fun i w =>
                checked w'.generation 1
                  (onNtfs vol.name
                    (ntfsOpReaddir v disk rest (i : Nat)) w))
                count first w') := by
          intro w'
          unfold vfsReaddirMany
          rw [if_neg hBounds, hResolve]
          dsimp only
          rw [hOps]
          rfl
        constructor
        · intro w' hQuiet
          rw [hMany, (current_cases _ _ _).1]
          exact (hLoop w'.generation).stays w' hQuiet
        · intro w' hQuiet
          rw [hMany]
          rcases (current_cases w'.generation count
            (readLoop (fun i w => checked w'.generation 1
              (onNtfs vol.name
                (ntfsOpReaddir v disk rest (i : Nat)) w))
              count first w')).2 with hNone | hSame
          · exact .inl hNone
          · rw [hSame]
            exact (hLoop w'.generation).page w' hQuiet

end Calls

/- A root directory of the files `A` and `B`. -/
def rootSector : Buf :=
  (Buf.ofList (0x41 :: List.replicate 10 0x20)).copy 32
    (Buf.ofList (0x42 :: List.replicate 10 0x20)) 11

/- The small volume with it, mounted as `a`. -/
def rootWorld : World Drives where
  fs :=
    { fat := fun _ =>
        ({ smallStart.1 with writing := false },
          Device.ofDisk (fun lba =>
            (if lba = 33 then rootSector
              else Buf.zero).toSector))
      readError := fun _ => false }
  generation := 1

def rootVolume : VfsVolume Drives :=
  ⟨[0x61], some ((Driver.fat smallVol).ops [0x61])⟩

def rootPath : CStr :=
  ⟨[0x2F, 0x61], by decide⟩

end KvantOS.Vfs
