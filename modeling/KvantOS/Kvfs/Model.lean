import KvantOS.Block.Ata
import KvantOS.Kvfs.Layout
import Mathlib.Data.List.FinRange

/-
  This file models KvFS, the file system of the boot drive:
  mounting with its validation, formatting, first-fit
  placement, copy-on-write saves, reads, deletion and
  renaming, with their error codes.

  Key definitions include:
    * `Fs`, `kvfsMount`, `kvfsFormat`
    * `findEntry`, `findSpace`, `commitEntry`
    * `kvfsWrite`, `kvfsRead`, `kvfsDelete`, `kvfsRename`
    * `Call`
-/

namespace KvantOS.Kvfs

/- The static variables of the file system. -/
@[ext]
structure Fs where
  super : Super
  dir : Dir
  mounted : Bool
  dev : Int

/- How many entries are in use. -/
def liveCount (dir : Dir) : Nat :=
  (List.finRange 64).countP (fun i => (dir i).live)

def kvfsFileCount (fs : Fs) : Nat :=
  if fs.mounted then liveCount fs.dir else 0

--
-- Directory and Superblock Transfers
--

/- The rounds of `read_dir` from sector `s` on. -/
def readDirFrom
    (dev : Int) :
    (left s : Nat) → Dir → AtaProg (Bool × Dir)
  | 0, _, dir => return (true, dir)
  | left + 1, s, dir => do
      match ← AtaProg.read dev (dirSector + .ofNat s) with
      | none => return (false, dir)
      | some secbuf =>
          readDirFrom dev left (s + 1)
            (loadGroup dir s secbuf)

def readDir
    (dev : Int)
    (dir : Dir) : AtaProg (Bool × Dir) :=
  readDirFrom dev dirSectors 0 dir

/- The rounds of `write_dir` from sector `s` on. -/
def writeDirFrom
    (dev : Int)
    (dir : Dir) :
    (left s : Nat) → AtaProg Bool
  | 0, _ => return true
  | left + 1, s => do
      let ok ← AtaProg.write dev (dirSector + .ofNat s)
        (dirGroup dir s)
      if ok then
        writeDirFrom dev dir left (s + 1)
      else
        return false

def writeDir
    (dev : Int)
    (dir : Dir) : AtaProg Bool :=
  writeDirFrom dev dir dirSectors 0

def writeSuper
    (dev : Int)
    (super : Super) : AtaProg Bool :=
  AtaProg.write dev kvfsBase super.toSector

--
-- Mounting
--

/- The sectors that a size takes. -/
def sectorsFor (size : UInt32) : UInt32 :=
  size / 512 + (if size % 512 ≠ 0 then 1 else 0)

/- What mounting demands of an entry in use. -/
def EntryValid
    (super : Super)
    (e : Dirent) : Prop :=
  CStr.Terminated e.name ∧
  e.name 0 ≠ 0 ∧
  e.flags &&& ~~~3 = 0 ∧
  e.sectors ≠ 0 ∧
  dataStart ≤ e.start ∧
  e.start < super.totalSectors ∧
  e.sectors ≤ super.totalSectors - e.start ∧
  sectorsFor e.size ≤ e.sectors ∧
  e.size ≤ 0x7fffffff

/- Two entries share a name or a sector. -/
def Conflict (e d : Dirent) : Prop :=
  e.nameOf = d.nameOf ∨
    (e.start < d.start + d.sectors ∧
      d.start < e.start + e.sectors)

/- The directory check of `kvfs_mount`. -/
def DirValid
    (super : Super)
    (dir : Dir) : Prop :=
  ∀ i, (dir i).live →
    EntryValid super (dir i) ∧
    ∀ j, j < i → (dir j).live →
      ¬Conflict (dir i) (dir j)

instance
    (super : Super)
    (e : Dirent) :
    Decidable (EntryValid super e) :=
  inferInstanceAs (Decidable
    (_ ∧ _ ∧ _ ∧ _ ∧ _ ∧ _ ∧ _ ∧ _ ∧ _))

instance (e d : Dirent) : Decidable (Conflict e d) :=
  inferInstanceAs (Decidable (_ ∨ _))

instance
    (super : Super)
    (dir : Dir) :
    Decidable (DirValid super dir) :=
  inferInstanceAs (Decidable (∀ _, _ → _))

/- What mounting demands of the superblock. -/
def SuperValid
    (super : Super)
    (sectors : UInt32) : Prop :=
  super.dataStart = dataStart ∧
    dataStart + 64 ≤ super.totalSectors ∧
    super.totalSectors ≤ sectors

instance
    (super : Super)
    (sectors : UInt32) :
    Decidable (SuperValid super sectors) :=
  inferInstanceAs (Decidable (_ ∧ _ ∧ _))

def kvfsMount (fs : Fs) : AtaProg (Int × Fs) := do
  let dev ← AtaProg.bootDrive
  let fs := { fs with mounted := false, dev := dev }
  if dev < 0 then return (-1, fs) else
  match ← AtaProg.read dev kvfsBase with
  | none => return (-2, fs)
  | some secbuf =>
      let super := Super.ofSector secbuf
      let fs := { fs with super := super }
      if super.magic ≠ kvfsMagic then return (-3, fs) else
      if super.version ≠ kvfsVersion then
        return (-4, fs)
      else do
      let sectors ← AtaProg.sectors dev
      if ¬SuperValid super sectors then
        return (-4, fs)
      else do
      let (ok, dir) ← readDir dev fs.dir
      let fs := { fs with dir := dir }
      if !ok then return (-2, fs) else
      if ¬DirValid super dir then return (-4, fs) else
      let super :=
        { super with fileCount := .ofNat (liveCount dir) }
      return (0, { fs with super := super, mounted := true })

def kvfsFormat (fs : Fs) : AtaProg (Int × Fs) := do
  let dev ← AtaProg.bootDrive
  let fs := { fs with mounted := false, dev := dev }
  if dev < 0 then return (-1, fs) else do
  let total ← AtaProg.sectors dev
  if total < dataStart + 64 then return (-5, fs) else do
  let super : Super :=
    { Super.zero with
      magic := kvfsMagic
      version := kvfsVersion
      totalSectors := total
      dataStart := dataStart
      fileCount := 0 }
  let dir : Dir := fun _ => .zero
  let fs := { fs with super := super, dir := dir }
  if !(← writeSuper dev super) then return (-2, fs) else do
  if !(← writeDir dev dir) then return (-2, fs) else
  return (0, { fs with mounted := true })

--
-- Lookup and Placement
--

/- The entry in use under a name. -/
def findEntry
    (dir : Dir)
    (name : CStr) : Option (Fin 64) :=
  (List.finRange 64).find? fun i =>
    (dir i).live && (dir i).nameOf = name

/- The first entry that is not in use. -/
def findFree (dir : Dir) : Option (Fin 64) :=
  (List.finRange 64).find? fun i => !(dir i).live

/-
  One round of the search for space: whether an entry is in
  the way of the candidate, and the furthest end of those
  that are.
-/
def spaceScan
    (dir : Dir)
    (candidate need : UInt32) : Bool × UInt32 :=
  (List.finRange 64).foldl
    (fun (clash, next) i =>
      if (dir i).live then
        let a := (dir i).start
        let b := (dir i).start + (dir i).sectors
        if candidate < b ∧ a < candidate + need then
          (true, if next < b then b else next)
        else
          (clash, next)
      else
        (clash, next))
    (false, 0)

/- The candidate leaves no room before the limit. -/
def noRoom
    (limit candidate need : UInt32) : Bool :=
  limit < candidate || limit - candidate < need

/- The rounds of `find_space`. -/
def findSpaceFrom
    (fs : Fs)
    (need : UInt32) :
    (guard : Nat) → (candidate : UInt32) → UInt32
  | 0, _ => 0
  | guard + 1, candidate =>
      let (clash, next) :=
        spaceScan fs.dir candidate need
      if !clash then
        if noRoom fs.super.totalSectors candidate need then
          0
        else
          candidate
      else if noRoom fs.super.totalSectors next need then
        0
      else
        findSpaceFrom fs need guard next

/- The first gap of a length, or 0. -/
def findSpace
    (fs : Fs)
    (need : UInt32) : UInt32 :=
  let candidate := fs.super.dataStart
  if noRoom fs.super.totalSectors candidate need then
    0
  else
    findSpaceFrom fs need (kvfsMaxFiles + 1) candidate

--
-- Listing
--

/-
  The name, the size and the executable flag of the entry
  with an ordinal.
-/
def kvfsList
    (fs : Fs)
    (index : Nat) : Option (CStr × UInt32 × Bool) :=
  if !fs.mounted then
    none
  else
    let used := (List.finRange 64).filter fun i =>
      (fs.dir i).live
    used[index]?.map fun i =>
      ((fs.dir i).nameOf.take 39, (fs.dir i).size,
        (fs.dir i).isExec)

def kvfsExists
    (fs : Fs)
    (name : CStr) : Bool :=
  fs.mounted && (findEntry fs.dir name).isSome

def kvfsSize
    (fs : Fs)
    (name : CStr) : UInt32 :=
  if !fs.mounted then
    0
  else
    match findEntry fs.dir name with
    | none => 0
    | some i => (fs.dir i).size

/-
  Publish one entry: write its directory sector, and fence
  the mount when that fails.
-/
def commitEntry
    (fs : Fs)
    (slot : Fin 64)
    (entry : Dirent) : AtaProg (Int × Fs) := do
  let group := slot.val / 8
  let secbuf := (((dirBytes fs.dir).drop
    (group * 512)).copy (slot.val % 8 * 64)
      entry.toBytes 64).toSector
  if !(← AtaProg.write fs.dev (dirSector + .ofNat group)
      secbuf) then
    return (-2, { fs with mounted := false })
  else
    let fs :=
      { fs with dir := Function.update fs.dir slot entry }
    let count := UInt32.ofNat (kvfsFileCount fs)
    return (0, { fs with
      super := { fs.super with fileCount := count } })

--
-- Saving and Reading
--

/- Sector `s` of a file body. -/
def bodySector
    (data : Buf)
    (size s : UInt32) : Sector :=
  let offset := s * 512
  let bytes := if offset < size then size - offset else 0
  let bytes := if 512 < bytes then 512 else bytes
  (Buf.zero.copy 0 (data.drop offset.toNat)
    bytes.toNat).toSector

/- The rounds that write a file body. -/
def writeBody
    (dev : Int)
    (start : UInt32)
    (data : Buf)
    (size : UInt32) :
    (left : Nat) → (s : UInt32) → AtaProg Bool
  | 0, _ => return true
  | left + 1, s => do
      let ok ← AtaProg.write dev (start + s)
        (bodySector data size s)
      if ok then
        writeBody dev start data size left (s + 1)
      else
        return false

/- The sectors that a save asks for. -/
def saveSectors (size : UInt32) : UInt32 :=
  if sectorsFor size = 0 then 1 else sectorsFor size

/- The flags of a saved file. -/
def savedFlags (isExec : Bool) : UInt32 :=
  1 ||| (if isExec then 2 else 0)

/- The entry of a saved file. -/
def savedEntry
    (name : CStr)
    (start size : UInt32)
    (isExec : Bool) : Dirent where
  name := name.toBuffer 40
  start := start
  sectors := saveSectors size
  size := size
  flags := savedFlags isExec
  reserved0 := 0
  reserved1 := 0

/- The slot that a save under a name publishes in. -/
def saveSlot
    (dir : Dir)
    (name : CStr) : Option (Fin 64) :=
  (findEntry dir name).or (findFree dir)

def kvfsWrite
    (fs : Fs)
    (name : Option CStr)
    (data : Option Buf)
    (size : UInt32)
    (isExec : Bool) : AtaProg (Int × Fs) :=
  if !fs.mounted then return (-1, fs) else
  match name with
  | none => return (-4, fs)
  | some name =>
      if name.length = 0 then return (-4, fs) else
      if 40 ≤ name.length then return (-5, fs) else
      if (size ≠ 0 ∧ data = none) ∨ 0x7fffffff < size then
        return (-8, fs)
      else
      let need := saveSectors size
      match saveSlot fs.dir name with
      | none => return (-6, fs)
      | some slot => do
          let start := findSpace fs need
          if start = 0 then return (-7, fs) else do
          let body := data.getD .zero
          if !(← writeBody fs.dev start body size
              need.toNat 0) then
            return (-2, fs)
          else
            commitEntry fs slot
              (savedEntry name start size isExec)

/- The rounds that read a file body. -/
def readBody
    (dev : Int)
    (start size : UInt32) :
    (left : Nat) → (s : UInt32) → Buf →
      AtaProg (Bool × Buf)
  | 0, _, buf => return (true, buf)
  | left + 1, s, buf => do
      match ← AtaProg.read dev (start + s) with
      | none => return (false, buf)
      | some secbuf =>
          let chunk := size - s * 512
          let chunk := if 512 < chunk then 512 else chunk
          readBody dev start size left (s + 1)
            (buf.copy (s * 512).toNat secbuf.toBuf
              chunk.toNat)

/- The result of a read, and the buffer it filled. -/
def kvfsRead
    (fs : Fs)
    (name : CStr)
    (buf : Buf)
    (max : UInt32) : AtaProg (Int × Buf) :=
  if !fs.mounted then return (-1, buf) else
  match findEntry fs.dir name with
  | none => return (-3, buf)
  | some i => do
      let size := (fs.dir i).size
      let size := if max < size then max else size
      let need := (size + 511) / 512
      let (ok, buf) ← readBody fs.dev (fs.dir i).start size
        need.toNat 0 buf
      if !ok then return (-2, buf) else
      return (size.toNat, buf)

--
-- Deletion and Renaming
--

def kvfsDelete
    (fs : Fs)
    (name : CStr) : AtaProg (Int × Fs) :=
  if !fs.mounted then return (-1, fs) else
  match findEntry fs.dir name with
  | none => return (-3, fs)
  | some i =>
      commitEntry fs i { fs.dir i with flags := 0 }

/- The bytes that a native name may not hold. -/
def nativeBad (c : UInt8) : Bool :=
  c < 0x20 || c == 127 || c == 0x2F || c == 0x5C

/-
  The length of a native name that fits a capacity, or -1
  for one with a forbidden byte, and for ".", "..", the
  empty name and the name too long.
-/
def nativeNameLength
    (name : Option CStr)
    (capacity : Nat) : Int :=
  match name with
  | none => -1
  | some name =>
      let scanned := name.bytes.take capacity
      if capacity = 0 ∨ scanned.any nativeBad then -1 else
      if scanned.length = 0 ∨ scanned.length = capacity ∨
          scanned = [0x2E] ∨ scanned = [0x2E, 0x2E] then
        -1
      else
        scanned.length

/- The name buffer of a renamed entry. -/
def renamedBuffer
    (name : CStr)
    (length : Nat) : Fin 40 → UInt8 :=
  fun i => if i.val < length then name.bytes.getD i 0 else 0

def kvfsRename
    (fs : Fs)
    (src dst : Option CStr) : AtaProg (Int × Fs) :=
  if !fs.mounted then return (-1, fs) else
  let length := nativeNameLength dst 40
  if length < 0 ∨ nativeNameLength src 40 < 0 then
    return (-4, fs)
  else
  match src, dst with
  | some src, some dst =>
      match findEntry fs.dir src with
      | none => return (-3, fs)
      | some slot =>
          if src = dst then return (0, fs) else
          if (findEntry fs.dir dst).isSome then
            return (-5, fs)
          else do
          let (code, fs) ← commitEntry fs slot
            { fs.dir slot with
              name := renamedBuffer dst length.toNat }
          return (if code ≠ 0 then -6 else 0, fs)
  -- both names passed the check, so neither is null
  | _, _ => return (-4, fs)

--
-- Calls
--

/- The calls that act on the files of a mounted disk. -/
inductive Call where
  | write
      (name : Option CStr)
      (data : Option Buf)
      (size : UInt32)
      (isExec : Bool)
  | read (name : CStr) (buf : Buf) (max : UInt32)
  | delete (name : CStr)
  | rename (src dst : Option CStr)

/- What a call returns and leaves behind. -/
structure Outcome where
  code : Int
  out : Option Buf
  fs : Fs

namespace Call

def program : Call → Fs → AtaProg Outcome
  | .write name data size isExec, fs => do
      let (code, fs) ← kvfsWrite fs name data size isExec
      return ⟨code, none, fs⟩
  | .read name buf max, fs => do
      let (code, buf) ← kvfsRead fs name buf max
      return ⟨code, some buf, fs⟩
  | .delete name, fs => do
      let (code, fs) ← kvfsDelete fs name
      return ⟨code, none, fs⟩
  | .rename src dst, fs => do
      let (code, fs) ← kvfsRename fs src dst
      return ⟨code, none, fs⟩

end Call

end KvantOS.Kvfs
