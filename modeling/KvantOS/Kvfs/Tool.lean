import KvantOS.Kvfs.Model
import KvantOS.Data.Utf8

/-
  This file models the host tool that builds KvFS images,
  class `KvFS` of sdk/mkdisk.py: loading an image, placing
  and adding files, and rewriting the directory.

  Key definitions include:
    * `Image`, `ToolEntry`, `Tool`
    * `Tool.flush`, `Tool.findSpace`, `Tool.add`
    * `Tool.create`, `Tool.load`
-/

namespace KvantOS.Kvfs

/- A disk image file. -/
structure Image where
  bytes : Buf
  length : Nat

namespace Image

/- A file of zeroes, as `truncate` leaves it. -/
def blank (length : Nat) : Image where
  bytes := .zero
  length := length

/- `seek` and `write`. -/
def write
    (im : Image)
    (offset : Nat)
    (data : List UInt8) : Image where
  bytes := im.bytes.copy offset (.ofList data) data.length
  length := max im.length (offset + data.length)

/- The sectors of the image. -/
def disk (im : Image) : Nat → Sector :=
  fun lba => (im.bytes.drop (lba * 512)).toSector

/- The image as the boot drive of its size. -/
def ata (im : Image) : Ata where
  drive := 0
  sectors := .ofNat (im.length / 512)
  disk := im.disk
  failed := []

end Image

--
-- State of the Tool
--

/- Why the tool stops: its messages, and what Python raises. -/
inductive ToolStop where
  | tooSmall
  | noFilesystem
  | otherVersion (version : UInt32)
  | noSpace
  | notPlaced
  | nameTooLong
  | directoryFull
  | structError
  deriving DecidableEq

/- An element of `self.entries`. -/
structure ToolEntry where
  name : List Char
  start : Nat
  sectors : Nat
  size : Nat
  flags : Nat

/- `self.total` and `self.entries`. -/
structure Tool where
  total : Nat
  entries : Fin 64 → Option ToolEntry

namespace Tool

--
-- Writing the Service Areas
--

/- `struct.pack("<I", value)`. -/
def pack (value : Nat) : Except ToolStop (List UInt8) :=
  if value < 2 ^ 32 then
    .ok [.ofNat value, .ofNat (value >>> 8),
      .ofNat (value >>> 16), .ofNat (value >>> 24)]
  else
    .error .structError

/- The bytes that an entry's name is stored in. -/
def storedName (name : List Char) : List UInt8 :=
  (Utf8.encode name).take 39

/- The 64 bytes of an entry. -/
def entryBytes :
    Option ToolEntry → Except ToolStop (List UInt8)
  | none => .ok (List.replicate 64 0)
  | some e => do
      let name := storedName e.name
      let start ← pack e.start
      let sectors ← pack e.sectors
      let size ← pack e.size
      let flags ← pack e.flags
      return name ++ List.replicate (40 - name.length) 0 ++
        start ++ sectors ++ size ++ flags ++
        List.replicate 8 0

/- How many entries are in use. -/
def used (tool : Tool) : Nat :=
  (List.finRange 64).countP fun i =>
    (tool.entries i).isSome

/- The bytes of the superblock. -/
def superBytes
    (tool : Tool) : Except ToolStop (List UInt8) := do
  let magic ← pack kvfsMagic.toNat
  let version ← pack kvfsVersion.toNat
  let total ← pack tool.total
  let data ← pack dataStart.toNat
  let count ← pack tool.used
  let head := magic ++ version ++ total ++ data ++ count
  return head ++ List.replicate (512 - head.length) 0

/- `_flush`: rewrite the superblock and the directory. -/
def flush
    (tool : Tool)
    (im : Image) : Except ToolStop Image := do
  let super ← tool.superBytes
  let raw ← (List.finRange 64).mapM fun i =>
    entryBytes (tool.entries i)
  return (im.write (kvfsBase.toNat * 512) super).write
    (dirSector.toNat * 512) raw.flatten

--
-- Looking for a Contiguous Run
--

/- One entry of a round of `_find_space`. -/
def spaceStep
    (candidate need : Nat)
    (scan : Bool × Nat)
    (entry : Option ToolEntry) : Bool × Nat :=
  match entry with
  | none => scan
  | some e =>
      let a := e.start
      let b := e.start + e.sectors
      if candidate < b ∧ a < candidate + need then
        (true, max scan.2 b)
      else
        scan

/- The rounds of `_find_space`. -/
def findSpaceFrom
    (tool : Tool)
    (need : Nat) :
    (rounds candidate : Nat) → Except ToolStop Nat
  | 0, _ => .error .notPlaced
  | rounds + 1, candidate =>
      let (clash, next) :=
        ((List.finRange 64).map tool.entries).foldl
          (spaceStep candidate need) (false, 0)
      if !clash then
        if tool.total < candidate + need then
          .error .noSpace
        else
          .ok candidate
      else
        findSpaceFrom tool need rounds next

/- `_find_space`. -/
def findSpace
    (tool : Tool)
    (need : Nat) : Except ToolStop Nat :=
  tool.findSpaceFrom need (kvfsMaxFiles + 1) dataStart.toNat

--
-- Adding a File
--

/- The entries once a name is removed. -/
def without
    (tool : Tool)
    (name : List Char) : Tool where
  total := tool.total
  entries := fun i =>
    (tool.entries i).filter fun e => e.name ≠ name

/- The first slot without an entry. -/
def freeSlot (tool : Tool) : Option (Fin 64) :=
  (List.finRange 64).find? fun i =>
    (tool.entries i).isNone

/- The sectors that data takes. -/
def sectorsFor (size : Nat) : Nat :=
  max 1 ((size + 511) / 512)

/- The entry of an added file. -/
def newEntry
    (name : List Char)
    (data : List UInt8)
    (isExec : Bool)
    (start : Nat) : ToolEntry where
  name := name
  start := start
  sectors := sectorsFor data.length
  size := data.length
  flags := 1 ||| (if isExec then 2 else 0)

/- The data in whole sectors. -/
def padded (data : List UInt8) : List UInt8 :=
  data ++ List.replicate
    (sectorsFor data.length * 512 - data.length) 0

/- The entries with one more file. -/
def withEntry
    (tool : Tool)
    (slot : Fin 64)
    (entry : ToolEntry) : Tool where
  total := tool.total
  entries :=
    Function.update tool.entries slot (some entry)

/- `add`. -/
def add
    (tool : Tool)
    (im : Image)
    (name : List Char)
    (data : List UInt8)
    (isExec : Bool) : Except ToolStop (Tool × Image) :=
  if 40 ≤ (Utf8.encode name).length then
    .error .nameTooLong
  else
    let kept := tool.without name
    match kept.freeSlot with
    | none => .error .directoryFull
    | some slot => do
        let start ← kept.findSpace (sectorsFor data.length)
        let tool' := kept.withEntry slot
          (newEntry name data isExec start)
        let im ← tool'.flush
          (im.write (start * 512) (padded data))
        return (tool', im)

--
-- Creating and Loading
--

/- `KvFS(path, size_mb)`. -/
def create
    (sizeMb : Nat) : Except ToolStop (Tool × Image) :=
  let total := sizeMb * 1024 * 1024 / 512
  if total < dataStart.toNat + 64 then
    .error .tooSmall
  else do
    let tool : Tool := ⟨total, fun _ => none⟩
    let im ← tool.flush (.blank (total * 512))
    return (tool, im)

/- `struct.unpack("<I", ...)` at an offset. -/
def unpack
    (bytes : Buf)
    (offset : Nat) : Nat :=
  bytes.get32 offset

/- The entry that 64 bytes of the directory hold. -/
def loadEntry (chunk : Buf) : Option ToolEntry :=
  let name := ((chunk.toList 40).takeWhile
    fun b => b != 0)
  let flags := unpack chunk 52
  if flags &&& 1 ≠ 0 then
    some
      { name := Utf8.decode name
        start := unpack chunk 40
        sectors := unpack chunk 44
        size := unpack chunk 48
        flags := flags }
  else
    none

/- `_load`. A file that ends too soon does not unpack. -/
def load (im : Image) : Except ToolStop Tool :=
  let super := im.bytes.drop (kvfsBase.toNat * 512)
  if im.length < kvfsBase.toNat * 512 + 20 then
    .error .structError
  else if unpack super 0 ≠ kvfsMagic.toNat then
    .error .noFilesystem
  else if unpack super 4 ≠ kvfsVersion.toNat then
    .error (.otherVersion (.ofNat (unpack super 4)))
  else if im.length < dataStart.toNat * 512 then
    .error .structError
  else
    let raw := im.bytes.drop (dirSector.toNat * 512)
    .ok
      { total := unpack super 8
        entries := fun i =>
          loadEntry (raw.drop (i.val * 64)) }

end Tool

--
-- Runs of the Tool
--

/-
  A name that a file can have on the host: not empty, and
  without NUL.
-/
structure FileName where
  text : List Char
  nonempty : text ≠ []
  noNul : Char.ofNat 0 ∉ text

/- The arguments of one call of `add`. -/
structure Addition where
  name : FileName
  data : List UInt8
  isExec : Bool

/- Create an image and add files to it. -/
def toolBuild
    (sizeMb : Nat)
    (additions : List Addition) :
    Except ToolStop (Tool × Image) := do
  let start ← Tool.create sizeMb
  additions.foldlM
    (fun state a =>
      state.1.add state.2 a.name.text a.data a.isExec)
    start

/- `mkdisk.py --add`: load an image and add one file. -/
def toolAdd
    (im : Image)
    (a : Addition) : Except ToolStop Image := do
  let tool ← Tool.load im
  let state ← tool.add im a.name.text a.data a.isExec
  return state.2

end KvantOS.Kvfs
