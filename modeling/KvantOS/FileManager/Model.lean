import Mathlib

/-
  This file models the state of the file manager of the
  source file `filemgr.c` and how it reads directories. The
  virtual file system is a parameter; what the manager asks
  of it is kept in a log.

  Key definitions include:
    * `vfsJoin`, `vfsParent`, `nativeNameLength`
    * `Vfs`, `Fm`, `Event`
    * `paneLoad`, `paneGoto`, `fmRefresh`, `fmInit`
    * `fmPath`, `selectedPath`
-/

namespace KvantOS.FileManager

--
-- Paths
--

/- A string, without its zero byte. -/
abbrev Path :=
  List UInt8

/- `VFS_MAX_PATH` and `VFS_MAX_NAME`. -/
def maxPath : Nat := 256
def maxName : Nat := 128

/- `FM_MAX_ENTRIES` and `FM_COPY_LIMIT`. -/
def maxEntries : Nat := 512
def copyLimit : Nat := 4 * 1024 * 1024

/- The characters `/`, `\` and `.`. -/
def slash : UInt8 := 47
def backslash : UInt8 := 92
def dot : UInt8 := 46

/- `strncpy` into a buffer, always terminated. -/
def strncpy
    (s : Path)
    (size : Nat) : Path :=
  s.take (size - 1)

/- Whether `vfs_join` puts a slash behind a directory. -/
def needsSlash (dir : Path) : Bool :=
  match dir.getLast? with
  | none => false
  | some c => c != slash

def vfsJoin
    (size : Nat)
    (dir name : Path) : Path :=
  let dst := dir.take (size - 1)
  let dst :=
    if needsSlash dst ∧ dst.length < size - 1 then
      dst ++ [slash]
    else
      dst
  dst ++ name.take (size - 1 - dst.length)

/- The text without a slash at its end. -/
def dropSlash (s : Path) : Path :=
  if s.getLast? = some slash then s.dropLast else s

/- Remove bytes from the end down to a slash. -/
def dropName (s : Path) : Path :=
  (s.reverse.dropWhile (· != slash)).reverse

def vfsParent
    (size : Nat)
    (path : Path) : Path :=
  let dst := path.take (size - 1)
  if dst = [] then
    []
  else
    let dst := dropName (dropSlash dst)
    let dst :=
      if 1 < dst.length ∧ dst.getLast? = some slash then
        dst.dropLast
      else
        dst
    if dst = [] then [slash] else dst

/- `native_name_length(name, size)`; `none` for -1. -/
def nativeNameLength
    (name : Path)
    (size : Nat) : Option Nat :=
  if (name.take size).any (fun c =>
      c < 32 || c == 127 || c == slash || c == backslash) then
    none
  else if name = [] ∨ size ≤ name.length ∨ name = [dot] ∨
      name = [dot, dot] then
    none
  else
    some name.length

/- `"/mnt/%s"`. -/
def volumePath (name : Path) : Path :=
  [47, 109, 110, 116, 47] ++ name

--
-- The Virtual File System
--

/- A name of `VFS_MAX_NAME` bytes has no zero byte. -/
structure Dirent where
  name : Path
  isDir : Nat

/- A volume; its name is in a buffer of 16 bytes. -/
structure Volume where
  name : Path
  ramfs : Bool
  fits : name.length < 16

/-
  The calls of the file manager on the file system, on a
  state of any type; any call may change the generation.
-/
structure Vfs (σ : Type) where
  generation : σ → Nat
  volumes : σ → List Volume
  isRoot : σ → Path → Bool
  space : σ → Path → (Nat × Nat) × σ
  readdir : σ → Path → Nat → (Int × Dirent) × σ
  read : σ → Path → Nat → (Int × List UInt8) × σ
  size : σ → Path → Nat × σ
  writable : σ → Path → Bool × σ
  canRename : σ → Path → Bool × σ
  write : σ → Path → List UInt8 → Int × σ
  remove : σ → Path → Int × σ
  rename : σ → Path → Path → Int × σ
  mkdir : σ → Path → Int × σ
  memory : σ → Nat → Bool

--
-- The State
--

inductive Side where
  | left
  | right
  deriving DecidableEq

def Side.other : Side → Side
  | .left => .right
  | .right => .left

structure Pane where
  path : Path
  items : List Dirent
  sel : Int
  scroll : Int
  loaded : Bool
  totalKb : Nat
  freeKb : Nat

/- What a dialog depends on, at one moment. -/
structure Moment where
  generation : Nat
  epoch : Nat
  loads : Nat
  active : Side
  panePath : Path
  selected : Option Path
  deriving DecidableEq

/- A dialog is opened, with what it captures. -/
inductive Opening where
  | delete (path : Path) (m : Moment)
  | rename (src : Path) (m : Moment)
  | mkdir (m : Moment)
  deriving DecidableEq

/- What is observed of the file manager, newest first. -/
inductive Event where
  | asked (path : Path)
  | opened (o : Opening)
  | remove (path : Path) (m : Moment)
  | rename (src dst : Path) (m : Moment)
  | mkdir (dst : Path) (m : Moment)
  deriving DecidableEq

inductive InputMode where
  | mkdir
  | rename
  deriving DecidableEq

/- The preview of a file. -/
structure View where
  shown : Bool
  name : Path
  data : List UInt8
  scroll : Int
  binary : Bool

/-
  The variables of the file manager, and the observations:
  the number of listing loads and the log.
-/
structure Fm (σ : Type) where
  vfs : σ
  panes : Side → Pane
  paneNamespace : Side → Nat
  active : Side
  inited : Bool
  listingEpoch : Nat
  view : View
  confirm : Bool
  confirmArg : Path
  confirmNamespace : Nat
  confirmListing : Nat
  confirmPane : Side
  inputMode : Option InputMode
  input : Path
  inputDir : Path
  inputFrom : Path
  inputListing : Nat
  inputNamespace : Nat
  inputPane : Side
  inputReplace : Bool
  loads : Nat
  log : List Event

variable {σ : Type}

def Fm.note
    (s : Fm σ)
    (e : Event) : Fm σ :=
  { s with log := e :: s.log }

/- A call with a path leaves a new state of the file system. -/
def Fm.ask
    (s : Fm σ)
    (path : Path)
    (vfs : σ) : Fm σ :=
  { s with vfs := vfs, log := .asked path :: s.log }

def Fm.setPane
    (s : Fm σ)
    (i : Side)
    (p : Pane) : Fm σ :=
  { s with panes := fun j => if j = i then p else s.panes j }

def act (s : Fm σ) : Pane :=
  s.panes s.active

--
-- Sorting
--

def lower (c : UInt8) : UInt8 :=
  if 65 ≤ c ∧ c ≤ 90 then c + 32 else c

/- The names in the order of `char`, whose bytes are signed. -/
def bytesBefore : Path → Path → Bool
  | [], [] => false
  | [], _ :: _ => true
  | _ :: _, [] => false
  | x :: xs, y :: ys =>
      if lower x ≠ lower y then
        (lower x).toInt8 < (lower y).toInt8
      else
        bytesBefore xs ys

def nameBefore (a b : Dirent) : Bool :=
  if a.isDir ≠ b.isDir then b.isDir < a.isDir
  else bytesBefore a.name b.name

/- A round of the insertion sort, over the sorted part. -/
def insertEntry
    (sorted : List Dirent)
    (key : Dirent) : List Dirent :=
  (sorted.reverse.dropWhile (nameBefore key)).reverse ++
    key :: (sorted.reverse.takeWhile (nameBefore key)).reverse

def sortPane (items : List Dirent) : List Dirent :=
  items.foldl insertEntry []

--
-- Reading a Directory
--

variable (V : Vfs σ)

/-
  The loop over the entries, with those that were read; the
  last result is `valid`.
-/
def readEntries
    (epoch : Nat)
    (path : Path) :
    Nat → Fm σ → List Dirent → Fm σ × List Dirent × Bool
  | 0, s, items => (s, items, true)
  | fuel + 1, s, items =>
      let result := V.readdir s.vfs path items.length
      let r := result.1.1
      let e := result.1.2
      let s := s.ask path result.2
      if epoch ≠ V.generation s.vfs ∨ r < 0 ∨ 1 < r then
        (s, items, false)
      else if r = 0 then
        (s, items, true)
      else if maxName ≤ e.name.length ∨ e.name = [] then
        (s, items, false)
      else
        readEntries epoch path fuel s (items ++ [e])

/- `if (!++listing_epoch) listing_epoch++`. -/
def nextEpoch (epoch : Nat) : Nat :=
  if (epoch + 1) % 2 ^ 32 = 0 then 1
  else (epoch + 1) % 2 ^ 32

/- The selection after a load. -/
def clampSel
    (sel : Int)
    (count : Nat) : Int :=
  let sel :=
    if (count : Int) ≤ sel then
      if count ≠ 0 then (count : Int) - 1 else 0
    else
      sel
  if sel < 0 then 0 else sel

/- The space of a directory, its entries and `valid`. -/
def readPane
    (s : Fm σ)
    (path : Path) :
    Fm σ × (Nat × Nat) × List Dirent × Bool :=
  let epoch := V.generation s.vfs
  let space := V.space s.vfs path
  let s := s.ask path space.2
  if epoch ≠ 0 ∧ epoch = V.generation s.vfs then
    let result := readEntries V epoch path maxEntries s []
    (result.1, space.1, result.2)
  else
    (s, space.1, [], false)

/- The pane with what was read of its directory. -/
def fillPane
    (p : Pane)
    (space : Nat × Nat)
    (items : List Dirent)
    (valid : Bool) : Pane :=
  let items := if valid then sortPane items else []
  { p with
    items := items
    sel := clampSel p.sel items.length
    scroll := if valid then p.scroll else 0
    loaded := valid
    totalKb := if valid then space.1 else 0
    freeKb := if valid then space.2 else 0 }

def paneLoad
    (s : Fm σ)
    (i : Side) : Fm σ :=
  let epoch := V.generation s.vfs
  let result := readPane V s (s.panes i).path
  let s := result.1
  let valid := result.2.2.2
  let s := s.setPane i
    (fillPane (s.panes i) result.2.1 result.2.2.1 valid)
  { s with
    paneNamespace := fun j =>
      if j = i then if valid then epoch else 0
      else s.paneNamespace j
    listingEpoch := nextEpoch s.listingEpoch
    loads := s.loads + 1 }

def paneGoto
    (s : Fm σ)
    (i : Side)
    (path : Path) : Fm σ :=
  paneLoad V
    (s.setPane i
      { s.panes i with
        path := strncpy path maxPath
        sel := 0
        scroll := 0 })
    i

def fmRefresh (s : Fm σ) : Fm σ :=
  paneLoad V (paneLoad V s .left) .right

/- The path to open a pane on. -/
def defaultPath
    (s : Fm σ)
    (preferSecond : Bool) : Path :=
  let volumes := V.volumes s.vfs
  let disks := volumes.filter (fun v => !v.ramfs)
  let second := if preferSecond then disks[1]? else none
  let chosen :=
    match second with
    | some v => some v
    | none =>
        match disks[0]? with
        | some v => some v
        | none => volumes[0]?
  match chosen with
  | none => volumePath [114, 97, 109]
  | some v => strncpy (volumePath v.name) maxPath

def fmInit (s : Fm σ) : Fm σ :=
  if s.inited then s
  else
    let s := { s with inited := true }
    let a := defaultPath V s false
    let b := defaultPath V s true
    paneGoto V (paneGoto V s .left a) .right b

--
-- The Selection
--

def fmListingCurrent
    (s : Fm σ)
    (i : Side) : Bool :=
  (s.panes i).loaded && s.paneNamespace i != 0 &&
    s.paneNamespace i == V.generation s.vfs

/- The whole path of an entry, or `none`. -/
def fmPath (dir name : Path) : Option Path :=
  if maxPath ≤ dir.length ∨ maxName ≤ name.length ∨
      name = [] ∨ name = [dot] ∨ name = [dot, dot] ∨
      maxPath ≤ dir.length + name.length +
        (needsSlash dir).toNat then
    none
  else if name.any (fun c => c == slash || c == backslash) then
    none
  else
    some (vfsJoin maxPath dir name)

/- The selected entry of the active pane. -/
def selectedEntry (s : Fm σ) : Option Dirent :=
  if (act s).sel < 0 ∨ (maxEntries : Int) ≤ (act s).sel then
    none
  else
    (act s).items[(act s).sel.toNat]?

def selectedPath (s : Fm σ) : Option Path :=
  if fmListingCurrent V s s.active then
    match selectedEntry s with
    | none => none
    | some e => fmPath (act s).path e.name
  else
    none

/- What a dialog depends on now. -/
def moment (s : Fm σ) : Moment where
  generation := V.generation s.vfs
  epoch := s.listingEpoch
  loads := s.loads
  active := s.active
  panePath := (act s).path
  selected := selectedPath V s

end KvantOS.FileManager
