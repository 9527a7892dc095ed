import KvantOS.Fat.Directory

/-
  This file models how `kernel/fat.c` lists a directory.

  Key definitions include:
    * `fatReaddirImpl`
-/

namespace KvantOS

/- `vfs_dirent_t`. -/
structure VfsDirent where
  name : List UInt8
  isDir : Bool
  isReadonly : Bool
  isHidden : Bool
  isSystem : Bool
  size : Nat
  mtimeYear : Nat
  mtimeMonth : Nat
  mtimeDay : Nat
  mtimeHour : Nat
  mtimeMin : Nat
  deriving DecidableEq

/- The entry that `list_cb` fills in. -/
def vfsDirent
    (name : List UInt8)
    (de : Dirent) : VfsDirent where
  name := name
  isDir := Dirent.is de fatAttrDir
  isReadonly := Dirent.is de fatAttrRo
  isHidden := Dirent.is de fatAttrHidden
  isSystem := Dirent.is de fatAttrSystem
  size := if Dirent.is de fatAttrDir then 0 else Dirent.size de
  mtimeYear := 1980 + Dirent.mdate de / 2 ^ 9 % 2 ^ 7
  mtimeMonth := Dirent.mdate de / 2 ^ 5 % 2 ^ 4
  mtimeDay := Dirent.mdate de % 2 ^ 5
  mtimeHour := Dirent.mtime de / 2 ^ 11 % 2 ^ 5
  mtimeMin := Dirent.mtime de / 2 ^ 5 % 2 ^ 6

/- `list_ctx_t`; `out` holds `done` entries. -/
structure ListCtx where
  index : Nat
  want : Nat
  out : List VfsDirent
  capacity : Nat

/- The names `.` and `..`. -/
def isDots (name : List UInt8) : Bool :=
  name == [0x2E] || name == [0x2E, 0x2E]

/- `list_cb`. -/
def listCb : DirCb ListCtx :=
  fun l name de _ _ =>
    if isDots name then
      (true, l)
    else if l.index ≥ l.want then
      let out := l.out ++ [vfsDirent name de]
      (out.length < l.capacity,
        { l with index := l.index + 1, out })
    else
      (true, { l with index := l.index + 1 })

/- `fat_readdir_impl`; absent for -1. -/
def fatReaddirImpl
    (v : FatVol)
    (path : List UInt8)
    (index count : Nat) :
    FatProg (Option (List VfsDirent)) := do
  match ← resolvePath v path with
  | .missing => pure none
  | found =>
      let isDir := match found with
        | .entry f => Dirent.is f.de fatAttrDir
        | _ => true
      if !isDir then
        pure none
      else
        let (ok, l) ← walkDir v (found.cluster v) listCb
          { index := 0, want := index, out := [],
            capacity := count }
        pure (if ok then some l.out else none)

end KvantOS
