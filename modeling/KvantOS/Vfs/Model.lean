import KvantOS.Data.CString
import KvantOS.Data.Pages
import KvantOS.Fat.Operations

/-
  This file models the part of `kernel/vfs.c` that lists a
  directory: how a path finds its volume, and the two calls
  that read entries of it.

  A driver's answer is absent for a negative result, and
  else the entries it has filled in. The entry buffer of the
  caller is taken to be there.

  Key definitions include:
    * `VfsOps`, `VfsVolume`, `resolve`
    * `vfsReaddir`, `vfsReaddirMany`
-/

namespace KvantOS.Vfs

/- The drivers' own state, and `generation`. -/
structure World (σ : Type) where
  fs : σ
  generation : Nat

variable {σ : Type}

/- A listing call of a driver. -/
abbrev Listing (σ : Type) :=
  World σ → Option (List VfsDirent) × World σ

/- The members of `vfs_ops_t` that list. -/
structure VfsOps (σ : Type) where
  readdir : Option (CStr → Int → Listing σ)
  readdirMany : Option (CStr → Int → Int → Listing σ)

/- `vfs_volume_t`, where the volume is in use. -/
structure VfsVolume (σ : Type) where
  name : List UInt8
  ops : Option (VfsOps σ)

/- `vfs_find`. -/
def vfsFind
    (vols : List (VfsVolume σ))
    (name : List UInt8) : Option (VfsVolume σ) :=
  vols.find? (fun v => v.name == name)

--
-- Paths
--

/- `/`, and the letters of `mnt`. -/
def slash : UInt8 := 0x2F
def mnt : List UInt8 := [0x6D, 0x6E, 0x74]

/- The string in memory that starts with the bytes. -/
def cstr (bytes : List UInt8) : CStr where
  bytes := bytes.takeWhile (· != 0)
  noNul := by
    intro hMem
    have hByte := List.mem_takeWhile_imp hMem
    simp at hByte

/- The path behind the optional `mnt/`. -/
def skipMnt (p : List UInt8) : List UInt8 :=
  let rest := p.drop 3
  if p.take 3 == mnt &&
      (rest.head? == some slash || rest.isEmpty) then
    rest.dropWhile (· == slash)
  else
    p

/- `resolve`: the volume, and the path that is left. -/
def resolve
    (vols : List (VfsVolume σ))
    (path : CStr) : Option (VfsVolume σ × CStr) :=
  if path.bytes.head? != some slash then
    none
  else
    let p := skipMnt (path.bytes.dropWhile (· == slash))
    let vol := (p.takeWhile (· != slash)).take 15
    let p := p.drop vol.length
    if !p.isEmpty && p.head? != some slash then
      none
    else if vol.isEmpty then
      none
    else
      match vfsFind vols vol with
      | none => none
      | some v => some (v, cstr (if p.isEmpty then [slash]
          else p))

--
-- Listing
--

/-
  The check that follows a call of a driver: the namespace
  is the one of before, and there are not too many entries.
-/
def checked
    (epoch bound : Nat) :
    Option (List VfsDirent) × World σ →
      Option (List VfsDirent) × World σ
  | (none, w) => (none, w)
  | (some l, w) =>
      if epoch == w.generation && l.length ≤ bound then
        (some l, w)
      else
        (none, w)

/- The same with the check that there is a namespace. -/
def current
    (epoch bound : Nat)
    (out : Option (List VfsDirent) × World σ) :
    Option (List VfsDirent) × World σ :=
  if epoch == 0 then (none, out.2)
  else checked epoch bound out

/- `vfs_readdir`. -/
def vfsReaddir
    (vols : List (VfsVolume σ))
    (path : CStr)
    (index : Int) : Listing σ :=
  fun w =>
    if index < 0 then (none, w)
    else
      match resolve vols path with
      | none => (none, w)
      | some (v, rest) =>
          match v.ops with
          | none => (none, w)
          | some ops =>
              match ops.readdir with
              | none => (none, w)
              | some one =>
                  current w.generation 1 (one rest index w)

/- `vfs_readdir_many`. -/
def vfsReaddirMany
    (vols : List (VfsVolume σ))
    (path : CStr)
    (first count : Int) : Listing σ :=
  fun w =>
    if first < 0 || count < 1 || count > 128 ||
        first > 0x7FFFFFFF - count then
      (none, w)
    else
      match resolve vols path with
      | none => (none, w)
      | some (v, rest) =>
          match v.ops with
          | none => (none, w)
          | some ops =>
              let epoch := w.generation
              match ops.readdirMany, ops.readdir with
              | some many, _ =>
                  current epoch count.toNat
                    (many rest first count w)
              | none, none => (none, w)
              | none, some one =>
                  current epoch count.toNat
                    (Pages.readLoop
                      (fun i w =>
                        checked epoch 1 (one rest i w))
                      count.toNat first.toNat w)

end KvantOS.Vfs
