import KvantOS.Block.Bytes
import KvantOS.Data.CString
import Mathlib.Data.Fin.Basic

/-
  This file defines the on-disk layout of KvFS: the
  superblock, the 64-byte directory entries, and the eight
  directory sectors.

  Key definitions include:
    * `Dirent`, `Super`, `Dir`
    * `dirBytes`, `loadGroup`, `diskDir`

  Key theorems include:
    * `Dirent.ofBytes_toBytes`, `Super.ofSector_toSector`
-/

namespace KvantOS.Kvfs

--
-- Constants
--

/- The signature, "KVFS". -/
def kvfsMagic : UInt32 := 0x5346564B

def kvfsVersion : UInt32 := 2

/- The first sector after the boot loader. -/
def kvfsBase : UInt32 := 2048

def dirSector : UInt32 := kvfsBase + 1

def dirSectors : Nat := 8

def dataStart : UInt32 := 2057

def kvfsMaxFiles : Nat := 64

example : dirSector + UInt32.ofNat dirSectors = dataStart := by
  decide

--
-- Fields
--

/- The 32-bit field at an offset. -/
def field32
    (bytes : Buf)
    (off : Nat) : UInt32 :=
  UInt32.ofNat (bytes.get32 off)

theorem field32_put32_same
    (bytes : Buf)
    (off : Nat)
    (value : UInt32) :
    field32 (bytes.put32 off value.toNat) off = value := by
  unfold field32
  rw [Buf.get32_put32_same,
    Nat.mod_eq_of_lt value.toNat_lt]
  exact UInt32.ofNat_toNat

variable {bytes : Buf}

theorem field32_put32_ne
    {off off' value : Nat}
    (hOut : off' + 4 ≤ off ∨ off + 4 ≤ off') :
    field32 (bytes.put32 off value) off' =
      field32 bytes off' := by
  unfold field32
  rw [Buf.get32_put32_ne hOut]

variable {a b : Buf} {off : Nat}

/- A field depends on its four bytes only. -/
theorem field32_congr
    (hSame : ∀ i, i < 4 → a (off + i) = b (off + i)) :
    field32 a off = field32 b off := by
  unfold field32
  rw [Buf.get32_congr hSame]

theorem field32_toSector
    (hOff : off + 4 ≤ 512) :
    field32 bytes.toSector.toBuf off =
      field32 bytes off := by
  unfold field32
  rw [Buf.get32_toSector hOff]

--
-- Directory Entries
--

/- A directory entry, `kvfs_dirent_t`. -/
@[ext]
structure Dirent where
  name : Fin 40 → UInt8
  start : UInt32
  sectors : UInt32
  size : UInt32
  flags : UInt32
  reserved0 : UInt32
  reserved1 : UInt32

namespace Dirent

/- The entry that `memset` to zero leaves. -/
def zero : Dirent where
  name := fun _ => 0
  start := 0
  sectors := 0
  size := 0
  flags := 0
  reserved0 := 0
  reserved1 := 0

/- The entry is in use: bit 0 of its flags. -/
def live (e : Dirent) : Prop :=
  e.flags &&& 1 ≠ 0

instance (e : Dirent) : Decidable e.live :=
  inferInstanceAs (Decidable (_ ≠ _))

/- The file is executable: bit 1 of its flags. -/
def isExec (e : Dirent) : Bool :=
  e.flags &&& 2 != 0

/- The name, as `strcmp` reads it. -/
def nameOf (e : Dirent) : CStr :=
  .ofBuffer e.name

/- The entry in 64 bytes of memory. -/
def ofBytes (bytes : Buf) : Dirent where
  name := fun i => bytes i
  start := field32 bytes 40
  sectors := field32 bytes 44
  size := field32 bytes 48
  flags := field32 bytes 52
  reserved0 := field32 bytes 56
  reserved1 := field32 bytes 60

/- The 64 bytes of an entry. -/
def toBytes (e : Dirent) : Buf :=
  let name : Buf :=
    fun i => if h : i < 40 then e.name ⟨i, h⟩ else 0
  (((((name.put32 40 e.start.toNat).put32
    44 e.sectors.toNat).put32
    48 e.size.toNat).put32
    52 e.flags.toNat).put32
    56 e.reserved0.toNat).put32
    60 e.reserved1.toNat

/- An entry is read back from its bytes. -/
@[simp]
theorem ofBytes_toBytes (e : Dirent) :
    ofBytes e.toBytes = e := by
  apply Dirent.ext
  · funext i
    have hi := i.isLt
    simp only [ofBytes, toBytes]
    repeat rw [Buf.put32_outside (by omega)]
    exact dif_pos hi
  all_goals
    simp only [ofBytes, toBytes]
    repeat rw [field32_put32_ne (by omega)]
    exact field32_put32_same ..

/- An entry depends on its 64 bytes only. -/
theorem ofBytes_congr
    (hSame : ∀ i, i < 64 → a i = b i) :
    ofBytes a = ofBytes b := by
  apply Dirent.ext
  · funext i
    have hi := i.isLt
    exact hSame i (by omega)
  all_goals
    apply field32_congr
    intro i hi
    exact hSame _ (by omega)

end Dirent

--
-- The Superblock
--

/- The superblock, `kvfs_super_t`. -/
@[ext]
structure Super where
  magic : UInt32
  version : UInt32
  totalSectors : UInt32
  dataStart : UInt32
  fileCount : UInt32
  reserved0 : UInt32
  reserved1 : UInt32
  reserved2 : UInt32

namespace Super

/- The superblock that `memset` to zero leaves. -/
def zero : Super where
  magic := 0
  version := 0
  totalSectors := 0
  dataStart := 0
  fileCount := 0
  reserved0 := 0
  reserved1 := 0
  reserved2 := 0

/- The superblock in the first bytes of a sector. -/
def ofSector (s : Sector) : Super where
  magic := field32 s.toBuf 0
  version := field32 s.toBuf 4
  totalSectors := field32 s.toBuf 8
  dataStart := field32 s.toBuf 12
  fileCount := field32 s.toBuf 16
  reserved0 := field32 s.toBuf 20
  reserved1 := field32 s.toBuf 24
  reserved2 := field32 s.toBuf 28

/- The superblock in a zeroed sector. -/
def toSector (super : Super) : Sector :=
  (((((((((Buf.zero.put32 0 super.magic.toNat).put32
    4 super.version.toNat).put32
    8 super.totalSectors.toNat).put32
    12 super.dataStart.toNat).put32
    16 super.fileCount.toNat).put32
    20 super.reserved0.toNat).put32
    24 super.reserved1.toNat).put32
    28 super.reserved2.toNat)).toSector

/- A superblock is read back from its sector. -/
@[simp]
theorem ofSector_toSector (super : Super) :
    ofSector super.toSector = super := by
  apply Super.ext
  all_goals
    simp only [ofSector, toSector]
    rw [field32_toSector (by omega)]
    repeat rw [field32_put32_ne (by omega)]
    exact field32_put32_same ..

end Super

--
-- The Directory
--

/- The directory in memory. -/
abbrev Dir :=
  Fin 64 → Dirent

/- The directory as the 4096 bytes it occupies. -/
def dirBytes (dir : Dir) : Buf :=
  fun i =>
    if h : i / 64 < 64 then
      (dir ⟨i / 64, h⟩).toBytes (i % 64)
    else
      0

/-
  `memcpy((u8 *)dir + s * 512, secbuf, 512)`: eight entries
  come from the sector.
-/
def loadGroup
    (dir : Dir)
    (s : Nat)
    (secbuf : Sector) : Dir :=
  fun i =>
    if i.val / 8 = s then
      .ofBytes (secbuf.toBuf.drop (i.val % 8 * 64))
    else
      dir i

/- The sector that holds an entry. -/
def groupSector (i : Fin 64) : Nat :=
  dirSector.toNat + i.val / 8

/- The directory that a disk holds. -/
def diskDir (disk : Nat → Sector) : Dir :=
  fun i =>
    .ofBytes ((disk (groupSector i)).toBuf.drop
      (i.val % 8 * 64))

/- One sector of the directory as it lies in memory. -/
def dirGroup
    (dir : Dir)
    (s : Nat) : Sector :=
  ((dirBytes dir).drop (s * 512)).toSector

/- An entry is read back from its directory sector. -/
theorem ofBytes_dirGroup
    (dir : Dir)
    (i : Fin 64) :
    Dirent.ofBytes ((dirGroup dir (i.val / 8)).toBuf.drop
      (i.val % 8 * 64)) = dir i := by
  have hLt := i.isLt
  rw [← Dirent.ofBytes_toBytes (dir i)]
  apply Dirent.ofBytes_congr
  intro j hj
  have hInside : i.val % 8 * 64 + j < 512 := by omega
  have hEntry :
      (i.val / 8 * 512 + (i.val % 8 * 64 + j)) / 64 =
        i.val := by
    omega
  have hByte :
      (i.val / 8 * 512 + (i.val % 8 * 64 + j)) % 64 = j := by
    omega
  change (dirGroup dir (i.val / 8)).toBuf
    (i.val % 8 * 64 + j) = _
  rw [dirGroup, Buf.toBuf_toSector hInside]
  change dirBytes dir
    (i.val / 8 * 512 + (i.val % 8 * 64 + j)) = _
  simp only [dirBytes, hEntry, hByte, hLt, dif_pos]

end KvantOS.Kvfs
