import KvantOS.SectorTx.Model

/-
  This file models the volume record of `kernel/fat.c` and
  the sector commands that the FAT logic above it is written
  in. What the commands do to the device, to the metadata
  cache and to the undo log is modelled separately, so that
  the same logic can be read over a plain image of the
  volume.

  Key definitions include:
    * `FatVol`, `FatCmd`, `FatProg`
    * `clusterToSector`, `fatIsEoc`
-/

--
-- Volumes
--

namespace KvantOS

/- `VFS_MAX_NAME`. -/
def vfsMaxName : Nat :=
  128

/- The attribute bits `FAT_ATTR_*`. -/
def fatAttrRo : UInt8 := 0x01
def fatAttrHidden : UInt8 := 0x02
def fatAttrSystem : UInt8 := 0x04
def fatAttrLabel : UInt8 := 0x08
def fatAttrDir : UInt8 := 0x10
def fatAttrLfn : UInt8 := 0x0F

/- `FAT_EOC32` and `FAT_EOC16`. -/
def fatEoc32 : Nat := 0x0FFFFFF8
def fatEoc16 : Nat := 0xFFF8

/-
  `fat_vol_t` without the fields that an operation changes.
  The disk and its generation are in the environment.
-/
structure FatVol where
  lba : Nat
  totalSectors : Nat
  bytesPerSector : Nat
  sectorsPerCluster : Nat
  reservedSectors : Nat
  numFats : Nat
  fatSize : Nat
  rootEntries : Nat
  rootCluster : Nat
  firstDataSector : Nat
  totalClusters : Nat
  fatStart : Nat
  fsinfoSector : Nat
  isFat32 : Bool
  serial : UInt32
  backupFsinfo : Nat
  extent : Nat
  journal : Nat
  journalCount : Nat
  activeFat : Nat
  mirrored : Bool
  walSector : Nat
  walSectors : Nat
  walCluster : Nat
  walClusters : Nat
  walDir : Nat
  walOff : Nat
  walEntry : Buf
  fileWal : Bool

namespace FatVol

/- Bytes of one FAT entry. -/
def entryBytes (v : FatVol) : Nat :=
  if v.isFat32 then 4 else 2

/- 512-byte sectors of the device in one of the volume. -/
def factor (v : FatVol) : Nat :=
  v.bytesPerSector / 512

end FatVol

/- `cluster_to_sector`, in 32-bit arithmetic. -/
def clusterToSector
    (v : FatVol)
    (clu : Nat) : Nat :=
  (v.firstDataSector +
    (clu + 0xFFFFFFFE) % 2 ^ 32 * v.sectorsPerCluster) %
      2 ^ 32

/- `fat_is_eoc`. -/
def fatIsEoc
    (v : FatVol)
    (clu : Nat) : Bool :=
  if v.isFat32 then clu ≥ fatEoc32 else clu ≥ fatEoc16

/- `FAT_WAL_VIRTUAL`. -/
def fatWalVirtual : Nat := 0xFFFFFE00

/- `wal_overlap`. -/
def walOverlap
    (v : FatVol)
    (sec count : Nat) : Bool :=
  v.fileWal && sec < v.walSector + v.walSectors &&
    v.walSector < sec + count

--
-- Sector Commands
--

/-
  What the FAT logic asks of the sector helpers. Sectors are
  those of the volume, of `bytesPerSector` bytes, and every
  call is for a single one.
-/
inductive FatCmd where
  | readSectors (sec : Nat)
  | writeSectors (sec : Nat) (data : Buf)
  | writeData (sec : Nat) (data : Buf)
  | metaFlush
  | sync
  | ioEnter
  | getError
  | setError

/- `fat_read_sectors` delivers the sector when it returns 1. -/
@[reducible]
def FatCmd.Reply : FatCmd → Type
  | .readSectors _ => Option Buf
  | .writeSectors _ _ => Bool
  | .writeData _ _ => Bool
  | .metaFlush => Bool
  | .sync => Bool
  | .ioEnter => Bool
  | .getError => Bool
  | .setError => Unit

/- Programs over the sector helpers. -/
abbrev FatProg :=
  Prog FatCmd FatCmd.Reply

/- `fat_read_sectors(v, sec, 1, buf)`. -/
def fatReadSectors (sec : Nat) : FatProg (Option Buf) :=
  .step (.readSectors sec) .ret

/- `fat_write_sectors(v, sec, 1, buf)`. -/
def fatWriteSectors
    (sec : Nat)
    (data : Buf) : FatProg Bool :=
  .step (.writeSectors sec data) .ret

/- `io_enter`. -/
def ioEnter : FatProg Bool :=
  .step .ioEnter .ret

/- The value of `v->error`. -/
def getError : FatProg Bool :=
  .step .getError .ret

/- `v->error = 1`. -/
def setError : FatProg Unit :=
  .step .setError .ret

end KvantOS
