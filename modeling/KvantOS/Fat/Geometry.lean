import KvantOS.Fat.Store

/-
  This file states what a mounted volume's geometry
  guarantees, and locates FAT entries and clusters in the
  image of the volume.

  Key definitions include:
    * `Geometry`, `Owned`, `Mounted`
    * `fatEntry`

  Key theorems include:
    * `sector_fatEntry`, `clusterToSector_eq`
-/

--
-- Geometry
--

namespace KvantOS

/- The cluster number is that of a data cluster. -/
def FatVol.Valid
    (v : FatVol)
    (c : Nat) : Prop :=
  2 ≤ c ∧ c < v.totalClusters + 2

/- What `parse_bpb` and `fat_mount` have made sure of. -/
structure Geometry (v : FatVol) : Prop where
  sectorSize : v.bytesPerSector = 512 ∨
    v.bytesPerSector = 1024 ∨ v.bytesPerSector = 2048 ∨
    v.bytesPerSector = 4096
  clusterSize : 0 < v.sectorsPerCluster ∧
    v.sectorsPerCluster < 256
  reserved : 0 < v.reservedSectors ∧
    v.reservedSectors < 2 ^ 16
  copies : 1 ≤ v.numFats ∧ v.numFats ≤ 4
  fatStart : v.fatStart = v.reservedSectors
  rootEntries : v.rootEntries < 2 ^ 16
  firstData : v.firstDataSector = v.reservedSectors +
    v.numFats * v.fatSize +
      (v.rootEntries * 32 + v.bytesPerSector - 1) /
        v.bytesPerSector
  total : v.firstDataSector + v.totalClusters *
    v.sectorsPerCluster ≤ v.totalSectors
  clusters : 4085 ≤ v.totalClusters ∧
    v.totalClusters < 0x0FFFFFEE
  width : v.isFat32 = decide (65525 ≤ v.totalClusters)
  fatBytes : (v.totalClusters + 2) * v.entryBytes ≤
    v.fatSize * v.bytesPerSector
  active : v.activeFat < v.numFats
  mirrored : v.mirrored = true → v.activeFat = 0
  fsinfo : v.fsinfoSector < v.reservedSectors
  backup : v.backupFsinfo < v.reservedSectors
  root32 : v.isFat32 = true →
    v.rootEntries = 0 ∧ v.Valid v.rootCluster
  root16 : v.isFat32 = false → v.rootCluster = 0 ∧
    v.fsinfoSector = 0 ∧ v.backupFsinfo = 0
  extent : v.extent = v.totalSectors * v.factor
  bound : v.lba + v.extent < 2 ^ 32

namespace Geometry

variable {v : FatVol}

theorem factor
    (hGeo : Geometry v) :
    v.bytesPerSector = 512 * v.factor ∧ 0 < v.factor := by
  unfold FatVol.factor
  rcases hGeo.sectorSize with h | h | h | h <;>
    rw [h] <;> decide

theorem bytes_pos
    (hGeo : Geometry v) :
    0 < v.bytesPerSector := by
  rcases hGeo.sectorSize with h | h | h | h <;> omega

theorem entryBytes_pos : 0 < v.entryBytes := by
  unfold FatVol.entryBytes
  split <;> decide

/- FAT entries do not straddle sectors. -/
theorem entryBytes_dvd
    (hGeo : Geometry v) :
    v.entryBytes ∣ v.bytesPerSector := by
  unfold FatVol.entryBytes
  rcases hGeo.sectorSize with h | h | h | h <;>
    rw [h] <;> split <;> decide

theorem total_lt
    (hGeo : Geometry v) :
    v.totalSectors < 2 ^ 32 := by
  have hFactor := hGeo.factor.2
  have hBound := hGeo.bound
  have hLe : v.totalSectors * 1 ≤
      v.totalSectors * v.factor :=
    Nat.mul_le_mul_left _ hFactor
  rw [hGeo.extent] at hBound
  omega

/- The entry of a cluster lies inside its sector. -/
theorem entry_fits
    (hGeo : Geometry v)
    (c : Nat) :
    c * v.entryBytes % v.bytesPerSector + v.entryBytes ≤
      v.bytesPerSector := by
  obtain ⟨k, hk⟩ := hGeo.entryBytes_dvd
  have hPos : 0 < v.entryBytes := entryBytes_pos
  have hK : 0 < k := by
    rcases Nat.eq_zero_or_pos k with rfl | hPos'
    · have := hGeo.bytes_pos
      omega
    · exact hPos'
  have hMod : c * v.entryBytes % v.bytesPerSector =
      v.entryBytes * (c % k) := by
    rw [hk, Nat.mul_comm c, Nat.mul_mod_mul_left]
  have hLt : c % k + 1 ≤ k := Nat.mod_lt _ hK
  have hMul := Nat.mul_le_mul_left v.entryBytes hLt
  rw [Nat.mul_add, Nat.mul_one, ← hk] at hMul
  omega

end Geometry

/-
  What `wal_prepare` has made sure of a volume that owns its
  log: the clusters of the file and the place of its entry.
-/
structure Owned (v : FatVol) : Prop where
  fat32 : v.isFat32 = true
  sectorSize : v.bytesPerSector = 512
  mirrored : v.mirrored = true
  copies : v.numFats = 2
  extent : v.extent < fatWalVirtual
  journal : v.journal = fatWalVirtual
  journalCount : v.journalCount = stxMax + 1
  clusters : v.walClusters =
    (stxMax + 2 + v.sectorsPerCluster - 1) /
      v.sectorsPerCluster
  sectors : v.walSectors =
    v.walClusters * v.sectorsPerCluster
  first : 2 ≤ v.walCluster
  last : v.walCluster + v.walClusters ≤
    v.totalClusters + 2
  sector : v.walSector = clusterToSector v v.walCluster
  root : ¬ (v.walCluster ≤ v.rootCluster ∧
    v.rootCluster < v.walCluster + v.walClusters)
  dirSector : v.firstDataSector ≤ v.walDir ∧
    v.walDir < v.totalSectors
  dirOffset : v.walOff + 32 ≤ 512

/-
  A volume that `fat_mount` has accepted: it owns its log or
  has no journal at all.
-/
structure Mounted (v : FatVol) : Prop extends
    Geometry v where
  ram : v.fileWal = false →
    v.journal = 0 ∧ v.journalCount = 0
  owned : v.fileWal = true → Owned v

--
-- The Image of the FAT
--

/- The byte where FAT copy `f` starts in the image. -/
def fatBase
    (v : FatVol)
    (f : Nat) : Nat :=
  (v.fatStart + f * v.fatSize) * v.bytesPerSector

/- An entry of FAT copy `f`, without the reserved bits. -/
def fatEntryOf
    (v : FatVol)
    (f : Nat)
    (image : Buf)
    (c : Nat) : Nat :=
  fatEntryAt v image (fatBase v f + c * v.entryBytes)

/- An entry of the FAT in use. -/
def fatEntry
    (v : FatVol)
    (image : Buf)
    (c : Nat) : Nat :=
  fatEntryOf v v.activeFat image c

/- An entry depends on the bytes it covers only. -/
theorem fatEntryAt_congr
    {v : FatVol}
    {a b : Buf}
    {off off' : Nat}
    (hSame : ∀ i, i < v.entryBytes →
      a (off + i) = b (off' + i)) :
    fatEntryAt v a off = fatEntryAt v b off' := by
  unfold FatVol.entryBytes at hSame
  unfold fatEntryAt
  split
  · next h32 =>
      rw [if_pos h32] at hSame
      rw [Buf.get32_congr hSame]
  · next h32 =>
      rw [if_neg h32] at hSame
      exact Buf.get16_congr hSame

/- An entry of a sector is the one of the image there. -/
theorem sector_entryAt
    {v : FatVol}
    {s : Store}
    {sec o : Nat}
    (hFits : o + v.entryBytes ≤ v.bytesPerSector) :
    fatEntryAt v (s.sector v sec) o =
      fatEntryAt v s.image (sec * v.bytesPerSector + o) := by
  apply fatEntryAt_congr
  intro i hi
  rw [Store.sector, Buf.slice_inside (by omega),
    Nat.add_assoc]

/- A sector of a FAT copy and the offset in it. -/
theorem fat_offset
    {v : FatVol}
    (f off : Nat) :
    (v.fatStart + f * v.fatSize + off / v.bytesPerSector) *
        v.bytesPerSector + off % v.bytesPerSector =
      fatBase v f + off := by
  rw [Nat.add_mul, fatBase, Nat.add_assoc,
    Nat.div_add_mod' off v.bytesPerSector]

/- What the driver finds when it looks an entry up. -/
theorem sector_fatEntry
    {v : FatVol}
    (hGeo : Geometry v)
    (s : Store)
    (f c : Nat) :
    fatEntryAt v
        (s.sector v (v.fatStart + f * v.fatSize +
          c * v.entryBytes / v.bytesPerSector))
        (c * v.entryBytes % v.bytesPerSector) =
      fatEntryOf v f s.image c := by
  rw [sector_entryAt (hGeo.entry_fits c), fat_offset]
  rfl

variable {c : Nat}

/- The sector of an entry lies in its FAT copy. -/
theorem fat_sector_lt
    {v : FatVol}
    (hGeo : Geometry v)
    (hc : c < v.totalClusters + 2) :
    c * v.entryBytes / v.bytesPerSector < v.fatSize := by
  rw [Nat.div_lt_iff_lt_mul hGeo.bytes_pos]
  have hPos : 0 < v.entryBytes := Geometry.entryBytes_pos
  have hLt : c * v.entryBytes <
      (v.totalClusters + 2) * v.entryBytes :=
    Nat.mul_lt_mul_of_pos_right hc hPos
  exact hLt.trans_le hGeo.fatBytes

--
-- Clusters
--

/- A data cluster ends inside the volume. -/
theorem cluster_end_le
    {v : FatVol}
    (hGeo : Geometry v)
    (hc : v.Valid c) :
    v.firstDataSector + (c - 1) * v.sectorsPerCluster ≤
      v.totalSectors := by
  have hLe : (c - 1) * v.sectorsPerCluster ≤
      v.totalClusters * v.sectorsPerCluster := by
    apply Nat.mul_le_mul_right
    have := hc.2
    omega
  have := hGeo.total
  omega

/- The sectors of consecutive clusters. -/
theorem cluster_succ
    {v : FatVol}
    (hc : 2 ≤ c) :
    (c - 1) * v.sectorsPerCluster =
      (c - 2) * v.sectorsPerCluster + v.sectorsPerCluster := by
  have hEq : c - 1 = (c - 2) + 1 := by omega
  rw [hEq, Nat.add_mul, Nat.one_mul]

/- No arithmetic overflow for a data cluster. -/
theorem clusterToSector_eq
    {v : FatVol}
    (hGeo : Geometry v)
    (hc : v.Valid c) :
    clusterToSector v c =
      v.firstDataSector + (c - 2) * v.sectorsPerCluster := by
  have hSmall : c < 2 ^ 32 := by
    have := hc.2
    have := hGeo.clusters.2
    omega
  have hIndex : (c + 0xFFFFFFFE) % 2 ^ 32 = c - 2 := by
    have := hc.1
    omega
  have hEnd := cluster_end_le hGeo hc
  have hNext := cluster_succ (v := v) hc.1
  have hTotal := hGeo.total_lt
  unfold clusterToSector
  rw [hIndex]
  apply Nat.mod_eq_of_lt
  omega

/- The file of the log covers all its slots. -/
theorem Owned.slots
    {v : FatVol}
    (hOwned : Owned v)
    (hSize : 0 < v.sectorsPerCluster) :
    stxMax + 2 ≤ v.walSectors ∧ 0 < v.walClusters := by
  have hDiv := Nat.div_add_mod
    (stxMax + 2 + v.sectorsPerCluster - 1)
    v.sectorsPerCluster
  have hMod := Nat.mod_lt
    (stxMax + 2 + v.sectorsPerCluster - 1) hSize
  rw [← hOwned.clusters, Nat.mul_comm, ← hOwned.sectors]
    at hDiv
  have hAll : stxMax + 2 ≤ v.walSectors := by omega
  refine ⟨hAll, ?_⟩
  rcases Nat.eq_zero_or_pos v.walClusters with hZero | hPos
  · rw [hOwned.sectors, hZero] at hAll
    omega
  · exact hPos

/- The sectors of the log's file lie in its clusters. -/
theorem Owned.bounds
    {v : FatVol}
    (hGeo : Geometry v)
    (hOwned : Owned v) :
    v.firstDataSector ≤ v.walSector ∧
      v.walSector + v.walSectors ≤ v.totalSectors := by
  have hSlots := hOwned.slots hGeo.clusterSize.1
  have hLast := hOwned.last
  have hFirst := hOwned.first
  have hValid : v.Valid v.walCluster :=
    ⟨hFirst, by omega⟩
  have hSector := hOwned.sector
  rw [clusterToSector_eq hGeo hValid] at hSector
  have hTotal := hGeo.total
  have hMul : (v.walCluster - 2 + v.walClusters) *
      v.sectorsPerCluster ≤
        v.totalClusters * v.sectorsPerCluster := by
    apply Nat.mul_le_mul_right
    omega
  rw [Nat.add_mul, ← hOwned.sectors] at hMul
  omega

/- Nothing before the data area is in the log's file. -/
theorem Mounted.not_overlap
    {v : FatVol}
    (hMount : Mounted v)
    {sec : Nat}
    (hSec : sec < v.firstDataSector) :
    walOverlap v sec 1 = false := by
  cases hWal : v.fileWal with
  | false => simp [walOverlap, hWal]
  | true =>
      have hLow := (hMount.owned hWal).bounds
        hMount.toGeometry
      have hNot : ¬ v.walSector < sec + 1 := by omega
      simp [walOverlap, hNot]

/- The FAT copies lie before the data area. -/
theorem Geometry.fats_lt
    {v : FatVol}
    (hGeo : Geometry v) :
    v.fatStart + v.numFats * v.fatSize ≤
      v.firstDataSector := by
  rw [hGeo.firstData, hGeo.fatStart]
  exact Nat.le_add_right _ _

/- The sector of a FAT entry is outside the log's file. -/
theorem Mounted.fat_not_overlap
    {v : FatVol}
    (hMount : Mounted v)
    {f c : Nat}
    (hf : f < v.numFats)
    (hc : c < v.totalClusters + 2) :
    walOverlap v (v.fatStart + f * v.fatSize +
      c * v.entryBytes / v.bytesPerSector) 1 = false := by
  apply hMount.not_overlap
  have hGeo := hMount.toGeometry
  have hLt := fat_sector_lt hGeo hc
  have hFats := hGeo.fats_lt
  have hCopy := Nat.mul_le_mul_right v.fatSize hf
  rw [Nat.succ_mul] at hCopy
  omega

end KvantOS
