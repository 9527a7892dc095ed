import KvantOS.Ntfs.Index
import KvantOS.Ntfs.Reading

/-
  This file models how kernel/ntfs.c mounts a volume, and
  says what every mounted volume keeps: its geometry, and
  that the runs of the master file table follow each other.

  Key definitions include:
    * `ntfsMount`, `MftVolume`

  Key theorems include:
    * `ratio_of_parseBoot`, `mftVolume_of_mount`
-/

namespace KvantOS.Ntfs

/- `partition_fits`. -/
def partitionFits
    (v : NtfsVol)
    (lbaStart lbaCount : Nat) : Bool :=
  if v.bytesPerSector < 512 ||
      v.bytesPerSector % 512 != 0 then
    false
  else
    let ratio := v.bytesPerSector / 512
    if v.totalSectors > maxU32 / ratio then
      false
    else
      let blocks := v.totalSectors * ratio
      if lbaCount != 0 && blocks > lbaCount then false
      else
        !(blocks != 0 && lbaStart > maxU32 - (blocks - 1))

/- The volume before its boot sector is read. -/
def emptyVol
    (lbaStart lbaCount : Nat) : NtfsVol where
  lba := lbaStart
  bytesPerSector := 0
  sectorsPerCluster := 0
  clusterSize := 0
  recordSize := 0
  indexSize := 0
  mftLcn := 0
  totalSectors := 0
  partitionSectors := lbaCount
  mftRuns := []

/- The runs that the record of the table itself describes. -/
def mftRunsOf
    (v : NtfsVol)
    (rec : Buf) : List NtfsRun :=
  match findAttrIn rec v.recordSize atData 0 with
  | .found data =>
      let runOff := rec.get16 (data + 0x20)
      let alen := rec.get32 (data + 4)
      if rec (data + 0x08) == 0 then
        []
      else if alen < 64 || alen > v.recordSize - data ||
          runOff < 64 || runOff > alen then
        []
      else
        parseRunlist rec (data + runOff) (data + alen) 0
          ntfsMaxRuns
  | _ => []

/-
  `ntfs_mount`: the volume as it is mounted. The first
  record is read through a run of one cluster, the root
  directory through the runs that this record describes.
-/
def ntfsMount
    (disk : NtfsDisk)
    (lbaStart lbaCount : Nat) : Option NtfsVol :=
  if lbaCount != 0 && lbaStart > maxU32 - (lbaCount - 1) then
    none
  else
    match diskRead disk lbaStart 1 with
    | none => none
    | some b =>
        match parseBoot b (emptyVol lbaStart lbaCount) with
        | none => none
        | some v =>
            if !partitionFits v lbaStart lbaCount then none
            else
              let boot :=
                { v with
                  mftRuns := [⟨0, v.mftLcn, 1, false⟩] }
              match (readMftRecord boot disk 0 false).1 with
              | none => none
              | some rec =>
                  let mftRuns := mftRunsOf v rec
                  if mftRuns.isEmpty then none
                  else
                    let v := { v with mftRuns }
                    match (readMftRecord v disk
                        mftRecRoot false).1 with
                    | none => none
                    | some _ => some v

--
-- Mounted Volumes
--

/-
  A volume whose records and clusters fit into each other,
  and whose table has runs that follow each other.
-/
structure MftVolume (v : NtfsVol) : Prop where
  good : v.Good
  ratio : v.recordSize % v.clusterSize = 0 ∨
    v.clusterSize % v.recordSize = 0
  tiles : Tiles 0 v.mftRuns
  fit : RunsFit v.mftRuns

/- Of two powers of two, one divides the other. -/
theorem pow_ratio (m n : Nat) :
    2 ^ m % 2 ^ n = 0 ∨ 2 ^ n % 2 ^ m = 0 := by
  rcases Nat.le_total n m with hLe | hLe
  · exact .inl
      (Nat.mod_eq_zero_of_dvd (Nat.pow_dvd_pow 2 hLe))
  · exact .inr
      (Nat.mod_eq_zero_of_dvd (Nat.pow_dvd_pow 2 hLe))

theorem sector_pow
    {bps : Nat}
    (hBps : bps = 512 ∨ bps = 1024 ∨ bps = 2048 ∨
      bps = 4096) :
    ∃ m, bps = 2 ^ m := by
  rcases hBps with rfl | rfl | rfl | rfl
  · exact ⟨9, rfl⟩
  · exact ⟨10, rfl⟩
  · exact ⟨11, rfl⟩
  · exact ⟨12, rfl⟩

/- A byte with one bit is a power of two. -/
theorem sectors_pow :
    ∀ spc, spc ≤ 8 → spc ≠ 0 → spc &&& (spc - 1) = 0 →
      ∃ m, m ≤ 3 ∧ spc = 2 ^ m := by
  decide

/- A size is some clusters, or a power of two. -/
theorem bootSize_some
    {value cluster maxPower size : Nat}
    (hSize : bootSize value cluster maxPower = some size) :
    (∃ n, size = n * cluster) ∨ ∃ n, size = 2 ^ n := by
  unfold bootSize at hSize
  rw [Option.ite_none_left_eq_some] at hSize
  rcases hSize with ⟨-, hSize⟩
  split at hSize
  · cases hSize
    exact .inl ⟨value, rfl⟩
  · dsimp only at hSize
    rw [Option.ite_none_left_eq_some] at hSize
    rcases hSize with ⟨-, hSize⟩
    cases hSize
    exact .inr ⟨256 - value, rfl⟩

/- Records have whole clusters, or clusters whole records. -/
theorem ratio_of_parseBoot
    {b : Buf}
    {v v' : NtfsVol}
    (hParse : parseBoot b v = some v') :
    v'.recordSize % v'.clusterSize = 0 ∨
      v'.clusterSize % v'.recordSize = 0 := by
  simp only [parseBoot, Option.ite_none_left_eq_some]
    at hParse
  rcases hParse with ⟨-, hBps, hSpc, -, hCluster, hParse⟩
  split at hParse
  · rename_i recordSize indexSize hRecord hIndex
    rw [Option.ite_none_right_eq_some] at hParse
    rcases hParse with ⟨-, hV⟩
    cases hV
    simp only [Bool.and_eq_true, bne_iff_ne, beq_iff_eq,
      Bool.or_eq_true, not_or] at hBps hSpc
    dsimp only
    generalize b.get16 0x0B = bps at *
    generalize (b 0x0D).toNat = spc at *
    have hSector : bps = 512 ∨ bps = 1024 ∨ bps = 2048 ∨
        bps = 4096 := by
      omega
    have hFew : spc ≤ 8 := by
      by_contra hMany
      have hLarge : 512 * 9 ≤ bps * spc :=
        Nat.mul_le_mul (by omega) (by omega)
      omega
    rcases sector_pow hSector with ⟨m, hM⟩
    rcases sectors_pow spc hFew hSpc.1
      (Decidable.not_not.mp hSpc.2) with ⟨n, -, hN⟩
    rcases bootSize_some hRecord with ⟨k, rfl⟩ | ⟨k, rfl⟩
    · exact .inl (Nat.mul_mod_left ..)
    · rw [hM, hN, ← Nat.pow_add]
      exact pow_ratio k (m + n)
  · cases hParse

/- The runs that are accepted follow each other. -/
theorem parseRunlist_tiles
    (b : Buf)
    (p stop vcn max : Nat) :
    Tiles vcn (parseRunlist b p stop vcn max) ∧
      RunsFit (parseRunlist b p stop vcn max) := by
  unfold parseRunlist
  cases hParse : parseRuns b stop max (stop - p) p 0 0 vcn
    with
  | none => exact ⟨.nil, nofun⟩
  | some runs =>
      rcases parseRuns_sound hParse with ⟨hRuns, hFit⟩
      exact ⟨hRuns.tiles, hFit⟩

theorem mftRunsOf_tiles
    (v : NtfsVol)
    (rec : Buf) :
    Tiles 0 (mftRunsOf v rec) ∧
      RunsFit (mftRunsOf v rec) := by
  unfold mftRunsOf
  split
  · dsimp only
    split
    · exact ⟨.nil, nofun⟩
    · split
      · exact ⟨.nil, nofun⟩
      · exact parseRunlist_tiles ..
  · exact ⟨.nil, nofun⟩

theorem mftVolume_of_mount
    {disk : NtfsDisk}
    {lbaStart lbaCount : Nat}
    {v : NtfsVol}
    (hMount : ntfsMount disk lbaStart lbaCount = some v) :
    MftVolume v := by
  unfold ntfsMount at hMount
  rw [Option.ite_none_left_eq_some] at hMount
  rcases hMount with ⟨-, hMount⟩
  split at hMount
  · cases hMount
  · split at hMount
    · cases hMount
    · rename_i v' hParse
      rw [Option.ite_none_left_eq_some] at hMount
      rcases hMount with ⟨-, hMount⟩
      dsimp only at hMount
      split at hMount
      · cases hMount
      · rename_i rec hRec
        rw [Option.ite_none_left_eq_some] at hMount
        rcases hMount with ⟨-, hMount⟩
        split at hMount
        · cases hMount
        · cases hMount
          have hGood := good_of_parseBoot hParse
          have hRatio := ratio_of_parseBoot hParse
          rcases mftRunsOf_tiles v' rec with ⟨hTiles, hFit⟩
          exact
            { good := { hGood with }
              ratio := hRatio
              tiles := hTiles
              fit := hFit }

end KvantOS.Ntfs
