import KvantOS.Ntfs.Fixup
import KvantOS.Ntfs.Mount
import KvantOS.Ntfs.RunLists
import KvantOS.Ntfs.Stream

/-
  This file says when `read_mft_record` gives the bytes that
  the runs of the master file table describe.

  The driver looks up the first cluster of a record and
  reads on from there. So a record of several clusters is
  right just when they lie one after the other.

  Key definitions include:
    * `ClusterAt`, `StreamByte`
    * `RecordExact`, `RecordTogether`

  Key theorems include:
    * `recordPlace_iff`, `readMftRecord_exact_iff`
    * `crossing_read`
-/

namespace KvantOS.Ntfs

--
-- The Stream of Records
--

/- The runs of the table say where a cluster of it lies. -/
def ClusterAt
    (v : NtfsVol)
    (vcn lcn : Nat) : Prop :=
  ∃ r ∈ v.mftRuns, r.Covers vcn ∧ r.sparse = false ∧
    lcn = r.lcn + (vcn - r.vcn)

/- `x` is byte `pos` of the stream with these runs. -/
def StreamByte
    (v : NtfsVol)
    (disk : NtfsDisk)
    (pos : Nat)
    (x : UInt8) : Prop :=
  (∃ r ∈ v.mftRuns, r.Covers (pos / v.clusterSize) ∧
    r.sparse = true ∧ x = 0) ∨
  ∃ lcn, ClusterAt v (pos / v.clusterSize) lcn ∧
    clusterByte v disk lcn (pos % v.clusterSize) = some x

/- Some sectors lie in the volume and in its partition. -/
def SectorsFit
    (v : NtfsVol)
    (sec count : Nat) : Prop :=
  sec + count ≤ v.totalSectors ∧
    (v.partitionSectors ≠ 0 →
      (sec + count) * (v.bytesPerSector / 512) ≤
        v.partitionSectors) ∧
    v.lba + (sec + count) * (v.bytesPerSector / 512) ≤
      2 ^ 32

/- What the buffer of a record holds before the fixup. -/
def rawRecord
    (v : NtfsVol)
    (disk : NtfsDisk)
    (num : Nat) : Option Buf :=
  (recordPlace v num).bind
    (fun place => readSectors v disk place.1 place.2)

/-
  Whatever the disk holds, a record that is read had the
  bytes of the stream before the fixup.
-/
def RecordExact
    (v : NtfsVol)
    (num : Nat) : Prop :=
  ∀ disk e rec,
    (readMftRecord v disk num e).1 = some rec →
    ∃ raw, rawRecord v disk num = some raw ∧
      applyFixup raw v.recordSize = some rec ∧
      ∀ i, i < v.recordSize →
        StreamByte v disk (num * v.recordSize + i) (raw i)

/-
  If the first cluster of a record has a place and the
  record could lie there, then all its clusters do.
-/
def RecordTogether
    (v : NtfsVol)
    (num : Nat) : Prop :=
  ∀ lcn,
    ClusterAt v (num * v.recordSize / v.clusterSize) lcn →
    SectorsFit v
      (lcn * v.sectorsPerCluster +
        num * v.recordSize % v.clusterSize /
          v.bytesPerSector)
      (v.recordSize / v.bytesPerSector) →
    ∀ k, k * v.clusterSize < v.recordSize →
      ClusterAt v
        (num * v.recordSize / v.clusterSize + k) (lcn + k)

--
-- Reading Sectors
--

section Sectors

variable {v : NtfsVol} {disk : NtfsDisk}

/- Bytes of clusters and of sectors as those of the volume. -/
theorem clusterByte_eq
    (hGood : v.Good)
    (lcn i : Nat) :
    clusterByte v disk lcn i =
      diskByte disk v.lba (lcn * v.clusterSize + i) := by
  have hSector := hGood.sector
  have hBytes : v.bytesPerSector / 512 * 512 =
      v.bytesPerSector := by omega
  rw [clusterByte, diskByte_block, Nat.mul_assoc, hBytes,
    hGood.cluster, Nat.mul_assoc,
    Nat.mul_comm v.bytesPerSector]

theorem readSectors_byte
    {sec count i : Nat}
    {b : Buf}
    (hGood : v.Good)
    (hRead : readSectors v disk sec count = some b)
    (hI : i < count * v.bytesPerSector) :
    diskByte disk v.lba (sec * v.bytesPerSector + i) =
      some (b i) := by
  have hSector := hGood.sector
  have hBytes : v.bytesPerSector / 512 * 512 =
      v.bytesPerSector := by omega
  rw [← readSectors_some hGood hRead hI, diskByte_block,
    Nat.mul_assoc, hBytes]

/- The checks of `ntfs_read_sectors` for a few sectors. -/
theorem readSectors_iff
    {sec count : Nat}
    {b : Buf}
    (hGood : v.Good)
    (hCount : 0 < count)
    (hFew : count * (v.bytesPerSector / 512) ≤ maxU32) :
    readSectors v disk sec count = some b ↔
      SectorsFit v sec count ∧
        readBlocks disk (count * (v.bytesPerSector / 512))
          (v.lba + sec * (v.bytesPerSector / 512))
          (count * (v.bytesPerSector / 512)) = some b := by
  have hSector := hGood.sector
  have hPos := hGood.sectorPos
  have hRatio : 0 < v.bytesPerSector / 512 := by omega
  have hMax : maxU32 = 2 ^ 32 - 1 := by decide
  have hBlocks : 0 < count * (v.bytesPerSector / 512) :=
    Nat.mul_pos hCount hRatio
  have hTests : ∀ n, ¬n > maxU32 / (v.bytesPerSector / 512) ↔
      n * (v.bytesPerSector / 512) ≤ maxU32 := by
    intro n
    rw [Nat.not_lt, Nat.le_div_iff_mul_le hRatio]
  simp only [readSectors, Option.ite_none_left_eq_some,
    Bool.or_eq_true, Bool.and_eq_true, decide_eq_true_eq,
    beq_iff_eq, bne_iff_ne, not_or, not_and, hTests]
  unfold SectorsFit
  rw [Nat.add_mul]
  generalize sec * (v.bytesPerSector / 512) = offset
  generalize count * (v.bytesPerSector / 512) = blocks at *
  constructor
  · rintro ⟨hTotal, hSmall, hPart, hDisk, hRead⟩
    refine ⟨⟨by omega, fun hSome => ?_, ?_⟩, hRead⟩
    · have hIn := hPart hSome
      omega
    · have hIn := hDisk.2 (by omega)
      omega
  · rintro ⟨⟨hTotal, hPart, hDisk⟩, hRead⟩
    refine ⟨by omega, by omega, fun hSome => ?_,
      ⟨by omega, fun _ => by omega⟩, hRead⟩
    have hIn := hPart hSome
    omega

/- Where every block can be read, all reads go through. -/
theorem readBlocks_total
    (hDisk : ∀ lba, (disk lba).isSome = true)
    (fuel lba count : Nat) :
    ∃ b, readBlocks disk fuel lba count = some b := by
  have hRead : ∀ lba count,
      ∃ b, diskRead disk lba count = some b := by
    intro lba count
    refine ⟨_, if_pos ?_⟩
    rw [List.all_eq_true]
    exact fun i _ => hDisk (lba + i)
  induction fuel generalizing lba count with
  | zero => exact ⟨_, rfl⟩
  | succ fuel ih =>
      rw [readBlocks]
      split
      · exact ⟨_, rfl⟩
      · dsimp only
        generalize (if count > 64 then 64 else count) = chunk
        rcases hRead lba chunk with ⟨p, hP⟩
        rcases ih (lba + chunk) (count - chunk) with
          ⟨rest, hRest⟩
        rw [hP, hRest]
        exact ⟨_, rfl⟩

end Sectors

--
-- Where a Record Is Read
--

section Places

variable {v : NtfsVol}

theorem MftVolume.clusterPos
    (hVol : MftVolume v) :
    0 < v.clusterSize := by
  rw [hVol.good.cluster]
  exact Nat.mul_pos hVol.good.sectorPos hVol.good.clusterPos

theorem MftVolume.recordPos
    (hVol : MftVolume v) :
    0 < v.recordSize :=
  Nat.lt_of_lt_of_le hVol.good.sectorPos hVol.good.recordMin

/- A record has some whole sectors. -/
theorem MftVolume.recordSectors
    (hVol : MftVolume v) :
    v.recordSize / v.bytesPerSector * v.bytesPerSector =
        v.recordSize ∧
      0 < v.recordSize / v.bytesPerSector ∧
      v.recordSize / v.bytesPerSector *
          (v.bytesPerSector / 512) ≤ maxU32 := by
  have hWhole : v.recordSize / v.bytesPerSector *
      v.bytesPerSector = v.recordSize :=
    Nat.div_mul_cancel
      (Nat.dvd_of_mod_eq_zero hVol.good.record)
  refine ⟨hWhole, ?_, ?_⟩
  · exact Nat.div_pos hVol.good.recordMin
      hVol.good.sectorPos
  · have hMost : v.recordSize / v.bytesPerSector *
        (v.bytesPerSector / 512) ≤ v.recordSize :=
      calc
        _ ≤ v.recordSize / v.bytesPerSector *
            v.bytesPerSector :=
          Nat.mul_le_mul_left _ (Nat.div_le_self _ _)
        _ = v.recordSize := hWhole
    have hMax : v.recordSize ≤ 4096 := hVol.good.recordMax
    have hWord : 4096 ≤ maxU32 := by decide
    omega

/- The lookup finds just the clusters with a place. -/
theorem clusterAt_iff
    (hVol : MftVolume v)
    (vcn lcn : Nat) :
    ClusterAt v vcn lcn ↔
      ∃ left, runLookup v.mftRuns vcn =
        some ⟨lcn, left, false⟩ := by
  constructor
  · rintro ⟨r, hMem, hCovers, hPlain, rfl⟩
    have hFound := (runLookup_tiles hVol.tiles hVol.fit
      vcn).found r hMem hCovers
    rw [NtfsRun.place, hPlain] at hFound
    exact ⟨_, hFound⟩
  · rintro ⟨left, hLookup⟩
    rcases runLookup_some hVol.fit hLookup with
      ⟨r, hMem, hCovers, hSparse, hLcn⟩
    exact ⟨r, hMem, hCovers, hSparse.symm,
      hLcn hSparse.symm⟩

/- A covered cluster has a number of 32 bits. -/
theorem clusterAt_le
    {vcn lcn : Nat}
    (hVol : MftVolume v)
    (hAt : ClusterAt v vcn lcn) :
    vcn ≤ maxU32 := by
  rcases hAt with ⟨r, hMem, hCovers, -, -⟩
  have hFit := hVol.fit r hMem
  have hHigh := hCovers.2
  omega

/- Small records share a cluster. -/
theorem smallRecord_place
    {record cluster bps num : Nat}
    (hRecord : 0 < record)
    (hRatio : cluster % record = 0)
    (hSector : record / bps * bps = record)
    (hBps : 0 < bps) :
    num * record / cluster = num / (cluster / record) ∧
      num * record % cluster / bps =
        num % (cluster / record) * (record / bps) := by
  have hWhole : record * (cluster / record) = cluster :=
    Nat.mul_div_cancel' (Nat.dvd_of_mod_eq_zero hRatio)
  generalize cluster / record = many at *
  generalize record / bps = sectors at *
  constructor
  · rw [← hWhole, Nat.mul_comm num,
      Nat.mul_div_mul_left _ _ hRecord]
  · rw [← hWhole, Nat.mul_comm num, Nat.mul_mod_mul_left,
      Nat.mul_comm record, ← hSector, ← Nat.mul_assoc,
      Nat.mul_div_cancel _ hBps]

/- Large records have some clusters each. -/
theorem largeRecord_place
    {record cluster num : Nat}
    (hCluster : 0 < cluster)
    (hRatio : record % cluster = 0) :
    num * record / cluster = num * (record / cluster) ∧
      num * record % cluster = 0 := by
  have hWhole : record / cluster * cluster = record :=
    Nat.div_mul_cancel (Nat.dvd_of_mod_eq_zero hRatio)
  generalize record / cluster = many at *
  rw [← hWhole, ← Nat.mul_assoc]
  exact ⟨Nat.mul_div_cancel _ hCluster,
    Nat.mul_mod_left ..⟩

/- A record starts with a cluster or lies in one. -/
theorem record_inner
    (hVol : MftVolume v)
    (num : Nat) :
    num * v.recordSize % v.clusterSize = 0 ∨
      num * v.recordSize % v.clusterSize + v.recordSize ≤
        v.clusterSize := by
  rcases hVol.ratio with hRatio | hRatio
  · exact .inl
      (largeRecord_place hVol.clusterPos hRatio).2
  · have hWhole : v.recordSize *
        (v.clusterSize / v.recordSize) = v.clusterSize :=
      Nat.mul_div_cancel' (Nat.dvd_of_mod_eq_zero hRatio)
    have hPos : 0 < v.clusterSize / v.recordSize := by
      by_contra hNone
      rw [Nat.eq_zero_of_not_pos hNone] at hWhole
      have hCluster := hVol.clusterPos
      omega
    have hLess := Nat.mod_lt num hPos
    have hInner : num * v.recordSize % v.clusterSize =
        v.recordSize *
          (num % (v.clusterSize / v.recordSize)) := by
      rw [← Nat.mul_mod_mul_left, hWhole, Nat.mul_comm num]
    have hMost := Nat.mul_le_mul_left v.recordSize hLess
    rw [hWhole, Nat.mul_succ] at hMost
    rw [hInner]
    exact .inr hMost

/- The second part of the search for a record's sectors. -/
theorem startPlace_iff
    (hVol : MftVolume v)
    (vcn inner sectors sec count : Nat) :
    (match runLookup v.mftRuns vcn with
      | none => none
      | some place =>
          if place.sparse ||
              place.lcn > maxU32 / v.sectorsPerCluster then
            none
          else
            let sector := place.lcn * v.sectorsPerCluster
            if sector > maxU32 - inner then none
            else some (sector + inner, sectors)) =
        some (sec, count) ↔
      ∃ lcn, ClusterAt v vcn lcn ∧
        lcn * v.sectorsPerCluster ≤ maxU32 - inner ∧
        sec = lcn * v.sectorsPerCluster + inner ∧
        count = sectors := by
  have hPos := hVol.good.clusterPos
  constructor
  · intro hPlace
    split at hPlace
    · cases hPlace
    · rename_i place hLookup
      simp only [Option.ite_none_left_eq_some,
        Bool.or_eq_true, decide_eq_true_eq, not_or,
        Bool.not_eq_true, Nat.not_lt, Option.some.injEq,
        Prod.mk.injEq] at hPlace
      rcases hPlace with ⟨⟨hPlain, -⟩, hInner, rfl, rfl⟩
      refine ⟨place.lcn, ?_, hInner, rfl, rfl⟩
      rw [clusterAt_iff hVol, hLookup, ← hPlain]
      exact ⟨place.left, rfl⟩
  · rintro ⟨lcn, hAt, hInner, rfl, rfl⟩
    rcases (clusterAt_iff hVol vcn lcn).mp hAt with
      ⟨left, hLookup⟩
    have hSmall : lcn ≤ maxU32 / v.sectorsPerCluster := by
      rw [Nat.le_div_iff_mul_le hPos]
      omega
    rw [hLookup]
    dsimp only
    rw [if_neg (by simpa using hSmall),
      if_neg (Nat.not_lt.mpr hInner)]

/- Where the sectors of a record are looked for. -/
theorem recordPlace_iff
    (hVol : MftVolume v)
    (num sec count : Nat) :
    recordPlace v num = some (sec, count) ↔
      ∃ lcn,
        ClusterAt v (num * v.recordSize / v.clusterSize)
          lcn ∧
        lcn * v.sectorsPerCluster ≤ maxU32 -
          num * v.recordSize % v.clusterSize /
            v.bytesPerSector ∧
        sec = lcn * v.sectorsPerCluster +
          num * v.recordSize % v.clusterSize /
            v.bytesPerSector ∧
        count = v.recordSize / v.bytesPerSector := by
  have hCluster := hVol.clusterPos
  have hRecord := hVol.recordPos
  have hBps := hVol.good.sectorPos
  have hSpc := hVol.good.clusterPos
  rcases hVol.recordSectors with ⟨hWhole, hSome, -⟩
  have hSectors : (v.recordSize / v.bytesPerSector == 0) =
      false := by
    rw [beq_eq_false_iff_ne]
    omega
  have hSpcNe : (v.sectorsPerCluster == 0) = false := by
    rw [beq_eq_false_iff_ne]
    omega
  unfold recordPlace
  rw [if_neg (by simp [hVol.good.record]; omega)]
  dsimp only
  rw [hSectors, hSpcNe]
  simp only [Bool.false_eq_true, if_false]
  by_cases hLarge : v.clusterSize < v.recordSize
  · have hRatio : v.recordSize % v.clusterSize = 0 := by
      rcases hVol.ratio with hRatio | hRatio
      · exact hRatio
      · rw [Nat.mod_eq_of_lt hLarge] at hRatio
        omega
    have hRpc : v.clusterSize / v.recordSize = 0 :=
      Nat.div_eq_of_lt hLarge
    have hCpr : 0 < v.recordSize / v.clusterSize :=
      Nat.div_pos (Nat.le_of_lt hLarge) hCluster
    have hPlace := @largeRecord_place v.recordSize
      v.clusterSize num hCluster hRatio
    have hCprNe : (v.recordSize / v.clusterSize == 0) =
        false := by
      rw [beq_eq_false_iff_ne]
      omega
    rw [hRpc, hPlace.1, hPlace.2, Nat.zero_div, hRatio,
      hCprNe]
    simp only [bne_self_eq_false, Bool.false_eq_true,
      if_false, Bool.false_or, decide_eq_true_eq]
    by_cases hNum :
        num > maxU32 / (v.recordSize / v.clusterSize)
    · rw [if_pos hNum]
      refine iff_of_false nofun ?_
      rintro ⟨lcn, hAt, -⟩
      have hLe := clusterAt_le hVol hAt
      rw [← Nat.le_div_iff_mul_le hCpr] at hLe
      omega
    · rw [if_neg hNum]
      exact startPlace_iff hVol _ _ _ _ _
  · have hRatio : v.clusterSize % v.recordSize = 0 := by
      rcases hVol.ratio with hRatio | hRatio
      · have hLe := Nat.le_of_dvd hRecord
          (Nat.dvd_of_mod_eq_zero hRatio)
        have hSame : v.clusterSize = v.recordSize := by
          omega
        rw [hSame, Nat.mod_self]
      · exact hRatio
    have hRpc : 0 < v.clusterSize / v.recordSize :=
      Nat.div_pos (Nat.le_of_not_lt hLarge) hRecord
    have hPlace := @smallRecord_place v.recordSize
      v.clusterSize v.bytesPerSector num hRecord hRatio
      hWhole hBps
    have hRpcNe : (v.clusterSize / v.recordSize != 0) =
        true := by
      simp; omega
    rw [hRpcNe, ← hPlace.1, ← hPlace.2]
    simp only [if_true]
    exact startPlace_iff hVol _ _ _ _ _

end Places

--
-- Records That Lie Together
--

section Exact

variable {v : NtfsVol} {disk : NtfsDisk}

/- A record is what its sectors hold, after the fixup. -/
theorem readMftRecord_eq
    (num : Nat)
    (e : Bool) :
    (readMftRecord v disk num e).1 =
      (rawRecord v disk num).bind fun raw =>
        if raw.same fileMagic 4 then
          applyFixup raw v.recordSize
        else none := by
  unfold readMftRecord rawRecord ntfsReadSectors
  cases recordPlace v num with
  | none => rfl
  | some place =>
      rcases place with ⟨sec, count⟩
      dsimp only
      rw [Option.bind_some, run_bind]
      cases readSectors v disk sec count with
      | none => rfl
      | some raw =>
          rw [flagged_some, Option.bind_some]
          dsimp only
          cases raw.same fileMagic 4 with
          | false => rfl
          | true => rfl

/- The record is read from where its first cluster lies. -/
theorem rawRecord_byte
    {num i : Nat}
    {raw : Buf}
    (hVol : MftVolume v)
    (hRaw : rawRecord v disk num = some raw)
    (hI : i < v.recordSize) :
    ∃ lcn,
      ClusterAt v (num * v.recordSize / v.clusterSize) lcn ∧
      SectorsFit v
        (lcn * v.sectorsPerCluster +
          num * v.recordSize % v.clusterSize /
            v.bytesPerSector)
        (v.recordSize / v.bytesPerSector) ∧
      diskByte disk v.lba
        (lcn * v.clusterSize +
          num * v.recordSize % v.clusterSize + i) =
        some (raw i) := by
  rcases hVol.recordSectors with ⟨hWhole, hSome, hFew⟩
  unfold rawRecord at hRaw
  rw [Option.bind_eq_some_iff] at hRaw
  rcases hRaw with ⟨⟨sec, count⟩, hPlace, hRead⟩
  rcases (recordPlace_iff hVol num sec count).mp hPlace with
    ⟨lcn, hAt, -, rfl, rfl⟩
  refine ⟨lcn, hAt,
    ((readSectors_iff hVol.good hSome hFew).mp hRead).1, ?_⟩
  rw [← readSectors_byte hVol.good hRead
    (Nat.lt_of_lt_of_eq hI hWhole.symm)]
  congr 1
  have hInner : num * v.recordSize % v.clusterSize /
      v.bytesPerSector * v.bytesPerSector =
        num * v.recordSize % v.clusterSize := by
    apply Nat.div_mul_cancel
    rw [Nat.dvd_mod_iff]
    · exact Nat.dvd_mul_left_of_dvd
        (Nat.dvd_of_mod_eq_zero hVol.good.record) _
    · rw [hVol.good.cluster]
      exact Nat.dvd_mul_right ..
  have hStart : lcn * v.sectorsPerCluster *
      v.bytesPerSector = lcn * v.clusterSize := by
    rw [hVol.good.cluster, Nat.mul_assoc,
      Nat.mul_comm v.sectorsPerCluster]
  rw [Nat.add_mul, hInner, hStart]

theorem recordExact_of_together
    {num : Nat}
    (hVol : MftVolume v)
    (hTogether : RecordTogether v num) :
    RecordExact v num := by
  intro disk e rec hRead
  rw [readMftRecord_eq, Option.bind_eq_some_iff] at hRead
  rcases hRead with ⟨raw, hRaw, hFixup⟩
  rw [Option.ite_none_right_eq_some] at hFixup
  refine ⟨raw, hRaw, hFixup.2, fun i hI => ?_⟩
  rcases rawRecord_byte hVol hRaw hI with
    ⟨lcn, hAt, hFit, hByte⟩
  have hStart := Nat.div_add_mod (num * v.recordSize)
    v.clusterSize
  have hInside := record_inner hVol num
  have hCluster := hVol.clusterPos
  unfold RecordTogether at hTogether
  generalize hFirst : num * v.recordSize / v.clusterSize =
    first at *
  generalize hInner : num * v.recordSize % v.clusterSize =
    inner at *
  have hPos : num * v.recordSize + i =
      v.clusterSize * first + (inner + i) := by
    omega
  have hSplit := Nat.div_add_mod (inner + i) v.clusterSize
  have hLess := Nat.mod_lt (inner + i) hCluster
  have hDiv : (num * v.recordSize + i) / v.clusterSize =
      first + (inner + i) / v.clusterSize := by
    rw [hPos, Nat.mul_add_div hCluster]
  have hMod : (num * v.recordSize + i) % v.clusterSize =
      (inner + i) % v.clusterSize := by
    rw [hPos, Nat.mul_add_mod]
  generalize hK : (inner + i) / v.clusterSize = k at *
  have hReach : k * v.clusterSize < v.recordSize := by
    rw [Nat.mul_comm]
    rcases hInside with hZero | hIn
    · omega
    · have hNone : k = 0 :=
        hK ▸ Nat.div_eq_of_lt (by omega)
      rw [hNone]
      omega
  refine .inr ⟨lcn + k, ?_, ?_⟩
  · rw [hDiv]
    exact hTogether lcn hAt hFit k hReach
  · have hPlace : (lcn + k) * v.clusterSize +
        (inner + i) % v.clusterSize =
          lcn * v.clusterSize + inner + i := by
      rw [Nat.add_mul, Nat.mul_comm k]
      omega
    rw [hMod, clusterByte_eq hVol.good, hPlace]
    exact hByte

end Exact

--
-- Records That Cross to Another Run
--

/-
  A record that the driver accepts and that has a 1 at one
  place only.
-/
def probeRecord (size mark : Nat) : Buf :=
  fun i =>
    if i = mark then 1
    else Buf.ofList
      [0x46, 0x49, 0x4C, 0x45, 0x30, 0,
        UInt8.ofNat (size / 512 + 1), 0] i

/- A disk with some bytes from byte `base` of the volume. -/
def probeDisk
    (v : NtfsVol)
    (base : Nat)
    (b : Buf) : NtfsDisk :=
  fun lba => some fun i =>
    if base ≤ (lba - v.lba) * 512 + i then
      b ((lba - v.lba) * 512 + i - base)
    else 0

section Probes

variable {v : NtfsVol} {size mark base : Nat} {b : Buf}

theorem probeDisk_byte
    (v : NtfsVol)
    (base : Nat)
    (b : Buf)
    (i : Nat) :
    diskByte (probeDisk v base b) v.lba i =
      some (if base ≤ i then b (i - base) else 0) := by
  have hI : (v.lba + i / 512 - v.lba) * 512 + i % 512 =
      i := by
    omega
  unfold diskByte probeDisk
  rw [Option.map_some]
  dsimp only
  rw [hI]

theorem probeRecord_short
    {i : Nat}
    (hI : 8 ≤ i)
    (hNe : i ≠ mark) :
    probeRecord size mark i = 0 := by
  unfold probeRecord Buf.ofList
  rw [if_neg hNe, List.getD_eq_default]
  exact hI

/- No other byte of the record is 1. -/
theorem probeRecord_one
    {i : Nat}
    (hMin : 512 ≤ size)
    (hMax : size ≤ 4096)
    (hOne : probeRecord size mark i = 1) :
    i = mark := by
  by_contra hNe
  by_cases hI : 8 ≤ i
  · rw [probeRecord_short hI hNe] at hOne
    cases hOne
  · unfold probeRecord Buf.ofList at hOne
    rw [if_neg hNe] at hOne
    have hCount : (size / 512 + 1) % 256 ≠ 1 := by omega
    have hPlace : i = 0 ∨ i = 1 ∨ i = 2 ∨ i = 3 ∨ i = 4 ∨
        i = 5 ∨ i = 6 ∨ i = 7 := by
      omega
    rcases hPlace with rfl | rfl | rfl | rfl | rfl | rfl |
      rfl | rfl
    case inr.inr.inr.inr.inr.inr.inl =>
      have hByte : UInt8.ofNat (size / 512 + 1) = 1 := hOne
      apply hCount
      rw [← UInt8.toNat_ofNat', hByte]
      rfl
    all_goals simp at hOne

theorem probeRecord_fixup
    (hSector : size % 512 = 0)
    (hMin : 512 ≤ size)
    (hMax : size ≤ 4096)
    (hMark : 512 ≤ mark)
    (hAlign : mark % 512 = 0)
    (hSame : ∀ i, i < size →
      b i = probeRecord size mark i) :
    ∃ rec, applyFixup b size = some rec := by
  have hShort : ∀ i, i < 512 → i ≠ mark := by omega
  have hUsa : (probeRecord size mark).get16 4 = 48 := by
    rw [Buf.get16_eq, probeRecord, probeRecord,
      if_neg (hShort 4 (by decide)),
      if_neg (hShort 5 (by decide))]
    rfl
  have hCount : (probeRecord size mark).get16 6 =
      size / 512 + 1 := by
    have hLow : (UInt8.ofNat (size / 512 + 1)).toNat =
        size / 512 + 1 := by
      rw [UInt8.toNat_ofNat']
      omega
    rw [Buf.get16_eq, probeRecord, probeRecord,
      if_neg (hShort 6 (by decide)),
      if_neg (hShort 7 (by decide))]
    exact hLow
  have hZero : ∀ i, 8 ≤ i → i ≠ mark → i + 1 ≠ mark →
      (probeRecord size mark).get16 i = 0 := by
    intro i hI hNe hNext
    rw [Buf.get16_eq, probeRecord_short hI hNe,
      probeRecord_short (by omega) hNext]
    rfl
  have hDone : (applyFixupIn (probeRecord size mark)
      size).1 = true := by
    rw [applyFixupIn_iff hSector (by omega), hUsa, hCount,
      hZero 48 (by decide) (by omega) (by omega)]
    refine ⟨⟨by decide, by omega⟩, rfl, ?_⟩
    intro k hLow hHigh
    exact hZero _ (by omega) (by omega) (by omega)
  rw [← (applyFixupIn_congr (by omega) hSame).1] at hDone
  rw [applyFixup_eq, accepted, if_pos hDone]
  exact ⟨_, rfl⟩

theorem probeRecord_magic
    (hMin : 512 ≤ size)
    (hMark : 512 ≤ mark)
    (hSame : ∀ i, i < size →
      b i = probeRecord size mark i) :
    b.same fileMagic 4 = true := by
  rw [Buf.same_iff]
  intro i hI
  have hPlace : i = 0 ∨ i = 1 ∨ i = 2 ∨ i = 3 := by omega
  rw [hSame i (by omega), probeRecord, if_neg (by omega)]
  rcases hPlace with rfl | rfl | rfl | rfl <;> rfl

end Probes

section Exact

variable {v : NtfsVol}

/- A large record on such a disk has the bytes. -/
theorem probe_raw
    {num lcn : Nat}
    (hVol : MftVolume v)
    (hRatio : v.recordSize % v.clusterSize = 0)
    (hAt : ClusterAt v
      (num * v.recordSize / v.clusterSize) lcn)
    (hFit : SectorsFit v (lcn * v.sectorsPerCluster)
      (v.recordSize / v.bytesPerSector))
    (b : Buf) :
    ∃ raw,
      rawRecord v (probeDisk v (lcn * v.clusterSize) b)
        num = some raw ∧
      ∀ i, i < v.recordSize → raw i = b i := by
  rcases hVol.recordSectors with ⟨hWhole, hSome, hFew⟩
  have hInner := (@largeRecord_place v.recordSize
    v.clusterSize num hVol.clusterPos hRatio).2
  have hTotal : v.totalSectors ≤ maxU32 := hVol.good.total
  have hPlace : recordPlace v num =
      some (lcn * v.sectorsPerCluster,
        v.recordSize / v.bytesPerSector) := by
    rw [recordPlace_iff hVol, hInner, Nat.zero_div]
    refine ⟨lcn, hAt, ?_, rfl, rfl⟩
    have hIn := hFit.1
    omega
  rcases @readBlocks_total
    (probeDisk v (lcn * v.clusterSize) b) (fun _ => rfl)
    (v.recordSize / v.bytesPerSector *
      (v.bytesPerSector / 512))
    (v.lba + lcn * v.sectorsPerCluster *
      (v.bytesPerSector / 512))
    (v.recordSize / v.bytesPerSector *
      (v.bytesPerSector / 512)) with ⟨raw, hBlocks⟩
  have hRead := (readSectors_iff hVol.good hSome hFew).mpr
    ⟨hFit, hBlocks⟩
  refine ⟨raw, ?_, ?_⟩
  · rw [rawRecord, hPlace]
    exact hRead
  · intro i hI
    have hByte := readSectors_byte hVol.good hRead
      (Nat.lt_of_lt_of_eq hI hWhole.symm)
    have hStart : lcn * v.sectorsPerCluster *
        v.bytesPerSector = lcn * v.clusterSize := by
      rw [hVol.good.cluster, Nat.mul_assoc,
        Nat.mul_comm v.sectorsPerCluster]
    rw [hStart, probeDisk_byte, if_pos (by omega),
      Nat.add_sub_cancel_left, Option.some.injEq] at hByte
    exact hByte.symm

/- The driver accepts the record of the probe. -/
theorem probe_read
    {num mark : Nat}
    {disk : NtfsDisk}
    {raw : Buf}
    (hVol : MftVolume v)
    (hMark : 512 ≤ mark)
    (hAlign : mark % 512 = 0)
    (hRaw : rawRecord v disk num = some raw)
    (hSame : ∀ i, i < v.recordSize →
      raw i = probeRecord v.recordSize mark i) :
    ∃ rec,
      (readMftRecord v disk num false).1 = some rec := by
  have hMax : v.recordSize ≤ 4096 := hVol.good.recordMax
  have hSector := hVol.good.sector
  have hMin : 512 ≤ v.recordSize := by
    have hLe := hVol.good.recordMin
    have hPos := hVol.good.sectorPos
    omega
  have hWhole : v.recordSize % 512 = 0 := by
    have hBps := Nat.dvd_of_mod_eq_zero hSector
    exact Nat.mod_eq_zero_of_dvd (hBps.trans
      (Nat.dvd_of_mod_eq_zero hVol.good.record))
  rcases probeRecord_fixup hWhole hMin hMax hMark hAlign
    hSame with ⟨rec, hRec⟩
  refine ⟨rec, ?_⟩
  rw [readMftRecord_eq, hRaw, Option.bind_some,
    if_pos (probeRecord_magic hMin hMark hSame)]
  exact hRec

/-
  If some cluster of the record lay elsewhere, a disk with
  a 1 at its first byte would show the difference.
-/
theorem together_of_recordExact
    {num : Nat}
    (hVol : MftVolume v)
    (hExact : RecordExact v num) :
    RecordTogether v num := by
  intro lcn hAt hFit k hK
  have hCluster := hVol.clusterPos
  have hMax : v.recordSize ≤ 4096 := hVol.good.recordMax
  rcases Nat.eq_zero_or_pos k with rfl | hPos
  · exact hAt
  · have hLess : v.clusterSize ≤ k * v.clusterSize :=
      Nat.le_mul_of_pos_left _ hPos
    have hRatio : v.recordSize % v.clusterSize = 0 := by
      rcases hVol.ratio with hRatio | hRatio
      · exact hRatio
      · rw [Nat.mod_eq_of_lt (by omega)] at hRatio
        omega
    have hPlace := @largeRecord_place v.recordSize
      v.clusterSize num hCluster hRatio
    have hAlign : v.clusterSize % 512 = 0 := by
      rw [hVol.good.cluster, Nat.mul_mod,
        hVol.good.sector, Nat.zero_mul, Nat.zero_mod]
    have hMarkAlign : k * v.clusterSize % 512 = 0 := by
      rw [Nat.mul_mod, hAlign, Nat.mul_zero, Nat.zero_mod]
    rw [hPlace.2, Nat.zero_div, Nat.add_zero] at hFit
    rcases probe_raw hVol hRatio hAt hFit
      (probeRecord v.recordSize (k * v.clusterSize)) with
      ⟨raw, hRaw, hSame⟩
    rcases probe_read hVol (by omega) hMarkAlign hRaw hSame
      with ⟨rec, hRec⟩
    rcases hExact _ false rec hRec with
      ⟨raw', hRaw', -, hBytes⟩
    rw [hRaw] at hRaw'
    cases hRaw'
    have hByte := hBytes _ hK
    have hOne : probeRecord v.recordSize
        (k * v.clusterSize) (k * v.clusterSize) = 1 :=
      if_pos rfl
    have hStart := Nat.div_add_mod (num * v.recordSize)
      v.clusterSize
    rw [hPlace.2, Nat.add_zero] at hStart
    have hDiv : (num * v.recordSize + k * v.clusterSize) /
        v.clusterSize =
          num * v.recordSize / v.clusterSize + k :=
      Nat.add_mul_div_right _ _ hCluster
    have hMod : (num * v.recordSize + k * v.clusterSize) %
        v.clusterSize = 0 := by
      rw [Nat.add_mul_mod_self_right]
      exact hPlace.2
    rw [hSame _ hK, hOne, StreamByte, hDiv, hMod] at hByte
    rcases hByte with
      ⟨r, -, -, -, hZero⟩ | ⟨lcn', hAt', hDisk⟩
    · cases hZero
    · rw [clusterByte_eq hVol.good, probeDisk_byte,
        Option.some.injEq, Nat.add_zero] at hDisk
      split at hDisk
      · next hLe =>
          have hMark := probeRecord_one (by omega) hMax hDisk
          have hSum : lcn' * v.clusterSize =
              (lcn + k) * v.clusterSize := by
            rw [Nat.add_mul]
            omega
          have hSame := Nat.eq_of_mul_eq_mul_right hCluster
            hSum
          rwa [hSame] at hAt'
      · cases hDisk

/-
  A record is read from where the table says just when its
  clusters, if it has several, lie one after the other.
-/
theorem readMftRecord_exact_iff
    (hVol : MftVolume v)
    (num : Nat) :
    RecordExact v num ↔ RecordTogether v num :=
  ⟨together_of_recordExact hVol,
    recordExact_of_together hVol⟩

end Exact

--
-- A Record in Two Runs
--

deriving instance DecidableEq for NtfsVol

/- Clusters of a sector, and records of two clusters. -/
def crossVol : NtfsVol where
  lba := 0
  bytesPerSector := 512
  sectorsPerCluster := 1
  clusterSize := 512
  recordSize := 1024
  indexSize := 512
  mftLcn := 8
  totalSectors := 64
  partitionSectors := 64
  mftRuns := [⟨0, 8, 13, false⟩, ⟨13, 40, 5, false⟩]

def crossBoot : Buf :=
  layout
    [(0x0B, 512), (0x0D, 1), (0x40, 2), (0x44, 1)]
    [(0x03, 0x5346544E), (0x07, 0x20202020), (0x28, 64),
      (0x30, 8)]

/- A record, with the sequence number in both tails. -/
def crossRecord
    (halves words : List (Nat × Nat)) : Buf :=
  layout
    ([(0x04, 0x30), (0x06, 3), (0x14, 0x38),
      (0x30, 0x1234), (510, 0x1234), (1022, 0x1234)] ++
        halves)
    ((0x00, 0x454C4946) :: words)

/- The record of the table, with its two runs. -/
def crossTable : Buf :=
  crossRecord
    [(0x40, 1), (0x58, 64), (0x78, 0x0D11), (0x7A, 0x1108),
      (0x7C, 0x2005)]
    [(0x38, atData), (0x3C, 72), (0x80, atEnd)]

/-
  The root directory lies in the first run, and so does the
  first half of the record after it. Behind it there is an
  old record.
-/
def crossDisk : NtfsDisk :=
  fun lba =>
    some (
      if lba = 0 then crossBoot
      else if lba = 8 then crossTable
      else if lba = 9 then crossTable.drop 512
      else if lba = 18 ∨ lba = 20 then crossRecord [] []
      else if lba = 19 ∨ lba = 21 then
        (crossRecord [] []).drop 512
      else if lba = 40 then fun _ => 0xBB
      else Buf.zero)

theorem crossDisk_reads :
    ntfsMount crossDisk 0 64 = some crossVol ∧
      (readMftRecord crossVol crossDisk 6
        false).1.isSome = true ∧
      (rawRecord crossVol crossDisk 6).isSome = true ∧
      (rawRecord crossVol crossDisk 6).getD Buf.zero 512 =
        0 ∧
      clusterByte crossVol crossDisk 40 0 ≠ some 0 := by
  decide +kernel

/- The record is read, with the second half of the other. -/
theorem crossing_read :
    ntfsMount crossDisk 0 64 = some crossVol ∧
      ∃ raw rec,
        (readMftRecord crossVol crossDisk 6 false).1 =
          some rec ∧
        rawRecord crossVol crossDisk 6 = some raw ∧
        ¬StreamByte crossVol crossDisk
          (6 * crossVol.recordSize + 512) (raw 512) := by
  rcases crossDisk_reads with
    ⟨hMount, hRead, hRaw, hZero, hFree⟩
  refine ⟨hMount, _, _, some_getD hRead, some_getD hRaw, ?_⟩
  rw [hZero]
  rintro (⟨r, hMem, -, hSparse, -⟩ |
    ⟨lcn, ⟨r, hMem, hCovers, -, rfl⟩, hByte⟩)
  · revert hSparse
    revert r
    decide
  · have hLcn : r.lcn + (13 - r.vcn) = 40 := by
      have hLow := hCovers.1
      have hHigh := hCovers.2
      change r.vcn ≤ 13 at hLow
      change 13 < r.vcn + r.len at hHigh
      rcases List.mem_cons.mp hMem with rfl | hMem
      · exact absurd hHigh (by decide)
      · rcases List.mem_singleton.mp hMem with rfl
        rfl
    change clusterByte crossVol crossDisk
      (r.lcn + (13 - r.vcn)) 0 = some 0 at hByte
    rw [hLcn] at hByte
    exact hFree hByte

/- Records of the first run are read as they are. -/
theorem readMftRecord_exact_iff_cross :
    RecordExact crossVol 5 ↔ RecordTogether crossVol 5 :=
  readMftRecord_exact_iff
    (mftVolume_of_mount crossDisk_reads.1) 5

end KvantOS.Ntfs
