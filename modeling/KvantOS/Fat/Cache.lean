import KvantOS.Data.WriteBack
import KvantOS.Fat.WorkingDisk

/-
  This file models the sector calls of `kernel/fat.c` for
  any number of sectors, with the metadata cache and as they
  would be without it, and relates the two.

  Key definitions include:
    * `readCount`, `writeCount`
    * `readThrough`, `writeThrough`
-/

namespace KvantOS

open FatM

--
-- Calls for Several Sectors
--

/- The part of `fat_meta_eligible` that is fixed. -/
def isMetadata
    (v : FatVol)
    (sec : Nat) : Bool :=
  (sec ≥ v.fatStart &&
      (sec - v.fatStart) / v.fatSize < v.numFats) ||
    (v.fsinfoSector != 0 && sec == v.fsinfoSector) ||
    (v.backupFsinfo != 0 && sec == v.backupFsinfo)

theorem fatMetaEligible_eq
    (v : FatVol)
    (st : FatState)
    (sec : Nat) :
    fatMetaEligible v st sec =
      (st.owner && !st.overlay && isMetadata v sec) :=
  rfl

/- The guard that all sector calls share. -/
def inVolume
    (v : FatVol)
    (st : FatState)
    (sec count : Nat) : Bool :=
  !st.fenced && !st.error && sec < v.totalSectors &&
    count ≤ v.totalSectors - sec

/- The undo records laid over sector `i` of a buffer. -/
def overlayAt
    (sec i : Nat)
    (b : Buf) :
    List UndoRecord → Buf
  | [] => b
  | u :: us =>
      overlayAt sec i
        (if u.lba == sec + i then
          b.copy (i * 512) u.old.toBuf 512
        else
          b) us

/- The overlay of the first `count` sectors of a buffer. -/
def overlaySectors
    (sec : Nat)
    (undo : List UndoRecord) :
    (count : Nat) → Buf → Buf
  | 0, b => b
  | count + 1, b =>
      overlayAt sec count (overlaySectors sec undo count b)
        undo

/- A sector out of the cache. -/
def fetchData
    (v : FatVol)
    (sec : Nat) : FatM (Option Buf) := do
  match ← fatMetaFetch v sec true with
  | none => pure none
  | some i => pure (some ((← get).slots i).data)

/- Sectors from the disk. -/
def readDisk
    (v : FatVol)
    (sec count : Nat) : FatM (Option Buf) := do
  match ← disk (blkRead (v.lba + sec * v.factor)
      (count * v.factor)) with
  | none =>
      flagError
      pure none
  | some b => pure (some b)

/- What a read delivers, under the overlay. -/
def delivered
    (sec count : Nat) :
    Option Buf → FatM (Option Buf)
  | none => pure none
  | some b => do
      let st ← get
      pure (some (if st.overlay then
        overlaySectors sec st.tx.undo count b else b))

/- `fat_read_sectors`. -/
def readCount
    (v : FatVol)
    (sec count : Nat) : FatM (Option Buf) := do
  let alive ← live
  let st ← get
  if !alive || !inVolume v st sec count ||
      count > 64 / v.factor then
    flagError
    pure none
  else if count == 1 && fatMetaEligible v st sec then do
    delivered sec count (← fetchData v sec)
  else do
    delivered sec count (← readDisk v sec count)

/- One round of `fat_write_sectors`. -/
def storeSector
    (v : FatVol)
    (sec : Nat)
    (data : Buf) : FatM Bool := do
  if fatMetaEligible v (← get) sec then
    match ← fatMetaFetch v sec false with
    | none => pure false
    | some i =>
        setSlot i (fun e => { e with data, dirty := true })
        pure true
  else if !(← flushCache v) then
    pure false
  else
    writeChunks v (txLba v sec) data 0 v.factor

/- The loop of `fat_write_sectors`, from sector `j` on. -/
def storeSectors
    (store : Nat → Buf → FatM Bool)
    (v : FatVol)
    (sec : Nat)
    (data : Buf)
    (j : Nat) :
    (remaining : Nat) → FatM Bool
  | 0 => pure true
  | remaining + 1 => do
      if ← store (sec + j)
          (data.drop (j * v.bytesPerSector)) then
        storeSectors store v sec data (j + 1) remaining
      else
        pure false

/- The guard of `fat_write_sectors`, and its loop. -/
def guardedWrite
    (store : Nat → Buf → FatM Bool)
    (v : FatVol)
    (sec count : Nat)
    (data : Buf) : FatM Bool := do
  let alive ← live
  let st ← get
  if !alive || !st.writing ||
      !inVolume v st sec count then
    flagError
    pure false
  else
    storeSectors store v sec data 0 count

/- `fat_write_sectors`. -/
def writeCount
    (v : FatVol)
    (sec count : Nat)
    (data : Buf) : FatM Bool :=
  guardedWrite (storeSector v) v sec count data

--
-- Without the Cache
--

/- `fat_read_sectors` if there were no cache. -/
def readThrough
    (v : FatVol)
    (sec count : Nat) : FatM (Option Buf) := do
  let alive ← live
  let st ← get
  if !alive || !inVolume v st sec count ||
      count > 64 / v.factor then
    flagError
    pure none
  else do
    delivered sec count (← readDisk v sec count)

/- A sector written through, by way of the log. -/
def storeThrough
    (v : FatVol)
    (sec : Nat)
    (data : Buf) : FatM Bool :=
  writeChunks v (txLba v sec) data 0 v.factor

/- `fat_write_sectors` if there were no cache. -/
def writeThrough
    (v : FatVol)
    (sec count : Nat)
    (data : Buf) : FatM Bool :=
  guardedWrite (storeThrough v) v sec count data

--
-- Sectors and Slots
--

/- A sector of the disk belongs to one of the volume. -/
def InSector
    (v : FatVol)
    (sec p : Nat) : Prop :=
  v.lba + sec * v.factor ≤ p ∧
    p < v.lba + sec * v.factor + v.factor

/- The bytes of a sector of the volume. -/
def sectorBuf
    (v : FatVol)
    (d : Device Sector)
    (sec : Nat) : Buf :=
  diskBuf d (v.lba + sec * v.factor) v.factor

/- An entry of the cache as a slot of sectors. -/
def metaSlot
    (v : FatVol)
    (e : MetaEntry) : WriteBack.Slot Nat Buf where
  key := e.sector
  value := e.data.take v.bytesPerSector
  valid := e.valid
  dirty := e.dirty

section Sectors

variable {v : FatVol} {d d' : Device Sector}

theorem physical_txLba
    (v : FatVol)
    (sec : Nat) :
    physical v (txLba v sec) = v.lba + sec * v.factor := by
  unfold physical txLba
  split <;> omega

/- A sector of the disk belongs to one sector at most. -/
theorem InSector.unique
    {sec sec' p : Nat}
    (hIn : InSector v sec p)
    (hIn' : InSector v sec' p) :
    sec = sec' := by
  rcases hIn with ⟨hLow, hHigh⟩
  rcases hIn' with ⟨hLow', hHigh'⟩
  rcases Nat.lt_trichotomy sec sec' with hLt | hEq | hLt
  · have hMul : (sec + 1) * v.factor ≤ sec' * v.factor :=
      Nat.mul_le_mul_right _ hLt
    rw [Nat.succ_mul] at hMul
    omega
  · exact hEq
  · have hMul : (sec' + 1) * v.factor ≤ sec * v.factor :=
      Nat.mul_le_mul_right _ hLt
    rw [Nat.succ_mul] at hMul
    omega

/- The metadata of a volume lies in front of its data. -/
theorem metadata_below
    (hMount : Mounted v)
    {sec : Nat}
    (hMeta : isMetadata v sec = true) :
    sec < v.firstDataSector := by
  have hGeo := hMount.toGeometry
  have hFirst : v.reservedSectors + v.numFats * v.fatSize ≤
      v.firstDataSector := by
    rw [hGeo.firstData]
    exact Nat.le_add_right _ _
  have hStart := hGeo.fatStart
  have hFsinfo := hGeo.fsinfo
  have hBackup := hGeo.backup
  unfold isMetadata at hMeta
  simp only [Bool.or_eq_true, Bool.and_eq_true,
    decide_eq_true_eq, bne_iff_ne, beq_iff_eq] at hMeta
  rcases hMeta with (⟨hFat, hCopy⟩ | ⟨-, rfl⟩) | ⟨-, rfl⟩
  · have hSize : 0 < v.fatSize := by
      by_contra hZero
      have hBytes := hGeo.fatBytes
      have hEntry := Geometry.entryBytes_pos (v := v)
      have hPos := Nat.mul_le_mul_left
        (v.totalClusters + 2) hEntry
      have hNone : v.fatSize = 0 := by omega
      rw [hNone] at hBytes
      omega
    have hLess := (Nat.div_lt_iff_lt_mul hSize).mp hCopy
    omega
  · omega
  · omega

variable {sec p : Nat}

/- The journal lies in the data of the volume. -/
theorem metadata_apart
    (hMount : Mounted v)
    (hMeta : isMetadata v sec = true)
    (hIn : InSector v sec p) :
    ¬JournalSector v p := by
  rintro ⟨hFile, hFrom, -⟩
  have hOwned := hMount.owned hFile
  have hBelow := metadata_below hMount hMeta
  have hFactor : v.factor = 1 := by
    unfold FatVol.factor
    rw [hOwned.sectorSize]
  have hPos := hMount.clusterSize.1
  have hClusters : 1 ≤ v.walClusters := by
    rw [hOwned.clusters]
    exact (Nat.le_div_iff_mul_le hPos).mpr (by omega)
  have hLast := hOwned.last
  have hValid : v.Valid v.walCluster :=
    ⟨hOwned.first, by omega⟩
  have hSector := hOwned.sector
  rw [clusterToSector_eq hMount.toGeometry hValid]
    at hSector
  unfold InSector at hIn
  rw [hFactor, Nat.mul_one] at hIn
  omega

variable {data : Buf} {d₀ : Device Sector} {t t' : SectorTx}

/- The bytes of a sector once the log has written it. -/
theorem sectorBuf_written
    (hMount : Mounted v)
    (hWritten : Written v d₀ (txLba v sec) data 0 v.factor
      t d t' d') :
    sectorBuf v d' sec = data.take v.bytesPerSector := by
  have hFactor := hMount.factor.1
  funext i
  unfold sectorBuf diskBuf Buf.take
  rw [← hFactor]
  split
  · next hi =>
      have hPart : i / 512 < v.factor := by omega
      have hWritable := hWritten.writable (i / 512)
        (Nat.zero_le _) (by omega)
      have hApart := (target_apart hMount hWritable.target
        hWritable.mapped).2
      have hCur := hWritten.cur _ hApart
      rw [physical_add, physical_txLba] at hCur
      rw [hCur, if_pos (by omega), Nat.add_sub_cancel_left]
      have hByte : i % 512 < 512 := Nat.mod_lt _ (by decide)
      unfold chunk
      rw [Buf.toBuf_toSector hByte]
      unfold Buf.drop
      rw [Nat.div_add_mod]
  · rfl

/- What the log leaves alone when it writes a sector. -/
theorem cur_written
    (hWritten : Written v d₀ (txLba v sec) data 0 v.factor
      t d t' d')
    (hApart : ¬JournalSector v p)
    (hOut : ¬InSector v sec p) :
    d'.cur p = d.cur p := by
  rw [hWritten.cur p hApart, physical_txLba]
  exact if_neg hOut

/- Sectors with the same bytes behind them are the same. -/
theorem sectorBuf_congr
    {sec sec' : Nat}
    (hSame : ∀ k, k < v.factor →
      d'.cur (v.lba + sec' * v.factor + k) =
        d.cur (v.lba + sec * v.factor + k)) :
    sectorBuf v d' sec' = sectorBuf v d sec := by
  funext i
  unfold sectorBuf diskBuf
  by_cases hi : i < 512 * v.factor
  · rw [if_pos hi, if_pos hi, hSame (i / 512) (by omega)]
  · rw [if_neg hi, if_neg hi]

/- Equal bytes are equal sectors. -/
theorem cur_of_sectorBuf
    (hSame : sectorBuf v d sec = sectorBuf v d' sec)
    (hIn : InSector v sec p) :
    d.cur p = d'.cur p := by
  rcases hIn with ⟨hLow, hHigh⟩
  have hPlace : v.lba + sec * v.factor +
      (p - (v.lba + sec * v.factor)) = p := by omega
  funext i
  have hByte := congrFun hSame
    (512 * (p - (v.lba + sec * v.factor)) + i)
  unfold sectorBuf diskBuf at hByte
  have hIn : 512 * (p - (v.lba + sec * v.factor)) + i <
      512 * v.factor := by omega
  have hDiv : (512 * (p - (v.lba + sec * v.factor)) + i) /
      512 = p - (v.lba + sec * v.factor) := by omega
  have hMod : (512 * (p - (v.lba + sec * v.factor)) + i) %
      512 = i := by omega
  rw [if_pos hIn, if_pos hIn, hDiv, hMod, hPlace] at hByte
  unfold Sector.toBuf at hByte
  rw [dif_pos i.isLt, dif_pos i.isLt] at hByte
  exact hByte

/- A sector that the log did not write is as it was. -/
theorem sectorBuf_other
    (hMount : Mounted v)
    {sec sec' : Nat}
    (hWritten : Written v d₀ (txLba v sec) data 0 v.factor
      t d t' d')
    (hMeta : isMetadata v sec' = true)
    (hNe : sec' ≠ sec) :
    sectorBuf v d' sec' = sectorBuf v d sec' := by
  apply sectorBuf_congr
  intro k hk
  have hIn : InSector v sec'
      (v.lba + sec' * v.factor + k) :=
    ⟨by omega, by omega⟩
  apply cur_written hWritten
    (metadata_apart hMount hMeta hIn)
  intro hIn'
  exact hNe (hIn.unique hIn')

end Sectors

end KvantOS
