import KvantOS.Block.Bytes

/-
  This file models the lower part of kernel/ntfs.c: the
  geometry of a volume, reads of sectors and clusters, the
  update sequence of records, run lists, and the records of
  the master file table.

  The large buffers of the driver are always filled before
  they are read, so of the driver only the flag `read_error`
  is a state. A block of the disk that cannot be read has no
  content.

  Key definitions include:
    * `NtfsVol`, `NtfsM`
    * `ntfsReadSectors`, `readClusters`, `applyFixup`
    * `runLookup`, `parseRunlist`, `readMftRecord`
-/

namespace KvantOS.Ntfs

--
-- Volumes
--

def ntfsMaxRuns : Nat := 192
def ntfsRecMax : Nat := 4096
def ntfsIdxMax : Nat := 8192

/- The largest value of 32 bits. -/
def maxU32 : Nat := 0xFFFFFFFF

/- `ntfs_run_t`. -/
structure NtfsRun where
  vcn : Nat
  lcn : Nat
  len : Nat
  sparse : Bool
  deriving DecidableEq

/- `ntfs_vol_t`, but for what only a mount reads. -/
structure NtfsVol where
  lba : Nat
  bytesPerSector : Nat
  sectorsPerCluster : Nat
  clusterSize : Nat
  recordSize : Nat
  indexSize : Nat
  mftLcn : Nat
  totalSectors : Nat
  partitionSectors : Nat
  mftRuns : List NtfsRun

/- The letters of `NTFS` and four blanks. -/
def ntfsOem : Buf :=
  Buf.ofList
    [0x4E, 0x54, 0x46, 0x53, 0x20, 0x20, 0x20, 0x20]

/-
  A size in the boot sector: a positive value counts
  clusters, a negative one is a power of two.
-/
def bootSize
    (value cluster maxPower : Nat) : Option Nat :=
  if value == 0 then
    none
  else if value < 128 then
    some (value * cluster)
  else
    let power := 256 - value
    if power < 8 || power > maxPower then none
    else some (2 ^ power)

/- The check of a size against the sectors and a buffer. -/
def bootSizeOk
    (size sector bound : Nat) : Bool :=
  sector ≤ size && size ≤ bound && size % sector == 0

/- `parse_boot`, which fills in the geometry of a volume. -/
def parseBoot
    (b : Buf)
    (v : NtfsVol) : Option NtfsVol :=
  let bps := b.get16 0x0B
  let spc := (b 0x0D).toNat
  let total := b.get32 0x28
  if !(b.drop 3).same ntfsOem 8 then
    none
  else if bps != 512 && bps != 1024 && bps != 2048 &&
      bps != 4096 then
    none
  else if spc == 0 || spc &&& (spc - 1) != 0 then
    none
  else if total == 0 || b.get32 0x2C != 0 then
    none
  else if bps * spc > 4096 then
    none
  else
    match bootSize (b 0x40).toNat (bps * spc) 12,
        bootSize (b 0x44).toNat (bps * spc) 13 with
    | some recordSize, some indexSize =>
        if bootSizeOk recordSize bps ntfsRecMax &&
            bootSizeOk indexSize bps ntfsIdxMax then
          some { v with
            bytesPerSector := bps
            sectorsPerCluster := spc
            clusterSize := bps * spc
            recordSize
            indexSize
            mftLcn := b.get32 0x30
            totalSectors := total }
        else
          none
    | _, _ => none

/- What the boot sector of a volume promises. -/
structure NtfsVol.Good (v : NtfsVol) : Prop where
  sector : v.bytesPerSector % 512 = 0
  sectorPos : 0 < v.bytesPerSector
  clusterPos : 0 < v.sectorsPerCluster
  cluster : v.clusterSize =
    v.bytesPerSector * v.sectorsPerCluster
  clusterMax : v.clusterSize ≤ 4096
  record : v.recordSize % v.bytesPerSector = 0
  recordMin : v.bytesPerSector ≤ v.recordSize
  recordMax : v.recordSize ≤ ntfsRecMax
  index : v.indexSize % v.bytesPerSector = 0
  indexMin : v.bytesPerSector ≤ v.indexSize
  indexMax : v.indexSize ≤ ntfsIdxMax
  total : v.totalSectors ≤ maxU32

theorem bootSizeOk_iff
    {size sector bound : Nat} :
    bootSizeOk size sector bound = true ↔
      sector ≤ size ∧ size ≤ bound ∧ size % sector = 0 := by
  simp [bootSizeOk, and_assoc]

/- A volume with a valid boot sector is good. -/
theorem good_of_parseBoot
    {b : Buf}
    {v v' : NtfsVol}
    (hParse : parseBoot b v = some v') :
    v'.Good := by
  simp only [parseBoot, Option.ite_none_left_eq_some]
    at hParse
  rcases hParse with ⟨-, hBps, hSpc, -, hCluster, hParse⟩
  split at hParse
  · rw [Option.ite_none_right_eq_some] at hParse
    rcases hParse with ⟨hSizes, hV⟩
    rw [Bool.and_eq_true, bootSizeOk_iff,
      bootSizeOk_iff] at hSizes
    rcases hSizes with
      ⟨⟨hMin, hMax, hRec⟩, hIdxMin, hIdxMax, hIdx⟩
    have hTotal := b.get32_lt 0x28
    simp only [Bool.and_eq_true, bne_iff_ne, beq_iff_eq,
      Bool.or_eq_true, not_or] at hBps hSpc
    cases hV
    exact
      { sector := by dsimp only; omega
        sectorPos := by dsimp only; omega
        clusterPos := Nat.pos_of_ne_zero hSpc.1
        cluster := rfl
        clusterMax := Nat.le_of_not_gt hCluster
        record := hRec
        recordMin := hMin
        recordMax := hMax
        index := hIdx
        indexMin := hIdxMin
        indexMax := hIdxMax
        total := Nat.le_of_lt_succ hTotal }
  · cases hParse

/- What the blocks of the disk hold. -/
abbrev NtfsDisk :=
  Nat → Option Buf

/- Programs over the flag `read_error`. -/
abbrev NtfsM :=
  StateM Bool

/- Set `read_error`. -/
def setReadError : NtfsM Unit :=
  set true

/- A failure that sets `read_error`. -/
def flagged {α : Type} : Option α → NtfsM (Option α)
  | none => do
      setReadError
      pure none
  | some a => pure (some a)

--
-- Sectors
--

/- `disk_read`: some blocks, one after the other. -/
def diskRead
    (disk : NtfsDisk)
    (lba count : Nat) : Option Buf :=
  if (List.range count).all
      (fun i => (disk (lba + i)).isSome) then
    some fun i =>
      ((disk (lba + i / 512)).getD Buf.zero) (i % 512)
  else
    none

/- The loop over pieces of at most 64 blocks. -/
def readBlocks
    (disk : NtfsDisk) :
    (fuel lba blocks : Nat) → Option Buf
  | 0, _, _ => some Buf.zero
  | fuel + 1, lba, blocks =>
      if blocks == 0 then
        some Buf.zero
      else
        let chunk := if blocks > 64 then 64 else blocks
        match diskRead disk lba chunk with
        | none => none
        | some p =>
            match readBlocks disk fuel (lba + chunk)
                (blocks - chunk) with
            | none => none
            | some rest =>
                some fun i =>
                  if i < chunk * 512 then p i
                  else rest (i - chunk * 512)

/- The checks of `ntfs_read_sectors`, and its reads. -/
def readSectors
    (v : NtfsVol)
    (disk : NtfsDisk)
    (sec count : Nat) : Option Buf :=
  let bps := v.bytesPerSector
  if bps == 0 || bps < 512 || bps % 512 != 0 ||
      sec > v.totalSectors ||
      count > v.totalSectors - sec then
    none
  else
    let ratio := bps / 512
    if sec > maxU32 / ratio || count > maxU32 / ratio then
      none
    else
      let offset := sec * ratio
      let blocks := count * ratio
      if v.partitionSectors != 0 &&
          (offset > v.partitionSectors ||
            blocks > v.partitionSectors - offset) then
        none
      else if v.lba > maxU32 - offset ||
          (blocks != 0 &&
            v.lba + offset > maxU32 - (blocks - 1)) then
        none
      else
        readBlocks disk blocks (v.lba + offset) blocks

/- `ntfs_read_sectors`. -/
def ntfsReadSectors
    (v : NtfsVol)
    (disk : NtfsDisk)
    (sec count : Nat) : NtfsM (Option Buf) :=
  flagged (readSectors v disk sec count)

/- The reads of `read_clusters`. -/
def clusterSectors
    (v : NtfsVol)
    (disk : NtfsDisk)
    (lcn count : Nat) : Option Buf :=
  if v.sectorsPerCluster == 0 ||
      lcn > maxU32 / v.sectorsPerCluster ||
      count > maxU32 / v.sectorsPerCluster then
    none
  else
    readSectors v disk (lcn * v.sectorsPerCluster)
      (count * v.sectorsPerCluster)

/- `read_clusters`. -/
def readClusters
    (v : NtfsVol)
    (disk : NtfsDisk)
    (lcn count : Nat) : NtfsM (Option Buf) :=
  flagged (clusterSectors v disk lcn count)

/- The loop of `apply_fixup` from block `i` on. -/
def fixupFrom
    (usaOff marker size : Nat) :
    (remaining i : Nat) → Buf → Option Buf
  | 0, _, b => some b
  | remaining + 1, i, b =>
      let tail := i * 512 - 2
      if tail + 2 > size then
        none
      else if b.get16 tail != marker then
        none
      else
        fixupFrom usaOff marker size remaining (i + 1)
          (b.copy tail (b.drop (usaOff + i * 2)) 2)

/- `apply_fixup`. -/
def applyFixup
    (b : Buf)
    (size : Nat) : Option Buf :=
  let usaOff := b.get16 0x04
  let usaCount := b.get16 0x06
  if size % 512 != 0 || usaCount == 0 || usaOff < 8 ||
      usaOff > size || usaCount > (size - usaOff) / 2 then
    none
  else if usaOff > 510 || usaCount > (510 - usaOff) / 2 ||
      usaCount != size / 512 + 1 then
    none
  else
    fixupFrom usaOff (b.get16 usaOff) size (usaCount - 1) 1 b

--
-- Runs
--

/- Where a cluster of an attribute lies. -/
structure RunPlace where
  lcn : Nat
  left : Nat
  sparse : Bool

/- `run_lookup`. -/
def runLookup
    (runs : List NtfsRun)
    (vcn : Nat) : Option RunPlace :=
  match runs with
  | [] => none
  | r :: runs =>
      if vcn ≥ r.vcn && vcn < (r.vcn + r.len) % 2 ^ 32 then
        let delta := vcn - r.vcn
        some
          { lcn := if r.sparse then 0 else r.lcn + delta
            left := r.len - delta
            sparse := r.sparse }
      else
        runLookup runs vcn

/- The value of some bytes, the lowest first. -/
def littleEndian
    (b : Buf)
    (p : Nat) : (count : Nat) → Nat
  | 0 => 0
  | count + 1 =>
      (b p).toNat + 256 * littleEndian b (p + 1) count

/- The same with a sign. -/
def littleSigned
    (b : Buf)
    (p count : Nat) : Int :=
  let n := littleEndian b p count
  if 2 * n < 256 ^ count then n
  else (n : Int) - 256 ^ count

/-
  The loop of `parse_runlist` with `n` runs so far; absent
  when it returns 0.
-/
def parseRuns
    (b : Buf)
    (stop max : Nat) :
    (fuel p n : Nat) → (lcn : Int) → (vcn : Nat) →
      Option (List NtfsRun)
  | 0, _, _, _, _ => none
  | fuel + 1, p, n, lcn, vcn =>
      if p ≥ stop then
        none
      else if b p == 0 then
        some []
      else if n ≥ max then
        none
      else
        let ls := (b p).toNat % 16
        let os := (b p).toNat / 16
        let p := p + 1
        if ls == 0 || ls > 4 || os > 4 ||
            stop - p < ls + os then
          none
        else
          let length := littleEndian b p ls
          let sparse := os == 0
          let delta :=
            if sparse then 0
            else littleSigned b (p + ls) os
          if !sparse &&
              ((delta > 0 && lcn > 0x7FFFFFFF - delta) ||
                (delta < 0 &&
                  lcn < -2147483648 - delta)) then
            none
          else
            let lcn := lcn + delta
            if length == 0 || vcn > maxU32 - length ||
                (!sparse &&
                  (lcn < 0 ||
                    lcn.toNat > maxU32 - length)) then
              none
            else
              (parseRuns b stop max fuel (p + ls + os)
                (n + 1) lcn (vcn + length)).map
                  ({ vcn
                     lcn := if sparse then 0 else lcn.toNat
                     len := length
                     sparse } :: ·)

/- `parse_runlist`; no runs when it returns 0. -/
def parseRunlist
    (b : Buf)
    (p stop startVcn max : Nat) : List NtfsRun :=
  (parseRuns b stop max (stop - p) p 0 0 startVcn).getD []

--
-- Records
--

/- The letters of `FILE`. -/
def fileMagic : Buf :=
  Buf.ofList [0x46, 0x49, 0x4C, 0x45]

/-
  The first sector of a record of the master file table and
  their number.
-/
def recordPlace
    (v : NtfsVol)
    (num : Nat) : Option (Nat × Nat) :=
  if v.recordSize == 0 || v.clusterSize == 0 ||
      v.bytesPerSector == 0 ||
      v.recordSize % v.bytesPerSector != 0 then
    none
  else
    let rpc := v.clusterSize / v.recordSize
    let sectors := v.recordSize / v.bytesPerSector
    if sectors == 0 then
      none
    else
      let cpr := v.recordSize / v.clusterSize
      let start : Option (Nat × Nat) :=
        if rpc != 0 then
          some (num / rpc, num % rpc * sectors)
        else if v.recordSize % v.clusterSize != 0 then
          none
        else if cpr == 0 || num > maxU32 / cpr then
          none
        else
          some (num * cpr, 0)
      match start with
      | none => none
      | some (vcn, inner) =>
          if v.sectorsPerCluster == 0 then
            none
          else
            match runLookup v.mftRuns vcn with
            | none => none
            | some place =>
                if place.sparse ||
                    place.lcn >
                      maxU32 / v.sectorsPerCluster then
                  none
                else
                  let sector :=
                    place.lcn * v.sectorsPerCluster
                  if sector > maxU32 - inner then none
                  else some (sector + inner, sectors)

/- `read_mft_record`. -/
def readMftRecord
    (v : NtfsVol)
    (disk : NtfsDisk)
    (num : Nat) : NtfsM (Option Buf) :=
  match recordPlace v num with
  | none => pure none
  | some (sector, sectors) => do
      match ← ntfsReadSectors v disk sector sectors with
      | none => pure none
      | some b =>
          if !b.same fileMagic 4 then
            pure none
          else
            pure (applyFixup b v.recordSize)

end KvantOS.Ntfs
