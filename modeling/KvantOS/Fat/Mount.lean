import KvantOS.Fat.Geometry

/-
  This file models how `kernel/fat.c` accepts a boot sector,
  and shows that every volume it accepts lies inside its
  partition: no sector that the driver computes later is
  outside of it.

  Key definitions include:
    * `parseBpb`, `fatProbe`, `fatMountVol`
    * `Bounded`

  Key theorems include:
    * `geometry_of_mount`, `fatMountVol_bounded`
-/

namespace KvantOS

--
-- Boot Sectors
--

/- The two values of `fs_kind_t` that this driver gives. -/
inductive FatKind where
  | fat16
  | fat32
  deriving DecidableEq

/- A volume record after `memset`, with its place. -/
def FatVol.blank (lba : Nat) : FatVol where
  lba
  totalSectors := 0
  bytesPerSector := 0
  sectorsPerCluster := 0
  reservedSectors := 0
  numFats := 0
  fatSize := 0
  rootEntries := 0
  rootCluster := 0
  firstDataSector := 0
  totalClusters := 0
  fatStart := 0
  fsinfoSector := 0
  isFat32 := false
  serial := 0
  backupFsinfo := 0
  extent := 0
  journal := 0
  journalCount := 0
  activeFat := 0
  mirrored := false
  walSector := 0
  walSectors := 0
  walCluster := 0
  walClusters := 0
  walDir := 0
  walOff := 0
  walEntry := Buf.zero
  fileWal := false

/- The fields of a boot sector that both variants have. -/
structure Bpb where
  bps : Nat
  spc : Nat
  reserved : Nat
  nfats : Nat
  rootEnt : Nat
  total : Nat
  fatsz16 : Nat
  fatsz : Nat

def readBpb (b : Buf) : Bpb where
  bps := b.get16 11
  spc := (b 13).toNat
  reserved := b.get16 14
  nfats := (b 16).toNat
  rootEnt := b.get16 17
  total :=
    if b.get16 19 != 0 then b.get16 19 else b.get32 32
  fatsz16 := b.get16 22
  fatsz :=
    if b.get16 22 != 0 then b.get16 22 else b.get32 36

namespace Bpb

/- The checks of `parse_bpb` on single fields. -/
def fieldsOk (q : Bpb) : Bool :=
  if q.bps != 512 && q.bps != 1024 && q.bps != 2048 &&
      q.bps != 4096 then
    false
  else if q.spc == 0 || q.spc &&& (q.spc - 1) != 0 then
    false
  else if q.reserved == 0 then
    false
  else if q.nfats < 1 || q.nfats > 4 then
    false
  else
    q.total != 0 && q.fatsz != 0

/- `root_sectors`. -/
def rootSectors (q : Bpb) : Nat :=
  (q.rootEnt * 32 + q.bps - 1) / q.bps

/- `first_data_sector`, in 32-bit arithmetic. -/
def firstData (q : Bpb) : Nat :=
  (q.reserved + q.nfats * q.fatsz % 2 ^ 32 +
    q.rootSectors) % 2 ^ 32

/- `total_clusters`. -/
def clusters (q : Bpb) : Nat :=
  (q.total - q.firstData) / q.spc

/- `is_fat32`. -/
def isFat32 (q : Bpb) : Bool :=
  q.clusters ≥ 65525

/- The checks of `parse_bpb` on the sizes. -/
def sizesOk (q : Bpb) : Bool :=
  if q.fatsz >
        (u32Max - q.reserved - q.rootSectors) / q.nfats ||
      q.fatsz > u32Max / q.bps then
    false
  else if q.firstData ≥ q.total then
    false
  else if q.clusters < 4085 ||
      q.clusters ≥ 0x0FFFFFEE then
    false
  else
    !(q.fatsz * q.bps % 2 ^ 32 /
        (if q.isFat32 then 4 else 2) < q.clusters + 2)

/- The fields that `parse_bpb` sets in both variants. -/
def fill
    (q : Bpb)
    (v : FatVol) : FatVol :=
  { v with
    bytesPerSector := q.bps
    sectorsPerCluster := q.spc
    reservedSectors := q.reserved
    numFats := q.nfats
    rootEntries := q.rootEnt
    fatSize := q.fatsz
    totalSectors := q.total
    fatStart := q.reserved
    firstDataSector := q.firstData
    totalClusters := q.clusters
    isFat32 := q.isFat32
    mirrored := true }

end Bpb

/- The sector of the FSInfo field, zero when absent. -/
def fsinfoField (fsi : Nat) : Nat :=
  if fsi != 0 && fsi != 0xFFFF then fsi else 0

/- The sector of the copy of FSInfo, when there is one. -/
def backupField (fsinfo backup : Nat) : Option Nat :=
  if fsinfo != 0 && backup != 0 && backup != 0xFFFF then
    some (backup + fsinfo)
  else
    none

/- The FAT that the flags select, when they do. -/
def activeField (flags : Nat) : Option Nat :=
  if flags &&& 0x80 != 0 then some (flags &&& 15) else none

/- The part of `parse_bpb` for FAT32. -/
def parseFat32
    (b : Buf)
    (q : Bpb)
    (v : FatVol) : Option FatVol :=
  let root := b.get32 44
  let active := activeField (b.get16 40)
  let fsinfo := fsinfoField (b.get16 48)
  let backup := backupField fsinfo (b.get16 50)
  if q.rootEnt != 0 || q.fatsz16 != 0 || root < 2 ||
      root - 2 ≥ v.totalClusters || b 42 != 0 ||
      b 43 != 0 then
    none
  else if active.any (· ≥ q.nfats) then
    none
  else if fsinfo ≥ q.reserved then
    none
  else if backup.any (· ≥ q.reserved) then
    none
  else
    some { v with
      rootCluster := root
      mirrored := v.mirrored && active.isNone
      activeFat := active.getD v.activeFat
      serial := UInt32.ofNat (b.get32 67)
      fsinfoSector := fsinfo
      backupFsinfo := backup.getD v.backupFsinfo }

/- The part of `parse_bpb` for FAT16. -/
def parseFat16
    (b : Buf)
    (q : Bpb)
    (v : FatVol) : Option FatVol :=
  if q.rootEnt == 0 || q.fatsz16 == 0 then
    none
  else
    some { v with
      serial := UInt32.ofNat (b.get32 39)
      rootCluster := 0 }

/- The label, without the spaces around it. -/
def bpbLabel
    (b : Buf)
    (isFat32 : Bool) : List UInt8 :=
  let src := b.drop (if isFat32 then 71 else 43)
  let name :=
    ((List.range 11).map src).dropWhile (· == 0x20)
  (name.reverse.dropWhile (· == 0x20)).reverse

/- `parse_bpb`. -/
def parseBpb
    (b : Buf)
    (v : FatVol) :
    Option (FatVol × List UInt8 × FatKind) :=
  let q := readBpb b
  if !q.fieldsOk || !q.sizesOk || b 510 != 0x55 ||
      b 511 != 0xAA then
    none
  else if q.isFat32 then
    (parseFat32 b q (q.fill v)).map
      fun v => (v, bpbLabel b true, .fat32)
  else
    (parseFat16 b q (q.fill v)).map
      fun v => (v, bpbLabel b false, .fat16)

/- The range check of `fat_probe` and `fat_mount`. -/
def volumeFits
    (v : FatVol)
    (available lbaStart lbaCount : UInt32) : Bool :=
  !(lbaStart ≥ available ||
    v.totalSectors >
      (available.toNat - lbaStart.toNat) / v.factor ||
    (lbaCount != 0 &&
      v.totalSectors > lbaCount.toNat / v.factor))

/- `fat_probe`, of the boot sector that was read. -/
def fatProbe
    (b : Buf)
    (available lbaStart lbaCount : UInt32) :
    Option (List UInt8 × FatKind) :=
  let oem := b.drop 3
  if oem.same (Buf.ofList
        [0x45, 0x58, 0x46, 0x41, 0x54, 0x20, 0x20, 0x20])
        8 ||
      oem.same (Buf.ofList
        [0x4E, 0x54, 0x46, 0x53, 0x20, 0x20, 0x20, 0x20])
        8 then
    none
  else
    match parseBpb b (.blank lbaStart.toNat) with
    | none => none
    | some (v, label, kind) =>
        if volumeFits v available lbaStart lbaCount then
          some (label, kind)
        else
          none

/-
  `fat_mount`, up to the preparation of a log: the volume
  with the geometry it keeps from then on.
-/
def fatMountVol
    (b : Buf)
    (available lbaStart lbaCount : UInt32) :
    Option FatVol :=
  match parseBpb b (.blank lbaStart.toNat) with
  | none => none
  | some (v, _, _) =>
      if volumeFits v available lbaStart lbaCount then
        some { v with
          extent := v.totalSectors * v.factor % 2 ^ 32 }
      else
        none

--
-- Accepted Boot Sectors
--

namespace Bpb

/- What the checks of single fields leave. -/
structure Fields (q : Bpb) : Prop where
  sector : q.bps = 512 ∨ q.bps = 1024 ∨ q.bps = 2048 ∨
    q.bps = 4096
  cluster : 0 < q.spc ∧ q.spc < 256
  reserved : 0 < q.reserved ∧ q.reserved < 2 ^ 16
  copies : 1 ≤ q.nfats ∧ q.nfats ≤ 4
  root : q.rootEnt < 2 ^ 16
  total : q.total < 2 ^ 32

theorem fields_of_ok
    {b : Buf}
    (hOk : (readBpb b).fieldsOk = true) :
    (readBpb b).Fields := by
  have hSpc : (readBpb b).spc < 256 := (b 13).toNat_lt
  have hReserved : (readBpb b).reserved < 2 ^ 16 :=
    b.get16_lt 14
  have hRoot : (readBpb b).rootEnt < 2 ^ 16 :=
    b.get16_lt 17
  have hTotal : (readBpb b).total < 2 ^ 32 := by
    have hShort := b.get16_lt 19
    have hLong := b.get32_lt 32
    unfold readBpb
    dsimp only
    split <;> omega
  generalize readBpb b = q at *
  unfold fieldsOk at hOk
  simp only [Bool.and_eq_true, Bool.or_eq_true, bne_iff_ne,
    beq_iff_eq, decide_eq_true_eq, ne_eq] at hOk
  split at hOk
  · exact absurd hOk nofun
  · split at hOk
    · exact absurd hOk nofun
    · split at hOk
      · exact absurd hOk nofun
      · split at hOk
        · exact absurd hOk nofun
        · exact
            { sector := by omega
              cluster := by omega
              reserved := by omega
              copies := by omega
              root := hRoot
              total := hTotal }

variable {q : Bpb}

/- A directory of FAT16 takes few sectors. -/
theorem Fields.rootSectors_lt
    (hFields : q.Fields) :
    q.rootSectors ≤ 2 ^ 12 := by
  have hRoot := hFields.root
  unfold rootSectors
  rcases hFields.sector with h | h | h | h <;>
    rw [h] <;> omega

/- What the checks of the sizes leave. -/
structure Sizes (q : Bpb) : Prop where
  fats : q.reserved + q.nfats * q.fatsz + q.rootSectors <
    2 ^ 32
  bytes : q.fatsz * q.bps < 2 ^ 32
  firstData : q.firstData =
    q.reserved + q.nfats * q.fatsz + q.rootSectors
  data : q.firstData < q.total
  count : q.firstData + q.clusters * q.spc ≤ q.total
  clusters : 4085 ≤ q.clusters ∧ q.clusters < 0x0FFFFFEE
  entries : (q.clusters + 2) *
    (if q.isFat32 then 4 else 2) ≤ q.fatsz * q.bps

theorem sizes_of_ok
    (hFields : q.Fields)
    (hOk : q.sizesOk = true) :
    q.Sizes := by
  have hRoot := hFields.rootSectors_lt
  have hReserved := hFields.reserved
  have hMax : u32Max = 2 ^ 32 - 1 := rfl
  unfold sizesOk at hOk
  simp only [Bool.or_eq_true, decide_eq_true_eq] at hOk
  split at hOk
  · exact absurd hOk nofun
  rename_i hLimits
  rw [not_or, not_lt, not_lt] at hLimits
  have hFats : q.nfats * q.fatsz ≤
      u32Max - q.reserved - q.rootSectors := by
    have hMul := Nat.mul_le_mul_left q.nfats hLimits.1
    exact hMul.trans (Nat.mul_div_le _ _)
  have hBytes : q.fatsz * q.bps ≤ u32Max := by
    have hMul := Nat.mul_le_mul_right q.bps hLimits.2
    exact hMul.trans (Nat.div_mul_le_self _ _)
  have hFirst : q.firstData =
      q.reserved + q.nfats * q.fatsz + q.rootSectors := by
    unfold firstData
    omega
  split at hOk
  · exact absurd hOk nofun
  rename_i hData
  split at hOk
  · exact absurd hOk nofun
  rename_i hClusters
  have hCount : q.clusters * q.spc ≤
      q.total - q.firstData :=
    Nat.div_mul_le_self _ _
  have hWrap : q.fatsz * q.bps % 2 ^ 32 =
      q.fatsz * q.bps :=
    Nat.mod_eq_of_lt (by omega)
  rw [hWrap, Bool.not_eq_true', decide_eq_false_iff_not,
    not_lt] at hOk
  exact
    { fats := by omega
      bytes := by omega
      firstData := hFirst
      data := by omega
      count := by omega
      clusters := by omega
      entries := (Nat.mul_le_mul_right _ hOk).trans
        (Nat.div_mul_le_self _ _) }

end Bpb

/-
  What both variants add to the shared fields: a root, a
  FAT in use, and the two places of the FSInfo sector.
-/
structure Variant
    (q : Bpb)
    (v w : FatVol) : Prop where
  rest : w =
    { v with
      rootCluster := w.rootCluster
      mirrored := w.mirrored
      activeFat := w.activeFat
      serial := w.serial
      fsinfoSector := w.fsinfoSector
      backupFsinfo := w.backupFsinfo }
  active : w.activeFat < q.nfats
  mirrored : w.mirrored = true → w.activeFat = 0
  fsinfo : w.fsinfoSector < q.reserved
  backup : w.backupFsinfo < q.reserved

variable {b : Buf}

theorem parseFat32_variant
    {q : Bpb}
    {v w : FatVol}
    (hFields : q.Fields)
    (hActive : v.activeFat = 0)
    (hBackup : v.backupFsinfo = 0)
    (hParse : parseFat32 b q v = some w) :
    Variant q v w ∧ q.rootEnt = 0 ∧ 2 ≤ w.rootCluster ∧
      w.rootCluster < v.totalClusters + 2 := by
  have hReserved := hFields.reserved
  have hCopies := hFields.copies
  unfold parseFat32 at hParse
  dsimp only at hParse
  rw [hActive, hBackup] at hParse
  generalize activeField (b.get16 40) = active at hParse
  generalize fsinfoField (b.get16 48) = fsinfo at hParse
  generalize backupField fsinfo (b.get16 50) = backup
    at hParse
  split at hParse
  · exact absurd hParse nofun
  rename_i hRoot
  simp only [Bool.or_eq_true, bne_iff_ne, ne_eq,
    decide_eq_true_eq, not_or, not_not, not_lt] at hRoot
  split at hParse
  · exact absurd hParse nofun
  rename_i hFlags
  split at hParse
  · exact absurd hParse nofun
  split at hParse
  · exact absurd hParse nofun
  rename_i hSaved
  have hW := (Option.some.inj hParse).symm
  subst hW
  refine ⟨?_, by omega, by dsimp only; omega,
    by dsimp only; omega⟩
  exact
    { rest := rfl
      active := by
        cases active with
        | none => exact hCopies.1
        | some f => simpa using hFlags
      mirrored := by
        cases active with
        | none => exact fun _ => rfl
        | some f => simp
      fsinfo := by
        dsimp only
        omega
      backup := by
        cases backup with
        | none => exact hReserved.1
        | some sec => simpa using hSaved }

theorem parseFat16_variant
    {q : Bpb}
    {v w : FatVol}
    (hFields : q.Fields)
    (hActive : v.activeFat = 0)
    (hFsinfo : v.fsinfoSector = 0)
    (hBackup : v.backupFsinfo = 0)
    (hParse : parseFat16 b q v = some w) :
    Variant q v w ∧ w.rootCluster = 0 ∧
      w.fsinfoSector = 0 ∧ w.backupFsinfo = 0 := by
  have hReserved := hFields.reserved
  have hCopies := hFields.copies
  unfold parseFat16 at hParse
  split at hParse
  · exact absurd hParse nofun
  have hW := (Option.some.inj hParse).symm
  subst hW
  refine ⟨?_, rfl, hFsinfo, hBackup⟩
  exact
    { rest := rfl
      active := by
        dsimp only
        omega
      mirrored := fun _ => hActive
      fsinfo := by
        dsimp only
        omega
      backup := by
        dsimp only
        omega }

/- The common facts of a boot sector that is accepted. -/
structure Parsed
    (lba : Nat)
    (q : Bpb)
    (v : FatVol) : Prop where
  fields : q.Fields
  sizes : q.Sizes
  variant : Variant q (q.fill (.blank lba)) v
  root32 : q.isFat32 = true → q.rootEnt = 0 ∧
    2 ≤ v.rootCluster ∧ v.rootCluster < q.clusters + 2
  root16 : q.isFat32 = false → v.rootCluster = 0 ∧
    v.fsinfoSector = 0 ∧ v.backupFsinfo = 0

variable {v : FatVol}

theorem parsed_of_parse
    {lba : Nat}
    {label : List UInt8}
    {kind : FatKind}
    (hParse : parseBpb b (.blank lba) =
      some (v, label, kind)) :
    Parsed lba (readBpb b) v := by
  unfold parseBpb at hParse
  dsimp only at hParse
  split at hParse
  · exact absurd hParse nofun
  rename_i hChecks
  simp only [Bool.or_eq_true, Bool.not_eq_true', not_or,
    Bool.not_eq_false] at hChecks
  have hFields := Bpb.fields_of_ok hChecks.1.1.1
  have hSizes := Bpb.sizes_of_ok hFields hChecks.1.1.2
  split at hParse
  · rename_i h32
    obtain ⟨w, hW, hEq⟩ := Option.map_eq_some_iff.mp hParse
    have hV : w = v := congrArg Prod.fst hEq
    subst hV
    have ⟨hVariant, hRoot⟩ :=
      parseFat32_variant hFields rfl rfl hW
    exact ⟨hFields, hSizes, hVariant, fun _ => hRoot,
      fun h16 => absurd (h32.symm.trans h16) nofun⟩
  · rename_i h16
    obtain ⟨w, hW, hEq⟩ := Option.map_eq_some_iff.mp hParse
    have hV : w = v := congrArg Prod.fst hEq
    subst hV
    have ⟨hVariant, hRoot⟩ :=
      parseFat16_variant hFields rfl rfl rfl hW
    exact ⟨hFields, hSizes, hVariant,
      fun h32 => absurd h32 h16, fun _ => hRoot⟩

variable {available lbaStart lbaCount : UInt32}

/- The range check of a mount, in plain arithmetic. -/
theorem volumeFits_facts
    (hFits :
      volumeFits v available lbaStart lbaCount = true)
    (hFactor : 0 < v.factor) :
    lbaStart.toNat + v.totalSectors * v.factor ≤
        available.toNat ∧
      (lbaCount ≠ 0 →
        v.totalSectors * v.factor ≤ lbaCount.toNat) := by
  unfold volumeFits at hFits
  simp only [Bool.not_eq_true', Bool.or_eq_false_iff,
    decide_eq_false_iff_not, Bool.and_eq_false_iff, not_lt,
    bne_eq_false_iff_eq, ge_iff_le,
    Nat.le_div_iff_mul_le hFactor] at hFits
  obtain ⟨⟨hStart, hDisk⟩, hCount⟩ := hFits
  have hLess : lbaStart.toNat < available.toNat := by
    rw [UInt32.le_iff_toNat_le] at hStart
    omega
  refine ⟨by omega, ?_⟩
  intro hGiven
  exact hCount.resolve_left hGiven

--
-- Bounds
--

/- The geometry of the volume that a mount leaves behind. -/
theorem geometry_of_mount
    (hMount :
      fatMountVol b available lbaStart lbaCount = some v) :
    Geometry v ∧
      v.lba = lbaStart.toNat ∧
      v.firstDataSector < v.totalSectors ∧
      v.fatSize * v.bytesPerSector < 2 ^ 32 ∧
      v.lba + v.extent ≤ available.toNat ∧
      (lbaCount ≠ 0 → v.extent ≤ lbaCount.toNat) := by
  unfold fatMountVol at hMount
  split at hMount
  · exact absurd hMount nofun
  rename_i u label kind hParse
  split at hMount
  case isFalse => exact absurd hMount nofun
  case isTrue hFits =>
    have hP := parsed_of_parse hParse
    generalize readBpb b = q at hP
    obtain ⟨hFields, hSizes, hVariant, hRoot32, hRoot16⟩ := hP
    obtain ⟨hU, hActive, hMirror, hFsinfo, hBackup⟩ :=
      hVariant
    generalize u.rootCluster = root at *
    generalize u.mirrored = mirrored at *
    generalize u.activeFat = active at *
    generalize u.serial = serial at *
    generalize u.fsinfoSector = fsinfo at *
    generalize u.backupFsinfo = backup at *
    subst hU
    unfold Bpb.fill FatVol.blank at *
    have hFactor : 0 < q.bps / 512 := by
      rcases hFields.sector with h | h | h | h <;>
        rw [h] <;> decide
    have ⟨hDisk, hPart⟩ := volumeFits_facts hFits hFactor
    have hV := (Option.some.inj hMount).symm
    subst hV
    unfold FatVol.factor at hDisk hPart ⊢
    dsimp only at hDisk hPart ⊢
    have hAvailable := available.toNat_lt
    have hExtent : q.total * (q.bps / 512) % 2 ^ 32 =
        q.total * (q.bps / 512) :=
      Nat.mod_eq_of_lt (by omega)
    rw [hExtent]
    refine ⟨?_, rfl, hSizes.data, hSizes.bytes, hDisk,
      hPart⟩
    exact
      { sectorSize := hFields.sector
        clusterSize := hFields.cluster
        reserved := hFields.reserved
        copies := hFields.copies
        fatStart := rfl
        rootEntries := hFields.root
        firstData := hSizes.firstData
        total := hSizes.count
        clusters := hSizes.clusters
        width := rfl
        fatBytes := hSizes.entries
        active := hActive
        mirrored := hMirror
        fsinfo := hFsinfo
        backup := hBackup
        root32 := hRoot32
        root16 := hRoot16
        extent := rfl
        bound := by
          dsimp only
          omega }

/-
  What an accepted boot sector bounds. Sectors are those of
  the volume; the disk has `available` blocks of 512 bytes,
  and the partition is `count` of them when it is given.
-/
structure Bounded
    (v : FatVol)
    (available start count : Nat) : Prop where
  clusters : ∀ c i, v.Valid c → i < v.sectorsPerCluster →
    (c - 2) * v.sectorsPerCluster < 2 ^ 32 ∧
      clusterToSector v c =
        v.firstDataSector + (c - 2) * v.sectorsPerCluster ∧
      v.firstDataSector ≤ clusterToSector v c + i ∧
      clusterToSector v c + i < v.totalSectors
  entries : ∀ c f, v.Valid c → f < v.numFats →
    c * 4 < 2 ^ 32 ∧
      c * v.entryBytes % v.bytesPerSector + v.entryBytes ≤
        v.bytesPerSector ∧
      c * v.entryBytes / v.bytesPerSector < v.fatSize ∧
      v.fatStart + f * v.fatSize +
          c * v.entryBytes / v.bytesPerSector <
        v.firstDataSector
  fats : v.reservedSectors ≤ v.fatStart ∧
    v.fatStart + v.numFats * v.fatSize ≤
      v.firstDataSector ∧
    v.numFats * v.fatSize < 2 ^ 32 ∧
    v.fatSize * v.bytesPerSector < 2 ^ 32
  fsinfo : v.fsinfoSector < v.reservedSectors ∧
    v.backupFsinfo < v.reservedSectors
  root : v.rootSector =
      v.reservedSectors + v.numFats * v.fatSize ∧
    v.rootSector + (v.rootEntries * 32 + v.bytesPerSector -
        1) / v.bytesPerSector = v.firstDataSector
  data : v.firstDataSector < v.totalSectors
  blocks : ∀ s k, s < v.totalSectors → k < v.factor →
    v.lba + (s * v.factor + k) < available ∧
      (count ≠ 0 →
        v.lba + (s * v.factor + k) < start + count)
  place : v.lba = start ∧ available < 2 ^ 32

/- A block of a sector of the volume is one of its extent. -/
theorem block_lt_extent
    (hGeo : Geometry v)
    {s k : Nat}
    (hs : s < v.totalSectors)
    (hk : k < v.factor) :
    s * v.factor + k < v.extent := by
  rw [hGeo.extent]
  calc
    s * v.factor + k < s * v.factor + v.factor := by
      omega
    _ = (s + 1) * v.factor := by
      rw [Nat.succ_mul]
    _ ≤ v.totalSectors * v.factor :=
      Nat.mul_le_mul_right _ hs

theorem fatMountVol_bounded
    {b : Buf}
    {available lbaStart lbaCount : UInt32}
    {v : FatVol}
    (hMount :
      fatMountVol b available lbaStart lbaCount = some v) :
    Bounded v available.toNat lbaStart.toNat
      lbaCount.toNat := by
  have ⟨hGeo, hLba, hData, hBytes, hDisk, hPart⟩ :=
    geometry_of_mount hMount
  have hTotal := hGeo.total_lt
  have hFirst := hGeo.firstData
  have hFats : v.fatStart + v.numFats * v.fatSize ≤
      v.firstDataSector := by
    rw [hGeo.fatStart, hFirst]
    exact Nat.le_add_right _ _
  exact
    { clusters := by
        intro c i hc hi
        have hEq := clusterToSector_eq hGeo hc
        have hEnd := cluster_end_le hGeo hc
        have hNext := cluster_succ (v := v) hc.1
        refine ⟨by omega, hEq, by omega, by omega⟩
      entries := by
        intro c f hc hf
        have hCount := hGeo.clusters.2
        have hIn := fat_sector_lt hGeo hc.2
        have hCopy : f * v.fatSize + v.fatSize ≤
            v.numFats * v.fatSize := by
          rw [← Nat.succ_mul]
          exact Nat.mul_le_mul_right _ hf
        refine ⟨?_, hGeo.entry_fits c, hIn, by omega⟩
        have hLess := hc.2
        omega
      fats := by
        have hStart := hGeo.fatStart
        omega
      fsinfo := ⟨hGeo.fsinfo, hGeo.backup⟩
      root := by
        unfold FatVol.rootSector
        rw [hGeo.fatStart]
        exact ⟨rfl, hFirst.symm⟩
      data := hData
      blocks := by
        intro s k hs hk
        have hBlock := block_lt_extent hGeo hs hk
        refine ⟨by omega, ?_⟩
        intro hCount
        have hGiven : lbaCount ≠ 0 := by
          rintro rfl
          exact hCount rfl
        have hLe := hPart hGiven
        omega
      place := ⟨hLba, available.toNat_lt⟩ }

/- The boot sector of a FAT16 volume of 4103 sectors. -/
def smallBoot : Buf :=
  let bps := Buf.zero.put16 11 512
  let shape := bps.copy 13 (Buf.ofList [1, 1, 0, 1]) 4
  let sizes := ((shape.put16 17 16).put16 19 4103).put16
    22 16
  sizes.copy 510 (Buf.ofList [0x55, 0xAA]) 2

theorem fatMountVol_bounded_small :
    ∃ v, fatMountVol smallBoot 5000 63 4103 = some v ∧
      Bounded v 5000 63 4103 := by
  have hSome :
      (fatMountVol smallBoot 5000 63 4103).isSome = true := by
    decide +kernel
  have hMount := (Option.some_get hSome).symm
  exact ⟨_, hMount, fatMountVol_bounded hMount⟩

end KvantOS
