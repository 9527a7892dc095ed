import KvantOS.Fat.Operations

/-
  This file models the lower half of `kernel/fat.c` and
  `kernel/fat_meta.h`: the sector helpers over the disk, the
  metadata cache, and the undo log's callbacks.

  A call of the block layer for several sectors is a row of
  single commands. When it fails, each of its sectors may be
  old or new.

  Key definitions include:
    * `DiskCmd`, `FatState`, `FatM`
    * `txMap`, `txHandle`, `fatHandle`
-/

--
-- The Disk
--

namespace KvantOS

/-
  What the driver asks of the block layer: sector commands,
  `live`, and the lease of `blk_fat_authorize`.
-/
inductive DiskCmd where
  | block (command : BlockCmd Sector)
  | live
  | authorize
  | revoke

@[reducible]
def DiskCmd.Reply : DiskCmd → Type
  | .block command => command.Reply
  | .live => Bool
  | .authorize => Bool
  | .revoke => Unit

/- Programs over the block layer. -/
abbrev DiskProg :=
  Prog DiskCmd DiskCmd.Reply

namespace Disk

/- Every command succeeds. -/
def perfect :
    (command : DiskCmd) → Device Sector →
      command.Reply × Device Sector
  | .block command, d => Device.perfect command d
  | .live, d => (true, d)
  | .authorize, d => (true, d)
  | .revoke, d => ((), d)

end Disk

def diskRead (lba : Nat) : DiskProg (Option Sector) :=
  .step (.block (.read lba)) .ret

def diskWrite
    (lba : Nat)
    (data : Sector) : DiskProg Bool :=
  .step (.block (.write lba data)) .ret

def diskBarrier : DiskProg Bool :=
  .step (.block .sync) .ret

def diskLive : DiskProg Bool :=
  .step .live .ret

/- `blk_read` of `count` sectors. -/
def blkRead
    (lba : Nat) :
    (count : Nat) → DiskProg (Option Buf)
  | 0 => pure (some Buf.zero)
  | count + 1 => do
      match ← blkRead lba count with
      | none => pure none
      | some b =>
          match ← diskRead (lba + count) with
          | none => pure none
          | some sector =>
              pure (some
                (b.copy (512 * count) sector.toBuf 512))

/- `blk_write` of `count` sectors. -/
def blkWrite
    (lba : Nat)
    (data : Buf) :
    (count : Nat) → DiskProg Bool
  | 0 => pure true
  | count + 1 => do
      let first ← blkWrite lba data count
      let last ← diskWrite (lba + count)
        (data.drop (512 * count)).toSector
      pure (first && last)

--
-- The Callbacks of the Log
--

/- `wal_target`. -/
def walTarget
    (v : FatVol)
    (sec : Nat) : Bool :=
  sec < v.extent && !walOverlap v sec 1 &&
    (sec ≥ v.reservedSectors || sec == v.fsinfoSector ||
      sec == v.backupFsinfo) && sec != 0

/- `tx_map`: the sector of the disk. -/
def txMap
    (v : FatVol)
    (lba : Nat) : Option Nat :=
  if !v.fileWal then
    some lba
  else if lba ≥ fatWalVirtual &&
      lba - fatWalVirtual < stxMax + 1 then
    some (v.walSector + 1 + (lba - fatWalVirtual) + v.lba)
  else if !walTarget v lba then
    none
  else
    some (lba + v.lba)

/- `tx_read`. -/
def txRead
    (v : FatVol)
    (lba : Nat) : DiskProg (Option Sector) := do
  if !(← diskLive) then
    pure none
  else
    match txMap v lba with
    | none => pure none
    | some target => diskRead target

/- The guard of `tx_write` on the owner's directory entry. -/
def keepsOwner
    (v : FatVol)
    (lba : Nat)
    (data : Sector) : Bool :=
  !(v.fileWal && lba == v.walDir) ||
    (data.toBuf.drop v.walOff).same v.walEntry 32

/- `tx_write`. -/
def txWrite
    (v : FatVol)
    (lba : Nat)
    (data : Sector) : DiskProg Bool := do
  if !keepsOwner v lba data then
    pure false
  else if !(← diskLive) then
    pure false
  else
    match txMap v lba with
    | none => pure false
    | some target => diskWrite target data

/- `tx_sync`. -/
def txSync : DiskProg Bool := do
  if !(← diskLive) then
    pure false
  else
    diskBarrier

/- The three callbacks. -/
def txHandle
    (v : FatVol) :
    (command : BlockCmd Sector) → DiskProg command.Reply
  | .read lba => txRead v lba
  | .write lba data => txWrite v lba data
  | .sync => txSync

/- `tx_io`. -/
def txIo (v : FatVol) : StxIo where
  read := true
  write := true
  sync := true
  first := if v.fileWal then 0 else v.lba
  count := v.extent
  journal := v.journal
  journalCount := v.journalCount
  identity := v.serial

--
-- The State of the Driver
--

/- `struct fat_meta_entry`. -/
structure MetaEntry where
  data : Buf
  sector : Nat
  valid : Bool
  dirty : Bool

/- `FAT_META_SLOTS`. -/
def fatMetaSlots : Nat :=
  8

/-
  The fields of `fat_vol_t` that an operation changes, with
  the metadata cache and the handle `fat_tx`. `owner` says
  that the cache is this volume's.
-/
structure FatState where
  error : Bool
  fenced : Bool
  writing : Bool
  overlay : Bool
  owner : Bool
  next : Nat
  slots : Fin fatMetaSlots → MetaEntry
  tx : SectorTx

/- Programs of the driver with its state. -/
abbrev FatM :=
  StateT FatState DiskProg

namespace FatM

variable {α : Type}

/- Issue a command of the block layer. -/
def disk (program : DiskProg α) : FatM α :=
  fun st => program >>= fun a => .ret (a, st)

def live : FatM Bool :=
  disk diskLive

/- `v->error = 1`. -/
def flagError : FatM Unit :=
  modify (fun st => { st with error := true })

/- `fence`; the VFS stops offering the volume for writing. -/
def fence : FatM Unit :=
  modify (fun st => { st with fenced := true })

/- A call of the log on the handle `fat_tx`. -/
def tx
    (v : FatVol)
    (call : SectorTx → StxProg (Int × SectorTx)) :
    FatM Int :=
  fun st => (call st.tx).interp (txHandle v) >>= fun out =>
    .ret (out.1, { st with tx := out.2 })

end FatM

--
-- The Metadata Cache
--

open FatM

/- An entry that holds nothing. -/
def MetaEntry.drop (e : MetaEntry) : MetaEntry :=
  { e with valid := false, dirty := false }

/- `fat_meta_begin`. -/
def fatMetaBegin (owner : Bool) : FatM Unit :=
  modify (fun st =>
    { st with
      owner
      next := 0
      slots := fun i => (st.slots i).drop })

/- `fat_meta_eligible`. -/
def fatMetaEligible
    (v : FatVol)
    (st : FatState)
    (sec : Nat) : Bool :=
  st.owner && !st.overlay &&
    ((sec ≥ v.fatStart &&
        (sec - v.fatStart) / v.fatSize < v.numFats) ||
      (v.fsinfoSector != 0 && sec == v.fsinfoSector) ||
      (v.backupFsinfo != 0 && sec == v.backupFsinfo))

/- Change one slot. -/
def setSlot
    (i : Fin fatMetaSlots)
    (f : MetaEntry → MetaEntry) : FatM Unit :=
  modify (fun st =>
    { st with
      slots := Function.update st.slots i (f (st.slots i)) })

/-
  The loops over `stx_write` that put one sector of the
  volume into the log, from its part number `i` on.
-/
def writeChunks
    (v : FatVol)
    (lba : Nat)
    (data : Buf)
    (i : Nat) :
    (remaining : Nat) → FatM Bool
  | 0 => pure true
  | remaining + 1 => do
      let r ← FatM.tx v (fun t => stxWrite t (lba + i)
        (some (data.drop (512 * i)).toSector))
      if r < 0 then
        flagError
        pure false
      else
        writeChunks v lba data (i + 1) remaining

/- The address that a sector of the volume has in the log. -/
def txLba
    (v : FatVol)
    (sec : Nat) : Nat :=
  (if v.fileWal then 0 else v.lba) + sec * v.factor

/- `fat_meta_flush_one`. -/
def fatMetaFlushOne
    (v : FatVol)
    (i : Fin fatMetaSlots) : FatM Bool := do
  let st ← get
  let e := st.slots i
  if !e.dirty then
    pure true
  else
    let ready ←
      if !st.writing || st.error then pure false else live
    if !ready then
      flagError
      pure false
    else if !(← writeChunks v (txLba v e.sector) e.data 0
        v.factor) then
      pure false
    else
      setSlot i (fun e => { e with dirty := false })
      pure true

/- The loop of `fat_meta_flush`. -/
def flushSlots
    (v : FatVol) :
    List (Fin fatMetaSlots) → FatM Bool
  | [] => pure true
  | i :: rest => do
      if ← fatMetaFlushOne v i then
        flushSlots v rest
      else
        pure false

/- The function `fat_meta_flush`. -/
def flushCache (v : FatVol) : FatM Bool := do
  if !(← get).owner then
    pure true
  else
    flushSlots v (List.finRange fatMetaSlots)

/- The slot that holds a sector. -/
def cachedSlot
    (st : FatState)
    (sec : Nat) : Option (Fin fatMetaSlots) :=
  (List.finRange fatMetaSlots).find?
    (fun i => (st.slots i).valid && (st.slots i).sector == sec)

/- The slot that `fat_meta_fetch` takes for a new sector. -/
def victimSlot : FatM (Fin fatMetaSlots) := do
  let st ← get
  match (List.finRange fatMetaSlots).find?
      (fun i => !(st.slots i).valid) with
  | some i => pure i
  | none =>
      set { st with next := (st.next + 1) % 2 ^ 32 }
      pure ⟨st.next % fatMetaSlots,
        Nat.mod_lt _ (by decide)⟩

/- `fat_meta_fetch`. -/
def fatMetaFetch
    (v : FatVol)
    (sec : Nat)
    (load : Bool) : FatM (Option (Fin fatMetaSlots)) := do
  match cachedSlot (← get) sec with
  | some i => pure (some i)
  | none =>
      let i ← victimSlot
      if !(← fatMetaFlushOne v i) then
        pure none
      else
        setSlot i (fun e => { e with valid := false })
        let data ←
          if load then
            disk (blkRead (v.lba + sec * v.factor) v.factor)
          else
            pure (some ((← get).slots i).data)
        match data with
        | none =>
            flagError
            pure none
        | some data =>
            setSlot i (fun e =>
              { e with data, sector := sec, valid := true })
            pure (some i)

--
-- The Sector Helpers
--

/- The undo records laid over a sector that was read. -/
def overlayRecords
    (sec : Nat)
    (b : Buf) :
    List UndoRecord → Buf
  | [] => b
  | u :: us =>
      overlayRecords sec
        (if u.lba == sec then b.copy 0 u.old.toBuf 512
          else b) us

/- The guard of all helpers: the volume can be used. -/
def usable
    (v : FatVol)
    (st : FatState)
    (sec : Nat) : Bool :=
  !st.fenced && !st.error && sec < v.totalSectors &&
    1 ≤ v.totalSectors - sec

/- `fat_read_sectors` of one sector. -/
def readSectors
    (v : FatVol)
    (sec : Nat) : FatM (Option Buf) := do
  let alive ← live
  let st ← get
  if !alive || !usable v st sec || 1 > 64 / v.factor then
    flagError
    pure none
  else
    let data ←
      if fatMetaEligible v st sec then do
        match ← fatMetaFetch v sec true with
        | none => pure none
        | some i => pure (some ((← get).slots i).data)
      else do
        match ← disk (blkRead (v.lba + sec * v.factor)
            v.factor) with
        | none =>
            flagError
            pure none
        | some b => pure (some b)
    match data with
    | none => pure none
    | some b =>
        let st ← get
        pure (some (if st.overlay then
          overlayRecords sec b st.tx.undo else b))

/- `fat_write_data` of one sector. -/
def writeData
    (v : FatVol)
    (sec : Nat)
    (data : Buf) : FatM Bool := do
  let alive ← live
  let st ← get
  if !alive || !st.writing || !usable v st sec ||
      1 > 64 / v.factor || walOverlap v sec 1 then
    flagError
    pure false
  else if !(← disk (blkWrite (v.lba + sec * v.factor) data
      v.factor)) then
    flagError
    pure false
  else
    pure true

/- `fat_write_sectors` of one sector. -/
def writeSectors
    (v : FatVol)
    (sec : Nat)
    (data : Buf) : FatM Bool := do
  let alive ← live
  let st ← get
  if !alive || !st.writing || !usable v st sec then
    flagError
    pure false
  else if fatMetaEligible v st sec then
    match ← fatMetaFetch v sec false with
    | none => pure false
    | some i =>
        setSlot i (fun e => { e with data, dirty := true })
        pure true
  else if !(← flushCache v) then
    pure false
  else
    writeChunks v (txLba v sec) data 0 v.factor

/- `io_enter`. -/
def enterVolume : FatM Bool := do
  if !(← live) then
    fence
  let st ← get
  if st.fenced then
    pure false
  else
    if !st.writing then
      set { st with error := false }
    pure (!(← get).error)

/- What the sector commands of the FAT logic do. -/
def fatHandle
    (v : FatVol) :
    (command : FatCmd) → FatM command.Reply
  | .readSectors sec => readSectors v sec
  | .writeSectors sec data => writeSectors v sec data
  | .writeData sec data => writeData v sec data
  | .metaFlush => flushCache v
  | .sync => disk diskBarrier
  | .ioEnter => enterVolume
  | .getError => return (← get).error
  | .setError => flagError

/- Run the FAT logic on the disk. -/
def fatRun
    {α : Type}
    (v : FatVol)
    (program : FatProg α) : FatM α :=
  program.interpState (fatHandle v)

end KvantOS
