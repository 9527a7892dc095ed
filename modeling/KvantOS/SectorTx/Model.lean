import KvantOS.Block.Bytes
import KvantOS.Block.Device

/-
  This file models `kernel/sector_tx.c`, the undo log that
  makes a group of sector writes atomic.

  The caller's `read`, `write` and `sync` callbacks are the
  commands of a block device, so a call is a program over
  those commands. `lab_step` is empty outside the storage
  lab and is left out. The arrays `lba`, `crc` and `old`
  with their count `n` are the list `undo`.

  Key definitions include:
    * `StxIo`, `SectorTx`
    * `configOk`, `targetOk`, `stxCrc32`
    * `headerSector`, `header`
    * `stxLoad`, `stxRecover`, `stxBegin`
    * `stxWrite`, `stxCommit`, `stxAbort`
-/

--
-- Types
--

namespace KvantOS

/- Programs over the three callbacks of `stx_io_t`. -/
abbrev StxProg :=
  BlockProg Sector

/- `STX_MAX`. -/
def stxMax : Nat :=
  48

/- `~0u`. -/
def u32Max : Nat :=
  0xFFFFFFFF

/-
  `stx_io_t`: the geometry, and whether the three callbacks
  are present.
-/
structure StxIo where
  read : Bool
  write : Bool
  sync : Bool
  first : Nat
  count : Nat
  journal : Nat
  journalCount : Nat
  identity : UInt32
  deriving DecidableEq

/- One entry of the arrays `lba`, `crc` and `old`. -/
structure UndoRecord where
  lba : Nat
  crc : Nat
  old : Sector
  deriving DecidableEq

/- `sector_tx_t`. -/
structure SectorTx where
  io : StxIo
  undo : List UndoRecord
  active : Bool
  failed : Bool
  closing : Bool
  deriving DecidableEq

--
-- Checksums and Configuration
--

/- One round of the inner loop of `stx_crc32`. -/
def crcBit (c : UInt32) : UInt32 :=
  (c >>> 1) ^^^ ((0 - (c &&& 1)) &&& 0xedb88320)

/- One round of the outer loop of `stx_crc32`. -/
def crcByte
    (c : UInt32)
    (byte : UInt8) : UInt32 :=
  crcBit^[8] (c ^^^ byte.toUInt32)

/- `stx_crc32`. -/
def stxCrc32
    (data : Buf)
    (n : Nat) : Nat :=
  (~~~ ((List.range n).foldl
    (fun c i => crcByte c (data i)) (~~~ 0))).toNat

/- `config_ok`. -/
def configOk (io : StxIo) : Bool :=
  if !io.read || !io.write || !io.sync || io.count == 0 ||
      io.count > u32Max - io.first then
    false
  else if io.journalCount == 0 then
    true
  else
    io.journalCount ≥ stxMax + 1 &&
      io.journalCount ≤ u32Max - io.journal &&
      (io.journal ≥ io.first + io.count ||
        io.first ≥ io.journal + io.journalCount)

/- `target_ok`. -/
def targetOk
    (io : StxIo)
    (lba : Nat) : Bool :=
  lba ≥ io.first && lba - io.first < io.count

--
-- The Header Sector
--

/- `"KVSTX01"` with its terminating zero. -/
def stxMagic : List UInt8 :=
  [0x4B, 0x56, 0x53, 0x54, 0x58, 0x30, 0x31, 0x00]

/- The magic bytes as a buffer. -/
def stxMagicBuf : Buf :=
  fun i => stxMagic.getD i 0

/- The loop of `header` that stores the records. -/
def putRecords
    (b : Buf) :
    Nat → List UndoRecord → Buf
  | _, [] => b
  | i, u :: us =>
      putRecords
        ((b.put32 (40 + 8 * i) u.lba).put32
          (44 + 8 * i) u.crc)
        (i + 1) us

/- The fixed fields that `header` stores. -/
def headerBase
    (io : StxIo)
    (active : Bool)
    (n : Nat) : Buf :=
  let b := Buf.zero.copy 0 stxMagicBuf 8
  let b := b.put32 8 1
  let b := b.put32 12 io.identity.toNat
  let b := b.put32 16 io.first
  let b := b.put32 20 io.count
  let b := b.put32 24 io.journal
  let b := b.put32 28 io.journalCount
  let b := b.put32 32 (if active then 1 else 0)
  b.put32 36 (if active then n else 0)

/- The bytes that `header` stores before the checksum. -/
def headerFields
    (io : StxIo)
    (active : Bool)
    (undo : List UndoRecord) : Buf :=
  let b := headerBase io active undo.length
  if active then putRecords b 0 undo else b

/- The sector that `header` writes. -/
def headerSector
    (io : StxIo)
    (active : Bool)
    (undo : List UndoRecord) : Sector :=
  let b := headerFields io active undo
  (b.put32 508 (stxCrc32 b 508)).toSector

/- `header`: true when it returns 0. -/
def header
    (t : SectorTx)
    (active : Bool) : StxProg Bool := do
  if ← BlockProg.write t.io.journal
      (headerSector t.io active t.undo) then
    BlockProg.sync
  else
    pure false

--
-- Loading and Recovery
--

/- A handle with no transaction on it. -/
def idleTx (io : StxIo) : SectorTx where
  io := io
  undo := []
  active := false
  failed := false
  closing := false

/- The checks of `stx_load` on the header sector. -/
def headerValid
    (io : StxIo)
    (b : Buf) : Bool :=
  b.same stxMagicBuf 8 &&
    b.get32 8 == 1 &&
    b.get32 12 == io.identity.toNat &&
    b.get32 16 == io.first &&
    b.get32 20 == io.count &&
    b.get32 24 == io.journal &&
    b.get32 28 == io.journalCount &&
    b.get32 32 ≤ 1 &&
    b.get32 36 ≤ stxMax &&
    b.get32 508 == stxCrc32 b 508

/-
  The validation loop of `stx_load`: `undo` holds the
  records read so far, `remaining` counts the others.
-/
def loadRecords
    (io : StxIo)
    (b : Buf)
    (undo : List UndoRecord) :
    (remaining : Nat) → StxProg (Option (List UndoRecord))
  | 0 => pure (some undo)
  | remaining + 1 => do
      let i := undo.length
      let lba := b.get32 (40 + 8 * i)
      let crc := b.get32 (44 + 8 * i)
      if !targetOk io lba then
        pure none
      else if undo.any (fun u => u.lba == lba) then
        pure none
      else
        match ← BlockProg.read (io.journal + 1 + i) with
        | none => pure none
        | some old =>
            if stxCrc32 old.toBuf 512 != crc then
              pure none
            else
              loadRecords io b
                (undo ++ [⟨lba, crc, old⟩]) remaining

/- `stx_load`. -/
def stxLoad
    (t : SectorTx)
    (io : StxIo) : StxProg (Int × SectorTx) :=
  if !configOk io then
    pure (-1, t)
  else if io.journalCount == 0 then
    pure (0, idleTx io)
  else do
    match ← BlockProg.read io.journal with
    | none => pure (-1, idleTx io)
    | some sector =>
        let b := sector.toBuf
        if !headerValid io b then
          pure (-1, idleTx io)
        else if b.get32 32 == 0 then
          pure (if b.get32 36 == 0 then 0 else -1,
            idleTx io)
        else
          match ← loadRecords io b [] (b.get32 36) with
          | none => pure (-1, idleTx io)
          | some undo =>
              pure (0,
                { idleTx io with undo, active := true })

/- The restoring loop of `stx_abort`, last record first. -/
def restoreRecords :
    List UndoRecord → StxProg Bool
  | [] => pure true
  | u :: us => do
      if ← BlockProg.write u.lba u.old then
        restoreRecords us
      else
        pure false

/- `stx_abort`. -/
def stxAbort
    (t : SectorTx) : StxProg (Int × SectorTx) :=
  if !t.active || t.closing then
    pure (-1, t)
  else do
    if !(← restoreRecords t.undo.reverse) then
      pure (-1, t)
    else if !(← BlockProg.sync) then
      pure (-1, t)
    else if t.io.journalCount == 0 then
      pure (0, { t with active := false, undo := [] })
    else
      let t := { t with closing := true }
      if !(← header t false) then
        pure (-1, t)
      else
        pure (0, { t with active := false, undo := [] })

/- `stx_recover`. -/
def stxRecover
    (t : SectorTx)
    (io : StxIo) : StxProg (Int × SectorTx) := do
  let (result, t) ← stxLoad t io
  if result < 0 then
    pure (-1, t)
  else if t.active then
    stxAbort t
  else
    pure (0, t)

/- `stx_begin`. -/
def stxBegin
    (t : SectorTx)
    (io : StxIo) : StxProg (Int × SectorTx) := do
  let (result, t) ← stxRecover t io
  if result < 0 then
    pure (-1, t)
  else
    let t := { t with active := true }
    if io.journalCount == 0 then
      pure (0, t)
    else if !(← header t true) then
      pure (-1, { t with failed := true })
    else
      pure (0, t)

--
-- Writing and Closing
--

/-
  The journal part of `stx_write` for a fresh record: backup
  and barrier, then header and barrier. Without a journal it
  does nothing.
-/
def logRecord
    (t : SectorTx)
    (i : Nat)
    (old : Sector) : StxProg Bool := do
  if t.io.journalCount == 0 then
    pure true
  else if !(← BlockProg.write (t.io.journal + 1 + i) old) then
    pure false
  else if !(← BlockProg.sync) then
    pure false
  else
    header t true

/-
  The block of `stx_write` that makes sure the target has a
  record: false when it gives up.
-/
def recordTarget
    (t : SectorTx)
    (lba : Nat) : StxProg (Bool × SectorTx) :=
  if t.undo.any (fun u => u.lba == lba) then
    pure (true, t)
  else if t.undo.length == stxMax then
    pure (false, t)
  else do
    match ← BlockProg.read lba with
    | none => pure (false, t)
    | some old =>
        let i := t.undo.length
        let t := { t with
          undo := t.undo ++
            [⟨lba, stxCrc32 old.toBuf 512, old⟩] }
        let ok ← logRecord t i old
        pure (ok, t)

/- `stx_write`; `data` is absent for a null pointer. -/
def stxWrite
    (t : SectorTx)
    (lba : Nat)
    (data : Option Sector) : StxProg (Int × SectorTx) :=
  if !t.active || t.failed || t.closing then
    pure (-1, t)
  else
    match data with
    | none => pure (-1, { t with failed := true })
    | some data =>
        if !targetOk t.io lba then
          pure (-1, { t with failed := true })
        else do
          let (ok, t) ← recordTarget t lba
          if !ok then
            pure (-1, { t with failed := true })
          else if !(← BlockProg.write lba data) then
            pure (-1, { t with failed := true })
          else
            pure (0, t)

/- `stx_commit`. -/
def stxCommit
    (t : SectorTx) : StxProg (Int × SectorTx) :=
  if !t.active || t.failed then
    pure (-1, t)
  else do
    if !(← BlockProg.sync) then
      pure (-1, { t with failed := true })
    else if t.io.journalCount == 0 then
      pure (0, { t with active := false, undo := [] })
    else
      let t := { t with closing := true }
      if !(← header t false) then
        pure (-1, { t with failed := true })
      else
        pure (0, { t with active := false, undo := [] })

end KvantOS
