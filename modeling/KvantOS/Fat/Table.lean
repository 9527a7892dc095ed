import KvantOS.Fat.Volume

/-
  This file models the FAT itself: reading and setting
  entries, the free-cluster hint, and chains.

  A loop of the source that no counter bounds gets as many
  rounds as there are clusters, and gives up after them.

  Key definitions include:
    * `fatGet`, `fatSet`, `fsinfoAdjust`
    * `chainValid`, `fatFreeChain`
-/

namespace KvantOS

/- A FAT entry in its sector, without the reserved bits. -/
def fatEntryAt
    (v : FatVol)
    (sec : Buf)
    (off : Nat) : Nat :=
  if v.isFat32 then sec.get32 off % 2 ^ 28 else sec.get16 off

/- The sector with an entry replaced, reserved bits kept. -/
def fatEntryPut
    (v : FatVol)
    (sec : Buf)
    (off val : Nat) : Buf :=
  if v.isFat32 then
    sec.put32 off
      (sec.get32 off / 2 ^ 28 * 2 ^ 28 + val % 2 ^ 28)
  else
    sec.put16 off (val % 2 ^ 16)

/- `fat_get`. -/
def fatGet
    (v : FatVol)
    (clu : Nat) : FatProg Nat :=
  if clu < 2 || clu - 2 ≥ v.totalClusters then do
    setError
    pure 0x0FFFFFF7
  else do
    let off := clu * v.entryBytes
    let s := v.fatStart + v.activeFat * v.fatSize +
      off / v.bytesPerSector
    match ← fatReadSectors s with
    | none => pure 0x0FFFFFF7
    | some sec =>
        pure (fatEntryAt v sec (off % v.bytesPerSector))

/-
  The loop of `fat_set` over the FAT copies from number `f`:
  `original` is the entry before the write, as found in the
  copies so far.
-/
def fatSetCopies
    (v : FatVol)
    (s o val : Nat)
    (f original : Nat) :
    (remaining : Nat) → FatProg Bool
  | 0 => pure true
  | remaining + 1 =>
      if !v.mirrored && f != v.activeFat then
        fatSetCopies v s o val (f + 1) original remaining
      else do
        match ← fatReadSectors (s + f * v.fatSize) with
        | none => pure false
        | some sec =>
            let low := fatEntryAt v sec o
            let first := f == 0 || !v.mirrored
            if !first && low != original then do
              setError
              pure false
            else if !(← fatWriteSectors (s + f * v.fatSize)
                (fatEntryPut v sec o val)) then
              pure false
            else
              fatSetCopies v s o val (f + 1)
                (if first then low else original) remaining

/- `fat_set`. -/
def fatSet
    (v : FatVol)
    (clu val : Nat) : FatProg Bool :=
  if clu < 2 || clu - 2 ≥ v.totalClusters ||
      (v.fileWal && clu ≥ v.walCluster &&
        clu - v.walCluster < v.walClusters) then do
    setError
    pure false
  else
    let off := clu * v.entryBytes
    fatSetCopies v (v.fatStart + off / v.bytesPerSector)
      (off % v.bytesPerSector) val 0 0 v.numFats

--
-- The Free-Cluster Hint
--

/- The signature checks of `fsinfo_adjust`. -/
def fsinfoValid (b : Buf) : Bool :=
  b.get32 0 == 0x41615252 && b.get32 484 == 0x61417272 &&
    b.get32 508 == 0xAA550000

/-
  The free count after one allocation (`delta < 0`) or one
  release; absent when the hint is inconsistent.
-/
def fsinfoCount
    (v : FatVol)
    (delta : Int)
    (freec : Nat) : Option Nat :=
  if freec == u32Max then
    some freec
  else if freec > v.totalClusters ||
      (delta < 0 && freec == 0) ||
      (delta > 0 && freec == v.totalClusters) then
    none
  else
    some (if delta < 0 then freec - 1 else freec + 1)

/-
  One round of `fsinfo_adjust`: the count is computed from
  the first copy and repeated in the second.
-/
def fsinfoCopy
    (v : FatVol)
    (delta : Int)
    (sec : Nat)
    (known : Option Nat) : FatProg (Option Nat) := do
  match ← fatReadSectors sec with
  | none => pure none
  | some b =>
      if !fsinfoValid b then do
        setError
        pure none
      else
        match known.or
            (fsinfoCount v delta (b.get32 488)) with
        | none => do
            setError
            pure none
        | some freec =>
            if ← fatWriteSectors sec
                ((b.put32 488 freec).put32 492 u32Max) then
              pure (some freec)
            else
              pure none

/- `fsinfo_adjust`. -/
def fsinfoAdjust
    (v : FatVol)
    (delta : Int) : FatProg Bool :=
  if !v.isFat32 || v.fsinfoSector == 0 then
    pure true
  else do
    match ← fsinfoCopy v delta v.fsinfoSector none with
    | none => pure false
    | some freec =>
        if v.backupFsinfo == 0 then
          pure true
        else do
          let again ← fsinfoCopy v delta v.backupFsinfo
            (some freec)
          pure again.isSome

--
-- Chains
--

/- A link that `chain_next` rejects. -/
def badLink
    (v : FatVol)
    (n : Nat) : Bool :=
  n < 2 || n - 2 ≥ v.totalClusters ||
    n ≥ (if v.isFat32 then 0x0FFFFFF0 else 0xFFF0)

/- `chain_next`. -/
def chainNext
    (v : FatVol)
    (c : Nat) : FatProg Nat := do
  let n ← fatGet v c
  if !fatIsEoc v n && badLink v n then
    setError
  pure n

/- The loop of `chain_valid`, with a slow and a fast finger. -/
def floyd
    (v : FatVol)
    (slow fast : Nat) :
    (guard : Nat) → FatProg Bool
  | 0 => do
      setError
      pure false
  | guard + 1 => do
      let slow ← chainNext v slow
      let fast ← chainNext v fast
      if ← getError then
        pure false
      else if fatIsEoc v fast then
        pure true
      else
        let fast ← chainNext v fast
        if ← getError then
          pure false
        else if fatIsEoc v fast then
          pure true
        else if slow == fast then do
          setError
          pure false
        else
          floyd v slow fast guard

/- `chain_valid`. -/
def chainValid
    (v : FatVol)
    (c : Nat) : FatProg Bool :=
  if c == 0 then pure true
  else floyd v c c v.totalClusters

/- The loop of `fat_free_chain`. -/
def freeLoop
    (v : FatVol)
    (clu : Nat) :
    (fuel : Nat) → FatProg Bool
  | 0 => pure (clu < 2 || fatIsEoc v clu)
  | fuel + 1 =>
      if clu < 2 || fatIsEoc v clu then
        pure true
      else do
        let next ← chainNext v clu
        if ← getError then
          pure false
        else if !(← fatSet v clu 0) then
          pure false
        else if !(← fsinfoAdjust v 1) then
          pure false
        else
          freeLoop v next fuel

/- `fat_free_chain`. -/
def fatFreeChain
    (v : FatVol)
    (clu : Nat) : FatProg Bool := do
  if !(← chainValid v clu) then
    pure false
  else
    freeLoop v clu v.totalClusters

end KvantOS
