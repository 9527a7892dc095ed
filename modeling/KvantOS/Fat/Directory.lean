import KvantOS.Fat.Names
import KvantOS.Fat.Table

/-
  This file models the reading side of the directory code of
  `kernel/fat.c`: walking entries with their long names, and
  path lookup.

  The context of a callback is a value that the walk passes
  along. A loop that the source does not bound gets as many
  rounds as a volume has slots, and gives up after them.

  Key definitions include:
    * `walkDir`, `resolvePath`
-/

namespace KvantOS

/- Slots in a sector. -/
def FatVol.slotsPerSector (v : FatVol) : Nat :=
  v.bytesPerSector / 32

/- The first sector of the FAT16 root directory. -/
def FatVol.rootSector (v : FatVol) : Nat :=
  v.fatStart + v.numFats * v.fatSize

--
-- Walking Entries
--

/-
  `dir_cb_t`: context, name, entry, sector and offset to
  whether the walk goes on, and the context after.
-/
abbrev DirCb (σ : Type) :=
  σ → List UInt8 → Dirent → Nat → Nat → Bool × σ

/- How far a walk has come. -/
inductive WalkStep (σ : Type) where
  | more (lfn : LfnState) (ctx : σ)
  | stop (ctx : σ)
  | failed (ctx : σ)

/- The loop of `walk_dir` over the entries of a sector. -/
def walkEntries
    {σ : Type}
    (cb : DirCb σ)
    (sec : Buf)
    (sector : Nat)
    (o : Nat)
    (lfn : LfnState)
    (ctx : σ) :
    (remaining : Nat) → WalkStep σ
  | 0 => .more lfn ctx
  | remaining + 1 =>
      let de := sec.slice o direntSize
      if de 0 == 0 then
        .stop ctx
      else if de 0 == 0xE5 then
        walkEntries cb sec sector (o + direntSize)
          { lfn with present := false } ctx remaining
      else if Dirent.isLfn de then
        walkEntries cb sec sector (o + direntSize)
          (lfn.fragment de) ctx remaining
      else if Dirent.is de fatAttrLabel then
        walkEntries cb sec sector (o + direntSize)
          { lfn with present := false } ctx remaining
      else
        let out := cb ctx (lfn.name de) de sector o
        if out.1 then
          walkEntries cb sec sector (o + direntSize)
            { lfn with present := false, max := 0 } out.2
            remaining
        else
          .stop out.2

/- The loop of `walk_dir` over consecutive sectors. -/
def walkSectors
    {σ : Type}
    (v : FatVol)
    (cb : DirCb σ)
    (sector : Nat)
    (lfn : LfnState)
    (ctx : σ) :
    (remaining : Nat) → FatProg (WalkStep σ)
  | 0 => pure (.more lfn ctx)
  | remaining + 1 => do
      match ← fatReadSectors sector with
      | none => pure (.failed ctx)
      | some sec =>
          match walkEntries cb sec sector 0 lfn ctx
              v.slotsPerSector with
          | .more lfn ctx =>
              walkSectors v cb (sector + 1) lfn ctx remaining
          | done => pure done

/- The outer loop of `walk_dir` on a cluster chain. -/
def walkClusters
    {σ : Type}
    (v : FatVol)
    (cb : DirCb σ)
    (clu : Nat)
    (lfn : LfnState)
    (ctx : σ) :
    (guard : Nat) → FatProg (Bool × σ)
  | 0 => pure (true, ctx)
  | guard + 1 =>
      if clu < 2 || fatIsEoc v clu then
        pure (true, ctx)
      else do
        match ← walkSectors v cb (clusterToSector v clu) lfn
            ctx v.sectorsPerCluster with
        | .more lfn ctx =>
            let clu ← fatGet v clu
            walkClusters v cb clu lfn ctx guard
        | .stop ctx => pure (true, ctx)
        | .failed ctx => pure (false, ctx)

/- The bound of the outer loop of `walk_dir`. -/
def walkGuard : Nat :=
  100000

/- `walk_dir`: what it returns, and the context after. -/
def walkDir
    {σ : Type}
    (v : FatVol)
    (start : Nat)
    (cb : DirCb σ)
    (ctx : σ) : FatProg (Bool × σ) := do
  if !(← ioEnter) then
    pure (false, ctx)
  else if start != 0 && !(← chainValid v start) then
    pure (false, ctx)
  else if !v.isFat32 && start == 0 then
    let sectors := (v.rootEntries * 32 +
      v.bytesPerSector - 1) / v.bytesPerSector
    match ← walkSectors v cb v.rootSector .init ctx
        (min sectors walkGuard) with
    | .more _ ctx => pure (true, ctx)
    | .stop ctx => pure (true, ctx)
    | .failed ctx => pure (false, ctx)
  else
    walkClusters v cb start .init ctx walkGuard

--
-- Path Lookup
--

/- The result of a search: the fields of `find_ctx_t`. -/
structure Found where
  de : Dirent
  sector : Nat
  off : Nat

/- `find_cb`. -/
def findCb (want : List UInt8) : DirCb (Option Found) :=
  fun ctx name de sector off =>
    if streqCi name want ||
        streqCi (name83ToStr de) want then
      (false, some ⟨de, sector, off⟩)
    else
      (true, ctx)

/- The results of `resolve_path`: -1, 0, and 1. -/
inductive Resolved where
  | missing
  | root
  | entry (found : Found)

/- `/`. -/
def slash : UInt8 :=
  0x2F

/- The loop of `resolve_path` over the components. -/
def resolveLoop
    (v : FatVol)
    (clu : Nat)
    (p : List UInt8) :
    (fuel : Nat) → FatProg Resolved
  | 0 => pure .missing
  | fuel + 1 => do
      let comp := p.takeWhile (· != slash)
      let rest := (p.dropWhile (· != slash)).dropWhile
        (· == slash)
      if comp.length ≥ vfsMaxName then
        pure .missing
      else
        match ← walkDir v clu (findCb comp) none with
        | (false, _) => pure .missing
        | (true, none) => pure .missing
        | (true, some found) =>
            if rest.isEmpty then
              pure (.entry found)
            else if !Dirent.is found.de fatAttrDir then
              pure .missing
            else
              resolveLoop v (entryCluster v found.de) rest
                fuel

/- The cluster of the root directory for `walk_dir`. -/
def FatVol.rootStart (v : FatVol) : Nat :=
  if v.isFat32 then v.rootCluster else 0

/- `resolve_path`. -/
def resolvePath
    (v : FatVol)
    (path : List UInt8) : FatProg Resolved :=
  let p := path.dropWhile (· == slash)
  if p.isEmpty then
    pure .root
  else
    resolveLoop v v.rootStart p p.length

/- The cluster that `resolve_path` stores. -/
def Resolved.cluster
    (v : FatVol) :
    Resolved → Nat
  | .missing => v.rootStart
  | .root => v.rootStart
  | .entry found => entryCluster v found.de

end KvantOS
