import KvantOS.Ntfs.Attributes
import KvantOS.Data.CString

/-
  This file models the directories of kernel/ntfs.c: names,
  index entries, the walk over all entries of a directory,
  and the operations of a mounted volume.

  Key definitions include:
    * `utf16ToUtf8`, `NtfsEntry`, `decodeIndexEntry`
    * `walkIndex`, `ntfsResolve`
    * `ntfsOpReaddir`, `ntfsOpRead`
-/

namespace KvantOS.Ntfs

/- `VFS_MAX_NAME`. -/
def vfsMaxName : Nat := 128

/- `MFT_REC_ROOT`. -/
def mftRecRoot : Nat := 5

--
-- Names
--

/- The bytes of a name before its terminator. -/
abbrev NtfsName :=
  List UInt8

/- The units of a name. -/
def utf16Units
    (b : Buf)
    (p chars : Nat) : List Nat :=
  (List.range chars).map (fun i => b.get16 (p + i * 2))

/- The bytes of a code point, by how many there are. -/
def utf8Length (cp : Nat) : Nat :=
  if cp < 0x80 then 1
  else if cp < 0x800 then 2
  else if cp < 0x10000 then 3
  else 4

def utf8Bytes (cp : Nat) : List UInt8 :=
  if cp < 0x80 then
    [UInt8.ofNat cp]
  else if cp < 0x800 then
    [UInt8.ofNat (0xC0 ||| cp >>> 6),
      UInt8.ofNat (0x80 ||| (cp &&& 0x3F))]
  else if cp < 0x10000 then
    [UInt8.ofNat (0xE0 ||| cp >>> 12),
      UInt8.ofNat (0x80 ||| (cp >>> 6 &&& 0x3F)),
      UInt8.ofNat (0x80 ||| (cp &&& 0x3F))]
  else
    [UInt8.ofNat (0xF0 ||| cp >>> 18),
      UInt8.ofNat (0x80 ||| (cp >>> 12 &&& 0x3F)),
      UInt8.ofNat (0x80 ||| (cp >>> 6 &&& 0x3F)),
      UInt8.ofNat (0x80 ||| (cp &&& 0x3F))]

/- A code point is stored after `n` bytes, if it fits. -/
def storeUtf8
    (cp n dstsz : Nat)
    (rest : Nat → Option (List UInt8)) :
    Option (List UInt8) :=
  if cp == 0 then
    none
  else if n + utf8Length cp ≥ dstsz then
    none
  else
    (rest (n + utf8Length cp)).map (utf8Bytes cp ++ ·)

/- The loop of `utf16_to_utf8` after `n` bytes. -/
def utf16Loop
    (dstsz : Nat) :
    List Nat → (n : Nat) → Option (List UInt8)
  | [], _ => some []
  | u :: units, n =>
      if u ≥ 0xD800 && u ≤ 0xDBFF then
        match units with
        | [] => none
        | lo :: units =>
            if lo < 0xDC00 || lo > 0xDFFF then
              none
            else
              storeUtf8
                (0x10000 + (u - 0xD800) * 1024 +
                  (lo - 0xDC00))
                n dstsz (utf16Loop dstsz units)
      else if u ≥ 0xDC00 && u ≤ 0xDFFF then
        none
      else
        storeUtf8 u n dstsz (utf16Loop dstsz units)

/- `utf16_to_utf8`: the string, absent when it returns 0. -/
def utf16ToUtf8
    (b : Buf)
    (p chars dstsz : Nat) : Option NtfsName :=
  utf16Loop dstsz (utf16Units b p chars) 0

/- `up`. -/
def up (c : UInt8) : UInt8 :=
  if c ≥ 0x61 && c ≤ 0x7A then c - 32 else c

/- `name_eq_ci`. -/
def nameEqCi : NtfsName → NtfsName → Bool
  | [], [] => true
  | x :: a, y :: b => up x == up y && nameEqCi a b
  | _, _ => false

--
-- Entries
--

/- `ntfs_entry_t`, but for the times, which stay zero. -/
structure NtfsEntry where
  mftRef : Nat
  name : NtfsName
  size : Nat
  isDir : Bool
  isHidden : Bool
  isSystem : Bool
  isReadonly : Bool
  sizeOverflow : Bool
  deriving DecidableEq

def NtfsEntry.zero : NtfsEntry :=
  ⟨0, [], 0, false, false, false, false, false⟩

/- What `decode_index_entry` finds when it succeeds. -/
structure DecodedEntry where
  len : Nat
  entry : NtfsEntry
  last : Bool

/- `n` up to a multiple of eight. -/
def roundUp8 (n : Nat) : Nat :=
  (n + 7) / 8 * 8

/- The fields of an entry with some name. -/
def entryFields
    (b : Buf)
    (p : Nat)
    (name : NtfsName) : NtfsEntry :=
  let fn := p + 0x10
  let flags := b.get32 (fn + 0x38)
  let isDir := flags &&& 0x10000000 != 0
  { mftRef := b.get32 p
    name
    size := if isDir then 0 else b.get32 (fn + 0x30)
    isDir
    isHidden := flags &&& 2 != 0
    isSystem := flags &&& 4 != 0
    isReadonly := flags &&& 1 != 0
    sizeOverflow := !isDir && b.get32 (fn + 0x34) != 0 }

/- `decode_index_entry`; absent when it returns 0. -/
def decodeIndexEntry
    (b : Buf)
    (p remain : Nat) : Option DecodedEntry :=
  if remain < 0x10 then
    none
  else
    let elen := b.get16 (p + 0x08)
    let klen := b.get16 (p + 0x0A)
    let eflags := b.get16 (p + 0x0C)
    let child := if eflags % 2 == 1 then 8 else 0
    let last := eflags / 2 % 2 == 1
    if eflags ≥ 4 then
      none
    else if elen == 0 || elen < 0x10 || elen > remain ||
        elen % 8 != 0 then
      none
    else if last then
      if klen == 0 && elen == roundUp8 (0x10 + child) then
        some ⟨elen, .zero, true⟩
      else
        none
    else if klen < 0x42 || klen > elen - 0x10 then
      none
    else
      let fn := p + 0x10
      let nlen := (b (fn + 0x40)).toNat
      let nspace := b (fn + 0x41)
      if nlen > (klen - 0x42) / 2 then
        none
      else if 0x42 + nlen * 2 != klen then
        none
      else if elen != roundUp8 (0x10 + klen + child) then
        none
      else if nspace == 2 then
        some ⟨elen, entryFields b p [], false⟩
      else if nspace > 3 || nlen == 0 then
        none
      else
        match utf16ToUtf8 b (fn + 0x42) nlen vfsMaxName with
        | none => none
        | some name =>
            if name.isEmpty then none
            else some ⟨elen, entryFields b p name, false⟩

--
-- Walking a Directory
--

/- How a walk over some entries ends. -/
inductive WalkEnd where
  | failed
  | stopped
  | finished
  deriving DecidableEq

section Walk

variable {σ : Type}

/- A callback goes on as long as it returns true. -/
abbrev IdxCb (σ : Type) :=
  σ → NtfsEntry → NtfsM (Bool × σ)

/- The loop over the entries of a node from `p` to `e`. -/
def walkEntries
    (cb : IdxCb σ)
    (b : Buf)
    (e : Nat) :
    (fuel p : Nat) → σ → NtfsM (WalkEnd × σ)
  | 0, _, s => pure (.failed, s)
  | fuel + 1, p, s =>
      if p < e then
        match decodeIndexEntry b p (e - p) with
        | none => pure (.failed, s)
        | some d =>
            if d.last then
              pure (.finished, s)
            else if d.entry.name.isEmpty then
              walkEntries cb b e fuel (p + d.len) s
            else do
              let (more, s) ← cb s d.entry
              if more then
                walkEntries cb b e fuel (p + d.len) s
              else
                pure (.stopped, s)
      else
        pure (.failed, s)

/-
  A node with its header at `h` and `len` bytes from there;
  the bounds of its entries lie behind the header.
-/
def walkNode
    (cb : IdxCb σ)
    (b : Buf)
    (h len : Nat)
    (s : σ) : NtfsM (WalkEnd × σ) :=
  let first := b.get32 h
  let stop := b.get32 (h + 4)
  if first < 0x10 || stop < first || stop > len then
    pure (.failed, s)
  else
    walkEntries cb b (h + stop) (stop - first) (h + first) s

/- The letters of `INDX`. -/
def indxMagic : Buf :=
  Buf.ofList [0x49, 0x4E, 0x44, 0x58]

/- An index block as it was read. -/
def walkBlock
    (cb : IdxCb σ)
    (b : Buf)
    (blk : Nat)
    (s : σ) : NtfsM (WalkEnd × σ) :=
  if !b.same indxMagic 4 then
    pure (.failed, s)
  else
    match applyFixup b blk with
    | none => pure (.failed, s)
    | some b => walkNode cb b 0x18 (blk - 0x18) s

/- The loop over the blocks of the index allocation. -/
def walkBlocks
    (v : NtfsVol)
    (disk : NtfsDisk)
    (cb : IdxCb σ)
    (alloc : AttrAt)
    (size : Nat) :
    (fuel off : Nat) → σ → NtfsM (WalkEnd × σ)
  | 0, _, s => pure (.finished, s)
  | fuel + 1, off, s =>
      if off < size then do
        let (got, b) ←
          readAttr v disk alloc off Buf.zero v.indexSize
        if got < v.indexSize then
          pure (.failed, s)
        else
          match ← walkBlock cb b v.indexSize s with
          | (.finished, s) =>
              walkBlocks v disk cb alloc size fuel
                (off + v.indexSize) s
          | out => pure out
      else
        pure (.finished, s)

/- The index allocation, if there is one. -/
def walkAllocation
    (v : NtfsVol)
    (disk : NtfsDisk)
    (cb : IdxCb σ)
    (base : Buf)
    (s : σ) : NtfsM (WalkEnd × σ) := do
  match ← findAttrExt v disk base atIndexAlloc with
  | none =>
      let bad ← get
      pure (if bad then .failed else .finished, s)
  | some alloc =>
      if alloc.owner (alloc.attr + 0x08) == 0 then
        pure (.failed, s)
      else
        let size := alloc.owner.get32 (alloc.attr + 0x30)
        let blk := v.indexSize
        let clusters := size / v.clusterSize +
          (if size % v.clusterSize != 0 then 1 else 0)
        if blk == 0 || blk > ntfsIdxMax ||
            v.clusterSize == 0 || size % blk != 0 ||
            clusters > v.totalSectors / v.sectorsPerCluster
        then
          pure (.failed, s)
        else
          walkBlocks v disk cb alloc size size 0 s

/- The index root, if it is resident. -/
def walkRoot
    (v : NtfsVol)
    (disk : NtfsDisk)
    (cb : IdxCb σ)
    (base : Buf)
    (s : σ) : NtfsM (WalkEnd × σ) := do
  match ← findAttrExt v disk base atIndexRoot with
  | none => pure (.failed, s)
  | some root =>
      match residentValue root.owner root.attr v.recordSize
      with
      | none => pure (.failed, s)
      | some (val, vlen) =>
          if vlen < 0x20 then
            pure (.failed, s)
          else
            walkNode cb root.owner (val + 0x10) (vlen - 0x10)
              s

/- The end of `walk_index`, which sets the flag. -/
def walkResult :
    WalkEnd × σ → NtfsM (Bool × σ)
  | (.failed, s) => do
      setReadError
      pure (false, s)
  | (_, s) => pure (true, s)

/- `walk_index`. -/
def walkIndex
    (v : NtfsVol)
    (disk : NtfsDisk)
    (dirRef : Nat)
    (cb : IdxCb σ)
    (s : σ) : NtfsM (Bool × σ) := do
  match ← readMftRecord v disk dirRef with
  | none => pure (false, s)
  | some base =>
      match ← walkRoot v disk cb base s with
      | (.finished, s) => do
          let out ← walkAllocation v disk cb base s
          walkResult out
      | out => walkResult out

end Walk

--
-- Paths
--

/- `ntfs_file_size_fits`. -/
def ntfsFileSizeFits
    (v : NtfsVol)
    (disk : NtfsDisk)
    (ref : Nat) : NtfsM Bool := do
  match ← readMftRecord v disk ref with
  | none => pure false
  | some rec =>
      match ← findAttrExt v disk rec atData with
      | none =>
          let bad ← get
          pure !bad
      | some data =>
          if data.owner (data.attr + 0x08) == 0 then
            pure true
          else
            pure (data.owner.get32 (data.attr + 0x34) == 0 &&
              data.owner.get32 (data.attr + 0x3C) == 0)

/- The test of an entry's size in the two callbacks. -/
def sizeTooLarge
    (v : NtfsVol)
    (disk : NtfsDisk)
    (e : NtfsEntry) : NtfsM Bool :=
  if e.isDir then
    pure false
  else if e.sizeOverflow then
    pure true
  else do
    let fits ← ntfsFileSizeFits v disk e.mftRef
    pure !fits

/- `nfind_cb`, with what it has found. -/
def nfindCb
    (v : NtfsVol)
    (disk : NtfsDisk)
    (want : NtfsName) : IdxCb (Option NtfsEntry) :=
  fun s e =>
    if nameEqCi e.name want then do
      let large ← sizeTooLarge v disk e
      pure (false, some
        (if large then { e with sizeOverflow := true }
          else e))
    else
      pure (true, s)

/- The byte of a slash. -/
def slash : UInt8 := 0x2F

/- What a path leads to. -/
structure Resolved where
  ref : Nat
  isDir : Bool
  size : Nat

/-
  The loop of `ntfs_resolve` over the rest of the path,
  which does not start with a slash.
-/
def resolveFrom
    (v : NtfsVol)
    (disk : NtfsDisk) :
    (fuel : Nat) → NtfsName → Resolved → NtfsM (Option Resolved)
  | 0, _, cur => pure (some cur)
  | fuel + 1, path, cur =>
      if path.isEmpty then
        pure (some cur)
      else
        let comp := (path.takeWhile (· != slash)).take
          (vfsMaxName - 1)
        let rest := (path.drop comp.length).dropWhile
          (· == slash)
        if !cur.isDir then
          pure none
        else do
          let (_, found) ← walkIndex v disk cur.ref
            (nfindCb v disk comp) none
          match found with
          | none => pure none
          | some e =>
              if e.sizeOverflow then
                pure none
              else
                resolveFrom v disk fuel rest
                  ⟨e.mftRef, e.isDir, e.size⟩

/- `ntfs_resolve`. -/
def ntfsResolve
    (v : NtfsVol)
    (disk : NtfsDisk)
    (path : CStr) : NtfsM (Option Resolved) :=
  resolveFrom v disk path.length
    (path.bytes.dropWhile (· == slash)) ⟨mftRecRoot, true, 0⟩

--
-- Operations
--

/- The file's entry in a listing. -/
structure NtfsDirent where
  name : NtfsName
  size : Nat
  isDir : Bool
  isHidden : Bool
  isSystem : Bool
  isReadonly : Bool
  deriving DecidableEq

/- `nlist_t`. -/
structure NtfsList where
  index : Int
  out : Option NtfsDirent

/- The bytes of a dollar and of a dot. -/
def dollar : UInt8 := 0x24
def dot : UInt8 := 0x2E

/- Entries that a listing leaves out. -/
def hiddenEntry (e : NtfsEntry) : Bool :=
  (e.name.head? == some dollar && e.mftRef < 16) ||
    e.name == [dot]

/- `nlist_cb`. -/
def nlistCb
    (v : NtfsVol)
    (disk : NtfsDisk)
    (want : Int) : IdxCb NtfsList :=
  fun s e =>
    if hiddenEntry e then
      pure (true, s)
    else if s.index == want then do
      let large ← sizeTooLarge v disk e
      if large then do
        setReadError
        pure (false, s)
      else
        pure (false, { s with
          out := some
            { name := e.name
              size := e.size
              isDir := e.isDir
              isHidden := e.isHidden
              isSystem := e.isSystem
              isReadonly := e.isReadonly } })
    else
      pure (true, { s with index := s.index + 1 })

/- `ntfs_op_readdir`. -/
def ntfsOpReaddir
    (v : NtfsVol)
    (disk : NtfsDisk)
    (path : CStr)
    (index : Int) : NtfsM (Int × Option NtfsDirent) := do
  set false
  match ← ntfsResolve v disk path with
  | none => pure (-1, none)
  | some r =>
      if !r.isDir then
        pure (-1, none)
      else
        let (good, l) ← walkIndex v disk r.ref
          (nlistCb v disk index) ⟨0, none⟩
        let bad ← get
        if !good || bad then
          pure (-1, none)
        else
          pure (if l.out.isSome then 1 else 0, l.out)

/- `ntfs_op_read`: what it returns and leaves in the buffer. -/
def ntfsOpRead
    (v : NtfsVol)
    (disk : NtfsDisk)
    (path : CStr)
    (off : Nat)
    (dst : Buf)
    (max : Nat) : NtfsM (Int × Buf) := do
  match ← ntfsResolve v disk path with
  | none => pure (-1, dst)
  | some r =>
      if r.isDir then
        pure (-1, dst)
      else
        match ← readMftRecord v disk r.ref with
        | none => pure (-1, dst)
        | some rec =>
            match ← findAttrExt v disk rec atData with
            | none => pure (-1, dst)
            | some data => readAttr v disk data off dst max

end KvantOS.Ntfs
