import KvantOS.Ntfs.Volume

/-
  This file models how kernel/ntfs.c finds the attributes of
  a file and reads what they hold.

  A pointer into a record is an offset, next to the record
  that owns it.

  Key definitions include:
    * `findAttrIn`, `residentValue`, `findAttrExt`
    * `readAttr`
-/

namespace KvantOS.Ntfs

--
-- Finding Attributes
--

/- The types of attributes. -/
def atAttrList : Nat := 0x20
def atData : Nat := 0x80
def atIndexRoot : Nat := 0x90
def atIndexAlloc : Nat := 0xA0
def atEnd : Nat := 0xFFFFFFFF

/- The flags of an attribute that cannot be read. -/
def attrCompressed : Nat := 0x0001
def attrEncrypted : Nat := 0x4000

/- What a search for an attribute gives. -/
inductive AttrFound where
  | found (p : Nat)
  | absent
  | bad
  deriving DecidableEq

/- The loop of `find_attr_in` from offset `p` on. -/
def findAttrFrom
    (rec : Buf)
    (recSize type : Nat) :
    (fuel p skip : Nat) → AttrFound
  | 0, _, _ => .bad
  | fuel + 1, p, skip =>
      let remain := recSize - p
      if remain < 8 then
        .bad
      else if rec.get32 p == atEnd then
        .absent
      else
        let alen := rec.get32 (p + 4)
        if remain < 16 || alen < 16 || alen > remain ||
            rec (p + 8) > 1 ||
            (if rec (p + 8) != 0 then alen < 64
              else alen < 24) then
          .bad
        else if rec.get32 p == type then
          if skip == 0 then .found p
          else
            findAttrFrom rec recSize type fuel (p + alen)
              (skip - 1)
        else
          findAttrFrom rec recSize type fuel (p + alen) skip

/- `find_attr_in`. -/
def findAttrIn
    (rec : Buf)
    (recSize type skip : Nat) : AttrFound :=
  let first := rec.get16 0x14
  if first < 0x18 || first > recSize then .bad
  else findAttrFrom rec recSize type recSize first skip

/- `resident_value`: where the value lies and its length. -/
def residentValue
    (rec : Buf)
    (attr stop : Nat) : Option (Nat × Nat) :=
  if attr > stop || stop - attr < 24 || rec (attr + 8) != 0
  then
    none
  else
    let alen := rec.get32 (attr + 4)
    let vlen := rec.get32 (attr + 0x10)
    let off := rec.get16 (attr + 0x14)
    if alen < 24 || alen > stop - attr || off < 24 ||
        off > alen || vlen > alen - off then
      none
    else
      some (attr + off, vlen)

/- A search that sets `read_error` for a bad record. -/
def findAttr
    (v : NtfsVol)
    (rec : Buf)
    (type : Nat) : NtfsM (Option Nat) :=
  match findAttrIn rec v.recordSize type 0 with
  | .found p => pure (some p)
  | .absent => pure none
  | .bad => flagged none

/- An attribute and the record that owns it. -/
structure AttrAt where
  owner : Buf
  attr : Nat

/- The attribute in an extension record. -/
def findInExtension
    (v : NtfsVol)
    (disk : NtfsDisk)
    (type ref : Nat) : NtfsM (Option AttrAt) := do
  match ← readMftRecord v disk ref with
  | none => flagged none
  | some ext =>
      match ← findAttr v ext type with
      | none => pure none
      | some p => pure (some ⟨ext, p⟩)

/- The loop of `find_attr_ext` over the list of attributes. -/
def findInList
    (v : NtfsVol)
    (disk : NtfsDisk)
    (rec : Buf)
    (type val vlen : Nat) :
    (fuel off : Nat) → NtfsM (Option AttrAt)
  | 0, _ => pure none
  | fuel + 1, off =>
      if off ≥ vlen then
        pure none
      else if vlen - off < 0x1A then
        flagged none
      else
        let elen := rec.get16 (val + off + 4)
        if elen < 0x1A || elen > vlen - off then
          flagged none
        else
          let ref := rec.get32 (val + off + 0x10)
          if rec.get32 (val + off) == type && ref != 0 then
            findInExtension v disk type ref
          else
            findInList v disk rec type val vlen fuel
              (off + elen)

/- `find_attr_ext`. -/
def findAttrExt
    (v : NtfsVol)
    (disk : NtfsDisk)
    (rec : Buf)
    (type : Nat) : NtfsM (Option AttrAt) := do
  match ← findAttr v rec type with
  | some p => pure (some ⟨rec, p⟩)
  | none =>
      match ← findAttr v rec atAttrList with
      | none => pure none
      | some list =>
          if rec (list + 0x08) != 0 then
            pure none
          else
            match residentValue rec list v.recordSize with
            | none => flagged none
            | some (val, vlen) =>
                findInList v disk rec type val vlen vlen 0

--
-- Reading Attributes
--

/- A word of 32 bits as a signed number. -/
def signedWord (n : Nat) : Int :=
  if n < 2 ^ 31 then n else (n : Int) - 2 ^ 32

/-
  The loop of `read_attr` after `done` bytes; what it has
  read and how much.
-/
def readRuns
    (v : NtfsVol)
    (disk : NtfsDisk)
    (runs : List NtfsRun)
    (off dataWant : Nat) :
    (fuel done : Nat) → Buf → NtfsM (Buf × Nat)
  | 0, done, dst => pure (dst, done)
  | fuel + 1, done, dst =>
      if done < dataWant then
        let pos := off + done
        let vcn := pos / v.clusterSize
        let inner := pos % v.clusterSize
        match runLookup runs vcn with
        | none => pure (dst, done)
        | some place =>
            let avail := v.clusterSize - inner
            let n :=
              if dataWant - done > avail then avail
              else dataWant - done
            if place.sparse then
              readRuns v disk runs off dataWant fuel
                (done + n) (dst.fill done 0 n)
            else do
              match ← readClusters v disk place.lcn 1 with
              | none => pure (dst, done)
              | some b =>
                  readRuns v disk runs off dataWant fuel
                    (done + n) (dst.copy done (b.drop inner) n)
      else
        pure (dst, done)

/- The resident branch of `read_attr`. -/
def readResident
    (v : NtfsVol)
    (a : AttrAt)
    (off : Nat)
    (dst : Buf)
    (max : Nat) : Int × Buf :=
  match residentValue a.owner a.attr v.recordSize with
  | none => (-1, dst)
  | some (val, vlen) =>
      if off ≥ vlen then
        (0, dst)
      else
        let n := if vlen - off > max then max else vlen - off
        (signedWord n,
          dst.copy 0 (a.owner.drop (val + off)) n)

/- The other branch, with the sizes of the stream. -/
def readNonResident
    (v : NtfsVol)
    (disk : NtfsDisk)
    (a : AttrAt)
    (alen real initialized off : Nat)
    (dst : Buf)
    (max : Nat) : NtfsM (Int × Buf) :=
  if off ≥ real then
    pure (0, dst)
  else
    let want := if real - off > max then max else real - off
    if want == 0 then
      pure (0, dst)
    else if off ≥ initialized then
      pure (signedWord want, dst.fill 0 0 want)
    else
      let dataWant :=
        if want > initialized - off then initialized - off
        else want
      let runOff := a.owner.get16 (a.attr + 0x20)
      let startVcn := a.owner.get32 (a.attr + 0x10)
      if runOff < 64 || runOff > alen then
        pure (-1, dst)
      else
        let runs := parseRunlist a.owner (a.attr + runOff)
          (a.attr + alen) startVcn ntfsMaxRuns
        if runs.isEmpty then
          pure (-1, dst)
        else do
          let (dst, done) ← readRuns v disk runs off dataWant
            dataWant 0 dst
          if done != dataWant then
            pure (signedWord done, dst)
          else
            pure (signedWord want,
              if dataWant < want then
                dst.fill done 0 (want - done)
              else
                dst)

/- `read_attr`: what it returns and leaves in the buffer. -/
def readAttr
    (v : NtfsVol)
    (disk : NtfsDisk)
    (a : AttrAt)
    (off : Nat)
    (dst : Buf)
    (max : Nat) : NtfsM (Int × Buf) :=
  let available := v.recordSize - a.attr
  if available < 16 then
    pure (-1, dst)
  else
    let alen := a.owner.get32 (a.attr + 4)
    if alen < 24 || alen > available ||
        (a.owner (a.attr + 8) != 0 && alen < 64) then
      pure (-1, dst)
    else
      let flags := a.owner.get16 (a.attr + 0x0C)
      if flags &&& (attrCompressed ||| attrEncrypted) != 0
      then
        pure (-2, dst)
      else if a.owner (a.attr + 8) == 0 then
        pure (readResident v a off dst max)
      else
        let real := a.owner.get32 (a.attr + 0x30)
        let realHi := a.owner.get32 (a.attr + 0x34)
        let initialized := a.owner.get32 (a.attr + 0x38)
        let initializedHi := a.owner.get32 (a.attr + 0x3C)
        if realHi != 0 || initializedHi != 0 then
          pure (-2, dst)
        else if initialized > real then
          pure (-1, dst)
        else
          readNonResident v disk a alen real initialized off
            dst max

end KvantOS.Ntfs
