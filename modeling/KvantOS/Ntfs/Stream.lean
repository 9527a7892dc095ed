import KvantOS.Ntfs.Reading
import KvantOS.Ntfs.Index
import Mathlib

/-
  This file says what the unnamed data stream of a file is,
  over all records that describe it, and when a read of the
  file gives its bytes.

  The driver reads the first attribute for data that it
  finds. It may be of another stream or only a part, so a
  read is exact for the bytes that this attribute describes.

  Key definitions include:
    * `FileAttr`, `Extents`
    * `NtfsStream`, `StreamOf`
    * `ReadExact`, `Reached`

  Key theorems include:
    * `readAttr_exact_iff`, `ntfsOpRead_exact_iff`
    * `ntfsOpRead_short`
-/

namespace KvantOS.Ntfs

--
-- Attributes of a File
--

/- A header at `p` that lies in the record. -/
structure AttrHeader
    (rec : Buf)
    (size p : Nat) : Prop where
  type : rec.get32 p ≠ atEnd
  inside : p + rec.get32 (p + 4) ≤ size
  length : 24 ≤ rec.get32 (p + 4)
  resident : rec (p + 8) = 0 ∨
    (rec (p + 8) = 1 ∧ 64 ≤ rec.get32 (p + 4))

instance
    {rec : Buf}
    {size p : Nat} :
    Decidable (AttrHeader rec size p) :=
  decidable_of_iff
    (rec.get32 p ≠ atEnd ∧
      p + rec.get32 (p + 4) ≤ size ∧
      24 ≤ rec.get32 (p + 4) ∧
      (rec (p + 8) = 0 ∨
        (rec (p + 8) = 1 ∧ 64 ≤ rec.get32 (p + 4))))
    ⟨fun ⟨hType, hIn, hLength, hResident⟩ =>
      ⟨hType, hIn, hLength, hResident⟩,
    fun h => ⟨h.type, h.inside, h.length, h.resident⟩⟩

/- The attributes of one record. -/
inductive AttrIn
    (rec : Buf)
    (size : Nat) : Nat → Prop
  | first
      (hFirst : 0x18 ≤ rec.get16 0x14)
      (hHere : AttrHeader rec size (rec.get16 0x14)) :
      AttrIn rec size (rec.get16 0x14)
  | next
      {p : Nat}
      (hIn : AttrIn rec size p)
      (hHere : AttrHeader rec size
        (p + rec.get32 (p + 4))) :
      AttrIn rec size (p + rec.get32 (p + 4))

theorem AttrIn.header
    {rec : Buf}
    {size p : Nat}
    (hIn : AttrIn rec size p) :
    AttrHeader rec size p := by
  cases hIn with
  | first _ hHere => exact hHere
  | next _ hHere => exact hHere

/- The entries of a list of attributes in `rec`. -/
inductive ListedAt
    (rec : Buf)
    (val vlen : Nat) : Nat → Prop
  | first
      (hSome : 0 < vlen) :
      ListedAt rec val vlen 0
  | next
      {off : Nat}
      (hOff : ListedAt rec val vlen off)
      (hLength : 0x1A ≤ rec.get16 (val + off + 4))
      (hMore : off + rec.get16 (val + off + 4) < vlen) :
      ListedAt rec val vlen
        (off + rec.get16 (val + off + 4))

/- Reads of a record do not depend on the flag. -/
def mftRecord
    (v : NtfsVol)
    (disk : NtfsDisk)
    (num : Nat) : Option Buf :=
  (readMftRecord v disk num false).1

/-
  The attributes of a file: those of its base record, and
  those of the records that its resident list names.
-/
inductive FileAttr
    (v : NtfsVol)
    (disk : NtfsDisk)
    (base : Buf) : AttrAt → Prop
  | base
      {p : Nat}
      (hIn : AttrIn base v.recordSize p) :
      FileAttr v disk base ⟨base, p⟩
  | listed
      {list off p : Nat}
      {ext : Buf}
      (hList : AttrIn base v.recordSize list)
      (hType : base.get32 list = atAttrList)
      (hResident : base (list + 8) = 0)
      (hListed : ListedAt base
        (list + base.get16 (list + 0x14))
        (base.get32 (list + 0x10)) off)
      (hRecord : mftRecord v disk
        (base.get32 (list + base.get16 (list + 0x14) +
          off + 0x10)) = some ext)
      (hIn : AttrIn ext v.recordSize p) :
      FileAttr v disk base ⟨ext, p⟩

/-
  An attribute of the stream with some type and name, which
  is neither compressed nor encrypted.
-/
structure StreamAttr
    (v : NtfsVol)
    (disk : NtfsDisk)
    (base : Buf)
    (type : Nat)
    (name : List Nat)
    (a : AttrAt) : Prop where
  ofFile : FileAttr v disk base a
  type : a.owner.get32 a.attr = type
  name : utf16Units a.owner
    (a.attr + a.owner.get16 (a.attr + 0x0A))
    (a.owner (a.attr + 9)).toNat = name
  plain : a.owner.get16 (a.attr + 0x0C) &&&
    (attrCompressed ||| attrEncrypted) = 0

theorem FileAttr.header
    {v : NtfsVol}
    {disk : NtfsDisk}
    {base : Buf}
    {a : AttrAt}
    (hAttr : FileAttr v disk base a) :
    AttrHeader a.owner v.recordSize a.attr := by
  cases hAttr with
  | base hIn => exact hIn.header
  | listed _ _ _ _ _ hIn => exact hIn.header

--
-- Streams
--

/-
  A stream of data: its size, how much of it was ever
  written, its bytes, and the attribute that begins it.
-/
structure NtfsStream where
  size : Nat
  init : Nat
  bytes : Nat → UInt8
  first : AttrAt

/- The clusters that some runs have together. -/
def runClusters (runs : List NtfsRun) : Nat :=
  (runs.map NtfsRun.len).sum

/-
  Attributes that describe the clusters of the stream from
  `vcn` on, one after the other.
-/
inductive Extents
    (v : NtfsVol)
    (disk : NtfsDisk)
    (base : Buf)
    (type : Nat)
    (name : List Nat) :
    (vcn : Nat) → List AttrAt → List NtfsRun → Prop
  | nil
      {vcn : Nat} :
      Extents v disk base type name vcn [] []
  | cons
      {vcn : Nat}
      {a : AttrAt}
      {as : List AttrAt}
      {runs more : List NtfsRun}
      (hAttr : StreamAttr v disk base type name a)
      (hOut : a.owner (a.attr + 8) = 1)
      (hVcn : a.owner.get64 (a.attr + 0x10) = vcn)
      (hOff : 64 ≤ a.owner.get16 (a.attr + 0x20))
      (hRuns : RunsAt a.owner
        (a.attr + a.owner.get32 (a.attr + 4))
        (a.attr + a.owner.get16 (a.attr + 0x20)) 0 vcn runs)
      (hRest : Extents v disk base type name
        (vcn + runClusters runs) as more) :
      Extents v disk base type name vcn (a :: as) (runs ++ more)

/-
  The bytes of a stream with these runs: holes and what was
  never written are zero, all others lie on the disk.
-/
structure StreamBytes
    (v : NtfsVol)
    (disk : NtfsDisk)
    (runs : List NtfsRun)
    (init : Nat)
    (bytes : Nat → UInt8) : Prop where
  covered : ∀ pos, pos < init →
    ∃ r ∈ runs, r.Covers (pos / v.clusterSize)
  holes : ∀ pos r, pos < init → r ∈ runs →
    r.Covers (pos / v.clusterSize) → r.sparse = true →
    bytes pos = 0
  data : ∀ pos r x, pos < init → r ∈ runs →
    r.Covers (pos / v.clusterSize) → r.sparse = false →
    clusterByte v disk
      (r.lcn + (pos / v.clusterSize - r.vcn))
      (pos % v.clusterSize) = some x →
    bytes pos = x
  tail : ∀ pos, init ≤ pos → bytes pos = 0

/-
  A stream of the file with some record, whole in one
  record or over several.
-/
inductive StreamOf
    (v : NtfsVol)
    (disk : NtfsDisk)
    (base : Buf)
    (type : Nat)
    (name : List Nat) : NtfsStream → Prop
  | resident
      {s : NtfsStream}
      (hAttr : StreamAttr v disk base type name s.first)
      (hIn : s.first.owner (s.first.attr + 8) = 0)
      (hSize : s.size =
        s.first.owner.get32 (s.first.attr + 0x10))
      (hInit : s.init = s.size)
      (hOff : 24 ≤ s.first.owner.get16
        (s.first.attr + 0x14))
      (hEnd : s.first.owner.get16 (s.first.attr + 0x14) +
          s.size ≤
        s.first.owner.get32 (s.first.attr + 4))
      (hBytes : ∀ i, i < s.size →
        s.bytes i = s.first.owner (s.first.attr +
          s.first.owner.get16 (s.first.attr + 0x14) + i)) :
      StreamOf v disk base type name s
  | extents
      {s : NtfsStream}
      {others : List AttrAt}
      {runs : List NtfsRun}
      (hExtents : Extents v disk base type name 0
        (s.first :: others) runs)
      (hSize : s.size =
        s.first.owner.get64 (s.first.attr + 0x30))
      (hInit : s.init =
        s.first.owner.get64 (s.first.attr + 0x38))
      (hOrder : s.init ≤ s.size)
      (hBytes : StreamBytes v disk runs s.init s.bytes) :
      StreamOf v disk base type name s

/- The unnamed data stream of a file. -/
abbrev UnnamedData
    (v : NtfsVol)
    (disk : NtfsDisk)
    (base : Buf)
    (s : NtfsStream) : Prop :=
  StreamOf v disk base atData [] s

--
-- Exact Reads
--

/- A read failed, or gave the bytes of the stream. -/
def ReadExact
    (s : NtfsStream)
    (off max : Nat)
    (out : Int × Buf) : Prop :=
  out.1 < 0 ∨
    (out.1 = ((min max (s.size - off) : Nat) : Int) ∧
      ∀ i, i < min max (s.size - off) →
        out.2 i = s.bytes (off + i))

/- The runs that an attribute itself describes. -/
def ownRuns (a : AttrAt) : List NtfsRun :=
  parseRunlist a.owner
    (a.attr + a.owner.get16 (a.attr + 0x20))
    (a.attr + a.owner.get32 (a.attr + 4))
    (a.owner.get32 (a.attr + 0x10)) ntfsMaxRuns

/-
  The attribute that begins the stream reaches all written
  bytes that are asked for, up to those that a result of 31
  bits could count; or its run list is refused.
-/
def Reached
    (v : NtfsVol)
    (disk : NtfsDisk)
    (s : NtfsStream)
    (off max : Nat) : Prop :=
  s.first.owner (s.first.attr + 8) = 0 ∨
    ownRuns s.first = [] ∨
    ∀ i, i < min max (s.size - off) → i < s.init - off →
      i < 2 ^ 31 →
      Readable v disk (ownRuns s.first) (off + i)

theorem negOne_lt_zero : (-1 : Int) < 0 := by decide

variable {n : Nat}

theorem signedWord_of_lt
    (hLt : n < 2 ^ 31) :
    signedWord n = n :=
  if_pos hLt

theorem signedWord_neg
    (hLe : 2 ^ 31 ≤ n)
    (hLt : n < 2 ^ 32) :
    signedWord n < 0 := by
  unfold signedWord
  rw [if_neg (by omega)]
  omega

section Reads

variable {v : NtfsVol} {disk : NtfsDisk} {base : Buf}
variable {type : Nat} {name : List Nat} {s : NtfsStream}

variable {out : Buf}

/- A result that is right or that wraps around. -/
theorem readExact_signedWord
    {off max : Nat}
    (hSize : s.size < 2 ^ 32)
    (hBytes : ∀ i, i < min max (s.size - off) →
      out i = s.bytes (off + i)) :
    ReadExact s off max
      (signedWord (min max (s.size - off)), out) := by
  by_cases hLt : min max (s.size - off) < 2 ^ 31
  · exact .inr ⟨signedWord_of_lt hLt, hBytes⟩
  · exact .inl (signedWord_neg (by omega) (by omega))

variable {runs : List NtfsRun}

/- What the driver reads through its own runs is right. -/
theorem bytes_of_holds
    {pos : Nat}
    {a : AttrAt}
    {x : UInt8}
    (hBytes : StreamBytes v disk runs s.init s.bytes)
    (hSub : ∀ r ∈ ownRuns a, r ∈ runs)
    (hFit : RunsFit (ownRuns a))
    (hPos : pos < s.init)
    (hHolds : Holds v disk (ownRuns a) pos x) :
    x = s.bytes pos := by
  rcases hHolds with ⟨place, hLookup, hByte⟩
  rcases runLookup_some hFit hLookup with
    ⟨r, hMem, hCovers, hSparse, hLcn⟩
  have hRun := hSub r hMem
  rcases hByte with ⟨hHole, hZero⟩ | ⟨hPlain, hDisk⟩
  · rw [hSparse] at hHole
    rw [hZero, hBytes.holes pos r hPos hRun hCovers hHole]
  · rw [hSparse] at hPlain
    rw [hLcn hPlain] at hDisk
    exact (hBytes.data pos r x hPos hRun hCovers hPlain
      hDisk).symm

/- The own runs of the first extent are the stream's. -/
theorem ownRuns_sub
    {as : List AttrAt}
    {a : AttrAt}
    (hExtents : Extents v disk base type name 0 (a :: as)
      runs) :
    (∀ r ∈ ownRuns a, r ∈ runs) ∧ RunsFit (ownRuns a) := by
  cases hExtents with
  | @cons _ _ _ own more hAttr hOut hVcn hOff hRuns hRest =>
      have hLow : a.owner.get32 (a.attr + 0x10) = 0 := by
        have h64 := a.owner.get64_eq (a.attr + 0x10)
        omega
      cases hParse : parseRuns a.owner
          (a.attr + a.owner.get32 (a.attr + 4)) ntfsMaxRuns
          (a.attr + a.owner.get32 (a.attr + 4) -
            (a.attr + a.owner.get16 (a.attr + 0x20)))
          (a.attr + a.owner.get16 (a.attr + 0x20)) 0 0 0 with
      | none =>
          have hNone : ownRuns a = [] := by
            rw [ownRuns, parseRunlist, hLow, hParse]
            rfl
          rw [hNone]
          exact ⟨by simp, by simp [RunsFit]⟩
      | some parsed =>
          have hOwn : ownRuns a = parsed := by
            rw [ownRuns, parseRunlist, hLow, hParse]
            rfl
          rcases parseRuns_sound hParse with ⟨hSound, hFit⟩
          rw [hOwn, hSound.unique hRuns]
          refine ⟨fun r hMem => List.mem_append_left _ hMem,
            ?_⟩
          rw [← hSound.unique hRuns]
          exact hFit

--
-- Reading an Attribute
--

variable {a : AttrAt}

theorem readAttr_resident
    (hHeader : AttrHeader a.owner v.recordSize a.attr)
    (hPlain : a.owner.get16 (a.attr + 0x0C) &&&
      (attrCompressed ||| attrEncrypted) = 0)
    (hIn : a.owner (a.attr + 8) = 0)
    (off : Nat)
    (dst : Buf)
    (max : Nat)
    (e : Bool) :
    readAttr v disk a off dst max e =
      (readResident v a off dst max, e) := by
  have hInside := hHeader.inside
  have hLength := hHeader.length
  unfold readAttr
  dsimp only
  rw [if_neg (by omega), if_neg (by simp [hIn]; omega),
    if_neg (by simp [hPlain]), if_pos (by simp [hIn])]
  rfl

theorem readAttr_nonResident
    (hHeader : AttrHeader a.owner v.recordSize a.attr)
    (hPlain : a.owner.get16 (a.attr + 0x0C) &&&
      (attrCompressed ||| attrEncrypted) = 0)
    (hOut : a.owner (a.attr + 8) = 1)
    (hReal : a.owner.get32 (a.attr + 0x34) = 0)
    (hInit : a.owner.get32 (a.attr + 0x3C) = 0)
    (hOrder : a.owner.get32 (a.attr + 0x38) ≤
      a.owner.get32 (a.attr + 0x30))
    (off : Nat)
    (dst : Buf)
    (max : Nat) :
    readAttr v disk a off dst max =
      readNonResident v disk a (a.owner.get32 (a.attr + 4))
        (a.owner.get32 (a.attr + 0x30))
        (a.owner.get32 (a.attr + 0x38)) off dst max := by
  have hInside := hHeader.inside
  have hLong : 64 ≤ a.owner.get32 (a.attr + 4) := by
    rcases hHeader.resident with hIn | ⟨-, hLong⟩
    · rw [hOut] at hIn
      cases hIn
    · exact hLong
  unfold readAttr
  dsimp only
  rw [if_neg (by omega), if_neg (by simp; omega),
    if_neg (by simp [hPlain]), if_neg (by simp [hOut]),
    if_neg (by simp [hReal, hInit]),
    if_neg (Nat.not_lt_of_le hOrder)]

/- A resident stream is always read exactly. -/
theorem readResident_exact
    {voff : Nat}
    (hHeader : AttrHeader a.owner v.recordSize a.attr)
    (hIn : a.owner (a.attr + 8) = 0)
    (hVoff : a.owner.get16 (a.attr + 0x14) = voff)
    (hLow : 24 ≤ voff)
    (hEnd : voff + s.size ≤ a.owner.get32 (a.attr + 4))
    (hSize : s.size = a.owner.get32 (a.attr + 0x10))
    (hBytes : ∀ i, i < s.size →
      s.bytes i = a.owner (a.attr + voff + i))
    (off : Nat)
    (dst : Buf)
    (max : Nat) :
    ReadExact s off max (readResident v a off dst max) := by
  have hInside := hHeader.inside
  have hBound : s.size < 2 ^ 32 :=
    hSize ▸ a.owner.get32_lt _
  have hValue : residentValue a.owner a.attr v.recordSize =
      some (a.attr + voff, s.size) := by
    unfold residentValue
    dsimp only
    rw [if_neg (by simp [hIn]; omega), hVoff, ← hSize,
      if_neg (by simp; omega)]
  unfold readResident
  rw [hValue]
  dsimp only
  by_cases hPast : off ≥ s.size
  · rw [if_pos hPast]
    have hNone : min max (s.size - off) = 0 := by omega
    refine .inr ⟨by rw [hNone]; rfl, ?_⟩
    intro i hI
    omega
  · rw [if_neg hPast]
    have hMin : (if s.size - off > max then max
        else s.size - off) = min max (s.size - off) := by
      split <;> omega
    rw [hMin]
    apply readExact_signedWord hBound
    intro i hI
    rw [Buf.copy_inside (Nat.zero_le _) (by omega),
      hBytes (off + i) (by omega), Buf.drop, Nat.sub_zero,
      Nat.add_assoc]

/- The sum of a short read that the caller takes for good. -/
theorem not_readExact_of_short
    {off max d : Nat}
    (hShort : d < min max (s.size - off))
    (hLt : d < 2 ^ 31) :
    ¬ReadExact s off max (signedWord d, out) := by
  rw [ReadExact, signedWord_of_lt hLt]
  rintro (hNeg | ⟨hSame, -⟩)
  · omega
  · omega

theorem RunsAt.inside
    {b : Buf}
    {stop p vcn : Nat}
    {lcn : Int}
    (hRuns : RunsAt b stop p lcn vcn runs) :
    p < stop := by
  cases hRuns with
  | last hIn _ => exact hIn
  | run hIn _ _ _ _ => exact hIn

/- The loop of `read_attr` and the zeroes after it. -/
theorem readRuns_exact_iff
    {runs : List NtfsRun}
    (hGood : v.Good)
    (hBytes : StreamBytes v disk runs s.init s.bytes)
    (hSub : ∀ r ∈ ownRuns s.first, r ∈ runs)
    (hFit : RunsFit (ownRuns s.first))
    (hSize : s.size < 2 ^ 32)
    {off max want dataWant : Nat}
    (hWant : want = min max (s.size - off))
    (hData : dataWant = min want (s.init - off))
    (dst : Buf)
    (e : Bool) :
    ReadExact s off max
        ((do
          let (dst, done) ← readRuns v disk (ownRuns s.first)
            off dataWant dataWant 0 dst
          if done != dataWant then
            pure (signedWord done, dst)
          else
            pure (signedWord want,
              if dataWant < want then
                dst.fill done 0 (want - done)
              else
                dst) : NtfsM (Int × Buf)) e).1 ↔
      ∀ i, i < dataWant → i < 2 ^ 31 →
        Readable v disk (ownRuns s.first) (off + i) := by
  rcases @readRuns_spec v disk (ownRuns s.first) hGood off
    dataWant dataWant 0 (Nat.le_of_eq (Nat.sub_zero _))
    (Nat.zero_le _) dst e with
    ⟨out, d, e', hRun, hRead, -⟩
  have hMost := hRead.atMost
  rw [run_bind, hRun]
  dsimp only
  by_cases hShort : d < dataWant
  · rw [if_pos (by simp; omega), run_pure]
    constructor
    · intro hExact i hI hLt
      apply hRead.readable i (Nat.zero_le _)
      apply Nat.lt_of_not_le
      intro hLe
      exact not_readExact_of_short (by omega) (by omega)
        hExact
    · intro hAll
      refine .inl (signedWord_neg ?_ (by omega))
      apply Nat.le_of_not_lt
      intro hLt
      exact hRead.ends hShort (hAll d hShort hLt)
  · have hDone : d = dataWant := Nat.le_antisymm hMost
      (Nat.le_of_not_lt hShort)
    rw [if_neg (by simp [hDone]), run_pure]
    constructor
    · intro _ i hI _
      exact hRead.readable i (Nat.zero_le _) (by omega)
    · intro _
      have hRight : ∀ i, i < want →
          (if dataWant < want then
            out.fill d 0 (want - d) else out) i =
            s.bytes (off + i) := by
        intro i hI
        by_cases hRead' : i < dataWant
        · have hByte := bytes_of_holds hBytes hSub hFit
            (by omega)
            (hRead.holds i (Nat.zero_le _) (by omega))
          rw [← hByte]
          split
          · exact if_neg (by omega)
          · rfl
        · rw [if_pos (by omega), hBytes.tail (off + i)
            (by omega)]
          exact if_pos (by omega)
      subst hWant
      exact readExact_signedWord hSize hRight

/- A read of a stream with clusters. -/
theorem readNonResident_exact_iff
    {others : List AttrAt}
    (hGood : v.Good)
    (hExtents : Extents v disk base type name 0
      (s.first :: others) runs)
    (hBytes : StreamBytes v disk runs s.init s.bytes)
    (hOrder : s.init ≤ s.size)
    (hSize : s.size < 2 ^ 32)
    (off max : Nat)
    (dst : Buf)
    (e : Bool) :
    ReadExact s off max
        (readNonResident v disk s.first
          (s.first.owner.get32 (s.first.attr + 4)) s.size
          s.init off dst max e).1 ↔
      ownRuns s.first = [] ∨
        ∀ i, i < min max (s.size - off) → i < s.init - off →
          i < 2 ^ 31 →
          Readable v disk (ownRuns s.first) (off + i) := by
  rcases ownRuns_sub hExtents with ⟨hSub, hFit⟩
  have hEmpty : min max (s.size - off) = 0 →
      ∀ buf, ReadExact s off max (0, buf) := by
    intro hNone buf
    refine .inr ⟨by rw [hNone]; rfl, ?_⟩
    intro i hI
    omega
  unfold readNonResident
  by_cases hPast : off ≥ s.size
  · rw [if_pos hPast]
    exact iff_of_true (hEmpty (by omega) dst)
      (.inr fun i hI => by omega)
  · rw [if_neg hPast]
    have hMin : (if s.size - off > max then max
        else s.size - off) = min max (s.size - off) := by
      split <;> omega
    dsimp only
    rw [hMin]
    by_cases hNone : min max (s.size - off) = 0
    · rw [if_pos (by rw [hNone]; rfl)]
      exact iff_of_true (hEmpty hNone dst)
        (.inr fun i hI => by omega)
    · rw [if_neg (by simpa using hNone)]
      by_cases hTail : off ≥ s.init
      · rw [if_pos hTail]
        refine iff_of_true (readExact_signedWord hSize ?_)
          (.inr fun i hI hInit => by omega)
        intro i hI
        rw [hBytes.tail (off + i) (by omega)]
        exact if_pos (by omega)
      · rw [if_neg hTail]
        have hOffset : 64 ≤ s.first.owner.get16
              (s.first.attr + 0x20) ∧
            s.first.owner.get16 (s.first.attr + 0x20) ≤
              s.first.owner.get32 (s.first.attr + 4) := by
          cases hExtents with
          | cons hAttr hOut hVcn hOff hRuns hRest =>
              have hInside := hRuns.inside
              omega
        rw [if_neg (by simp; omega)]
        change ReadExact s off max
          ((if (ownRuns s.first).isEmpty then _ else _ :
            NtfsM (Int × Buf)) e).1 ↔ _
        by_cases hRefused : ownRuns s.first = []
        · rw [if_pos (by rw [hRefused]; rfl)]
          exact iff_of_true (.inl negOne_lt_zero)
            (.inl hRefused)
        · rw [if_neg (by simpa using hRefused)]
          have hData : (if min max (s.size - off) >
                s.init - off then s.init - off
              else min max (s.size - off)) =
              min (min max (s.size - off))
                (s.init - off) := by
            split <;> omega
          have hLoop := @readRuns_exact_iff v disk s runs
            hGood hBytes hSub hFit hSize off max _ _ rfl
            hData dst e
          refine hLoop.trans ?_
          simp only [hRefused, false_or]
          constructor
          · intro hAll i hI hInit hLt
            exact hAll i (by omega) hLt
          · intro hAll i hI hLt
            exact hAll i (by omega) (by omega) hLt

/- A read of the attribute that begins the stream. -/
theorem readAttr_exact_iff
    (hGood : v.Good)
    (hStream : StreamOf v disk base type name s)
    (hSize : s.size < 2 ^ 32)
    (off max : Nat)
    (dst : Buf)
    (e : Bool) :
    ReadExact s off max
        (readAttr v disk s.first off dst max e).1 ↔
      Reached v disk s off max := by
  cases hStream with
  | resident hAttr hIn hLength hInit hOff hEnd hBytes =>
      have hHeader := hAttr.ofFile.header
      rw [readAttr_resident hHeader hAttr.plain hIn]
      exact iff_of_true (readResident_exact hHeader hIn rfl
        hOff hEnd hLength hBytes off dst max) (.inl hIn)
  | extents hExtents hLength hInit hOrder hBytes =>
      have hReal :
          s.first.owner.get64 (s.first.attr + 0x30) =
            s.first.owner.get32 (s.first.attr + 0x30) +
              2 ^ 32 *
                s.first.owner.get32 (s.first.attr + 0x34) :=
        s.first.owner.get64_eq _
      have hWritten :
          s.first.owner.get64 (s.first.attr + 0x38) =
            s.first.owner.get32 (s.first.attr + 0x38) +
              2 ^ 32 *
                s.first.owner.get32 (s.first.attr + 0x3C) :=
        s.first.owner.get64_eq _
      have hLow : s.size =
          s.first.owner.get32 (s.first.attr + 0x30) := by
        omega
      have hLowInit : s.init =
          s.first.owner.get32 (s.first.attr + 0x38) := by
        omega
      have hIff := readNonResident_exact_iff hGood hExtents
        hBytes hOrder hSize off max dst e
      cases hExtents with
      | cons hAttr hOut hVcn hOff hRuns hRest =>
          rw [readAttr_nonResident hAttr.ofFile.header
            hAttr.plain hOut (by omega) (by omega) (by omega),
            ← hLow, ← hLowInit, hIff, Reached]
          have hNot : s.first.owner (s.first.attr + 8) ≠ 0 :=
            by
            rw [hOut]
            decide
          simp only [hNot, false_or]

end Reads

/- The attribute for data that the driver finds first. -/
def firstData
    (v : NtfsVol)
    (disk : NtfsDisk)
    (base : Buf) : Option AttrAt :=
  (findAttrExt v disk base atData false).1

/-
  A read of a file is exact where the attribute that begins
  its unnamed stream reaches, if the driver finds no other
  attribute before it.
-/
theorem ntfsOpRead_exact_iff
    {v : NtfsVol}
    {disk : NtfsDisk}
    {path : CStr}
    {e : Bool}
    {r : Resolved}
    {base : Buf}
    {s : NtfsStream}
    (hGood : v.Good)
    (hPath : (ntfsResolve v disk path e).1 = some r)
    (hFile : r.isDir = false)
    (hBase : mftRecord v disk r.ref = some base)
    (hStream : UnnamedData v disk base s)
    (hSize : s.size < 2 ^ 32)
    (hFirst : ∀ a, firstData v disk base = some a →
      a = s.first)
    (off max : Nat)
    (dst : Buf) :
    ReadExact s off max
        (ntfsOpRead v disk path off dst max e).1 ↔
      firstData v disk base = none ∨
        Reached v disk s off max := by
  have hRecord : ∀ e,
      (readMftRecord v disk r.ref e).1 = some base :=
    fun e => ((sticky_readMftRecord v disk r.ref).fst
      e).trans hBase
  have hFound : ∀ e, (findAttrExt v disk base atData e).1 =
      firstData v disk base :=
    (sticky_findAttrExt v disk base atData).fst
  unfold ntfsOpRead
  rw [run_bind, hPath]
  dsimp only
  rw [if_neg (by simp [hFile]), run_bind, hRecord]
  dsimp only
  rw [run_bind, hFound]
  cases hData : firstData v disk base with
  | none => exact iff_of_true (.inl negOne_lt_zero) (.inl rfl)
  | some a =>
      rw [hFirst a hData]
      simp only [reduceCtorEq, false_or]
      exact readAttr_exact_iff hGood hStream hSize off max
        dst _

--
-- A Stream in Two Records
--

/- Sectors of a byte, clusters and records of a sector. -/
def smallVol : NtfsVol where
  lba := 0
  bytesPerSector := 512
  sectorsPerCluster := 1
  clusterSize := 512
  recordSize := 512
  indexSize := 512
  mftLcn := 8
  totalSectors := 64
  partitionSectors := 64
  mftRuns := [⟨0, 8, 16, false⟩]

theorem smallVol_good : smallVol.Good := by
  constructor <;> decide

/- Words of 16 and of 32 bits at some places. -/
def layout
    (halves words : List (Nat × Nat)) : Buf :=
  words.foldl (fun b w => b.put32 w.1 w.2)
    (halves.foldl (fun b h => b.put16 h.1 h.2) Buf.zero)

/- A record, with the sequence number in its only tail. -/
def smallRecord
    (halves words : List (Nat × Nat)) : Buf :=
  layout
    ([(0x04, 0x30), (0x06, 2), (0x14, 0x38),
      (0x30, 0x1234), (510, 0x1234)] ++ halves)
    ((0x00, 0x454C4946) :: words)

/- The root directory has a file `x` in record 6. -/
def rootRecord : Buf :=
  smallRecord
    [(0x4C, 24), (0x78, 88), (0x7A, 68), (0xC0, 0x0101),
      (0xC2, 0x78), (0xD0, 16), (0xD4, 2)]
    [(0x38, atIndexRoot), (0x3C, 160), (0x48, 136),
      (0x60, 16), (0x64, 120), (0x70, 6), (0xD8, atEnd)]

/- A list names records 6 and 7, and the first cluster. -/
def fileRecord : Buf :=
  smallRecord
    [(0x4C, 24), (0x54, 32), (0x74, 32), (0x98, 1),
      (0xB0, 64), (0xD0, 0x0111), (0xD2, 32)]
    [(0x38, atAttrList), (0x3C, 88), (0x48, 64),
      (0x50, atData), (0x60, 6), (0x70, atData), (0x78, 1),
      (0x80, 7), (0x90, atData), (0x94, 72), (0xC0, 1024),
      (0xC8, 1024), (0xD8, atEnd)]

/- The second cluster, in record 7. -/
def extensionRecord : Buf :=
  smallRecord
    [(0x40, 1), (0x58, 64), (0x78, 0x0111), (0x7A, 40)]
    [(0x38, atData), (0x3C, 72), (0x48, 1), (0x80, atEnd)]

/- The disk with these records and the two clusters. -/
def smallDisk : NtfsDisk :=
  fun lba =>
    some (
      if lba = 13 then rootRecord
      else if lba = 14 then fileRecord
      else if lba = 15 then extensionRecord
      else if lba = 32 then fun _ => 0xAA
      else if lba = 40 then fun _ => 0xBB
      else Buf.zero)

def smallPath : CStr :=
  ⟨[0x2F, 0x78], by decide⟩

/- The records as the driver reads them. -/
def smallBase : Buf :=
  (mftRecord smallVol smallDisk 6).getD Buf.zero

def smallExtension : Buf :=
  (mftRecord smallVol smallDisk 7).getD Buf.zero

/- What the file holds. -/
def smallStream : NtfsStream where
  size := 1024
  init := 1024
  bytes := fun pos =>
    if pos < 512 then 0xAA
    else if pos < 1024 then 0xBB
    else 0
  first := ⟨smallBase, 0x90⟩

theorem some_getD
    {x : Option Buf}
    (hSome : x.isSome = true) :
    x = some (x.getD Buf.zero) := by
  cases x with
  | none => cases hSome
  | some b => rfl

/- The words of the list of attributes. -/
abbrev ListWords (b : Buf) : Prop :=
  b.get16 0x14 = 0x38 ∧ AttrHeader b 512 0x38 ∧
    b.get32 0x38 = atAttrList ∧ b (0x38 + 8) = 0 ∧
    b.get16 (0x38 + 0x14) = 24 ∧
    b.get32 (0x38 + 0x10) = 64 ∧
    b.get16 (0x38 + 24 + 0 + 4) = 32 ∧
    b.get32 (0x38 + 24 + (0 + 32) + 0x10) = 7 ∧
    0x38 + b.get32 (0x38 + 4) = 0x90

/- The words of a part of the data with one run. -/
abbrev DataWords
    (b : Buf)
    (p vcn lcn : Nat) : Prop :=
  AttrHeader b 512 p ∧ b.get32 p = atData ∧
    utf16Units b (p + b.get16 (p + 0x0A))
      (b (p + 9)).toNat = [] ∧
    b.get16 (p + 0x0C) &&&
      (attrCompressed ||| attrEncrypted) = 0 ∧
    b (p + 8) = 1 ∧ b.get64 (p + 0x10) = vcn ∧
    64 ≤ b.get16 (p + 0x20) ∧
    parseRuns b (p + b.get32 (p + 4)) ntfsMaxRuns 64
      (p + b.get16 (p + 0x20)) 0 0 vcn =
        some [⟨vcn, lcn, 1, false⟩]

theorem smallDisk_words :
    ListWords smallBase ∧
      DataWords smallBase 0x90 0 32 ∧
      smallBase.get64 (0x90 + 0x30) = 1024 ∧
      smallBase.get64 (0x90 + 0x38) = 1024 ∧
      smallExtension.get16 0x14 = 0x38 ∧
      DataWords smallExtension 0x38 1 40 := by
  decide +kernel

/- Both records are there, and a read ends in between. -/
theorem smallDisk_reads :
    (mftRecord smallVol smallDisk 6).isSome = true ∧
      (mftRecord smallVol smallDisk 7).isSome = true ∧
      (ntfsResolve smallVol smallDisk smallPath false).1.map
        (fun r => (r.isDir, r.ref)) = some (false, 6) ∧
      findAttrIn smallBase smallVol.recordSize atData 0 =
        .found 0x90 ∧
      (ntfsOpRead smallVol smallDisk smallPath 0 Buf.zero
        1024 false).1.1 = 512 := by
  decide +kernel

theorem mftRecord_smallBase :
    mftRecord smallVol smallDisk 6 = some smallBase :=
  some_getD smallDisk_reads.1

variable {b : Buf} {p vcn lcn : Nat}

theorem DataWords.attr
    (hWords : DataWords b p vcn lcn)
    (hOf : FileAttr smallVol smallDisk smallBase ⟨b, p⟩) :
    StreamAttr smallVol smallDisk smallBase atData []
      ⟨b, p⟩ := by
  rcases hWords with ⟨-, hType, hName, hPlain, -⟩
  exact ⟨hOf, hType, hName, hPlain⟩

theorem DataWords.extents
    {as : List AttrAt}
    {runs : List NtfsRun}
    (hWords : DataWords b p vcn lcn)
    (hOf : FileAttr smallVol smallDisk smallBase ⟨b, p⟩)
    (hRest : Extents smallVol smallDisk smallBase atData []
      (vcn + 1) as runs) :
    Extents smallVol smallDisk smallBase atData [] vcn
      (⟨b, p⟩ :: as) ([⟨vcn, lcn, 1, false⟩] ++ runs) := by
  have hAttr := DataWords.attr hWords hOf
  rcases hWords with
    ⟨-, -, -, -, hOut, hVcn, hOff, hParse⟩
  exact .cons hAttr hOut hVcn hOff
    (parseRuns_sound hParse).1 hRest

theorem smallBase_list :
    AttrIn smallBase 512 0x38 := by
  rcases smallDisk_words with ⟨⟨hFirst, hHere, -⟩, -⟩
  rw [← hFirst] at hHere ⊢
  refine .first ?_ hHere
  rw [hFirst]
  decide

theorem smallBase_attr :
    FileAttr smallVol smallDisk smallBase
      ⟨smallBase, 0x90⟩ := by
  rcases smallDisk_words with
    ⟨⟨-, -, -, -, -, -, -, -, hNext⟩, ⟨hHere, -⟩, -⟩
  rw [← hNext] at hHere ⊢
  exact .base (.next smallBase_list hHere)

theorem smallExtension_attr :
    FileAttr smallVol smallDisk smallBase
      ⟨smallExtension, 0x38⟩ := by
  rcases smallDisk_words with
    ⟨⟨-, -, hType, hIn, hValue, hLength, hEntry, hRef, -⟩,
      -, -, -, hFirst, ⟨hHere, -⟩⟩
  have hAttr : AttrIn smallExtension 512 0x38 := by
    rw [← hFirst] at hHere ⊢
    refine .first ?_ hHere
    rw [hFirst]
    decide
  have hListed : ListedAt smallBase (0x38 + 24) 64
      (0 + 32) := by
    rw [← hEntry]
    refine .next (.first (by decide)) ?_ ?_ <;>
      rw [hEntry] <;> decide
  rw [← hValue, ← hLength] at hListed
  refine .listed smallBase_list hType hIn hListed ?_ hAttr
  · rw [hValue, hRef]
    exact some_getD smallDisk_reads.2.1

/- The two runs, one in each record. -/
theorem smallStream_extents :
    Extents smallVol smallDisk smallBase atData [] 0
      [⟨smallBase, 0x90⟩, ⟨smallExtension, 0x38⟩]
      ([⟨0, 32, 1, false⟩] ++
        ([⟨1, 40, 1, false⟩] ++ [])) := by
  rcases smallDisk_words with
    ⟨-, hBase, -, -, -, hExtension⟩
  exact DataWords.extents hBase smallBase_attr
    (DataWords.extents hExtension smallExtension_attr .nil)

theorem smallStream_bytes :
    StreamBytes smallVol smallDisk
      [⟨0, 32, 1, false⟩, ⟨1, 40, 1, false⟩] 1024
      smallStream.bytes := by
  have hCluster : smallVol.clusterSize = 512 := rfl
  have hByte : ∀ lcn i, i < 512 →
      clusterByte smallVol smallDisk lcn i =
        (smallDisk lcn).map (fun b => b i) := by
    intro lcn i hI
    have hLba : smallVol.lba + lcn *
        smallVol.sectorsPerCluster *
          (smallVol.bytesPerSector / 512) + i / 512 =
        lcn := by
      change 0 + lcn * 1 * (512 / 512) + i / 512 = lcn
      omega
    rw [clusterByte, diskByte, hLba, Nat.mod_eq_of_lt hI]
  constructor
  · intro pos hPos
    by_cases hLow : pos < 512
    · refine ⟨⟨0, 32, 1, false⟩, by simp, ?_, ?_⟩ <;>
        rw [hCluster] <;> dsimp only <;> omega
    · refine ⟨⟨1, 40, 1, false⟩, by simp, ?_, ?_⟩ <;>
        rw [hCluster] <;> dsimp only <;> omega
  · intro pos r hPos hMem hCovers hSparse
    simp only [List.mem_cons, List.not_mem_nil,
      or_false] at hMem
    rcases hMem with rfl | rfl <;> cases hSparse
  · intro pos r x hPos hMem hCovers hPlain hDisk
    have hMod := Nat.mod_lt pos (show 0 < 512 by decide)
    rw [hCluster] at hCovers
    rw [hCluster, hByte _ _ hMod] at hDisk
    simp only [List.mem_cons, List.not_mem_nil,
      or_false] at hMem
    rcases hMem with rfl | rfl
    · have hVcn : pos / 512 = 0 := by
        have hHigh := hCovers.2
        dsimp only at hHigh
        omega
      rw [hVcn] at hDisk
      cases hDisk
      exact if_pos (by omega)
    · have hVcn : pos / 512 = 1 := by
        have hLow := hCovers.1
        have hHigh := hCovers.2
        dsimp only at hLow hHigh
        omega
      rw [hVcn] at hDisk
      cases hDisk
      change (if pos < 512 then 0xAA
        else if pos < 1024 then 0xBB else 0) = _
      rw [if_neg (by omega), if_pos (by omega)]
      rfl
  · intro pos hPos
    change (if pos < 512 then 0xAA
      else if pos < 1024 then 0xBB else 0) = _
    rw [if_neg (by omega), if_neg (by omega)]

theorem smallStream_unnamed :
    UnnamedData smallVol smallDisk smallBase
      smallStream :=
  .extents smallStream_extents
    smallDisk_words.2.2.1.symm smallDisk_words.2.2.2.1.symm
    (by decide) smallStream_bytes

theorem smallPath_resolves :
    ∃ r, (ntfsResolve smallVol smallDisk smallPath
      false).1 = some r ∧ r.isDir = false ∧ r.ref = 6 := by
  have hFields := smallDisk_reads.2.2.1
  rcases Option.map_eq_some_iff.mp hFields with
    ⟨r, hR, hPair⟩
  injection hPair with hDir hRef
  exact ⟨r, hR, hDir, hRef⟩

/- The part of the file in its base record is read. -/
theorem ntfsOpRead_exact_iff_small :
    ReadExact smallStream 0 512
        (ntfsOpRead smallVol smallDisk smallPath 0 Buf.zero
          512 false).1 ↔
      firstData smallVol smallDisk smallBase = none ∨
        Reached smallVol smallDisk smallStream 0 512 := by
  rcases smallPath_resolves with ⟨r, hPath, hFile, hRef⟩
  apply ntfsOpRead_exact_iff smallVol_good hPath hFile
    (hRef ▸ mftRecord_smallBase) smallStream_unnamed
    (by decide)
  intro a hA
  have hFind := smallDisk_reads.2.2.2.1
  rw [firstData, findAttrExt_found smallVol smallDisk hFind]
    at hA
  cases hA
  rfl

/- A read across both records is short, and no error. -/
theorem ntfsOpRead_short :
    ∃ r, (ntfsResolve smallVol smallDisk smallPath
        false).1 = some r ∧
      r.isDir = false ∧
      mftRecord smallVol smallDisk r.ref = some smallBase ∧
      smallVol.Good ∧
      UnnamedData smallVol smallDisk smallBase
        smallStream ∧
      ¬ReadExact smallStream 0 1024
        (ntfsOpRead smallVol smallDisk smallPath 0 Buf.zero
          1024 false).1 := by
  rcases smallPath_resolves with ⟨r, hPath, hFile, hRef⟩
  refine ⟨r, hPath, hFile, hRef ▸ mftRecord_smallBase,
    smallVol_good, smallStream_unnamed, ?_⟩
  have hShort := smallDisk_reads.2.2.2.2
  rintro (hNeg | ⟨hSame, -⟩)
  · rw [hShort] at hNeg
    exact absurd hNeg (by decide)
  · rw [hShort] at hSame
    exact absurd hSame (by decide)

end KvantOS.Ntfs
