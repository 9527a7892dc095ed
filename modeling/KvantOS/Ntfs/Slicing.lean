import KvantOS.Ntfs.Stream
import KvantOS.Ntfs.RunLists

/-
  This file proves what `read_attr` does with any attribute
  of a record: it gives bytes that the attribute describes,
  all that were asked for when it describes a whole stream,
  and it reads the record only.

  Key definitions include:
    * `WholeAttr`, `Described`
    * `RunsTaken`, `ReadsSucceed`

  Key theorems include:
    * `readNonResident_slice`, `readAttr_slice`
    * `readAttr_exact`
-/

namespace KvantOS.Ntfs

/- The size of the value or of the stream, in 32 bits. -/
def attrSize (a : AttrAt) : Nat :=
  if a.owner (a.attr + 8) == 0 then
    a.owner.get32 (a.attr + 0x10)
  else
    a.owner.get32 (a.attr + 0x30)

/- `x` is what the attribute has at place `pos`. -/
def Described
    (v : NtfsVol)
    (disk : NtfsDisk)
    (a : AttrAt)
    (pos : Nat)
    (x : UInt8) : Prop :=
  if a.owner (a.attr + 8) = 0 then
    x = a.owner
      (a.attr + a.owner.get16 (a.attr + 0x14) + pos)
  else if a.owner.get32 (a.attr + 0x38) ≤ pos then
    x = 0
  else
    Holds v disk (ownRuns a) pos x

/-
  An attribute inside its record that is not compressed or
  encrypted and describes its whole stream: it is resident,
  or its run list starts with the first cluster of the
  stream and has the whole size.
-/
inductive WholeAttr
    (v : NtfsVol)
    (disk : NtfsDisk)
    (a : AttrAt)
    (s : NtfsStream) : Prop where
  | resident
      (hInside : a.attr + a.owner.get32 (a.attr + 4) ≤
        v.recordSize)
      (hPlain : a.owner.get16 (a.attr + 0x0C) &&&
        (attrCompressed ||| attrEncrypted) = 0)
      (hIn : a.owner (a.attr + 8) = 0)
      (hOff : 24 ≤ a.owner.get16 (a.attr + 0x14))
      (hEnd : a.owner.get16 (a.attr + 0x14) + s.size ≤
        a.owner.get32 (a.attr + 4))
      (hSize : s.size = a.owner.get32 (a.attr + 0x10))
      (hBytes : ∀ i, i < s.size →
        s.bytes i = a.owner
          (a.attr + a.owner.get16 (a.attr + 0x14) + i))
  | clusters
      {runs : List NtfsRun}
      (hInside : a.attr + a.owner.get32 (a.attr + 4) ≤
        v.recordSize)
      (hPlain : a.owner.get16 (a.attr + 0x0C) &&&
        (attrCompressed ||| attrEncrypted) = 0)
      (hOut : a.owner (a.attr + 8) ≠ 0)
      (hLong : 64 ≤ a.owner.get32 (a.attr + 4))
      (hSize : s.size = a.owner.get64 (a.attr + 0x30))
      (hInit : s.init = a.owner.get64 (a.attr + 0x38))
      (hOrder : s.init ≤ s.size)
      (hSmall : s.size < 2 ^ 32)
      (hVcn : a.owner.get64 (a.attr + 0x10) = 0)
      (hOff : 64 ≤ a.owner.get16 (a.attr + 0x20))
      (hRuns : RunsAt a.owner
        (a.attr + a.owner.get32 (a.attr + 4))
        (a.attr + a.owner.get16 (a.attr + 0x20)) 0 0 runs)
      (hCovers : s.size ≤ runClusters runs * v.clusterSize)
      (hBytes : StreamBytes v disk runs s.init s.bytes)

/-
  A run list is one that the driver takes: it has fields of
  at most four bytes, sums in range, and not too many runs.
-/
def RunsTaken (a : AttrAt) : Prop :=
  a.owner (a.attr + 8) ≠ 0 →
    ∃ runs, GoodRuns a.owner
        (a.attr + a.owner.get32 (a.attr + 4))
        (a.attr + a.owner.get16 (a.attr + 0x20)) 0 0 runs ∧
      runs.length ≤ ntfsMaxRuns

/-
  The clusters that a read of `max` bytes from `off` on needs
  can be read.
-/
def ReadsSucceed
    (v : NtfsVol)
    (disk : NtfsDisk)
    (a : AttrAt)
    (init off max : Nat) : Prop :=
  a.owner (a.attr + 8) ≠ 0 →
    ∀ runs, RunsAt a.owner
        (a.attr + a.owner.get32 (a.attr + 4))
        (a.attr + a.owner.get16 (a.attr + 0x20)) 0 0 runs →
      ∀ pos, off ≤ pos → pos < off + max → pos < init →
        ∀ r ∈ runs, r.Covers (pos / v.clusterSize) →
          r.sparse = false →
          (clusterSectors v disk
            (r.lcn + (pos / v.clusterSize - r.vcn)) 1).isSome =
              true

--
-- Reading Any Attribute
--

section Slices

variable {v : NtfsVol} {disk : NtfsDisk}

/-
  The first `n` bytes of the buffer are given by some rule,
  and the others are as they were.
-/
structure Slice
    (rule : Nat → UInt8 → Prop)
    (off n : Nat)
    (dst out : Buf) : Prop where
  given : ∀ i, i < n → rule (off + i) (out i)
  kept : ∀ i, n ≤ i → out i = dst i

/- What the driver gives of a stream with clusters. -/
def clusterRule
    (v : NtfsVol)
    (disk : NtfsDisk)
    (runs : List NtfsRun)
    (init pos : Nat)
    (x : UInt8) : Prop :=
  if init ≤ pos then x = 0 else Holds v disk runs pos x

variable {runs : List NtfsRun}

/-
  A read of an attribute with clusters is refused, or comes
  to its end or to a cluster that cannot be read.
-/
theorem readNonResident_slice
    (hGood : v.Good)
    {a : AttrAt}
    {alen : Nat}
    (real init : Nat)
    (hRuns : parseRunlist a.owner
      (a.attr + a.owner.get16 (a.attr + 0x20))
      (a.attr + alen) (a.owner.get32 (a.attr + 0x10))
      ntfsMaxRuns = runs)
    (off max : Nat)
    (dst : Buf)
    (e : Bool) :
    (off < init ∧
      (a.owner.get16 (a.attr + 0x20) < 64 ∨
        alen < a.owner.get16 (a.attr + 0x20) ∨
        runs = []) ∧
      (readNonResident v disk a alen real init off dst max
        e).1 = (-1, dst)) ∨
    ∃ n out, n ≤ min max (real - off) ∧
      (readNonResident v disk a alen real init off dst max
        e).1 = (signedWord n, out) ∧
      Slice (clusterRule v disk runs init) off n dst out ∧
      (n < min max (real - off) → off + n < init ∧
        ¬ Readable v disk runs (off + n)) := by
  unfold readNonResident
  by_cases hPast : off ≥ real
  · rw [if_pos hPast]
    exact .inr ⟨0, dst, Nat.zero_le _, rfl,
      ⟨nofun, fun _ _ => rfl⟩, fun h => by omega⟩
  · rw [if_neg hPast]
    have hMin : (if real - off > max then max
        else real - off) = min max (real - off) := by
      split <;> omega
    dsimp only
    rw [hMin]
    generalize hWant : min max (real - off) = want
    by_cases hNone : want = 0
    · rw [if_pos (by simp [hNone])]
      exact .inr ⟨0, dst, Nat.zero_le _, rfl,
        ⟨nofun, fun _ _ => rfl⟩, fun h => by omega⟩
    · rw [if_neg (by simpa using hNone)]
      by_cases hTail : off ≥ init
      · rw [if_pos hTail]
        refine .inr ⟨want, dst.fill 0 0 want,
          Nat.le_refl _, rfl, ⟨?_, ?_⟩, fun h => by omega⟩
        · intro i hI
          unfold clusterRule
          rw [if_pos (by omega)]
          exact if_pos (by omega)
        · intro i hI
          exact if_neg (by omega)
      · rw [if_neg hTail]
        by_cases hPlace : a.owner.get16 (a.attr + 0x20) < 64 ∨
            a.owner.get16 (a.attr + 0x20) > alen
        · rw [if_pos (by simpa using hPlace)]
          refine .inl ⟨by omega, ?_, rfl⟩
          rcases hPlace with hLow | hHigh
          · exact .inl hLow
          · exact .inr (.inl hHigh)
        · rw [if_neg (by simpa using hPlace), hRuns]
          by_cases hRefused : runs = []
          · rw [if_pos (by simp [hRefused])]
            exact .inl ⟨by omega, .inr (.inr hRefused), rfl⟩
          · rw [if_neg (by simpa using hRefused)]
            generalize hData : (if want > init - off then
              init - off else want) = dataWant
            have hLess : dataWant = min want (init - off) := by
              split at hData <;> omega
            rcases @readRuns_spec v disk runs hGood off
              dataWant dataWant 0
              (Nat.le_of_eq (Nat.sub_zero _))
              (Nat.zero_le _) dst e with
              ⟨out, d, e', hRun, hRead, -⟩
            have hMost := hRead.atMost
            rw [run_bind, hRun]
            dsimp only
            by_cases hShort : d < dataWant
            · rw [if_pos (by simp; omega), run_pure]
              refine .inr ⟨d, out, by omega, rfl, ⟨?_, ?_⟩,
                fun _ => ⟨by omega, hRead.ends hShort⟩⟩
              · intro i hI
                unfold clusterRule
                rw [if_neg (by omega)]
                exact hRead.holds i (Nat.zero_le _) hI
              · intro i hI
                exact hRead.outside i (.inr hI)
            · have hDone : d = dataWant := by omega
              rw [if_neg (by simp [hDone]), run_pure]
              refine .inr ⟨want, _, Nat.le_refl _, rfl,
                ⟨?_, ?_⟩, fun h => by omega⟩
              · intro i hI
                unfold clusterRule
                by_cases hWritten : i < dataWant
                · have hHolds := hRead.holds i
                    (Nat.zero_le _) (by omega)
                  rw [if_neg (by omega)]
                  split
                  · have hSame : out.fill d 0 (want - d) i =
                        out i := if_neg (by omega)
                    rw [hSame]
                    exact hHolds
                  · exact hHolds
                · rw [if_pos (by omega), if_pos (by omega)]
                  exact if_pos (by omega)
              · intro i hI
                have hOut := hRead.outside i
                  (.inr (by omega))
                split
                · have hSame : out.fill d 0 (want - d) i =
                      out i := if_neg (by omega)
                  rw [hSame]
                  exact hOut
                · exact hOut

theorem readResident_slice
    {a : AttrAt}
    {val vlen : Nat}
    (hValue : residentValue a.owner a.attr v.recordSize =
      some (val, vlen))
    (off : Nat)
    (dst : Buf)
    (max : Nat) :
    ∃ out,
      readResident v a off dst max =
        (signedWord (min max (vlen - off)), out) ∧
      Slice (fun pos x => x = a.owner (val + pos)) off
        (min max (vlen - off)) dst out := by
  unfold readResident
  rw [hValue]
  dsimp only
  by_cases hPast : off ≥ vlen
  · have hNone : min max (vlen - off) = 0 := by omega
    rw [if_pos hPast, hNone]
    exact ⟨dst, rfl, nofun, fun _ _ => rfl⟩
  · have hMin : (if vlen - off > max then max
        else vlen - off) = min max (vlen - off) := by
      split <;> omega
    rw [if_neg hPast, hMin]
    refine ⟨_, rfl, ?_, ?_⟩
    · intro i hI
      rw [Buf.copy_inside (Nat.zero_le _) (by omega),
        Buf.drop, Nat.sub_zero, Nat.add_assoc]
    · intro i hI
      exact Buf.copy_outside (by omega)

/- The tests of `read_attr`, and what they leave to read. -/
structure AttrOk
    (v : NtfsVol)
    (a : AttrAt) : Prop where
  inside : a.attr + a.owner.get32 (a.attr + 4) ≤
    v.recordSize
  length : 24 ≤ a.owner.get32 (a.attr + 4)
  plain : a.owner.get16 (a.attr + 0x0C) &&&
    (attrCompressed ||| attrEncrypted) = 0

structure StreamOk (a : AttrAt) : Prop where
  out : a.owner (a.attr + 8) ≠ 0
  long : 64 ≤ a.owner.get32 (a.attr + 4)
  real : a.owner.get32 (a.attr + 0x34) = 0
  written : a.owner.get32 (a.attr + 0x3C) = 0
  order : a.owner.get32 (a.attr + 0x38) ≤
    a.owner.get32 (a.attr + 0x30)

theorem readAttr_inside
    {a : AttrAt}
    (hOk : AttrOk v a)
    (hIn : a.owner (a.attr + 8) = 0)
    (off : Nat)
    (dst : Buf)
    (max : Nat)
    (e : Bool) :
    readAttr v disk a off dst max e =
      (readResident v a off dst max, e) := by
  have hInside := hOk.inside
  have hLength := hOk.length
  unfold readAttr
  dsimp only
  rw [if_neg (by omega), if_neg (by simp [hIn]; omega),
    if_neg (by simp [hOk.plain]), if_pos (by simp [hIn])]
  rfl

theorem readAttr_stream
    {a : AttrAt}
    (hOk : AttrOk v a)
    (hStream : StreamOk a)
    (off : Nat)
    (dst : Buf)
    (max : Nat) :
    readAttr v disk a off dst max =
      readNonResident v disk a (a.owner.get32 (a.attr + 4))
        (a.owner.get32 (a.attr + 0x30))
        (a.owner.get32 (a.attr + 0x38)) off dst max := by
  have hInside := hOk.inside
  have hLong := hStream.long
  have hOrder := hStream.order
  unfold readAttr
  dsimp only
  rw [if_neg (by omega), if_neg (by simp; omega),
    if_neg (by simp [hOk.plain]),
    if_neg (by simpa using hStream.out),
    if_neg (by simp [hStream.real, hStream.written]),
    if_neg (by omega)]

/- Any attribute is of one of the two kinds or refused. -/
theorem readAttr_cases
    (a : AttrAt)
    (off : Nat)
    (dst : Buf)
    (max : Nat)
    (e : Bool) :
    (∃ r : Int, r < 0 ∧
      readAttr v disk a off dst max e = ((r, dst), e)) ∨
    (AttrOk v a ∧
      (a.owner (a.attr + 8) = 0 ∨ StreamOk a)) := by
  unfold readAttr
  dsimp only
  split
  · exact .inl ⟨-1, by decide, rfl⟩
  · rename_i hRoom
    split
    · exact .inl ⟨-1, by decide, rfl⟩
    · rename_i hLength
      simp only [Bool.or_eq_true, Bool.and_eq_true,
        decide_eq_true_eq, bne_iff_ne, not_or, not_and]
        at hLength
      rcases hLength with ⟨⟨hShort, hInside⟩, hLong⟩
      split
      · exact .inl ⟨-2, by decide, rfl⟩
      · rename_i hPlain
        have hOk : AttrOk v a :=
          ⟨by omega, by omega, by simpa using hPlain⟩
        split
        · rename_i hIn
          exact .inr ⟨hOk, .inl (by simpa using hIn)⟩
        · rename_i hOut
          split
          · exact .inl ⟨-2, by decide, rfl⟩
          · rename_i hHigh
            simp only [Bool.or_eq_true, bne_iff_ne, not_or,
              not_not] at hHigh
            split
            · exact .inl ⟨-1, by decide, rfl⟩
            · rename_i hOrder
              have hNe : a.owner (a.attr + 8) ≠ 0 := by
                simpa using hOut
              exact .inr ⟨hOk, .inr ⟨hNe,
                Nat.le_of_not_lt (hLong hNe), hHigh.1,
                hHigh.2, Nat.le_of_not_lt hOrder⟩⟩

/-
  A read is refused and changes nothing, or gives bytes that
  the attribute describes, and no more than are there.
-/
def Sliced
    (v : NtfsVol)
    (disk : NtfsDisk)
    (a : AttrAt)
    (off max : Nat)
    (dst : Buf)
    (r : Int × Buf) : Prop :=
  (r.1 < 0 ∧ r.2 = dst) ∨
    ∃ n, AttrOk v a ∧
      n ≤ min max (attrSize a - off) ∧
      r.1 = signedWord n ∧
      Slice (Described v disk a) off n dst r.2

theorem readAttr_slice
    (hGood : v.Good)
    (a : AttrAt)
    (off max : Nat)
    (dst : Buf)
    (e : Bool) :
    Sliced v disk a off max dst
      (readAttr v disk a off dst max e).1 := by
  rcases @readAttr_cases v disk a off dst max e with
    ⟨r, hNeg, hRun⟩ | ⟨hOk, hIn | hStream⟩
  · rw [hRun]
    exact .inl ⟨hNeg, rfl⟩
  · rw [readAttr_inside hOk hIn]
    cases hValue : residentValue a.owner a.attr v.recordSize
      with
    | none =>
        unfold readResident
        rw [hValue]
        exact .inl ⟨negOne_lt_zero, rfl⟩
    | some value =>
        rcases readResident_slice hValue off dst max with
          ⟨out, hRun, hSlice⟩
        unfold residentValue at hValue
        simp only [Option.ite_none_left_eq_some,
          Option.some.injEq] at hValue
        rcases hValue with ⟨-, -, rfl⟩
        rw [hRun]
        refine .inr ⟨_, hOk, ?_, rfl, ?_, hSlice.kept⟩
        · rw [attrSize, if_pos (by simp [hIn])]
        · intro i hI
          rw [Described, if_pos hIn]
          exact hSlice.given i hI
  · rw [readAttr_stream hOk hStream]
    rcases readNonResident_slice hGood _ _
      (show _ = ownRuns a from rfl) off max dst e with
      ⟨-, -, hRun⟩ | ⟨n, out, hMost, hRun, hSlice, -⟩
    · rw [hRun]
      exact .inl ⟨negOne_lt_zero, rfl⟩
    · rw [hRun]
      refine .inr ⟨n, hOk, ?_, rfl, ?_, hSlice.kept⟩
      · rw [attrSize, if_neg (by simpa using hStream.out)]
        exact hMost
      · intro i hI
        rw [Described, if_neg hStream.out]
        exact hSlice.given i hI

/- A run that has a cluster is found, and can be read. -/
theorem readable_of_covers
    {pos : Nat}
    (hTiles : Tiles 0 runs)
    (hFit : RunsFit runs)
    (hCovered : ∃ r ∈ runs, r.Covers (pos / v.clusterSize))
    (hReads : ∀ r ∈ runs, r.Covers (pos / v.clusterSize) →
      r.sparse = false →
      (clusterSectors v disk
        (r.lcn + (pos / v.clusterSize - r.vcn)) 1).isSome =
          true) :
    Readable v disk runs pos := by
  rcases hCovered with ⟨r, hMem, hCovers⟩
  have hFound := (runLookup_tiles hTiles hFit
    (pos / v.clusterSize)).found r hMem hCovers
  refine ⟨_, hFound, ?_⟩
  cases hSparse : r.sparse with
  | true => exact .inl (by simp [NtfsRun.place, hSparse])
  | false =>
      have hRead := hReads r hMem hCovers hSparse
      refine .inr ?_
      rw [NtfsRun.place, hSparse]
      exact hRead

theorem readAttr_whole
    (hGood : v.Good)
    {a : AttrAt}
    {s : NtfsStream}
    {off max : Nat}
    (hWhole : WholeAttr v disk a s)
    (hTaken : RunsTaken a)
    (hReads : ReadsSucceed v disk a s.init off max)
    (hCount : min max (s.size - off) < 2 ^ 31)
    (dst : Buf)
    (e : Bool) :
    (readAttr v disk a off dst max e).1.1 =
        (min max (s.size - off) : Nat) ∧
      Slice (fun pos x => x = s.bytes pos) off
        (min max (s.size - off)) dst
        (readAttr v disk a off dst max e).1.2 := by
  cases hWhole with
  | resident hInside hPlain hIn hOff hEnd hSize hBytes =>
      have hOk : AttrOk v a := ⟨hInside, by omega, hPlain⟩
      have hValue : residentValue a.owner a.attr
          v.recordSize = some (a.attr +
            a.owner.get16 (a.attr + 0x14), s.size) := by
        unfold residentValue
        dsimp only
        rw [if_neg (by simp [hIn]; omega), ← hSize,
          if_neg (by simp; omega)]
      rcases readResident_slice hValue off dst max with
        ⟨out, hRun, hSlice⟩
      rw [readAttr_inside hOk hIn, hRun]
      refine ⟨signedWord_of_lt hCount, ?_, hSlice.kept⟩
      intro i hI
      rw [hBytes (off + i) (by omega)]
      exact hSlice.given i hI
  | @clusters runs hInside hPlain hOut hLong hSize hInit
      hOrder hSmall hVcn hOff hRuns hCovers hBytes =>
      have hReal : a.owner.get64 (a.attr + 0x30) =
          a.owner.get32 (a.attr + 0x30) +
            2 ^ 32 * a.owner.get32 (a.attr + 0x34) :=
        a.owner.get64_eq _
      have hWritten : a.owner.get64 (a.attr + 0x38) =
          a.owner.get32 (a.attr + 0x38) +
            2 ^ 32 * a.owner.get32 (a.attr + 0x3C) :=
        a.owner.get64_eq _
      have hStart := a.owner.get64_eq (a.attr + 0x10)
      have hOk : AttrOk v a := ⟨hInside, by omega, hPlain⟩
      have hStream : StreamOk a :=
        ⟨hOut, hLong, by omega, by omega, by omega⟩
      have hLow : a.owner.get32 (a.attr + 0x30) = s.size := by
        omega
      have hLowInit : a.owner.get32 (a.attr + 0x38) =
          s.init := by
        omega
      have hVcnLow : a.owner.get32 (a.attr + 0x10) = 0 := by
        omega
      rcases hTaken hOut with ⟨taken, hTaken, hFew⟩
      have hParse := (parseRuns_iff (Nat.le_refl _)
        (Nat.zero_le ntfsMaxRuns) (by decide) taken).mpr
          ⟨hTaken, by omega⟩
      rcases parseRuns_sound hParse with ⟨hRunsAt, hFit⟩
      rcases hRunsAt.unique hRuns with rfl
      have hOwn : ownRuns a = taken := by
        unfold ownRuns parseRunlist
        rw [hVcnLow, hParse]
        rfl
      rw [readAttr_stream hOk hStream, hLow, hLowInit]
      rcases readNonResident_slice hGood s.size s.init
        (show _ = ownRuns a from rfl) off max dst e with
        ⟨hWant, hBad, -⟩ | ⟨n, out, hMost, hRun, hSlice, hEnd⟩
      · have hIn := hTaken.inside
        rcases hBytes.covered off hWant with ⟨r, hMem, -⟩
        rw [hOwn] at hBad
        rcases hBad with hLow' | hHigh | hNone
        · omega
        · omega
        · rw [hNone] at hMem
          cases hMem
      · have hAll : n = min max (s.size - off) := by
          by_contra hShort
          rcases hEnd (by omega) with ⟨hInside', hNot⟩
          apply hNot
          rw [hOwn]
          apply readable_of_covers hRunsAt.tiles hFit
            (hBytes.covered _ hInside')
          exact hReads hOut taken hRuns (off + n) (by omega)
            (by omega) hInside'
        subst hAll
        rw [hRun]
        refine ⟨signedWord_of_lt hCount, ?_, hSlice.kept⟩
        · intro i hI
          have hGiven := hSlice.given i hI
          unfold clusterRule at hGiven
          split at hGiven
          · next hTail =>
              rw [hBytes.tail _ hTail]
              exact hGiven
          · next hData =>
              exact bytes_of_holds hBytes
                (fun r hMem => hOwn ▸ hMem) (hOwn ▸ hFit)
                (Nat.lt_of_not_le hData) hGiven

end Slices

--
-- Keeping to the Record
--

section Records

variable {v : NtfsVol} {disk : NtfsDisk}
variable {a : AttrAt} {owner : Buf} {size : Nat}

variable {p : Nat}

theorem get32_inside
    (hSame : ∀ i, i < size → owner i = a.owner i)
    (hP : p + 4 ≤ size) :
    owner.get32 p = a.owner.get32 p :=
  Buf.get32_congr (fun i hI => hSame _ (by omega))

theorem get16_inside
    (hSame : ∀ i, i < size → owner i = a.owner i)
    (hP : p + 2 ≤ size) :
    owner.get16 p = a.owner.get16 p :=
  Buf.get16_congr (fun i hI => hSame _ (by omega))

theorem readResident_congr
    (hSame : ∀ i, i < v.recordSize → owner i = a.owner i)
    (hLength : a.attr + 24 ≤ v.recordSize)
    (off : Nat)
    (dst : Buf)
    (max : Nat) :
    readResident v ⟨owner, a.attr⟩ off dst max =
      readResident v a off dst max := by
  have hValue : residentValue owner a.attr v.recordSize =
      residentValue a.owner a.attr v.recordSize := by
    unfold residentValue
    rw [hSame (a.attr + 8) (by omega),
      get32_inside hSame (p := a.attr + 4) (by omega),
      get32_inside hSame (p := a.attr + 0x10) (by omega),
      get16_inside hSame (p := a.attr + 0x14) (by omega)]
  unfold readResident
  dsimp only
  rw [hValue]
  cases hSome : residentValue a.owner a.attr v.recordSize
    with
  | none => rfl
  | some value =>
      simp only [residentValue,
        Option.ite_none_left_eq_some,
        Option.some.injEq] at hSome
      rcases hSome with ⟨hHere, hEnd, rfl⟩
      simp only [Bool.or_eq_true, decide_eq_true_eq, not_or]
        at hHere hEnd
      dsimp only
      split
      · rfl
      · generalize hN : (if a.owner.get32 (a.attr + 0x10) -
            off > max then max
          else a.owner.get32 (a.attr + 0x10) - off) = n
        have hMost : n ≤ a.owner.get32 (a.attr + 0x10) - off :=
          by
          split at hN <;> omega
        congr 1
        funext i
        by_cases hI : i < n
        · rw [Buf.copy_inside (Nat.zero_le _) (by omega),
            Buf.copy_inside (Nat.zero_le _) (by omega)]
          exact hSame _ (by omega)
        · rw [Buf.copy_outside (by omega),
            Buf.copy_outside (by omega)]

theorem readNonResident_congr
    (hSame : ∀ i, i < v.recordSize → owner i = a.owner i)
    {alen : Nat}
    (hInside : a.attr + alen ≤ v.recordSize)
    (hLong : 64 ≤ alen)
    (real init off : Nat)
    (dst : Buf)
    (max : Nat) :
    readNonResident v disk ⟨owner, a.attr⟩ alen real init
        off dst max =
      readNonResident v disk a alen real init off dst max :=
  by
  have hRuns : ∀ runOff vcn,
      parseRunlist owner (a.attr + runOff) (a.attr + alen)
          vcn ntfsMaxRuns =
        parseRunlist a.owner (a.attr + runOff)
          (a.attr + alen) vcn ntfsMaxRuns := by
    intro runOff vcn
    unfold parseRunlist
    rw [parseRuns_congr (fun i _ hHigh =>
      hSame i (by omega))]
  unfold readNonResident
  dsimp only
  rw [get16_inside hSame (p := a.attr + 0x20) (by omega),
    get32_inside hSame (p := a.attr + 0x10) (by omega),
    hRuns]

/- What lies outside of the record does not matter. -/
theorem readAttr_congr
    (hSame : ∀ i, i < v.recordSize → owner i = a.owner i)
    (off : Nat)
    (dst : Buf)
    (max : Nat) :
    readAttr v disk ⟨owner, a.attr⟩ off dst max =
      readAttr v disk a off dst max := by
  unfold readAttr
  dsimp only
  by_cases hRoom : v.recordSize - a.attr < 16
  · rw [if_pos hRoom, if_pos hRoom]
  · have hKind := hSame (a.attr + 8) (by omega)
    rw [if_neg hRoom, if_neg hRoom,
      get32_inside hSame (p := a.attr + 4) (by omega),
      get16_inside hSame (p := a.attr + 0x0C) (by omega)]
    simp only [hKind]
    split
    · rfl
    · rename_i hLength
      simp only [Bool.or_eq_true, Bool.and_eq_true,
        decide_eq_true_eq, bne_iff_ne, not_or, not_and]
        at hLength
      rcases hLength with ⟨⟨hShort, hInside⟩, hLong⟩
      split
      · rfl
      · split
        · rw [readResident_congr hSame (by omega)]
        · rename_i hOut
          have hMin := hLong (by simpa using hOut)
          rw [get32_inside hSame
              (p := a.attr + 0x30) (by omega),
            get32_inside hSame
              (p := a.attr + 0x34) (by omega),
            get32_inside hSame
              (p := a.attr + 0x38) (by omega),
            get32_inside hSame
              (p := a.attr + 0x3C) (by omega),
            readNonResident_congr hSame (by omega)
              (by omega)]

end Records

--
-- Exactness
--

/-
  A read of an attribute that describes its whole stream
  gives just the bytes that are asked for; a read of any
  other is refused, or gives bytes that it describes. No
  read depends on anything but the record and the disk.
-/
theorem readAttr_exact
    {v : NtfsVol}
    (hGood : v.Good)
    (disk : NtfsDisk)
    (a : AttrAt)
    (off max : Nat)
    (dst : Buf)
    (e : Bool) :
    (∀ s, WholeAttr v disk a s → RunsTaken a →
      ReadsSucceed v disk a s.init off max →
      min max (s.size - off) < 2 ^ 31 →
        (readAttr v disk a off dst max e).1.1 =
            (min max (s.size - off) : Nat) ∧
          Slice (fun pos x => x = s.bytes pos) off
            (min max (s.size - off)) dst
            (readAttr v disk a off dst max e).1.2) ∧
    Sliced v disk a off max dst
      (readAttr v disk a off dst max e).1 ∧
    ∀ owner : Buf,
      (∀ i, i < v.recordSize → owner i = a.owner i) →
      readAttr v disk ⟨owner, a.attr⟩ off dst max e =
        readAttr v disk a off dst max e := by
  refine ⟨?_, readAttr_slice hGood a off max dst e, ?_⟩
  · intro s hWhole hTaken hReads hCount
    exact readAttr_whole hGood hWhole hTaken hReads hCount
      dst e
  · intro owner hSame
    rw [readAttr_congr hSame]

/- An attribute of 500 bytes in a cluster, with these runs. -/
def clusterRecord (runs : List (Nat × Nat)) : Buf :=
  layout
    ([(0x40, 1), (0x58, 64)] ++ runs)
    [(0x38, atData), (0x3C, 72), (0x68, 500), (0x70, 500)]

/- The same run, with a length in one byte and in five. -/
def narrowAttr : AttrAt :=
  ⟨clusterRecord [(0x78, 0x0111), (0x7A, 32)], 0x38⟩

def wideAttr : AttrAt :=
  ⟨clusterRecord [(0x78, 0x0115), (0x7E, 32)], 0x38⟩

def clusterStream (a : AttrAt) : NtfsStream where
  size := 500
  init := 500
  bytes := fun pos => if pos < 500 then 0xAA else 0
  first := a

theorem clusterStream_bytes (a : AttrAt) :
    StreamBytes smallVol smallDisk [⟨0, 32, 1, false⟩] 500
      (clusterStream a).bytes := by
  have hFirst : ∀ pos, pos < 500 → pos / 512 = 0 := by
    omega
  constructor
  · intro pos hPos
    refine ⟨_, List.mem_singleton_self _, ?_, ?_⟩
    · exact Nat.zero_le _
    · exact (hFirst pos hPos).symm ▸ Nat.one_pos
  · intro pos r hPos hMem hCovers hSparse
    rcases List.mem_singleton.mp hMem with rfl
    cases hSparse
  · intro pos r x hPos hMem hCovers hPlain hDisk
    rcases List.mem_singleton.mp hMem with rfl
    have hByte : clusterByte smallVol smallDisk 32
        (pos % 512) = some 0xAA := by
      have hLba : smallVol.lba + 32 *
          smallVol.sectorsPerCluster *
            (smallVol.bytesPerSector / 512) +
              pos % 512 / 512 = 32 := by
        change 0 + 32 * 1 * (512 / 512) + pos % 512 / 512 =
          32
        omega
      rw [clusterByte, diskByte, hLba]
      rfl
    have hZero : pos / smallVol.clusterSize = 0 :=
      hFirst pos hPos
    rw [hZero] at hDisk
    rcases hByte.symm.trans hDisk with hSame
    cases hSame
    exact if_pos hPos
  · intro pos hPos
    exact if_neg (Nat.not_lt.mpr hPos)

/- The words of an attribute with this one run. -/
abbrev ClusterWords (b : Buf) : Prop :=
  0x38 + b.get32 (0x38 + 4) = 0x80 ∧
    b.get16 (0x38 + 0x0C) &&&
      (attrCompressed ||| attrEncrypted) = 0 ∧
    b (0x38 + 8) ≠ 0 ∧ b.get64 (0x38 + 0x30) = 500 ∧
    b.get64 (0x38 + 0x38) = 500 ∧
    b.get64 (0x38 + 0x10) = 0 ∧
    b.get16 (0x38 + 0x20) = 64 ∧
    encodedRun b 0x78 0 0 = ⟨0, 32, 1, false⟩ ∧
    b 0x78 ≠ 0 ∧ nextRun b 0x78 < 0x80 ∧
    0 < runLength b 0x78 ∧ b (nextRun b 0x78) = 0

theorem clusterAttrs_read :
    ClusterWords narrowAttr.owner ∧
      ClusterWords wideAttr.owner ∧
      (clusterSectors smallVol smallDisk 32 1).isSome =
        true ∧
      parseRuns narrowAttr.owner 0x80 ntfsMaxRuns 8 0x78 0
        0 0 = some [⟨0, 32, 1, false⟩] ∧
      (readAttr smallVol smallDisk wideAttr 0 Buf.zero 500
        false).1.1 = -1 := by
  decide +kernel

theorem ClusterWords.runs
    {b : Buf}
    (hWords : ClusterWords b) :
    RunsAt b (0x38 + b.get32 (0x38 + 4))
      (0x38 + b.get16 (0x38 + 0x20)) 0 0
      [⟨0, 32, 1, false⟩] := by
  rcases hWords with
    ⟨hStop, -, -, -, -, -, hOff, hRun, hSome, hNext,
      hLength, hZero⟩
  rw [hStop, hOff, ← hRun]
  exact .run (by decide) hSome (Nat.le_of_lt hNext) hLength
    (.last hNext hZero)

theorem ClusterWords.whole
    {b : Buf}
    (hWords : ClusterWords b) :
    WholeAttr smallVol smallDisk ⟨b, 0x38⟩
      (clusterStream ⟨b, 0x38⟩) := by
  have hRuns := ClusterWords.runs hWords
  rcases hWords with
    ⟨hStop, hPlain, hOut, hSize, hInit, hVcn, hOff, -⟩
  refine .clusters ?_ hPlain hOut ?_ hSize.symm hInit.symm
    (Nat.le_refl _) (show 500 < 2 ^ 32 by decide) hVcn
    (Nat.le_of_eq hOff.symm) hRuns
    (show 500 ≤ 1 * 512 by decide) (clusterStream_bytes _)
  · change 0x38 + b.get32 (0x38 + 4) ≤ 512
    omega
  · change 64 ≤ b.get32 (0x38 + 4)
    omega

theorem clusterReads
    {a : AttrAt}
    (hRuns : RunsAt a.owner
      (a.attr + a.owner.get32 (a.attr + 4))
      (a.attr + a.owner.get16 (a.attr + 0x20)) 0 0
      [⟨0, 32, 1, false⟩])
    (off max : Nat) :
    ReadsSucceed smallVol smallDisk a 500 off max := by
  intro hOut runs hOwn pos hLow hHigh hInit r hMem hCovers
    hPlain
  rcases hOwn.unique hRuns with rfl
  rcases List.mem_singleton.mp hMem with rfl
  have hFirst : pos / smallVol.clusterSize = 0 := by
    change pos / 512 = 0
    omega
  rw [hFirst]
  exact clusterAttrs_read.2.2.1

/- The end of the value, and not the rest of the cluster. -/
theorem readAttr_exact_narrow :
    (readAttr smallVol smallDisk narrowAttr 100 Buf.zero 600
        false).1.1 = 400 ∧
      Slice
        (fun pos x =>
          x = (clusterStream narrowAttr).bytes pos)
        100 400 Buf.zero
        (readAttr smallVol smallDisk narrowAttr 100 Buf.zero
          600 false).1.2 := by
  have hWords := clusterAttrs_read.1
  have hTaken : RunsTaken narrowAttr := by
    intro hOut
    refine ⟨[⟨0, 32, 1, false⟩], ?_, by decide⟩
    have hParse := @parseRuns_iff narrowAttr.owner 0x80
      ntfsMaxRuns 8 0x78 0 0 0 (by decide) (Nat.zero_le _)
      (by decide) [⟨0, 32, 1, false⟩]
    exact (hParse.mp clusterAttrs_read.2.2.2.1).1
  exact (readAttr_exact smallVol_good smallDisk narrowAttr
    100 600 Buf.zero false).1 (clusterStream narrowAttr)
      (ClusterWords.whole hWords) hTaken
      (clusterReads (ClusterWords.runs hWords) _ _)
      (by decide)

/- A run list with a longer field is refused. -/
theorem wideAttr_refused :
    smallVol.Good ∧
      WholeAttr smallVol smallDisk wideAttr
        (clusterStream wideAttr) ∧
      ReadsSucceed smallVol smallDisk wideAttr 500 0 500 ∧
      (readAttr smallVol smallDisk wideAttr 0 Buf.zero 500
        false).1.1 = -1 := by
  rcases clusterAttrs_read with ⟨-, hWords, -, -, hFails⟩
  exact ⟨smallVol_good, ClusterWords.whole hWords,
    clusterReads (ClusterWords.runs hWords) _ _, hFails⟩

end KvantOS.Ntfs
