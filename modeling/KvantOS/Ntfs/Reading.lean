import KvantOS.Ntfs.Attributes

/-
  This file says what the reads of the lower part give: the
  bytes of clusters, the runs that a run list encodes, and
  the bytes that the loop of `read_attr` finds through them.

  Key definitions include:
    * `clusterByte`, `RunsAt`, `Tiles`
    * `Readable`, `Holds`

  Key theorems include:
    * `clusterSectors_some`, `parseRuns_sound`
    * `runLookup_some`, `readRuns_spec`
-/

namespace KvantOS.Ntfs

--
-- Programs
--

section Programs

variable {α β : Type}

theorem run_pure
    (a : α)
    (e : Bool) :
    (pure a : NtfsM α) e = (a, e) :=
  rfl

theorem run_bind
    (x : NtfsM α)
    (f : α → NtfsM β)
    (e : Bool) :
    (x >>= f) e = f (x e).1 (x e).2 :=
  rfl

@[simp] theorem flagged_some
    (a : α)
    (e : Bool) :
    flagged (some a) e = (some a, e) :=
  rfl

@[simp] theorem flagged_none (e : Bool) :
    flagged (none : Option α) e = (none, true) :=
  rfl

/-
  The flag does not matter for the result, and it stays once
  it is set.
-/
def Sticky (x : NtfsM α) : Prop :=
  ∀ e, x e = ((x false).1, e || (x false).2)

theorem sticky_pure (a : α) :
    Sticky (pure a : NtfsM α) := by
  intro e
  rw [run_pure, run_pure, Bool.or_false]

theorem sticky_flagged (a : Option α) :
    Sticky (flagged a) := by
  intro e
  cases a with
  | none => simp
  | some a => simp

theorem Sticky.bind
    {x : NtfsM α}
    {f : α → NtfsM β}
    (hX : Sticky x)
    (hF : ∀ a, Sticky (f a)) :
    Sticky (x >>= f) := by
  intro e
  rw [run_bind, run_bind, hX e, hF _ (e || (x false).2),
    hF _ (x false).2, Bool.or_assoc]

theorem Sticky.fst
    {x : NtfsM α}
    (hX : Sticky x)
    (e : Bool) :
    (x e).1 = (x false).1 := by
  rw [hX e]

end Programs

--
-- Finding Records and Attributes
--

section Finding

variable (v : NtfsVol) (disk : NtfsDisk)

theorem sticky_readMftRecord (num : Nat) :
    Sticky (readMftRecord v disk num) := by
  unfold readMftRecord
  split
  · exact sticky_pure _
  · apply (sticky_flagged _).bind
    intro b
    split
    · exact sticky_pure _
    · split <;> exact sticky_pure _

theorem sticky_findAttr
    (rec : Buf)
    (type : Nat) :
    Sticky (findAttr v rec type) := by
  unfold findAttr
  split
  · exact sticky_pure _
  · exact sticky_pure _
  · exact sticky_flagged _

/- An attribute of the base record is found there. -/
theorem findAttrExt_found
    {rec : Buf}
    {type p : Nat}
    (hFound : findAttrIn rec v.recordSize type 0 =
      .found p)
    (e : Bool) :
    findAttrExt v disk rec type e = (some ⟨rec, p⟩, e) := by
  unfold findAttrExt findAttr
  rw [hFound]
  rfl

theorem sticky_findInList
    (rec : Buf)
    (type val vlen fuel off : Nat) :
    Sticky
      (findInList v disk rec type val vlen fuel off) := by
  induction fuel generalizing off with
  | zero => exact sticky_pure _
  | succ fuel ih =>
      rw [findInList]
      split
      · exact sticky_pure _
      · split
        · exact sticky_flagged _
        · dsimp only
          split
          · exact sticky_flagged _
          · split
            · apply (sticky_readMftRecord v disk _).bind
              intro ext
              split
              · exact sticky_flagged _
              · apply (sticky_findAttr v _ type).bind
                intro p
                split <;> exact sticky_pure _
            · exact ih _

theorem sticky_findAttrExt
    (rec : Buf)
    (type : Nat) :
    Sticky (findAttrExt v disk rec type) := by
  apply (sticky_findAttr v rec type).bind
  intro p
  split
  · exact sticky_pure _
  · apply (sticky_findAttr v rec atAttrList).bind
    intro list
    split
    · exact sticky_pure _
    · split
      · exact sticky_pure _
      · split
        · exact sticky_flagged _
        · exact sticky_findInList v disk rec type _ _ _ _

end Finding

--
-- Blocks
--

/- Byte `i` of the disk from some block on. -/
def diskByte
    (disk : NtfsDisk)
    (lba i : Nat) : Option UInt8 :=
  (disk (lba + i / 512)).map (fun b => b (i % 512))

/- Byte `i` of a cluster of the volume. -/
def clusterByte
    (v : NtfsVol)
    (disk : NtfsDisk)
    (lcn i : Nat) : Option UInt8 :=
  diskByte disk
    (v.lba +
      lcn * v.sectorsPerCluster * (v.bytesPerSector / 512))
    i

theorem diskByte_block
    (disk : NtfsDisk)
    (lba k i : Nat) :
    diskByte disk (lba + k) i =
      diskByte disk lba (k * 512 + i) := by
  unfold diskByte
  have hDiv : (k * 512 + i) / 512 = k + i / 512 := by omega
  have hMod : (k * 512 + i) % 512 = i % 512 := by omega
  rw [hDiv, hMod, Nat.add_assoc]

section Reads

variable {v : NtfsVol} {disk : NtfsDisk} {lba count i : Nat}
variable {b : Buf}

theorem diskRead_some
    (hRead : diskRead disk lba count = some b)
    (hI : i < count * 512) :
    diskByte disk lba i = some (b i) := by
  unfold diskRead at hRead
  rw [Option.ite_none_right_eq_some] at hRead
  rcases hRead with ⟨hAll, hB⟩
  have hBlock : (disk (lba + i / 512)).isSome = true :=
    List.all_eq_true.mp hAll (i / 512)
      (List.mem_range.mpr (by omega))
  rcases Option.isSome_iff_exists.mp hBlock with ⟨x, hX⟩
  cases hB
  simp [diskByte, hX]

theorem readBlocks_some
    {fuel blocks : Nat}
    (hRead : readBlocks disk fuel lba blocks = some b)
    (hFuel : blocks ≤ fuel)
    (hI : i < blocks * 512) :
    diskByte disk lba i = some (b i) := by
  induction fuel generalizing lba blocks i b with
  | zero => omega
  | succ fuel ih =>
      rw [readBlocks] at hRead
      split at hRead
      · rename_i hNone
        rw [beq_iff_eq] at hNone
        omega
      · generalize hChunk :
          (if blocks > 64 then 64 else blocks) = chunk
          at hRead
        have hBounds : 0 < chunk ∧ chunk ≤ blocks := by
          rename_i hSome
          rw [beq_iff_eq] at hSome
          split at hChunk <;> omega
        dsimp only at hRead
        split at hRead
        · cases hRead
        · rename_i p hP
          split at hRead
          · cases hRead
          · rename_i rest hRest
            cases hRead
            dsimp only
            by_cases hFirst : i < chunk * 512
            · rw [if_pos hFirst]
              exact diskRead_some hP hFirst
            · rw [if_neg hFirst,
                ← ih hRest (by omega) (by omega),
                diskByte_block]
              congr 1
              omega

theorem readSectors_some
    {sec : Nat}
    (hGood : v.Good)
    (hRead : readSectors v disk sec count = some b)
    (hI : i < count * v.bytesPerSector) :
    diskByte disk
        (v.lba + sec * (v.bytesPerSector / 512)) i =
      some (b i) := by
  have hSector := hGood.sector
  simp only [readSectors, Option.ite_none_left_eq_some]
    at hRead
  rcases hRead with ⟨-, -, -, -, hBlocks⟩
  apply readBlocks_some hBlocks (Nat.le_refl _)
  have hBytes : v.bytesPerSector / 512 * 512 =
      v.bytesPerSector := by omega
  rw [Nat.mul_assoc, hBytes]
  exact hI

theorem clusterSectors_some
    {lcn : Nat}
    (hGood : v.Good)
    (hRead : clusterSectors v disk lcn 1 = some b)
    (hI : i < v.clusterSize) :
    clusterByte v disk lcn i = some (b i) := by
  simp only [clusterSectors, Option.ite_none_left_eq_some]
    at hRead
  apply readSectors_some hGood hRead.2
  rw [Nat.one_mul, Nat.mul_comm, ← hGood.cluster]
  exact hI

end Reads

--
-- Run Lists
--

section Runs

variable (b : Buf) (p : Nat)

/- The parts of the run that is encoded at `p`. -/
def lengthBytes : Nat :=
  (b p).toNat % 16

def offsetBytes : Nat :=
  (b p).toNat / 16

def runLength : Nat :=
  littleEndian b (p + 1) (lengthBytes b p)

def runDelta : Int :=
  if offsetBytes b p == 0 then 0
  else
    littleSigned b (p + 1 + lengthBytes b p)
      (offsetBytes b p)

def encodedRun
    (lcn : Int)
    (vcn : Nat) : NtfsRun where
  vcn
  lcn :=
    if offsetBytes b p == 0 then 0
    else (lcn + runDelta b p).toNat
  len := runLength b p
  sparse := offsetBytes b p == 0

/- Where the next run is encoded. -/
def nextRun : Nat :=
  p + 1 + lengthBytes b p + offsetBytes b p

end Runs

/-
  The bytes from `p` on encode some runs, after the cluster
  `lcn` and for the clusters of the stream from `vcn` on.
-/
inductive RunsAt
    (b : Buf)
    (stop : Nat) :
    (p : Nat) → (lcn : Int) → (vcn : Nat) →
      List NtfsRun → Prop
  | last
      {p vcn : Nat}
      {lcn : Int}
      (hIn : p < stop)
      (hZero : b p = 0) :
      RunsAt b stop p lcn vcn []
  | run
      {p vcn : Nat}
      {lcn : Int}
      {rest : List NtfsRun}
      (hIn : p < stop)
      (hSome : b p ≠ 0)
      (hNext : nextRun b p ≤ stop)
      (hLength : 0 < runLength b p)
      (hRest : RunsAt b stop (nextRun b p)
        (lcn + runDelta b p) (vcn + runLength b p) rest) :
      RunsAt b stop p lcn vcn
        (encodedRun b p lcn vcn :: rest)

/- The runs follow each other from cluster `vcn` on. -/
inductive Tiles : Nat → List NtfsRun → Prop
  | nil {vcn : Nat} : Tiles vcn []
  | cons
      {r : NtfsRun}
      {rest : List NtfsRun}
      (hLen : 0 < r.len)
      (hRest : Tiles (r.vcn + r.len) rest) :
      Tiles r.vcn (r :: rest)

/- The run has a cluster of the stream. -/
def NtfsRun.Covers
    (r : NtfsRun)
    (vcn : Nat) : Prop :=
  r.vcn ≤ vcn ∧ vcn < r.vcn + r.len

/- The runs have numbers of 32 bits. -/
def RunsFit (runs : List NtfsRun) : Prop :=
  ∀ r ∈ runs, r.vcn + r.len ≤ maxU32

section RunLists

variable {b : Buf} {stop : Nat}

theorem littleEndian_lt
    (b : Buf)
    (p count : Nat) :
    littleEndian b p count < 256 ^ count := by
  induction count generalizing p with
  | zero => exact Nat.one_pos
  | succ count ih =>
      have hByte := (b p).toNat_lt
      have hRest := ih (p + 1)
      rw [littleEndian, Nat.pow_succ]
      omega

/- A length in four bytes has 32 bits. -/
theorem runLength_le
    {p : Nat}
    (hBytes : lengthBytes b p ≤ 4) :
    runLength b p ≤ maxU32 := by
  have hLt := littleEndian_lt b (p + 1) (lengthBytes b p)
  have hPow : 256 ^ lengthBytes b p ≤ 256 ^ 4 :=
    Nat.pow_le_pow_right (by decide) hBytes
  have hMax : (256 : Nat) ^ 4 = maxU32 + 1 := by decide
  unfold runLength
  omega

variable {lcn : Int}

/- The bytes say which runs they are. -/
theorem RunsAt.unique
    {p vcn : Nat}
    {runs runs' : List NtfsRun}
    (hRuns : RunsAt b stop p lcn vcn runs)
    (hRuns' : RunsAt b stop p lcn vcn runs') :
    runs = runs' := by
  induction hRuns generalizing runs' with
  | last hIn hZero =>
      cases hRuns' with
      | last _ _ => rfl
      | run _ hSome _ _ _ => exact absurd hZero hSome
  | run hIn hSome hNext hLength hRest ih =>
      cases hRuns' with
      | last _ hZero => exact absurd hZero hSome
      | run _ _ _ _ hRest' => rw [ih hRest']

theorem RunsAt.tiles
    {p vcn : Nat}
    {runs : List NtfsRun}
    (hRuns : RunsAt b stop p lcn vcn runs) :
    Tiles vcn runs := by
  induction hRuns with
  | last hIn hZero => exact .nil
  | @run p vcn lcn rest hIn hSome hNext hLength hRest ih =>
      exact @Tiles.cons (encodedRun b p lcn vcn) _ hLength ih

/- What `parse_runlist` accepts is what is encoded. -/
theorem parseRuns_sound
    {max fuel p n vcn : Nat}
    {runs : List NtfsRun}
    (hParse : parseRuns b stop max fuel p n lcn vcn =
      some runs) :
    RunsAt b stop p lcn vcn runs ∧ RunsFit runs := by
  induction fuel generalizing p n lcn vcn runs with
  | zero => cases hParse
  | succ fuel ih =>
      rw [parseRuns] at hParse
      split at hParse
      · cases hParse
      · rename_i hIn
        split at hParse
        · rename_i hZero
          cases hParse
          exact ⟨.last (Nat.lt_of_not_le hIn)
            (by simpa using hZero), by simp [RunsFit]⟩
        · rename_i hSome
          simp only [Option.ite_none_left_eq_some,
            Option.map_eq_some_iff] at hParse
          rcases hParse with
            ⟨-, hBytes, -, hBounds, rest, hRest, rfl⟩
          rcases ih hRest with ⟨hRunsAt, hFit⟩
          simp only [Bool.or_eq_true, beq_iff_eq,
            decide_eq_true_eq, not_or] at hBytes hBounds
          have hNext : nextRun b p ≤ stop := by
            unfold nextRun lengthBytes offsetBytes
            omega
          have hLength : 0 < runLength b p :=
            Nat.pos_of_ne_zero hBounds.1.1
          refine ⟨.run (Nat.lt_of_not_le hIn)
            (by simpa using hSome) hNext hLength hRunsAt, ?_⟩
          intro r hMem
          rcases List.mem_cons.mp hMem with rfl | hLater
          · have hVcn := hBounds.1.2
            have hLen : runLength b p ≤ maxU32 :=
              runLength_le (by
                unfold lengthBytes
                omega)
            change vcn + runLength b p ≤ maxU32
            change ¬vcn > maxU32 - runLength b p at hVcn
            omega
          · exact hFit r hLater

/- A search finds a run that has the cluster. -/
theorem runLookup_some
    {runs : List NtfsRun}
    {vcn : Nat}
    {place : RunPlace}
    (hFit : RunsFit runs)
    (hLookup : runLookup runs vcn = some place) :
    ∃ r ∈ runs, r.Covers vcn ∧ place.sparse = r.sparse ∧
      (r.sparse = false → place.lcn = r.lcn + (vcn - r.vcn)) :=
  by
  induction runs with
  | nil => cases hLookup
  | cons r runs ih =>
      rw [runLookup] at hLookup
      split at hLookup
      · rename_i hHere
        have hEnd := hFit r List.mem_cons_self
        have hMax : maxU32 < 2 ^ 32 := by decide
        rw [Nat.mod_eq_of_lt (by omega), Bool.and_eq_true,
          decide_eq_true_eq, decide_eq_true_eq] at hHere
        cases hLookup
        refine ⟨r, List.mem_cons_self, hHere, rfl, ?_⟩
        intro hSparse
        simp [hSparse]
      · rcases ih (fun s hMem =>
          hFit s (List.mem_cons_of_mem _ hMem)) hLookup with
          ⟨s, hMem, hCovers⟩
        exact ⟨s, List.mem_cons_of_mem _ hMem, hCovers⟩

end RunLists

--
-- Reading through Runs
--

section Loop

variable (v : NtfsVol) (disk : NtfsDisk)
variable (runs : List NtfsRun)

/- The driver finds and can read the byte at `pos`. -/
def Readable (pos : Nat) : Prop :=
  ∃ place, runLookup runs (pos / v.clusterSize) =
      some place ∧
    (place.sparse = true ∨
      (clusterSectors v disk place.lcn 1).isSome = true)

/- `x` is the byte at `pos` of a stream with these runs. -/
def Holds
    (pos : Nat)
    (x : UInt8) : Prop :=
  ∃ place, runLookup runs (pos / v.clusterSize) =
      some place ∧
    ((place.sparse = true ∧ x = 0) ∨
      (place.sparse = false ∧
        clusterByte v disk place.lcn
          (pos % v.clusterSize) = some x))

end Loop

section Loop

variable {v : NtfsVol} {disk : NtfsDisk} {runs : List NtfsRun}

/- Bytes of one cluster have one place. -/
theorem sameCluster
    {c pos k : Nat}
    (hK : pos % c + k < c) :
    (pos + k) / c = pos / c ∧
      (pos + k) % c = pos % c + k := by
  have hPos : 0 < c := by omega
  have hSplit := Nat.div_add_mod pos c
  have hSum : pos + k = c * (pos / c) + (pos % c + k) := by
    omega
  constructor
  · rw [hSum, Nat.mul_add_div hPos,
      Nat.div_eq_of_lt hK, Nat.add_zero]
  · rw [hSum, Nat.mul_add_mod, Nat.mod_eq_of_lt hK]

/- What the loop has read when it ends after `d` bytes. -/
structure RunsRead
    (v : NtfsVol)
    (disk : NtfsDisk)
    (runs : List NtfsRun)
    (off want done : Nat)
    (dst out : Buf)
    (d : Nat) : Prop where
  atLeast : done ≤ d
  atMost : d ≤ want
  readable : ∀ i, done ≤ i → i < d →
    Readable v disk runs (off + i)
  holds : ∀ i, done ≤ i → i < d →
    Holds v disk runs (off + i) (out i)
  outside : ∀ i, i < done ∨ d ≤ i → out i = dst i
  ends : d < want → ¬Readable v disk runs (off + d)

/- A step of the loop that reads some bytes of a cluster. -/
theorem RunsRead.step
    {off want done n d : Nat}
    {dst mid out : Buf}
    (hRead : RunsRead v disk runs off want (done + n) mid
      out d)
    (hReadable : ∀ i, done ≤ i → i < done + n →
      Readable v disk runs (off + i))
    (hHolds : ∀ i, done ≤ i → i < done + n →
      Holds v disk runs (off + i) (mid i))
    (hOutside : ∀ i, i < done ∨ done + n ≤ i →
      mid i = dst i) :
    RunsRead v disk runs off want done dst out d where
  atLeast := Nat.le_trans (Nat.le_add_right _ _)
    hRead.atLeast
  atMost := hRead.atMost
  readable := by
    intro i hLo hHi
    by_cases hNow : i < done + n
    · exact hReadable i hLo hNow
    · exact hRead.readable i (Nat.le_of_not_lt hNow) hHi
  holds := by
    intro i hLo hHi
    by_cases hNow : i < done + n
    · rw [hRead.outside i (.inl hNow)]
      exact hHolds i hLo hNow
    · exact hRead.holds i (Nat.le_of_not_lt hNow) hHi
  outside := by
    intro i hOut
    have hAtLeast := hRead.atLeast
    rw [hRead.outside i (by omega), hOutside i (by omega)]
  ends := hRead.ends

/-
  The loop of `read_attr` stops at the first byte that it
  cannot read; the flag stays when it reads all.
-/
theorem readRuns_spec
    (hGood : v.Good)
    (off want : Nat)
    {fuel done : Nat}
    (hFuel : want - done ≤ fuel)
    (hDone : done ≤ want)
    (dst : Buf)
    (e : Bool) :
    ∃ out d e',
      readRuns v disk runs off want fuel done dst e =
          ((out, d), e') ∧
        RunsRead v disk runs off want done dst out d ∧
        (d = want → e' = e) := by
  have hCluster : 0 < v.clusterSize := by
    rw [hGood.cluster]
    exact Nat.mul_pos hGood.sectorPos hGood.clusterPos
  induction fuel generalizing done dst with
  | zero =>
      exact ⟨dst, done, e, rfl,
        ⟨Nat.le_refl _, hDone, by omega, by omega,
          fun _ _ => rfl, by omega⟩, fun _ => rfl⟩
  | succ fuel ih =>
      have hStop : ∀ e',
          (done < want → ¬Readable v disk runs (off + done)) →
          (done = want → e' = e) →
          ∃ out d e'',
            ((dst, done), e') = ((out, d), e'') ∧
              RunsRead v disk runs off want done dst out d ∧
              (d = want → e'' = e) := by
        intro e' hEnds hFlag
        exact ⟨dst, done, e', rfl,
          ⟨Nat.le_refl _, hDone, by omega, by omega,
            fun _ _ => rfl, hEnds⟩, hFlag⟩
      rw [readRuns]
      by_cases hMore : done < want
      · rw [if_pos hMore]
        dsimp only
        generalize hInner : (off + done) % v.clusterSize = inner
        have hLt : inner < v.clusterSize :=
          hInner ▸ Nat.mod_lt _ hCluster
        generalize hN :
          (if want - done > v.clusterSize - inner then
            v.clusterSize - inner else want - done) = n
        have hBounds : 0 < n ∧ inner + n ≤ v.clusterSize ∧
            done + n ≤ want := by
          split at hN <;> omega
        have hSame : ∀ i, done ≤ i → i < done + n →
            (off + i) / v.clusterSize =
                (off + done) / v.clusterSize ∧
              (off + i) % v.clusterSize =
                inner + (i - done) := by
          intro i hLo hHi
          have hPos : off + i = off + done + (i - done) := by
            omega
          rw [hPos, ← hInner]
          exact sameCluster (by omega)
        cases hPlace : runLookup runs
            ((off + done) / v.clusterSize) with
        | none =>
            apply hStop e
            · rintro _ ⟨place, hSome, -⟩
              rw [hPlace] at hSome
              cases hSome
            · exact fun _ => rfl
        | some place =>
            dsimp only
            by_cases hSparse : place.sparse = true
            · rw [if_pos hSparse]
              rcases @ih (done + n) (by omega)
                hBounds.2.2 (dst.fill done 0 n) with
                ⟨out, d, e', hRun, hRead, hFlag⟩
              refine ⟨out, d, e', hRun, hRead.step ?_ ?_ ?_,
                hFlag⟩
              · intro i hLo hHi
                refine ⟨place, ?_, .inl hSparse⟩
                rw [(hSame i hLo hHi).1, hPlace]
              · intro i hLo hHi
                refine ⟨place, ?_, .inl ⟨hSparse, ?_⟩⟩
                · rw [(hSame i hLo hHi).1, hPlace]
                · exact if_pos ⟨hLo, hHi⟩
              · intro i hOut
                exact if_neg (by omega)
            · rw [if_neg hSparse, readClusters, run_bind]
              cases hRead : clusterSectors v disk place.lcn 1 with
              | none =>
                  apply hStop true
                  · rintro _ ⟨place', hSome, hCan⟩
                    rw [hPlace] at hSome
                    cases hSome
                    rw [hRead] at hCan
                    simp [hSparse] at hCan
                  · omega
              | some b =>
                  rw [flagged_some]
                  dsimp only
                  have hPlain : place.sparse = false :=
                    Bool.eq_false_iff.mpr hSparse
                  rcases @ih (done + n) (by omega)
                    hBounds.2.2
                    (dst.copy done (b.drop inner) n) with
                    ⟨out, d, e', hRun, hRuns, hFlag⟩
                  refine ⟨out, d, e', hRun,
                    hRuns.step ?_ ?_ ?_, hFlag⟩
                  · intro i hLo hHi
                    refine ⟨place, ?_, .inr ?_⟩
                    · rw [(hSame i hLo hHi).1, hPlace]
                    · rw [hRead, Option.isSome_some]
                  · intro i hLo hHi
                    refine ⟨place, ?_, .inr ⟨hPlain, ?_⟩⟩
                    · rw [(hSame i hLo hHi).1, hPlace]
                    · rw [(hSame i hLo hHi).2,
                        Buf.copy_inside hLo hHi]
                      exact clusterSectors_some hGood hRead
                        (by omega)
                  · intro i hOut
                    exact Buf.copy_outside (by omega)
      · rw [if_neg hMore]
        exact hStop e (fun hLess => absurd hLess hMore)
          (fun _ => rfl)

end Loop

end KvantOS.Ntfs
