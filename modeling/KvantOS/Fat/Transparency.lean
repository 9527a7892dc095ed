import KvantOS.Fat.CacheSteps

/-
  This file settles how far the metadata cache can be seen:
  what runs of sector calls read and leave on the disk, with
  the cache and without it.

  Key definitions include:
    * `SectorCall`, `Started`, `Transparent`

  Key theorems include:
    * `SectorCall.run_sim`, `fatMeta_transparent`
    * `not_transparent_stale`
-/

namespace KvantOS

open FatM

--
-- Sequences of Calls
--

/- The calls of one operation. -/
inductive SectorCall where
  | read (sec count : Nat)
  | write (sec count : Nat) (data : Buf)

/- A write delivers nothing when it succeeds. -/
def wrote : Bool → Option Buf
  | true => some Buf.zero
  | false => none

namespace SectorCall

/- The driver's own call. -/
def cached
    (v : FatVol) :
    SectorCall → FatM (Option Buf)
  | .read sec count => readCount v sec count
  | .write sec count data =>
      wrote <$> writeCount v sec count data

/- The call of a driver without a cache. -/
def through
    (v : FatVol) :
    SectorCall → FatM (Option Buf)
  | .read sec count => readThrough v sec count
  | .write sec count data =>
      wrote <$> writeThrough v sec count data

/- How many bytes a call delivers. -/
def bytes
    (v : FatVol) :
    SectorCall → Nat
  | .read _ count => count * v.bytesPerSector
  | .write _ _ _ => 0

/-
  A call that does not read the journal, and that does not
  read metadata together with other sectors.
-/
def Plain
    (v : FatVol) :
    SectorCall → Prop
  | .read sec count =>
      (count = 1 ∨ ∀ j, j < count →
        isMetadata v (sec + j) = false) ∧
      ∀ j p, j < count → InSector v (sec + j) p →
        ¬JournalSector v p
  | .write _ _ _ => True

end SectorCall

/- The answers of a run. -/
def runCalls
    (run : SectorCall → FatM (Option Buf)) :
    List SectorCall → FatM (List (Option Buf))
  | [] => pure []
  | c :: cs => do
      let a ← run c
      let rest ← runCalls run cs
      pure (a :: rest)

/- Two answers of a call with the same bytes. -/
def Agree
    (v : FatVol)
    (c : SectorCall)
    (a b : Option Buf) : Prop :=
  ∃ p q, a = some p ∧ b = some q ∧
    ∀ i, i < c.bytes v → p i = q i

def AllAgree
    (v : FatVol) :
    List SectorCall → List (Option Buf) →
      List (Option Buf) → Prop
  | [], [], [] => True
  | c :: cs, a :: as, b :: bs =>
      Agree v c a b ∧ AllAgree v cs as bs
  | _, _, _ => False

--
-- One Call
--

section Calls

variable {v : FatVol} {d₀ : Device Sector} {x y : FatWorld}

/- The guard depends on what both have in common. -/
theorem inVolume_ready
    {st : FatState}
    (hReady : Ready st)
    (sec count : Nat) :
    inVolume v st sec count =
      (sec < v.totalSectors &&
        count ≤ v.totalSectors - sec) := by
  unfold inVolume
  rw [hReady.fenced, hReady.error]
  rfl

/- What a read gets from the disk, without an overlay. -/
theorem readDisk_run
    (hReady : Ready x.1)
    (sec count : Nat) :
    FatM.eval (readDisk v sec count >>=
      delivered sec count) x =
      (some (diskBuf x.2 (v.lba + sec * v.factor)
        (count * v.factor)), x) := by
  have hRead : FatM.eval (readDisk v sec count) x =
      (some (diskBuf x.2 (v.lba + sec * v.factor)
        (count * v.factor)), x) := by
    unfold readDisk
    rw [FatM.eval_step (FatM.eval_blkRead ..)]
    rfl
  rw [FatM.eval_step hRead]
  unfold delivered
  rw [FatM.eval_step (FatM.eval_get x), hReady.overlay]
  rfl

variable {sec count : Nat}

/- The sectors of a plain read are the same on both disks. -/
theorem Sim.diskBuf_eq
    (hMount : Mounted v)
    (hSim : Sim v d₀ x y)
    (hOther : ∀ j, j < count →
      isMetadata v (sec + j) = false)
    (hApart : ∀ j p, j < count → InSector v (sec + j) p →
      ¬JournalSector v p) :
    diskBuf x.2 (v.lba + sec * v.factor)
        (count * v.factor) =
      diskBuf y.2 (v.lba + sec * v.factor)
        (count * v.factor) := by
  have hPos := hMount.factor.2
  funext i
  unfold diskBuf
  split
  · next hi =>
      have hPart : i / 512 < count * v.factor := by omega
      have hIndex : i / 512 / v.factor < count :=
        (Nat.div_lt_iff_lt_mul hPos).mpr hPart
      have hDiv := Nat.div_add_mod (i / 512) v.factor
      have hMod := Nat.mod_lt (i / 512) hPos
      have hIn : InSector v (sec + i / 512 / v.factor)
          (v.lba + sec * v.factor + i / 512) := by
        unfold InSector
        rw [Nat.add_mul]
        rw [Nat.mul_comm] at hDiv
        constructor <;> omega
      rw [hSim.elsewhere _ (hApart _ _ hIndex hIn)]
      intro k hk hIn'
      have hSame := hIn.unique hIn'
      rw [← hSame, hOther _ hIndex] at hk
      cases hk
  · rfl

variable {y' : FatWorld}

/- A read without a cache that delivers anything. -/
theorem readThrough_run
    (hReady : Ready y.1)
    {q : Buf}
    (hDone : FatM.eval (readThrough v sec count) y =
      (some q, y')) :
    y' = y ∧
      q = diskBuf y.2 (v.lba + sec * v.factor)
        (count * v.factor) ∧
      (sec < v.totalSectors &&
        count ≤ v.totalSectors - sec) = true ∧
      count ≤ 64 / v.factor := by
  unfold readThrough at hDone
  rw [FatM.eval_step (FatM.eval_live y),
    FatM.eval_step (FatM.eval_get y),
    inVolume_ready hReady] at hDone
  by_cases hRefused : (!true ||
      !(decide (sec < v.totalSectors) &&
        decide (count ≤ v.totalSectors - sec)) ||
      decide (count > 64 / v.factor)) = true
  · rw [if_pos hRefused] at hDone
    cases hDone
  · rw [if_neg hRefused, readDisk_run hReady] at hDone
    injection hDone with hData hWorld
    injection hData with hData
    simp only [Bool.not_true, Bool.false_or, Bool.or_eq_true,
      Bool.not_eq_true', decide_eq_true_eq, not_or,
      Bool.not_eq_false, Nat.not_lt] at hRefused
    exact ⟨hWorld.symm, hData.symm, hRefused⟩

/- A read delivers the same bytes out of the cache. -/
theorem readCount_run
    (hMount : Mounted v)
    (hOwner : OwnerIntact v d₀)
    (hSim : Sim v d₀ x y)
    (hPlain : (SectorCall.read sec count).Plain v)
    {q : Buf}
    (hDone : FatM.eval (readThrough v sec count) y =
      (some q, y')) :
    ∃ p x', FatM.eval (readCount v sec count) x =
        (some p, x') ∧ Sim v d₀ x' y' ∧
      x'.1.writing = x.1.writing ∧
      ∀ i, i < count * v.bytesPerSector → p i = q i := by
  rcases readThrough_run hSim.through hDone with
    ⟨rfl, rfl, hInside, hCount⟩
  rcases hPlain with ⟨hMeta, hApart⟩
  have hEligible : fatMetaEligible v x.1 sec =
      isMetadata v sec := by
    rw [fatMetaEligible_eq, hSim.owner, hSim.ready.overlay]
    rfl
  have hGuard : ¬(!true || !inVolume v x.1 sec count ||
      decide (count > 64 / v.factor)) = true := by
    rw [inVolume_ready hSim.ready, hInside]
    simpa using hCount
  unfold readCount
  rw [FatM.eval_step (FatM.eval_live x),
    FatM.eval_step (FatM.eval_get x), if_neg hGuard,
    hEligible]
  by_cases hCached : (count == 1 && isMetadata v sec) = true
  · rw [if_pos hCached]
    rw [Bool.and_eq_true, beq_iff_eq] at hCached
    rcases hCached with ⟨rfl, hSector⟩
    rcases fetchData_run hMount hOwner hSim hSector with
      ⟨b, x', hFetch, hSim', hBytes⟩
    refine ⟨b, x', ?_, hSim',
      hSim'.writing.symm.trans hSim.writing, ?_⟩
    · rw [FatM.eval_step hFetch]
      unfold delivered
      rw [FatM.eval_step (FatM.eval_get x'),
        hSim'.ready.overlay]
      rfl
    · intro i hi
      rw [Nat.one_mul] at hi ⊢
      have hByte := congrFun hBytes i
      unfold Buf.take at hByte
      rw [if_pos hi] at hByte
      exact hByte
  · rw [if_neg hCached, readDisk_run hSim.ready]
    refine ⟨_, x, rfl, hSim, rfl, ?_⟩
    have hOther : ∀ j, j < count →
        isMetadata v (sec + j) = false := by
      rcases hMeta with rfl | hOther
      · intro j hj
        have hZero : j = 0 := by omega
        rw [hZero, Nat.add_zero]
        simpa using hCached
      · exact hOther
    intro i _
    rw [hSim.diskBuf_eq hMount hOther hApart]

/- The rounds of a write. -/
theorem storeSectors_run
    (hMount : Mounted v)
    (hOwner : OwnerIntact v d₀)
    (sec : Nat)
    (data : Buf)
    (j count : Nat)
    (hSim : Sim v d₀ x y)
    (hWriting : x.1.writing = true)
    (hDone : (FatM.eval (storeSectors (storeThrough v) v sec
      data j count) y).1 = true) :
    ∃ x' y',
      FatM.eval (storeSectors (storeThrough v) v sec data j
        count) y = (true, y') ∧
      FatM.eval (storeSectors (storeSector v) v sec data j
        count) x = (true, x') ∧ Sim v d₀ x' y' ∧
      x'.1.writing = true := by
  induction count generalizing j x y with
  | zero => exact ⟨x, y, rfl, rfl, hSim, hWriting⟩
  | succ count ih =>
      rw [storeSectors, FatM.eval_bind] at hDone
      have hFirst : (FatM.eval (storeThrough v (sec + j)
          (data.drop (j * v.bytesPerSector))) y).1 =
            true := by
        by_contra hNot
        rw [if_neg hNot] at hDone
        cases hDone
      rcases storeSector_run hMount hOwner hSim hWriting
          hFirst with ⟨x₁, y₁, hThrough, hStore, hSim₁, hWriting₁⟩
      rw [hThrough] at hDone
      rcases ih (j + 1) hSim₁ hWriting₁ hDone with
        ⟨x', y', hRest, hRest', hLast⟩
      refine ⟨x', y', ?_, ?_, hLast⟩
      · rw [storeSectors, FatM.eval_step hThrough]
        exact hRest
      · rw [storeSectors, FatM.eval_step hStore]
        exact hRest'

/- A guarded write runs its rounds if it passes its guard. -/
theorem guardedWrite_run
    {store : Nat → Buf → FatM Bool}
    (hReady : Ready x.1)
    {data : Buf} :
    FatM.eval (guardedWrite store v sec count data) x =
      if x.1.writing = true ∧
          (sec < v.totalSectors &&
            count ≤ v.totalSectors - sec) = true then
        FatM.eval (storeSectors store v sec data 0 count) x
      else
        (false, ({ x.1 with error := true }, x.2)) := by
  unfold guardedWrite
  rw [FatM.eval_step (FatM.eval_live x),
    FatM.eval_step (FatM.eval_get x), inVolume_ready hReady]
  by_cases hPass : x.1.writing = true ∧
      (decide (sec < v.totalSectors) &&
        decide (count ≤ v.totalSectors - sec)) = true
  · rw [if_pos hPass, hPass.1, hPass.2]
    rfl
  · rw [if_neg hPass, if_pos]
    · rfl
    · by_contra hNot
      apply hPass
      simp only [Bool.not_true, Bool.false_or,
        Bool.or_eq_true, Bool.not_eq_true', not_or,
        Bool.not_eq_false] at hNot
      exact hNot

/- A write stores the same out of the cache. -/
theorem writeCount_run
    (hMount : Mounted v)
    (hOwner : OwnerIntact v d₀)
    (hSim : Sim v d₀ x y)
    {data : Buf}
    (hDone : FatM.eval (writeThrough v sec count data) y =
      (true, y')) :
    ∃ x', FatM.eval (writeCount v sec count data) x =
        (true, x') ∧ Sim v d₀ x' y' ∧
      x'.1.writing = x.1.writing := by
  unfold writeThrough at hDone
  rw [guardedWrite_run hSim.through] at hDone
  by_cases hPass : y.1.writing = true ∧
      (decide (sec < v.totalSectors) &&
        decide (count ≤ v.totalSectors - sec)) = true
  · rw [if_pos hPass] at hDone
    have hWriting : x.1.writing = true := by
      rw [← hSim.writing]
      exact hPass.1
    rcases storeSectors_run hMount hOwner sec data 0 count
        hSim hWriting (by rw [hDone]) with
      ⟨x', y₁, hThrough, hCached, hSim', hWriting'⟩
    rw [hThrough] at hDone
    injection hDone with _ hWorld
    refine ⟨x', ?_, hWorld ▸ hSim',
      hWriting'.trans hWriting.symm⟩
    unfold writeCount
    rw [guardedWrite_run hSim.ready,
      if_pos ⟨hWriting, hPass.2⟩]
    exact hCached
  · rw [if_neg hPass] at hDone
    cases hDone

/- One call does the same with the cache as without it. -/
theorem SectorCall.run_sim
    (hMount : Mounted v)
    (hOwner : OwnerIntact v d₀)
    (hSim : Sim v d₀ x y)
    {c : SectorCall}
    (hPlain : c.Plain v)
    {b : Buf}
    (hDone : FatM.eval (c.through v) y = (some b, y')) :
    ∃ a x', FatM.eval (c.cached v) x = (a, x') ∧
      Agree v c a (some b) ∧ Sim v d₀ x' y' ∧
      x'.1.writing = x.1.writing := by
  cases c with
  | read sec count =>
      rcases readCount_run hMount hOwner hSim hPlain
          hDone with ⟨p, x', hRun, hSim', hWriting, hSame⟩
      exact ⟨some p, x', hRun, ⟨p, b, rfl, rfl, hSame⟩,
        hSim', hWriting⟩
  | write sec count data =>
      have hThrough : FatM.eval
          (writeThrough v sec count data) y = (true, y') := by
        rcases hWrite : FatM.eval
          (writeThrough v sec count data) y with ⟨ok, y₁⟩
        have hOut : (wrote ok, y₁) = (some b, y') :=
          (FatM.eval_step hWrite
            (fun ok => pure (wrote ok))).symm.trans hDone
        injection hOut with hAnswer hWorld
        cases ok with
        | false => cases hAnswer
        | true => rw [hWorld]
      rcases writeCount_run hMount hOwner hSim hThrough with
        ⟨x', hRun, hSim', hWriting⟩
      refine ⟨some Buf.zero, x', ?_,
        ⟨Buf.zero, b, rfl, rfl, ?_⟩, hSim', hWriting⟩
      · change FatM.eval
          (writeCount v sec count data >>= fun ok =>
            pure (wrote ok)) x = _
        rw [FatM.eval_step hRun]
        rfl
      · intro i hi
        exact absurd hi (Nat.not_lt_zero i)

/- So does any row of calls. -/
theorem runCalls_sim
    (hMount : Mounted v)
    (hOwner : OwnerIntact v d₀)
    (calls : List SectorCall)
    (hPlain : ∀ c ∈ calls, c.Plain v)
    (hSim : Sim v d₀ x y)
    {answers : List (Option Buf)}
    (hRun : FatM.eval
      (runCalls (SectorCall.through v) calls) y =
        (answers, y'))
    (hDone : ∀ b ∈ answers, b.isSome = true) :
    ∃ answers' x', FatM.eval
        (runCalls (SectorCall.cached v) calls) x =
          (answers', x') ∧
      AllAgree v calls answers' answers ∧
      Sim v d₀ x' y' ∧
      x'.1.writing = x.1.writing := by
  induction calls generalizing x y answers with
  | nil =>
      injection hRun with hNone hWorld
      exact ⟨[], x, rfl, hNone ▸ trivial, hWorld ▸ hSim,
        rfl⟩
  | cons c cs ih =>
      rw [runCalls, FatM.eval_bind] at hRun
      rcases hFirst : FatM.eval (c.through v) y with ⟨b, y₁⟩
      rcases hRest : FatM.eval
          (runCalls (SectorCall.through v) cs) y₁ with
        ⟨bs, y₂⟩
      rw [hFirst, FatM.eval_step hRest] at hRun
      injection hRun with hAnswers hWorld
      rw [← hAnswers] at hDone ⊢
      rcases Option.isSome_iff_exists.mp
          (hDone b List.mem_cons_self) with ⟨q, rfl⟩
      rcases SectorCall.run_sim hMount hOwner hSim
          (hPlain c List.mem_cons_self) hFirst with
        ⟨a, x₁, hCall, hAgree, hSim₁, hWriting₁⟩
      rcases ih
          (fun e he => hPlain e (List.mem_cons_of_mem _ he))
          hSim₁ (hRest.trans (congrArg _ hWorld))
          (fun e he => hDone e (List.mem_cons_of_mem _ he))
        with ⟨as, x', hCalls, hAll, hSim', hWriting'⟩
      refine ⟨a :: as, x', ?_, ⟨hAgree, hAll⟩, hSim',
        hWriting'.trans hWriting₁⟩
      rw [runCalls, FatM.eval_step hCall,
        FatM.eval_step hCalls]
      rfl

end Calls

--
-- Operations
--

/- A log that was opened just now: it has no record. -/
structure Opened
    (v : FatVol)
    (t : SectorTx) : Prop where
  io : t.io = txIo v
  active : t.active = true
  failed : t.failed = false
  closing : t.closing = false
  empty : t.undo = []

/- The driver and the disk where an operation starts. -/
structure Started
    (v : FatVol)
    (x : FatWorld) : Prop where
  ready : Ready x.1
  intact : OwnerIntact v x.2
  opened : x.1.writing = true → Opened v x.1.tx

/- The calls of an operation, which starts with no cache. -/
def cachedRun
    (v : FatVol)
    (calls : List SectorCall) :
    FatM (List (Option Buf)) := do
  fatMetaBegin true
  runCalls (SectorCall.cached v) calls

/- An operation gives up before it has flushed the cache. -/
def giveUp (v : FatVol) : FatM Int := do
  fatMetaBegin false
  FatM.tx v stxAbort

/-
  The cache cannot be seen in a row of calls, as far as the
  calls succeed without it: answers are the same, the disk
  is once the cache is flushed, and giving up brings back
  the disk from before. The journal's own sectors may be
  different.
-/
def Transparent
    (v : FatVol)
    (x : FatWorld)
    (calls : List SectorCall) : Prop :=
  ∀ answers y,
    FatM.eval (runCalls (SectorCall.through v) calls) x =
      (answers, y) →
    (∀ b ∈ answers, b.isSome = true) →
    ∃ answers' x',
      FatM.eval (cachedRun v calls) x = (answers', x') ∧
      AllAgree v calls answers' answers ∧
      (∃ flushed, FatM.eval (flushCache v) x' =
          (true, flushed) ∧
        SameApart v y.2 flushed.2) ∧
      (x.1.writing = true →
        ∃ undone, FatM.eval (giveUp v) x' = (0, undone) ∧
          SameApart v x.2 undone.2)

section Operations

variable {v : FatVol} {x y : FatWorld}

theorem Opened.undoing
    {t : SectorTx}
    (hOpened : Opened v t)
    (d : Device Sector) :
    Undoing v d t d where
  io := hOpened.io
  active := hOpened.active
  failed := hOpened.failed
  closing := hOpened.closing
  nodup := by
    rw [hOpened.empty]
    exact List.nodup_nil
  room := by
    rw [hOpened.empty]
    exact Nat.zero_le _
  writable u hu := by
    rw [hOpened.empty] at hu
    cases hu
  old u hu := by
    rw [hOpened.empty] at hu
    cases hu
  frame p _ _ := rfl

/- Both start in the same place. -/
theorem Started.sim
    (hStarted : Started v x) :
    Sim v x.2 (FatM.eval (fatMetaBegin true) x).2 x where
  ready :=
    ⟨hStarted.ready.error, hStarted.ready.fenced,
      hStarted.ready.overlay⟩
  through := hStarted.ready
  writing := rfl
  owner := rfl
  mirrors := .empty (fun _ => rfl) (fun _ => rfl)
    (fun _ _ => rfl)
  elsewhere _ _ _ := rfl
  idle _ _ := rfl
  logs hWriting :=
    let hUndoing := (hStarted.opened hWriting).undoing x.2
    { undoing := hUndoing
      through := hUndoing
      covered := fun _ h => h
      pending := fun _ h => by cases h }

/- The cache is forgotten, and the log undoes the rest. -/
theorem giveUp_run
    (hMount : Mounted v)
    {d₀ : Device Sector}
    (hUndoing : Undoing v d₀ x.1.tx x.2) :
    ∃ undone, FatM.eval (giveUp v) x = (0, undone) ∧
      SameApart v d₀ undone.2 := by
  rcases stxAbort_run hMount hUndoing with
    ⟨t', d', hRun, hSame⟩
  exact ⟨_, FatM.eval_tx_of (x := (FatM.eval
    (fatMetaBegin false) x).2) hRun, hSame⟩

/-
  The metadata cache is transparent on a disk that works,
  for calls that do not read the journal and do not read
  metadata together with other sectors.
-/
theorem fatMeta_transparent
    (hMount : Mounted v)
    (hStarted : Started v x)
    (calls : List SectorCall)
    (hPlain : ∀ c ∈ calls, c.Plain v) :
    Transparent v x calls := by
  intro answers y hRun hDone
  rcases runCalls_sim hMount hStarted.intact calls hPlain
      hStarted.sim hRun hDone with
    ⟨answers', x', hCached, hAgree, hSim, hStill⟩
  refine ⟨answers', x', hCached, hAgree, ?_, ?_⟩
  · rcases flushCache_run hMount hStarted.intact hSim with
      ⟨flushed, hFlush, hSim', hClean⟩
    exact ⟨flushed, hFlush, hSim'.disks hClean⟩
  · intro hWriting
    have hLogs := hSim.logs (hStill.trans hWriting)
    exact giveUp_run hMount hLogs.undoing

end Operations

--
-- A Small Volume
--

/- The smallest volume of FAT16, without a log of its own. -/
def smallVol : FatVol where
  lba := 0
  totalSectors := 4119
  bytesPerSector := 512
  sectorsPerCluster := 1
  reservedSectors := 1
  numFats := 2
  fatSize := 16
  rootEntries := 16
  rootCluster := 0
  firstDataSector := 34
  totalClusters := 4085
  fatStart := 1
  fsinfoSector := 0
  isFat32 := false
  serial := 0
  backupFsinfo := 0
  extent := 4119
  journal := 0
  journalCount := 0
  activeFat := 0
  mirrored := true
  walSector := 0
  walSectors := 0
  walCluster := 0
  walClusters := 0
  walDir := 0
  walOff := 0
  walEntry := Buf.zero
  fileWal := false

theorem smallVol_mounted : Mounted smallVol where
  sectorSize := by decide
  clusterSize := by decide
  reserved := by decide
  copies := by decide
  fatStart := rfl
  rootEntries := by decide
  firstData := rfl
  total := by decide
  clusters := by decide
  width := rfl
  fatBytes := by decide
  active := by decide
  mirrored := fun _ => rfl
  fsinfo := by decide
  backup := by decide
  root32 := fun h => by cases h
  root16 := fun _ => ⟨rfl, rfl, rfl⟩
  extent := rfl
  bound := by decide
  ram := fun _ => ⟨rfl, rfl⟩
  owned := fun h => by cases h

/- An operation on it, with an empty disk. -/
def smallStart : FatWorld :=
  ({ error := false
     fenced := false
     writing := true
     overlay := false
     owner := false
     next := 0
     slots := fun _ => ⟨Buf.zero, 0, false, false⟩
     tx := { idleTx (txIo smallVol) with active := true } },
    Device.ofDisk fun _ => Buf.zero.toSector)

theorem smallStart_started : Started smallVol smallStart where
  ready := ⟨rfl, rfl, rfl⟩
  intact := fun h => by cases h
  opened := fun _ => ⟨rfl, rfl, rfl, rfl, rfl⟩

/- The first FAT gets a new sector, and is read again. -/
def rewriteCalls (count : Nat) : List SectorCall :=
  [.write 1 1 (fun _ => 1), .read 1 count]

/- The first bytes of what calls deliver. -/
def firstBytes
    (answers : List (Option Buf)) : List (Option UInt8) :=
  answers.map (Option.map fun b => b 0)

theorem firstBytes_two
    {answers : List (Option Buf)}
    {m n : UInt8}
    (hBytes : firstBytes answers = [some m, some n]) :
    ∃ a b, answers = [some a, some b] ∧ b 0 = n := by
  rcases answers with _ | ⟨_ | a, _ | ⟨_ | b, _ | _⟩⟩
  case cons.some.cons.some.nil =>
    injection hBytes with _ hBytes
    injection hBytes with hByte _
    exact ⟨a, b, rfl, Option.some.inj hByte⟩
  all_goals cases hBytes

theorem fatMeta_transparent_small :
    firstBytes (FatM.eval
      (runCalls (SectorCall.through smallVol)
        (rewriteCalls 1)) smallStart).1 = [some 0, some 1] ∧
    Transparent smallVol smallStart (rewriteCalls 1) := by
  refine ⟨by decide +kernel, ?_⟩
  apply fatMeta_transparent smallVol_mounted
    smallStart_started
  intro c hc
  rcases List.mem_cons.mp hc with rfl | hc
  · trivial
  · rw [List.mem_singleton.mp hc]
    refine ⟨.inl rfl, ?_⟩
    rintro j p - - ⟨hFile, -⟩
    cases hFile

/-
  A read of several sectors passes the cache by, and finds
  metadata on the disk that is older than the cache's.
-/
theorem not_transparent_stale :
    ¬∀ (v : FatVol) (x : FatWorld)
      (calls : List SectorCall),
      Mounted v → Started v x → Transparent v x calls := by
  intro hAll
  have hThrough : firstBytes (FatM.eval
      (runCalls (SectorCall.through smallVol)
        (rewriteCalls 2)) smallStart).1 =
      [some 0, some 1] := by decide +kernel
  have hCached : firstBytes (FatM.eval
      (cachedRun smallVol (rewriteCalls 2)) smallStart).1 =
      [some 0, some 0] := by decide +kernel
  have hStale := hAll smallVol smallStart (rewriteCalls 2)
    smallVol_mounted smallStart_started
  rcases hRun : FatM.eval
    (runCalls (SectorCall.through smallVol)
      (rewriteCalls 2)) smallStart with ⟨answers, y⟩
  rw [hRun] at hThrough
  rcases firstBytes_two hThrough with ⟨b₁, b₂, rfl, hByte⟩
  have hDone : ∀ b ∈ [some b₁, some b₂],
      b.isSome = true := by simp
  rcases hStale _ _ hRun hDone with
    ⟨answers', x', hRun', hAgree, -⟩
  rw [hRun'] at hCached
  rcases firstBytes_two hCached with
    ⟨a₁, a₂, rfl, hByte'⟩
  rcases hAgree with ⟨-, ⟨p, q, hp, hq, hSame⟩, -⟩
  injection hp with hp
  injection hq with hq
  have hFirst : a₂ 0 = b₂ 0 := by
    rw [hp, hq]
    exact hSame 0 (by decide)
  rw [hByte, hByte'] at hFirst
  cases hFirst

end KvantOS
