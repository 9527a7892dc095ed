import KvantOS.Fat.Geometry
import KvantOS.Fat.Driver
import KvantOS.SectorTx.Header

/-
  This file runs the driver on a disk that works: what the
  undo log does there to the sectors outside of the journal,
  and that aborting brings all of them back.

  Key definitions include:
    * `FatM.eval`, `JournalSector`, `LogWritable`
    * `Undoing`

  Key theorems include:
    * `stxWrite_run`, `stxWrite_run_zero`, `stxAbort_run`
    * `writeChunks_run`
-/

namespace KvantOS

--
-- Evaluation
--

/- The state of the driver and the disk under it. -/
abbrev FatWorld :=
  FatState × Device Sector

namespace FatM

variable {α β : Type}

/- What a program of the driver does on a working disk. -/
def eval
    (m : FatM α)
    (x : FatWorld) : α × FatWorld :=
  let out := (m x.1).run Disk.perfect x.2
  (out.1.1, (out.1.2, out.2))

theorem eval_pure
    (a : α)
    (x : FatWorld) :
    eval (pure a) x = (a, x) :=
  rfl

theorem eval_bind
    (m : FatM α)
    (f : α → FatM β)
    (x : FatWorld) :
    eval (m >>= f) x =
      eval (f (eval m x).1) (eval m x).2 := by
  have hBind : (m >>= f) x.1 =
      m x.1 >>= fun out => f out.1 out.2 := rfl
  unfold eval
  rw [hBind, Prog.run_bind]

theorem eval_get
    (x : FatWorld) :
    eval get x = (x.1, x) :=
  rfl

theorem eval_live
    (x : FatWorld) :
    eval live x = (true, x) :=
  rfl

/- Continue after a step whose outcome is known. -/
theorem eval_step
    {m : FatM α}
    {a : α}
    {x y : FatWorld}
    (hStep : eval m x = (a, y))
    (f : α → FatM β) :
    eval (m >>= f) x = eval (f a) y := by
  rw [eval_bind, hStep]

end FatM

--
-- Reading
--

/- The bytes of `count` sectors of the disk. -/
def diskBuf
    (d : Device Sector)
    (lba count : Nat) : Buf :=
  fun i =>
    if i < 512 * count then
      (d.cur (lba + i / 512)).toBuf (i % 512)
    else
      0

theorem diskBuf_succ
    (d : Device Sector)
    (lba count : Nat) :
    diskBuf d lba (count + 1) =
      (diskBuf d lba count).copy (512 * count)
        (d.cur (lba + count)).toBuf 512 := by
  funext i
  unfold diskBuf Buf.copy
  by_cases hLast : 512 * count ≤ i ∧ i < 512 * count + 512
  · have hIndex : i / 512 = count := by omega
    have hOffset : i % 512 = i - 512 * count := by omega
    rw [if_pos hLast, if_pos (by omega), hIndex, hOffset]
  · rw [if_neg hLast]
    by_cases hFirst : i < 512 * count
    · rw [if_pos (by omega)]
      exact (if_pos hFirst).symm
    · rw [if_neg (by omega)]
      exact (if_neg hFirst).symm

theorem blkRead_run
    (d : Device Sector)
    (lba count : Nat) :
    (blkRead lba count).run Disk.perfect d =
      (some (diskBuf d lba count), d) := by
  induction count with
  | zero =>
      have hZero : diskBuf d lba 0 = Buf.zero := by
        funext i
        exact if_neg (by omega)
      rw [hZero]
      rfl
  | succ count ih =>
      rw [blkRead, Prog.run_bind, ih, diskBuf_succ]
      rfl

theorem FatM.eval_blkRead
    (x : FatWorld)
    (lba count : Nat) :
    FatM.eval (FatM.disk (blkRead lba count)) x =
      (some (diskBuf x.2 lba count), x) := by
  unfold FatM.eval FatM.disk
  simp only [Prog.run_bind, blkRead_run, Prog.run_ret]

--
-- The Address Space of the Log
--

/- A sector of the disk that holds the journal. -/
def JournalSector
    (v : FatVol)
    (p : Nat) : Prop :=
  v.fileWal = true ∧
    v.walSector + 1 + v.lba ≤ p ∧
    p ≤ v.walSector + 1 + stxMax + v.lba

/- The sectors outside of the journal are the same. -/
def SameApart
    (v : FatVol)
    (d d' : Device Sector) : Prop :=
  ∀ p, ¬JournalSector v p → d'.cur p = d.cur p

/- The sector of the disk behind an address of the log. -/
def physical
    (v : FatVol)
    (lba : Nat) : Nat :=
  if v.fileWal then lba + v.lba else lba

/- A sector that the log may write with this data. -/
structure LogWritable
    (v : FatVol)
    (lba : Nat)
    (data : Sector) : Prop where
  target : targetOk (txIo v) lba = true
  owner : keepsOwner v lba data = true
  mapped : txMap v lba = some (physical v lba)

theorem physical_injective
    {v : FatVol}
    {lba lba' : Nat}
    (hEq : physical v lba = physical v lba') :
    lba = lba' := by
  unfold physical at hEq
  split at hEq
  · omega
  · exact hEq

section Address

variable {v : FatVol}

/- The addresses of the journal are mapped to its file. -/
theorem txMap_journal
    (hMount : Mounted v)
    (hFile : v.fileWal = true)
    {i : Nat}
    (hi : i ≤ stxMax) :
    txMap v (v.journal + i) =
      some (v.walSector + 1 + i + v.lba) := by
  unfold txMap
  rw [(hMount.owned hFile).journal, hFile]
  have hIndex : fatWalVirtual + i - fatWalVirtual = i := by
    omega
  have hVirtual :
      (fatWalVirtual + i ≥ fatWalVirtual && i < stxMax + 1) =
        true := by
    rw [Bool.and_eq_true, decide_eq_true_eq,
      decide_eq_true_eq]
    omega
  simp only [Bool.not_true, Bool.false_eq_true, if_false,
    hIndex]
  exact if_pos hVirtual

theorem keepsOwner_journal
    (hMount : Mounted v)
    (hFile : v.fileWal = true)
    (i : Nat)
    (data : Sector) :
    keepsOwner v (v.journal + i) data = true := by
  have hOwned := hMount.owned hFile
  have hNe : (v.journal + i == v.walDir) = false := by
    have hBelow := hOwned.dirSector.2
    have hExtent := hOwned.extent
    have hFactor := hMount.factor.2
    have hLe : v.totalSectors * 1 ≤
        v.totalSectors * v.factor :=
      Nat.mul_le_mul_left _ hFactor
    rw [hMount.toGeometry.extent] at hExtent
    rw [hOwned.journal, beq_eq_false_iff_ne]
    omega
  unfold keepsOwner
  rw [hNe, Bool.and_false]
  rfl

/- A target that is mapped lies outside of the journal. -/
theorem target_apart
    (hMount : Mounted v)
    {lba p : Nat}
    (hTarget : targetOk (txIo v) lba = true)
    (hMap : txMap v lba = some p) :
    p = physical v lba ∧ ¬JournalSector v p := by
  rw [targetOk_iff] at hTarget
  unfold txMap at hMap
  unfold physical
  cases hFile : v.fileWal with
  | false =>
      rw [hFile] at hMap
      injection hMap with hMap
      refine ⟨hMap.symm, ?_⟩
      rintro ⟨hJournal, -⟩
      rw [hFile] at hJournal
      cases hJournal
  | true =>
      have hOwned := hMount.owned hFile
      have hLow : lba < fatWalVirtual := by
        have hExtent := hOwned.extent
        have hCount : lba < (if v.fileWal then 0 else v.lba) +
            v.extent := hTarget.2
        rw [hFile, if_pos rfl, Nat.zero_add] at hCount
        omega
      rw [hFile] at hMap
      simp only [Bool.not_true, Bool.false_eq_true,
        if_false] at hMap
      have hReal : ¬(lba ≥ fatWalVirtual &&
          lba - fatWalVirtual < stxMax + 1) = true := by
        rw [Bool.and_eq_true, decide_eq_true_eq]
        omega
      rw [if_neg hReal] at hMap
      cases hWal : walTarget v lba with
      | false =>
          rw [hWal] at hMap
          cases hMap
      | true =>
          rw [hWal] at hMap
          injection hMap with hMap
          refine ⟨hMap.symm, ?_⟩
          rintro ⟨-, hFrom, hTo⟩
          unfold walTarget walOverlap at hWal
          rw [hFile] at hWal
          simp only [Bool.true_and, Bool.and_eq_true,
            Bool.not_eq_true', Bool.and_eq_false_iff,
            decide_eq_true_eq, decide_eq_false_iff_not]
            at hWal
          have hRoom : stxMax + 2 ≤ v.walSectors := by
            have hPos := hMount.clusterSize.1
            have hDiv := Nat.div_add_mod
              (stxMax + 2 + v.sectorsPerCluster - 1)
              v.sectorsPerCluster
            have hMod := Nat.mod_lt
              (stxMax + 2 + v.sectorsPerCluster - 1) hPos
            rw [hOwned.sectors, hOwned.clusters,
              Nat.mul_comm]
            omega
          omega

end Address

--
-- Calls of the Log
--

section Log

variable {v : FatVol} {α β : Type}

/- What a program of the log does on a working disk. -/
def logRun
    (v : FatVol)
    (program : StxProg α)
    (d : Device Sector) : α × Device Sector :=
  (program.interp (txHandle v)).run Disk.perfect d

theorem logRun_bind
    (program : StxProg α)
    (f : α → StxProg β)
    (d : Device Sector) :
    logRun v (program >>= f) d =
      logRun v (f (logRun v program d).1)
        (logRun v program d).2 := by
  unfold logRun
  rw [Prog.interp_bind, Prog.run_bind]

/- Continue after a step whose outcome is known. -/
theorem logRun_step
    {program : StxProg α}
    {a : α}
    {d d' : Device Sector}
    (hStep : logRun v program d = (a, d'))
    (f : α → StxProg β) :
    logRun v (program >>= f) d = logRun v (f a) d' := by
  rw [logRun_bind, hStep]

theorem logRun_read
    {lba : Nat}
    (d : Device Sector) :
    logRun v (BlockProg.read lba) d =
      ((txMap v lba).map d.cur, d) := by
  unfold logRun BlockProg.read
  change ((txRead v lba >>= fun r => .ret r).run
    Disk.perfect d) = _
  rw [Prog.bind_ret]
  unfold txRead
  cases txMap v lba with
  | none => rfl
  | some p => rfl

theorem logRun_write
    {lba : Nat}
    {data : Sector}
    (d : Device Sector)
    (hOwner : keepsOwner v lba data = true) :
    logRun v (BlockProg.write lba data) d =
      match txMap v lba with
      | none => (false, d)
      | some p => (true, d.put p data) := by
  unfold logRun BlockProg.write
  change ((txWrite v lba data >>= fun r => .ret r).run
    Disk.perfect d) = _
  rw [Prog.bind_ret]
  unfold txWrite
  rw [hOwner]
  change (match txMap v lba with
    | none => pure false
    | some target => diskWrite target data :
      DiskProg Bool).run Disk.perfect d = _
  cases txMap v lba with
  | none => rfl
  | some p => rfl

/- The owner's entry is not written over. -/
theorem logRun_write_owner
    {lba : Nat}
    {data : Sector}
    (d : Device Sector)
    (hOwner : keepsOwner v lba data = false) :
    logRun v (BlockProg.write lba data) d = (false, d) := by
  unfold logRun BlockProg.write
  change ((txWrite v lba data >>= fun r => .ret r).run
    Disk.perfect d) = _
  rw [Prog.bind_ret]
  unfold txWrite
  rw [hOwner]
  rfl

theorem logRun_sync
    (d : Device Sector) :
    logRun v BlockProg.sync d = (true, d.flush) :=
  rfl

variable {i : Nat}

/- Sectors of the journal are written without notice. -/
theorem logRun_journal
    (hMount : Mounted v)
    (hFile : v.fileWal = true)
    (hi : i ≤ stxMax)
    (data : Sector)
    (d : Device Sector) :
    ∃ d', logRun v (BlockProg.write (v.journal + i) data) d =
        (true, d') ∧ SameApart v d d' := by
  have hOwner := keepsOwner_journal hMount hFile i data
  refine ⟨d.put (v.walSector + 1 + i + v.lba) data, ?_, ?_⟩
  · rw [logRun_write d hOwner, txMap_journal hMount hFile hi]
  · intro p hApart
    apply Device.put_cur_ne
    rintro rfl
    exact hApart ⟨hFile, by omega, by omega⟩

theorem header_run
    (hMount : Mounted v)
    (hFile : v.fileWal = true)
    {t : SectorTx}
    (hIo : t.io = txIo v)
    (active : Bool)
    (d : Device Sector) :
    ∃ d', logRun v (header t active) d = (true, d') ∧
      SameApart v d d' := by
  rcases logRun_journal hMount hFile (Nat.zero_le _)
    (headerSector t.io active t.undo) d with ⟨d', hRun, hSame⟩
  refine ⟨d'.flush, ?_, hSame⟩
  have hJournal : t.io.journal = v.journal + 0 := by
    rw [hIo]
    rfl
  unfold header
  rw [hJournal, logRun_step hRun]
  exact logRun_sync d'

theorem logRecord_run
    (hMount : Mounted v)
    {t : SectorTx}
    (hIo : t.io = txIo v)
    (hi : i < stxMax)
    (old : Sector)
    (d : Device Sector) :
    ∃ d', logRun v (logRecord t i old) d = (true, d') ∧
      SameApart v d d' := by
  have hCount : t.io.journalCount = v.journalCount := by
    rw [hIo]
    rfl
  unfold logRecord
  cases hFile : v.fileWal with
  | false =>
      refine ⟨d, ?_, fun _ _ => rfl⟩
      rw [hCount, (hMount.ram hFile).2]
      rfl
  | true =>
      have hSlot : t.io.journal + 1 + i =
          v.journal + (1 + i) := by
        rw [hIo]
        exact Nat.add_assoc ..
      have hFits : 1 + i ≤ stxMax := by omega
      rcases logRun_journal hMount hFile hFits old d with
        ⟨d₁, hWrite, hSame₁⟩
      rcases header_run hMount hFile hIo true d₁.flush with
        ⟨d₂, hHeader, hSame₂⟩
      refine ⟨d₂, ?_, ?_⟩
      · rw [hCount, (hMount.owned hFile).journalCount, hSlot]
        change logRun v (BlockProg.write _ old >>= _) d = _
        rw [logRun_step hWrite]
        change logRun v (BlockProg.sync >>= _) d₁ = _
        rw [logRun_step (logRun_sync d₁)]
        exact hHeader
      · intro p hApart
        exact (hSame₂ p hApart).trans (hSame₁ p hApart)

end Log

--
-- Undoing
--

/- The log has the old contents of a target. -/
def HasRecord
    (t : SectorTx)
    (lba : Nat) : Prop :=
  ∃ u ∈ t.undo, u.lba = lba

/- The entry of the log's file is where it was found. -/
def OwnerIntact
    (v : FatVol)
    (d : Device Sector) : Prop :=
  v.fileWal = true →
    ((d.cur (v.walDir + v.lba)).toBuf.drop v.walOff).same
      v.walEntry 32 = true

/-
  An open transaction: outside of the journal, what differs
  from the disk `d₀` at its start has a record of `d₀`.
-/
structure Undoing
    (v : FatVol)
    (d₀ : Device Sector)
    (t : SectorTx)
    (d : Device Sector) : Prop where
  io : t.io = txIo v
  active : t.active = true
  failed : t.failed = false
  closing : t.closing = false
  nodup : (t.undo.map UndoRecord.lba).Nodup
  room : t.undo.length ≤ stxMax
  writable : ∀ u ∈ t.undo, LogWritable v u.lba u.old
  old : ∀ u ∈ t.undo, u.old = d₀.cur (physical v u.lba)
  frame : ∀ p, ¬JournalSector v p →
    (∀ u ∈ t.undo, physical v u.lba ≠ p) →
      d.cur p = d₀.cur p

section Undo

variable {v : FatVol} {d₀ d : Device Sector}
variable {t : SectorTx} {lba : Nat} {data : Sector}

theorem any_iff_hasRecord :
    t.undo.any (fun u => u.lba == lba) = true ↔
      HasRecord t lba := by
  rw [List.any_eq_true]
  constructor
  · rintro ⟨u, hu, hLba⟩
    exact ⟨u, hu, beq_iff_eq.mp hLba⟩
  · rintro ⟨u, hu, hLba⟩
    exact ⟨u, hu, beq_iff_eq.mpr hLba⟩

/- The old contents of a target may be written back. -/
theorem LogWritable.of_owner
    (hOwner : OwnerIntact v d₀)
    (hWritable : LogWritable v lba data) :
    LogWritable v lba (d₀.cur (physical v lba)) where
  target := hWritable.target
  mapped := hWritable.mapped
  owner := by
    unfold keepsOwner
    by_cases hEntry : (v.fileWal && lba == v.walDir) = true
    · rw [hEntry, Bool.not_true, Bool.false_or]
      rw [Bool.and_eq_true, beq_iff_eq] at hEntry
      rcases hEntry with ⟨hFile, rfl⟩
      have hPhysical : physical v v.walDir =
          v.walDir + v.lba :=
        if_pos hFile
      rw [hPhysical]
      exact hOwner hFile
    · rw [Bool.not_eq_true] at hEntry
      rw [hEntry]
      rfl

/- The disk changed where a record is, or in the journal. -/
theorem Undoing.disk
    {d' : Device Sector}
    (hUndoing : Undoing v d₀ t d)
    (hChange : ∀ p, ¬JournalSector v p →
      (∀ u ∈ t.undo, physical v u.lba ≠ p) →
        d'.cur p = d.cur p) :
    Undoing v d₀ t d' where
  io := hUndoing.io
  active := hUndoing.active
  failed := hUndoing.failed
  closing := hUndoing.closing
  nodup := hUndoing.nodup
  room := hUndoing.room
  writable := hUndoing.writable
  old := hUndoing.old
  frame p hApart hNone :=
    (hChange p hApart hNone).trans
      (hUndoing.frame p hApart hNone)

/- The handle with one more record. -/
def withRecord
    (t : SectorTx)
    (lba : Nat)
    (old : Sector) : SectorTx :=
  { t with
    undo := t.undo ++ [⟨lba, stxCrc32 old.toBuf 512, old⟩] }

theorem hasRecord_withRecord
    {old : Sector}
    {k : Nat} :
    HasRecord (withRecord t lba old) k ↔
      HasRecord t k ∨ k = lba := by
  unfold HasRecord withRecord
  simp only [List.mem_append, List.mem_singleton]
  constructor
  · rintro ⟨u, hu | rfl, rfl⟩
    · exact .inl ⟨u, hu, rfl⟩
    · exact .inr rfl
  · rintro (⟨u, hu, rfl⟩ | rfl)
    · exact ⟨u, .inl hu, rfl⟩
    · exact ⟨_, .inr rfl, rfl⟩

/- Without a record, a target is as it was at the start. -/
theorem Undoing.cur_eq
    (hMount : Mounted v)
    (hUndoing : Undoing v d₀ t d)
    (hWritable : LogWritable v lba data)
    (hNone : ¬HasRecord t lba) :
    d.cur (physical v lba) = d₀.cur (physical v lba) := by
  have hApart := (target_apart hMount hWritable.target
    hWritable.mapped).2
  apply hUndoing.frame _ hApart
  intro u hu hEq
  exact hNone ⟨u, hu, physical_injective hEq⟩

theorem Undoing.record
    (hMount : Mounted v)
    (hOwner : OwnerIntact v d₀)
    (hUndoing : Undoing v d₀ t d)
    (hWritable : LogWritable v lba data)
    (hNone : ¬HasRecord t lba)
    (hRoom : t.undo.length < stxMax) :
    Undoing v d₀
      (withRecord t lba (d.cur (physical v lba))) d := by
  have hCur := hUndoing.cur_eq hMount hWritable hNone
  refine
    { io := hUndoing.io
      active := hUndoing.active
      failed := hUndoing.failed
      closing := hUndoing.closing
      nodup := ?_
      room := ?_
      writable := ?_
      old := ?_
      frame := ?_ }
  · unfold withRecord
    rw [List.map_append, List.nodup_append]
    refine ⟨hUndoing.nodup, List.nodup_singleton _, ?_⟩
    intro a ha b hb hEq
    rcases List.mem_map.mp ha with ⟨u, hu, hLba⟩
    rw [List.mem_singleton.mp hb] at hEq
    exact hNone ⟨u, hu, hLba.trans hEq⟩
  · unfold withRecord
    rw [List.length_append]
    exact hRoom
  · intro u hu
    rcases List.mem_append.mp hu with hu | hu
    · exact hUndoing.writable u hu
    · rw [List.mem_singleton.mp hu, hCur]
      exact hWritable.of_owner hOwner
  · intro u hu
    rcases List.mem_append.mp hu with hu | hu
    · exact hUndoing.old u hu
    · rw [List.mem_singleton.mp hu]
      exact hCur
  · intro p hApart hAway
    apply hUndoing.frame p hApart
    intro u hu
    exact hAway u (List.mem_append_left _ hu)

/-
  The target gets a record, unless it has one already: the
  handle then has records of what it had and of the target.
-/
theorem recordTarget_run
    (hMount : Mounted v)
    (hOwner : OwnerIntact v d₀)
    (hUndoing : Undoing v d₀ t d)
    (hWritable : LogWritable v lba data)
    (hRoom : HasRecord t lba ∨ t.undo.length < stxMax) :
    ∃ t' d', logRun v (recordTarget t lba) d =
        ((true, t'), d') ∧
      Undoing v d₀ t' d' ∧ SameApart v d d' ∧
      ∀ k, HasRecord t' k ↔ HasRecord t k ∨ k = lba := by
  unfold recordTarget
  by_cases hHas : HasRecord t lba
  · refine ⟨t, d, ?_, hUndoing, fun _ _ => rfl, ?_⟩
    · rw [if_pos (any_iff_hasRecord.mpr hHas)]
      rfl
    · intro k
      constructor
      · exact .inl
      · rintro (h | rfl)
        · exact h
        · exact hHas
  · have hLess : t.undo.length < stxMax :=
      hRoom.resolve_left hHas
    rw [if_neg (fun h => hHas (any_iff_hasRecord.mp h)),
      if_neg (by rw [beq_iff_eq]; omega)]
    have hRead : logRun v (BlockProg.read lba) d =
        (some (d.cur (physical v lba)), d) := by
      rw [logRun_read, hWritable.mapped]
      rfl
    have hRecord := hUndoing.record hMount hOwner hWritable
      hHas hLess
    rcases logRecord_run hMount hRecord.io hLess
        (d.cur (physical v lba)) d with ⟨d', hLog, hSame⟩
    refine ⟨withRecord t lba (d.cur (physical v lba)), d',
      ?_, ?_, hSame, fun _ => hasRecord_withRecord⟩
    · rw [logRun_step hRead]
      exact logRun_step hLog _
    · exact hRecord.disk (fun p hApart _ => hSame p hApart)

theorem stxWrite_run
    (hMount : Mounted v)
    (hOwner : OwnerIntact v d₀)
    (hUndoing : Undoing v d₀ t d)
    (hWritable : LogWritable v lba data)
    (hRoom : HasRecord t lba ∨ t.undo.length < stxMax) :
    ∃ t' d', logRun v (stxWrite t lba (some data)) d =
        ((0, t'), d') ∧
      Undoing v d₀ t' d' ∧
      (∀ k, HasRecord t' k ↔ HasRecord t k ∨ k = lba) ∧
      ∀ p, ¬JournalSector v p →
        d'.cur p =
          if p = physical v lba then data else d.cur p := by
  rcases recordTarget_run hMount hOwner hUndoing hWritable
      hRoom with ⟨t', d₁, hRecord, hUndoing₁, hSame, hHas⟩
  refine ⟨t', d₁.put (physical v lba) data, ?_, ?_, hHas, ?_⟩
  · unfold stxWrite
    rw [hUndoing.active, hUndoing.failed, hUndoing.closing,
      hUndoing.io, hWritable.target]
    change logRun v (recordTarget t lba >>= _) d = _
    rw [logRun_step hRecord]
    change logRun v (BlockProg.write lba data >>= _) d₁ = _
    have hWrite : logRun v (BlockProg.write lba data) d₁ =
        (true, d₁.put (physical v lba) data) := by
      rw [logRun_write d₁ hWritable.owner, hWritable.mapped]
    rw [logRun_step hWrite]
    rfl
  · apply hUndoing₁.disk
    intro p _ hAway
    rcases (hHas lba).mpr (.inr rfl) with ⟨u, hu, rfl⟩
    exact Device.put_cur_ne (Ne.symm (hAway u hu))
  · intro p hApart
    split
    · next hEq =>
        rw [hEq]
        exact Device.put_cur_same ..
    · next hNe =>
        rw [Device.put_cur_ne hNe]
        exact hSame p hApart

/- What is left of a write once the target has a record. -/
theorem stxWrite_run_eq
    (hUndoing : Undoing v d₀ t d)
    (hTarget : targetOk (txIo v) lba = true) :
    (logRun v (stxWrite t lba (some data)) d).1.1 =
      if (logRun v (recordTarget t lba) d).1.1 = true ∧
          (logRun v (BlockProg.write lba data)
            (logRun v (recordTarget t lba) d).2).1 = true then
        0
      else
        -1 := by
  unfold stxWrite
  rw [hUndoing.active, hUndoing.failed, hUndoing.closing,
    hUndoing.io, hTarget]
  simp only [Bool.not_true, Bool.or_self, Bool.false_eq_true,
    if_false]
  rw [logRun_bind]
  rcases logRun v (recordTarget t lba) d with ⟨⟨ok, t'⟩, d'⟩
  cases ok with
  | false => rfl
  | true =>
      simp only [Bool.not_true, Bool.false_eq_true, if_false,
        true_and]
      rw [logRun_bind]
      rcases logRun v (BlockProg.write lba data) d' with
        ⟨done, d''⟩
      cases done with
      | false => rfl
      | true => rfl

/- A write that succeeds was of a target, with room. -/
theorem stxWrite_run_zero
    (hMount : Mounted v)
    (hUndoing : Undoing v d₀ t d)
    (hDone : ¬(logRun v (stxWrite t lba (some data)) d).1.1
      < 0) :
    LogWritable v lba data ∧
      (HasRecord t lba ∨ t.undo.length < stxMax) := by
  have hTarget : targetOk (txIo v) lba = true := by
    by_contra hNot
    apply hDone
    unfold stxWrite
    rw [hUndoing.active, hUndoing.failed, hUndoing.closing,
      hUndoing.io, Bool.eq_false_iff.mpr hNot]
    exact (by decide : (-1 : Int) < 0)
  rw [stxWrite_run_eq hUndoing hTarget] at hDone
  have hBoth : (logRun v (recordTarget t lba) d).1.1 = true ∧
      (logRun v (BlockProg.write lba data)
        (logRun v (recordTarget t lba) d).2).1 = true := by
    by_contra hNot
    rw [if_neg hNot] at hDone
    exact hDone (by decide)
  have hKeeps : keepsOwner v lba data = true := by
    by_contra hNot
    have hWrite := hBoth.2
    rw [logRun_write_owner _ (Bool.eq_false_iff.mpr hNot)]
      at hWrite
    cases hWrite
  refine ⟨⟨hTarget, hKeeps, ?_⟩, ?_⟩
  · have hWrite := hBoth.2
    rw [logRun_write _ hKeeps] at hWrite
    cases hMap : txMap v lba with
    | none =>
        rw [hMap] at hWrite
        cases hWrite
    | some p =>
        rw [(target_apart hMount hTarget hMap).1]
  · by_contra hNot
    rw [not_or] at hNot
    have hFull : t.undo.length = stxMax :=
      Nat.le_antisymm hUndoing.room
        (Nat.le_of_not_lt hNot.2)
    have hRecord := hBoth.1
    unfold recordTarget at hRecord
    rw [if_neg (fun h => hNot.1 (any_iff_hasRecord.mp h)),
      if_pos (by rw [hFull, beq_self_eq_true])] at hRecord
    cases hRecord

/- What restoring a list of records leaves. -/
theorem logRun_restoreRecords
    (records : List UndoRecord)
    (hWritable : ∀ u ∈ records, LogWritable v u.lba u.old)
    (hOld : ∀ u ∈ records,
      u.old = d₀.cur (physical v u.lba))
    (d : Device Sector) :
    ∃ d', logRun v (restoreRecords records) d = (true, d') ∧
      (∀ p, (∀ u ∈ records, physical v u.lba ≠ p) →
        d'.cur p = d.cur p) ∧
      ∀ u ∈ records, d'.cur (physical v u.lba) =
        d₀.cur (physical v u.lba) := by
  induction records generalizing d with
  | nil => exact ⟨d, rfl, fun _ _ => rfl, by simp⟩
  | cons u us ih =>
      have hHead := hWritable u List.mem_cons_self
      rcases ih
          (fun w hw => hWritable w (List.mem_cons_of_mem _ hw))
          (fun w hw => hOld w (List.mem_cons_of_mem _ hw))
          (d.put (physical v u.lba) u.old) with
        ⟨d', hRun, hAway, hBack⟩
      refine ⟨d', ?_, ?_, ?_⟩
      · have hWrite : logRun v
            (BlockProg.write u.lba u.old) d =
              (true, d.put (physical v u.lba) u.old) := by
          rw [logRun_write d hHead.owner, hHead.mapped]
        rw [restoreRecords, logRun_step hWrite]
        exact hRun
      · intro p hp
        rw [hAway p
          (fun w hw => hp w (List.mem_cons_of_mem _ hw))]
        exact Device.put_cur_ne
          (Ne.symm (hp u List.mem_cons_self))
      · intro w hw
        by_cases hLater : ∃ x ∈ us, physical v x.lba =
            physical v w.lba
        · rcases hLater with ⟨x, hx, hEq⟩
          rw [← hEq]
          exact hBack x hx
        · have hHere : w = u := by
            rcases List.mem_cons.mp hw with rfl | hw
            · rfl
            · exact absurd ⟨w, hw, rfl⟩ hLater
          rw [hAway _ (fun x hx hEq =>
            hLater ⟨x, hx, hEq⟩), hHere, Device.put_cur_same]
          exact hOld u List.mem_cons_self

/- Aborting brings back every sector but the journal's. -/
theorem stxAbort_run
    (hMount : Mounted v)
    (hUndoing : Undoing v d₀ t d) :
    ∃ t' d', logRun v (stxAbort t) d = ((0, t'), d') ∧
      SameApart v d₀ d' := by
  have hMem : ∀ {u : UndoRecord}, u ∈ t.undo.reverse ↔
      u ∈ t.undo :=
    List.mem_reverse
  rcases logRun_restoreRecords t.undo.reverse
      (fun u hu => hUndoing.writable u (hMem.mp hu))
      (fun u hu => hUndoing.old u (hMem.mp hu)) d with
    ⟨d₁, hRestore, hAway, hBack⟩
  have hSame : SameApart v d₀ d₁.flush := by
    intro p hApart
    change d₁.cur p = d₀.cur p
    by_cases hRecord : ∃ u ∈ t.undo, physical v u.lba = p
    · rcases hRecord with ⟨u, hu, rfl⟩
      exact hBack u (hMem.mpr hu)
    · have hNone : ∀ u ∈ t.undo, physical v u.lba ≠ p :=
        fun u hu hEq => hRecord ⟨u, hu, hEq⟩
      rw [hAway p (fun u hu => hNone u (hMem.mp hu))]
      exact hUndoing.frame p hApart hNone
  have hCount : t.io.journalCount = v.journalCount := by
    rw [hUndoing.io]
    rfl
  unfold stxAbort
  rw [hUndoing.active, hUndoing.closing, hCount]
  change ∃ t' d', logRun v
    (restoreRecords t.undo.reverse >>= _) d = _ ∧ _
  rw [logRun_step hRestore]
  change ∃ t' d', logRun v (BlockProg.sync >>= _) d₁ = _ ∧ _
  rw [logRun_step (logRun_sync d₁)]
  cases hFile : v.fileWal with
  | false =>
      rw [(hMount.ram hFile).2]
      exact ⟨_, _, rfl, hSame⟩
  | true =>
      rw [(hMount.owned hFile).journalCount]
      rcases header_run hMount hFile
          (t := { t with closing := true }) hUndoing.io false
          d₁.flush with ⟨d₂, hHeader, hSame₂⟩
      refine ⟨{ t with
        undo := []
        active := false
        closing := true }, d₂, ?_, ?_⟩
      · exact logRun_step hHeader _
      · intro p hApart
        exact (hSame₂ p hApart).trans (hSame p hApart)

end Undo

--
-- Sectors of the Volume
--

/- Part `k` of the data of a sector. -/
def chunk
    (data : Buf)
    (k : Nat) : Sector :=
  (data.drop (512 * k)).toSector

/-
  What the log has done with the parts of a sector, from
  number `i` on.
-/
structure Written
    (v : FatVol)
    (d₀ : Device Sector)
    (lba : Nat)
    (data : Buf)
    (i count : Nat)
    (t : SectorTx)
    (d : Device Sector)
    (t' : SectorTx)
    (d' : Device Sector) : Prop where
  undoing : Undoing v d₀ t' d'
  writable : ∀ k, i ≤ k → k < i + count →
    LogWritable v (lba + k) (chunk data k)
  records : ∀ k, HasRecord t' k ↔ HasRecord t k ∨
    lba + i ≤ k ∧ k < lba + i + count
  cur : ∀ p, ¬JournalSector v p →
    d'.cur p =
      if physical v lba + i ≤ p ∧
          p < physical v lba + i + count then
        chunk data (p - physical v lba)
      else
        d.cur p

section Chunks

variable {v : FatVol} {d₀ : Device Sector}
variable {lba : Nat} {data : Buf}

theorem physical_add
    (v : FatVol)
    (lba k : Nat) :
    physical v (lba + k) = physical v lba + k := by
  unfold physical
  split <;> omega

theorem Written.nil
    {t : SectorTx}
    {d : Device Sector}
    (hUndoing : Undoing v d₀ t d)
    (i : Nat) :
    Written v d₀ lba data i 0 t d t d where
  undoing := hUndoing
  writable k hLow hHigh := by omega
  records k := by
    constructor
    · exact .inl
    · rintro (h | h)
      · exact h
      · omega
  cur p _ := (if_neg (by omega)).symm

/- One part more, in front of the others. -/
theorem Written.cons
    {i count : Nat}
    {t t₁ t' : SectorTx}
    {d d₁ d' : Device Sector}
    (hWritable : LogWritable v (lba + i) (chunk data i))
    (hHas : ∀ k, HasRecord t₁ k ↔
      HasRecord t k ∨ k = lba + i)
    (hCur : ∀ p, ¬JournalSector v p →
      d₁.cur p = if p = physical v (lba + i) then
        chunk data i else d.cur p)
    (hRest : Written v d₀ lba data (i + 1) count
      t₁ d₁ t' d') :
    Written v d₀ lba data i (count + 1) t d t' d' where
  undoing := hRest.undoing
  writable k hLow hHigh := by
    by_cases hEq : k = i
    · rw [hEq]
      exact hWritable
    · exact hRest.writable k (by omega) (by omega)
  records k := by
    rw [hRest.records, hHas]
    constructor
    · rintro ((h | h) | h)
      · exact .inl h
      · exact .inr (by omega)
      · exact .inr (by omega)
    · rintro (h | h)
      · exact .inl (.inl h)
      · by_cases hEq : k = lba + i
        · exact .inl (.inr hEq)
        · exact .inr (by omega)
  cur p hApart := by
    rw [hRest.cur p hApart, hCur p hApart, physical_add]
    by_cases hHead : p = physical v lba + i
    · rw [if_neg (by omega), if_pos hHead, if_pos (by omega),
        hHead, Nat.add_sub_cancel_left]
    · rw [if_neg hHead]
      by_cases hTail : physical v lba + (i + 1) ≤ p ∧
          p < physical v lba + (i + 1) + count
      · rw [if_pos hTail, if_pos (by omega)]
      · rw [if_neg hTail, if_neg (by omega)]

theorem FatM.eval_tx
    (call : SectorTx → StxProg (Int × SectorTx))
    (x : FatWorld) :
    FatM.eval (FatM.tx v call) x =
      ((logRun v (call x.1.tx) x.2).1.1,
        ({ x.1 with tx := (logRun v (call x.1.tx) x.2).1.2 },
          (logRun v (call x.1.tx) x.2).2)) := by
  unfold FatM.eval FatM.tx logRun
  simp only [Prog.run_bind, Prog.run_ret]

variable {x : FatWorld}

theorem FatM.eval_tx_of
    {call : SectorTx → StxProg (Int × SectorTx)}
    {r : Int}
    {t' : SectorTx}
    {d' : Device Sector}
    (hRun : logRun v (call x.1.tx) x.2 = ((r, t'), d')) :
    FatM.eval (FatM.tx v call) x =
      (r, ({ x.1 with tx := t' }, d')) := by
  rw [FatM.eval_tx, hRun]

variable {allowed : Finset Nat}

/-
  A set of targets with room for all of them in the log has
  room for each.
-/
theorem room_of_card
    {t : SectorTx}
    {d : Device Sector}
    (hUndoing : Undoing v d₀ t d)
    (hCard : allowed.card ≤ stxMax)
    (hHas : ∀ k, HasRecord t k → k ∈ allowed)
    (hLba : lba ∈ allowed) :
    HasRecord t lba ∨ t.undo.length < stxMax := by
  by_cases hRecord : HasRecord t lba
  · exact .inl hRecord
  · have hSubset : (t.undo.map UndoRecord.lba).toFinset ⊆
        allowed.erase lba := by
      intro k hk
      rcases List.mem_map.mp (List.mem_toFinset.mp hk) with
        ⟨u, hu, rfl⟩
      rw [Finset.mem_erase]
      refine ⟨?_, hHas _ ⟨u, hu, rfl⟩⟩
      intro hEq
      exact hRecord ⟨u, hu, hEq⟩
    have hLe := Finset.card_le_card hSubset
    rw [List.toFinset_card_of_nodup hUndoing.nodup,
      List.length_map, Finset.card_erase_of_mem hLba] at hLe
    have hPos := Finset.card_pos.mpr ⟨lba, hLba⟩
    exact .inr (by omega)

/- Parts that may be written, with room for them, are. -/
theorem writeChunks_run
    (hMount : Mounted v)
    (hOwner : OwnerIntact v d₀)
    (hCard : allowed.card ≤ stxMax)
    (i count : Nat)
    (hWritable : ∀ k, i ≤ k → k < i + count →
      LogWritable v (lba + k) (chunk data k))
    (hAllowed : ∀ k, i ≤ k → k < i + count →
      lba + k ∈ allowed)
    (hUndoing : Undoing v d₀ x.1.tx x.2)
    (hHas : ∀ k, HasRecord x.1.tx k → k ∈ allowed) :
    ∃ t' d', FatM.eval (writeChunks v lba data i count) x =
        (true, ({ x.1 with tx := t' }, d')) ∧
      Written v d₀ lba data i count x.1.tx x.2 t' d' := by
  induction count generalizing i x with
  | zero =>
      exact ⟨x.1.tx, x.2, rfl, .nil hUndoing i⟩
  | succ count ih =>
      have hHead := hWritable i (Nat.le_refl i) (by omega)
      have hRoom := room_of_card hUndoing hCard hHas
        (hAllowed i (Nat.le_refl i) (by omega))
      rcases stxWrite_run hMount hOwner hUndoing hHead
          hRoom with ⟨t₁, d₁, hRun, hUndoing₁, hHas₁, hCur⟩
      have hAllowed₁ : ∀ k, HasRecord t₁ k →
          k ∈ allowed := by
        intro k hk
        rcases (hHas₁ k).mp hk with hk | rfl
        · exact hHas k hk
        · exact hAllowed i (Nat.le_refl i) (by omega)
      rcases ih (i + 1)
          (fun k hLow hHigh =>
            hWritable k (by omega) (by omega))
          (fun k hLow hHigh =>
            hAllowed k (by omega) (by omega))
          (x := ({ x.1 with tx := t₁ }, d₁))
          hUndoing₁ hAllowed₁ with ⟨t', d', hRest, hWritten⟩
      refine ⟨t', d', ?_, .cons hHead hHas₁ hCur hWritten⟩
      rw [writeChunks, FatM.eval_step (FatM.eval_tx_of hRun)]
      exact hRest

/- Parts that were all written were a target each. -/
theorem writeChunks_true
    (hMount : Mounted v)
    (hOwner : OwnerIntact v d₀)
    (i count : Nat)
    (hUndoing : Undoing v d₀ x.1.tx x.2)
    (hDone : (FatM.eval
      (writeChunks v lba data i count) x).1 = true) :
    ∃ t' d', FatM.eval (writeChunks v lba data i count) x =
        (true, ({ x.1 with tx := t' }, d')) ∧
      Written v d₀ lba data i count x.1.tx x.2 t' d' := by
  induction count generalizing i x with
  | zero =>
      exact ⟨x.1.tx, x.2, rfl, .nil hUndoing i⟩
  | succ count ih =>
      rcases hRun : logRun v (stxWrite x.1.tx (lba + i)
          (some (chunk data i))) x.2 with ⟨⟨r, t₁⟩, d₁⟩
      rw [writeChunks, FatM.eval_step (FatM.eval_tx_of hRun)]
        at hDone
      by_cases hFailed : r < 0
      · rw [if_pos hFailed] at hDone
        cases hDone
      · rw [if_neg hFailed] at hDone
        rcases stxWrite_run_zero hMount hUndoing
            (by rw [hRun]; exact hFailed) with ⟨hHead, hRoom⟩
        rcases stxWrite_run hMount hOwner hUndoing hHead
            hRoom with ⟨t₂, d₂, hRun₂, hUndoing₂, hHas, hCur⟩
        have hSame := hRun.symm.trans hRun₂
        injection hSame with hFirst hDisk
        injection hFirst with _ hHandle
        rw [hHandle, hDisk] at hDone
        rcases ih (i + 1) (x := ({ x.1 with tx := t₂ }, d₂))
            hUndoing₂ hDone with ⟨t', d', hRest, hWritten⟩
        refine ⟨t', d', ?_, .cons hHead hHas hCur hWritten⟩
        rw [writeChunks,
          FatM.eval_step (FatM.eval_tx_of hRun₂)]
        exact hRest

end Chunks

end KvantOS
