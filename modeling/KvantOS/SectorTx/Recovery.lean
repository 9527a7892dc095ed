import KvantOS.SectorTx.Closing
import Mathlib

/-
  This file proves that recovery is safe on any medium: it
  writes nothing before the whole log has been validated,
  then only the recorded sectors and the header, and any
  number of crashes inside recovery do not change what the
  first complete run leaves.

  Key definitions include:
    * `recoveredDisk`, `recoveryPlan`, `CrashedRecovery`

  Key theorems include:
    * `stxRecover_run_valid`, `stxRecover_spec`
    * `stxRecover_any_medium`
-/

--
-- Uninterrupted Recovery
--

namespace KvantOS

variable {io : StxIo}

/- The writes that put the records back, in order. -/
def restoreWrites
    (undo : List UndoRecord) : List (Nat × Sector) :=
  undo.reverse.map (fun u => (u.lba, u.old))

/- All the writes of a recovery, in order. -/
def recoveryPlan
    (io : StxIo)
    (undo : List UndoRecord) : List (Nat × Sector) :=
  restoreWrites undo ++
    [(io.journal, headerSector io false [])]

/- What an uninterrupted recovery leaves. -/
def recoveredDisk
    (io : StxIo)
    (undo : List UndoRecord)
    (disk : Nat → Sector) : Nat → Sector :=
  Function.update (restore undo disk) io.journal
    (headerSector io false [])

theorem recoveredDisk_closed
    (hConfig : configOk io = true)
    (hJournal : io.journalCount ≠ 0)
    (undo : List UndoRecord)
    (disk : Nat → Sector) :
    ClosedLog io (recoveredDisk io undo disk) := by
  rw [ClosedLog, recoveredDisk, Function.update_self]
  exact closedHeader_headerSector hConfig hJournal []

variable {disk : Nat → Sector} {undo : List UndoRecord}

theorem recoveredDisk_target
    (hConfig : configOk io = true)
    (hJournal : io.journalCount ≠ 0)
    {lba : Nat}
    (hTarget : targetOk io lba = true) :
    recoveredDisk io undo disk lba =
      restore undo disk lba := by
  apply Function.update_of_ne
  exact targetOk_ne_journal hConfig hJournal hTarget
    (Nat.zero_le _)

/- The restoring loop on a perfect device. -/
theorem restoreRecords_run
    {records : List UndoRecord}
    (hDistinct : (records.map UndoRecord.lba).Nodup)
    (d : Device Sector) :
    ∃ d', (restoreRecords records).run Device.perfect d =
        (true, d') ∧
      (∀ u ∈ records, d'.cur u.lba = u.old) ∧
      ∀ lba, (∀ u ∈ records, u.lba ≠ lba) →
        d'.cur lba = d.cur lba := by
  induction records generalizing d with
  | nil =>
      exact ⟨d, rfl, fun u hu => by simp at hu,
        fun _ _ => rfl⟩
  | cons u us ih =>
      rw [List.map_cons, List.nodup_cons] at hDistinct
      obtain ⟨d', hRun, hOld, hFrame⟩ :=
        ih hDistinct.2 (d.put u.lba u.old)
      refine ⟨d', hRun, ?_, ?_⟩
      · intro w hw
        rcases List.mem_cons.mp hw with rfl | hIn
        · rw [hFrame w.lba ?_]
          · exact Device.put_cur_same ..
          · intro x hx hEq
            exact hDistinct.1
              (hEq ▸ List.mem_map_of_mem hx)
        · exact hOld w hIn
      · intro lba hNone
        rw [hFrame lba (fun w hw =>
          hNone w (List.mem_cons_of_mem _ hw))]
        exact Device.put_cur_ne
          (hNone u List.mem_cons_self).symm

/- The loop over all records restores the disk. -/
theorem restore_of_loop
    {cur : Nat → Sector}
    (hDistinct : (undo.map UndoRecord.lba).Nodup)
    (hOld : ∀ u ∈ undo, cur u.lba = u.old)
    (hFrame : ∀ lba, (∀ u ∈ undo, u.lba ≠ lba) →
      cur lba = disk lba) :
    cur = restore undo disk := by
  funext lba
  by_cases hMem : ∃ u ∈ undo, u.lba = lba
  · obtain ⟨u, hu, rfl⟩ := hMem
    rw [restore_of_mem hDistinct hu, hOld u hu]
  · have hFresh : ∀ u ∈ undo, u.lba ≠ lba :=
      fun u hu hEq => hMem ⟨u, hu, hEq⟩
    rw [restore_of_not_mem hFresh, hFrame lba hFresh]

variable {d : Device Sector}

theorem stxRecover_run_closed
    (hConfig : configOk io = true)
    (hJournal : io.journalCount ≠ 0)
    (t : SectorTx)
    (hLog : ClosedLog io d.cur) :
    (stxRecover t io).run Device.perfect d =
      ((0, idleTx io), d) := by
  rw [stxRecover, Prog.run_bind,
    stxLoad_run_closed hConfig hJournal hLog]
  rfl

theorem stxRecover_run_valid
    (hConfig : configOk io = true)
    (hJournal : io.journalCount ≠ 0)
    (t : SectorTx)
    (hLog : ValidLog io d.cur undo) :
    ((stxRecover t io).run Device.perfect d).1.1 = 0 ∧
      ((stxRecover t io).run Device.perfect d).2.cur =
        recoveredDisk io undo d.cur := by
  have hDistinct :
      (undo.reverse.map UndoRecord.lba).Nodup := by
    rw [List.map_reverse, List.nodup_reverse]
    exact hLog.records.distinct
  obtain ⟨d', hRun, hOld, hFrame⟩ :=
    restoreRecords_run hDistinct d
  have hRestored : d'.cur = restore undo d.cur :=
    restore_of_loop hLog.records.distinct
      (fun u hu => hOld u (List.mem_reverse.mpr hu))
      (fun lba hNone => hFrame lba
        (fun u hu => hNone u (List.mem_reverse.mp hu)))
  rw [stxRecover, Prog.run_bind,
    stxLoad_run_valid hConfig hJournal hLog]
  simp [stxAbort, header, idleTx, hRun, hJournal,
    BlockProg.sync, BlockProg.write, Device.perfect,
    Device.put, recoveredDisk, hRestored,
    headerSector_closed io undo]

/- Recovery of a recoverable disk brings `base` back. -/
theorem Recovers.run
    {K : Nat → Prop}
    {base disk : Nat → Sector}
    (hConfig : configOk io = true)
    (hJournal : io.journalCount ≠ 0)
    (hProtects : Protects io K)
    (hRecovers : Recovers io K base disk)
    (t : SectorTx) :
    ((stxRecover t io).run Device.perfect
        (Device.ofDisk disk)).1.1 = 0 ∧
      ∀ lba, K lba →
        ((stxRecover t io).run Device.perfect
          (Device.ofDisk disk)).2.cur lba = base lba := by
  cases hRecovers with
  | closed hLog hSame =>
      rw [stxRecover_run_closed (d := Device.ofDisk disk)
        hConfig hJournal t hLog]
      exact ⟨rfl, hSame⟩
  | undone undo hLog hSame =>
      obtain ⟨hZero, hCur⟩ := stxRecover_run_valid
        (d := Device.ofDisk disk) hConfig hJournal t hLog
      refine ⟨hZero, fun lba hK => ?_⟩
      rw [hCur, recoveredDisk_target hConfig hJournal
        (hProtects lba hK)]
      exact hSame lba hK

--
-- Interrupted Recovery
--

/- The recorded sectors aside, the disk is as it was. -/
def SameBut
    (undo : List UndoRecord)
    (disk disk' : Nat → Sector) : Prop :=
  ∀ lba, (∀ u ∈ undo, u.lba ≠ lba) → disk' lba = disk lba

/-
  What a crash inside a recovery of `disk` may leave: the
  log still valid, or the recovery finished.
-/
def PartlyRecovered
    (io : StxIo)
    (undo : List UndoRecord)
    (disk disk' : Nat → Sector) : Prop :=
  SameBut undo disk disk' ∨
    disk' = recoveredDisk io undo disk

/- The header and the slots are never among the targets. -/
theorem ValidLog.fresh
    (hConfig : configOk io = true)
    (hJournal : io.journalCount ≠ 0)
    (hLog : ValidLog io disk undo)
    {i : Nat}
    (hi : i ≤ stxMax) :
    ∀ u ∈ undo, u.lba ≠ io.journal + i :=
  fun u hu => targetOk_ne_journal hConfig hJournal
    (hLog.records.targets u hu) hi

/- A valid log stays valid until its header changes. -/
theorem ValidLog.of_sameBut
    (hConfig : configOk io = true)
    (hJournal : io.journalCount ≠ 0)
    {disk disk' : Nat → Sector}
    (hLog : ValidLog io disk undo)
    (hSame : SameBut undo disk disk') :
    ValidLog io disk' undo := by
  have hHeader : disk' io.journal = disk io.journal :=
    hSame _ (hLog.fresh hConfig hJournal (i := 0)
      (Nat.zero_le _))
  exact {
    header := by rw [hHeader]; exact hLog.header
    state := by rw [hHeader]; exact hLog.state
    count := by rw [hHeader]; exact hLog.count
    lbas := by rw [hHeader]; exact hLog.lbas
    crcs := by rw [hHeader]; exact hLog.crcs
    olds := by
      intro i hi
      have hFresh := hLog.fresh hConfig hJournal
        (i := 1 + i)
        (by have := hLog.records.length; omega)
      rw [← Nat.add_assoc] at hFresh
      rw [hSame _ hFresh]
      exact hLog.olds i hi
    records := hLog.records }

/- Restoring does not depend on what the targets held. -/
theorem recoveredDisk_congr
    {disk disk' : Nat → Sector}
    (hSame : SameBut undo disk disk') :
    recoveredDisk io undo disk' =
      recoveredDisk io undo disk := by
  have hRestore : restore undo disk' =
      restore undo disk := by
    funext lba
    by_cases hMem : ∃ u ∈ undo, u.lba = lba
    · obtain ⟨u, hu, rfl⟩ := hMem
      cases hFind :
          undo.find? (fun w => w.lba == u.lba) with
      | none =>
          have hNot := List.find?_eq_none.mp hFind u hu
          simp at hNot
      | some w => simp [restore, hFind]
    · have hFresh : ∀ u ∈ undo, u.lba ≠ lba :=
        fun u hu hEq => hMem ⟨u, hu, hEq⟩
      rw [restore_of_not_mem hFresh,
        restore_of_not_mem hFresh, hSame lba hFresh]
  rw [recoveredDisk, recoveredDisk, hRestore]

/-
  The crash condition of a recovery of `disk`: the writes so
  far follow the plan, and a crash leaves a partly recovered
  disk.
-/
structure Recovering
    (io : StxIo)
    (undo : List UndoRecord)
    (disk : Nat → Sector)
    (d : Device Sector) : Prop where
  written : d.written.reverse <+: recoveryPlan io undo
  crash : ∀ disk', d.Crash disk' →
    PartlyRecovered io undo disk disk'

/- The device while the records are being put back. -/
structure Restoring
    (undo : List UndoRecord)
    (disk : Nat → Sector)
    (d : Device Sector) : Prop where
  coherent : d.Coherent
  others : ∀ lba, (∀ u ∈ undo, u.lba ≠ lba) →
    d.kept lba = {disk lba}

theorem Restoring.recovering
    (hRestoring : Restoring undo disk d)
    (hWritten :
      d.written.reverse <+: restoreWrites undo) :
    Recovering io undo disk d where
  written := hWritten.trans (List.prefix_append _ _)
  crash disk' hCrash := by
    left
    intro lba hFresh
    have hMem := hCrash lba
    rw [hRestoring.others lba hFresh] at hMem
    exact hMem

theorem Restoring.issued
    {d d' : Device Sector}
    {u : UndoRecord}
    (hRestoring : Restoring undo disk d)
    (hu : u ∈ undo)
    (hIssued : d.Issued u.lba u.old d') :
    Restoring undo disk d' where
  coherent := hIssued.coherent hRestoring.coherent
  others lba hFresh := by
    rw [hIssued.kept,
      Device.put_kept_ne (hFresh u hu).symm]
    exact hRestoring.others lba hFresh

/- The restoring loop inside a recovery. -/
theorem restoreRecords_recovering
    {undo done todo : List UndoRecord}
    (hSplit : undo.reverse = done ++ todo)
    (hDistinct : (undo.map UndoRecord.lba).Nodup)
    (hRestoring : Restoring undo disk d)
    (hWritten : d.written.reverse =
      done.map (fun u => (u.lba, u.old)))
    (hDone : ∀ u ∈ done, d.cur u.lba = u.old) :
    (restoreRecords todo).Spec Device.faulty
      (Recovering io undo disk)
      (fun ok d' => Restoring undo disk d' ∧
        Recovering io undo disk d' ∧
        (ok = true →
          d'.written.reverse = restoreWrites undo ∧
          ∀ u ∈ undo, d'.cur u.lba = u.old)) d := by
  have hPrefix : ∀ rest : List UndoRecord,
      rest <+: undo.reverse →
      rest.map (fun u => (u.lba, u.old)) <+:
        restoreWrites undo :=
    fun rest hRest => hRest.map _
  induction todo generalizing done d with
  | nil =>
      rw [List.append_nil] at hSplit
      have hNow : Recovering io undo disk d := by
        apply hRestoring.recovering
        rw [hWritten]
        exact hPrefix done (hSplit ▸ List.prefix_refl _)
      refine ⟨hNow, hRestoring, hNow, fun _ => ⟨?_, ?_⟩⟩
      · rw [hWritten, restoreWrites, hSplit]
      · intro u hu
        exact hDone u (hSplit ▸ List.mem_reverse.mpr hu)
  | cons u us ih =>
      have hNow : Recovering io undo disk d := by
        apply hRestoring.recovering
        rw [hWritten]
        exact hPrefix done
          (hSplit ▸ List.prefix_append _ _)
      have hStep : undo.reverse = (done ++ [u]) ++ us := by
        rw [hSplit, List.append_assoc]
        rfl
      have hMem : u ∈ undo := by
        rw [← List.mem_reverse, hSplit]
        exact List.mem_append_right _ List.mem_cons_self
      have hIssuedWritten : ∀ d',
          d.Issued u.lba u.old d' →
          d'.written.reverse =
            (done ++ [u]).map
              (fun u => (u.lba, u.old)) := by
        intro d' hIssued
        rw [hIssued.written, List.reverse_cons, hWritten,
          List.map_append]
        rfl
      unfold restoreRecords
      apply BlockProg.spec_write hNow
      · apply ih hStep (hRestoring.issued hMem (.inl rfl))
          (hIssuedWritten _ (.inl rfl))
        intro w hw
        rcases List.mem_append.mp hw with hOld | hNew
        · have hNe : w.lba ≠ u.lba := by
            have hNodup :
                (undo.reverse.map
                  UndoRecord.lba).Nodup := by
              rw [List.map_reverse, List.nodup_reverse]
              exact hDistinct
            rw [hSplit, List.map_append,
              List.nodup_append] at hNodup
            exact hNodup.2.2 _ (List.mem_map_of_mem hOld)
              _ (by simp)
          rw [Device.put_cur_ne hNe]
          exact hDone w hOld
        · rw [List.mem_singleton.mp hNew]
          exact Device.put_cur_same ..
      · intro d' hIssued
        have hNext := hRestoring.issued hMem hIssued
        have hThen : Recovering io undo disk d' := by
          apply hNext.recovering
          rw [hIssuedWritten d' hIssued]
          exact hPrefix _ (hStep ▸ List.prefix_append _ _)
        exact ⟨hThen, hNext, hThen, by rintro ⟨⟩⟩

/- The closing header over restored sectors. -/
theorem Recovering.of_closing
    {d d' : Device Sector}
    (hRest : d.AtRest)
    (hCur : d.cur = restore undo disk)
    (hWritten : d.written.reverse = restoreWrites undo)
    (hIssued : d.Issued io.journal
      (headerSector io false []) d') :
    Recovering io undo disk d' where
  written := by
    rw [hIssued.written, List.reverse_cons, hWritten]
    exact List.prefix_refl _
  crash disk' hCrash := by
    have hOthers : ∀ lba, lba ≠ io.journal →
        disk' lba = restore undo disk lba := by
      intro lba hNe
      have hMem := hCrash lba
      rw [hIssued.kept, Device.put_kept_ne hNe,
        hRest lba, hCur] at hMem
      exact hMem
    have hHeader := hCrash io.journal
    rw [hIssued.kept, Device.put_kept_same] at hHeader
    rcases hHeader with hClosed | hOld
    · right
      funext lba
      by_cases hEq : lba = io.journal
      · subst hEq
        rw [hClosed, recoveredDisk, Function.update_self]
      · rw [recoveredDisk, Function.update_of_ne hEq]
        exact hOthers lba hEq
    · left
      intro lba hFresh
      rw [hRest io.journal, hCur] at hOld
      by_cases hEq : lba = io.journal
      · subst hEq
        rw [hOld, restore_of_not_mem hFresh]
      · rw [hOthers lba hEq, restore_of_not_mem hFresh]

theorem stxAbort_recovering
    (hJournal : io.journalCount ≠ 0)
    {t : SectorTx}
    (hIo : t.io = io)
    (hUndo : t.undo = undo)
    (hDistinct : (undo.map UndoRecord.lba).Nodup) :
    (stxAbort t).Spec Device.faulty
      (Recovering io undo disk) (fun _ _ => True)
      (Device.ofDisk disk) := by
  subst hIo hUndo
  have hStart : Restoring t.undo disk
      (Device.ofDisk disk) :=
    ⟨Device.coherent_ofDisk disk, fun _ _ => rfl⟩
  have hNow : Recovering t.io t.undo disk
      (Device.ofDisk disk) :=
    hStart.recovering (List.nil_prefix)
  unfold stxAbort
  split
  · exact ⟨hNow, trivial⟩
  · apply (restoreRecords_recovering
      (List.nil_append t.undo.reverse).symm hDistinct
      hStart rfl (by simp)).seq
    rintro (_ | _) d' ⟨hRestoring, hRecovering, hOk⟩
    · exact ⟨hRecovering, trivial⟩
    · obtain ⟨hWritten, hOld⟩ := hOk rfl
      have hCur : d'.cur = restore t.undo disk := by
        apply restore_of_loop hDistinct hOld
        intro lba hFresh
        have hMem := hRestoring.coherent lba
        rw [hRestoring.others lba hFresh] at hMem
        exact hMem
      have hFlush : Recovering t.io t.undo disk
          d'.flush := by
        constructor
        · exact hRecovering.written
        · intro disk' hCrash
          apply hRecovering.crash
          intro lba
          exact flush_kept_subset hRestoring.coherent lba
            (hCrash lba)
      simp only [Bool.not_true, Bool.false_eq_true,
        if_false]
      apply BlockProg.spec_sync hRecovering
      · simp only [Bool.not_true, Bool.false_eq_true,
          if_false]
        split
        · next hRam =>
            exact absurd (by simpa using hRam) hJournal
        · have hClosing : ∀ d'',
              d'.flush.Issued t.io.journal
                (headerSector t.io false []) d'' →
              Recovering t.io t.undo disk d'' := by
            intro d'' hIssued
            exact .of_closing (Device.atRest_flush d') hCur
              hWritten hIssued
          unfold header
          rw [headerSector_closed, bind_assoc]
          apply BlockProg.spec_write hFlush
          · have hPut := hClosing _ (.inl rfl)
            have hPutCoherent : Device.Coherent
                (d'.flush.put t.io.journal
                  (headerSector t.io false [])) :=
              (Device.coherent_flush d').put _ _
            have hPutFlush : Recovering t.io t.undo disk
                (d'.flush.put t.io.journal
                  (headerSector t.io false [])).flush :=
              ⟨hPut.written, fun disk' hCrash =>
                hPut.crash disk' (fun lba =>
                  flush_kept_subset hPutCoherent lba
                    (hCrash lba))⟩
            simp only [if_true]
            apply BlockProg.spec_sync hPut
            · exact ⟨hPutFlush, trivial⟩
            · exact ⟨hPut, trivial⟩
          · intro d'' hIssued
            exact ⟨hClosing d'' hIssued, trivial⟩
      · exact ⟨hRecovering, trivial⟩

/-
  The crash condition of `stx_recover` on an arbitrary disk:
  nothing was written and a crash changes nothing, or the
  log was valid and is being recovered.
-/
inductive RecoverCrash
    (io : StxIo)
    (disk : Nat → Sector)
    (d : Device Sector) : Prop where
  | untouched
      (hWritten : d.written = [])
      (hCrash : ∀ disk', d.Crash disk' → disk' = disk)
  | recovering
      (undo : List UndoRecord)
      (hJournal : io.journalCount ≠ 0)
      (hLog : ValidLog io disk undo)
      (hRecovering : Recovering io undo disk d)

theorem stxRecover_spec
    (t : SectorTx)
    (io : StxIo)
    (disk : Nat → Sector) :
    (stxRecover t io).Spec Device.faulty
      (RecoverCrash io disk) (fun _ _ => True)
      (Device.ofDisk disk) := by
  have hStart : RecoverCrash io disk
      (Device.ofDisk disk) :=
    .untouched rfl (fun _ hCrash =>
      Device.crash_ofDisk.mp hCrash)
  unfold stxRecover
  apply ((stxLoad_spec t io _).consequence
    (fun s hs => ?_) (fun _ _ _ h => h)).seq
  · rintro ⟨r, t'⟩ s ⟨rfl, hLoad⟩
    cases hLoad with
    | rejected => exact ⟨hStart, trivial⟩
    | refused => exact ⟨hStart, trivial⟩
    | ram => exact ⟨hStart, trivial⟩
    | closed => exact ⟨hStart, trivial⟩
    | valid undo hConfig hJournal hLog =>
        have hAbort :
            (stxAbort { idleTx io with
              undo, active := true }).Spec Device.faulty
              (Recovering io undo disk) (fun _ _ => True)
              (Device.ofDisk disk) :=
          stxAbort_recovering hJournal rfl rfl
            hLog.records.distinct
        exact hAbort.consequence
          (fun d hRecovering =>
            .recovering undo hJournal hLog hRecovering)
          (fun _ _ _ h => h)
  · rw [hs]
    exact hStart

--
-- Recovery on Any Medium
--

/- One run of `stx_recover` that a crash interrupts. -/
def CrashedRecovery
    (io : StxIo)
    (disk disk' : Nat → Sector) : Prop :=
  ∃ (t : SectorTx) (d : Device Sector),
    Prog.Passes Device.faulty (stxRecover t io)
      (Device.ofDisk disk) d ∧ d.Crash disk'

/- One interrupted recovery keeps the disk recoverable. -/
theorem PartlyRecovered.step
    (hConfig : configOk io = true)
    (hJournal : io.journalCount ≠ 0)
    {undo : List UndoRecord}
    {disk disk' disk'' : Nat → Sector}
    (hLog : ValidLog io disk undo)
    (hPartly : PartlyRecovered io undo disk disk')
    (hCrashed : CrashedRecovery io disk' disk'') :
    PartlyRecovered io undo disk disk'' := by
  obtain ⟨t, d, hPasses, hCrash⟩ := hCrashed
  cases (stxRecover_spec t io disk').passes hPasses with
  | untouched hWritten hSame =>
      rw [hSame disk'' hCrash]
      exact hPartly
  | recovering undo' _ hLog' hRecovering =>
      rcases hPartly with hSame | rfl
      · have hValid := hLog.of_sameBut hConfig hJournal
          hSame
        have hEq := hLog'.unique hValid
        subst hEq
        rcases hRecovering.crash disk'' hCrash with
          hSame' | rfl
        · left
          intro lba hFresh
          rw [hSame' lba hFresh, hSame lba hFresh]
        · right
          exact recoveredDisk_congr hSame
      · exact absurd hLog'
          (recoveredDisk_closed hConfig hJournal
            undo disk).not_valid

/- Any number of interrupted recoveries does. -/
theorem PartlyRecovered.of_crashes
    (hConfig : configOk io = true)
    (hJournal : io.journalCount ≠ 0)
    {disk disk' : Nat → Sector}
    (hLog : ValidLog io disk undo)
    (hCrashes :
      Relation.ReflTransGen (CrashedRecovery io)
        disk disk') :
    PartlyRecovered io undo disk disk' := by
  induction hCrashes with
  | refl => exact .inl (fun _ _ => rfl)
  | tail _ hStep ih =>
      exact ih.step hConfig hJournal hLog hStep

/- A partly recovered disk recovers like the original. -/
theorem PartlyRecovered.run
    (hConfig : configOk io = true)
    (hJournal : io.journalCount ≠ 0)
    {undo : List UndoRecord}
    {disk disk' : Nat → Sector}
    (hLog : ValidLog io disk undo)
    (hPartly : PartlyRecovered io undo disk disk')
    (t : SectorTx) :
    ((stxRecover t io).run Device.perfect
        (Device.ofDisk disk')).1.1 = 0 ∧
      ((stxRecover t io).run Device.perfect
        (Device.ofDisk disk')).2.cur =
          recoveredDisk io undo disk := by
  rcases hPartly with hSame | rfl
  · have hValid :=
      hLog.of_sameBut hConfig hJournal hSame
    have hRun := stxRecover_run_valid
      (d := Device.ofDisk disk') hConfig hJournal t hValid
    rw [Device.ofDisk_cur, recoveredDisk_congr hSame]
      at hRun
    exact hRun
  · have hRun := stxRecover_run_closed
      (d := Device.ofDisk (recoveredDisk io undo disk))
      hConfig hJournal t
      (recoveredDisk_closed hConfig hJournal undo disk)
    rw [hRun]
    exact ⟨rfl, rfl⟩

/-
  Recovery is safe on any medium and may be interrupted.
  Loading only reads. Recovery writes nothing unless the
  whole log is valid, and then a prefix of its plan: the
  recorded targets with their backups, last of all the
  header. After any number of crashes inside recovery, a
  complete run answers 0 and leaves the very disk that an
  uninterrupted recovery leaves.
-/
theorem stxRecover_any_medium
    (hConfig : configOk io = true)
    (t : SectorTx)
    (disk : Nat → Sector) :
    (stxLoad t io).Only BlockCmd.IsRead ∧
      (∀ d, Prog.Passes Device.faulty (stxRecover t io)
          (Device.ofDisk disk) d →
        d.written = [] ∨
          ∃ undo, io.journalCount ≠ 0 ∧
            ValidLog io disk undo ∧
            d.written.reverse <+: recoveryPlan io undo) ∧
      ∀ undo disk', io.journalCount ≠ 0 →
        ValidLog io disk undo →
        Relation.ReflTransGen (CrashedRecovery io)
          disk disk' →
        let out := (stxRecover t io).run Device.perfect
          (Device.ofDisk disk')
        out.1.1 = 0 ∧
          (∀ u ∈ undo, out.2.cur u.lba = u.old) ∧
          ClosedLog io out.2.cur ∧
          out.2.cur = ((stxRecover t io).run Device.perfect
            (Device.ofDisk disk)).2.cur := by
  refine ⟨stxLoad_only_reads t io, ?_, ?_⟩
  · intro d hPasses
    cases (stxRecover_spec t io disk).passes hPasses with
    | untouched hWritten => exact .inl hWritten
    | recovering undo hJournal hLog hRecovering =>
        exact .inr ⟨undo, hJournal, hLog,
          hRecovering.written⟩
  · intro undo disk' hJournal hLog hCrashes
    have hPartly := PartlyRecovered.of_crashes hConfig
      hJournal hLog hCrashes
    obtain ⟨hZero, hCur⟩ :=
      hPartly.run hConfig hJournal hLog t
    have hWhole := stxRecover_run_valid
      (d := Device.ofDisk disk) hConfig hJournal t hLog
    refine ⟨hZero, ?_, ?_, hCur.trans hWhole.2.symm⟩
    · intro u hu
      rw [hCur, recoveredDisk_target hConfig hJournal
        (hLog.records.targets u hu),
        restore_of_mem hLog.records.distinct hu]
    · rw [hCur]
      exact recoveredDisk_closed hConfig hJournal undo disk

/- One target, sector 0, with its journal behind it. -/
def tinyIo : StxIo where
  read := true
  write := true
  sync := true
  first := 0
  count := 1
  journal := 1
  journalCount := 49
  identity := 7

/- A record of the target as a zeroed sector. -/
def tinyUndo : List UndoRecord :=
  [⟨0, stxCrc32 (Sector.toBuf 0) 512, 0⟩]

/- An overwritten target under an active log. -/
def tinyDisk : Nat → Sector :=
  fun lba =>
    if lba = 0 then 1
    else if lba = 1 then headerSector tinyIo true tinyUndo
    else 0

theorem tinyDisk_valid :
    ValidLog tinyIo tinyDisk tinyUndo := by
  apply validLog_of_header (by decide) (by decide)
  · exact {
      length := by decide
      targets := by simp [tinyUndo, tinyIo, targetOk]
      distinct := by simp [tinyUndo]
      checksums := by simp [tinyUndo] }
  · rfl
  · intro i hi
    have hZero : i = 0 := by
      simpa [tinyUndo] using hi
    subst hZero
    rfl

theorem stxRecover_any_medium_tiny :
    ((stxRecover (idleTx tinyIo) tinyIo).run
        Device.perfect (Device.ofDisk tinyDisk)).1.1 = 0 ∧
      ((stxRecover (idleTx tinyIo) tinyIo).run
        Device.perfect (Device.ofDisk tinyDisk)).2.cur 0 =
          0 := by
  have hConfig : configOk tinyIo = true := by
    decide
  have hSafe := stxRecover_any_medium hConfig
    (idleTx tinyIo) tinyDisk
  have hRun := hSafe.2.2 tinyUndo tinyDisk (by decide)
    tinyDisk_valid .refl
  obtain ⟨u, hu, hLba, hOld⟩ :
      ∃ u ∈ tinyUndo, u.lba = 0 ∧ u.old = 0 := by
    simp [tinyUndo]
  have hTarget := hRun.2.1 u hu
  rw [hLba, hOld] at hTarget
  exact ⟨hRun.1, hTarget⟩

end KvantOS
