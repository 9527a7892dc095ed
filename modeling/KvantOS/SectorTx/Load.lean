import KvantOS.SectorTx.Header

/-
  This file proves what `stx_load` does: it issues nothing
  but reads, and it succeeds on a disk exactly when the log
  there is closed or valid, with the records of that log.

  Key definitions include:
    * `LoadResult`

  Key theorems include:
    * `stxLoad_only_reads`, `stxLoad_spec`
    * `stxLoad_run_closed`, `stxLoad_run_valid`
-/

namespace KvantOS

theorem loadRecords_only_reads
    (io : StxIo)
    (b : Buf)
    (undo : List UndoRecord)
    (remaining : Nat) :
    (loadRecords io b undo remaining).Only
      BlockCmd.IsRead := by
  induction remaining generalizing undo with
  | zero => trivial
  | succ remaining ih =>
      simp only [loadRecords]
      split
      · trivial
      · split
        · trivial
        · apply BlockProg.only_read trivial
          rintro (_ | old)
          · trivial
          · simp only
            split
            · trivial
            · exact ih _

/- `stx_load` never writes, whatever the medium says. -/
theorem stxLoad_only_reads
    (t : SectorTx)
    (io : StxIo) :
    (stxLoad t io).Only BlockCmd.IsRead := by
  unfold stxLoad
  split
  · trivial
  · split
    · trivial
    · apply BlockProg.only_read trivial
      rintro (_ | sector)
      · trivial
      · simp only
        split
        · trivial
        · split
          · trivial
          · apply (loadRecords_only_reads ..).bind
            rintro (_ | undo)
            · trivial
            · trivial

--
-- The Validation Loop
--

/-
  The loop invariant of `stx_load`: the records read so far
  are those of the header and the slots, and may be restored.
-/
structure RecordsRead
    (io : StxIo)
    (b : Buf)
    (disk : Nat → Sector)
    (undo : List UndoRecord) : Prop where
  lbas : ∀ i (hi : i < undo.length),
    undo[i].lba = b.get32 (40 + 8 * i)
  crcs : ∀ i (hi : i < undo.length),
    undo[i].crc = b.get32 (44 + 8 * i)
  olds : ∀ i (hi : i < undo.length),
    undo[i].old = disk (io.journal + 1 + i)
  targets : ∀ u ∈ undo, targetOk io u.lba = true
  distinct : (undo.map UndoRecord.lba).Nodup
  checksums : ∀ u ∈ undo,
    stxCrc32 u.old.toBuf 512 = u.crc

theorem RecordsRead.nil
    (io : StxIo)
    (b : Buf)
    (disk : Nat → Sector) :
    RecordsRead io b disk [] := by
  constructor <;> simp

variable {undo : List UndoRecord}

variable {u : UndoRecord}

/- A field of an appended record. -/
private theorem getElem_append_field
    {β : Type}
    {field : UndoRecord → β}
    {value : Nat → β}
    (hOld : ∀ i (hi : i < undo.length),
      field undo[i] = value i)
    (hNew : field u = value undo.length)
    (i : Nat)
    (hi : i < (undo ++ [u]).length) :
    field (undo ++ [u])[i] = value i := by
  rw [List.length_append, List.length_singleton] at hi
  rcases Nat.lt_succ_iff_lt_or_eq.mp hi with hLt | hEq
  · rw [List.getElem_append_left hLt]
    exact hOld i hLt
  · subst hEq
    rw [List.getElem_concat_length rfl]
    exact hNew

variable {b : Buf} {io : StxIo}

variable {disk : Nat → Sector}

/- One round of the validation loop. -/
theorem RecordsRead.append
    (hRead : RecordsRead io b disk undo)
    (hLba : u.lba = b.get32 (40 + 8 * undo.length))
    (hCrc : u.crc = b.get32 (44 + 8 * undo.length))
    (hOld : u.old = disk (io.journal + 1 + undo.length))
    (hTarget : targetOk io u.lba = true)
    (hFresh : ∀ w ∈ undo, w.lba ≠ u.lba)
    (hSum : stxCrc32 u.old.toBuf 512 = u.crc) :
    RecordsRead io b disk (undo ++ [u]) where
  lbas := getElem_append_field hRead.lbas hLba
  crcs := getElem_append_field hRead.crcs hCrc
  olds := getElem_append_field hRead.olds hOld
  targets w hw := by
    rcases List.mem_append.mp hw with hIn | hEq
    · exact hRead.targets w hIn
    · rw [List.mem_singleton.mp hEq]
      exact hTarget
  distinct := by
    rw [List.map_append, List.nodup_append]
    refine ⟨hRead.distinct, by simp, ?_⟩
    intro lba hIn other hOther
    obtain ⟨w, hw, rfl⟩ := List.mem_map.mp hIn
    rw [List.map_singleton, List.mem_singleton] at hOther
    rw [hOther]
    exact hFresh w hw
  checksums w hw := by
    rcases List.mem_append.mp hw with hIn | hEq
    · exact hRead.checksums w hIn
    · rw [List.mem_singleton.mp hEq]
      exact hSum

variable {d : Device Sector}

theorem loadRecords_spec
    (remaining : Nat)
    (hRead : RecordsRead io b d.cur undo) :
    (loadRecords io b undo remaining).Spec Device.faulty
      (fun s => s = d)
      (fun out s => s = d ∧ ∀ us, out = some us →
        RecordsRead io b d.cur us ∧
          us.length = undo.length + remaining) d := by
  induction remaining generalizing undo with
  | zero =>
      refine ⟨rfl, rfl, ?_⟩
      rintro us ⟨⟩
      exact ⟨hRead, rfl⟩
  | succ remaining ih =>
      simp only [loadRecords]
      split
      · exact ⟨rfl, rfl, nofun⟩
      · next hTarget =>
          split
          · exact ⟨rfl, rfl, nofun⟩
          · next hFresh =>
              apply BlockProg.spec_read (by rfl)
              · exact ⟨rfl, rfl, nofun⟩
              · simp only
                split
                · exact ⟨rfl, rfl, nofun⟩
                · next hSum =>
                    let i := undo.length
                    have hNext := ih (hRead.append
                      (u := ⟨b.get32 (40 + 8 * i),
                        b.get32 (44 + 8 * i),
                        d.cur (io.journal + 1 + i)⟩)
                      rfl rfl rfl (by simpa using hTarget)
                      (by simpa using hFresh)
                      (by simpa using hSum))
                    refine hNext.post ?_
                    rintro out s ⟨hSame, hOut⟩
                    refine ⟨hSame, fun us hUs => ?_⟩
                    have hResult := hOut us hUs
                    rw [List.length_append,
                      List.length_singleton] at hResult
                    exact ⟨hResult.1, by omega⟩

--
-- The Result of Loading
--

/-
  What `stx_load` can answer on a medium: a refusal with no
  transaction, nothing to do, or the records of a valid log.
-/
inductive LoadResult
    (t : SectorTx)
    (io : StxIo)
    (disk : Nat → Sector) : Int × SectorTx → Prop where
  | rejected
      (hConfig : configOk io = false) :
      LoadResult t io disk (-1, t)
  | refused
      (hConfig : configOk io = true)
      (hJournal : io.journalCount ≠ 0) :
      LoadResult t io disk (-1, idleTx io)
  | ram
      (hConfig : configOk io = true)
      (hJournal : io.journalCount = 0) :
      LoadResult t io disk (0, idleTx io)
  | closed
      (hConfig : configOk io = true)
      (hJournal : io.journalCount ≠ 0)
      (hLog : ClosedLog io disk) :
      LoadResult t io disk (0, idleTx io)
  | valid
      (undo : List UndoRecord)
      (hConfig : configOk io = true)
      (hJournal : io.journalCount ≠ 0)
      (hLog : ValidLog io disk undo) :
      LoadResult t io disk
        (0, { idleTx io with undo, active := true })

/- What the header checks say about the state field. -/
theorem headerValid_state
    (hValid : headerValid io b = true) :
    b.get32 32 ≤ 1 ∧ b.get32 36 ≤ stxMax := by
  simp only [headerValid, Bool.and_eq_true,
    decide_eq_true_eq] at hValid
  exact ⟨hValid.1.1.2, hValid.1.2⟩

/- A completed validation loop has read a valid log. -/
theorem RecordsRead.validLog
    (hHeader :
      headerValid io (disk io.journal).toBuf = true)
    (hState : (disk io.journal).toBuf.get32 32 ≠ 0)
    (hRead : RecordsRead io (disk io.journal).toBuf
      disk undo)
    (hLength : undo.length =
      (disk io.journal).toBuf.get32 36) :
    ValidLog io disk undo := by
  have hFields := headerValid_state hHeader
  exact {
    header := hHeader
    state := by omega
    count := hLength.symm
    lbas := hRead.lbas
    crcs := hRead.crcs
    olds := hRead.olds
    records := {
      length := by omega
      targets := hRead.targets
      distinct := hRead.distinct
      checksums := hRead.checksums } }

theorem stxLoad_spec
    (t : SectorTx)
    (io : StxIo)
    (d : Device Sector) :
    (stxLoad t io).Spec Device.faulty (fun s => s = d)
      (fun out s => s = d ∧ LoadResult t io d.cur out)
      d := by
  unfold stxLoad
  split
  · next hConfig =>
      exact ⟨rfl, rfl, .rejected (by simpa using hConfig)⟩
  · next hConfig =>
      have hConfig : configOk io = true := by
        simpa using hConfig
      split
      · next hJournal =>
          exact ⟨rfl, rfl,
            .ram hConfig (by simpa using hJournal)⟩
      · next hJournal =>
          have hJournal : io.journalCount ≠ 0 := by
            simpa using hJournal
          apply BlockProg.spec_read (by rfl)
          · exact ⟨rfl, rfl, .refused hConfig hJournal⟩
          · simp only
            split
            · exact ⟨rfl, rfl, .refused hConfig hJournal⟩
            · next hHeader =>
                have hHeader : headerValid io
                    (d.cur io.journal).toBuf = true := by
                  simpa using hHeader
                split
                · next hState =>
                    have hState :
                        (d.cur io.journal).toBuf.get32
                          32 = 0 := by
                      simpa using hState
                    refine ⟨rfl, rfl, ?_⟩
                    split
                    · next hCount =>
                        exact .closed hConfig hJournal
                          ⟨hHeader, hState,
                            by simpa using hCount⟩
                    · exact .refused hConfig hJournal
                · next hState =>
                    apply (loadRecords_spec _
                      (RecordsRead.nil io _ d.cur)).seq
                    rintro (_ | undo) s ⟨rfl, hOut⟩
                    · exact ⟨rfl, rfl,
                        .refused hConfig hJournal⟩
                    · obtain ⟨hRead, hLength⟩ :=
                        hOut undo rfl
                      refine ⟨rfl, rfl, .valid undo
                        hConfig hJournal ?_⟩
                      exact hRead.validLog hHeader
                        (by simpa using hState)
                        (by simpa using hLength)

--
-- Loading Without Faults
--

variable {t : SectorTx}

theorem stxLoad_run_closed
    (hConfig : configOk io = true)
    (hJournal : io.journalCount ≠ 0)
    (hLog : ClosedLog io d.cur) :
    (stxLoad t io).run Device.perfect d =
      ((0, idleTx io), d) := by
  simp [stxLoad, hConfig, hJournal, BlockProg.read,
    Device.perfect, hLog.header, hLog.state, hLog.count]

theorem loadRecords_run
    (hLog : ValidLog io d.cur undo)
    (k remaining : Nat)
    (hLength : k + remaining = undo.length) :
    (loadRecords io (d.cur io.journal).toBuf
        (undo.take k) remaining).run Device.perfect d =
      (some undo, d) := by
  induction remaining generalizing k with
  | zero =>
      rw [List.take_of_length_le (by omega)]
      rfl
  | succ remaining ih =>
      have hk : k < undo.length := by omega
      have hTakeLength : (undo.take k).length = k := by
        rw [List.length_take]
        omega
      have hMem : undo[k] ∈ undo := List.getElem_mem hk
      have hFresh :
          ¬ (undo.take k).any
            (fun u => u.lba == undo[k].lba) = true := by
        intro hAny
        obtain ⟨w, hw, hEq⟩ := List.any_eq_true.mp hAny
        obtain ⟨j, hj, rfl⟩ := List.getElem_of_mem hw
        rw [List.getElem_take] at hEq
        rw [hTakeLength] at hj
        have hj' : j < (undo.map UndoRecord.lba).length := by
          simp
          omega
        have hk' : k < (undo.map UndoRecord.lba).length := by
          simpa using hk
        have hSame : (undo.map UndoRecord.lba)[j] =
            (undo.map UndoRecord.lba)[k] := by
          simpa using hEq
        have hIndices :=
          hLog.records.distinct.getElem_inj_iff.mp hSame
        omega
      have hNext :
          undo.take k ++ [undo[k]] = undo.take (k + 1) :=
        (List.take_succ_eq_append_getElem hk).symm
      have hLba := hLog.lbas k hk
      have hCrc := hLog.crcs k hk
      have hOld := hLog.olds k hk
      have hRecord :
          (⟨undo[k].lba, undo[k].crc, undo[k].old⟩ :
            UndoRecord) = undo[k] := rfl
      have hSum := hLog.records.checksums _ hMem
      have hTarget := hLog.records.targets _ hMem
      unfold loadRecords
      simp only [hTakeLength, ← hLba, ← hCrc, hTarget,
        hFresh, Bool.not_true, Bool.false_eq_true,
        if_false, BlockProg.read, Prog.run_bind,
        Prog.run_step, Prog.run_ret, Device.perfect,
        ← hOld, hSum, bne_self_eq_false]
      rw [hRecord, hNext]
      exact ih (k + 1) (by omega)

theorem stxLoad_run_valid
    (hConfig : configOk io = true)
    (hJournal : io.journalCount ≠ 0)
    (hLog : ValidLog io d.cur undo) :
    (stxLoad t io).run Device.perfect d =
      ((0, { idleTx io with undo, active := true }), d) := by
  have hRecords := loadRecords_run hLog 0
    undo.length (Nat.zero_add _)
  rw [List.take_zero] at hRecords
  simp [stxLoad, hConfig, hJournal, BlockProg.read,
    Device.perfect, hLog.header, hLog.state, hLog.count,
    hRecords]

end KvantOS
