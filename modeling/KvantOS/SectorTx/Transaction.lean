import KvantOS.SectorTx.Invariant

/-
  This file proves what the calls of a transaction do on a
  faulty device: each call keeps the invariant, and at every
  point in between recovery brings the old contents back,
  until `stx_commit` starts to close the log.

  Key theorems include:
    * `logRecord_spec`, `stxWrite_spec`
-/

--
-- Writing the Active Header
--

namespace KvantOS

variable {io : StxIo} {K : Nat → Prop} {base : Nat → Sector}

/- Sectors outside the journal read as before. -/
def SameOutside
    (io : StxIo)
    (d d' : Device Sector) : Prop :=
  ∀ lba, ¬ InJournal io lba → d'.cur lba = d.cur lba

theorem SameOutside.refl
    (io : StxIo)
    (d : Device Sector) :
    SameOutside io d d :=
  fun _ _ => rfl

theorem SameOutside.trans
    {d d' d'' : Device Sector}
    (hFirst : SameOutside io d d')
    (hSecond : SameOutside io d' d'') :
    SameOutside io d d'' :=
  fun lba hOut =>
    (hSecond lba hOut).trans (hFirst lba hOut)

theorem sameOutside_of_issued
    {d d' : Device Sector}
    {block : Nat}
    {value : Sector}
    (hIssued : d.Issued block value d')
    (hIn : InJournal io block) :
    SameOutside io d d' := by
  intro lba hOut
  apply hIssued.cur_ne
  rintro rfl
  exact hOut hIn

theorem inJournal_slot
    {i : Nat}
    (hJournal : io.journalCount ≠ 0)
    (hi : i ≤ stxMax) :
    InJournal io (io.journal + i) :=
  ⟨hJournal, Nat.le_add_right _ _,
    Nat.add_le_add_left hi _⟩

variable {d : Device Sector} {t : SectorTx}

theorem Recorded.fail
    (hRecorded : Recorded io K base t d) :
    Recorded io K base { t with failed := true } d where
  io_eq := hRecorded.io_eq
  coherent := hRecorded.coherent
  records := hRecorded.records
  olds := hRecorded.olds
  rest := hRecorded.rest

/- Protected sectors keep what they read as. -/
theorem Recorded.sameOutside
    {d d' : Device Sector}
    (hRecorded : Recorded io K base t d)
    (hConfig : configOk io = true)
    (hProtects : Protects io K)
    (hCoherent : d'.Coherent)
    (hSame : SameOutside io d d') :
    Recorded io K base t d' where
  io_eq := hRecorded.io_eq
  coherent := hCoherent
  records := hRecorded.records
  olds := hRecorded.olds
  rest lba hK hFresh := by
    rw [hSame lba (not_inJournal_of_target hConfig
      (hProtects lba hK))]
    exact hRecorded.rest lba hK hFresh

/-
  The outcome of a step of the log: the invariant holds, for
  a failed handle when the step failed.
-/
def StepResult
    (io : StxIo)
    (K : Nat → Prop)
    (base : Nat → Sector)
    (t : SectorTx)
    (d : Device Sector)
    (ok : Bool)
    (d' : Device Sector) : Prop :=
  SameOutside io d d' ∧
    TxInv io K base
      (if ok then t else { t with failed := true }) d'

theorem header_spec
    (hConfig : configOk io = true)
    (hJournal : io.journalCount ≠ 0)
    (hProtects : Protects io K)
    (hRecorded : Recorded io K base t d)
    (hLogged : Logged io K base
      (fun us => us <+: t.undo) d.kept)
    (hBacked : Backed io K base t.undo d.kept) :
    (header t true).Spec Device.faulty (Safe io K base)
      (StepResult io K base t d) d := by
  have hSafe : Safe io K base d :=
    fun _ => hLogged.imp (fun _ _ => trivial)
  have hTargets : ∀ lba, K lba → lba ≠ io.journal := by
    intro lba hK
    exact targetOk_ne_journal hConfig hJournal
      (hProtects lba hK) (Nat.zero_le _)
  have hJournalIn : InJournal io io.journal :=
    inJournal_slot hJournal (Nat.zero_le _)
  -- Whether or not the write succeeds, the log is kept.
  have hFailed : ∀ d',
      d.Issued io.journal
        (headerSector io true t.undo) d' →
      StepResult io K base t d false d' := by
    intro d' hIssued
    have hSame := sameOutside_of_issued hIssued hJournalIn
    refine ⟨hSame, ?_, nofun, fun _ => ?_⟩
    · exact (hRecorded.sameOutside hConfig hProtects
        (hIssued.coherent hRecorded.coherent) hSame).fail
    · rw [hIssued.kept]
      exact hLogged.put_header hTargets
        (List.prefix_refl _) hBacked
  have hIo := hRecorded.io_eq
  unfold header
  rw [hIo]
  apply BlockProg.spec_write hSafe
  · have hPut := hFailed _ (.inl rfl)
    have hSafePut := hPut.2.safe
    simp only [if_true]
    rw [← bind_pure BlockProg.sync]
    apply BlockProg.spec_sync hSafePut
    · have hFlush := hPut.2.flush
      refine ⟨hFlush.safe, hPut.1, ?_, fun _ _ => ?_,
        hFlush.logged⟩
      · exact hRecorded.sameOutside hConfig hProtects
          (Device.coherent_flush _) hPut.1
      · constructor
        · intro v hv
          rw [Device.mem_flush_kept, Device.put_cur_same]
            at hv
          exact hv
        · apply (hBacked.put _ _).mono
            (flush_kept_subset
              (hRecorded.coherent.put _ _))
          · intro i _
            omega
          · intro hK
            exact absurd rfl (hTargets _ hK)
    · exact ⟨hSafePut, hPut⟩
  · intro d' hIssued
    have hFail := hFailed d' hIssued
    exact ⟨hFail.2.safe, hFail⟩

/-
  The journal part of a fresh record. On entry the handle
  already has the record `u`, the log does not.
-/
theorem logRecord_spec
    (hConfig : configOk io = true)
    (hProtects : Protects io K)
    {undo : List UndoRecord}
    {u : UndoRecord}
    (hUndo : t.undo = undo ++ [u])
    (hRecorded : Recorded io K base t d)
    (hExact : io.journalCount ≠ 0 →
      Exact io K base undo d.kept) :
    (logRecord t undo.length u.old).Spec Device.faulty
      (Safe io K base) (StepResult io K base t d) d := by
  have hIo := hRecorded.io_eq
  have hRecords := hRecorded.records
  rw [hUndo] at hRecords
  have hLength : undo.length < stxMax := by
    have hAll := hRecords.length
    rw [List.length_append, List.length_singleton] at hAll
    exact hAll
  unfold logRecord
  rw [hIo]
  by_cases hJournal : io.journalCount = 0
  · have hNo : io.journalCount ≠ 0 → False :=
      fun hNe => hNe hJournal
    simp only [hJournal, beq_self_eq_true, if_true]
    exact ⟨fun h => (hNo h).elim, SameOutside.refl io d,
      hRecorded, fun h => (hNo h).elim,
      fun h => (hNo h).elim⟩
  · rw [if_neg (by simpa using hJournal)]
    have hOld := hExact hJournal
    let slot := io.journal + 1 + undo.length
    have hSlotIn : InJournal io slot := by
      have hIn := inJournal_slot (i := 1 + undo.length)
        hJournal (by omega)
      rwa [← Nat.add_assoc] at hIn
    have hSlotTarget : ¬ K slot := by
      intro hK
      exact not_inJournal_of_target hConfig
        (hProtects slot hK) hSlotIn
    have hSafe : Safe io K base d :=
      fun _ => hOld.logged trivial
    have hListed : ∀ kept,
        Exact io K base undo kept →
        Logged io K base (fun us => us <+: t.undo)
          kept := by
      intro kept hKept
      apply hKept.logged
      rw [hUndo]
      exact List.prefix_append _ _
    -- The old log survives the write of the backup.
    have hIssuedExact : ∀ d',
        d.Issued slot u.old d' →
        Exact io K base undo d'.kept := by
      intro d' hIssued
      rw [hIssued.kept]
      constructor
      · intro v hv
        rw [Device.put_kept_ne (by omega)] at hv
        exact hOld.header v hv
      · apply hOld.backed.put
        · intro i hi
          omega
        · intro hK
          exact absurd hK hSlotTarget
    have hFailed : ∀ d',
        d.Issued slot u.old d' →
        StepResult io K base t d false d' := by
      intro d' hIssued
      have hSame := sameOutside_of_issued hIssued hSlotIn
      refine ⟨hSame, ?_, nofun, fun _ => ?_⟩
      · exact (hRecorded.sameOutside hConfig hProtects
          (hIssued.coherent hRecorded.coherent) hSame).fail
      · exact hListed _ (hIssuedExact d' hIssued)
    apply BlockProg.spec_write hSafe
    · have hPut := hFailed _ (.inl rfl)
      have hPutExact := hIssuedExact _ (.inl rfl)
      have hPutCoherent := hRecorded.coherent.put
        slot u.old
      simp only [Bool.not_true, Bool.false_eq_true,
        if_false]
      apply BlockProg.spec_sync hPut.2.safe
      · simp only [Bool.not_true, Bool.false_eq_true,
          if_false]
        have hFlushExact := hPutExact.mono
          (flush_kept_subset hPutCoherent)
        have hFlushSame :
            SameOutside io d (d.put slot u.old).flush :=
          hPut.1
        have hFlushBacked :
            Backed io K base t.undo
              (d.put slot u.old).flush.kept := by
          have hMem : u ∈ t.undo := by
            rw [hUndo]
            exact List.mem_append_right _
              (List.mem_singleton_self u)
          have hDistinct := hRecords.distinct
          rw [List.map_append, List.nodup_append]
            at hDistinct
          rw [hUndo]
          apply hFlushExact.backed.append hLength
          · exact hRecorded.records.targets u hMem
          · intro w hw
            exact hDistinct.2.2 _
              (List.mem_map_of_mem hw) _ (by simp)
          · exact hRecorded.records.checksums u hMem
          · exact hRecorded.olds u hMem
          · intro v hv
            rw [Device.mem_flush_kept,
              Device.put_cur_same] at hv
            exact hv
        have hHeader := header_spec hConfig hJournal
          hProtects
          (hRecorded.sameOutside hConfig hProtects
            (Device.coherent_flush _) hFlushSame)
          (hListed _ hFlushExact) hFlushBacked
        exact hHeader.post fun ok d' hResult =>
          ⟨hPut.1.trans hResult.1, hResult.2⟩
      · exact ⟨hPut.2.safe, hPut⟩
    · intro d' hIssued
      have hFail := hFailed d' hIssued
      exact ⟨hFail.2.safe, hFail⟩

--
-- Writing
--

/- The call keeps the mode of the handle and its records. -/
structure SameMode
    (t t' : SectorTx) : Prop where
  io : t'.io = t.io
  active : t'.active = t.active
  closing : t'.closing = t.closing
  undo : t.undo <+: t'.undo

theorem SameMode.refl (t : SectorTx) :
    SameMode t t where
  io := rfl
  active := rfl
  closing := rfl
  undo := List.prefix_refl _

/-
  The outcomes of `stx_write`: refused by the mode of the
  handle, given up, or written.
-/
inductive WriteResult
    (io : StxIo)
    (K : Nat → Prop)
    (base : Nat → Sector)
    (t : SectorTx)
    (lba : Nat)
    (data : Option Sector)
    (d : Device Sector) :
    Int × SectorTx → Device Sector → Prop where
  | refused
      (hMode : t.active = false ∨ t.failed = true ∨
        t.closing = true) :
      WriteResult io K base t lba data d (-1, t) d
  | failed
      {t' : SectorTx}
      {d' : Device Sector}
      (hMode : SameMode t t')
      (hFailed : t'.failed = true)
      (hInv : TxInv io K base t' d')
      (hFrame : ∀ other, ¬ InJournal io other →
        other ≠ lba → d'.cur other = d.cur other) :
      WriteResult io K base t lba data d (-1, t') d'
  | written
      {t' : SectorTx}
      {d' : Device Sector}
      (value : Sector)
      (hData : data = some value)
      (hTarget : targetOk io lba = true)
      (hOpen : t.active = true ∧ t.failed = false ∧
        t.closing = false)
      (hMode : SameMode t t')
      (hFailed : t'.failed = false)
      (hInv : TxInv io K base t' d')
      (hLba : d'.cur lba = value)
      (hRecord : ∃ u ∈ t'.undo, u.lba = lba)
      (hFrame : ∀ other, ¬ InJournal io other →
        other ≠ lba → d'.cur other = d.cur other) :
      WriteResult io K base t lba data d (0, t') d'

/- The record that `stx_write` adds for a fresh target. -/
theorem Recorded.append
    {lba : Nat}
    (hRecorded : Recorded io K base t d)
    (hLength : t.undo.length < stxMax)
    (hTarget : targetOk io lba = true)
    (hFresh : ∀ u ∈ t.undo, u.lba ≠ lba) :
    Recorded io K base
      { t with
        undo := t.undo ++
          [⟨lba, stxCrc32 (d.cur lba).toBuf 512,
            d.cur lba⟩] } d where
  io_eq := hRecorded.io_eq
  coherent := hRecorded.coherent
  records := hRecorded.records.append hLength hTarget
    hFresh rfl
  olds u hu := by
    rcases List.mem_append.mp hu with hIn | hEq
    · exact hRecorded.olds u hIn
    · rw [List.mem_singleton.mp hEq]
      intro hK
      exact hRecorded.rest lba hK hFresh
  rest other hK hNone := by
    apply hRecorded.rest other hK
    intro u hu
    exact hNone u (List.mem_append_left _ hu)

/-
  The outcome of making sure that a target has a record.
-/
structure RecordResult
    (io : StxIo)
    (K : Nat → Prop)
    (base : Nat → Sector)
    (t : SectorTx)
    (lba : Nat)
    (d : Device Sector)
    (out : Bool × SectorTx)
    (d' : Device Sector) : Prop where
  mode : SameMode t out.2
  same : SameOutside io d d'
  failed : out.1 = false →
    TxInv io K base { out.2 with failed := true } d'
  recorded : out.1 = true →
    TxInv io K base out.2 d' ∧ out.2.failed = false ∧
      ∃ u ∈ out.2.undo, u.lba = lba

theorem recordTarget_spec
    (hConfig : configOk io = true)
    (hProtects : Protects io K)
    {lba : Nat}
    (hInv : TxInv io K base t d)
    (hFailed : t.failed = false)
    (hTarget : targetOk io lba = true) :
    (recordTarget t lba).Spec Device.faulty
      (Safe io K base)
      (RecordResult io K base t lba d) d := by
  have hSafe := hInv.safe
  have hGiveUp :
      RecordResult io K base t lba d (false, t) d :=
    ⟨.refl t, .refl io d, fun _ => hInv.fail, nofun⟩
  unfold recordTarget
  split
  · next hKnown =>
      have hRecord : ∃ u ∈ t.undo, u.lba = lba := by
        simpa using hKnown
      exact ⟨hSafe, .refl t, .refl io d, nofun,
        fun _ => ⟨hInv, hFailed, hRecord⟩⟩
  · next hKnown =>
      have hFresh : ∀ u ∈ t.undo, u.lba ≠ lba := by
        simpa using hKnown
      split
      · exact ⟨hSafe, hGiveUp⟩
      · next hFull =>
          have hLength : t.undo.length < stxMax := by
            have hLe := hInv.records.length
            have hNe : t.undo.length ≠ stxMax := by
              simpa using hFull
            omega
          apply BlockProg.spec_read hSafe
          · exact ⟨hSafe, hGiveUp⟩
          · have hLog := logRecord_spec hConfig hProtects
              rfl (hInv.append hLength hTarget hFresh)
              (fun hJournal => hInv.exact hJournal hFailed)
            apply hLog.seq
            rintro ok d' ⟨hSame, hNext⟩
            refine ⟨hNext.safe, ?_⟩
            refine ⟨⟨rfl, rfl, rfl,
              List.prefix_append _ _⟩, hSame, ?_, ?_⟩
            · rintro rfl
              exact hNext
            · rintro rfl
              exact ⟨hNext, hFailed, _,
                List.mem_append_right _
                  (List.mem_singleton_self _), rfl⟩

theorem stxWrite_spec
    (hConfig : configOk io = true)
    (hProtects : Protects io K)
    (hInv : TxInv io K base t d)
    (lba : Nat)
    (data : Option Sector) :
    (stxWrite t lba data).Spec Device.faulty
      (Safe io K base)
      (WriteResult io K base t lba data d) d := by
  have hIo := hInv.io_eq
  subst hIo
  have hGiveUp :
      WriteResult t.io K base t lba data d
        (-1, { t with failed := true }) d :=
    .failed ⟨rfl, rfl, rfl, List.prefix_refl _⟩ rfl
      hInv.fail (fun _ _ _ => rfl)
  unfold stxWrite
  split
  · next hMode =>
      refine ⟨hInv.safe, .refused ?_⟩
      simpa [or_assoc] using hMode
  · next hMode =>
      have hOpen : t.active = true ∧ t.failed = false ∧
          t.closing = false := by
        simpa [and_assoc] using hMode
      have hFailed := hOpen.2.1
      rcases data with _ | value
      · exact ⟨hInv.safe, hGiveUp⟩
      · simp only
        split
        · exact ⟨hInv.safe, hGiveUp⟩
        · next hTarget =>
            have hTarget : targetOk t.io lba = true := by
              simpa using hTarget
            have hOut :=
              not_inJournal_of_target hConfig hTarget
            apply (recordTarget_spec hConfig hProtects hInv
              hFailed hTarget).seq
            rintro ⟨ok, t'⟩ d' ⟨hMode, hSame, hGave, hGot⟩
            cases ok with
            | false =>
                have hNext := hGave rfl
                exact ⟨hNext.safe, .failed
                  ⟨hMode.io, hMode.active, hMode.closing,
                    hMode.undo⟩ rfl hNext
                  (fun other hOther _ =>
                    hSame other hOther)⟩
            | true =>
                obtain ⟨hNext, hOk, hRecord⟩ := hGot rfl
                have hFrame : ∀ d'',
                    d'.Issued lba value d'' →
                    ∀ other, ¬ InJournal t.io other →
                      other ≠ lba →
                      d''.cur other = d.cur other := by
                  intro d'' hIssued other hOther hNe
                  exact (hIssued.cur_ne hNe).trans
                    (hSame other hOther)
                have hIssuedInv : ∀ d'',
                    d'.Issued lba value d'' →
                    TxInv t.io K base t' d'' := by
                  intro d'' hIssued
                  exact hNext.issued hIssued hOut
                    (fun _ => .inr ⟨hOk, hRecord⟩)
                apply BlockProg.spec_write hNext.safe
                · have hPut := hIssuedInv _ (.inl rfl)
                  exact ⟨hPut.safe, .written value rfl
                    hTarget hOpen hMode hOk hPut
                    (Device.put_cur_same ..) hRecord
                    (hFrame _ (.inl rfl))⟩
                · intro d'' hIssued
                  have hFail := (hIssuedInv _ hIssued).fail
                  exact ⟨hFail.safe, .failed
                    ⟨hMode.io, hMode.active, hMode.closing,
                      hMode.undo⟩ rfl hFail
                    (hFrame _ hIssued)⟩

end KvantOS
