import KvantOS.SectorTx.Transaction

/-
  This file proves what begins and ends a transaction:
  `stx_begin` on a closed log, `stx_abort` and `stx_commit`.

  An abort keeps the old contents recoverable throughout. A
  commit does so until it issues the closing header; from
  then on a crash leaves the old or the new contents.

  Key definitions include:
    * `AbortResult`, `Closing`, `CommitSafe`
    * `CommitResult`

  Key theorems include:
    * `stxBegin_spec`, `stxAbort_spec`, `stxCommit_spec`
-/

namespace KvantOS

variable {io : StxIo} {K : Nat → Prop} {base : Nat → Sector}

/- The outcome of writing back some of the records. -/
structure RestoreResult
    (io : StxIo)
    (K : Nat → Prop)
    (base : Nat → Sector)
    (t : SectorTx)
    (records : List UndoRecord)
    (d : Device Sector)
    (ok : Bool)
    (d' : Device Sector) : Prop where
  inv : TxInv io K base t d'
  frame : ∀ lba, (∀ u ∈ records, u.lba ≠ lba) →
    d'.cur lba = d.cur lba
  restored : ok = true →
    ∀ u ∈ records, d'.cur u.lba = u.old

variable {d : Device Sector} {t : SectorTx}

theorem restoreRecords_spec
    (hConfig : configOk io = true)
    (hInv : TxInv io K base t d)
    (records : List UndoRecord)
    (hSubset : ∀ u ∈ records, u ∈ t.undo)
    (hDistinct : (records.map UndoRecord.lba).Nodup) :
    (restoreRecords records).Spec Device.faulty
      (Safe io K base)
      (RestoreResult io K base t records d) d := by
  induction records generalizing d with
  | nil =>
      exact ⟨hInv.safe, hInv, fun _ _ => rfl,
        fun _ u hu => by simp at hu⟩
  | cons u us ih =>
      rw [List.map_cons, List.nodup_cons] at hDistinct
      have hMem : u ∈ t.undo :=
        hSubset u List.mem_cons_self
      have hOut := not_inJournal_of_target hConfig
        (hInv.records.targets u hMem)
      have hNext : ∀ d', d.Issued u.lba u.old d' →
          TxInv io K base t d' := by
        intro d' hIssued
        exact hInv.issued hIssued hOut
          (fun hK => .inl (hInv.olds u hMem hK))
      unfold restoreRecords
      apply BlockProg.spec_write hInv.safe
      · have hRest := ih (hNext _ (.inl rfl))
          (fun w hw => hSubset w (List.mem_cons_of_mem _ hw))
          hDistinct.2
        apply hRest.post
        rintro ok d' ⟨hInv', hFrame, hRestored⟩
        refine ⟨hInv', ?_, ?_⟩
        · intro lba hNone
          rw [hFrame lba (fun w hw =>
            hNone w (List.mem_cons_of_mem _ hw))]
          exact Device.put_cur_ne
            (hNone u List.mem_cons_self).symm
        · intro hOk w hw
          rcases List.mem_cons.mp hw with rfl | hIn
          · rw [hFrame w.lba ?_]
            · exact Device.put_cur_same ..
            · intro x hx hEq
              exact hDistinct.1
                (hEq ▸ List.mem_map_of_mem hx)
          · exact hRestored hOk w hIn
      · intro d' hIssued
        have hInv' := hNext d' hIssued
        refine ⟨hInv'.safe, hInv', ?_, nofun⟩
        intro lba hNone
        exact hIssued.cur_ne
          (hNone u List.mem_cons_self).symm

--
-- Aborting
--

/-
  The outcomes of `stx_abort`: refused, stopped before the
  log was touched, stopped while closing it, or done.
-/
inductive AbortResult
    (io : StxIo)
    (K : Nat → Prop)
    (base : Nat → Sector)
    (t : SectorTx)
    (d : Device Sector) :
    Int × SectorTx → Device Sector → Prop where
  | refused
      (hMode : t.active = false ∨ t.closing = true) :
      AbortResult io K base t d (-1, t) d
  | interrupted
      {d' : Device Sector}
      (hInv : TxInv io K base t d')
      (hFrame : ∀ lba, (∀ u ∈ t.undo, u.lba ≠ lba) →
        d'.cur lba = d.cur lba) :
      AbortResult io K base t d (-1, t) d'
  | unclosed
      {d' : Device Sector}
      (hJournal : io.journalCount ≠ 0)
      (hSafe : Safe io K base d')
      (hBase : ∀ lba, K lba → d'.cur lba = base lba)
      (hFrame : ∀ lba, ¬ InJournal io lba →
        (∀ u ∈ t.undo, u.lba ≠ lba) →
          d'.cur lba = d.cur lba) :
      AbortResult io K base t d
        (-1, { t with closing := true }) d'
  | done
      {t' : SectorTx}
      {d' : Device Sector}
      (hIdle : t'.active = false)
      (hIo : t'.io = t.io)
      (hRest : d'.AtRest)
      (hClosed : io.journalCount ≠ 0 →
        ClosedLog io d'.cur)
      (hBase : ∀ lba, K lba → d'.cur lba = base lba)
      (hFrame : ∀ lba, ¬ InJournal io lba →
        (∀ u ∈ t.undo, u.lba ≠ lba) →
          d'.cur lba = d.cur lba) :
      AbortResult io K base t d (0, t') d'

/- Closing the log over restored sectors. -/
theorem header_close_spec
    (hConfig : configOk io = true)
    (hJournal : io.journalCount ≠ 0)
    (hProtects : Protects io K)
    (hIo : t.io = io)
    (hLogged : Logged io K base (fun _ => True) d.kept)
    (hCoherent : d.Coherent)
    (hClean : Clean K base d.kept) :
    (header t false).Spec Device.faulty (Safe io K base)
      (fun ok d' =>
        Safe io K base d' ∧ SameOutside io d d' ∧
          (ok = true →
            d'.AtRest ∧ ClosedLog io d'.cur)) d := by
  have hJournalIn : InJournal io io.journal :=
    inJournal_slot hJournal (Nat.zero_le _)
  have hTargets : ∀ lba, K lba → lba ≠ io.journal := by
    intro lba hK
    exact targetOk_ne_journal hConfig hJournal
      (hProtects lba hK) (Nat.zero_le _)
  have hClosed :=
    closedHeader_headerSector hConfig hJournal t.undo
  have hIssuedSafe : ∀ d',
      d.Issued io.journal
        (headerSector io false t.undo) d' →
      Safe io K base d' := by
    intro d' hIssued _
    rw [hIssued.kept]
    exact hLogged.put_closed hTargets hClean hClosed
  unfold header
  rw [hIo]
  apply BlockProg.spec_write (fun _ => hLogged)
  · have hSafe := hIssuedSafe _ (.inl rfl)
    have hSame := sameOutside_of_issued
      (.inl rfl : d.Issued _ _ (d.put io.journal
        (headerSector io false t.undo))) hJournalIn
    simp only [if_true]
    rw [← bind_pure BlockProg.sync]
    have hFlushSafe : Safe io K base
        (d.put io.journal
          (headerSector io false t.undo)).flush := by
      intro h
      exact (hSafe h).mono
        (flush_kept_subset (hCoherent.put _ _))
    apply BlockProg.spec_sync hSafe
    · refine ⟨hFlushSafe, hFlushSafe, hSame, fun _ =>
        ⟨Device.atRest_flush _, ?_⟩⟩
      rw [ClosedLog, Device.flush_cur, Device.put_cur_same]
      exact hClosed
    · exact ⟨hSafe, hSafe, hSame, nofun⟩
  · intro d' hIssued
    have hSafe := hIssuedSafe d' hIssued
    exact ⟨hSafe, hSafe,
      sameOutside_of_issued hIssued hJournalIn, nofun⟩

/- Restored sectors are unchanged ones. -/
theorem RestoreResult.cur_eq
    {d d' : Device Sector}
    (hResult : RestoreResult io K base t t.undo.reverse
      d true d')
    {lba : Nat}
    (hK : K lba) :
    d'.cur lba = base lba := by
  by_cases hMem : ∃ u ∈ t.undo, u.lba = lba
  · obtain ⟨u, hu, rfl⟩ := hMem
    rw [hResult.restored rfl u (List.mem_reverse.mpr hu)]
    exact hResult.inv.olds u hu hK
  · exact hResult.inv.rest lba hK
      (fun u hu hEq => hMem ⟨u, hu, hEq⟩)

theorem stxAbort_spec
    (hConfig : configOk io = true)
    (hProtects : Protects io K)
    (hInv : TxInv io K base t d) :
    (stxAbort t).Spec Device.faulty (Safe io K base)
      (AbortResult io K base t d) d := by
  have hIo := hInv.io_eq
  unfold stxAbort
  split
  · next hMode =>
      refine ⟨hInv.safe, .refused ?_⟩
      simpa using hMode
  · have hDistinct :
        (t.undo.reverse.map UndoRecord.lba).Nodup := by
      rw [List.map_reverse, List.nodup_reverse]
      exact hInv.records.distinct
    apply (restoreRecords_spec hConfig hInv t.undo.reverse
      (fun u hu => List.mem_reverse.mp hu) hDistinct).seq
    intro ok d' hResult
    have hInv' := hResult.inv
    have hFrame : ∀ lba, (∀ u ∈ t.undo, u.lba ≠ lba) →
        d'.cur lba = d.cur lba := by
      intro lba hNone
      exact hResult.frame lba
        (fun u hu => hNone u (List.mem_reverse.mp hu))
    cases ok with
    | false =>
        exact ⟨hInv'.safe, .interrupted hInv' hFrame⟩
    | true =>
        have hBase : ∀ lba, K lba →
            d'.cur lba = base lba :=
          fun lba hK => hResult.cur_eq hK
        simp only [Bool.not_true, Bool.false_eq_true,
          if_false]
        apply BlockProg.spec_sync hInv'.safe
        · have hFlush := hInv'.flush
          simp only [Bool.not_true, Bool.false_eq_true,
            if_false]
          split
          · next hRam =>
              refine ⟨hFlush.safe, .done rfl rfl
                (Device.atRest_flush d') ?_ hBase
                (fun lba _ hNone => hFrame lba hNone)⟩
              intro hJournal
              rw [hIo] at hRam
              exact absurd (by simpa using hRam) hJournal
          · next hRam =>
              have hJournal : io.journalCount ≠ 0 := by
                rw [hIo] at hRam
                simpa using hRam
              have hClean :
                  Clean K base d'.flush.kept := by
                intro lba hK v hv
                rw [Device.mem_flush_kept] at hv
                rw [hv]
                exact hBase lba hK
              apply (header_close_spec hConfig hJournal
                hProtects (t := { t with closing := true })
                hIo (hFlush.safe hJournal)
                (Device.coherent_flush d') hClean).seq
              rintro ok d'' ⟨hSafe, hSame, hOk⟩
              have hBase' : ∀ lba, K lba →
                  d''.cur lba = base lba := by
                intro lba hK
                rw [hSame lba (not_inJournal_of_target
                  hConfig (hProtects lba hK))]
                exact hBase lba hK
              have hFrame' : ∀ lba, ¬ InJournal io lba →
                  (∀ u ∈ t.undo, u.lba ≠ lba) →
                    d''.cur lba = d.cur lba := by
                intro lba hOut hNone
                rw [hSame lba hOut]
                exact hFrame lba hNone
              cases ok with
              | false =>
                  exact ⟨hSafe, .unclosed hJournal hSafe
                    hBase' hFrame'⟩
              | true =>
                  obtain ⟨hRest, hClosed⟩ := hOk rfl
                  exact ⟨hSafe, .done rfl rfl hRest
                    (fun _ => hClosed) hBase' hFrame'⟩
        · exact ⟨hInv'.safe, .interrupted hInv' hFrame⟩

--
-- Committing
--

/-
  The log is being closed over the contents `new`: the
  closing header has been issued, every other sector is
  durable, and an older header still lists backed records.
-/
structure Closing
    (io : StxIo)
    (K : Nat → Prop)
    (base new : Nat → Sector)
    (d : Device Sector) : Prop where
  coherent : d.Coherent
  issued : (io.journal, headerSector io false []) ∈
    d.written
  settled : ∀ lba, lba ≠ io.journal →
    d.kept lba = {new lba}
  header : ∀ v ∈ d.kept io.journal, ClosedHeader io v ∨
    ∃ undo, v = headerSector io true undo ∧
      Backed io K base undo d.kept

/- The crash condition of `stx_commit`. -/
def CommitSafe
    (io : StxIo)
    (K : Nat → Prop)
    (base new : Nat → Sector)
    (d : Device Sector) : Prop :=
  Safe io K base d ∨ Closing io K base new d

/-
  The outcomes of `stx_commit`: refused, stopped before the
  closing header, stopped while closing, or done.
-/
inductive CommitResult
    (io : StxIo)
    (K : Nat → Prop)
    (base : Nat → Sector)
    (t : SectorTx)
    (d : Device Sector) :
    Int × SectorTx → Device Sector → Prop where
  | refused
      (hMode : t.active = false ∨ t.failed = true) :
      CommitResult io K base t d (-1, t) d
  | unsynced :
      CommitResult io K base t d
        (-1, { t with failed := true }) d
  | unclosed
      {d' : Device Sector}
      (hJournal : io.journalCount ≠ 0)
      (hClosing : Closing io K base d.cur d')
      (hSame : SameOutside io d d') :
      CommitResult io K base t d
        (-1, { t with closing := true, failed := true }) d'
  | done
      {t' : SectorTx}
      {d' : Device Sector}
      (hIdle : t'.active = false)
      (hIo : t'.io = t.io)
      (hRest : d'.AtRest)
      (hClosed : io.journalCount ≠ 0 →
        ClosedLog io d'.cur ∧
          (io.journal, headerSector io false []) ∈
            d'.written)
      (hSame : ∀ lba, io.journalCount = 0 ∨
        lba ≠ io.journal → d'.cur lba = d.cur lba) :
      CommitResult io K base t d (0, t') d'

variable {new : Nat → Sector}

/- The closing header over durable sectors. -/
theorem Closing.of_issued
    (hConfig : configOk io = true)
    (hJournal : io.journalCount ≠ 0)
    (hProtects : Protects io K)
    {undo : List UndoRecord}
    {d d' : Device Sector}
    (hRest : d.AtRest)
    (hCur : d.cur = new)
    (hExact : Exact io K base undo d.kept)
    (hIssued : d.Issued io.journal
      (headerSector io false []) d') :
    Closing io K base new d' := by
  have hTargets : ∀ lba, K lba → lba ≠ io.journal := by
    intro lba hK
    exact targetOk_ne_journal hConfig hJournal
      (hProtects lba hK) (Nat.zero_le _)
  constructor
  · exact hIssued.coherent hRest.coherent
  · rw [hIssued.written]
    exact List.mem_cons_self
  · intro lba hNe
    rw [hIssued.kept, Device.put_kept_ne hNe, hRest lba,
      hCur]
  · intro v hv
    rw [hIssued.kept, Device.put_kept_same] at hv
    rcases hv with rfl | hOld
    · exact .inl
        (closedHeader_headerSector hConfig hJournal [])
    · refine .inr ⟨undo, hExact.header v hOld, ?_⟩
      rw [hIssued.kept]
      apply hExact.backed.put
      · intro i _
        omega
      · intro hK
        exact absurd rfl (hTargets _ hK)

theorem Closing.flush
    (hClosing : Closing io K base new d) :
    Closing io K base new d.flush where
  coherent := Device.coherent_flush d
  issued := hClosing.issued
  settled lba hNe := by
    have hCur := hClosing.coherent lba
    rw [hClosing.settled lba hNe,
      Set.mem_singleton_iff] at hCur
    rw [Device.atRest_flush d lba, Device.flush_cur, hCur]
  header v hv := by
    have hLess := flush_kept_subset hClosing.coherent
    rcases hClosing.header v (hLess _ hv) with
      hClosed | ⟨undo, hEq, hBacked⟩
    · exact .inl hClosed
    · exact .inr ⟨undo, hEq, hBacked.mono hLess⟩

theorem stxCommit_spec
    (hConfig : configOk io = true)
    (hProtects : Protects io K)
    (hInv : TxInv io K base t d) :
    (stxCommit t).Spec Device.faulty
      (CommitSafe io K base d.cur)
      (CommitResult io K base t d) d := by
  have hIo := hInv.io_eq
  subst hIo
  have hSafe : CommitSafe t.io K base d.cur d :=
    .inl hInv.safe
  unfold stxCommit
  split
  · next hMode =>
      exact ⟨hSafe, .refused (by simpa using hMode)⟩
  · next hMode =>
      have hFailed : t.failed = false := by
        cases hEq : t.failed <;> simp [hEq] at hMode ⊢
      apply BlockProg.spec_sync hSafe
      · have hFlush := hInv.flush
        simp only [Bool.not_true, Bool.false_eq_true,
          if_false]
        split
        · next hRam =>
            have hRam : t.io.journalCount = 0 := by
              simpa using hRam
            exact ⟨.inl hFlush.safe, .done rfl rfl
              (Device.atRest_flush d)
              (fun h => absurd hRam h) (fun _ _ => rfl)⟩
        · next hRam =>
            have hJournal : t.io.journalCount ≠ 0 := by
              simpa using hRam
            have hExact := hFlush.exact hJournal hFailed
            have hJournalIn : InJournal t.io t.io.journal :=
              inJournal_slot hJournal (Nat.zero_le _)
            have hClosing : ∀ d',
                d.flush.Issued t.io.journal
                  (headerSector t.io false []) d' →
                Closing t.io K base d.cur d' := by
              intro d' hIssued
              exact .of_issued hConfig hJournal hProtects
                (Device.atRest_flush d) rfl hExact hIssued
            have hUnclosed : ∀ d',
                d.flush.Issued t.io.journal
                  (headerSector t.io false []) d' →
                CommitResult t.io K base t d
                  (-1, { t with
                    closing := true, failed := true })
                  d' := by
              intro d' hIssued
              have hSame : SameOutside t.io d.flush d' :=
                sameOutside_of_issued hIssued hJournalIn
              exact .unclosed hJournal (hClosing d' hIssued)
                hSame
            unfold header
            rw [headerSector_closed, bind_assoc]
            apply BlockProg.spec_write (.inl hFlush.safe)
            · have hPut := hClosing _ (.inl rfl)
              simp only [if_true]
              apply BlockProg.spec_sync (.inr hPut)
              · refine ⟨.inr hPut.flush, .done rfl rfl
                  (Device.atRest_flush _) (fun _ => ?_)
                  ?_⟩
                · refine ⟨?_, hPut.issued⟩
                  rw [ClosedLog, Device.flush_cur,
                    Device.put_cur_same]
                  exact closedHeader_headerSector hConfig
                    hJournal []
                · intro lba hLba
                  rcases hLba with hZero | hNe
                  · exact absurd hZero hJournal
                  · rw [Device.flush_cur,
                      Device.put_cur_ne hNe,
                      Device.flush_cur]
              · exact ⟨.inr hPut, hUnclosed _ (.inl rfl)⟩
            · intro d' hIssued
              exact ⟨.inr (hClosing d' hIssued),
                hUnclosed d' hIssued⟩
      · exact ⟨hSafe, .unsynced⟩

/- What a crash leaves while the log is being closed. -/
theorem Closing.crash
    (hConfig : configOk io = true)
    (hJournal : io.journalCount ≠ 0)
    (hClosing : Closing io K base new d)
    {disk : Nat → Sector}
    (hCrash : d.Crash disk) :
    Recovers io K base disk ∨
      (ClosedLog io disk ∧
        ∀ lba, lba ≠ io.journal → disk lba = new lba) := by
  have hNew : ∀ lba, lba ≠ io.journal →
      disk lba = new lba := by
    intro lba hNe
    have hMem := hCrash lba
    rw [hClosing.settled lba hNe] at hMem
    exact hMem
  rcases hClosing.header _ (hCrash io.journal) with
    hClosed | ⟨undo, hEq, hBacked⟩
  · exact .inr ⟨hClosed, hNew⟩
  · left
    have hOnly : Logged io K base (fun us => us = undo)
        (fun lba => {disk lba}) := by
      rintro v rfl
      refine .inr ⟨undo, rfl, hEq, hBacked.mono ?_⟩
      rintro lba v rfl
      exact hCrash lba
    exact hOnly.recovers hConfig hJournal (fun _ => rfl)

--
-- Beginning
--

/-
  The outcomes of `stx_begin` on a closed log: the
  configuration was rejected, the log could not be read, the
  active header failed, or the transaction is open.
-/
inductive BeginResult
    (io : StxIo)
    (K : Nat → Prop)
    (base : Nat → Sector)
    (t : SectorTx)
    (d : Device Sector) :
    Int × SectorTx → Device Sector → Prop where
  | rejected
      (hConfig : configOk io = false) :
      BeginResult io K base t d (-1, t) d
  | refused
      (hConfig : configOk io = true) :
      BeginResult io K base t d (-1, idleTx io) d
  | failed
      {t' : SectorTx}
      {d' : Device Sector}
      (hConfig : configOk io = true)
      (hActive : t'.active = true)
      (hFailed : t'.failed = true)
      (hClosing : t'.closing = false)
      (hInv : TxInv io K base t' d')
      (hSame : SameOutside io d d') :
      BeginResult io K base t d (-1, t') d'
  | opened
      {t' : SectorTx}
      {d' : Device Sector}
      (hConfig : configOk io = true)
      (hActive : t'.active = true)
      (hFailed : t'.failed = false)
      (hClosing : t'.closing = false)
      (hUndo : t'.undo = [])
      (hInv : TxInv io K base t' d')
      (hSame : SameOutside io d d') :
      BeginResult io K base t d (0, t') d'

/- The log of an opened transaction, before its header. -/
theorem recorded_idle
    (hCoherent : d.Coherent)
    (hBase : ∀ lba, K lba → d.cur lba = base lba) :
    Recorded io K base
      { idleTx io with active := true } d where
  io_eq := rfl
  coherent := hCoherent
  records := .nil io
  olds u hu := by simp [idleTx] at hu
  rest lba hK _ := hBase lba hK

theorem stxBegin_spec
    (hProtects : configOk io = true → Protects io K)
    (t : SectorTx)
    (hRest : d.AtRest)
    (hBase : ∀ lba, K lba → d.cur lba = base lba)
    (hClosed : io.journalCount ≠ 0 → ClosedLog io d.cur) :
    (stxBegin t io).Spec Device.faulty (Safe io K base)
      (BeginResult io K base t d) d := by
  have hClean : Clean K base d.kept := by
    intro lba hK v hv
    rw [hRest lba] at hv
    rw [hv]
    exact hBase lba hK
  have hLogged : io.journalCount ≠ 0 →
      ∀ listed, Logged io K base listed d.kept := by
    intro hJournal listed v hv
    rw [hRest io.journal] at hv
    rw [hv]
    exact .inl ⟨hClosed hJournal, hClean⟩
  have hSafe : Safe io K base d :=
    fun hJournal => hLogged hJournal _
  unfold stxBegin stxRecover
  rw [bind_assoc]
  apply (((stxLoad_spec t io d).consequence
    (fun s hs => ?_) (fun _ _ _ h => h))).seq
  · rintro ⟨r, t'⟩ s ⟨rfl, hLoad⟩
    cases hLoad with
    | rejected hConfig => exact ⟨hSafe, .rejected hConfig⟩
    | refused hConfig hJournal =>
        exact ⟨hSafe, .refused hConfig⟩
    | ram hConfig hJournal =>
        have hRecorded : Recorded io K base
            { idleTx io with active := true } _ :=
          recorded_idle hRest.coherent hBase
        simp only [hJournal, beq_self_eq_true, if_true]
        exact ⟨hSafe, .opened hConfig rfl rfl rfl rfl
          ⟨hRecorded, fun h => absurd hJournal h,
            fun h => absurd hJournal h⟩ (.refl io _)⟩
    | closed hConfig hJournal hLog =>
        have hRecorded : Recorded io K base
            { idleTx io with active := true } _ :=
          recorded_idle hRest.coherent hBase
        have hBacked : Backed io K base [] s.kept :=
          ⟨.nil io, by simp, by simp,
            fun lba hK _ => hClean lba hK⟩
        have hHeader := header_spec hConfig hJournal
          (hProtects hConfig) hRecorded
          (hLogged hJournal _) hBacked
        have hNotRam :
            (io.journalCount == 0) = false := by
          simpa using hJournal
        simp only [hNotRam, Bool.false_eq_true, if_false]
        apply hHeader.seq
        rintro (_ | _) d' ⟨hSame, hNext⟩
        · exact ⟨hNext.safe,
            .failed hConfig rfl rfl rfl hNext hSame⟩
        · exact ⟨hNext.safe,
            .opened hConfig rfl rfl rfl rfl hNext hSame⟩
    | valid undo hConfig hJournal hLog =>
        exact absurd hLog
          (hClosed hJournal).not_valid
  · rw [hs]
    exact hSafe

end KvantOS
