import KvantOS.SectorTx.Recovery

/-
  This file proves that a transaction on a durable journal
  is atomic under crashes: after a crash at any point of any
  call, recovery leaves all targets as before the
  transaction, or all as after its writes.

  Key definitions include:
    * `stxWriteAll`, `Ending`, `stxSession`
    * `applyWrites`, `Boots`

  Key theorems include:
    * `stxSession_spec`, `stxSession_crash_atomic`
    * `stx_durable`
-/

namespace KvantOS

/- A sequence of `stx_write` calls, results ignored. -/
def stxWriteAll :
    SectorTx → List (Nat × Sector) → StxProg SectorTx
  | t, [] => pure t
  | t, w :: ws => do
      let (_, t) ← stxWrite t w.1 (some w.2)
      stxWriteAll t ws

/- How the user of a transaction ends it. -/
inductive Ending where
  | commit
  | abort
  | nothing
  deriving DecidableEq

/- The call that ends the transaction. -/
def Ending.run
    (t : SectorTx) :
    Ending → StxProg (Int × SectorTx)
  | .commit => stxCommit t
  | .abort => stxAbort t
  | .nothing => pure (0, t)

/- `stx_begin`, the writes, and the ending. -/
def stxSession
    (t : SectorTx)
    (io : StxIo)
    (writes : List (Nat × Sector))
    (ending : Ending) : StxProg (Int × SectorTx) := do
  let (_, t) ← stxBegin t io
  let t ← stxWriteAll t writes
  ending.run t

/- The disk after all the writes. -/
def applyWrites
    (writes : List (Nat × Sector))
    (disk : Nat → Sector) : Nat → Sector :=
  writes.foldl
    (fun disk w => Function.update disk w.1 w.2) disk

--
-- Sequences of Writes
--

variable {io : StxIo} {K : Nat → Prop} {base : Nat → Sector}

variable {t : SectorTx}

/- A handle without a transaction issues nothing. -/
theorem stxWriteAll_inactive
    (hIdle : t.active = false)
    (writes : List (Nat × Sector)) :
    stxWriteAll t writes = pure t := by
  induction writes with
  | nil => rfl
  | cons w ws ih =>
      rw [stxWriteAll, stxWrite]
      simp only [hIdle, Bool.not_false, Bool.true_or,
        if_true]
      exact ih

/-
  The state inside a session: the invariant, and as long as
  no call has failed, the targets hold the writes so far.
-/
structure InSession
    (io : StxIo)
    (K : Nat → Prop)
    (base now : Nat → Sector)
    (t : SectorTx)
    (d : Device Sector) : Prop where
  inv : TxInv io K base t d
  active : t.active = true
  closing : t.closing = false
  now : t.failed = false →
    ∀ lba, K lba → d.cur lba = now lba

variable {d : Device Sector}

theorem stxWriteAll_spec
    (hConfig : configOk io = true)
    (hProtects : Protects io K)
    (writes : List (Nat × Sector))
    {now : Nat → Sector}
    (hSession : InSession io K base now t d) :
    (stxWriteAll t writes).Spec Device.faulty
      (Safe io K base)
      (InSession io K base (applyWrites writes now)) d := by
  induction writes generalizing now t d with
  | nil => exact ⟨hSession.inv.safe, hSession⟩
  | cons w ws ih =>
      unfold stxWriteAll
      apply (stxWrite_spec hConfig hProtects hSession.inv
        w.1 (some w.2)).seq
      rintro ⟨r, t'⟩ d' hResult
      cases hResult with
      | refused hMode =>
          have hFailed : t.failed = true := by
            simpa [hSession.active, hSession.closing]
              using hMode
          have hNext : InSession io K base
              (Function.update now w.1 w.2) t d :=
            ⟨hSession.inv, hSession.active,
              hSession.closing, fun hOk => by
                simp [hFailed] at hOk⟩
          exact ih hNext
      | failed hMode hFailed hInv =>
          have hNext : InSession io K base
              (Function.update now w.1 w.2) t' d' :=
            ⟨hInv, hMode.active.trans hSession.active,
              hMode.closing.trans hSession.closing,
              fun hOk => by simp [hFailed] at hOk⟩
          exact ih hNext
      | written value hData hTarget hOpen hMode hFailed
          hInv hLba hRecord hFrame =>
          have hNext : InSession io K base
              (Function.update now w.1 w.2) t' d' := by
            refine ⟨hInv, hMode.active.trans
              hSession.active, hMode.closing.trans
              hSession.closing, ?_⟩
            intro _ lba hK
            by_cases hEq : lba = w.1
            · subst hEq
              rw [hLba, Function.update_self]
              exact (Option.some.inj hData).symm
            · rw [hFrame lba (not_inJournal_of_target
                hConfig (hProtects lba hK)) hEq,
                Function.update_of_ne hEq]
              exact hSession.now hOpen.2.1 lba hK
          exact ih hNext

--
-- Whole Sessions
--

/- All targets are answered for. -/
def Target
    (io : StxIo)
    (lba : Nat) : Prop :=
  targetOk io lba = true

theorem protects_target (io : StxIo) :
    Protects io (Target io) :=
  fun _ hTarget => hTarget

/-
  The crash condition of a session: the old contents can be
  recovered, or a commit is closing over the new ones.
-/
def SessionSafe
    (io : StxIo)
    (writes : List (Nat × Sector))
    (ending : Ending)
    (base : Nat → Sector)
    (d : Device Sector) : Prop :=
  Safe io (Target io) base d ∨
    ending = .commit ∧ ∃ new,
      Closing io (Target io) base new d ∧
        ∀ lba, Target io lba →
          new lba = applyWrites writes base lba

/-
  What a completed session says: an ending by `stx_commit`
  that answered 0 has made all the writes durable.
-/
def SessionDone
    (io : StxIo)
    (writes : List (Nat × Sector))
    (ending : Ending)
    (base : Nat → Sector)
    (out : Int × SectorTx)
    (d : Device Sector) : Prop :=
  ending = .commit → out.1 = 0 →
    d.AtRest ∧
      (io.journalCount ≠ 0 → ClosedLog io d.cur ∧
        (io.journal, headerSector io false []) ∈
          d.written) ∧
      ∀ lba, Target io lba →
        d.cur lba = applyWrites writes base lba

/- The ending of a session whose handle is open. -/
theorem Ending.run_spec
    (hConfig : configOk io = true)
    {writes : List (Nat × Sector)}
    (ending : Ending)
    (hSession : InSession io (Target io) base
      (applyWrites writes base) t d) :
    (ending.run t).Spec Device.faulty
      (SessionSafe io writes ending base)
      (SessionDone io writes ending base) d := by
  have hProtects := protects_target io
  cases ending with
  | nothing =>
      exact ⟨.inl hSession.inv.safe, nofun⟩
  | abort =>
      exact (stxAbort_spec hConfig hProtects
        hSession.inv).consequence
        (fun _ hSafe => .inl hSafe) (fun _ _ _ _ => nofun)
  | commit =>
      by_cases hFailed : t.failed = true
      · have hRefused : stxCommit t = pure (-1, t) := by
          simp [stxCommit, hFailed]
        rw [Ending.run, hRefused]
        exact ⟨.inl hSession.inv.safe,
          fun _ hZero => by simp at hZero⟩
      · have hOk : t.failed = false := by
          simpa using hFailed
        have hNow := hSession.now hOk
        apply (stxCommit_spec hConfig hProtects
          hSession.inv).consequence
        · rintro d' (hSafe | hClosing)
          · exact .inl hSafe
          · exact .inr ⟨rfl, _, hClosing, hNow⟩
        · rintro out d' - hResult _ hZero
          cases hResult with
          | refused => simp at hZero
          | unsynced => simp at hZero
          | unclosed => simp at hZero
          | done hIdle hIo hRest hClosed hSame =>
              refine ⟨hRest, hClosed, fun lba hK => ?_⟩
              rw [hSame lba ?_]
              · exact hNow lba hK
              · by_cases hJournal : io.journalCount = 0
                · exact .inl hJournal
                · exact .inr (targetOk_ne_journal
                    hConfig hJournal hK (Nat.zero_le _))

/- The ending of a session that never opened. -/
theorem Ending.run_inactive
    (hIdle : t.active = false)
    (ending : Ending) :
    ending.run t = pure
      (if ending = .nothing then 0 else -1, t) := by
  cases ending with
  | commit => simp [Ending.run, stxCommit, hIdle]
  | abort => simp [Ending.run, stxAbort, hIdle]
  | nothing => rfl

variable {disk : Nat → Sector}

theorem stxSession_spec
    (hConfig : configOk io = true)
    (t : SectorTx)
    (writes : List (Nat × Sector))
    (ending : Ending)
    (hClosed : io.journalCount ≠ 0 → ClosedLog io disk) :
    (stxSession t io writes ending).Spec Device.faulty
      (SessionSafe io writes ending disk)
      (SessionDone io writes ending disk)
      (Device.ofDisk disk) := by
  have hProtects := protects_target io
  have hBegin := stxBegin_spec (fun _ => hProtects) t
    (Device.atRest_ofDisk disk) (fun _ _ => rfl) hClosed
  have hOpen : ∀ t' d',
      InSession io (Target io) disk disk t' d' →
      (stxWriteAll t' writes >>= fun t => ending.run t).Spec
        Device.faulty (SessionSafe io writes ending disk)
        (SessionDone io writes ending disk) d' := by
    intro t' d' hSession
    apply ((stxWriteAll_spec hConfig hProtects writes
      hSession).consequence
        (fun _ hSafe => Or.inl hSafe)
        (fun _ _ _ h => h)).seq
    intro t'' d'' hNow
    exact ending.run_spec hConfig hNow
  unfold stxSession
  apply (hBegin.consequence (fun _ hSafe => Or.inl hSafe)
    (fun _ _ hSafe hResult =>
      And.intro hSafe hResult)).seq
  rintro ⟨r, t'⟩ d' ⟨hSafe, hResult⟩
  cases hResult with
  | rejected hReject =>
      rw [hReject] at hConfig
      contradiction
  | refused =>
      simp only
      rw [stxWriteAll_inactive rfl]
      simp only [Prog.pure_eq, Prog.ret_bind]
      rw [Ending.run_inactive rfl]
      refine ⟨.inl hSafe, ?_⟩
      rintro rfl hZero
      simp at hZero
  | failed _ hActive hFailed hClosing hInv hSame =>
      apply hOpen
      refine ⟨hInv, hActive, hClosing, fun hOk => ?_⟩
      simp [hFailed] at hOk
  | opened _ hActive hFailed hClosing hUndo hInv hSame =>
      apply hOpen
      refine ⟨hInv, hActive, hClosing, fun _ lba hK => ?_⟩
      exact hSame lba (not_inJournal_of_target hConfig hK)

/- A disk that `stx_load` accepts as closed. -/
def LoadsClosed
    (io : StxIo)
    (disk : Nat → Sector) : Prop :=
  (stxLoad (idleTx io) io).run Device.perfect
      (Device.ofDisk disk) =
    ((0, idleTx io), Device.ofDisk disk)

theorem LoadsClosed.closedLog
    (hLoads : LoadsClosed io disk)
    (hJournal : io.journalCount ≠ 0) :
    configOk io = true ∧ ClosedLog io disk := by
  have hSpec := (stxLoad_spec (idleTx io) io
    (Device.ofDisk disk)).run Device.faulty_perfect
  rw [hLoads] at hSpec
  cases hSpec.2 with
  | ram _ hRam => exact absurd hRam hJournal
  | closed hConfig _ hLog => exact ⟨hConfig, hLog⟩

/-
  Crash atomicity of the durable journal. Begin on a closed
  log, issue any writes, and end in any way or not at all;
  let any command fail, and crash at any point. Recovery
  answers 0 and leaves all targets as before, or all as after
  the writes. The second is possible only after a commit has
  issued its closing header, and is the only outcome once
  that commit has answered 0.
-/
theorem stxSession_crash_atomic
    {disk : Nat → Sector}
    (hJournal : io.journalCount ≠ 0)
    (hLoads : LoadsClosed io disk)
    (t t' : SectorTx)
    (writes : List (Nat × Sector))
    (ending : Ending)
    {rest : StxProg (Int × SectorTx)}
    {d : Device Sector}
    (hSteps : Prog.Steps Device.faulty
      (stxSession t io writes ending)
      (Device.ofDisk disk) rest d)
    {crashed : Nat → Sector}
    (hCrash : d.Crash crashed) :
    let out := (stxRecover t' io).run Device.perfect
      (Device.ofDisk crashed)
    let before := ∀ lba, targetOk io lba = true →
      out.2.cur lba = disk lba
    let after := ∀ lba, targetOk io lba = true →
      out.2.cur lba = applyWrites writes disk lba
    out.1.1 = 0 ∧
      (before ∨ after ∧ ending = .commit ∧
        (io.journal, headerSector io false []) ∈
          d.written) ∧
      (ending = .commit →
        (∃ final, rest = .ret (0, final)) → after) := by
  obtain ⟨hConfig, hClosed⟩ := hLoads.closedLog hJournal
  have hSpec := (stxSession_spec hConfig t writes ending
    (fun _ => hClosed)).steps hSteps
  have hOutcome := hSpec.crash_start
  have hDone : ending = .commit →
      (∃ final, rest = .ret (0, final)) →
      ClosedLog io crashed ∧
        ∀ lba, Target io lba →
          crashed lba = applyWrites writes disk lba := by
    rintro hCommit ⟨final, rfl⟩
    obtain ⟨hRest, hLog, hNew⟩ := hSpec.2 hCommit rfl
    rw [hRest.crash_iff.mp hCrash]
    exact ⟨(hLog hJournal).1, hNew⟩
  have hRecovers :
      Recovers io (Target io) disk crashed ∨
        (Recovers io (Target io)
          (applyWrites writes disk) crashed ∧
          ending = .commit ∧
          (io.journal, headerSector io false []) ∈
            d.written) := by
    rcases hOutcome with
      hSafe | ⟨hCommit, new, hClosing, hNew⟩
    · exact .inl ((hSafe hJournal).recovers hConfig
        hJournal hCrash)
    · rcases hClosing.crash hConfig hJournal hCrash with
        hOld | ⟨hLog, hSame⟩
      · exact .inl hOld
      · refine .inr ⟨.closed hLog ?_, hCommit,
          hClosing.issued⟩
        intro lba hK
        rw [hSame lba (targetOk_ne_journal hConfig hJournal
          hK (Nat.zero_le _)), hNew lba hK]
  have hProtects := protects_target io
  refine ⟨?_, ?_, ?_⟩
  · rcases hRecovers with hOld | ⟨hNew, -⟩
    · exact (hOld.run hConfig hJournal hProtects t').1
    · exact (hNew.run hConfig hJournal hProtects t').1
  · rcases hRecovers with hOld | ⟨hNew, hIssued⟩
    · exact .inl
        (hOld.run hConfig hJournal hProtects t').2
    · exact .inr
        ⟨(hNew.run hConfig hJournal hProtects t').2,
          hIssued⟩
  · intro hCommit hRet
    obtain ⟨hLog, hNew⟩ := hDone hCommit hRet
    exact (Recovers.run hConfig hJournal hProtects
      (.closed hLog hNew) t').2

/- The tiny device with a closed log over zeroed sectors. -/
def tinyClosedDisk : Nat → Sector :=
  fun lba =>
    if lba = 1 then headerSector tinyIo false [] else 0

theorem tinyClosedDisk_closed :
    ClosedLog tinyIo tinyClosedDisk :=
  closedHeader_headerSector (by decide) (by decide) []

theorem tinyClosedDisk_loads :
    LoadsClosed tinyIo tinyClosedDisk :=
  stxLoad_run_closed (d := Device.ofDisk tinyClosedDisk)
    (by decide) (by decide) tinyClosedDisk_closed

/- A committed session, cut after its last command. -/
theorem stxSession_crash_atomic_tiny :
    let out := (stxSession (idleTx tinyIo) tinyIo [(0, 1)]
      .commit).run Device.perfect
        (Device.ofDisk tinyClosedDisk)
    out.1.1 = 0 ∧
      ((stxRecover (idleTx tinyIo) tinyIo).run
        Device.perfect
        (Device.ofDisk out.2.cur)).2.cur 0 = 1 := by
  have hZero : ((stxSession (idleTx tinyIo) tinyIo [(0, 1)]
      .commit).run Device.perfect
        (Device.ofDisk tinyClosedDisk)).1.1 = 0 := by
    simp only [stxSession, stxBegin, stxRecover,
      Prog.run_bind]
    rw [tinyClosedDisk_loads]
    simp [header, stxWriteAll, stxWrite, recordTarget,
      logRecord, Ending.run, stxCommit, BlockProg.read,
      BlockProg.write, BlockProg.sync, Device.perfect,
      idleTx, tinyIo, targetOk, stxMax]
  have hReturns := Device.returns_perfect
    (stxSession (idleTx tinyIo) tinyIo [(0, 1)] .commit)
    (Device.ofDisk tinyClosedDisk)
  have hDone := Prog.Spec.run Device.faulty_perfect
    (stxSession_spec (by decide) (idleTx tinyIo) [(0, 1)]
      .commit (fun _ => tinyClosedDisk_closed))
  generalize (stxSession (idleTx tinyIo) tinyIo [(0, 1)]
    .commit).run Device.perfect
      (Device.ofDisk tinyClosedDisk) = out at *
  obtain ⟨⟨r, t⟩, d⟩ := out
  subst hZero
  obtain ⟨hRest, -⟩ := hDone rfl rfl
  have hAfter := (stxSession_crash_atomic (by decide)
    tinyClosedDisk_loads (idleTx tinyIo) (idleTx tinyIo)
    [(0, 1)] .commit hReturns
    hRest.coherent.crash_cur).2.2 rfl ⟨t, rfl⟩
  exact ⟨rfl, hAfter 0 rfl⟩

--
-- Many Sessions
--

/-
  The disks after any history of sessions, each with whether
  its commit answered 0: the power is lost inside or after
  every session, and inside any recoveries before the next.
-/
inductive Boots
    (io : StxIo)
    (disk₀ : Nat → Sector) :
    List (List (Nat × Sector) × Bool) →
      (Nat → Sector) → Prop where
  | start : Boots io disk₀ [] disk₀
  | recovery
      {h : List (List (Nat × Sector) × Bool)}
      {disk disk' : Nat → Sector}
      (hBefore : Boots io disk₀ h disk)
      (hCrashed : CrashedRecovery io disk disk') :
      Boots io disk₀ h disk'
  | session
      {h : List (List (Nat × Sector) × Bool)}
      {disk crashed : Nat → Sector}
      {t t' : SectorTx}
      {writes : List (Nat × Sector)}
      {ending : Ending}
      {rest : StxProg (Int × SectorTx)}
      {d : Device Sector}
      {ok : Bool}
      (hBefore : Boots io disk₀ h disk)
      (hSteps : Prog.Steps Device.faulty
        (stxSession t io writes ending)
        (Device.ofDisk ((stxRecover t' io).run
          Device.perfect (Device.ofDisk disk)).2.cur)
        rest d)
      (hCrash : d.Crash crashed)
      (hOk : ok = true → ending = .commit ∧
        ∃ final, rest = .ret (0, final)) :
      Boots io disk₀ (h ++ [(writes, ok)]) crashed

theorem applyWrites_congr
    {disk disk' : Nat → Sector}
    {lba : Nat}
    (hSame : disk lba = disk' lba)
    (writes : List (Nat × Sector)) :
    applyWrites writes disk lba =
      applyWrites writes disk' lba := by
  induction writes generalizing disk disk' with
  | nil => exact hSame
  | cons w ws ih =>
      apply ih
      simp only [Function.update_apply, hSame]

section Many

variable {disk disk' : Nat → Sector}

theorem Recovers.congr
    {base' : Nat → Sector}
    (hRecovers : Recovers io K base disk)
    (hSame : ∀ lba, K lba → base lba = base' lba) :
    Recovers io K base' disk := by
  cases hRecovers with
  | closed hLog hDisk =>
      exact .closed hLog
        (fun lba hK => (hDisk lba hK).trans (hSame lba hK))
  | undone undo hLog hDisk =>
      exact .undone undo hLog
        (fun lba hK => (hDisk lba hK).trans (hSame lba hK))

/- An interrupted recovery keeps what will come back. -/
theorem Recovers.crashed
    (hConfig : configOk io = true)
    (hJournal : io.journalCount ≠ 0)
    (hRecovers : Recovers io (Target io) base disk)
    (hCrashed : CrashedRecovery io disk disk') :
    Recovers io (Target io) base disk' := by
  cases hRecovers with
  | closed hLog hDisk =>
      rcases hCrashed with ⟨t, d, hPasses, hCrash⟩
      cases (stxRecover_spec t io disk).passes hPasses with
      | untouched _ hSame =>
          rw [hSame disk' hCrash]
          exact .closed hLog hDisk
      | recovering undo _ hValid =>
          exact absurd hValid hLog.not_valid
  | undone undo hLog hDisk =>
      have hRestored : ∀ lba, Target io lba →
          recoveredDisk io undo disk lba = base lba :=
        fun lba hK => (recoveredDisk_target hConfig
          hJournal hK).trans (hDisk lba hK)
      rcases PartlyRecovered.step hConfig hJournal hLog
        (.inl fun _ _ => rfl) hCrashed with hSame | rfl
      · refine .undone undo
          (hLog.of_sameBut hConfig hJournal hSame) ?_
        intro lba hK
        rw [← recoveredDisk_target hConfig hJournal hK,
          recoveredDisk_congr hSame]
        exact hRestored lba hK
      · exact .closed (recoveredDisk_closed hConfig
          hJournal undo disk) hRestored

/- A recovery that runs to its end closes the log. -/
theorem Recovers.closes
    (hConfig : configOk io = true)
    (hJournal : io.journalCount ≠ 0)
    (hRecovers : Recovers io K base disk)
    (t : SectorTx) :
    ClosedLog io ((stxRecover t io).run Device.perfect
      (Device.ofDisk disk)).2.cur := by
  cases hRecovers with
  | closed hLog _ =>
      rw [stxRecover_run_closed (d := Device.ofDisk disk)
        hConfig hJournal t hLog]
      exact hLog
  | undone undo hLog _ =>
      rw [(stxRecover_run_valid (d := Device.ofDisk disk)
        hConfig hJournal t hLog).2]
      exact recoveredDisk_closed hConfig hJournal undo _

/- Cut anywhere, a session recovers to old or new. -/
theorem stxSession_recovers
    (hConfig : configOk io = true)
    (hJournal : io.journalCount ≠ 0)
    (hClosed : ClosedLog io disk)
    {writes : List (Nat × Sector)}
    {ending : Ending}
    {rest : StxProg (Int × SectorTx)}
    (hSteps : Prog.Steps Device.faulty
      (stxSession t io writes ending)
      (Device.ofDisk disk) rest d)
    (hCrash : d.Crash disk') :
    (Recovers io (Target io) disk disk' ∨
      Recovers io (Target io) (applyWrites writes disk)
        disk') ∧
      (ending = .commit →
        (∃ final, rest = .ret (0, final)) →
        Recovers io (Target io) (applyWrites writes disk)
          disk') := by
  have hSpec := (stxSession_spec hConfig t writes ending
    (fun _ => hClosed)).steps hSteps
  constructor
  · rcases hSpec.crash_start with
      hSafe | ⟨-, new, hClosing, hNew⟩
    · exact .inl ((hSafe hJournal).recovers hConfig
        hJournal hCrash)
    · rcases hClosing.crash hConfig hJournal hCrash with
        hOld | ⟨hLog, hSame⟩
      · exact .inl hOld
      · refine .inr (.closed hLog fun lba hK => ?_)
        rw [hSame lba (targetOk_ne_journal hConfig hJournal
          hK (Nat.zero_le _)), hNew lba hK]
  · rintro hCommit ⟨final, rfl⟩
    rcases hSpec.2 hCommit rfl with ⟨hRest, hLog, hNew⟩
    rw [hRest.crash_iff.mp hCrash]
    exact .closed (hLog hJournal).1 hNew

theorem Boots.recovers
    {disk₀ : Nat → Sector}
    {h : List (List (Nat × Sector) × Bool)}
    (hConfig : configOk io = true)
    (hJournal : io.journalCount ≠ 0)
    (hClosed : ClosedLog io disk₀)
    (hBoots : Boots io disk₀ h disk) :
    ∃ files, Explains
      (fun writes files files' =>
        files' = applyWrites writes files) h disk₀ files ∧
      Recovers io (Target io) files disk := by
  induction hBoots with
  | start =>
      exact ⟨disk₀, .nil, .closed hClosed fun _ _ => rfl⟩
  | recovery hBefore hCrashed ih =>
      rcases ih with ⟨files, hFiles, hRecovers⟩
      exact ⟨files, hFiles,
        hRecovers.crashed hConfig hJournal hCrashed⟩
  | @session h disk crashed t t' writes ending rest d ok
      hBefore hSteps hCrash hOk ih =>
      rcases ih with ⟨files, hFiles, hRecovers⟩
      have hSame := (hRecovers.run hConfig hJournal
        (protects_target io) t').2
      rcases stxSession_recovers hConfig hJournal
        (hRecovers.closes hConfig hJournal t') hSteps hCrash
        with ⟨hEither, hAfter⟩
      have hDone := fun hNew : Recovers io (Target io) _ _ =>
        (⟨_, .done hFiles rfl, hNew.congr fun lba hK =>
          applyWrites_congr (hSame lba hK) writes⟩ :
          ∃ files, Explains _ (h ++ [(writes, ok)]) disk₀
            files ∧ Recovers io (Target io) files crashed)
      cases ok with
      | true =>
          rcases hOk rfl with ⟨hCommit, hRet⟩
          exact hDone (hAfter hCommit hRet)
      | false =>
          rcases hEither with hOld | hNew
          · exact ⟨files, .lost hFiles, hOld.congr hSame⟩
          · exact hDone hNew

end Many

end KvantOS
