import KvantOS.SectorTx.Atomicity

/-
  This file proves what the log promises of a live handle
  when commands fail, in both modes: `stx_begin` and then
  calls in any order, each of them completed.

  The promises fail in two corners. A `stx_begin` that fails
  while it restores an active log leaves the handle open but
  not failed, and so does a `stx_abort` that fails: a later
  `stx_commit` may then answer 0.

  Key definitions include:
    * `TxCall`, `TxEvent`, `LiveRun`
    * `CallAtomic`, `LiveAtomic`, `NoCommitAfterAbort`

  Key theorems include:
    * `LivePhase.call`, `LivePhase.atomic`
    * `liveAtomic_of_noActiveLog`, `not_liveAtomic_tiny`
-/

--
-- Live Runs
--

namespace KvantOS

/- The calls on a handle after `stx_begin`. -/
inductive TxCall where
  | write (lba : Nat) (data : Option Sector)
  | commit
  | abort

def TxCall.run
    (t : SectorTx) :
    TxCall → StxProg (Int × SectorTx)
  | .write lba data => stxWrite t lba data
  | .commit => stxCommit t
  | .abort => stxAbort t

/- The writes issued on the way from `d` to `d'`. -/
def newWrites
    (d d' : Device Sector) : List (Nat × Sector) :=
  d'.written.take (d'.written.length - d.written.length)

/-
  A completed call with its result and the writes that it
  issued, latest first.
-/
structure TxEvent where
  call : TxCall
  result : Int
  writes : List (Nat × Sector)

/-
  `stx_begin` on the disk and the calls so far, latest
  first, with the handle and the device they leave. `Ok`
  says in which order the user makes the calls.
-/
inductive LiveRun
    (Ok : List TxEvent → TxCall → Prop)
    (io : StxIo)
    (t : SectorTx)
    (disk : Nat → Sector) :
    Int → List TxEvent → SectorTx → Device Sector →
      Prop where
  | begin
      {begun : Int}
      {t' : SectorTx}
      {d' : Device Sector}
      (hBegin : Prog.Returns Device.faulty (stxBegin t io)
        (Device.ofDisk disk) (begun, t') d') :
      LiveRun Ok io t disk begun [] t' d'
  | call
      {begun result : Int}
      {history : List TxEvent}
      {t₁ t₂ : SectorTx}
      {d₁ d₂ : Device Sector}
      {call : TxCall}
      (hRun : LiveRun Ok io t disk begun history t₁ d₁)
      (hOk : Ok history call)
      (hCall : Prog.Returns Device.faulty (call.run t₁) d₁
        (result, t₂) d₂) :
      LiveRun Ok io t disk begun
        (⟨call, result, newWrites d₁ d₂⟩ :: history) t₂ d₂

/- The disk after a call, as far as its user is told. -/
def TxEvent.apply
    (e : TxEvent)
    (disk : Nat → Sector) : Nat → Sector :=
  match e.call, e.result with
  | .write lba (some value), 0 =>
      Function.update disk lba value
  | _, _ => disk

/- What was last written to each sector. -/
def lastWritten
    (history : List TxEvent)
    (disk : Nat → Sector) : Nat → Sector :=
  history.foldr TxEvent.apply disk

/- The event is a write, of whatever to wherever. -/
def TxEvent.IsWrite (e : TxEvent) : Prop :=
  ∃ lba data, e.call = .write lba data

/- `stx_begin` or some `stx_write` has failed. -/
def Spoiled
    (begun : Int)
    (history : List TxEvent) : Prop :=
  begun ≠ 0 ∨ ∃ e ∈ history, e.IsWrite ∧ e.result ≠ 0

/-
  A durable commit has failed after it began to close the
  log: of all its commands only that header is a write.
-/
def ClosingFailed (history : List TxEvent) : Prop :=
  ∃ e ∈ history, e.call = .commit ∧ e.result ≠ 0 ∧
    e.writes ≠ []

/- The handle has no room for a record of this target. -/
def SectorTx.Full
    (t : SectorTx)
    (lba : Nat) : Prop :=
  t.undo.length = stxMax ∧ ∀ u ∈ t.undo, u.lba ≠ lba

/- The calls that must not write anything. -/
inductive Silent
    (io : StxIo)
    (begun : Int)
    (history : List TxEvent)
    (t : SectorTx) : TxCall → Prop where
  | spoiled
      {lba : Nat}
      {data : Option Sector}
      (hSpoiled : Spoiled begun history) :
      Silent io begun history t (.write lba data)
  | null
      {lba : Nat} :
      Silent io begun history t (.write lba none)
  | outside
      {lba : Nat}
      {data : Option Sector}
      (hOutside : ¬ Target io lba) :
      Silent io begun history t (.write lba data)
  | full
      {lba : Nat}
      {data : Option Sector}
      (hFull : t.Full lba) :
      Silent io begun history t (.write lba data)
  | closing
      {call : TxCall}
      (hClosing : ClosingFailed history) :
      Silent io begun history t call

/-
  The old contents of a target are in the undo record: the
  handle has them, or the handle that the rest of the call
  carries does, whatever the device answers.
-/
def InUndo
    (t : SectorTx)
    (disk : Nat → Sector)
    (lba : Nat)
    (rest : StxProg (Int × SectorTx)) : Prop :=
  ∃ u : UndoRecord, u.lba = lba ∧ u.old = disk lba ∧
    (u ∈ t.undo ∨ ∀ d out d',
      Prog.Returns Device.faulty rest d out d' →
        u ∈ out.2.undo)

/- The promises about one more call of a live run. -/
structure CallAtomic
    (io : StxIo)
    (disk : Nat → Sector)
    (begun : Int)
    (history : List TxEvent)
    (t : SectorTx)
    (d : Device Sector)
    (call : TxCall) : Prop where
  aborted : call = .abort → ∀ t' d',
    Prog.Returns Device.faulty (call.run t) d (0, t') d' →
    ∀ lba, Target io lba → d'.cur lba = disk lba
  committed : call = .commit → ∀ t' d',
    Prog.Returns Device.faulty (call.run t) d (0, t') d' →
    (∀ lba, Target io lba →
      d'.cur lba = lastWritten history disk lba) ∧
    (io.journalCount ≠ 0 → ClosedLog io d'.cur)
  refused : call = .commit → Spoiled begun history →
    ∀ out d',
      Prog.Returns Device.faulty (call.run t) d out d' →
      out.1 = -1
  silent : Silent io begun history t call → ∀ d',
    Prog.Passes Device.faulty (call.run t) d d' →
    d'.written = d.written
  recorded : ∀ lba value next d', Target io lba →
    Prog.Steps Device.faulty (call.run t) d
      (.step (.write lba value) next) d' →
    InUndo t disk lba (.step (.write lba value) next) ∧
      (io.journalCount ≠ 0 → ∀ crashed,
        d'.Crash crashed →
        Recovers io (Target io) disk crashed)

/- The promises hold of every call of every live run. -/
def LiveAtomic
    (Ok : List TxEvent → TxCall → Prop)
    (io : StxIo)
    (t : SectorTx)
    (disk : Nat → Sector) : Prop :=
  ∀ begun history t' d',
    LiveRun Ok io t disk begun history t' d' →
    ∀ call, Ok history call →
      CallAtomic io disk begun history t' d' call

/- The user does not commit what failed to be undone. -/
def NoCommitAfterAbort
    (history : List TxEvent)
    (call : TxCall) : Prop :=
  call = .commit → ∀ e ∈ history, e.call = .abort →
    e.result = 0

end KvantOS

--
-- Target Writes
--

namespace KvantOS

variable {io : StxIo} {disk : Nat → Sector}

/- A write to the journal, or to one of these sectors. -/
def WritesIn
    (io : StxIo)
    (lbas : Nat → Prop) : BlockCmd Sector → Prop
  | .read _ => True
  | .write lba _ => InJournal io lba ∨ lbas lba
  | .sync => True

theorem header_only
    {lbas : Nat → Prop}
    (hJournal : io.journalCount ≠ 0)
    {t : SectorTx}
    (hIo : t.io = io)
    (active : Bool) :
    (header t active).Only (WritesIn io lbas) := by
  unfold header
  rw [hIo]
  apply BlockProg.only_write
    (.inl (inJournal_slot hJournal (Nat.zero_le _)))
  rintro (_ | _)
  · trivial
  · exact ⟨trivial, fun _ => trivial⟩

/- Recording a target writes nothing but the journal. -/
theorem recordTarget_only
    {t : SectorTx}
    (hIo : t.io = io)
    (hLength : t.undo.length ≤ stxMax)
    (lba : Nat) :
    (recordTarget t lba).Only
      (WritesIn io (fun _ => False)) := by
  subst hIo
  unfold recordTarget
  split
  · trivial
  · split
    · trivial
    · next hFull =>
        have hRoom : t.undo.length < stxMax := by
          have hNe : t.undo.length ≠ stxMax := by
            simpa using hFull
          omega
        apply BlockProg.only_read trivial
        rintro (_ | old)
        · trivial
        · apply Prog.Only.bind
          · unfold logRecord
            split
            · trivial
            · next hRam =>
                have hJournal : t.io.journalCount ≠ 0 := by
                  simpa using hRam
                have hSlot := inJournal_slot
                  (i := 1 + t.undo.length) hJournal
                  (by omega)
                rw [← Nat.add_assoc] at hSlot
                apply BlockProg.only_write (.inl hSlot)
                rintro (_ | _)
                · trivial
                · apply BlockProg.only_sync trivial
                  rintro (_ | _)
                  · trivial
                  · apply header_only hJournal
                    rfl
          · exact fun _ => Prog.only_ret _ _

theorem restoreRecords_only
    {lbas : Nat → Prop}
    (records : List UndoRecord)
    (hMem : ∀ u ∈ records, lbas u.lba) :
    (restoreRecords records).Only (WritesIn io lbas) := by
  induction records with
  | nil => trivial
  | cons u us ih =>
      apply BlockProg.only_write
        (.inr (hMem u List.mem_cons_self))
      rintro (_ | _)
      · trivial
      · exact ih (fun w hw =>
          hMem w (List.mem_cons_of_mem _ hw))

/- An abort writes recorded targets and the journal. -/
theorem stxAbort_only
    {t : SectorTx}
    (hIo : t.io = io) :
    (stxAbort t).Only (WritesIn io
      (fun lba => ∃ u ∈ t.undo, u.lba = lba)) := by
  subst hIo
  unfold stxAbort
  split
  · trivial
  · apply (restoreRecords_only t.undo.reverse
      (fun u hu => ⟨u, List.mem_reverse.mp hu, rfl⟩)).bind
    rintro (_ | _)
    · trivial
    · apply BlockProg.only_sync trivial
      rintro (_ | _)
      · trivial
      · simp only [Bool.not_true, Bool.false_eq_true,
          if_false]
        split
        · trivial
        · next hRam =>
            apply (header_only (by simpa using hRam) rfl
              false).bind
            rintro (_ | _) <;> trivial

/- A commit writes nothing but the journal. -/
theorem stxCommit_only
    {t : SectorTx}
    (hIo : t.io = io) :
    (stxCommit t).Only
      (WritesIn io (fun _ => False)) := by
  subst hIo
  unfold stxCommit
  split
  · trivial
  · apply BlockProg.only_sync trivial
    rintro (_ | _)
    · trivial
    · simp only [Bool.not_true, Bool.false_eq_true,
        if_false]
      split
      · trivial
      · next hRam =>
          apply (header_only (by simpa using hRam) rfl
            false).bind
          rintro (_ | _) <;> trivial

/- The target write of a call that records nothing new. -/
theorem WritesIn.pending
    (hConfig : configOk io = true)
    {lbas : Nat → Prop}
    {program : StxProg (Int × SectorTx)}
    (hOnly : program.Only (WritesIn io lbas))
    {d d' : Device Sector}
    {lba : Nat}
    {value : Sector}
    {next : Bool → StxProg (Int × SectorTx)}
    (hTarget : Target io lba)
    (hSteps : Prog.Steps Device.faulty program d
      (.step (.write lba value) next) d') :
    lbas lba := by
  rcases (hSteps.only hOnly).1 with hJournal | hLba
  · exact absurd hJournal
      (not_inJournal_of_target hConfig hTarget)
  · exact hLba

/- `stx_write` records its target before writing it. -/
theorem stxWrite_recorded
    (hConfig : configOk io = true)
    {t : SectorTx}
    {d d' : Device Sector}
    (hInv : TxInv io (Target io) disk t d)
    {lba target : Nat}
    {data : Option Sector}
    {value : Sector}
    {next : Bool → StxProg (Int × SectorTx)}
    (hTarget : Target io target)
    (hSteps : Prog.Steps Device.faulty
      (stxWrite t lba data) d
      (.step (.write target value) next) d') :
    InUndo t disk target
      (.step (.write target value) next) := by
  have hProtects := protects_target io
  unfold stxWrite at hSteps
  split at hSteps
  · exact absurd hSteps.of_ret.1 (by simp)
  · next hMode =>
      have hFailed : t.failed = false := by
        cases hEq : t.failed <;> simp [hEq] at hMode ⊢
      rcases data with _ | data
      · exact absurd hSteps.of_ret.1 (by simp)
      · simp only at hSteps
        split at hSteps
        · exact absurd hSteps.of_ret.1 (by simp)
        · next hIn =>
            rw [hInv.io_eq] at hIn
            have hLba : targetOk io lba = true := by
              simpa using hIn
            rcases hSteps.bind_cases with
              ⟨c, n, hEq, hInside⟩ | ⟨out, d₁, hRet, hAfter⟩
            · -- Inside `recordTarget` only the journal.
              cases hEq
              have hOnly := hInside.only (recordTarget_only
                hInv.io_eq hInv.records.length lba)
              rcases hOnly.1 with hJournal | hNever
              · exact absurd hJournal
                  (not_inJournal_of_target hConfig hTarget)
              · exact hNever.elim
            · have hRecord := (recordTarget_spec hConfig
                hProtects hInv hFailed hLba).returns hRet
              obtain ⟨ok, t'⟩ := out
              cases ok with
              | false =>
                  exact absurd hAfter.of_ret.1 (by simp)
              | true =>
                  obtain ⟨hInv', -, u, hu, hEqLba⟩ :=
                    hRecord.recorded rfl
                  have hOld : u.lba = target →
                      u.old = disk target := by
                    rintro rfl
                    exact hInv'.olds u hu hTarget
                  cases hAfter with
                  | refl =>
                      refine ⟨u, hEqLba, hOld hEqLba,
                        .inr ?_⟩
                      intro s out s' hDone
                      cases hDone with
                      | step hCommand hDone =>
                          rename_i reply
                          cases reply <;>
                            cases hDone.of_ret.1 <;>
                            exact hu
                  | step hCommand hDone =>
                      rename_i reply
                      cases reply <;>
                        cases hDone.of_ret.1

end KvantOS

--
-- Phases of a Handle
--

namespace KvantOS

variable {io : StxIo} {disk : Nat → Sector}
variable {begun : Int} {history : List TxEvent}
variable {t : SectorTx} {d : Device Sector}

/-
  The states of a handle in a live run: a running
  transaction, or one that is over, where every call that
  the user may still make is refused.
-/
inductive LivePhase
    (io : StxIo)
    (disk : Nat → Sector)
    (begun : Int)
    (history : List TxEvent)
    (t : SectorTx)
    (d : Device Sector) : Prop where
  | running
      (hConfig : configOk io = true)
      (hInv : TxInv io (Target io) disk t d)
      (hActive : t.active = true)
      (hOpen : t.closing = false)
      (hSpoiled : Spoiled begun history → t.failed = true)
      (hClosing : ¬ ClosingFailed history)
      (hNow : t.failed = false →
        (∀ e ∈ history, e.call = .abort → e.result = 0) →
        ∀ lba, Target io lba →
          d.cur lba = lastWritten history disk lba)
  | refusing
      (hRefused : ∀ call, NoCommitAfterAbort history call →
        call.run t = pure (-1, t))

@[simp]
theorem newWrites_self (d : Device Sector) :
    newWrites d d = [] := by
  simp [newWrites]

theorem lastWritten_write
    (lba : Nat)
    (value : Sector)
    (writes : List (Nat × Sector)) :
    lastWritten
        (⟨.write lba (some value), 0, writes⟩ :: history)
        disk =
      Function.update (lastWritten history disk) lba
        value :=
  rfl

theorem NoCommitAfterAbort.of_cons
    {e : TxEvent}
    {call : TxCall}
    (hOk : NoCommitAfterAbort (e :: history) call) :
    NoCommitAfterAbort history call :=
  fun hCommit c hc =>
    hOk hCommit c (List.mem_cons_of_mem _ hc)

/- A handle without a transaction refuses every call. -/
theorem TxCall.run_inactive
    (hIdle : t.active = false)
    (call : TxCall) :
    call.run t = pure (-1, t) := by
  cases call with
  | write lba data => simp [TxCall.run, stxWrite, hIdle]
  | commit => simp [TxCall.run, stxCommit, hIdle]
  | abort => simp [TxCall.run, stxAbort, hIdle]

theorem not_closingFailed_cons
    {e : TxEvent}
    (hHistory : ¬ ClosingFailed history)
    (hNew : e.call = .commit → e.result ≠ 0 →
      e.writes = []) :
    ¬ ClosingFailed (e :: history) := by
  rintro ⟨c, hc, hCommit, hResult, hWrites⟩
  rcases List.mem_cons.mp hc with rfl | hOld
  · exact hWrites (hNew hCommit hResult)
  · exact hHistory ⟨c, hOld, hCommit, hResult, hWrites⟩

/- What a failed event other than a write spoils. -/
theorem Spoiled.of_cons
    {e : TxEvent}
    (hSpoiled : Spoiled begun (e :: history))
    (hNew : e.IsWrite → e.result = 0) :
    Spoiled begun history := by
  rcases hSpoiled with hBegun | ⟨c, hc, hWrite, hResult⟩
  · exact .inl hBegun
  · rcases List.mem_cons.mp hc with rfl | hOld
    · exact absurd (hNew hWrite) hResult
    · exact .inr ⟨c, hOld, hWrite, hResult⟩

/- One call of a running transaction: `stx_write`. -/
theorem LivePhase.write
    (hConfig : configOk io = true)
    (hInv : TxInv io (Target io) disk t d)
    (hActive : t.active = true)
    (hOpen : t.closing = false)
    (hSpoiled : Spoiled begun history → t.failed = true)
    (hClosing : ¬ ClosingFailed history)
    (hNow : t.failed = false →
      (∀ e ∈ history, e.call = .abort → e.result = 0) →
      ∀ lba, Target io lba →
        d.cur lba = lastWritten history disk lba)
    {lba : Nat}
    {data : Option Sector}
    {result : Int}
    {t' : SectorTx}
    {d' : Device Sector}
    (hResult : WriteResult io (Target io) disk t lba data d
      (result, t') d') :
    LivePhase io disk begun
      (⟨.write lba data, result, newWrites d d'⟩ :: history)
      t' d' := by
  have hClosing' := not_closingFailed_cons
    (e := ⟨.write lba data, result, newWrites d d'⟩)
    hClosing nofun
  cases hResult with
  | refused hMode =>
      have hFailed : t.failed = true := by
        simpa [hActive, hOpen] using hMode
      exact .running hConfig hInv hActive hOpen (fun _ => hFailed)
        hClosing' (fun h => by simp [hFailed] at h)
  | failed hMode hFailed hInv' =>
      exact .running hConfig hInv' (hMode.active.trans hActive)
        (hMode.closing.trans hOpen) (fun _ => hFailed)
        hClosing' (fun h => by simp [hFailed] at h)
  | written value hData hTarget hHandle hMode hFailed hInv'
      hLba hRecord hFrame =>
      subst hData
      refine .running hConfig hInv' (hMode.active.trans hActive)
        (hMode.closing.trans hOpen) ?_ hClosing' ?_
      · intro hAfter
        have hOld := hSpoiled (hAfter.of_cons fun _ => rfl)
        simp [hHandle.2.1] at hOld
      · intro _ hAborts other hOther
        rw [lastWritten_write]
        by_cases hEq : other = lba
        · subst hEq
          rw [hLba, Function.update_self]
        · rw [Function.update_of_ne hEq, hFrame other
            (not_inJournal_of_target hConfig hOther) hEq]
          exact hNow hHandle.2.1
            (fun e he => hAborts e
              (List.mem_cons_of_mem _ he)) other hOther

/- Every call that the user may make keeps the phase. -/
theorem LivePhase.call
    {call : TxCall}
    {result : Int}
    {t' : SectorTx}
    {d' : Device Sector}
    (hPhase : LivePhase io disk begun history t d)
    (hOk : NoCommitAfterAbort history call)
    (hCall : Prog.Returns Device.faulty (call.run t) d
      (result, t') d') :
    LivePhase io disk begun
      (⟨call, result, newWrites d d'⟩ :: history) t' d' := by
  have hProtects := protects_target io
  cases hPhase with
  | refusing hRefused =>
      rw [hRefused call hOk] at hCall
      obtain ⟨hEq, rfl⟩ := hCall.of_ret
      cases hEq
      exact .refusing fun c hc => hRefused c hc.of_cons
  | running hConfig hInv hActive hOpen hSpoiled hClosing hNow =>
      cases call with
      | write lba data =>
          exact LivePhase.write hConfig hInv hActive hOpen
            hSpoiled hClosing hNow
            ((stxWrite_spec hConfig hProtects hInv lba
              data).returns hCall)
      | commit =>
          have hSpoiled' : Spoiled begun
              (⟨.commit, result, newWrites d d'⟩ ::
                history) → Spoiled begun history := by
            intro hAfter
            apply hAfter.of_cons
            rintro ⟨lba, data, hEq⟩
            cases hEq
          cases (stxCommit_spec hConfig hProtects
            hInv).returns hCall with
          | refused hMode =>
              have hFailed : t.failed = true := by
                simpa [hActive] using hMode
              exact .running hConfig hInv hActive hOpen
                (fun _ => hFailed)
                (not_closingFailed_cons hClosing
                  (fun _ _ => newWrites_self d))
                (fun h => by simp [hFailed] at h)
          | unsynced =>
              exact .running hConfig hInv.fail hActive hOpen
                (fun _ => rfl)
                (not_closingFailed_cons hClosing
                  (fun _ _ => newWrites_self d)) (by simp)
          | unclosed =>
              refine .refusing fun c hc => ?_
              cases c with
              | write => simp [TxCall.run, stxWrite]
              | commit => simp [TxCall.run, stxCommit]
              | abort => simp [TxCall.run, stxAbort]
          | done hIdle =>
              exact .refusing fun c _ => c.run_inactive hIdle
      | abort =>
          have hClosing' := not_closingFailed_cons
            (e := ⟨.abort, result, newWrites d d'⟩)
            hClosing (by simp)
          cases (stxAbort_spec hConfig hProtects
            hInv).returns hCall with
          | refused hMode =>
              simp [hActive, hOpen] at hMode
          | interrupted hInv' hFrame =>
              refine .running hConfig hInv' hActive hOpen ?_
                hClosing' ?_
              · intro hAfter
                apply hSpoiled
                apply hAfter.of_cons
                rintro ⟨lba, data, hEq⟩
                cases hEq
              · intro _ hAborts
                have hZero := hAborts _ List.mem_cons_self
                  rfl
                simp at hZero
          | unclosed =>
              refine .refusing fun c hc => ?_
              cases c with
              | write => simp [TxCall.run, stxWrite]
              | commit =>
                  have hZero := hc rfl _
                    List.mem_cons_self rfl
                  simp at hZero
              | abort => simp [TxCall.run, stxAbort]
          | done hIdle =>
              exact .refusing fun c _ => c.run_inactive hIdle

/- The calls that must be silent are refused outright. -/
theorem Silent.refused
    (hInv : TxInv io (Target io) disk t d)
    (hSpoiled : Spoiled begun history → t.failed = true)
    (hClosing : ¬ ClosingFailed history)
    {call : TxCall}
    (hSilent : Silent io begun history t call) :
    ∃ out, call.run t = pure out := by
  cases call with
  | commit =>
      cases hSilent with
      | closing hAny => exact absurd hAny hClosing
  | abort =>
      cases hSilent with
      | closing hAny => exact absurd hAny hClosing
  | write lba data =>
      change ∃ out, stxWrite t lba data = pure out
      unfold stxWrite
      split
      · exact ⟨_, rfl⟩
      · next hMode =>
          rcases data with _ | value
          · exact ⟨_, rfl⟩
          · cases hSilent with
            | spoiled hAny =>
                simp [hSpoiled hAny] at hMode
            | outside hOutside =>
                have hOut : targetOk t.io lba = false := by
                  rw [hInv.io_eq]
                  simpa [Target] using hOutside
                simp only [hOut, Bool.not_false, if_true]
                exact ⟨_, rfl⟩
            | full hFull =>
                have hFresh : t.undo.any
                    (fun u => u.lba == lba) = false := by
                  simpa using hFull.2
                have hGave : recordTarget t lba =
                    pure (false, t) := by
                  simp [recordTarget, hFresh, hFull.1]
                simp only [hGave]
                split <;> exact ⟨_, rfl⟩
            | closing hAny => exact absurd hAny hClosing

theorem LivePhase.atomic
    {call : TxCall}
    (hPhase : LivePhase io disk begun history t d)
    (hOk : NoCommitAfterAbort history call) :
    CallAtomic io disk begun history t d call := by
  have hProtects := protects_target io
  cases hPhase with
  | refusing hRefused =>
      have hRun := hRefused call hOk
      constructor
      · intro _ t' d' hCall
        rw [hRun] at hCall
        exact absurd hCall.of_ret.1 (by simp)
      · intro _ t' d' hCall
        rw [hRun] at hCall
        exact absurd hCall.of_ret.1 (by simp)
      · intro _ _ out d' hCall
        rw [hRun] at hCall
        cases hCall.of_ret.1
        rfl
      · rintro _ d' ⟨rest, hSteps⟩
        rw [hRun] at hSteps
        rw [hSteps.of_ret.2]
      · intro lba value next d' _ hSteps
        rw [hRun] at hSteps
        exact absurd hSteps.of_ret.1 (by simp)
  | running hConfig hInv hActive hOpen hSpoiled hClosing hNow =>
      constructor
      · rintro rfl t' d' hCall
        cases (stxAbort_spec hConfig hProtects
          hInv).returns hCall with
        | done _ _ _ _ hBase => exact hBase
      · rintro rfl t' d' hCall
        have hFailed : t.failed = false := by
          by_contra hNot
          have hRun : TxCall.commit.run t = pure (-1, t) := by
            simp [TxCall.run, stxCommit, hNot]
          rw [hRun] at hCall
          exact absurd hCall.of_ret.1 (by simp)
        cases (stxCommit_spec hConfig hProtects
          hInv).returns hCall with
        | done _ _ _ hClosed hSame =>
            refine ⟨fun lba hK => ?_, fun hJournal =>
              (hClosed hJournal).1⟩
            rw [hSame lba]
            · exact hNow hFailed (hOk rfl) lba hK
            · by_cases hJournal : io.journalCount = 0
              · exact .inl hJournal
              · exact .inr (targetOk_ne_journal hConfig
                  hJournal hK (Nat.zero_le _))
      · rintro rfl hAny out d' hCall
        have hRun : TxCall.commit.run t = pure (-1, t) := by
          simp [TxCall.run, stxCommit, hSpoiled hAny]
        rw [hRun] at hCall
        cases hCall.of_ret.1
        rfl
      · rintro hSilent d' ⟨rest, hSteps⟩
        obtain ⟨out, hRun⟩ :=
          hSilent.refused hInv hSpoiled hClosing
        rw [hRun] at hSteps
        rw [hSteps.of_ret.2]
      · intro lba value next d' hTarget hSteps
        cases call with
        | write other data =>
            refine ⟨stxWrite_recorded hConfig hInv hTarget
              hSteps, fun hJournal crashed hCrash => ?_⟩
            have hSafe := (stxWrite_spec hConfig hProtects
              hInv other data).passes ⟨_, hSteps⟩
            exact (hSafe hJournal).recovers hConfig
              hJournal hCrash
        | commit =>
            exact (WritesIn.pending hConfig
              (stxCommit_only hInv.io_eq) hTarget
              hSteps).elim
        | abort =>
            obtain ⟨u, hu, rfl⟩ := WritesIn.pending hConfig
              (stxAbort_only hInv.io_eq) hTarget hSteps
            refine ⟨⟨u, rfl, hInv.olds u hu hTarget,
              .inl hu⟩, fun hJournal crashed hCrash => ?_⟩
            have hSafe := (stxAbort_spec hConfig hProtects
              hInv).passes ⟨_, hSteps⟩
            exact (hSafe hJournal).recovers hConfig
              hJournal hCrash

end KvantOS

--
-- Beginning without an Active Log
--

namespace KvantOS

variable {io : StxIo} {disk : Nat → Sector}

/- No valid log is active on the disk. -/
def NoActiveLog
    (io : StxIo)
    (disk : Nat → Sector) : Prop :=
  io.journalCount ≠ 0 → ∀ undo, ¬ ValidLog io disk undo

/- `stx_begin` on a log that is neither closed nor valid. -/
theorem stxBegin_unloaded
    (t : SectorTx)
    (hJournal : io.journalCount ≠ 0)
    (hLog : NoActiveLog io disk)
    (hOpen : ¬ ClosedLog io disk) :
    (stxBegin t io).Spec Device.faulty
      (fun d => d = Device.ofDisk disk)
      (fun out d => d = Device.ofDisk disk ∧
        (configOk io = false ∧ out = (-1, t) ∨
          configOk io = true ∧ out = (-1, idleTx io)))
      (Device.ofDisk disk) := by
  unfold stxBegin stxRecover
  rw [bind_assoc]
  apply (stxLoad_spec t io (Device.ofDisk disk)).seq
  rintro ⟨r, t'⟩ d ⟨rfl, hLoad⟩
  cases hLoad with
  | rejected hConfig =>
      exact ⟨rfl, rfl, .inl ⟨hConfig, rfl⟩⟩
  | refused hConfig =>
      exact ⟨rfl, rfl, .inr ⟨hConfig, rfl⟩⟩
  | ram _ hRam => exact absurd hRam hJournal
  | closed _ _ hClosed => exact absurd hClosed hOpen
  | valid undo _ _ hValid =>
      exact absurd hValid (hLog hJournal undo)

/- The first phase of a handle. -/
theorem LivePhase.begin
    {t t' : SectorTx}
    {begun : Int}
    {d' : Device Sector}
    (hHandle : configOk io = true ∨ t.active = false)
    (hLog : NoActiveLog io disk)
    (hBegin : Prog.Returns Device.faulty (stxBegin t io)
      (Device.ofDisk disk) (begun, t') d') :
    LivePhase io disk begun [] t' d' := by
  have hNone : ¬ ClosingFailed [] := by
    rintro ⟨e, he, -⟩
    cases he
  have hRejected : configOk io = false →
      LivePhase io disk begun [] t d' := by
    intro hReject
    refine .refusing fun c _ => c.run_inactive ?_
    simpa [hReject] using hHandle
  by_cases hClosed : io.journalCount ≠ 0 →
      ClosedLog io disk
  · cases (stxBegin_spec (fun _ => protects_target io) t
      (Device.atRest_ofDisk disk) (fun _ _ => rfl)
      hClosed).returns hBegin with
    | rejected hReject => exact hRejected hReject
    | refused =>
        exact .refusing fun c _ => c.run_inactive rfl
    | failed hConfig hActive hFailed hOpen hInv hSame =>
        exact .running hConfig hInv hActive hOpen
          (fun _ => hFailed) hNone
          (fun h => by simp [hFailed] at h)
    | opened hConfig hActive hFailed hOpen hUndo hInv
        hSame =>
        refine .running hConfig hInv hActive hOpen ?_
          hNone ?_
        · rintro (hBegun | ⟨e, he, -⟩)
          · exact absurd rfl hBegun
          · cases he
        · intro _ _ lba hK
          exact hSame lba
            (not_inJournal_of_target hConfig hK)
  · obtain ⟨hJournal, hOpen⟩ := Classical.not_imp.mp hClosed
    obtain ⟨-, ⟨hReject, hEq⟩ | ⟨-, hEq⟩⟩ :=
      (stxBegin_unloaded t hJournal hLog hOpen).returns
        hBegin
    · cases hEq
      exact hRejected hReject
    · cases hEq
      exact .refusing fun c _ => c.run_inactive rfl

/- Only the journal has been written so far. -/
def JournalOnly
    (io : StxIo)
    (d : Device Sector) : Prop :=
  ∀ w ∈ d.written, InJournal io w.1

/- Without an active log `stx_begin` writes no target. -/
theorem stxBegin_journalOnly
    (t : SectorTx)
    (hLog : NoActiveLog io disk) :
    (stxBegin t io).Spec Device.faulty (JournalOnly io)
      (fun _ _ => True) (Device.ofDisk disk) := by
  have hStart : JournalOnly io (Device.ofDisk disk) :=
    nofun
  unfold stxBegin stxRecover
  rw [bind_assoc]
  apply ((stxLoad_spec t io (Device.ofDisk disk)).consequence
    (fun s hs => ?_) (fun _ _ _ h => h)).seq
  · rintro ⟨r, t'⟩ d ⟨rfl, hLoad⟩
    cases hLoad with
    | rejected => exact ⟨hStart, trivial⟩
    | refused => exact ⟨hStart, trivial⟩
    | ram _ hRam =>
        simp only [hRam, beq_self_eq_true, if_true]
        exact ⟨hStart, trivial⟩
    | closed _ hJournal _ =>
        have hNotRam : (io.journalCount == 0) = false := by
          simpa using hJournal
        simp only [hNotRam, Bool.false_eq_true, if_false]
        apply Prog.Spec.invariant
          (WritesIn io (fun _ => False)) ?_ ?_ hStart
        · intro c d r d' hWrites hOnly hStep
          cases c with
          | read => exact hStep.1 ▸ hOnly
          | write lba value =>
              have hWritten :
                  d'.written = (lba, value) :: d.written := by
                rcases hStep with ⟨-, rfl⟩ | ⟨-, hIssued⟩
                · rfl
                · exact hIssued.written
              intro w hw
              rw [hWritten] at hw
              rcases List.mem_cons.mp hw with rfl | hOld
              · exact hWrites.resolve_right id
              · exact hOnly w hOld
          | sync =>
              rcases hStep with ⟨-, rfl⟩ | ⟨-, rfl⟩
              · exact hOnly
              · exact hOnly
        · apply (header_only hJournal rfl true).bind
          rintro (_ | _) <;> trivial
    | valid undo _ hJournal hValid =>
        exact absurd hValid (hLog hJournal undo)
  · rw [hs]
    exact hStart

--
-- Live Atomicity
--

/-
  Live atomicity under failing commands. Begin where no
  valid log is active, on an accepted configuration or an
  unused handle, and do not commit after an abort that
  failed: then every call of every run keeps the promises,
  and `stx_begin` itself writes no target.
-/
theorem liveAtomic_of_noActiveLog
    {t : SectorTx}
    (hHandle : configOk io = true ∨ t.active = false)
    (hLog : NoActiveLog io disk) :
    LiveAtomic NoCommitAfterAbort io t disk ∧
      ∀ d, Prog.Passes Device.faulty (stxBegin t io)
        (Device.ofDisk disk) d →
        ∀ w ∈ d.written, ¬ Target io w.1 := by
  constructor
  · intro begun history t' d' hRun call hOk
    have hPhase :
        LivePhase io disk begun history t' d' := by
      clear hOk
      induction hRun with
      | begin hBegin => exact .begin hHandle hLog hBegin
      | call hRun hOk hCall ih => exact ih.call hOk hCall
    exact hPhase.atomic hOk
  · intro d hPasses w hw hTarget
    by_cases hConfig : configOk io = true
    · exact not_inJournal_of_target hConfig hTarget
        ((stxBegin_journalOnly t hLog).passes hPasses w hw)
    · have hReject : stxBegin t io = pure (-1, t) := by
        simp [stxBegin, stxRecover, stxLoad, hConfig]
      obtain ⟨rest, hSteps⟩ := hPasses
      rw [hReject] at hSteps
      rw [hSteps.of_ret.2] at hw
      cases hw

theorem liveAtomic_of_noActiveLog_tiny :
    LiveAtomic NoCommitAfterAbort tinyIo (idleTx tinyIo)
      tinyClosedDisk :=
  (liveAtomic_of_noActiveLog (.inl (by decide))
    (fun _ _ hValid =>
      tinyClosedDisk_closed.not_valid hValid)).1

/- The handle that `stx_load` makes of the tiny log. -/
def tinyTx : SectorTx where
  io := tinyIo
  undo := tinyUndo
  active := true
  failed := false
  closing := false

/-
  The first write of the recovery fails: `stx_begin` answers
  -1, yet the commit that follows answers 0.
-/
theorem not_liveAtomic_active :
    ¬ LiveAtomic (fun _ _ => True) tinyIo (idleTx tinyIo)
      tinyDisk := by
  intro hAtomic
  have hLoad : Prog.Returns Device.faulty
      (stxLoad (idleTx tinyIo) tinyIo)
      (Device.ofDisk tinyDisk) (0, tinyTx)
      (Device.ofDisk tinyDisk) := by
    have hRun := Device.returns_perfect
      (stxLoad (idleTx tinyIo) tinyIo)
      (Device.ofDisk tinyDisk)
    rw [stxLoad_run_valid (d := Device.ofDisk tinyDisk)
      (by decide) (by decide) tinyDisk_valid] at hRun
    exact hRun
  have hLost : Device.faulty (.write 0 0)
      (Device.ofDisk tinyDisk) false
      ((Device.ofDisk tinyDisk).lose 0 0) :=
    .inr ⟨rfl, .inr rfl⟩
  have hAbort : Prog.Returns Device.faulty
      (stxAbort tinyTx) (Device.ofDisk tinyDisk)
      (-1, tinyTx) ((Device.ofDisk tinyDisk).lose 0 0) :=
    .step hLost (.refl _ _)
  have hRecover : Prog.Returns Device.faulty
      (stxRecover (idleTx tinyIo) tinyIo)
      (Device.ofDisk tinyDisk) (-1, tinyTx)
      ((Device.ofDisk tinyDisk).lose 0 0) :=
    Prog.Returns.bind hLoad hAbort
  have hBegin : Prog.Returns Device.faulty
      (stxBegin (idleTx tinyIo) tinyIo)
      (Device.ofDisk tinyDisk) (-1, tinyTx)
      ((Device.ofDisk tinyDisk).lose 0 0) :=
    Prog.Returns.bind hRecover (.refl _ _)
  have hCommit := Device.returns_perfect
    (TxCall.commit.run tinyTx)
    ((Device.ofDisk tinyDisk).lose 0 0)
  have hRefused := (hAtomic _ _ _ _ (.begin hBegin) .commit
    trivial).refused rfl (.inl (by decide)) _ _ hCommit
  have hDone : ((TxCall.commit.run tinyTx).run
      Device.perfect
      ((Device.ofDisk tinyDisk).lose 0 0)).1.1 = 0 := by
    rfl
  rw [hDone] at hRefused
  simp at hRefused

/- The tiny device without a journal. -/
def tinyRamIo : StxIo :=
  { tinyIo with journalCount := 0 }

/- An open handle with the record of an overwritten target. -/
def tinyRamTx : SectorTx where
  io := tinyRamIo
  undo := tinyUndo
  active := true
  failed := false
  closing := false

/-
  The abort restores the target but reports a failure: the
  commit that follows answers 0 over the old contents.
-/
theorem not_liveAtomic_aborted :
    ¬ LiveAtomic (fun _ _ => True) tinyRamIo
      (idleTx tinyRamIo) (fun _ => 0) := by
  intro hAtomic
  let d₁ := Device.ofDisk (fun _ => (0 : Sector))
  let d₂ := d₁.put 0 1
  have hBegin : Prog.Returns Device.faulty
      (stxBegin (idleTx tinyRamIo) tinyRamIo) d₁
      (0, { idleTx tinyRamIo with active := true }) d₁ :=
    Device.returns_perfect _ _
  have hWrite : Prog.Returns Device.faulty
      (TxCall.run { idleTx tinyRamIo with active := true }
        (.write 0 (some 1))) d₁ (0, tinyRamTx) d₂ :=
    Device.returns_perfect _ _
  have hFailed : Device.faulty (.write 0 0) d₂ false
      (d₂.put 0 0) :=
    .inr ⟨rfl, .inl rfl⟩
  have hAbort : Prog.Returns Device.faulty
      (TxCall.abort.run tinyRamTx) d₂ (-1, tinyRamTx)
      (d₂.put 0 0) :=
    .step hFailed (.refl _ _)
  have hCommit := Device.returns_perfect
    (TxCall.commit.run tinyRamTx) (d₂.put 0 0)
  have hRun : LiveRun (fun _ _ => True) tinyRamIo
      (idleTx tinyRamIo) (fun _ => 0) 0
      [⟨.abort, -1, newWrites d₂ (d₂.put 0 0)⟩,
        ⟨.write 0 (some 1), 0, newWrites d₁ d₂⟩]
      tinyRamTx (d₂.put 0 0) :=
    .call (.call (.begin hBegin) trivial hWrite) trivial
      hAbort
  have hDone : (0 : Sector) = 1 :=
    ((hAtomic _ _ _ _ hRun .commit trivial).committed rfl _
      _ hCommit).1 0 rfl
  exact absurd (congrFun hDone 0) (by decide)

/- Both corners break the promises. -/
theorem not_liveAtomic_tiny :
    ¬ LiveAtomic (fun _ _ => True) tinyIo (idleTx tinyIo)
        tinyDisk ∧
      ¬ LiveAtomic (fun _ _ => True) tinyRamIo
        (idleTx tinyRamIo) (fun _ => 0) :=
  ⟨not_liveAtomic_active, not_liveAtomic_aborted⟩

end KvantOS
