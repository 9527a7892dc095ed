import KvantOS.Kvfs.Refinement

/-
  This file proves that KvFS calls are atomic under crashes
  and failing writes: wherever a call stops, the disk mounts
  with the files from before it or those it completes with,
  and a failed directory write fences the file system.

  Key definitions include:
    * `Reach`, `Switches`, `Fenced`
    * `Endures`

  Key theorems include:
    * `Reach.sound`, `kvfs_call_atomic`, `kvfs_durable`
-/

namespace KvantOS.Kvfs

/-
  The states of memory and disk that any history of mounts,
  formats and calls leads to, with any failing commands.
-/
inductive Reach : Fs → Ata → Prop where
  | boot
      {fs : Fs}
      {d : Ata}
      (hMounted : fs.mounted = false) :
      Reach fs d
  | mount
      {fs fs' : Fs}
      {d d' : Ata}
      {code : Int}
      (hReach : Reach fs d)
      (hRun : Prog.Returns Ata.faulty (kvfsMount fs) d
        (code, fs') d') :
      Reach fs' d'
  | format
      {fs fs' : Fs}
      {d d' : Ata}
      {code : Int}
      (hReach : Reach fs d)
      (hRun : Prog.Returns Ata.faulty (kvfsFormat fs) d
        (code, fs') d') :
      Reach fs' d'
  | call
      {fs : Fs}
      {d d' : Ata}
      {c : Call}
      {out : Outcome}
      (hReach : Reach fs d)
      (hRun : Prog.Returns Ata.faulty (c.program fs) d
        out d') :
      Reach out.fs d'

/- In every reachable state a mount mirrors its disk. -/
theorem Reach.sound
    {fs : Fs}
    {d : Ata}
    (hReach : Reach fs d)
    (hMounted : fs.mounted = true) :
    Sound fs d := by
  induction hReach with
  | boot hNot =>
      rw [hNot] at hMounted
      cases hMounted
  | mount hReach hRun ih =>
      have hPost := (kvfsMount_spec true _ _).returns hRun
      rcases hPost with
        ⟨rfl, ⟨-, hAccepted, hFs⟩ | ⟨-, hNot, -⟩⟩
      · simp only at hFs
        rw [hFs]
        exact hAccepted.sound
      · rw [hNot] at hMounted
        cases hMounted
  | format hReach hRun ih =>
      have hPost := (kvfsFormat_spec true _ _).returns hRun
      rcases hPost with ⟨-, hSound, -⟩ | ⟨-, hNot⟩
      · exact hSound
      · rw [hNot] at hMounted
        cases hMounted
  | @call fs d d' c out hReach hRun ih =>
      cases hBefore : fs.mounted with
      | false =>
          rw [c.program_unmounted hBefore] at hRun
          rcases hRun.of_ret with ⟨hOut, rfl⟩
          injection hOut with hOut
          rw [hOut, hBefore] at hMounted
          cases hMounted
      | true =>
          rcases c.spec (ih hBefore) with ⟨target, hSpec⟩
          have hPost := (hSpec.spec true).returns hRun
          cases hPost with
          | settled hSound _ _ _ => exact hSound
          | fenced _ _ hNot =>
              rw [hNot] at hMounted
              cases hMounted

--
-- Atomic Calls
--

/-
  The disk mounts with the files from before the call, or
  all at once with those the completed call leaves, and the
  names that the call is not about keep their files.
-/
def Switches
    (c : Call)
    (fs : Fs)
    (d d' : Ata) : Prop :=
  ∀ fs₀, ∃ fs',
    (kvfsMount fs₀).run Ata.perfect d' = ((0, fs'), d') ∧
      (fileMap fs'.dir d'.disk = fileMap fs.dir d.disk ∨
        fileMap fs'.dir d'.disk = c.completed fs d) ∧
      ∀ name, name ∉ c.names →
        fileMap fs'.dir d'.disk name =
          fileMap fs.dir d.disk name

/- Every call fails, issues no command, changes nothing. -/
def Fenced (fs : Fs) : Prop :=
  (∀ c : Call, ∃ out,
    c.program fs = return ⟨-1, out, fs⟩) ∧
  (∀ index, kvfsList fs index = none) ∧
  (∀ name, kvfsExists fs name = false) ∧
  (∀ name, kvfsSize fs name = 0) ∧
  kvfsFileCount fs = 0

theorem fenced_of_unmounted
    {fs : Fs}
    (hMounted : fs.mounted = false) :
    Fenced fs := by
  refine ⟨?_, ?_, ?_, ?_, ?_⟩
  · intro c
    exact ⟨c.untouched, c.program_unmounted hMounted⟩
  · intro index
    simp [kvfsList, hMounted]
  · intro name
    simp [kvfsExists, hMounted]
  · intro name
    simp [kvfsSize, hMounted]
  · simp [kvfsFileCount, hMounted]

/- A write of a directory sector failed since. -/
def DirFailed (d d' : Ata) : Prop :=
  ∃ recent, d'.failed = recent ++ d.failed ∧
    ∃ lba ∈ recent, 2049 ≤ lba ∧ lba < 2057

/- A failed directory write is not a spare failure. -/
theorem SpareFailures.not_dirFailed
    {d d' : Ata}
    (hSpare : SpareFailures d d') :
    ¬DirFailed d d' := by
  rintro ⟨recent, hFailed, lba, hMem, hLow, hHigh⟩
  rcases hSpare with ⟨recent', hFailed', hAll⟩
  rw [hFailed'] at hFailed
  have hEq := List.append_cancel_right hFailed
  rw [← hEq] at hMem
  rcases hAll lba hMem with hOut | hOut <;> omega

/-
  Wherever a call on a mounted disk stops, the disk switches
  all at once; and when a directory write of it failed, the
  file system is fenced until the next mount.
-/
theorem kvfs_call_atomic
    {fs : Fs}
    {d : Ata}
    (hReach : Reach fs d)
    (hMounted : fs.mounted = true)
    (c : Call) :
    (∀ d', Prog.Passes Ata.faulty (c.program fs) d d' →
      Switches c fs d d') ∧
    ∀ out d',
      Prog.Returns Ata.faulty (c.program fs) d out d' →
      DirFailed d d' →
      out.code < 0 ∧ Fenced out.fs := by
  have hSound := hReach.sound hMounted
  rcases c.spec hSound with ⟨target, hSpec⟩
  have hCompleted := hSpec.completed_eq
  constructor
  · intro d' hPasses fs₀
    have hCrash := (hSpec.spec true).passes hPasses
    refine ⟨mountedFs d', kvfsMount_run hCrash.1 fs₀, ?_, ?_⟩
    · rw [hCompleted, ← hSound.map_eq]
      exact hCrash.2
    · intro name hName
      change diskMap d' name = _
      rw [← hSound.map_eq]
      rcases hCrash.2 with hMap | hMap
      · rw [hMap]
      · rw [hMap]
        rcases hSpec.allowed with hSame | hAllows
        · rw [hSame]
        · exact hAllows.frame hName
  · intro out d' hReturns hFailed
    have hPost := (hSpec.spec true).returns hReturns
    cases hPost with
    | settled _ hFailures _ _ =>
        exact absurd hFailed hFailures.not_dirFailed
    | fenced _ hCode hNot =>
        exact ⟨hCode, fenced_of_unmounted hNot⟩

/- Formatting a blank drive reaches a mounted state. -/
theorem reach_formatted :
    Reach formatted.1.2 formatted.2 :=
  .format (.boot rfl)
    (Ata.returns_perfect (kvfsFormat bootFs) blankAta)

/- Deleting a file of the empty file system. -/
def deletion : Call :=
  .delete ⟨[65], by decide⟩

theorem kvfs_call_atomic_formatted :
    (∀ d', Prog.Passes Ata.faulty
        (deletion.program formatted.1.2) formatted.2 d' →
      Switches deletion formatted.1.2 formatted.2 d') ∧
    ∀ out d',
      Prog.Returns Ata.faulty
        (deletion.program formatted.1.2) formatted.2
        out d' →
      DirFailed formatted.2 d' →
      out.code < 0 ∧ Fenced out.fs :=
  kvfs_call_atomic reach_formatted (by decide) deletion

--
-- Histories with Crashes
--

/-
  Any history of calls, with whether each succeeded, where
  commands may fail, the power may be lost in any call, and
  the drive may be mounted again.
-/
inductive Endures
    (fs₀ : Fs)
    (d₀ : Ata) :
    List (Call × Bool) → Fs → Ata → Prop where
  | start : Endures fs₀ d₀ [] fs₀ d₀
  | mount
      {h : List (Call × Bool)}
      {fs fs' : Fs}
      {d d' : Ata}
      {code : Int}
      (hBefore : Endures fs₀ d₀ h fs d)
      (hRun : Prog.Returns Ata.faulty (kvfsMount fs) d
        (code, fs') d') :
      Endures fs₀ d₀ h fs' d'
  | call
      {h : List (Call × Bool)}
      {fs : Fs}
      {d d' : Ata}
      {c : Call}
      {out : Outcome}
      (hBefore : Endures fs₀ d₀ h fs d)
      (hRun : Prog.Returns Ata.faulty (c.program fs) d
        out d') :
      Endures fs₀ d₀ (h ++ [(c, decide (0 ≤ out.code))])
        out.fs d'
  | crash
      {h : List (Call × Bool)}
      {fs fs' : Fs}
      {d d' : Ata}
      {c : Call}
      (hBefore : Endures fs₀ d₀ h fs d)
      (hStops : Prog.Passes Ata.faulty (c.program fs) d d')
      (hOff : fs'.mounted = false) :
      Endures fs₀ d₀ (h ++ [(c, false)]) fs' d'

section Durable

variable {fs : Fs} {d : Ata} {c : Call}

/- Where a call stops, its disk is old or new. -/
def Stopped
    (c : Call)
    (d d' : Ata) : Prop :=
  Accepted d' ∧ (diskMap d' = diskMap d ∨
    c.Allows (diskMap d) (diskMap d'))

/- How a call ends: when it succeeds, it has its effect. -/
def Ended
    (c : Call)
    (d : Ata)
    (out : Outcome)
    (d' : Ata) : Prop :=
  Stopped c d d' ∧
    (out.fs.mounted = true → Sound out.fs d') ∧
    (0 ≤ out.code → c.Allows (diskMap d) (diskMap d'))

theorem Settles.ended
    {program : AtaProg (Int × Fs)}
    (hSound : Sound fs d)
    (hProgram : c.program fs = do
      let (code, fs) ← program
      return ⟨code, none, fs⟩)
    (hSettles : Settles fs d (c.Allows (diskMap d))
      program) :
    (c.program fs).Spec Ata.faulty (Stopped c d)
      (Ended c d) d := by
  have hSame : Stopped c d d := ⟨hSound.accepted, .inl rfl⟩
  rw [hProgram]
  rcases hSettles with
    ⟨code, hCode, rfl⟩ | ⟨target, hTarget, hAtomic⟩
  · exact ⟨hSame, hSame, fun _ => hSound,
      fun hOk => by simp at hOk; omega⟩
  · have hStops : ∀ d', Accepted d' ∧ (diskMap d' =
        diskMap d ∨ diskMap d' = target) →
        Stopped c d d' := by
      rintro d' ⟨hAccepted, hMap | rfl⟩
      · exact ⟨hAccepted, .inl hMap⟩
      · exact ⟨hAccepted, .inr hTarget⟩
    apply ((hAtomic true).consequence hStops
      (fun _ d' hCrash h => And.intro (hStops d' hCrash) h)).seq
    rintro ⟨code, fs'⟩ d' ⟨hStop, hResult⟩
    refine ⟨hStop, hStop, ?_⟩
    cases hResult with
    | done hCode hSound' hMap hFailures =>
        refine ⟨fun _ => hSound', fun _ => ?_⟩
        rw [hMap]
        exact hTarget
    | refused hCode hSound' hMap hFailures hTarget =>
        exact ⟨fun _ => hSound', fun hOk =>
          absurd hCode (Int.not_lt.mpr hOk)⟩
    | fenced hLossy hCode hNot =>
        refine ⟨fun hMounted => ?_, fun hOk =>
          absurd hCode (Int.not_lt.mpr hOk)⟩
        rw [hNot] at hMounted
        cases hMounted

/- With nothing mounted the call is lost. -/
/- With nothing mounted the call is lost. -/
theorem Call.ended
    (hAccepted : Accepted d)
    (hSound : fs.mounted = true → Sound fs d)
    (c : Call) :
    (c.program fs).Spec Ata.faulty (Stopped c d)
      (Ended c d) d := by
  have hSame : Stopped c d d := ⟨hAccepted, .inl rfl⟩
  cases hMounted : fs.mounted with
  | false =>
      rw [c.program_unmounted hMounted]
      exact ⟨hSame, hSame, hSound, fun hOk => by simp at hOk⟩
  | true =>
      replace hSound := hSound hMounted
      cases c with
      | write name data size isExec =>
          exact (kvfsWrite_settles hSound name data size
            isExec).ended hSound rfl
      | delete name =>
          exact (kvfsDelete_settles hSound name).ended
            hSound rfl
      | rename src dst =>
          exact (kvfsRename_settles hSound src dst).ended
            hSound rfl
      | read name buf max =>
          apply ((kvfsRead_spec true hSound name buf
            max).consequence (fun _ h => h ▸ hSame)
              (fun _ _ _ h => h)).seq
          rintro ⟨code, filled⟩ d' ⟨rfl, -⟩
          exact ⟨hSame, hSame, fun _ => hSound, fun _ => rfl⟩

theorem Stopped.explains
    {d' : Ata}
    {h : List (Call × Bool)}
    {files : FileMap}
    (hStopped : Stopped c d d')
    (hBefore : Explains Call.Allows h files (diskMap d)) :
    Explains Call.Allows (h ++ [(c, false)]) files
      (diskMap d') := by
  rcases hStopped.2 with hMap | hAllows
  · rw [hMap]
    exact .lost hBefore
  · exact .done hBefore hAllows

/- What holds of memory and disk all along a history. -/
theorem Endures.holds
    {fs₀ : Fs}
    {d₀ : Ata}
    {h : List (Call × Bool)}
    (hSound : Sound fs₀ d₀)
    (hBefore : Endures fs₀ d₀ h fs d) :
    Accepted d ∧ (fs.mounted = true → Sound fs d) ∧
      Explains Call.Allows h (diskMap d₀) (diskMap d) := by
  induction hBefore with
  | start => exact ⟨hSound.accepted, fun _ => hSound, .nil⟩
  | mount hBefore hRun ih =>
      rcases (kvfsMount_spec true _ _).returns hRun with
        ⟨rfl, ⟨-, hAccepted, rfl⟩ | ⟨-, hNot, -⟩⟩
      · exact ⟨hAccepted, fun _ => hAccepted.sound, ih.2.2⟩
      · refine ⟨ih.1, fun hMounted => ?_, ih.2.2⟩
        rw [hNot] at hMounted
        cases hMounted
  | @call h fs d d' c out hBefore hRun ih =>
      rcases (c.ended ih.1 ih.2.1).returns hRun with
        ⟨hStopped, hSound', hOk⟩
      refine ⟨hStopped.1, hSound', ?_⟩
      by_cases hCode : 0 ≤ out.code
      · exact .done ih.2.2 (hOk hCode)
      · rw [decide_eq_false hCode]
        exact hStopped.explains ih.2.2
  | crash hBefore hStops hOff ih =>
      have hStopped := (Call.ended ih.1 ih.2.1 _).passes hStops
      refine ⟨hStopped.1, fun hMounted => ?_,
        hStopped.explains ih.2.2⟩
      rw [hOff] at hMounted
      cases hMounted

end Durable

/-
  What succeeded is never lost: after any history the disk
  mounts, with the files that the calls leave in order, each
  of them with its effect or, when it did not succeed, with
  its effect or none.
-/
theorem kvfs_durable
    {fs₀ fs : Fs}
    {d₀ d : Ata}
    {h : List (Call × Bool)}
    (hStarted : Started fs₀ d₀)
    (hBefore : Endures fs₀ d₀ h fs d)
    (fs' : Fs) :
    ∃ fs'', (kvfsMount fs').run Ata.perfect d =
        ((0, fs''), d) ∧
      Explains Call.Allows h (fileMap fs₀.dir d₀.disk)
        (fileMap fs''.dir d.disk) := by
  have hSound := hStarted.sound
  rcases hBefore.holds hSound with ⟨hAccepted, -, hFiles⟩
  refine ⟨mountedFs d, kvfsMount_run hAccepted fs', ?_⟩
  rw [← hSound.map_eq]
  exact hFiles

/- The power is lost in a deletion right after a format. -/
theorem kvfs_durable_formatted :
    ∃ fs'', (kvfsMount bootFs).run Ata.perfect
        formatted.2 = ((0, fs''), formatted.2) ∧
      Explains Call.Allows [(deletion, false)]
        (fileMap formatted.1.2.dir formatted.2.disk)
        (fileMap fs''.dir formatted.2.disk) :=
  kvfs_durable started_formatted
    (.crash .start ⟨_, .refl _ _⟩
      (rfl : bootFs.mounted = false)) bootFs

end KvantOS.Kvfs
