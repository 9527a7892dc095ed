import KvantOS.Kvfs.Saving

/-
  This file gathers the KvFS calls under one specification:
  what each of them means for the map of files, and how it
  may end on a lossy drive.

  Key definitions include:
    * `Call.Allows`, `Call.Does`, `Call.names`
    * `CallResult`

  Key theorems include:
    * `Call.spec`, `Call.completed_eq`
    * `Call.program_unmounted`
-/

namespace KvantOS.Kvfs

namespace Call

/- The names that a call is about. -/
def names : Call → List CStr
  | .write name _ _ _ => name.toList
  | .read name _ _ => [name]
  | .delete name => [name]
  | .rename src dst => src.toList ++ dst.toList

/- The files after a call that succeeds. -/
def Allows
    (c : Call)
    (files files' : FileMap) : Prop :=
  match c with
  | .write name data size isExec =>
      ∃ key, name = some key ∧
        files' = Function.update files key
          (some ⟨bytesOf data size, isExec⟩)
  | .read _ _ _ => files' = files
  | .delete name =>
      (∃ file, files name = some file) ∧
        files' = Function.update files name none
  | .rename src dst =>
      ∃ key key' file, src = some key ∧ dst = some key' ∧
        files key = some file ∧
        (key' = key ∨ files key' = none) ∧
        files' = Function.update
          (Function.update files key none) key' (some file)

/- What a read delivers, with the rest of the buffer. -/
def Delivers
    (files : FileMap)
    (name : CStr)
    (buf : Buf)
    (max : UInt32)
    (out : Outcome) : Prop :=
  ∃ file filled, files name = some file ∧
    out.out = some filled ∧
    out.code = (min file.data.length max.toNat : Nat) ∧
    ∀ j, filled j =
      if j < min file.data.length max.toNat then
        file.data.getD j 0
      else
        buf j

/-
  What a call does to the files without faults of the drive:
  it succeeds with its effect, or fails and changes nothing.
  A read fails only where the name is unbound.
-/
def Does
    (c : Call)
    (out : Outcome)
    (files files' : FileMap) : Prop :=
  match c with
  | .read name buf max =>
      files' = files ∧
        ((out.code < 0 ∧ files name = none) ∨
          Delivers files name buf max out)
  | c =>
      (out.code = 0 ∧ c.Allows files files') ∨
        (out.code < 0 ∧ files' = files)

/- A call leaves the other names alone. -/
theorem Allows.frame
    {c : Call}
    {files files' : FileMap}
    (hAllows : c.Allows files files')
    {name : CStr}
    (hName : name ∉ c.names) :
    files' name = files name := by
  cases c with
  | write key data size isExec =>
      rcases hAllows with ⟨key, rfl, rfl⟩
      apply Function.update_of_ne
      rintro rfl
      exact hName (by simp [names])
  | read key buf max => rw [hAllows]
  | delete key =>
      rw [hAllows.2]
      apply Function.update_of_ne
      rintro rfl
      exact hName (by simp [names])
  | rename src dst =>
      rcases hAllows with
        ⟨key, key', file, rfl, rfl, -, -, rfl⟩
      rw [Function.update_of_ne, Function.update_of_ne]
      · rintro rfl
        exact hName (by simp [names])
      · rintro rfl
        exact hName (by simp [names])

end Call

--
-- How Calls End
--

/-
  `settled`: memory mirrors the disk again, and without
  faults the call did what it means. `fenced`: a directory
  write failed and nothing is mounted any more.
-/
inductive CallResult
    (lossy : Bool)
    (c : Call)
    (d : Ata)
    (target : FileMap)
    (out : Outcome)
    (d' : Ata) : Prop where
  | settled
      (hSound : Sound out.fs d')
      (hFailures : SpareFailures d d')
      (hDoes : lossy = false →
        c.Does out (diskMap d) (diskMap d'))
      (hMap : lossy = false → diskMap d' = target)
  | fenced
      (hLossy : lossy = true)
      (hCode : out.code < 0)
      (hMounted : out.fs.mounted = false)

/- The specification of one call on a mounted disk. -/
structure CallSpec
    (c : Call)
    (fs : Fs)
    (d : Ata)
    (target : FileMap) : Prop where
  allowed : target = diskMap d ∨
    c.Allows (diskMap d) target
  spec : ∀ lossy, (c.program fs).Spec (Ata.answers lossy)
    (fun d' => Accepted d' ∧
      (diskMap d' = diskMap d ∨ diskMap d' = target))
    (CallResult lossy c d target) d

section Spec

variable {c : Call} {fs : Fs} {d : Ata}

/- A call that changes files, from its settled form. -/
theorem CallSpec.of_settles
    {program : AtaProg (Int × Fs)}
    (hSound : Sound fs d)
    (hRead : ∀ out files files', c.Does out files files' ↔
      (out.code = 0 ∧ c.Allows files files') ∨
        (out.code < 0 ∧ files' = files))
    (hProgram : c.program fs = do
      let (code, fs) ← program
      return ⟨code, none, fs⟩)
    (hSettles : Settles fs d (c.Allows (diskMap d))
      program) :
    ∃ target, CallSpec c fs d target := by
  rcases hSettles with
    ⟨code, hCode, hRefused⟩ | ⟨target, hTarget, hAtomic⟩
  · refine ⟨diskMap d, .inl rfl, ?_⟩
    intro lossy
    rw [hProgram, hRefused]
    refine ⟨⟨hSound.accepted, .inl rfl⟩, ?_⟩
    refine .settled hSound (.refl d) ?_ (fun _ => rfl)
    intro _
    exact (hRead _ _ _).mpr (.inr ⟨hCode, rfl⟩)
  · refine ⟨target, .inr hTarget, ?_⟩
    intro lossy
    rw [hProgram]
    apply ((hAtomic lossy).consequence (fun _ h => h)
      (fun _ _ hCrash h => And.intro hCrash h)).seq
    rintro ⟨code, fs'⟩ d' ⟨hCrash, hResult⟩
    refine ⟨hCrash, ?_⟩
    cases hResult with
    | done hCode hSound' hMap hFailures =>
        refine .settled hSound' hFailures ?_ (fun _ => hMap)
        intro _
        refine (hRead _ _ _).mpr (.inl ⟨hCode, ?_⟩)
        rw [hMap]
        exact hTarget
    | refused hCode hSound' hMap hFailures hSame =>
        refine .settled hSound' hFailures ?_ ?_
        · intro _
          exact (hRead _ _ _).mpr (.inr ⟨hCode, hMap⟩)
        · intro hLossless
          rw [hMap, hSame hLossless]
    | fenced hLossy hCode hMounted =>
        exact .fenced hLossy hCode hMounted

/- Every call on a mounted disk meets its specification. -/
theorem Call.spec
    (hSound : Sound fs d)
    (c : Call) :
    ∃ target, CallSpec c fs d target := by
  cases c with
  | write name data size isExec =>
      exact CallSpec.of_settles hSound
        (fun _ _ _ => Iff.rfl) rfl
        (kvfsWrite_settles hSound name data size isExec)
  | delete name =>
      exact CallSpec.of_settles hSound
        (fun _ _ _ => Iff.rfl) rfl
        (kvfsDelete_settles hSound name)
  | rename src dst =>
      exact CallSpec.of_settles hSound
        (fun _ _ _ => Iff.rfl) rfl
        (kvfsRename_settles hSound src dst)
  | read name buf max =>
      refine ⟨diskMap d, .inl rfl, ?_⟩
      intro lossy
      have hRead := kvfsRead_spec lossy hSound name buf max
      have hCrash : ∀ d', d' = d → Accepted d' ∧
          (diskMap d' = diskMap d ∨
            diskMap d' = diskMap d) := by
        rintro d' rfl
        exact ⟨hSound.accepted, .inl rfl⟩
      apply (hRead.consequence hCrash
        (fun _ _ _ h => h)).seq
      rintro ⟨code, filled⟩ d' ⟨rfl, hOut⟩
      refine ⟨⟨hSound.accepted, .inl rfl⟩, ?_⟩
      refine .settled hSound (.refl _) ?_ (fun _ => rfl)
      intro hLossless
      refine ⟨rfl, ?_⟩
      rcases hOut with
        ⟨hCode, hNone | hLossy⟩ | ⟨file, hFile, hOut⟩
      · exact .inl ⟨hCode, hNone⟩
      · rw [hLossless] at hLossy
        cases hLossy
      · exact .inr ⟨file, filled, hFile, rfl, hOut⟩

/- The files that a completed call would leave. -/
def Call.completed
    (c : Call)
    (fs : Fs)
    (d : Ata) : FileMap :=
  let done := (c.program fs).run Ata.perfect d
  fileMap done.1.fs.dir done.2.disk

/- A run without faults ends settled. -/
theorem CallSpec.run
    {target : FileMap}
    (hSpec : CallSpec c fs d target) :
    let done := (c.program fs).run Ata.perfect d
    Sound done.1.fs done.2 ∧
      c.Does done.1 (diskMap d) (diskMap done.2) ∧
      diskMap done.2 = target := by
  have hRun := Prog.Spec.run (Ata.answers_perfect false)
    (hSpec.spec false)
  cases hRun with
  | settled hSound hFailures hDoes hMap =>
      exact ⟨hSound, hDoes rfl, hMap rfl⟩
  | fenced hLossy hCode hMounted => cases hLossy

theorem CallSpec.completed_eq
    {target : FileMap}
    (hSpec : CallSpec c fs d target) :
    c.completed fs d = target := by
  have hRun := hSpec.run
  unfold Call.completed
  rw [← hRun.1.map_eq]
  exact hRun.2.2

end Spec

/- What a refused call hands back as a filled buffer. -/
def Call.untouched : Call → Option Buf
  | .read _ buf _ => some buf
  | _ => none

/-
  With nothing mounted, a call issues no command, fails, and
  changes nothing in memory.
-/
theorem Call.program_unmounted
    {fs : Fs}
    (hMounted : fs.mounted = false)
    (c : Call) :
    c.program fs = return ⟨-1, c.untouched, fs⟩ := by
  cases c with
  | write name data size isExec =>
      simp [Call.program, kvfsWrite, hMounted,
        Call.untouched]
  | read name buf max =>
      simp [Call.program, kvfsRead, hMounted,
        Call.untouched]
  | delete name =>
      simp [Call.program, kvfsDelete, hMounted,
        Call.untouched]
  | rename src dst =>
      simp [Call.program, kvfsRename, hMounted,
        Call.untouched]

end KvantOS.Kvfs
