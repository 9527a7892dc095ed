import KvantOS.User.Runs
import Mathlib.Data.List.Count

/-
  This file proves the invariant of the files and handles of
  the service: references are counted, cookies and names are
  unique, and a file holds what was written to it.

  Key definitions include:
    * `openCount`, `issuedCookies`, `lastWritten`
    * `FilesState`

  Key theorems include:
    * `filesState_of_runs`, `ksRuns_files`
-/

namespace KvantOS.User

--
-- Counting
--

/- A test that becomes true of one number counts one more. -/
theorem countP_range_succ_of_update
    {p q : Nat → Bool}
    {n k : Nat}
    (hIndex : k < n)
    (hElse : ∀ i, i ≠ k → q i = p i)
    (hOld : p k = false)
    (hNew : q k = true) :
    (List.range n).countP q = (List.range n).countP p + 1 := by
  induction n with
  | zero => cases hIndex
  | succ n ih =>
      rw [List.range_succ, List.countP_append,
        List.countP_append]
      rcases Nat.lt_succ_iff_lt_or_eq.mp hIndex with
        hLt | rfl
      · have hLast : q n = p n :=
          hElse n (Nat.ne_of_gt hLt)
        rw [ih hLt, List.countP_singleton,
          List.countP_singleton, hLast]
        exact Nat.add_right_comm _ _ _
      · have hSame : (List.range k).countP q =
            (List.range k).countP p := by
          apply List.countP_congr
          intro i hIn
          rw [hElse i (Nat.ne_of_lt (List.mem_range.mp hIn))]
        rw [hSame, List.countP_singleton,
          List.countP_singleton, hOld, hNew]
        rfl

/- Handle `h` is open and names file `f`. -/
def KsService.opens
    (s : KsService)
    (f h : Nat) : Bool :=
  (s.handles h).cookie != 0 && (s.handles h).file == f

/- The number of open handles that name file `f`. -/
def openCount
    (s : KsService)
    (f : Nat) : Nat :=
  (List.range ksHandles).countP (s.opens f)

theorem openCount_congr
    {s s' : KsService}
    {f : Nat}
    (hSame : ∀ h, s'.opens f h = s.opens f h) :
    openCount s' f = openCount s f := by
  unfold openCount
  rw [funext hSame]

variable {h : Nat} {s : KsService}

theorem openCount_pos
    (hHandle : h < ksHandles)
    (hOpen : (s.handles h).cookie ≠ 0) :
    0 < openCount s (s.handles h).file := by
  apply List.countP_pos_iff.mpr
  refine ⟨h, List.mem_range.mpr hHandle, ?_⟩
  simp [KsService.opens, hOpen]

theorem opens_of_openCount
    {f : Nat}
    (hPos : 0 < openCount s f) :
    ∃ h < ksHandles, (s.handles h).cookie ≠ 0 ∧
      (s.handles h).file = f := by
  rcases List.countP_pos_iff.mp hPos with ⟨h, hMem, hOpens⟩
  simp only [KsService.opens, Bool.and_eq_true,
    bne_iff_ne, beq_iff_eq] at hOpens
  exact ⟨h, List.mem_range.mp hMem, hOpens⟩

/- The cookies that were issued, the newest first. -/
def issuedCookies : List KsEntry → List Nat
  | [] => []
  | .opened cookie _ _ _ :: older =>
      cookie :: issuedCookies older
  | _ :: older => issuedCookies older

/-
  The byte that was last written at `i` of the file with a
  name, since it was last created or truncated.
-/
def lastWritten
    (name : CStr)
    (i : Nat) : List KsEntry → Option UInt8
  | [] => none
  | .opened _ name' fresh truncated :: older =>
      if name' = name ∧ (fresh || truncated) then none
      else lastWritten name i older
  | .wrote name' off src n :: older =>
      if name' = name ∧ off ≤ i ∧ i < off + n then
        some (src (i - off))
      else lastWritten name i older
  | _ :: older => lastWritten name i older

--
-- The Invariant
--

/- The string in a file's name. -/
def KsFile.title (file : KsFile) : CStr :=
  CStr.ofBuffer file.name

/- A size in its bounds, with zeroes behind it. -/
structure SizeSound (file : KsFile) : Prop where
  fits : file.size ≤ ksFileBytes
  tail : ∀ i ≥ file.size, file.data i = 0

/- The name of a file that is used. -/
structure NameSound (file : KsFile) : Prop where
  good : GoodName file.title
  terminated : CStr.Terminated file.name

/- The file has what was written to its name. -/
def Written
    (file : KsFile)
    (log : List KsEntry) : Prop :=
  ∀ i, file.data i =
    (lastWritten file.title i log).getD 0

/- What the service and the log of a run agree on. -/
structure FilesState
    (s : KsService)
    (log : List KsEntry) : Prop where
  refs : ∀ f < ksFiles, (s.files f).refs = openCount s f
  opened : ∀ h < ksHandles, (s.handles h).cookie ≠ 0 →
    (s.handles h).file < ksFiles ∧
      (s.files (s.handles h).file).used = true
  closed : ∀ h < ksHandles, (s.handles h).cookie = 0 →
    s.handles h = .zero
  cookies : ∀ h < ksHandles, ∀ h' < ksHandles,
    (s.handles h).cookie ≠ 0 →
    (s.handles h).cookie = (s.handles h').cookie → h = h'
  bounded : ∀ h < ksHandles,
    (s.handles h).cookie ≤ s.nextHandle
  issued : ∀ cookie ∈ issuedCookies log,
    cookie ≤ s.nextHandle
  unique : (issuedCookies log).Nodup
  names : ∀ f < ksFiles, ∀ f' < ksFiles,
    (s.files f).used = true → (s.files f').used = true →
    (s.files f).title = (s.files f').title → f = f'
  name : ∀ f < ksFiles, (s.files f).used = true →
    NameSound (s.files f)
  sizes : ∀ f < ksFiles, SizeSound (s.files f)
  contents : ∀ f < ksFiles, (s.files f).used = true →
    Written (s.files f) log

theorem sizeSound_zero : SizeSound .zero :=
  ⟨Nat.zero_le _, fun _ _ => rfl⟩

theorem filesState_fresh
    (hFresh : s.Fresh) :
    FilesState s [] where
  refs := by
    intro f _
    rw [hFresh.files]
    symm
    apply List.countP_eq_zero.mpr
    intro h _
    simp [KsService.opens, hFresh.handles, KsHandle.zero]
  opened := by
    intro h _ hOpen
    rw [hFresh.handles] at hOpen
    exact absurd rfl hOpen
  closed := by
    intro h _ _
    rw [hFresh.handles]
  cookies := by
    intro h _ h' _ hOpen
    rw [hFresh.handles] at hOpen
    exact absurd rfl hOpen
  bounded := by
    intro h _
    rw [hFresh.handles]
    exact Nat.zero_le _
  issued := by
    intro cookie hMem
    cases hMem
  unique := List.nodup_nil
  names := by
    intro f _ f' _ hUsed
    rw [hFresh.files] at hUsed
    cases hUsed
  name := by
    intro f _ hUsed
    rw [hFresh.files] at hUsed
    cases hUsed
  sizes := by
    intro f _
    rw [hFresh.files]
    exact sizeSound_zero
  contents := by
    intro f _ hUsed
    rw [hFresh.files] at hUsed
    cases hUsed

/- A service that agrees on files and handles. -/
structure KsService.SameFiles
    (s s' : KsService) : Prop where
  files : s'.files = s.files
  handles : s'.handles = s.handles
  nextHandle : s'.nextHandle = s.nextHandle

/- Entries about events tell nothing about files. -/
def KsEntry.aboutEvents : KsEntry → Prop
  | .opened .. => False
  | .wrote .. => False
  | _ => True

variable {e : KsEntry}

theorem issuedCookies_events
    (hEvents : e.aboutEvents)
    (older : List KsEntry) :
    issuedCookies (e :: older) = issuedCookies older := by
  cases e with
  | opened => cases hEvents
  | _ => rfl

theorem lastWritten_events
    (hEvents : e.aboutEvents)
    (name : CStr)
    (i : Nat)
    (older : List KsEntry) :
    lastWritten name i (e :: older) =
      lastWritten name i older := by
  cases e with
  | opened => cases hEvents
  | wrote => cases hEvents
  | _ => rfl

variable {log : List KsEntry}

theorem FilesState.sameFiles
    {s s' : KsService}
    (hState : FilesState s log)
    (hSame : s.SameFiles s') :
    FilesState s' log := by
  have hOpens : ∀ f h, s'.opens f h = s.opens f h := by
    intro f h
    rw [KsService.opens, KsService.opens, hSame.handles]
  constructor
  · intro f hFile
    rw [hSame.files, hState.refs f hFile]
    exact (openCount_congr (hOpens f)).symm
  · rw [hSame.handles, hSame.files]
    exact hState.opened
  · rw [hSame.handles]
    exact hState.closed
  · rw [hSame.handles]
    exact hState.cookies
  · rw [hSame.handles, hSame.nextHandle]
    exact hState.bounded
  · rw [hSame.nextHandle]
    exact hState.issued
  · exact hState.unique
  · rw [hSame.files]
    exact hState.names
  · rw [hSame.files]
    exact hState.name
  · rw [hSame.files]
    exact hState.sizes
  · rw [hSame.files]
    exact hState.contents

theorem FilesState.aboutEvents
    (hState : FilesState s log)
    (hEvents : e.aboutEvents) :
    FilesState s (e :: log) where
  refs := hState.refs
  opened := hState.opened
  closed := hState.closed
  cookies := hState.cookies
  bounded := hState.bounded
  issued := by
    rw [issuedCookies_events hEvents]
    exact hState.issued
  unique := by
    rw [issuedCookies_events hEvents]
    exact hState.unique
  names := hState.names
  name := hState.name
  sizes := hState.sizes
  contents := by
    intro f hFile hUsed i
    rw [lastWritten_events hEvents]
    exact hState.contents f hFile hUsed i

--
-- Writing, Closing and Deleting
--

theorem setFile_same
    (s : KsService)
    (f : Nat)
    (change : KsFile → KsFile) :
    (s.setFile f change).files f = change (s.files f) :=
  Function.update_self ..

theorem setFile_ne
    (s : KsService)
    {f g : Nat}
    (change : KsFile → KsFile)
    (hNe : g ≠ f) :
    (s.setFile f change).files g = s.files g :=
  Function.update_of_ne hNe ..

variable {file : KsFile}

theorem sizeSound_writtenFile
    {off n : Nat}
    {src : Buf}
    (hSound : SizeSound file)
    (hRange : off + n ≤ ksFileBytes) :
    SizeSound (writtenFile file off src n) := by
  have hGrows : file.size ≤
        (writtenFile file off src n).size ∧
      off + n ≤ (writtenFile file off src n).size ∧
      (writtenFile file off src n).size ≤ ksFileBytes := by
    have hFits := hSound.fits
    simp only [writtenFile]
    split
    · omega
    · omega
  refine ⟨hGrows.2.2, ?_⟩
  intro i hPast
  have hOutside : ¬(off ≤ i ∧ i < off + n) := by omega
  change (file.data.copy off src n) i = 0
  rw [Buf.copy, if_neg hOutside]
  exact hSound.tail i (by omega)

theorem written_writtenFile
    (hWritten : Written file log)
    (off n : Nat)
    (src : Buf) :
    Written (writtenFile file off src n)
      (.wrote file.title off src n :: log) := by
  intro i
  change (file.data.copy off src n) i =
    (lastWritten file.title i
      (.wrote file.title off src n :: log)).getD 0
  rw [Buf.copy, lastWritten]
  by_cases hInside : off ≤ i ∧ i < off + n
  · rw [if_pos hInside, if_pos ⟨rfl, hInside⟩,
      Option.getD_some]
  · rw [if_neg hInside,
      if_neg (fun hBoth => hInside hBoth.2)]
    exact hWritten i

variable {name : CStr}

theorem Written.other_write
    (hWritten : Written file log)
    (hName : name ≠ file.title)
    (off n : Nat)
    (src : Buf) :
    Written file (.wrote name off src n :: log) := by
  intro i
  rw [lastWritten, if_neg (fun hBoth => hName hBoth.1)]
  exact hWritten i

theorem FilesState.write
    {h off n : Nat}
    (hState : FilesState s log)
    (hHandle : h < ksHandles)
    (hOpen : (s.handles h).cookie ≠ 0)
    (hRange : off + n ≤ ksFileBytes)
    (src : Buf) :
    FilesState
      (s.setFile (s.handles h).file
        (fun file => writtenFile file off src n))
      (.wrote (s.nameOf h) off src n :: log) := by
  rcases hState.opened h hHandle hOpen with ⟨hFile, hUsed⟩
  have hKept : ∀ f,
      ((s.setFile (s.handles h).file (fun file =>
        writtenFile file off src n)).files f).refs =
          (s.files f).refs ∧
      ((s.setFile (s.handles h).file (fun file =>
        writtenFile file off src n)).files f).used =
          (s.files f).used ∧
      ((s.setFile (s.handles h).file (fun file =>
        writtenFile file off src n)).files f).name =
          (s.files f).name := by
    intro f
    by_cases hSame : f = (s.handles h).file
    · subst hSame
      rw [setFile_same]
      exact ⟨rfl, rfl, rfl⟩
    · rw [setFile_ne s _ hSame]
      exact ⟨rfl, rfl, rfl⟩
  constructor
  · intro f hLow
    rw [(hKept f).1]
    exact hState.refs f hLow
  · intro h' hLow hOpen'
    rw [(hKept _).2.1]
    exact hState.opened h' hLow hOpen'
  · exact hState.closed
  · exact hState.cookies
  · exact hState.bounded
  · exact hState.issued
  · exact hState.unique
  · intro f hLow f' hLow'
    rw [KsFile.title, KsFile.title, (hKept f).2.1,
      (hKept f').2.1, (hKept f).2.2, (hKept f').2.2]
    exact hState.names f hLow f' hLow'
  · intro f hLow hUsed'
    rw [(hKept f).2.1] at hUsed'
    have hName := hState.name f hLow hUsed'
    constructor
    · rw [KsFile.title, (hKept f).2.2]
      exact hName.good
    · rw [(hKept f).2.2]
      exact hName.terminated
  · intro f hLow
    by_cases hSame : f = (s.handles h).file
    · subst hSame
      rw [setFile_same]
      exact sizeSound_writtenFile
        (hState.sizes _ hLow) hRange
    · rw [setFile_ne s _ hSame]
      exact hState.sizes f hLow
  · intro f hLow hUsed'
    rw [(hKept f).2.1] at hUsed'
    by_cases hSame : f = (s.handles h).file
    · subst hSame
      rw [setFile_same]
      exact written_writtenFile
        (hState.contents _ hLow hUsed') off n src
    · rw [setFile_ne s _ hSame]
      refine (hState.contents f hLow hUsed').other_write
        ?_ off n src
      intro hName
      exact hSame
        (hState.names f hLow _ hFile hUsed' hUsed hName.symm)

theorem openCount_closedHandle
    (hHandle : h < ksHandles)
    (hOpen : (s.handles h).cookie ≠ 0)
    (f : Nat) :
    openCount s f = openCount (closedHandle s h) f +
      (if f = (s.handles h).file then 1 else 0) := by
  have hElse : ∀ h', h' ≠ h →
      s.opens f h' = (closedHandle s h).opens f h' := by
    intro h' hNe
    simp [KsService.opens, closedHandle,
      KsService.setHandle, KsService.setFile,
      Function.update_of_ne hNe]
  have hClosed : (closedHandle s h).opens f h = false := by
    simp [KsService.opens, closedHandle,
      KsService.setHandle, KsHandle.zero]
  by_cases hSame : f = (s.handles h).file
  · rw [if_pos hSame]
    refine countP_range_succ_of_update hHandle hElse
      hClosed ?_
    simp [KsService.opens, hOpen, hSame]
  · rw [if_neg hSame]
    apply openCount_congr
    intro h'
    by_cases hThis : h' = h
    · rw [hThis, hClosed]
      simp [KsService.opens, Ne.symm hSame]
    · exact hElse h' hThis

theorem FilesState.close
    (hState : FilesState s log)
    (hHandle : h < ksHandles)
    (hOpen : (s.handles h).cookie ≠ 0) :
    FilesState (closedHandle s h) log := by
  have hFiles : ∀ f, (closedHandle s h).files f =
      { s.files f with
        refs := (s.files f).refs -
          (if f = (s.handles h).file then 1 else 0) } := by
    intro f
    by_cases hSame : f = (s.handles h).file
    · subst hSame
      rw [if_pos rfl]
      exact setFile_same s _ (fun file =>
        { file with refs := file.refs - 1 })
    · rw [if_neg hSame]
      exact setFile_ne s (fun file =>
        { file with refs := file.refs - 1 }) hSame
  have hThis : (closedHandle s h).handles h = .zero :=
    Function.update_self ..
  have hElse : ∀ h', h' ≠ h →
      (closedHandle s h).handles h' = s.handles h' :=
    fun h' hNe => Function.update_of_ne hNe ..
  constructor
  · intro f hLow
    have hCount := openCount_closedHandle hHandle hOpen f
    rw [hFiles f, hState.refs f hLow]
    exact Nat.sub_eq_of_eq_add hCount
  · intro h' hLow hOpen'
    by_cases hSame : h' = h
    · rw [hSame, hThis] at hOpen'
      exact absurd rfl hOpen'
    · rw [hElse h' hSame] at hOpen' ⊢
      rw [hFiles]
      exact hState.opened h' hLow hOpen'
  · intro h' hLow hClosed
    by_cases hSame : h' = h
    · rw [hSame, hThis]
    · rw [hElse h' hSame] at hClosed ⊢
      exact hState.closed h' hLow hClosed
  · intro a hLow b hLow' hOpen' hEq
    by_cases hSame : a = h
    · rw [hSame, hThis] at hOpen'
      exact absurd rfl hOpen'
    · rw [hElse a hSame] at hOpen' hEq
      by_cases hOther : b = h
      · rw [hOther, hThis] at hEq
        exact absurd hEq hOpen'
      · rw [hElse b hOther] at hEq
        exact hState.cookies a hLow b hLow' hOpen' hEq
  · intro h' hLow
    by_cases hSame : h' = h
    · rw [hSame, hThis]
      exact Nat.zero_le _
    · rw [hElse h' hSame]
      exact hState.bounded h' hLow
  · exact hState.issued
  · exact hState.unique
  · intro f hLow f' hLow'
    rw [hFiles f, hFiles f']
    exact hState.names f hLow f' hLow'
  · intro f hLow
    rw [hFiles f]
    intro hUsed
    have hName := hState.name f hLow hUsed
    exact ⟨hName.good, hName.terminated⟩
  · intro f hLow
    have hSize := hState.sizes f hLow
    rw [hFiles f]
    exact ⟨hSize.fits, hSize.tail⟩
  · intro f hLow
    rw [hFiles f]
    exact hState.contents f hLow

theorem FilesState.delete
    {f : Nat}
    (hState : FilesState s log)
    (hFile : f < ksFiles)
    (hRefs : (s.files f).refs = 0) :
    FilesState (s.setFile f (fun _ => .zero)) log := by
  have hNone : openCount s f = 0 := by
    rw [← hState.refs f hFile]
    exact hRefs
  have hOther : ∀ g,
      ((s.setFile f (fun _ => .zero)).files g).used = true →
        g ≠ f := by
    rintro g hUsed rfl
    rw [setFile_same] at hUsed
    cases hUsed
  constructor
  · intro g hLow
    by_cases hSame : g = f
    · subst hSame
      rw [setFile_same]
      exact hNone.symm
    · rw [setFile_ne s _ hSame]
      exact hState.refs g hLow
  · intro h hLow hOpen
    have hNe : (s.handles h).file ≠ f := by
      rintro rfl
      have hPos : 0 < openCount s (s.handles h).file :=
        openCount_pos hLow hOpen
      omega
    change (s.handles h).file < ksFiles ∧
      ((s.setFile f (fun _ => .zero)).files
        (s.handles h).file).used = true
    rw [setFile_ne s _ hNe]
    exact hState.opened h hLow hOpen
  · exact hState.closed
  · exact hState.cookies
  · exact hState.bounded
  · exact hState.issued
  · exact hState.unique
  · intro g hLow g' hLow' hUsed hUsed'
    have hNe := hOther g hUsed
    have hNe' := hOther g' hUsed'
    rw [setFile_ne s _ hNe] at hUsed ⊢
    rw [setFile_ne s _ hNe'] at hUsed' ⊢
    exact hState.names g hLow g' hLow' hUsed hUsed'
  · intro g hLow hUsed
    have hNe := hOther g hUsed
    rw [setFile_ne s _ hNe] at hUsed ⊢
    exact hState.name g hLow hUsed
  · intro g hLow
    by_cases hSame : g = f
    · subst hSame
      rw [setFile_same]
      exact sizeSound_zero
    · rw [setFile_ne s _ hSame]
      exact hState.sizes g hLow
  · intro g hLow hUsed
    have hNe := hOther g hUsed
    rw [setFile_ne s _ hNe] at hUsed ⊢
    exact hState.contents g hLow hUsed

--
-- Opening
--

/- The file that an open prepares, before it is counted. -/
structure Prepared
    (s : KsService)
    (log : List KsEntry)
    (name : CStr)
    (f : Nat)
    (file : KsFile) : Prop where
  low : f < ksFiles
  used : file.used = true
  title : file.title = name
  terminated : CStr.Terminated file.name
  refs : file.refs = openCount s f
  size : SizeSound file
  written : Written file log
  others : ∀ g < ksFiles, g ≠ f →
    (s.files g).used = true → (s.files g).title ≠ name

theorem preparedFile_truncated
    (file : KsFile)
    (name : CStr)
    (fresh : Bool) :
    preparedFile file name fresh true =
      { preparedFile file name fresh false with
        data := Buf.zero
        size := 0 } := by
  rfl

variable {f cookie : Nat} {fresh : Bool}

/- Opening with truncation starts over. -/
theorem Prepared.truncate
    (hPrepared : Prepared s
      (.opened cookie name fresh false :: log) name f file) :
    Prepared s (.opened cookie name fresh true :: log) name f
      { file with data := Buf.zero, size := 0 } where
  low := hPrepared.low
  used := hPrepared.used
  title := hPrepared.title
  terminated := hPrepared.terminated
  refs := hPrepared.refs
  size := ⟨Nat.zero_le _, fun _ _ => rfl⟩
  written := by
    intro i
    have hTitle := hPrepared.title
    change 0 = (lastWritten file.title i _).getD 0
    rw [lastWritten, if_pos ⟨hTitle.symm, by simp⟩]
    rfl
  others := hPrepared.others

theorem FilesState.prepared_found
    (hState : FilesState s log)
    (hNode : node s name = some f) :
    Prepared s (.opened cookie name false false :: log) name
      f (preparedFile (s.files f) name false false) := by
  rcases node_some hNode with ⟨hLow, hUsed, hTitle⟩
  constructor
  · exact hLow
  · exact hUsed
  · exact hTitle
  · exact (hState.name f hLow hUsed).terminated
  · exact hState.refs f hLow
  · exact hState.sizes f hLow
  · intro i
    rw [lastWritten, if_neg (by simp)]
    exact hState.contents f hLow hUsed i
  · intro g hLow' hNe hUsed' hSame
    exact hNe (hState.names g hLow' f hLow hUsed' hUsed
      (hSame.trans hTitle.symm))

theorem FilesState.prepared_made
    (hState : FilesState s log)
    (hName : GoodName name)
    (hNode : node s name = none)
    (hFree : freeFile s = some f) :
    Prepared s (.opened cookie name true false :: log) name
      f (preparedFile (s.files f) name true false) := by
  rcases freeFile_some hFree with ⟨hLow, hUnused⟩
  have hTitle : CStr.ofBuffer (CStr.toBuffer 32 name) =
      name :=
    CStr.ofBuffer_toBuffer hName.fits
  have hNone : openCount s f = 0 := by
    by_contra hPos
    rcases opens_of_openCount (Nat.pos_of_ne_zero hPos) with
      ⟨h, hHandle, hOpen, rfl⟩
    rw [(hState.opened h hHandle hOpen).2] at hUnused
    cases hUnused
  constructor
  · exact hLow
  · rfl
  · exact hTitle
  · exact CStr.terminated_toBuffer hName.fits
  · exact hNone.symm
  · exact ⟨Nat.zero_le _, fun _ _ => rfl⟩
  · intro i
    change 0 = (lastWritten
      (CStr.ofBuffer (CStr.toBuffer 32 name)) i _).getD 0
    rw [lastWritten, if_pos ⟨hTitle.symm, by simp⟩]
    rfl
  · intro g hLow' _ hUsed'
    exact node_none hNode hLow' hUsed'

theorem FilesState.prepared
    (hState : FilesState s log)
    (hName : GoodName name)
    (hOpens : s.Opens name f fresh)
    (truncated : Bool) :
    Prepared s (.opened cookie name fresh truncated :: log)
      name f
      (preparedFile (s.files f) name fresh truncated) := by
  have hBase : Prepared s
      (.opened cookie name fresh false :: log) name f
      (preparedFile (s.files f) name fresh false) := by
    cases hOpens with
    | found hNode => exact hState.prepared_found hNode
    | made hNode hFree =>
        exact hState.prepared_made hName hNode hFree
  cases truncated with
  | false => exact hBase
  | true =>
      rw [preparedFile_truncated]
      exact hBase.truncate

/- A file is prepared, and a handle to it is issued. -/
theorem FilesState.issue
    {s s' : KsService}
    {f h rights : Nat}
    {fresh truncated : Bool}
    (hState : FilesState s log)
    (hName : GoodName name)
    (hPrepared : Prepared s
      (.opened (s.nextHandle + 1) name fresh truncated ::
        log) name f file)
    (hHandle : h < ksHandles)
    (hFree : (s.handles h).cookie = 0)
    (hFiles : s'.files = Function.update s.files f
      { file with refs := file.refs + 1 })
    (hHandles : s'.handles = Function.update s.handles h
      ⟨s.nextHandle + 1, f, rights⟩)
    (hNext : s'.nextHandle = s.nextHandle + 1) :
    FilesState s'
      (.opened (s.nextHandle + 1) name fresh truncated ::
        log) := by
  have hThisFile : s'.files f =
      { file with refs := file.refs + 1 } := by
    rw [hFiles]
    exact Function.update_self ..
  have hElseFile : ∀ g, g ≠ f → s'.files g = s.files g := by
    intro g hNe
    rw [hFiles]
    exact Function.update_of_ne hNe ..
  have hThis : s'.handles h =
      ⟨s.nextHandle + 1, f, rights⟩ := by
    rw [hHandles]
    exact Function.update_self ..
  have hElse : ∀ h', h' ≠ h →
      s'.handles h' = s.handles h' := by
    intro h' hNe
    rw [hHandles]
    exact Function.update_of_ne hNe ..
  have hUsedFile : (s'.files f).used = true := by
    rw [hThisFile]
    exact hPrepared.used
  have hElseOpens : ∀ g h', h' ≠ h →
      s'.opens g h' = s.opens g h' := by
    intro g h' hNe
    rw [KsService.opens, KsService.opens, hElse h' hNe]
  have hOldOpens : ∀ g, s.opens g h = false := by
    intro g
    simp [KsService.opens, hFree]
  constructor
  · intro g hLow
    by_cases hSame : g = f
    · rw [hSame, hThisFile]
      change file.refs + 1 = openCount s' f
      rw [hPrepared.refs]
      symm
      refine countP_range_succ_of_update hHandle
        (hElseOpens f) (hOldOpens f) ?_
      simp [KsService.opens, hThis]
    · rw [hElseFile g hSame, hState.refs g hLow]
      symm
      apply openCount_congr
      intro h'
      by_cases hNew : h' = h
      · rw [hNew, hOldOpens]
        simp [KsService.opens, hThis, Ne.symm hSame]
      · exact hElseOpens g h' hNew
  · intro h' hLow hOpen
    by_cases hNew : h' = h
    · rw [hNew, hThis]
      exact ⟨hPrepared.low, hUsedFile⟩
    · rw [hElse h' hNew] at hOpen ⊢
      rcases hState.opened h' hLow hOpen with
        ⟨hFile, hUsed⟩
      refine ⟨hFile, ?_⟩
      by_cases hSame : (s.handles h').file = f
      · rw [hSame]
        exact hUsedFile
      · rw [hElseFile _ hSame]
        exact hUsed
  · intro h' hLow hClosed
    by_cases hNew : h' = h
    · rw [hNew, hThis] at hClosed
      cases hClosed
    · rw [hElse h' hNew] at hClosed ⊢
      exact hState.closed h' hLow hClosed
  · intro a hLow b hLow' hOpen hEq
    by_cases hNew : a = h
    · by_cases hOther : b = h
      · exact hNew.trans hOther.symm
      · rw [hNew, hThis, hElse b hOther] at hEq
        have hBound := hState.bounded b hLow'
        change s.nextHandle + 1 = _ at hEq
        omega
    · rw [hElse a hNew] at hOpen hEq
      by_cases hOther : b = h
      · rw [hOther, hThis] at hEq
        have hBound := hState.bounded a hLow
        change _ = s.nextHandle + 1 at hEq
        omega
      · rw [hElse b hOther] at hEq
        exact hState.cookies a hLow b hLow' hOpen hEq
  · intro h' hLow
    rw [hNext]
    by_cases hNew : h' = h
    · rw [hNew, hThis]
    · rw [hElse h' hNew]
      exact Nat.le_succ_of_le (hState.bounded h' hLow)
  · intro cookie hMem
    rw [hNext]
    rcases List.mem_cons.mp hMem with rfl | hOld
    · exact Nat.le_refl _
    · exact Nat.le_succ_of_le (hState.issued cookie hOld)
  · refine List.nodup_cons.mpr ⟨?_, hState.unique⟩
    intro hMem
    exact absurd (hState.issued _ hMem)
      (Nat.not_succ_le_self _)
  · intro a hLow b hLow' hUsed hUsed' hTitle
    by_cases hSame : a = f
    · by_cases hOther : b = f
      · exact hSame.trans hOther.symm
      · rw [hSame, hThisFile, hElseFile b hOther] at hTitle
        rw [hElseFile b hOther] at hUsed'
        exact absurd (hTitle.symm.trans hPrepared.title)
          (hPrepared.others b hLow' hOther hUsed')
    · rw [hElseFile a hSame] at hUsed hTitle
      by_cases hOther : b = f
      · rw [hOther, hThisFile] at hTitle
        exact absurd (hTitle.trans hPrepared.title)
          (hPrepared.others a hLow hSame hUsed)
      · rw [hElseFile b hOther] at hUsed' hTitle
        exact hState.names a hLow b hLow' hUsed hUsed' hTitle
  · intro g hLow hUsed
    by_cases hSame : g = f
    · rw [hSame, hThisFile]
      constructor
      · change GoodName file.title
        rw [hPrepared.title]
        exact hName
      · exact hPrepared.terminated
    · rw [hElseFile g hSame] at hUsed ⊢
      exact hState.name g hLow hUsed
  · intro g hLow
    by_cases hSame : g = f
    · rw [hSame, hThisFile]
      exact ⟨hPrepared.size.fits, hPrepared.size.tail⟩
    · rw [hElseFile g hSame]
      exact hState.sizes g hLow
  · intro g hLow hUsed
    by_cases hSame : g = f
    · rw [hSame, hThisFile]
      exact hPrepared.written
    · rw [hElseFile g hSame] at hUsed ⊢
      intro i
      have hNe : name ≠ (s.files g).title :=
        (hPrepared.others g hLow hSame hUsed).symm
      rw [lastWritten, if_neg (fun hBoth => hNe hBoth.1)]
      exact hState.contents g hLow hUsed i

theorem FilesState.open
    {f h flags : Nat}
    (hState : FilesState s log)
    (hName : GoodName name)
    (hOpens : s.Opens name f fresh)
    (hFree : freeHandle s = some h) :
    FilesState (KvantOS.User.issue s name f h fresh flags)
      (.opened (s.nextHandle + 1) name fresh
        (Paging.has flags ksOpenTrunc) :: log) := by
  rcases freeHandle_some hFree with ⟨hHandle, hClosed⟩
  refine hState.issue hName
    (hState.prepared hName hOpens
      (Paging.has flags ksOpenTrunc))
    hHandle hClosed ?_ rfl rfl
  simp [KvantOS.User.issue, KsService.setFile,
    KsService.setHandle]

--
-- Runs
--

theorem FilesState.effect
    {s s' : KsService}
    {entry : Option KsEntry}
    (hState : FilesState s log)
    (hEffect : KsEffect s entry s') :
    FilesState s' (entry.toList ++ log) := by
  cases hEffect with
  | nothing => exact hState
  | status => exact hState.sameFiles ⟨rfl, rfl, rfl⟩
  | delivered =>
      refine FilesState.aboutEvents ?_ ?_
      · exact hState.sameFiles ⟨rfl, rfl, rfl⟩
      · exact trivial
  | completed =>
      refine FilesState.aboutEvents ?_ ?_
      · exact hState.sameFiles ⟨rfl, rfl, rfl⟩
      · exact trivial
  | drew =>
      refine FilesState.aboutEvents ?_ ?_
      · exact hState.sameFiles ⟨rfl, rfl, rfl⟩
      · exact trivial
  | opened hName _ hOpens hFree =>
      exact hState.open hName hOpens hFree
  | wrote hHandle hOpen hRange =>
      exact hState.write hHandle hOpen hRange _
  | closed hHandle hOpen =>
      exact hState.close hHandle hOpen
  | deleted hNode hRefs =>
      exact hState.delete (node_some hNode).1 hRefs

theorem filesState_of_runs
    (hRun : KsRuns s log) :
    FilesState s log :=
  hRun.keeps
    (fun _ hFresh => filesState_fresh hFresh)
    (fun _ _ type _ _ _ _ _ hState _ =>
      FilesState.aboutEvents (e := .posted _ type)
        (hState.sameFiles ⟨rfl, rfl, rfl⟩) trivial)
    (fun _ _ _ _ hState hEffect => hState.effect hEffect)
    (fun _ _ _ hState => hState.sameFiles ⟨rfl, rfl, rfl⟩)

/-
  What a read returns was written since the file was last
  created or truncated, or is a zero of a gap.
-/
def ReadsWritten
    (s : KsService)
    (log : List KsEntry) : Prop :=
  ∀ mapped space mem off size b,
    kuCopyin mapped space mem Buf.zero off requestBytes =
      some b →
    (KsRequest.ofBuf b).op = ksRead →
    0 ≤ (ksDispatch mapped space ⟨s, mem⟩ off size).result →
    ∃ h n src,
      handle s (KsRequest.ofBuf b).a ksOpenR = .ok h ∧
      (ksDispatch mapped space ⟨s, mem⟩ off size).result =
        (n : Nat) ∧
      kuCopyout mapped space mem (KsRequest.ofBuf b).b src
        n = some
          (ksDispatch mapped space ⟨s, mem⟩ off size).mem ∧
      ∀ i < n, src i =
        (lastWritten (s.nameOf h)
          ((KsRequest.ofBuf b).d + i) log).getD 0

theorem perform_read
    {mapped : Nat → Bool}
    {space : KuSpace}
    {x : KsState}
    {r : KsRequest}
    (hOp : r.op = ksRead)
    (hResult : 0 ≤ (perform mapped space x r).result) :
    reads mapped space x r (perform mapped space x r) := by
  have hPerform : perform mapped space x r =
      fileIo mapped space x r := by
    rw [perform, hOp]
    rfl
  rw [hPerform] at hResult ⊢
  refine (fileIo_read_cases x hOp).resolve_left ?_
  rintro ⟨code, hCode, hOut⟩
  rw [hOut] at hResult
  exact absurd hCode (not_lt.mpr hResult)

theorem FilesState.readsWritten
    (hState : FilesState s log) :
    ReadsWritten s log := by
  intro mapped space mem off size b hCopy hOp hResult
  rcases ksDispatch_cases mapped space ⟨s, mem⟩ off size
    with ⟨code, hCode, hOut⟩ | ⟨b', hCopy', hOut⟩
  · rw [hOut] at hResult
    exact absurd hCode (not_lt.mpr hResult)
  · rw [hCopy] at hCopy'
    cases hCopy'
    rw [hOut] at hResult ⊢
    rcases perform_read hOp hResult with
      ⟨h, mem', hHandle, -, hOutCopy, hRead⟩
    rw [hRead]
    refine ⟨h, _, _, hHandle, rfl, hOutCopy, ?_⟩
    intro i _
    rcases handle_ok hHandle with ⟨hLow, hNe, hCookie⟩
    rcases hState.opened h hLow (hCookie ▸ hNe) with
      ⟨hFile, hUsed⟩
    exact hState.contents _ hFile hUsed _

/- Every run keeps the files and handles sound. -/
theorem ksRuns_files
    {s : KsService}
    {log : List KsEntry}
    (hRun : KsRuns s log) :
    FilesState s log ∧ ReadsWritten s log := by
  have hState := filesState_of_runs hRun
  exact ⟨hState, hState.readsWritten⟩

theorem ksRuns_files_loaded :
    FilesState loadedService [] ∧
      ReadsWritten loadedService [] :=
  ksRuns_files ksRuns_loadedService

end KvantOS.User
