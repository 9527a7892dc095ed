import KvantOS.FileManager.Actions

/-
  This file states which calls of the file system the last
  dialogs back, and that everything but the dialogs is quiet:
  it only asks about whole paths.

  Key definitions include:
    * `joined`, `Built`, `Whole`
    * `lastDelete`, `lastInput`, `Backed`
    * `Inv`, `Quiet`

  Key theorems include:
    * `fmPath_spec`, `Quiet.inv`
    * `paneLoad_quiet`, `fmEnter_quiet`, `fmCopy_quiet`
-/

namespace KvantOS.FileManager

--
-- Whole Paths
--

/- The path of a name in a directory, of any length. -/
def joined (dir name : Path) : Path :=
  (if needsSlash dir then dir ++ [slash] else dir) ++ name

/- Paths that no buffer has cut off. -/
inductive Built : Path → Prop where
  | none : Built []
  | ram : Built (volumePath [114, 97, 109])
  | volume (v : Volume) : Built (volumePath v.name)
  | parent
      {path : Path}
      (hBuilt : Built path) :
      Built (vfsParent (path.length + 1) path)
  | join
      {dir : Path}
      (hBuilt : Built dir)
      (name : Path) :
      Built (joined dir name)

/- A path that is whole and fits a buffer. -/
structure Whole (path : Path) : Prop where
  built : Built path
  fits : path.length < maxPath

variable {path : Path}

theorem strncpy_eq
    (hFits : path.length < maxPath) :
    strncpy path maxPath = path :=
  List.take_of_length_le (by omega)

theorem volume_whole (v : Volume) :
    Whole (volumePath v.name) := by
  refine ⟨.volume v, ?_⟩
  have hFits := v.fits
  unfold volumePath maxPath
  rw [List.length_append]
  simp only [List.length_cons, List.length_nil]
  omega

theorem vfsParent_whole
    (hWhole : Whole path) :
    Whole (vfsParent maxPath path) := by
  have hFits := hWhole.fits
  have hTake : path.take (maxPath - 1) = path :=
    List.take_of_length_le (by omega)
  have hSame : vfsParent maxPath path =
      vfsParent (path.length + 1) path := by
    unfold vfsParent
    rw [hTake, Nat.add_sub_cancel, List.take_length]
  refine ⟨hSame ▸ .parent hWhole.built, ?_⟩
  have hDrop : (dropSlash path).length ≤ path.length := by
    unfold dropSlash
    split
    · rw [List.length_dropLast]
      omega
    · exact Nat.le_refl _
  have hName : (dropName (dropSlash path)).length ≤
      path.length := by
    have hLe := (List.dropWhile_sublist
      (l := (dropSlash path).reverse) (· != slash)).length_le
    unfold dropName
    rw [List.length_reverse]
    rw [List.length_reverse] at hLe
    omega
  unfold vfsParent
  rw [hTake]
  unfold maxPath at hFits ⊢
  dsimp only
  repeat' split
  · exact Nat.succ_pos _
  · exact Nat.lt_of_sub_pos (by decide)
  · rw [List.length_dropLast]
    omega
  · exact Nat.lt_of_sub_pos (by decide)
  · omega

theorem fmPath_spec
    {dir name full : Path}
    (hSome : fmPath dir name = some full) :
    full = joined dir name ∧ full.length < maxPath ∧
      slash ∉ name ∧ backslash ∉ name := by
  unfold fmPath at hSome
  split at hSome
  · cases hSome
  · rename_i hFits
    split at hSome
    · cases hSome
    · rename_i hNone
      rw [Option.some.injEq] at hSome
      subst hSome
      simp only [not_or, Nat.not_le] at hFits
      obtain ⟨hDir, _, _, _, _, hRoom⟩ := hFits
      have hTake : dir.take (maxPath - 1) = dir :=
        List.take_of_length_le (by omega)
      have hJoin : vfsJoin maxPath dir name =
          joined dir name := by
        unfold vfsJoin joined
        dsimp only
        rw [hTake]
        cases hSlash : needsSlash dir with
        | true =>
            rw [hSlash, Bool.toNat_true] at hRoom
            rw [if_pos rfl, if_pos ⟨rfl, by omega⟩,
              List.take_of_length_le (by
                rw [List.length_append, List.length_singleton]
                omega)]
        | false =>
            rw [hSlash, Bool.toNat_false] at hRoom
            rw [if_neg Bool.false_ne_true,
              if_neg (fun h => Bool.false_ne_true h.1),
              List.take_of_length_le (by omega)]
      refine ⟨hJoin, ?_, ?_, ?_⟩
      · rw [hJoin]
        unfold joined
        cases hSlash : needsSlash dir with
        | true =>
            rw [hSlash, Bool.toNat_true] at hRoom
            rw [if_pos rfl, List.length_append,
              List.length_append, List.length_singleton]
            omega
        | false =>
            rw [hSlash, Bool.toNat_false] at hRoom
            rw [if_neg Bool.false_ne_true,
              List.length_append]
            omega
      · intro hMem
        refine hNone (List.any_eq_true.mpr
          ⟨slash, hMem, by decide⟩)
      · intro hMem
        refine hNone (List.any_eq_true.mpr
          ⟨backslash, hMem, by decide⟩)

theorem fmPath_whole
    {dir name full : Path}
    (hDir : Whole dir)
    (hSome : fmPath dir name = some full) :
    Whole full := by
  obtain ⟨hJoin, hFits, _⟩ := fmPath_spec hSome
  exact ⟨hJoin ▸ .join hDir.built name, hFits⟩

--
-- The Log
--

/- The last question whether to delete. -/
def lastDelete : List Event → Option (Path × Moment)
  | [] => none
  | .opened (.delete path m) :: _ => some (path, m)
  | _ :: log => lastDelete log

/- The last dialog for a name. -/
def lastInput : List Event → Option Opening
  | [] => none
  | .opened (.rename src m) :: _ => some (.rename src m)
  | .opened (.mkdir m) :: _ => some (.mkdir m)
  | _ :: log => lastInput log

/- Nothing that a dialog depends on has changed. -/
structure SameMoment (m m' : Moment) : Prop where
  generation : m.generation = m'.generation
  epoch : m.epoch = m'.epoch
  loads : m.loads = m'.loads
  active : m.active = m'.active

/- The path of a name that was checked, in a directory. -/
def NamedIn (dir dst : Path) : Prop :=
  ∃ leaf, dst = joined dir leaf ∧
    nativeNameLength leaf maxName ≠ none ∧
    slash ∉ leaf ∧ backslash ∉ leaf

/- The event is what the last dialog before it was about. -/
def Backed (log : List Event) : Event → Prop
  | .remove path m =>
      ∃ m', lastDelete log = some (path, m') ∧
        SameMoment m m' ∧ m.selected = some path ∧
        m'.selected = some path
  | .rename src dst m =>
      ∃ m', lastInput log = some (.rename src m') ∧
        SameMoment m m' ∧ m.panePath = m'.panePath ∧
        m'.selected = some src ∧ NamedIn m'.panePath dst
  | .mkdir dst m =>
      ∃ m', lastInput log = some (.mkdir m') ∧
        SameMoment m m' ∧ m.panePath = m'.panePath ∧
        NamedIn m'.panePath dst
  | _ => True

/- The paths that the file system is handed. -/
def pathsOf : Event → List Path
  | .asked path => [path]
  | .opened _ => []
  | .remove path _ => [path]
  | .rename src dst _ => [src, dst]
  | .mkdir dst _ => [dst]

/- Every event is backed by those before it. -/
def Sound : List Event → Prop
  | [] => True
  | e :: log =>
      Backed log e ∧ (∀ path ∈ pathsOf e, Whole path) ∧
        Sound log

theorem Sound.split
    {later log : List Event}
    {e : Event}
    (hSound : Sound (later ++ e :: log)) :
    Backed log e ∧ ∀ path ∈ pathsOf e, Whole path := by
  induction later with
  | nil => exact ⟨hSound.1, hSound.2.1⟩
  | cons _ _ ih => exact ih hSound.2.2

--
-- Dialogs
--

/- The variables of the dialogs. -/
structure Dialogs where
  confirm : Bool
  confirmArg : Path
  confirmNamespace : Nat
  confirmListing : Nat
  confirmPane : Side
  inputMode : Option InputMode
  inputDir : Path
  inputFrom : Path
  inputListing : Nat
  inputNamespace : Nat
  inputPane : Side

variable {σ : Type} {V : Vfs σ} {s s' s'' : Fm σ}

def Fm.dialogs (s : Fm σ) : Dialogs where
  confirm := s.confirm
  confirmArg := s.confirmArg
  confirmNamespace := s.confirmNamespace
  confirmListing := s.confirmListing
  confirmPane := s.confirmPane
  inputMode := s.inputMode
  inputDir := s.inputDir
  inputFrom := s.inputFrom
  inputListing := s.inputListing
  inputNamespace := s.inputNamespace
  inputPane := s.inputPane

def openingOf
    (src : Path)
    (m : Moment) : InputMode → Opening
  | .rename => .rename src m
  | .mkdir => .mkdir m

/- A question is about what was selected when it came up. -/
structure Asked
    (log : List Event)
    (w : Dialogs)
    (m : Moment) : Prop where
  last : lastDelete log = some (w.confirmArg, m)
  whole : Whole w.confirmArg
  selected : m.selected = some w.confirmArg
  generation : m.generation = w.confirmNamespace
  epoch : m.epoch = w.confirmListing
  loads : m.loads = m.epoch
  active : m.active = w.confirmPane

/- A name is for the place where it was asked for. -/
structure Named
    (log : List Event)
    (w : Dialogs)
    (mode : InputMode)
    (m : Moment) : Prop where
  last : lastInput log = some (openingOf w.inputFrom m mode)
  dir : m.panePath = w.inputDir
  whole : Whole w.inputDir
  generation : m.generation = w.inputNamespace
  epoch : m.epoch = w.inputListing
  loads : m.loads = m.epoch
  active : m.active = w.inputPane
  source : mode = .rename →
    m.selected = some w.inputFrom ∧ Whole w.inputFrom

structure DialogsOk
    (log : List Event)
    (w : Dialogs) : Prop where
  confirm : w.confirm = true → ∃ m, Asked log w m
  input : ∀ mode, w.inputMode = some mode →
    ∃ m, Named log w mode m

/- What holds between calls, while loads can be counted. -/
structure Inv (s : Fm σ) : Prop where
  sound : Sound s.log
  panes : ∀ i, Whole (s.panes i).path
  epoch : s.listingEpoch = s.loads
  dialogs : DialogsOk s.log s.dialogs

/- A log that has the same last dialogs. -/
theorem DialogsOk.mono
    {log log' : List Event}
    {w : Dialogs}
    (hOk : DialogsOk log w)
    (hDelete : lastDelete log' = lastDelete log)
    (hInput : lastInput log' = lastInput log) :
    DialogsOk log' w where
  confirm := by
    intro hOn
    obtain ⟨m, hAsked⟩ := hOk.confirm hOn
    exact ⟨m, { hAsked with
      last := hDelete.trans hAsked.last }⟩
  input := by
    intro mode hMode
    obtain ⟨m, hNamed⟩ := hOk.input mode hMode
    exact ⟨m, { hNamed with
      last := hInput.trans hNamed.last }⟩

--
-- Quiet Steps
--

/- Calls with whole paths, which no dialog has to back. -/
def Calls (log : List Event) : List Path → List Event
  | [] => log
  | path :: paths => .asked path :: Calls log paths

/-
  The step leaves the dialogs alone and only asks the file
  system about whole paths.
-/
structure Quiet (s s' : Fm σ) : Prop where
  log : ∃ paths, s'.log = Calls s.log paths ∧
    ∀ path ∈ paths, Whole path
  panes : ∀ i, Whole (s'.panes i).path
  epoch : s.listingEpoch = s.loads → s'.loads < 2 ^ 32 →
    s'.listingEpoch = s'.loads
  loads : s.loads ≤ s'.loads
  dialogs : s'.dialogs = s.dialogs

theorem calls_append
    (log : List Event)
    (x y : List Path) :
    Calls (Calls log x) y = Calls log (y ++ x) := by
  induction y with
  | nil => rfl
  | cons p y ih =>
      rw [List.cons_append, Calls, Calls, ih]

theorem Quiet.refl
    (hPanes : ∀ i, Whole (s.panes i).path) :
    Quiet s s where
  log := ⟨[], rfl, by simp⟩
  panes := hPanes
  epoch := fun hEpoch _ => hEpoch
  loads := Nat.le_refl _
  dialogs := rfl

theorem Quiet.trans
    (hFirst : Quiet s s')
    (hSecond : Quiet s' s'') :
    Quiet s s'' where
  log := by
    obtain ⟨x, hLog, hWhole⟩ := hFirst.log
    obtain ⟨y, hLog', hWhole'⟩ := hSecond.log
    refine ⟨y ++ x, ?_, ?_⟩
    · rw [hLog', hLog, calls_append]
    · intro path hMem
      rcases List.mem_append.mp hMem with hNew | hOld
      · exact hWhole' path hNew
      · exact hWhole path hOld
  panes := hSecond.panes
  epoch := by
    intro hEpoch hLess
    have hLe := hSecond.loads
    exact hSecond.epoch (hFirst.epoch hEpoch (by omega)) hLess
  loads := Nat.le_trans hFirst.loads hSecond.loads
  dialogs := hSecond.dialogs.trans hFirst.dialogs

theorem last_calls
    (log : List Event)
    (paths : List Path) :
    lastDelete (Calls log paths) = lastDelete log ∧
      lastInput (Calls log paths) = lastInput log := by
  induction paths with
  | nil => exact ⟨rfl, rfl⟩
  | cons p paths ih => exact ih

theorem sound_calls
    {log : List Event}
    {paths : List Path}
    (hSound : Sound log)
    (hWhole : ∀ path ∈ paths, Whole path) :
    Sound (Calls log paths) := by
  induction paths with
  | nil => exact hSound
  | cons p paths ih =>
      refine ⟨trivial, ?_, ih (fun q hMem =>
        hWhole q (List.mem_cons_of_mem _ hMem))⟩
      intro q hMem
      rw [show q = p from List.mem_singleton.mp hMem]
      exact hWhole p (by simp)

/- A quiet step keeps the invariant. -/
theorem Quiet.inv
    (hQuiet : Quiet s s')
    (hInv : Inv s)
    (hFew : s'.loads < 2 ^ 32) :
    Inv s' := by
  obtain ⟨paths, hLog, hWhole⟩ := hQuiet.log
  obtain ⟨hDelete, hInput⟩ := last_calls s.log paths
  refine ⟨?_, hQuiet.panes, hQuiet.epoch hInv.epoch hFew, ?_⟩
  · rw [hLog]
    exact sound_calls hInv.sound hWhole
  · rw [hLog, hQuiet.dialogs]
    exact hInv.dialogs.mono hDelete hInput

/- Only a call, or only panes and views. -/
theorem quiet_ask
    (hPanes : ∀ i, Whole (s.panes i).path)
    (hWhole : Whole path)
    (vfs : σ) :
    Quiet s (s.ask path vfs) where
  log := ⟨[path], rfl, by simpa using hWhole⟩
  panes := hPanes
  epoch := fun hEpoch _ => hEpoch
  loads := Nat.le_refl _
  dialogs := rfl

theorem quiet_setPane
    {i : Side}
    {p : Pane}
    (hPanes : ∀ i, Whole (s.panes i).path)
    (hWhole : Whole p.path) :
    Quiet s (s.setPane i p) where
  log := ⟨[], rfl, by simp⟩
  panes := by
    intro j
    show Whole (if j = i then p else s.panes j).path
    split
    · exact hWhole
    · exact hPanes j
  epoch := fun hEpoch _ => hEpoch
  loads := Nat.le_refl _
  dialogs := rfl

theorem readEntries_quiet
    {epoch : Nat}
    (hWhole : Whole path)
    (fuel : Nat)
    (items : List Dirent)
    (hPanes : ∀ i, Whole (s.panes i).path) :
    Quiet s (readEntries V epoch path fuel s items).1 := by
  induction fuel generalizing s items with
  | zero => exact Quiet.refl hPanes
  | succ fuel ih =>
      have hAsk := quiet_ask hPanes hWhole
        (V.readdir s.vfs path items.length).2
      unfold readEntries
      dsimp only
      split
      · exact hAsk
      · split
        · exact hAsk
        · split
          · exact hAsk
          · exact hAsk.trans (ih _ hAsk.panes)

theorem nextEpoch_eq
    {n : Nat}
    (hLess : n + 1 < 2 ^ 32) :
    nextEpoch n = n + 1 := by
  unfold nextEpoch
  rw [Nat.mod_eq_of_lt hLess, if_neg (Nat.succ_ne_zero n)]

theorem readPane_quiet
    (hPanes : ∀ i, Whole (s.panes i).path)
    (hWhole : Whole path) :
    Quiet s (readPane V s path).1 := by
  have hAsk := quiet_ask hPanes hWhole
    (V.space s.vfs path).2
  unfold readPane
  dsimp only
  split
  · exact hAsk.trans
      (readEntries_quiet hWhole _ _ hAsk.panes)
  · exact hAsk

theorem paneLoad_quiet
    (hPanes : ∀ i, Whole (s.panes i).path)
    (i : Side) :
    Quiet s (paneLoad V s i) := by
  have hRead := readPane_quiet (V := V) hPanes (hPanes i)
  have hStore := quiet_setPane (i := i)
    (p := fillPane ((readPane V s (s.panes i).path).1.panes i)
      (readPane V s (s.panes i).path).2.1
      (readPane V s (s.panes i).path).2.2.1
      (readPane V s (s.panes i).path).2.2.2)
    hRead.panes (hRead.panes i)
  have hBoth := hRead.trans hStore
  refine ⟨hBoth.log, hBoth.panes, ?_,
    Nat.le_succ_of_le hBoth.loads, hBoth.dialogs⟩
  intro hEpoch hLess
  unfold paneLoad at hLess ⊢
  dsimp only at hLess ⊢
  have hSame := hBoth.epoch hEpoch
    (Nat.lt_of_succ_lt hLess)
  rw [hSame]
  exact nextEpoch_eq hLess

theorem paneGoto_quiet
    (hPanes : ∀ i, Whole (s.panes i).path)
    (i : Side)
    (hWhole : Whole path) :
    Quiet s (paneGoto V s i path) := by
  have hSet := quiet_setPane (i := i)
    (p := { s.panes i with
      path := strncpy path maxPath
      sel := 0
      scroll := 0 })
    hPanes (by
      dsimp only
      rw [strncpy_eq hWhole.fits]
      exact hWhole)
  exact hSet.trans (paneLoad_quiet hSet.panes i)

theorem fmRefresh_quiet
    (hPanes : ∀ i, Whole (s.panes i).path) :
    Quiet s (fmRefresh V s) := by
  have hLeft := paneLoad_quiet (V := V) hPanes .left
  exact hLeft.trans (paneLoad_quiet hLeft.panes .right)

theorem defaultPath_whole
    (s : Fm σ)
    (preferSecond : Bool) :
    Whole (defaultPath V s preferSecond) := by
  unfold defaultPath
  dsimp only
  split
  · exact ⟨.ram, by decide⟩
  · rename_i v _
    rw [strncpy_eq (volume_whole v).fits]
    exact volume_whole v

theorem fmInit_quiet
    (hPanes : ∀ i, Whole (s.panes i).path) :
    Quiet s (fmInit V s) := by
  unfold fmInit
  split
  · exact Quiet.refl hPanes
  · have hStart : Quiet s { s with inited := true } :=
      { Quiet.refl hPanes with
        log := ⟨[], rfl, by simp⟩
        dialogs := rfl }
    have hLeft := paneGoto_quiet (V := V) hStart.panes .left
      (defaultPath_whole (V := V) { s with inited := true }
        false)
    exact (hStart.trans hLeft).trans
      (paneGoto_quiet hLeft.panes .right
        (defaultPath_whole _ true))

theorem selectedPath_whole
    {full : Path}
    (hPanes : ∀ i, Whole (s.panes i).path)
    (hSome : selectedPath V s = some full) :
    Whole full := by
  unfold selectedPath at hSome
  split at hSome
  · cases hEntry : selectedEntry s with
    | none =>
        rw [hEntry] at hSome
        cases hSome
    | some e =>
        rw [hEntry] at hSome
        exact fmPath_whole (hPanes s.active) hSome
  · cases hSome

/- Changes of the preview are quiet. -/
theorem quiet_view
    (hPanes : ∀ i, Whole (s.panes i).path)
    (view : View) :
    Quiet s { s with view := view } where
  log := ⟨[], rfl, by simp⟩
  panes := hPanes
  epoch := fun hEpoch _ => hEpoch
  loads := Nat.le_refl _
  dialogs := rfl

theorem fmEnter_quiet
    (hPanes : ∀ i, Whole (s.panes i).path) :
    Quiet s (fmEnter V s) := by
  unfold fmEnter
  split
  · rename_i full e hSome _
    have hWhole := selectedPath_whole hPanes hSome
    dsimp only
    split
    · exact paneGoto_quiet hPanes _ hWhole
    · have hAsk := quiet_ask hPanes hWhole
        (V.read s.vfs full 4095).2
      split
      · exact hAsk.trans (quiet_view hAsk.panes _)
      · exact hAsk.trans (quiet_view hAsk.panes _)
  · exact Quiet.refl hPanes

theorem fmNextVolume_quiet
    (hPanes : ∀ i, Whole (s.panes i).path) :
    Quiet s (fmNextVolume V s) := by
  unfold fmNextVolume
  dsimp only
  split
  · exact Quiet.refl hPanes
  · rename_i v _
    refine paneGoto_quiet hPanes _ ?_
    rw [strncpy_eq (volume_whole v).fits]
    exact volume_whole v

theorem fmUpdir_quiet
    (hPanes : ∀ i, Whole (s.panes i).path) :
    Quiet s (fmUpdir V s) := by
  have hAsk := quiet_ask hPanes (hPanes s.active) s.vfs
  unfold fmUpdir
  dsimp only
  split
  · exact hAsk.trans (fmNextVolume_quiet hAsk.panes)
  · exact hAsk.trans (paneGoto_quiet hAsk.panes _
      (vfsParent_whole (hPanes s.active)))

theorem copyFile_quiet
    {src dst : Path}
    (hPanes : ∀ i, Whole (s.panes i).path)
    (hSrc : Whole src)
    (hDst : Whole dst) :
    Quiet s (copyFile V s src dst) := by
  unfold copyFile
  dsimp only
  have hWritable := quiet_ask hPanes hDst
    (V.writable s.vfs dst).2
  generalize s.ask dst (V.writable s.vfs dst).2 = s₁ at *
  split
  · exact hWritable
  · have hSize := hWritable.trans (quiet_ask hWritable.panes
      hSrc (V.size s₁.vfs src).2)
    generalize s₁.ask src (V.size s₁.vfs src).2 = s₂ at *
    split
    · exact hSize
    · split
      · exact hSize
      · generalize (V.size s₁.vfs src).1 = size
        have hRead := hSize.trans (quiet_ask hSize.panes hSrc
          (V.read s₂.vfs src size).2)
        generalize s₂.ask src (V.read s₂.vfs src size).2 =
          s₃ at *
        split
        · exact hRead
        · generalize (V.read s₂.vfs src size).1.2.take size =
            data
          have hWrite := hRead.trans (quiet_ask hRead.panes
            hDst (V.write s₃.vfs dst data).2)
          generalize s₃.ask dst (V.write s₃.vfs dst data).2 =
            s₄ at *
          split
          · exact hWrite
          · split
            · exact hWrite.trans
                (paneLoad_quiet hWrite.panes _)
            · exact hWrite

theorem fmCopy_quiet
    (hPanes : ∀ i, Whole (s.panes i).path) :
    Quiet s (fmCopy V s) := by
  unfold fmCopy
  split
  · exact Quiet.refl hPanes
  · split
    · exact Quiet.refl hPanes
    · split
      · exact Quiet.refl hPanes
      · split
        · rename_i src dst hSrc hDst
          split
          · exact Quiet.refl hPanes
          · exact copyFile_quiet hPanes
              (fmPath_whole (hPanes _) hSrc)
              (fmPath_whole (hPanes _) hDst)
        · exact Quiet.refl hPanes

end KvantOS.FileManager
