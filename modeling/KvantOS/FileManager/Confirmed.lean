import KvantOS.FileManager.Trace

/-
  This file follows the dialogs of the file manager through
  every sequence of calls: it only removes, renames and
  creates what a dialog was opened for.

  Key definitions include:
    * `Moves`

  Key theorems include:
    * `fmConfirmYes_moves`, `fmInputSubmit_moves`
    * `step_moves`, `fm_confirmed`
-/

namespace KvantOS.FileManager

variable {σ : Type} {V : Vfs σ} {s s' s'' : Fm σ}

--
-- Steps
--

/- The step keeps the invariant, and loads only grow. -/
structure Moves (s s' : Fm σ) : Prop where
  panes : ∀ i, Whole (s'.panes i).path
  loads : s.loads ≤ s'.loads
  inv : Inv s → s'.loads < 2 ^ 32 → Inv s'

theorem Quiet.moves
    (hQuiet : Quiet s s') :
    Moves s s' :=
  ⟨hQuiet.panes, hQuiet.loads, hQuiet.inv⟩

theorem Moves.trans
    (hFirst : Moves s s')
    (hSecond : Moves s' s'') :
    Moves s s'' where
  panes := hSecond.panes
  loads := Nat.le_trans hFirst.loads hSecond.loads
  inv := by
    intro hInv hFew
    have hLe := hSecond.loads
    exact hSecond.inv (hFirst.inv hInv (by omega)) hFew

/- The panes are current, so their number is the present. -/
theorem namespace_current
    {i : Side}
    (hCurrent : fmListingCurrent V s i = true) :
    s.paneNamespace i = V.generation s.vfs := by
  unfold fmListingCurrent at hCurrent
  simp only [Bool.and_eq_true, beq_iff_eq] at hCurrent
  exact hCurrent.2

/- A call that is backed is noted, and changes the volumes. -/
theorem moves_note
    {e : Event}
    (hPanes : ∀ i, Whole (s.panes i).path)
    (hDelete : lastDelete (e :: s.log) = lastDelete s.log)
    (hInput : lastInput (e :: s.log) = lastInput s.log)
    (hBacked : Inv s → Backed s.log e ∧
      ∀ path ∈ pathsOf e, Whole path)
    (vfs : σ) :
    Moves s { s.note e with vfs := vfs } where
  panes := hPanes
  loads := Nat.le_refl _
  inv := by
    intro hInv _
    obtain ⟨hEvent, hPaths⟩ := hBacked hInv
    exact ⟨⟨hEvent, hPaths, hInv.sound⟩, hPanes, hInv.epoch,
      hInv.dialogs.mono hDelete hInput⟩

theorem moves_confirmNo
    (hPanes : ∀ i, Whole (s.panes i).path) :
    Moves s (fmConfirmNo s) where
  panes := hPanes
  loads := Nat.le_refl _
  inv := by
    intro hInv _
    refine ⟨hInv.sound, hPanes, hInv.epoch, ?_, ?_⟩
    · intro hOn
      cases hOn
    · intro mode hMode
      obtain ⟨m, hNamed⟩ := hInv.dialogs.input mode hMode
      exact ⟨m, { hNamed with last := hNamed.last }⟩

theorem moves_inputCancel
    (hPanes : ∀ i, Whole (s.panes i).path) :
    Moves s (fmInputCancel s) where
  panes := hPanes
  loads := Nat.le_refl _
  inv := by
    intro hInv _
    refine ⟨hInv.sound, hPanes, hInv.epoch, ?_, ?_⟩
    · intro hOn
      obtain ⟨m, hAsked⟩ := hInv.dialogs.confirm hOn
      exact ⟨m, { hAsked with last := hAsked.last }⟩
    · intro mode hMode
      cases hMode

--
-- Deleting
--

theorem fmDoDelete_moves
    {path : Path}
    (hPanes : ∀ i, Whole (s.panes i).path)
    (hBacked : Inv s →
      Backed s.log (.remove path (moment V s)) ∧
        Whole path) :
    Moves s (fmDoDelete V s path) := by
  have hNote := moves_note hPanes
    (e := .remove path (moment V s)) rfl rfl (by
      intro hInv
      obtain ⟨hEvent, hWhole⟩ := hBacked hInv
      exact ⟨hEvent, by simpa [pathsOf] using hWhole⟩)
    (V.remove s.vfs path).2
  unfold fmDoDelete
  dsimp only
  split
  · exact hNote.trans (fmRefresh_quiet hNote.panes).moves
  · split
    · have hFirst := hNote.trans
        (paneLoad_quiet (V := V) hNote.panes s.active).moves
      exact hFirst.trans (paneLoad_quiet hFirst.panes _).moves
    · exact hNote

theorem fmConfirmYes_moves
    (hPanes : ∀ i, Whole (s.panes i).path) :
    Moves s (fmConfirmYes V s) := by
  have hBoth : Moves s (if s.confirm then
      if s.confirmNamespace ≠ V.generation s.vfs ∨
          s.confirmListing ≠ s.listingEpoch ∨
          s.confirmPane ≠ s.active ∨
          selectedPath V s ≠ some s.confirmArg then
        s
      else
        fmDoDelete V s s.confirmArg
    else
      s) := by
    split
    · rename_i hOn
      split
      · exact (Quiet.refl hPanes).moves
      · rename_i hSame
        simp only [not_or, not_not] at hSame
        obtain ⟨hGeneration, hListing, hPane, hSelected⟩ :=
          hSame
        refine fmDoDelete_moves hPanes ?_
        intro hInv
        obtain ⟨m, hAsked⟩ := hInv.dialogs.confirm hOn
        refine ⟨⟨m, hAsked.last, ⟨?_, ?_, ?_, ?_⟩, hSelected,
          hAsked.selected⟩, hAsked.whole⟩
        · exact hGeneration.symm.trans hAsked.generation.symm
        · exact hListing.symm.trans hAsked.epoch.symm
        · rw [hAsked.loads, hAsked.epoch]
          exact hInv.epoch.symm.trans hListing.symm
        · exact hPane.symm.trans hAsked.active.symm
    · exact (Quiet.refl hPanes).moves
  exact hBoth.trans (moves_confirmNo hBoth.panes)

theorem fmDeleteAsk_moves
    (hPanes : ∀ i, Whole (s.panes i).path) :
    Moves s (fmDeleteAsk V s) := by
  unfold fmDeleteAsk
  split
  · exact (Quiet.refl hPanes).moves
  · rename_i full hSome
    have hWhole := selectedPath_whole hPanes hSome
    have hAsk := quiet_ask hPanes hWhole
      (V.writable s.vfs full).2
    have hCurrent : s.paneNamespace s.active =
        V.generation s.vfs := by
      unfold selectedPath at hSome
      split at hSome
      · rename_i hCurrent
        exact namespace_current hCurrent
      · cases hSome
    dsimp only
    split
    · exact hAsk.moves
    · refine ⟨hPanes, Nat.le_refl _, ?_⟩
      intro hInv hFew
      have hNext := hAsk.inv hInv hFew
      have hCopy := strncpy_eq hWhole.fits
      refine ⟨⟨trivial, by simp [pathsOf], hNext.sound⟩,
        hPanes, hInv.epoch, ?_, ?_⟩
      · intro _
        refine ⟨moment V s, ?_, ?_, ?_, hCurrent.symm, rfl,
          hInv.epoch.symm, rfl⟩
        · show some (full, moment V s) =
            some (strncpy full maxPath, moment V s)
          rw [hCopy]
        · show Whole (strncpy full maxPath)
          rw [hCopy]
          exact hWhole
        · show selectedPath V s = some (strncpy full maxPath)
          rw [hCopy]
          exact hSome
      · intro mode hMode
        obtain ⟨m, hNamed⟩ := hNext.dialogs.input mode hMode
        exact ⟨m, { hNamed with last := hNamed.last }⟩

--
-- Names
--

theorem fmInputBegin_eq
    {mode : InputMode}
    (hSome : fmInputBegin V s mode = some s') :
    s.confirm = false ∧
      fmListingCurrent V s s.active = true ∧
      s' =
        { s with
          inputDir := (act s).path
          inputFrom := []
          input := []
          inputListing := s.listingEpoch
          inputNamespace := s.paneNamespace s.active
          inputPane := s.active
          inputReplace := false
          inputMode := some mode } := by
  unfold fmInputBegin at hSome
  split at hSome
  · cases hSome
  · rename_i hFree
    simp only [not_or, Bool.not_eq_true,
      Bool.not_eq_false] at hFree
    rw [Option.some.injEq] at hSome
    exact ⟨hFree.2.1, hFree.2.2.2.1, hSome.symm⟩

theorem fmAskRename_moves
    (hPanes : ∀ i, Whole (s.panes i).path) :
    Moves s (fmAskRename V s) := by
  unfold fmAskRename
  split
  · exact (Quiet.refl hPanes).moves
  · split
    · exact (Quiet.refl hPanes).moves
    · rename_i e hEntry
      split
      · exact (Quiet.refl hPanes).moves
      · split
        · exact (Quiet.refl hPanes).moves
        · rename_i src hSrc
          have hWhole := fmPath_whole (hPanes s.active) hSrc
          have hAsk := quiet_ask hPanes hWhole
            (V.canRename s.vfs src).2
          dsimp only
          split
          · exact hAsk.moves
          · split
            · exact hAsk.moves
            · rename_i s' hBegin
              obtain ⟨hOff, hCurrent, rfl⟩ :=
                fmInputBegin_eq hBegin
              have hSame := namespace_current hCurrent
              refine ⟨hPanes, Nat.le_refl _, ?_⟩
              intro hInv hFew
              have hNext := hAsk.inv hInv hFew
              refine ⟨⟨trivial, by simp [pathsOf],
                hNext.sound⟩, hPanes, hInv.epoch, ?_, ?_⟩
              · intro hOn
                exact absurd hOn (by
                  rw [show _ = false from hOff]
                  exact Bool.false_ne_true)
              · intro mode hMode
                have hRename : InputMode.rename = mode :=
                  Option.some.inj hMode
                subst hRename
                refine ⟨_, rfl, rfl, hPanes s.active,
                  hSame.symm, rfl, hInv.epoch.symm, rfl,
                  fun _ => ⟨?_, hWhole⟩⟩
                refine (if_pos hCurrent).trans ?_
                split
                · next hNone => cases hEntry.symm.trans hNone
                · next hSome =>
                    cases hEntry.symm.trans hSome
                    exact hSrc

theorem fmAskMkdir_moves
    (hPanes : ∀ i, Whole (s.panes i).path) :
    Moves s (fmAskMkdir V s) := by
  unfold fmAskMkdir
  split
  · exact (Quiet.refl hPanes).moves
  · rename_i s' hBegin
    obtain ⟨hOff, hCurrent, rfl⟩ := fmInputBegin_eq hBegin
    have hSame := namespace_current hCurrent
    dsimp only
    generalize hState : Fm.note _ _ = s₁
    have hNote : Moves s s₁ := by
      subst hState
      refine ⟨hPanes, Nat.le_refl _, ?_⟩
      intro hInv _
      refine ⟨⟨trivial, by simp [pathsOf], hInv.sound⟩,
        hPanes, hInv.epoch, ?_, ?_⟩
      · intro hOn
        exact absurd hOn (by
          rw [show _ = false from hOff]
          exact Bool.false_ne_true)
      · intro mode hMode
        have hMkdir : InputMode.mkdir = mode :=
          Option.some.inj hMode
        subst hMkdir
        refine ⟨_, rfl, rfl, hPanes s.active, hSame.symm, rfl,
          hInv.epoch.symm, rfl, ?_⟩
        intro hNo
        cases hNo
    have hDir : Whole s₁.inputDir := by
      subst hState
      exact hPanes s.active
    have hAsk := hNote.trans (quiet_ask hNote.panes hDir
      (V.writable s₁.vfs s₁.inputDir).2).moves
    split
    · exact hAsk.trans (moves_inputCancel hAsk.panes)
    · exact hAsk

theorem submitCall_moves
    {mode : InputMode}
    {full : Path}
    (hPanes : ∀ i, Whole (s.panes i).path)
    (hMode : s.inputMode = some mode)
    (hGeneration : s.inputNamespace = V.generation s.vfs)
    (hListing : s.inputListing = s.listingEpoch)
    (hPane : s.active = s.inputPane)
    (hDir : (act s).path = s.inputDir)
    (hName : nativeNameLength s.input maxName ≠ none)
    (hFull : fmPath s.inputDir s.input = some full) :
    Moves s (submitCall V s mode full).1 := by
  have hSpec := fmPath_spec hFull
  have hLeaf : NamedIn s.inputDir full :=
    ⟨s.input, hSpec.1, hName, hSpec.2.2⟩
  have hWhole : Whole full := by
    refine fmPath_whole ?_ hFull
    rw [← hDir]
    exact hPanes s.active
  have hBacked (m : Moment) (hInv : Inv s)
      (hNamed : Named s.log s.dialogs mode m) :
      SameMoment (moment V s) m := by
    refine ⟨?_, ?_, ?_, ?_⟩
    · exact hGeneration.symm.trans hNamed.generation.symm
    · exact hListing.symm.trans hNamed.epoch.symm
    · rw [hNamed.loads, hNamed.epoch]
      exact hInv.epoch.symm.trans hListing.symm
    · exact hPane.trans hNamed.active.symm
  unfold submitCall
  cases mode with
  | rename =>
      refine moves_note hPanes rfl rfl ?_ _
      intro hInv
      obtain ⟨m, hNamed⟩ := hInv.dialogs.input _ hMode
      have hSource := hNamed.source rfl
      refine ⟨⟨m, hNamed.last, hBacked m hInv hNamed,
        hDir.trans hNamed.dir.symm, hSource.1, ?_⟩, ?_⟩
      · rw [hNamed.dir]
        exact hLeaf
      · intro path hMem
        simp only [pathsOf, List.mem_cons,
          List.not_mem_nil, or_false] at hMem
        rcases hMem with rfl | rfl
        · exact hSource.2
        · exact hWhole
  | mkdir =>
      refine moves_note hPanes rfl rfl ?_ _
      intro hInv
      obtain ⟨m, hNamed⟩ := hInv.dialogs.input _ hMode
      refine ⟨⟨m, hNamed.last, hBacked m hInv hNamed,
        hDir.trans hNamed.dir.symm, ?_⟩, ?_⟩
      · rw [hNamed.dir]
        exact hLeaf
      · simpa [pathsOf] using hWhole

theorem selectName_quiet
    (hPanes : ∀ i, Whole (s.panes i).path)
    (name : Path) :
    Quiet s (selectName s name) := by
  unfold selectName
  split
  · exact Quiet.refl hPanes
  · exact quiet_setPane hPanes (hPanes s.active)

theorem fmInputSubmit_moves
    (hPanes : ∀ i, Whole (s.panes i).path) :
    Moves s (fmInputSubmit V s) := by
  unfold fmInputSubmit
  split
  · exact (Quiet.refl hPanes).moves
  · rename_i mode hMode
    split
    · exact moves_inputCancel hPanes
    · rename_i hSame
      simp only [not_or, not_not] at hSame
      obtain ⟨hGeneration, hListing, hPane, hDir⟩ := hSame
      split
      · exact (Quiet.refl hPanes).moves
      · rename_i hName
        split
        · exact (Quiet.refl hPanes).moves
        · rename_i full hFull
          have hCall := submitCall_moves (V := V) hPanes hMode
            hGeneration hListing hPane hDir hName hFull
          have hClosed := hCall.trans
            (moves_inputCancel hCall.panes)
          have hRefresh := hClosed.trans
            (fmRefresh_quiet (V := V) hClosed.panes).moves
          dsimp only
          split
          · exact hRefresh
          · split
            · exact hRefresh.trans
                (selectName_quiet hRefresh.panes _).moves
            · exact hCall

--
-- Keys
--

/- Changes of the text that is edited are quiet. -/
theorem quiet_input
    (hPanes : ∀ i, Whole (s.panes i).path)
    (input : Path)
    (replace : Bool) :
    Quiet s
      { s with input := input, inputReplace := replace } where
  log := ⟨[], rfl, by simp⟩
  panes := hPanes
  epoch := fun hEpoch _ => hEpoch
  loads := Nat.le_refl _
  dialogs := rfl

theorem fmInputCodepoint_quiet
    (hPanes : ∀ i, Whole (s.panes i).path)
    (cp : Nat) :
    Quiet s (fmInputCodepoint s cp) := by
  unfold fmInputCodepoint
  generalize (if s.inputReplace then [] else s.input) = old
  dsimp only
  split
  · exact Quiet.refl hPanes
  · exact quiet_input hPanes _ false

theorem moves_ite
    {c : Prop}
    [Decidable c]
    (hThen : Moves s s')
    (hElse : Moves s s'') :
    Moves s (if c then s' else s'') := by
  split
  · exact hThen
  · exact hElse

theorem inputKey_moves
    (hPanes : ∀ i, Whole (s.panes i).path)
    (c : Nat) :
    Moves s (inputKey V s c) := by
  unfold inputKey
  refine moves_ite (fmInputSubmit_moves hPanes) ?_
  refine moves_ite (moves_inputCancel hPanes) ?_
  refine moves_ite (quiet_input hPanes s.input true).moves ?_
  refine moves_ite (quiet_input hPanes [] false).moves ?_
  refine moves_ite (quiet_input hPanes _ false).moves ?_
  exact moves_ite (fmInputCodepoint_quiet hPanes c).moves
    (Quiet.refl hPanes).moves

theorem confirmKey_moves
    (hPanes : ∀ i, Whole (s.panes i).path)
    (c : Nat) :
    Moves s (confirmKey V s c) := by
  unfold confirmKey
  exact moves_ite (fmConfirmYes_moves hPanes)
    (moves_ite (moves_confirmNo hPanes)
      (Quiet.refl hPanes).moves)

theorem viewKey_moves
    (hPanes : ∀ i, Whole (s.panes i).path)
    (c : Nat) :
    Moves s (viewKey s c) := by
  have hSame : Moves s s := (Quiet.refl hPanes).moves
  have hScroll (scroll : Int) : Moves s (scrollView s scroll) :=
    (quiet_view hPanes _).moves
  unfold viewKey
  refine moves_ite (quiet_view hPanes _).moves ?_
  refine moves_ite (moves_ite (hScroll _) hSame) ?_
  refine moves_ite (moves_ite (hScroll _) hSame) ?_
  exact moves_ite (hScroll _) (moves_ite (hScroll _) hSame)

theorem selectKey_quiet
    (hPanes : ∀ i, Whole (s.panes i).path)
    (rows sel : Int) :
    Quiet s (selectKey s rows sel) :=
  quiet_setPane hPanes (hPanes s.active)

theorem quiet_active
    (hPanes : ∀ i, Whole (s.panes i).path)
    (i : Side) :
    Quiet s { s with active := i } where
  log := ⟨[], rfl, by simp⟩
  panes := hPanes
  epoch := fun hEpoch _ => hEpoch
  loads := Nat.le_refl _
  dialogs := rfl

theorem paneKey_moves
    (hPanes : ∀ i, Whole (s.panes i).path)
    (c : Nat)
    (rows : Int) :
    Moves s (paneKey V s c rows) := by
  have hSelect (rows sel : Int) :
      Moves s (selectKey s rows sel) :=
    (selectKey_quiet hPanes rows sel).moves
  unfold paneKey
  dsimp only
  refine moves_ite (quiet_active hPanes s.active.other).moves ?_
  refine moves_ite (hSelect _ _) ?_
  refine moves_ite (hSelect _ _) ?_
  refine moves_ite (hSelect _ _) ?_
  refine moves_ite (hSelect _ _) ?_
  refine moves_ite (hSelect _ _) ?_
  refine moves_ite (hSelect _ _) ?_
  refine moves_ite (fmEnter_quiet hPanes).moves ?_
  refine moves_ite (fmUpdir_quiet hPanes).moves ?_
  refine moves_ite (fmCopy_quiet hPanes).moves ?_
  refine moves_ite (fmAskMkdir_moves hPanes) ?_
  refine moves_ite (fmDeleteAsk_moves hPanes) ?_
  exact moves_ite (fmRefresh_quiet hPanes).moves
    (Quiet.refl hPanes).moves

theorem fmKey_moves
    (hPanes : ∀ i, Whole (s.panes i).path)
    (c : Nat)
    (rows : Int) :
    Moves s (fmKey V s c rows) := by
  unfold fmKey
  refine moves_ite (inputKey_moves hPanes c) ?_
  refine moves_ite (confirmKey_moves hPanes c) ?_
  exact moves_ite (viewKey_moves hPanes c)
    (paneKey_moves hPanes c rows)

--
-- Runs
--

theorem step_moves
    (hPanes : ∀ i, Whole (s.panes i).path)
    (call : FmCall σ) :
    Moves s (step V s call) := by
  cases call with
  | init => exact (fmInit_quiet hPanes).moves
  | refresh => exact (fmRefresh_quiet hPanes).moves
  | key c rows => exact fmKey_moves hPanes c rows
  | inputCodepoint cp =>
      exact (fmInputCodepoint_quiet hPanes cp).moves
  | inputSubmit => exact fmInputSubmit_moves hPanes
  | inputCancel => exact moves_inputCancel hPanes
  | setActive i => exact (quiet_active hPanes i).moves
  | paneSetSel i sel =>
      exact moves_ite
        (quiet_setPane (p := { s.panes i with sel := sel })
          hPanes (hPanes i)).moves (Quiet.refl hPanes).moves
  | paneScrollBy i delta rows =>
      exact (quiet_setPane
        (p := { s.panes i with
          scroll := max (min ((s.panes i).scroll + delta)
            (max (((s.panes i).items.length : Int) - rows) 0))
              0 })
        hPanes (hPanes i)).moves
  | activate => exact (fmEnter_quiet hPanes).moves
  | goUp => exact (fmUpdir_quiet hPanes).moves
  | nextVolume => exact (fmNextVolume_quiet hPanes).moves
  | doCopy => exact (fmCopy_quiet hPanes).moves
  | askDelete => exact fmDeleteAsk_moves hPanes
  | askRename => exact fmAskRename_moves hPanes
  | askMkdir => exact fmAskMkdir_moves hPanes
  | confirmYes => exact fmConfirmYes_moves hPanes
  | confirmNo => exact moves_confirmNo hPanes
  | closeView => exact (quiet_view hPanes _).moves
  | viewScrollBy d => exact (quiet_view hPanes _).moves
  | vfsChanged vfs =>
      exact ⟨hPanes, Nat.le_refl _, fun hInv _ =>
        ⟨hInv.sound, hPanes, hInv.epoch, hInv.dialogs⟩⟩

theorem reach_panes
    (hReach : Reach V s) :
    ∀ i, Whole (s.panes i).path := by
  induction hReach with
  | start vfs => exact fun _ => ⟨.none, Nat.succ_pos _⟩
  | step _ call ih => exact (step_moves ih call).panes

theorem reach_inv
    (hReach : Reach V s)
    (hFew : s.loads < 2 ^ 32) :
    Inv s := by
  induction hReach with
  | start vfs =>
      refine ⟨trivial, fun _ => ⟨.none, Nat.succ_pos _⟩,
        rfl, ?_, ?_⟩
      · intro hOn
        cases hOn
      · intro mode hMode
        cases hMode
  | step hReach call ih =>
      have hMoves := step_moves (V := V) (reach_panes hReach)
        call
      have hLe := hMoves.loads
      exact hMoves.inv (ih (by omega)) hFew

/- A volume with one file, which can be removed. -/
def oneFile : Vfs Unit where
  generation := fun _ => 1
  volumes := fun _ => []
  isRoot := fun _ _ => true
  space := fun _ _ => ((0, 0), ())
  readdir := fun _ _ i =>
    ((if i = 0 then 1 else 0, ⟨[97], 0⟩), ())
  read := fun _ _ _ => ((0, []), ())
  size := fun _ _ => (0, ())
  writable := fun _ _ => (true, ())
  canRename := fun _ _ => (true, ())
  write := fun _ _ _ => (0, ())
  remove := fun _ _ => (0, ())
  rename := fun _ _ _ => (0, ())
  mkdir := fun _ _ => (0, ())
  memory := fun _ _ => true

/- The file is asked about and removed. -/
def fileRemoved : Fm Unit :=
  step oneFile (step oneFile (step oneFile (start ()) .init)
    .askDelete) .confirmYes

end KvantOS.FileManager
