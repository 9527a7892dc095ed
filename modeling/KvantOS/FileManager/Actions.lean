import KvantOS.FileManager.Model

/-
  This file models what the file manager does: opening,
  copying and deleting, the dialogs and the keys.

  Key definitions include:
    * `fmEnter`, `fmUpdir`, `fmNextVolume`, `fmCopy`
    * `fmDeleteAsk`, `fmConfirmYes`, `fmDoDelete`
    * `fmInputBegin`, `fmAskRename`, `fmAskMkdir`,
      `fmInputSubmit`
    * `fmKey`
    * `FmCall`, `step`, `Reach`
-/

namespace KvantOS.FileManager

variable {σ : Type}
variable (V : Vfs σ)

/- A byte that is no text. -/
def weird (c : UInt8) : Bool :=
  if c = 10 ∨ c = 13 ∨ c = 9 then false
  else c < 32 || c == 127

def fmEnter (s : Fm σ) : Fm σ :=
  match selectedPath V s, selectedEntry s with
  | some full, some e =>
      let epoch := s.paneNamespace s.active
      if e.isDir ≠ 0 then
        paneGoto V s s.active full
      else
        let result := V.read s.vfs full 4095
        let n := result.1.1
        let s := s.ask full result.2
        if n < 0 ∨ 4096 ≤ n ∨ epoch ≠ V.generation s.vfs then
          { s with
            view := { s.view with shown := false, data := [] } }
        else
          let data := result.1.2.take n.toNat
          { s with
            view :=
              { shown := true
                name := strncpy e.name maxName
                data := data
                scroll := 0
                binary := 0 < n &&
                  n < ((data.filter weird).length : Int) *
                    20 } }
  | _, _ => s

/- The path is on the volume. -/
def onVolume
    (path name : Path) : Bool :=
  let pref := volumePath name
  pref.isPrefixOf path &&
    (path.length == pref.length ||
      path[pref.length]? == some slash)

def fmNextVolume (s : Fm σ) : Fm σ :=
  let volumes := V.volumes s.vfs
  let cur := (volumes.findIdx? (fun v =>
    onVolume (act s).path v.name)).getD 0
  match volumes[(cur + 1) % volumes.length]? with
  | none => s
  | some v =>
      paneGoto V s s.active
        (strncpy (volumePath v.name) maxPath)

def fmUpdir (s : Fm σ) : Fm σ :=
  let path := (act s).path
  let s := s.ask path s.vfs
  if V.isRoot s.vfs path then fmNextVolume V s
  else paneGoto V s s.active (vfsParent maxPath path)

/- The copy of a file, once its paths are known. -/
def copyFile
    (s : Fm σ)
    (src dst : Path) : Fm σ :=
  let epoch := s.paneNamespace s.active
  let writable := V.writable s.vfs dst
  let s := s.ask dst writable.2
  if writable.1 = false then s
  else
    let size := V.size s.vfs src
    let s := s.ask src size.2
    if copyLimit < size.1 then s
    else if V.memory s.vfs (max size.1 1) = false then s
    else
      let got := V.read s.vfs src size.1
      let s := s.ask src got.2
      if got.1.1 ≠ size.1 ∨ V.generation s.vfs ≠ epoch then s
      else
        let wrote := V.write s.vfs dst
          (got.1.2.take size.1)
        let s := s.ask dst wrote.2
        if V.generation s.vfs ≠ epoch then s
        else if wrote.1 = size.1 then
          paneLoad V s s.active.other
        else
          s

def fmCopy (s : Fm σ) : Fm σ :=
  if fmListingCurrent V s s.active = false ∨
      fmListingCurrent V s s.active.other = false then
    s
  else
    match selectedEntry s with
    | none => s
    | some e =>
        if e.isDir ≠ 0 then s
        else
          match fmPath (act s).path e.name,
              fmPath (s.panes s.active.other).path e.name with
          | some src, some dst =>
              if src = dst then s else copyFile V s src dst
          | _, _ => s

--
-- Deleting
--

def fmDoDelete
    (s : Fm σ)
    (path : Path) : Fm σ :=
  let epoch := V.generation s.vfs
  let result := V.remove s.vfs path
  let s := s.note (.remove path (moment V s))
  let s := { s with vfs := result.2 }
  if epoch ≠ V.generation s.vfs then
    fmRefresh V s
  else if result.1 = 0 then
    paneLoad V (paneLoad V s s.active) s.active.other
  else
    s

def fmDeleteAsk (s : Fm σ) : Fm σ :=
  match selectedPath V s with
  | none => s
  | some full =>
      let m := moment V s
      let writable := V.writable s.vfs full
      let s := s.ask full writable.2
      if writable.1 = false then s
      else
        let s := s.note (.opened (.delete full m))
        { s with
          confirmArg := strncpy full maxPath
          confirmNamespace := s.paneNamespace s.active
          confirmListing := s.listingEpoch
          confirmPane := s.active
          confirm := true }

def fmConfirmYes (s : Fm σ) : Fm σ :=
  let s :=
    if s.confirm then
      if s.confirmNamespace ≠ V.generation s.vfs ∨
          s.confirmListing ≠ s.listingEpoch ∨
          s.confirmPane ≠ s.active ∨
          selectedPath V s ≠ some s.confirmArg then
        s
      else
        fmDoDelete V s s.confirmArg
    else
      s
  { s with confirm := false }

def fmConfirmNo (s : Fm σ) : Fm σ :=
  { s with confirm := false }

--
-- Names
--

/- `none` when no name may be asked for now. -/
def fmInputBegin
    (s : Fm σ)
    (mode : InputMode) : Option (Fm σ) :=
  if s.inputMode ≠ none ∨ s.confirm = true ∨
      s.view.shown = true ∨
      fmListingCurrent V s s.active = false ∨
      maxPath ≤ (act s).path.length then
    none
  else
    some
      { s with
        inputDir := (act s).path
        inputFrom := []
        input := []
        inputListing := s.listingEpoch
        inputNamespace := s.paneNamespace s.active
        inputPane := s.active
        inputReplace := false
        inputMode := some mode }

def fmAskRename (s : Fm σ) : Fm σ :=
  if fmListingCurrent V s s.active = false then s
  else
    match selectedEntry s with
    | none => s
    | some e =>
        if e.isDir ≠ 0 then s
        else
          match fmPath (act s).path e.name with
          | none => s
          | some src =>
              let can := V.canRename s.vfs src
              let s := s.ask src can.2
              if can.1 = false then s
              else
                match fmInputBegin V s .rename with
                | none => s
                | some s =>
                    let s := s.note
                      (.opened (.rename src (moment V s)))
                    { s with
                      inputFrom := src
                      input := e.name
                      inputReplace := true }

def fmAskMkdir (s : Fm σ) : Fm σ :=
  match fmInputBegin V s .mkdir with
  | none => s
  | some s =>
      let s := s.note (.opened (.mkdir (moment V s)))
      let writable := V.writable s.vfs s.inputDir
      let s := s.ask s.inputDir writable.2
      if writable.1 = false then { s with inputMode := none }
      else s

def fmInputCancel (s : Fm σ) : Fm σ :=
  { s with inputMode := none }

def keymapUtf8 (c : Nat) : List UInt8 :=
  if c = 0 ∨ 0x10FFFF < c ∨ (0xD800 ≤ c ∧ c ≤ 0xDFFF) then []
  else if c < 0x80 then [UInt8.ofNat c]
  else if c < 0x800 then
    [UInt8.ofNat (0xC0 ||| c >>> 6),
      UInt8.ofNat (0x80 ||| c &&& 63)]
  else if c < 0x10000 then
    [UInt8.ofNat (0xE0 ||| c >>> 12),
      UInt8.ofNat (0x80 ||| c >>> 6 &&& 63),
      UInt8.ofNat (0x80 ||| c &&& 63)]
  else
    [UInt8.ofNat (0xF0 ||| c >>> 18),
      UInt8.ofNat (0x80 ||| c >>> 12 &&& 63),
      UInt8.ofNat (0x80 ||| c >>> 6 &&& 63),
      UInt8.ofNat (0x80 ||| c &&& 63)]

def fmInputCodepoint
    (s : Fm σ)
    (cp : Nat) : Fm σ :=
  let bytes := keymapUtf8 cp
  let old := if s.inputReplace then [] else s.input
  if s.inputMode = none ∨ cp < 32 ∨ cp = 127 ∨ bytes = [] ∨
      maxName - old.length ≤ bytes.length then
    s
  else
    { s with input := old ++ bytes, inputReplace := false }

/- Select the entry with a name. -/
def selectName
    (s : Fm σ)
    (name : Path) : Fm σ :=
  match (act s).items.findIdx? (fun e => e.name == name) with
  | none => s
  | some i => s.setPane s.active { act s with sel := i }

/- The call of the dialog, and its result. -/
def submitCall
    (s : Fm σ)
    (mode : InputMode)
    (full : Path) : Fm σ × Int :=
  match mode with
  | .rename =>
      let result := V.rename s.vfs s.inputFrom full
      let s := s.note
        (.rename s.inputFrom full (moment V s))
      ({ s with vfs := result.2 }, result.1)
  | .mkdir =>
      let result := V.mkdir s.vfs full
      let s := s.note (.mkdir full (moment V s))
      ({ s with vfs := result.2 }, result.1)

def fmInputSubmit (s : Fm σ) : Fm σ :=
  match s.inputMode with
  | none => s
  | some mode =>
      if s.inputNamespace ≠ V.generation s.vfs ∨
          s.inputListing ≠ s.listingEpoch ∨
          s.active ≠ s.inputPane ∨
          (act s).path ≠ s.inputDir then
        { s with inputMode := none }
      else if nativeNameLength s.input maxName = none then s
      else
        match fmPath s.inputDir s.input with
        | none => s
        | some full =>
            let result := submitCall V s mode full
            let s := result.1
            if s.inputNamespace ≠ V.generation s.vfs ∨
                (mode = .rename ∧ result.2 = -6) then
              fmRefresh V { s with inputMode := none }
            else if result.2 = 0 then
              selectName
                (fmRefresh V { s with inputMode := none })
                s.input
            else
              s

--
-- Keys
--

/- `(c & 0xc0) == 0x80`. -/
def isTail (c : UInt8) : Bool :=
  c &&& 0xC0 == 0x80

/- The text without its last character. -/
def dropChar (s : Path) : Path :=
  match s.reverse with
  | [] => []
  | c :: rest =>
      if isTail c then
        -- up to the first byte of the character
        ((rest.dropWhile isTail).drop 1).reverse
      else
        rest.reverse

/- A key while a name is edited. -/
def inputKey
    (s : Fm σ)
    (c : Nat) : Fm σ :=
  if c = 10 then fmInputSubmit V s
  else if c = 27 then fmInputCancel s
  else if c = 1 then { s with inputReplace := true }
  else if c = 21 then
    { s with input := [], inputReplace := false }
  else if c = 8 then
    { s with
      input := if s.inputReplace then [] else dropChar s.input
      inputReplace := false }
  else if 32 ≤ c ∧ c < 127 then fmInputCodepoint s c
  else s

/- A key while a question is open. -/
def confirmKey
    (s : Fm σ)
    (c : Nat) : Fm σ :=
  if c = 121 ∨ c = 89 ∨ c = 10 then fmConfirmYes V s
  else if c = 110 ∨ c = 78 ∨ c = 27 then fmConfirmNo s
  else s

/- The lines of the preview. -/
def viewLines (v : View) : Int :=
  let lines :=
    if v.binary then (v.data.length + 15) / 16 else 0
  if lines = 0 then (v.data.count 10 : Int) + 1 else lines

def scrollView
    (s : Fm σ)
    (scroll : Int) : Fm σ :=
  { s with view := { s.view with scroll := scroll } }

/- A key while a preview is open. -/
def viewKey
    (s : Fm σ)
    (c : Nat) : Fm σ :=
  let lines := viewLines s.view
  let scroll := s.view.scroll
  if c = 27 ∨ c = 113 ∨ c = 81 then
    { s with view := { s.view with shown := false } }
  else if c = 0x81 then
    if scroll ≠ 0 then scrollView s (scroll - 1) else s
  else if c = 0x82 then
    if scroll < lines - 4 then scrollView s (scroll + 1) else s
  else if c = 0x87 then scrollView s (max (scroll - 10) 0)
  else if c = 0x88 then
    scrollView s (max (min (scroll + 10) (lines - 4)) 0)
  else s

/- Move the selection, and keep it visible. -/
def selectKey
    (s : Fm σ)
    (rows sel : Int) : Fm σ :=
  let p := { act s with sel := sel }
  let scroll := if p.sel < p.scroll then p.sel else p.scroll
  let scroll :=
    if scroll + rows ≤ p.sel then p.sel - rows + 1 else scroll
  s.setPane s.active
    { p with scroll := if scroll < 0 then 0 else scroll }

/- A key of the panes. -/
def paneKey
    (s : Fm σ)
    (c : Nat)
    (rows : Int) : Fm σ :=
  let rows := if rows < 1 then 1 else rows
  let sel := (act s).sel
  let count : Int := (act s).items.length
  if c = 9 then { s with active := s.active.other }
  else if c = 0x81 then
    selectKey s rows (if 0 < sel then sel - 1 else sel)
  else if c = 0x82 then
    selectKey s rows (if sel < count - 1 then sel + 1 else sel)
  else if c = 0x87 then
    selectKey s rows (if sel - rows < 0 then 0 else sel - rows)
  else if c = 0x88 then
    selectKey s rows
      (let sel :=
        if count - 1 < sel + rows then count - 1
        else sel + rows
      if sel < 0 then 0 else sel)
  else if c = 0x85 then selectKey s rows 0
  else if c = 0x86 then
    selectKey s rows (if count ≠ 0 then count - 1 else 0)
  else if c = 10 ∨ c = 0x92 then fmEnter V s
  else if c = 8 then fmUpdir V s
  else if c = 0x94 then fmCopy V s
  else if c = 0x96 then fmAskMkdir V s
  else if c = 0x97 then fmDeleteAsk V s
  else if c = 0x91 then fmRefresh V s
  else s

def fmKey
    (s : Fm σ)
    (c : Nat)
    (rows : Int) : Fm σ :=
  if s.inputMode ≠ none then inputKey V s c
  else if s.confirm then confirmKey V s c
  else if s.view.shown then viewKey s c
  else paneKey V s c rows

--
-- Calls
--

def fmSetActive
    (s : Fm σ)
    (i : Side) : Fm σ :=
  { s with active := i }

def fmPaneSetSel
    (s : Fm σ)
    (i : Side)
    (sel : Int) : Fm σ :=
  if 0 ≤ sel ∧ sel < ((s.panes i).items.length : Int) then
    s.setPane i { s.panes i with sel := sel }
  else
    s

def fmPaneScrollBy
    (s : Fm σ)
    (i : Side)
    (delta rows : Int) : Fm σ :=
  let p := s.panes i
  let maxs := max ((p.items.length : Int) - rows) 0
  s.setPane i
    { p with scroll := max (min (p.scroll + delta) maxs) 0 }

def fmViewScrollBy
    (s : Fm σ)
    (d : Int) : Fm σ :=
  scrollView s (max (s.view.scroll + d) 0)

def fmCloseView (s : Fm σ) : Fm σ :=
  { s with view := { s.view with shown := false } }

/- The calls of the desktop, and changes of the volumes. -/
inductive FmCall (σ : Type) where
  | init
  | refresh
  | key (c : Nat) (rows : Int)
  | inputCodepoint (cp : Nat)
  | inputSubmit
  | inputCancel
  | setActive (i : Side)
  | paneSetSel (i : Side) (sel : Int)
  | paneScrollBy (i : Side) (delta rows : Int)
  | activate
  | goUp
  | nextVolume
  | doCopy
  | askDelete
  | askRename
  | askMkdir
  | confirmYes
  | confirmNo
  | closeView
  | viewScrollBy (d : Int)
  | vfsChanged (vfs : σ)

def step
    (s : Fm σ) : FmCall σ → Fm σ
  | .init => fmInit V s
  | .refresh => fmRefresh V s
  | .key c rows => fmKey V s c rows
  | .inputCodepoint cp => fmInputCodepoint s cp
  | .inputSubmit => fmInputSubmit V s
  | .inputCancel => fmInputCancel s
  | .setActive i => fmSetActive s i
  | .paneSetSel i sel => fmPaneSetSel s i sel
  | .paneScrollBy i delta rows => fmPaneScrollBy s i delta rows
  | .activate => fmEnter V s
  | .goUp => fmUpdir V s
  | .nextVolume => fmNextVolume V s
  | .doCopy => fmCopy V s
  | .askDelete => fmDeleteAsk V s
  | .askRename => fmAskRename V s
  | .askMkdir => fmAskMkdir V s
  | .confirmYes => fmConfirmYes V s
  | .confirmNo => fmConfirmNo s
  | .closeView => fmCloseView s
  | .viewScrollBy d => fmViewScrollBy s d
  | .vfsChanged vfs => { s with vfs := vfs }

def emptyPane : Pane :=
  ⟨[], [], 0, 0, false, 0, 0⟩

/- The variables before the first call. -/
def start (vfs : σ) : Fm σ where
  vfs := vfs
  panes := fun _ => emptyPane
  paneNamespace := fun _ => 0
  active := .left
  inited := false
  listingEpoch := 0
  view := ⟨false, [], [], 0, false⟩
  confirm := false
  confirmArg := []
  confirmNamespace := 0
  confirmListing := 0
  confirmPane := .left
  inputMode := none
  input := []
  inputDir := []
  inputFrom := []
  inputListing := 0
  inputNamespace := 0
  inputPane := .left
  inputReplace := false
  loads := 0
  log := []

/- The states that calls lead to. -/
inductive Reach : Fm σ → Prop where
  | start (vfs : σ) : Reach (start vfs)
  | step
      {s : Fm σ}
      (hReach : Reach s)
      (call : FmCall σ) :
      Reach (step V s call)

end KvantOS.FileManager
