import KvantOS.Kvfs.Saving
import KvantOS.Kvfs.ToolImage

/-
  This file proves that the host tool and the kernel place
  files alike, and that a file added by the tool is stored
  as the kernel would store it.

  Key definitions include:
    * `toolExtents`, `SameDirectory`, `Placed`
    * `Stores`

  Key theorems include:
    * `findSpace_agrees`, `toolDirent_newEntry`
    * `placed_of_add`, `Placed.stores`
-/

namespace KvantOS.Kvfs

--
-- The Search of the Tool
--

/- The extent of an entry of the tool. -/
def ToolEntry.extent (e : ToolEntry) : Extent where
  start := e.start
  length := e.sectors

/- The extents of the tool's entries. -/
def toolExtents (tool : Tool) : List Extent :=
  ((List.finRange 64).map tool.entries).filterMap
    fun entry => entry.map ToolEntry.extent

/- What a round of the tool knows: the furthest end. -/
def ToolScanIs
    (scan : Bool × Nat)
    (next : Option Nat) : Prop :=
  scan = (next.isSome, next.getD 0)

theorem foldl_toolSpaceStep
    {candidate need : Nat}
    (entries : List (Option ToolEntry))
    {scan : Bool × Nat}
    {next : Option Nat}
    (hScan : ToolScanIs scan next) :
    ToolScanIs
      (entries.foldl (Tool.spaceStep candidate need) scan)
      ((entries.filterMap fun entry =>
        entry.map ToolEntry.extent).foldl
          (skipStep candidate need) next) := by
  induction entries generalizing scan next with
  | nil => exact hScan
  | cons entry rest ih =>
      cases entry with
      | none => exact ih hScan
      | some e =>
          apply ih
          rw [hScan]
          unfold Tool.spaceStep skipStep
          by_cases hWay : e.extent.Meets candidate need
          · rw [if_pos hWay]
            exact if_pos hWay
          · rw [if_neg hWay]
            exact if_neg hWay

/- The rounds of the tool are those of first fit. -/
theorem findSpaceFrom_eq
    (tool : Tool)
    (need rounds candidate : Nat) :
    (tool.findSpaceFrom need rounds candidate).toOption =
      (firstFit (toolExtents tool) need rounds
        candidate).filter
          fun place => place + need ≤ tool.total := by
  induction rounds generalizing candidate with
  | zero => rfl
  | succ rounds ih =>
      rw [Tool.findSpaceFrom, firstFit]
      have hScan : ToolScanIs
          (((List.finRange 64).map tool.entries).foldl
            (Tool.spaceStep candidate need) (false, 0))
          (skipTo (toolExtents tool) candidate need) :=
        foldl_toolSpaceStep _ rfl
      rw [hScan]
      cases skipTo (toolExtents tool) candidate need with
      | none =>
          simp only [Option.isSome_none, Bool.not_false,
            if_true]
          rw [Option.filter_some]
          by_cases hRoom : candidate + need ≤ tool.total
          · rw [if_neg (Nat.not_lt.mpr hRoom),
              if_pos (decide_eq_true hRoom)]
            rfl
          · rw [if_pos (Nat.lt_of_not_le hRoom), if_neg]
            · rfl
            · simpa using hRoom
      | some next =>
          simp only [Option.isSome_some, Bool.not_true,
            Bool.false_eq_true, if_false]
          exact ih next

theorem toOption_findSpace
    (tool : Tool)
    (need : Nat) :
    (tool.findSpace need).toOption =
      placeFor (toolExtents tool) tool.total need :=
  findSpaceFrom_eq tool need _ _

--
-- Agreement with the Kernel
--

/-
  The tool and the kernel hold directories with the same
  extents in the same slots.
-/
structure SameDirectory
    (tool : Tool)
    (fs : Fs) : Prop where
  total : tool.total = fs.super.totalSectors.toNat
  data : fs.super.dataStart = dataStart
  valid : DirOk fs.super.totalSectors.toNat fs.dir
  slots : ∀ i, (tool.entries i).map ToolEntry.extent =
    if (fs.dir i).live then
      some (extentOf (fs.dir i))
    else
      none

/- The extents in use, slot by slot. -/
theorem extents_eq_filterMap (dir : Dir) :
    extents dir = (List.finRange 64).filterMap fun i =>
      if (dir i).live then
        some (extentOf (dir i))
      else
        none := by
  unfold extents extentsOf
  induction List.finRange 64 with
  | nil => rfl
  | cons i rest ih =>
      by_cases hLive : (dir i).live
      · rw [List.filter_cons_of_pos (by simpa using hLive),
          List.map_cons, ih, List.filterMap_cons_some]
        exact if_pos hLive
      · rw [List.filter_cons_of_neg (by simpa using hLive),
          ih, List.filterMap_cons_none]
        exact if_neg hLive

/- Equal slots have equal extents in use. -/
theorem toolExtents_eq
    {tool : Tool}
    {dir : Dir}
    (hSlots : ∀ i, (tool.entries i).map ToolEntry.extent =
      if (dir i).live then
        some (extentOf (dir i))
      else
        none) :
    toolExtents tool = extents dir := by
  rw [extents_eq_filterMap, toolExtents,
    List.filterMap_map]
  congr 1
  funext i
  exact hSlots i

/-
  Over the same directory the kernel finds the place that
  the tool finds, and 0 where the tool stops.
-/
theorem findSpace_agrees
    {tool : Tool}
    {fs : Fs}
    (hSame : SameDirectory tool fs)
    (need : UInt32) :
    (findSpace fs need).toNat =
      (tool.findSpace need.toNat).toOption.getD 0 := by
  rw [toNat_findSpace hSame.valid hSame.data,
    toOption_findSpace, toolExtents_eq hSame.slots,
    hSame.total]

--
-- Entries of the Tool
--

/- The stored form of a host name. -/
def FileName.key (name : FileName) : CStr where
  bytes := Utf8.encode name.text
  noNul := fun hMem =>
    name.noNul (Utf8.zero_mem_encode.mp hMem)

theorem FileName.key_ne_nil (name : FileName) :
    name.key.length ≠ 0 := by
  intro hLength
  have hNil := List.length_eq_zero_iff.mp hLength
  apply name.nonempty
  apply Utf8.encode_injective
  rw [show Utf8.encode name.text = [] from hNil]
  rfl

theorem toolFlags_eq :
    ∀ isExec, UInt32.ofNat (1 ||| (if isExec then 2 else 0)) =
      savedFlags isExec := by
  decide

theorem toolSectors_eq
    {size : Nat}
    (hSmall : size < 2 ^ 31) :
    UInt32.ofNat (Tool.sectorsFor size) =
      saveSectors (.ofNat size) := by
  apply UInt32.toNat_inj.mp
  rw [toNat_saveSectors, UInt32.toNat_ofNat',
    UInt32.toNat_ofNat',
    Nat.mod_eq_of_lt (show size < 2 ^ 32 by omega)]
  unfold Tool.sectorsFor
  omega

/- The tool stores an entry as the kernel would. -/
theorem toolDirent_newEntry
    {name : FileName}
    {data : List UInt8}
    {isExec : Bool}
    {start : Nat}
    (hLength : name.key.length < 40)
    (hSmall : data.length < 2 ^ 31) :
    toolDirent (some (Tool.newEntry name.text data isExec
      start)) =
        savedEntry name.key (.ofNat start)
          (.ofNat data.length) isExec := by
  have hStored : Tool.storedName name.text =
      name.key.bytes :=
    List.take_of_length_le (by
      unfold CStr.length at hLength
      exact Nat.le_of_lt_succ hLength)
  apply Dirent.ext
  · funext i
    change (Tool.storedName name.text).getD i 0 =
      name.key.toBuffer 40 i
    rw [hStored]
    unfold CStr.toBuffer
    by_cases hIn : i.val + 1 < 40
    · rw [if_pos hIn]
    · rw [if_neg hIn]
      apply List.getD_eq_default
      unfold CStr.length at hLength
      omega
  · rfl
  · exact toolSectors_eq hSmall
  · rfl
  · exact toolFlags_eq isExec
  · rfl
  · rfl

--
-- Added Files
--

/- How a call of `add` that returns has gone. -/
structure Placed
    (tool : Tool)
    (im : Image)
    (name : List Char)
    (data : List UInt8)
    (isExec : Bool)
    (slot : Fin 64)
    (start : Nat)
    (tool' : Tool)
    (im' : Image) : Prop where
  length : (Utf8.encode name).length < 40
  free : (tool.without name).entries slot = none
  place : placeFor (toolExtents (tool.without name))
    tool.total (Tool.sectorsFor data.length) = some start
  result : tool' = (tool.without name).withEntry slot
    (Tool.newEntry name data isExec start)
  flushed : Flushed tool'
    (im.write (start * 512) (Tool.padded data)) im'

theorem placed_of_add
    {tool tool' : Tool}
    {im im' : Image}
    {name : List Char}
    {data : List UInt8}
    {isExec : Bool}
    (hAdd : tool.add im name data isExec =
      .ok (tool', im')) :
    ∃ slot start, Placed tool im name data isExec slot
      start tool' im' := by
  unfold Tool.add at hAdd
  split at hAdd
  · cases hAdd
  next hLength =>
  simp only at hAdd
  cases hSlot : (tool.without name).freeSlot with
  | none => rw [hSlot] at hAdd; cases hAdd
  | some slot =>
  cases hStart : (tool.without name).findSpace
      (Tool.sectorsFor data.length) with
  | error stop =>
      simp only [hSlot, hStart] at hAdd
      cases hAdd
  | ok start =>
  cases hFlush : ((tool.without name).withEntry slot
      (Tool.newEntry name data isExec start)).flush
      (im.write (start * 512) (Tool.padded data)) with
  | error stop =>
      simp only [hSlot, hStart] at hAdd
      change (Tool.flush _ _ >>= _) = _ at hAdd
      rw [hFlush] at hAdd
      cases hAdd
  | ok after =>
      simp only [hSlot, hStart] at hAdd
      change (Tool.flush _ _ >>= _) = _ at hAdd
      rw [hFlush] at hAdd
      cases hAdd
      refine ⟨slot, start, Nat.lt_of_not_le hLength, ?_, ?_,
        rfl, flushed_of_flush hFlush⟩
      · have hNone := List.find?_some hSlot
        simpa using hNone
      · have hPlace := toOption_findSpace
          (tool.without name) (Tool.sectorsFor data.length)
        rw [hStart] at hPlace
        exact hPlace.symm

theorem length_padded (data : List UInt8) :
    (Tool.padded data).length =
      Tool.sectorsFor data.length * 512 := by
  unfold Tool.padded Tool.sectorsFor
  rw [List.length_append, List.length_replicate]
  omega

/- The body that the tool writes is read back. -/
theorem fileOf_padded
    {disk : Nat → Sector}
    {im : Image}
    {key : CStr}
    {data : List UInt8}
    {isExec : Bool}
    {start : Nat}
    (hStart : start < 2 ^ 32)
    (hSmall : data.length < 2 ^ 31)
    (hDisk : ∀ lba, start ≤ lba →
      lba < start + Tool.sectorsFor data.length →
      disk lba = (im.write (start * 512)
        (Tool.padded data)).disk lba) :
    fileOf disk (savedEntry key (.ofNat start)
      (.ofNat data.length) isExec) = ⟨data, isExec⟩ := by
  have hSize : (UInt32.ofNat data.length).toNat =
      data.length := by
    rw [UInt32.toNat_ofNat']
    exact Nat.mod_eq_of_lt (by omega)
  have hStartNat : (UInt32.ofNat start).toNat = start := by
    rw [UInt32.toNat_ofNat']
    exact Nat.mod_eq_of_lt hStart
  have hPadded := length_padded data
  apply File.ext
  · change (List.range (UInt32.ofNat data.length).toNat).map
      (bodyByte disk (UInt32.ofNat start).toNat) = data
    rw [hSize, hStartNat]
    apply List.ext_getElem
    · simp
    · intro i hi hi'
      have hIn : i / 512 < Tool.sectorsFor data.length := by
        unfold Tool.sectorsFor
        omega
      have hOffset : (start + i / 512 - start) * 512 +
          i % 512 = i := by
        omega
      rw [List.getElem_map, List.getElem_range]
      unfold bodyByte
      rw [hDisk _ (Nat.le_add_right ..) (by omega),
        Image.disk_write_inside (Nat.le_add_right ..)
          (by rw [hPadded]; omega)
          (Nat.mod_lt _ (by decide)), hOffset]
      unfold Tool.padded
      rw [List.getD_append _ _ _ _ hi']
      exact List.getD_eq_getElem _ _ hi'
  · exact (savedFlags_spec isExec).2.1

namespace Placed

variable {tool tool' : Tool} {im im' : Image}
variable {name : FileName} {data : List UInt8}
variable {isExec : Bool} {slot : Fin 64} {start : Nat}

/- The place lies inside the file system, and is free. -/
theorem spec
    (hPlaced : Placed tool im name.text data isExec slot
      start tool' im') :
    2057 ≤ start ∧
      start + Tool.sectorsFor data.length ≤ tool.total ∧
      Fits (toolExtents (tool.without name.text)) start
        (Tool.sectorsFor data.length) :=
  placeFor_spec hPlaced.place

theorem total_eq
    (hPlaced : Placed tool im name.text data isExec slot
      start tool' im') :
    tool'.total = tool.total := by
  rw [hPlaced.result]
  rfl

theorem total_lt
    (hPlaced : Placed tool im name.text data isExec slot
      start tool' im') :
    tool.total < 2 ^ 32 := by
  rw [← hPlaced.total_eq]
  exact hPlaced.flushed.total

/- The directory with the added entry. -/
theorem toolDir_eq
    (hPlaced : Placed tool im name.text data isExec slot
      start tool' im') :
    toolDir tool' =
      Function.update (toolDir (tool.without name.text))
        slot (toolDirent (some (Tool.newEntry name.text data
          isExec start))) := by
  rw [hPlaced.result]
  funext i
  change toolDirent (Function.update
    (tool.without name.text).entries slot _ i) = _
  by_cases hEq : i = slot
  · rw [hEq, Function.update_self, Function.update_self]
  · rw [Function.update_of_ne hEq,
      Function.update_of_ne hEq]
    rfl

/- The entries that were kept fit their fields. -/
theorem packs
    (hPlaced : Placed tool im name.text data isExec slot
      start tool' im')
    {i : Fin 64}
    {e : ToolEntry}
    (hEntry : (tool.without name.text).entries i = some e) :
    Packs e := by
  apply hPlaced.flushed.packs i
  rw [hPlaced.result]
  change Function.update
    (tool.without name.text).entries slot _ i = some e
  rw [Function.update_of_ne]
  · exact hEntry
  · rintro rfl
    rw [hPlaced.free] at hEntry
    cases hEntry

end Placed

/- The extent that the kernel reads from an entry. -/
theorem extentOf_toolDirent
    {e : ToolEntry}
    (hPacks : Packs e) :
    extentOf (toolDirent (some e)) = e.extent := by
  have hStart : (UInt32.ofNat e.start).toNat = e.start := by
    rw [UInt32.toNat_ofNat']
    exact Nat.mod_eq_of_lt hPacks.start
  have hSectors :
      (UInt32.ofNat e.sectors).toNat = e.sectors := by
    rw [UInt32.toNat_ofNat']
    exact Nat.mod_eq_of_lt hPacks.sectors
  unfold extentOf toolDirent ToolEntry.extent
  rw [hStart, hSectors]

/- Every entry of the tool is in use, and fits its fields. -/
structure Lives (tool : Tool) : Prop where
  packs : ∀ i e, tool.entries i = some e → Packs e
  live : ∀ i e, tool.entries i = some e →
    (toolDirent (some e)).live

namespace Lives

variable {tool : Tool}

theorem live_iff
    (hLives : Lives tool)
    (i : Fin 64) :
    (toolDir tool i).live ↔ (tool.entries i).isSome := by
  unfold toolDir
  cases hEntry : tool.entries i with
  | none =>
      constructor
      · exact fun hLive => absurd hLive not_live_zero
      · intro hSome
        cases hSome
  | some e => exact ⟨fun _ => rfl, fun _ =>
      hLives.live i e hEntry⟩

/- The tool and the kernel see the same extents. -/
theorem slots
    (hLives : Lives tool)
    (i : Fin 64) :
    (tool.entries i).map ToolEntry.extent =
      if (toolDir tool i).live then
        some (extentOf (toolDir tool i))
      else
        none := by
  cases hEntry : tool.entries i with
  | none =>
      rw [if_neg]
      · rfl
      · rw [hLives.live_iff, hEntry]
        simp
  | some e =>
      rw [if_pos]
      · rw [toolDir, hEntry,
          extentOf_toolDirent (hLives.packs i e hEntry)]
        rfl
      · rw [hLives.live_iff, hEntry]
        rfl

end Lives

--
-- The Files of the Tool
--

/-
  The directory of the tool passes the checks of mounting,
  and stores the files over a disk.
-/
structure Stores
    (tool : Tool)
    (disk : Nat → Sector)
    (files : FileMap) : Prop where
  dir : DirOk tool.total (toolDir tool)
  lives : Lives tool
  map : fileMap (toolDir tool) disk = files

namespace Placed

variable {tool tool' : Tool} {im im' : Image}
variable {name : FileName} {data : List UInt8}
variable {isExec : Bool} {slot : Fin 64} {start : Nat}
variable {files : FileMap}

/- The added entry is the one that the kernel would save. -/
theorem toolDir_saved
    (hPlaced : Placed tool im name.text data isExec slot
      start tool' im')
    (hSmall : data.length < 2 ^ 31) :
    toolDir tool' =
      Function.update (toolDir (tool.without name.text))
        slot (savedEntry name.key (.ofNat start)
          (.ofNat data.length) isExec) := by
  rw [hPlaced.toolDir_eq,
    toolDirent_newEntry hPlaced.length hSmall]

/- Outside the service areas only the body was written. -/
theorem disk_eq
    (hPlaced : Placed tool im name.text data isExec slot
      start tool' im')
    {lba : Nat}
    (hOut : lba < 2048 ∨ 2057 ≤ lba)
    (hBody : lba < start ∨
      start + Tool.sectorsFor data.length ≤ lba) :
    im'.disk lba = im.disk lba := by
  rw [hPlaced.flushed.outside lba hOut]
  apply Image.disk_write_outside
  rw [length_padded]
  omega

/- Adding binds the name, and leaves the other files. -/
theorem stores
    (hPlaced : Placed tool im name.text data isExec slot
      start tool' im')
    (hSmall : data.length < 2 ^ 31)
    (hKept : Stores (tool.without name.text) im.disk files)
    (hFree : files name.key = none) :
    Stores tool' im'.disk
      (Function.update files name.key
        (some ⟨data, isExec⟩)) := by
  rcases hPlaced.spec with ⟨hLow, hHigh, hFits⟩
  have hTotal := hPlaced.total_lt
  have hDir := hPlaced.toolDir_saved hSmall
  have hSize : (UInt32.ofNat data.length).toNat =
      data.length := by
    rw [UInt32.toNat_ofNat']
    exact Nat.mod_eq_of_lt (by omega)
  have hStart : (UInt32.ofNat start).toNat = start := by
    rw [UInt32.toNat_ofNat']
    exact Nat.mod_eq_of_lt (by omega)
  have hSectors :
      (saveSectors (.ofNat data.length)).toNat =
        Tool.sectorsFor data.length := by
    rw [toNat_saveSectors, hSize]
    unfold Tool.sectorsFor
    omega
  have hLive := savedEntry_live name.key (.ofNat start)
    (.ofNat data.length) isExec
  have hName : (savedEntry name.key (.ofNat start)
      (.ofNat data.length) isExec).nameOf = name.key :=
    CStr.ofBuffer_toBuffer hPlaced.length
  have hFile : fileOf im'.disk (savedEntry name.key
      (.ofNat start) (.ofNat data.length) isExec) =
        ⟨data, isExec⟩ := by
    apply fileOf_padded (by omega) hSmall
    intro lba hFrom _
    exact hPlaced.flushed.outside lba (.inr (by omega))
  have hEmpty :
      ¬(toolDir (tool.without name.text) slot).live := by
    rw [hKept.lives.live_iff, hPlaced.free]
    simp
  have hUnbound :
      SlotMap.Represents
        (slots (toolDir (tool.without name.text)) im.disk)
        files := by
    rw [← hKept.map]
    exact hKept.dir.represents im.disk
  have hOk : DirOk tool.total (toolDir tool') := by
    rw [hDir]
    apply hKept.dir.set
    · apply entryOk_savedEntry name.key_ne_nil
        hPlaced.length
      · rw [hStart]
        exact hLow
      · rw [hStart, hSectors]
        exact hHigh
      · rw [hSize]
        exact hSmall
    · intro i _ hOther hSame
      apply hUnbound.none_iff.mp hFree i
      rw [slots_live hOther, hSame, hName]
    · intro i _ hOther
      have hApart := hFits
        (extentOf (toolDir (tool.without name.text) i))
        (by
          rw [toolExtents_eq hKept.lives.slots]
          exact mem_extents.mpr ⟨i, hOther, rfl⟩)
      change ¬Extent.Meets _ (UInt32.ofNat start).toNat
        (saveSectors (.ofNat data.length)).toNat
      rw [hStart, hSectors]
      exact hApart
  -- the bodies of the other files are not touched
  have hOthers :
      fileMap (toolDir (tool.without name.text)) im'.disk =
        files := by
    rw [← hKept.map]
    apply fileMap_congr hKept.dir
    intro i hOther lba hFrom hUpTo
    have hApart := hFits
      (extentOf (toolDir (tool.without name.text) i))
      (by
        rw [toolExtents_eq hKept.lives.slots]
        exact mem_extents.mpr ⟨i, hOther, rfl⟩)
    have hData := (hKept.dir.entry i hOther).low
    apply hPlaced.disk_eq (.inr (by omega))
    by_contra hInside
    apply hApart
    exact ⟨by omega, by
      change UInt32.toNat _ < _
      omega⟩
  refine
    { dir := by
        rw [hPlaced.total_eq]
        exact hOk
      lives := ?_
      map := ?_ }
  · refine ⟨hPlaced.flushed.packs, ?_⟩
    intro i e hEntry
    rw [hPlaced.result] at hEntry
    change Function.update (tool.without name.text).entries
      slot _ i = some e at hEntry
    by_cases hEq : i = slot
    · rw [hEq, Function.update_self] at hEntry
      injection hEntry with hEntry
      rw [← hEntry,
        toolDirent_newEntry hPlaced.length hSmall]
      exact hLive
    · rw [Function.update_of_ne hEq] at hEntry
      exact hKept.lives.live i e hEntry
  · apply (hOk.represents im'.disk).unique
    rw [hDir, slots_update_live hLive, hName, hFile]
    have hBefore := hKept.dir.represents im'.disk
    rw [hOthers] at hBefore
    exact hBefore.fill (slots_free hEmpty) hFree _

end Placed

end KvantOS.Kvfs
