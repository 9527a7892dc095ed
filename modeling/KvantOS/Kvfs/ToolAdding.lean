import KvantOS.Kvfs.ToolAgreement

/-
  This file proves when adding a file with the host tool
  keeps the files of an image that the kernel has written:
  exactly when decoding and encoding again keeps their names.

  Key definitions include:
    * `loaded`, `Loads`

  Key theorems include:
    * `loads_of_accepted`, `Loads.stores`
    * `toolAdd_keeps_iff`
-/

namespace KvantOS.Kvfs

--
-- Loading an Image
--

/- The 64 bytes of an entry, in the image. -/
def rawEntry
    (im : Image)
    (i : Fin 64) : Buf :=
  (im.bytes.drop (dirSector.toNat * 512)).drop (i.val * 64)

/- The kernel reads an entry from the same bytes. -/
theorem diskDir_image
    (im : Image)
    (i : Fin 64) :
    diskDir im.disk i = .ofBytes (rawEntry im i) := by
  have hi := i.isLt
  apply Dirent.ofBytes_congr
  intro j hj
  have hIn : i.val % 8 * 64 + j < 512 := by omega
  have hSector : groupSector i = 2049 + i.val / 8 := rfl
  have hOffset : (2049 + i.val / 8) * 512 +
      (i.val % 8 * 64 + j) =
        2049 * 512 + (i.val * 64 + j) := by
    omega
  change (im.disk (groupSector i)).toBuf
    (i.val % 8 * 64 + j) = _
  rw [Image.disk_byte im _ hIn, hSector, hOffset]
  rfl

/- The entry of the tool for one of the kernel's. -/
def loaded (e : Dirent) : ToolEntry where
  name := Utf8.decode e.nameOf.bytes
  start := e.start.toNat
  sectors := e.sectors.toNat
  size := e.size.toNat
  flags := e.flags.toNat

theorem toNat_field32
    (bytes : Buf)
    (off : Nat) :
    (field32 bytes off).toNat = Tool.unpack bytes off := by
  unfold field32 Tool.unpack
  rw [UInt32.toNat_ofNat']
  exact Nat.mod_eq_of_lt (Buf.get32_lt ..)

/- Loading decodes the entries in use. -/
theorem loadEntry_eq (chunk : Buf) :
    Tool.loadEntry chunk =
      if (Dirent.ofBytes chunk).live then
        some (loaded (.ofBytes chunk))
      else
        none := by
  have hLive : Tool.unpack chunk 52 &&& 1 ≠ 0 ↔
      (Dirent.ofBytes chunk).live := by
    unfold Dirent.live
    rw [← toNat_field32, not_iff_not, ← UInt32.toNat_inj,
      UInt32.toNat_and]
    rfl
  have hName : (chunk.toList 40).takeWhile
      (fun b => b != 0) =
        (Dirent.ofBytes chunk).nameOf.bytes := by
    have hList : chunk.toList 40 =
        List.ofFn fun i : Fin 40 => chunk i := by
      apply List.ext_getElem
      · simp [Buf.toList]
      · intro i _ _
        simp only [Buf.toList, List.getElem_map,
          List.getElem_range, List.getElem_ofFn]
    rw [hList]
    rfl
  unfold Tool.loadEntry
  simp only
  by_cases hUsed : Tool.unpack chunk 52 &&& 1 ≠ 0
  · rw [if_pos hUsed, if_pos (hLive.mp hUsed), hName]
    simp only [← toNat_field32]
    rfl
  · rw [if_neg hUsed, if_neg (fun h => hUsed (hLive.mpr h))]

/- The tool holds what it has loaded from an image. -/
structure Loads
    (im : Image)
    (tool : Tool) : Prop where
  total : tool.total =
    (diskSuper im.ata).totalSectors.toNat
  entries : ∀ i, tool.entries i =
    if (diskDir im.disk i).live then
      some (loaded (diskDir im.disk i))
    else
      none

/- An image that mounts is long enough for its files. -/
theorem Accepted.image_length
    {im : Image}
    (hAccepted : Accepted im.ata) :
    (diskSuper im.ata).totalSectors.toNat ≤
      im.length / 512 := by
  refine Nat.le_trans hAccepted.total.2 ?_
  change (UInt32.ofNat (im.length / 512)).toNat ≤ _
  rw [UInt32.toNat_ofNat']
  exact Nat.mod_le ..

/- Every image that mounts is loaded. -/
theorem loads_of_accepted
    {im : Image}
    (hAccepted : Accepted im.ata) :
    ∃ tool, Tool.load im = .ok tool ∧ Loads im tool := by
  have hLength := hAccepted.image_length
  have hLow := hAccepted.total.1
  have hBase : kvfsBase.toNat = 2048 := rfl
  have hData : dataStart.toNat = 2057 := rfl
  have hField : ∀ off, off + 4 ≤ 512 →
      Tool.unpack (im.bytes.drop (kvfsBase.toNat * 512))
        off = (field32 (im.disk kvfsBase.toNat).toBuf
          off).toNat := by
    intro off hOff
    rw [toNat_field32]
    exact (Buf.get32_toSector hOff).symm
  have hMagic : Tool.unpack
      (im.bytes.drop (kvfsBase.toNat * 512)) 0 =
        kvfsMagic.toNat := by
    rw [hField 0 (by decide)]
    exact congrArg UInt32.toNat hAccepted.magic
  have hVersion : Tool.unpack
      (im.bytes.drop (kvfsBase.toNat * 512)) 4 =
        kvfsVersion.toNat := by
    rw [hField 4 (by decide)]
    exact congrArg UInt32.toNat hAccepted.version
  refine
    ⟨{ total := Tool.unpack
          (im.bytes.drop (kvfsBase.toNat * 512)) 8
       entries := fun i =>
        Tool.loadEntry (rawEntry im i) },
      ?_, ⟨hField 8 (by decide), ?_⟩⟩
  · unfold Tool.load
    simp only
    rw [if_neg (by rw [hBase]; omega),
      if_neg (not_not.mpr hMagic),
      if_neg (not_not.mpr hVersion),
      if_neg (by rw [hData]; omega)]
    rfl
  · intro i
    rw [diskDir_image]
    exact loadEntry_eq _

--
-- Loaded Entries
--

section Entries

variable (e : Dirent)

theorem toolDirent_loaded_start :
    (toolDirent (some (loaded e))).start = e.start :=
  UInt32.ofNat_toNat

theorem toolDirent_loaded_sectors :
    (toolDirent (some (loaded e))).sectors = e.sectors :=
  UInt32.ofNat_toNat

theorem toolDirent_loaded_size :
    (toolDirent (some (loaded e))).size = e.size :=
  UInt32.ofNat_toNat

theorem toolDirent_loaded_flags :
    (toolDirent (some (loaded e))).flags = e.flags :=
  UInt32.ofNat_toNat

theorem toolDirent_loaded_live :
    (toolDirent (some (loaded e))).live ↔ e.live := by
  unfold Dirent.live
  rw [toolDirent_loaded_flags]

theorem extentOf_toolDirent_loaded :
    extentOf (toolDirent (some (loaded e))) =
      extentOf e := by
  unfold extentOf
  rw [toolDirent_loaded_start, toolDirent_loaded_sectors]

theorem fileOf_toolDirent_loaded
    (disk : Nat → Sector) :
    fileOf disk (toolDirent (some (loaded e))) =
      fileOf disk e := by
  unfold fileOf Dirent.isExec
  rw [toolDirent_loaded_start, toolDirent_loaded_size,
    toolDirent_loaded_flags]

/- The name is decoded, encoded again and cut. -/
theorem nameOf_toolDirent_loaded :
    (toolDirent (some (loaded e))).nameOf.bytes =
      Utf8.recode 39 e.nameOf.bytes := by
  have hNul : 0 ∉ Utf8.recode 39 e.nameOf.bytes := by
    intro hMem
    exact e.nameOf.noNul (Utf8.zero_mem_decode
      (Utf8.zero_mem_encode.mp
        (List.mem_of_mem_take hMem)))
  have hName : (toolDirent (some (loaded e))).nameOf =
      ⟨Utf8.recode 39 e.nameOf.bytes, hNul⟩ := by
    apply CStr.ofBuffer_eq
    · exact Nat.lt_succ_of_le (List.length_take_le ..)
    · intro i _
      rfl
  rw [hName]

/- A stored name always ends within its field. -/
theorem terminated_toolDirent
    (e : ToolEntry) :
    CStr.Terminated (toolDirent (some e)).name := by
  refine ⟨⟨39, by decide⟩, ?_⟩
  exact List.getD_eq_default _ _ (length_storedName e.name)

/- A sound entry stays sound when its name is kept. -/
theorem EntryOk.loaded
    {e : Dirent}
    {total : Nat}
    (hOk : EntryOk total e)
    (hName : (toolDirent (some (loaded e))).nameOf =
      e.nameOf) :
    EntryOk total (toolDirent (some (loaded e))) where
  terminated := terminated_toolDirent _
  named := by
    rw [hName]
    exact hOk.named
  flags := by
    rw [toolDirent_loaded_flags]
    exact hOk.flags
  nonempty := by
    rw [toolDirent_loaded_sectors]
    exact hOk.nonempty
  low := by
    rw [toolDirent_loaded_start]
    exact hOk.low
  high := by
    rw [extentOf_toolDirent_loaded]
    exact hOk.high
  fits := by
    rw [toolDirent_loaded_size, toolDirent_loaded_sectors]
    exact hOk.fits
  small := by
    rw [toolDirent_loaded_size]
    exact hOk.small

end Entries

/- Decoding and encoding keeps every name of a directory. -/
def NamesStable (dir : Dir) : Prop :=
  ∀ i, (dir i).live →
    Utf8.Stable 39 (dir i).nameOf.bytes

section Loads

variable {im : Image} {tool : Tool}

theorem Loads.toolDir_live
    (hLoads : Loads im tool)
    {i : Fin 64}
    (hLive : (diskDir im.disk i).live) :
    toolDir tool i =
      toolDirent (some (loaded (diskDir im.disk i))) := by
  unfold toolDir
  rw [hLoads.entries, if_pos hLive]

theorem Loads.toolDir_free
    (hLoads : Loads im tool)
    {i : Fin 64}
    (hFree : ¬(diskDir im.disk i).live) :
    toolDir tool i = .zero := by
  unfold toolDir
  rw [hLoads.entries, if_neg hFree]
  rfl

theorem Loads.live_iff
    (hLoads : Loads im tool)
    (i : Fin 64) :
    (toolDir tool i).live ↔ (diskDir im.disk i).live := by
  by_cases hLive : (diskDir im.disk i).live
  · rw [hLoads.toolDir_live hLive, toolDirent_loaded_live]
  · rw [hLoads.toolDir_free hLive]
    exact ⟨fun h => absurd h not_live_zero,
      fun h => absurd h hLive⟩

/- The loaded entries are in use, and fit their fields. -/
theorem Loads.lives
    (hLoads : Loads im tool) :
    Lives tool := by
  have hEntry : ∀ i e, tool.entries i = some e →
      (diskDir im.disk i).live ∧
        loaded (diskDir im.disk i) = e := by
    intro i e hSome
    rw [hLoads.entries] at hSome
    split at hSome
    · next hLive =>
        injection hSome with hSome
        exact ⟨hLive, hSome⟩
    · cases hSome
  constructor
  · intro i e hSome
    rcases hEntry i e hSome with ⟨-, rfl⟩
    exact
      { start := UInt32.toNat_lt _
        sectors := UInt32.toNat_lt _
        size := UInt32.toNat_lt _
        flags := UInt32.toNat_lt _ }
  · intro i e hSome
    rcases hEntry i e hSome with ⟨hLive, rfl⟩
    exact (toolDirent_loaded_live _).mpr hLive

/- With stable names the tool stores the same files. -/
theorem Loads.stores
    (hLoads : Loads im tool)
    (hAccepted : Accepted im.ata)
    (hStable : NamesStable (diskDir im.disk)) :
    Stores tool im.disk (diskMap im.ata) := by
  have hOld : DirOk
      (diskSuper im.ata).totalSectors.toNat
      (diskDir im.disk) :=
    hAccepted.dir
  have hName : ∀ i, (diskDir im.disk i).live →
      (toolDir tool i).nameOf =
        (diskDir im.disk i).nameOf := by
    intro i hLive
    have hLength := CStr.length_ofBuffer_lt
      (hOld.entry i hLive).terminated
    apply CStr.ext
    rw [hLoads.toolDir_live hLive,
      nameOf_toolDirent_loaded]
    exact (Utf8.recode_eq_iff
      (Nat.le_of_lt_succ hLength)).mpr (hStable i hLive)
  have hExtent : ∀ i, (diskDir im.disk i).live →
      extentOf (toolDir tool i) =
        extentOf (diskDir im.disk i) := by
    intro i hLive
    rw [hLoads.toolDir_live hLive,
      extentOf_toolDirent_loaded]
  have hOk : DirOk tool.total (toolDir tool) := by
    rw [hLoads.total]
    refine ⟨?_, ?_, ?_⟩
    · intro i hLive
      have hLive := (hLoads.live_iff i).mp hLive
      have hSame := hName i hLive
      rw [hLoads.toolDir_live hLive] at hSame ⊢
      exact (hOld.entry i hLive).loaded hSame
    · intro i j hI hJ hSame
      have hI := (hLoads.live_iff i).mp hI
      have hJ := (hLoads.live_iff j).mp hJ
      rw [hName i hI, hName j hJ] at hSame
      exact hOld.names i j hI hJ hSame
    · intro i j hI hJ hNe
      have hI := (hLoads.live_iff i).mp hI
      have hJ := (hLoads.live_iff j).mp hJ
      rw [hExtent i hI, hExtent j hJ]
      exact hOld.disjoint i j hI hJ hNe
  have hSlots : slots (toolDir tool) im.disk =
      slots (diskDir im.disk) im.disk := by
    funext i
    by_cases hLive : (diskDir im.disk i).live
    · rw [slots_live hLive,
        slots_live ((hLoads.live_iff i).mpr hLive),
        hName i hLive, hLoads.toolDir_live hLive,
        fileOf_toolDirent_loaded]
    · rw [slots_free hLive, slots_free
        (fun h => hLive ((hLoads.live_iff i).mp h))]
  refine ⟨hOk, hLoads.lives, ?_⟩
  apply (hOk.represents im.disk).unique
  rw [hSlots]
  exact hOld.represents im.disk

/- A stable name that decodes to a text is its encoding. -/
theorem Loads.fresh
    (hLoads : Loads im tool)
    (hAccepted : Accepted im.ata)
    (hStable : NamesStable (diskDir im.disk))
    {name : FileName}
    (hLength : name.key.length < 40)
    (hFree : diskMap im.ata name.key = none) :
    tool.without name.text = tool := by
  have hOld : DirOk
      (diskSuper im.ata).totalSectors.toNat
      (diskDir im.disk) :=
    hAccepted.dir
  apply without_of_fresh
  intro i e hEntry hText
  rw [hLoads.entries] at hEntry
  split at hEntry
  · next hLive =>
      injection hEntry with hEntry
      have hBytes : Utf8.recode 39
          (diskDir im.disk i).nameOf.bytes =
            (diskDir im.disk i).nameOf.bytes :=
        (Utf8.recode_eq_iff
          (Nat.le_of_lt_succ (CStr.length_ofBuffer_lt
            (hOld.entry i hLive).terminated))).mpr
              (hStable i hLive)
      have hDecode : Utf8.decode
          (diskDir im.disk i).nameOf.bytes = name.text := by
        rw [← hText, ← hEntry]
        rfl
      have hSame : (diskDir im.disk i).nameOf = name.key := by
        apply CStr.ext
        rw [← hBytes, Utf8.recode, hDecode]
        exact List.take_of_length_le
          (Nat.le_of_lt_succ hLength)
      have hFile := (hOld.represents im.disk).value_eq
        (slots_live hLive)
      rw [hSame] at hFile
      rw [show fileMap (diskDir im.disk) im.disk name.key =
        none from hFree] at hFile
      cases hFile
  · cases hEntry

end Loads

--
-- Adding to an Image
--

section Adding

variable {im im' : Image} {a : Addition}

/- How a call of the tool on an image that mounts goes. -/
theorem placed_of_toolAdd
    (hAccepted : Accepted im.ata)
    (hAdd : toolAdd im a = .ok im') :
    ∃ tool tool' slot start, Loads im tool ∧
      Placed tool im a.name.text a.data a.isExec slot start
        tool' im' := by
  rcases loads_of_accepted hAccepted with
    ⟨tool, hLoad, hLoads⟩
  unfold toolAdd at hAdd
  rw [hLoad] at hAdd
  change (tool.add im a.name.text a.data a.isExec >>=
    fun state => Except.ok state.2) = _ at hAdd
  cases hState : tool.add im a.name.text a.data
      a.isExec with
  | error stop =>
      rw [hState] at hAdd
      cases hAdd
  | ok state =>
      rw [hState] at hAdd
      cases hAdd
      rcases placed_of_add hState with
        ⟨slot, start, hPlaced⟩
      exact ⟨tool, state.1, slot, start, hLoads, hPlaced⟩

/- Adding a file to an image keeps its length. -/
theorem Placed.length_eq
    {tool tool' : Tool}
    {slot : Fin 64}
    {start : Nat}
    (hPlaced : Placed tool im a.name.text a.data a.isExec
      slot start tool' im')
    (hLow : 2057 ≤ tool.total)
    (hRoom : tool.total ≤ im.length / 512) :
    im'.length = im.length := by
  have hBody : start * 512 +
      (Tool.padded a.data).length ≤ tool.total * 512 := by
    rw [length_padded, ← Nat.add_mul]
    exact Nat.mul_le_mul_right 512 hPlaced.spec.2.1
  have hTotal : tool.total * 512 ≤ im.length :=
    (Nat.le_div_iff_mul_le (by decide)).mp hRoom
  have hAreas : 2057 * 512 ≤ tool.total * 512 :=
    Nat.mul_le_mul_right 512 hLow
  rw [hPlaced.flushed.length]
  change max (max im.length _) _ = _
  rw [Nat.max_eq_left (Nat.le_trans hBody hTotal)]
  exact Nat.max_eq_left (Nat.le_trans hAreas hTotal)

/- Stable names are kept by an addition. -/
theorem toolAdd_keeps
    (hAccepted : Accepted im.ata)
    (hFree : diskMap im.ata a.name.key = none)
    (hAdd : toolAdd im a = .ok im')
    (hSmall : a.data.length < 2 ^ 31)
    (hStable : NamesStable (diskDir im.disk)) :
    Accepted im'.ata ∧
      diskMap im'.ata = Function.update (diskMap im.ata)
        a.name.key (some ⟨a.data, a.isExec⟩) := by
  rcases placed_of_toolAdd hAccepted hAdd with
    ⟨tool, tool', slot, start, hLoads, hPlaced⟩
  have hKept := hLoads.stores hAccepted hStable
  rw [← hLoads.fresh hAccepted hStable hPlaced.length
    hFree] at hKept
  have hStores := hPlaced.stores hSmall hKept hFree
  have hTotal := hPlaced.total_eq
  have hLow := hAccepted.total.1
  have hRoom := hAccepted.image_length
  rw [← hLoads.total] at hLow hRoom
  have hLength := hPlaced.length_eq (by omega) hRoom
  refine ⟨hPlaced.flushed.accepted ?_ ?_ hStores.dir, ?_⟩
  · rw [hTotal]
    exact hLow
  · rw [hTotal]
    change _ ≤ (UInt32.ofNat (im'.length / 512)).toNat
    rw [hLength, hLoads.total]
    exact hAccepted.total.2
  · unfold diskMap
    change fileMap (diskDir im'.disk) im'.disk = _
    rw [hPlaced.flushed.dir]
    exact hStores.map

/-
  When the files are kept, every name came from a name that
  came from a name, and such names are stable.
-/
theorem stable_of_kept
    (hAccepted : Accepted im.ata)
    (hFree : diskMap im.ata a.name.key = none)
    (hAdd : toolAdd im a = .ok im')
    (hKept : ∀ name file, diskMap im.ata name = some file →
      diskMap im'.ata name = some file) :
    NamesStable (diskDir im.disk) := by
  rcases placed_of_toolAdd hAccepted hAdd with
    ⟨tool, tool', slot, start, hLoads, hPlaced⟩
  have hOld : SlotMap.Represents
      (slots (diskDir im.disk) im.disk)
      (diskMap im.ata) :=
    hAccepted.dir.represents im.disk
  have hSource : ∀ i, (diskDir im.disk i).live →
      ∃ j, (diskDir im.disk j).live ∧
        (diskDir im.disk i).nameOf.bytes = Utf8.recode 39
          (diskDir im.disk j).nameOf.bytes := by
    intro i hLive
    have hBound := hOld.value_eq (slots_live hLive)
    have hStill : fileMap (toolDir tool') im'.disk
        (diskDir im.disk i).nameOf = some
          (fileOf im.disk (diskDir im.disk i)) := by
      rw [← hPlaced.flushed.dir]
      exact hKept _ _ hBound
    rcases Option.map_eq_some_iff.mp hStill with
      ⟨j, hFind, -⟩
    have hFound := findEntry_some hFind
    rw [hPlaced.toolDir_eq] at hFound
    by_cases hEq : j = slot
    · -- the added file has a name of its own
      rw [hEq, Function.update_self,
        nameOf_toolDirent rfl hPlaced.length] at hFound
      rw [← hFound.2, hFree] at hBound
      cases hBound
    · rw [Function.update_of_ne hEq] at hFound
      have hEntry : toolDir (tool.without a.name.text) j =
          toolDir tool j := by
        change toolDirent ((tool.entries j).filter _) =
          toolDirent (tool.entries j)
        cases hSome : (tool.entries j).filter
            fun e => e.name ≠ a.name.text with
        | none =>
            have hNot := hFound.1
            change (toolDirent ((tool.entries j).filter
              fun e => e.name ≠ a.name.text)).live at hNot
            rw [hSome] at hNot
            exact absurd hNot not_live_zero
        | some e =>
            rw [(Option.filter_eq_some_iff.mp hSome).1]
      rw [hEntry] at hFound
      have hSourceLive := (hLoads.live_iff j).mp hFound.1
      refine ⟨j, hSourceLive, ?_⟩
      rw [← hFound.2, hLoads.toolDir_live hSourceLive,
        nameOf_toolDirent_loaded]
  intro i hLive
  rcases hSource i hLive with ⟨j, hJ, hFirst⟩
  rcases hSource j hJ with ⟨k, -, hSecond⟩
  rw [hFirst, hSecond]
  exact Utf8.stable_recode_recode 39 _

/- An image that mounts holds an added file below 2 GiB. -/
theorem small_of_accepted
    (hAccepted : Accepted im.ata)
    (hAdd : toolAdd im a = .ok im')
    (hAfter : Accepted im'.ata) :
    a.data.length < 2 ^ 31 := by
  rcases placed_of_toolAdd hAccepted hAdd with
    ⟨tool, tool', slot, start, -, hPlaced⟩
  have hEntry : tool'.entries slot = some
      (Tool.newEntry a.name.text a.data a.isExec start) := by
    rw [hPlaced.result]
    exact Function.update_self ..
  have hSize : a.data.length < 2 ^ 32 :=
    (hPlaced.flushed.packs slot _ hEntry).size
  have hDir : diskDir im'.disk slot = toolDirent (some
      (Tool.newEntry a.name.text a.data a.isExec
        start)) := by
    rw [hPlaced.flushed.dir, toolDir, hEntry]
  have hFlags : (diskDir im'.disk slot).flags =
      savedFlags a.isExec := by
    rw [hDir]
    exact toolFlags_eq a.isExec
  have hLive : (diskDir im'.disk slot).live := by
    unfold Dirent.live
    rw [hFlags]
    exact (savedFlags_spec a.isExec).1
  have hSmall := (hAfter.dir.entry slot hLive).small
  change (diskDir im'.disk slot).size.toNat < _ at hSmall
  rw [hDir] at hSmall
  change (UInt32.ofNat a.data.length).toNat < _ at hSmall
  rwa [UInt32.toNat_ofNat', Nat.mod_eq_of_lt hSize]
    at hSmall

end Adding

/-
  Adding a file under a name that is not present leaves an
  image that mounts with every file it had, exactly when the
  file is below 2 GiB and the tool keeps every name: those
  that are UTF-8, or end at 39 bytes with the beginning of a
  replacement character.
-/
theorem toolAdd_keeps_iff
    {im im' : Image}
    {a : Addition}
    {fs₀ fs : Fs}
    (hMount : (kvfsMount fs₀).run Ata.perfect im.ata =
      ((0, fs), im.ata))
    (hFresh : kvfsExists fs a.name.key = false)
    (hAdd : toolAdd im a = .ok im')
    (fs₁ : Fs) :
    (∃ fs', (kvfsMount fs₁).run Ata.perfect im'.ata =
        ((0, fs'), im'.ata) ∧
      ∀ name file,
        fileMap fs.dir im.disk name = some file →
        fileMap fs'.dir im'.disk name = some file) ↔
      a.data.length < 2 ^ 31 ∧ NamesStable fs.dir := by
  have hAccepted : Accepted im.ata :=
    accepted_of_mount (by rw [hMount])
  have hFs : fs = mountedFs im.ata := by
    have hRun := kvfsMount_run hAccepted fs₀
    rw [hMount] at hRun
    exact congrArg (fun out => out.1.2) hRun
  subst hFs
  have hFree : diskMap im.ata a.name.key = none := by
    change (true && (findEntry (diskDir im.disk)
      a.name.key).isSome) = false at hFresh
    have hNone : findEntry (diskDir im.disk) a.name.key =
        none := by
      simpa using hFresh
    exact fileMap_none hNone
  constructor
  · rintro ⟨fs', hMount', hKept⟩
    have hAfter : Accepted im'.ata :=
      accepted_of_mount (by rw [hMount'])
    have hRun := kvfsMount_run hAfter fs₁
    rw [hMount'] at hRun
    have hFs' : fs' = mountedFs im'.ata :=
      congrArg (fun out => out.1.2) hRun
    subst hFs'
    exact ⟨small_of_accepted hAccepted hAdd hAfter,
      stable_of_kept hAccepted hFree hAdd hKept⟩
  · rintro ⟨hSmall, hStable⟩
    rcases toolAdd_keeps hAccepted hFree hAdd hSmall
      hStable with ⟨hAfter, hMap⟩
    refine ⟨mountedFs im'.ata, kvfsMount_run hAfter fs₁, ?_⟩
    intro name file hFile
    have hNe : name ≠ a.name.key := by
      rintro rfl
      rw [show fileMap (mountedFs im.ata).dir im.disk
        a.name.key = none from hFree] at hFile
      cases hFile
    change diskMap im'.ata name = some file
    rw [hMap, Function.update_of_ne hNe]
    exact hFile

--
-- Small Images
--

/- A formatted disk of two mebibytes. -/
def emptyImage : Image :=
  (Image.blank (4096 * 512)).write (2048 * 512)
    [0x4B, 0x56, 0x46, 0x53, 2, 0, 0, 0,
      0, 0x10, 0, 0, 0x09, 0x08, 0, 0]

/- The same disk once an empty file "\xFF" was saved. -/
def oddImage : Image :=
  emptyImage.write (2049 * 512)
    (0xFF :: List.replicate 39 0 ++
      [0x09, 0x08, 0, 0, 1, 0, 0, 0, 0, 0, 0, 0, 1])

/- An empty file. -/
def emptyAddition : Addition where
  name := ⟨['b'], by decide, by decide⟩
  data := []
  isExec := false

/- A mount that returns 0 leaves the mirrored state. -/
theorem mount_eq_of_code
    {d : Ata}
    {fs : Fs}
    (hCode : ((kvfsMount fs).run Ata.perfect d).1.1 = 0) :
    (kvfsMount fs).run Ata.perfect d =
      ((0, mountedFs d), d) :=
  kvfsMount_run (accepted_of_mount hCode) fs

/- An addition that does not stop leaves some image. -/
theorem toolAdd_of_isSome
    {im : Image}
    {a : Addition}
    (hSome : (toolAdd im a).toOption.isSome) :
    ∃ im', toolAdd im a = .ok im' := by
  cases hAdd : toolAdd im a with
  | error stop =>
      rw [hAdd] at hSome
      cases hSome
  | ok im' => exact ⟨im', rfl⟩

theorem toolAdd_keeps_iff_empty :
    ∃ im', toolAdd emptyImage emptyAddition = .ok im' ∧
      ∃ fs', (kvfsMount bootFs).run Ata.perfect im'.ata =
        ((0, fs'), im'.ata) := by
  rcases toolAdd_of_isSome (by decide +kernel :
    (toolAdd emptyImage emptyAddition).toOption.isSome)
    with ⟨im', hAdd⟩
  have hMount := mount_eq_of_code (by decide +kernel :
    ((kvfsMount bootFs).run Ata.perfect
      emptyImage.ata).1.1 = 0)
  have hKeeps := (toolAdd_keeps_iff hMount
    (by decide +kernel) hAdd bootFs).mpr
      ⟨by decide, by
        have hFree : ∀ i,
            ¬((mountedFs emptyImage.ata).dir i).live := by
          decide +kernel
        exact fun i hLive => absurd hLive (hFree i)⟩
  rcases hKeeps with ⟨fs', hMount', -⟩
  exact ⟨im', hAdd, fs', hMount'⟩

/-
  The name "\xFF" is not UTF-8: the tool writes a replacement
  character back, and the file is gone from its name.
-/
theorem not_toolAdd_keeps_odd :
    ∃ fs im',
      (kvfsMount bootFs).run Ata.perfect oddImage.ata =
        ((0, fs), oddImage.ata) ∧
      kvfsExists fs emptyAddition.name.key = false ∧
      toolAdd oddImage emptyAddition = .ok im' ∧
      ¬∃ fs', (kvfsMount bootFs).run Ata.perfect im'.ata =
          ((0, fs'), im'.ata) ∧
        ∀ name file,
          fileMap fs.dir oddImage.disk name = some file →
          fileMap fs'.dir im'.disk name = some file := by
  rcases toolAdd_of_isSome (by decide +kernel :
    (toolAdd oddImage emptyAddition).toOption.isSome)
    with ⟨im', hAdd⟩
  have hMount := mount_eq_of_code (by decide +kernel :
    ((kvfsMount bootFs).run Ata.perfect
      oddImage.ata).1.1 = 0)
  have hAccepted : Accepted oddImage.ata :=
    accepted_of_mount (by rw [hMount])
  have hFresh : kvfsExists (mountedFs oddImage.ata)
      emptyAddition.name.key = false := by
    decide +kernel
  have hFree : diskMap oddImage.ata
      emptyAddition.name.key = none := by
    have hNone : findEntry (diskDir oddImage.disk)
        emptyAddition.name.key = none := by
      decide +kernel
    exact fileMap_none hNone
  refine ⟨_, im', hMount, hFresh, hAdd, ?_⟩
  rintro ⟨fs', hMount', hKept⟩
  have hCode : ((kvfsMount bootFs).run Ata.perfect
      im'.ata).1.1 = 0 := by
    rw [hMount']
  have hAfter := mount_eq_of_code hCode
  rw [hMount'] at hAfter
  have hFs' : fs' = mountedFs im'.ata :=
    congrArg (fun out => out.1.2) hAfter
  subst hFs'
  have hStable := stable_of_kept hAccepted hFree hAdd hKept
    0 (by decide +kernel)
  have hBytes : (diskDir oddImage.disk 0).nameOf.bytes =
      [0xFF] := by
    decide +kernel
  rw [hBytes] at hStable
  have hSame := (Utf8.recode_eq_iff (by decide)).mpr hStable
  revert hSame
  decide

end KvantOS.Kvfs
