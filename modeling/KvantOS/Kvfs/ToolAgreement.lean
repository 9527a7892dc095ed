import KvantOS.Kvfs.Refinement
import KvantOS.Kvfs.Listing
import KvantOS.Kvfs.ToolPlacement

/-
  This file proves that the images which the host tool
  builds mount, and that the kernel lists and reads in them
  exactly the files that were added.

  Key definitions include:
    * `addedFiles`, `Built`

  Key theorems include:
    * `Stores.without`, `built_of_toolBuild`
    * `toolBuild_mounts`
-/

namespace KvantOS.Kvfs

/- The files that a sequence of additions means. -/
def addedFiles (additions : List Addition) : FileMap :=
  additions.foldl
    (fun files a => Function.update files a.name.key
      (some ⟨a.data, a.isExec⟩))
    (fun _ => none)

theorem FileName.key_inj
    {name name' : FileName} :
    name.key = name'.key ↔ name.text = name'.text := by
  constructor
  · intro hKey
    exact Utf8.encode_injective (congrArg CStr.bytes hKey)
  · intro hText
    exact CStr.ext (congrArg Utf8.encode hText)

/- An entry of the tool is named as an added file is. -/
def Named (e : ToolEntry) : Prop :=
  ∃ name : FileName,
    e.name = name.text ∧ name.key.length < 40

/- The kernel reads the name of an entry back. -/
theorem nameOf_toolDirent
    {e : ToolEntry}
    {name : FileName}
    (hName : e.name = name.text)
    (hLength : name.key.length < 40) :
    (toolDirent (some e)).nameOf = name.key := by
  apply CStr.ofBuffer_eq hLength
  intro i _
  change (Tool.storedName e.name).getD i 0 =
    (Utf8.encode name.text).getD i 0
  unfold Tool.storedName
  rw [hName, List.take_of_length_le]
  exact Nat.le_of_lt_succ hLength

section Without

variable {tool : Tool} {name : FileName}
variable {disk : Nat → Sector} {files : FileMap}

/- Without an entry of the name nothing is removed. -/
theorem without_of_fresh
    {text : List Char}
    (hFresh : ∀ i e, tool.entries i = some e →
      e.name ≠ text) :
    tool.without text = tool := by
  unfold Tool.without
  congr 1
  funext i
  cases hEntry : tool.entries i with
  | none => rfl
  | some e => exact if_pos (by simpa using hFresh i e hEntry)

/- Removing a name unbinds it. -/
theorem Stores.without
    (hStores : Stores tool disk files)
    (hNamed : ∀ i e, tool.entries i = some e → Named e)
    (name : FileName) :
    Stores (tool.without name.text) disk
      (Function.update files name.key none) := by
  have hKey : ∀ i e, tool.entries i = some e →
      e.name = name.text →
      (toolDir tool i).nameOf = name.key := by
    intro i e hEntry hText
    rcases hNamed i e hEntry with ⟨name', hName', hLength⟩
    rw [toolDir, hEntry, nameOf_toolDirent hName' hLength,
      FileName.key_inj, ← hName']
    exact hText
  have hLives : Lives (tool.without name.text) :=
    { packs := fun i e hEntry => hStores.lives.packs i e
        (Option.filter_eq_some_iff.mp hEntry).1
      live := fun i e hEntry => hStores.lives.live i e
        (Option.filter_eq_some_iff.mp hEntry).1 }
  have hMap := hStores.dir.represents disk
  rw [hStores.map] at hMap
  cases hFind : findEntry (toolDir tool) name.key with
  | none =>
      have hUnbound : files name.key = none := by
        rw [← hStores.map]
        exact fileMap_none hFind
      have hFresh : tool.without name.text = tool := by
        apply without_of_fresh
        intro i e hEntry hText
        refine findEntry_none hFind ?_
          (hKey i e hEntry hText)
        rw [hStores.lives.live_iff, hEntry]
        rfl
      rw [hFresh, Function.update_eq_self_iff.mpr
        hUnbound.symm]
      exact hStores
  | some slot =>
      have hFound := findEntry_some hFind
      have hDir : toolDir (tool.without name.text) =
          Function.update (toolDir tool) slot .zero := by
        funext i
        change toolDirent ((tool.entries i).filter
          fun e => e.name ≠ name.text) = _
        cases hEntry : tool.entries i with
        | none =>
            by_cases hEq : i = slot
            · rw [hEq, Function.update_self]
              rfl
            · rw [Function.update_of_ne hEq, toolDir, hEntry]
              rfl
        | some e =>
            have hLive : (toolDir tool i).live := by
              rw [hStores.lives.live_iff, hEntry]
              rfl
            by_cases hText : e.name = name.text
            · have hEq : i = slot := hStores.dir.names i slot
                hLive hFound.1 ((hKey i e hEntry hText).trans
                  hFound.2.symm)
              rw [Option.filter_some, if_neg (by simpa),
                hEq, Function.update_self]
              rfl
            · have hNe : i ≠ slot := by
                rintro rfl
                rcases hNamed i e hEntry with
                  ⟨name', hName', hLength⟩
                have hSame := hFound.2
                rw [toolDir, hEntry,
                  nameOf_toolDirent hName' hLength,
                  FileName.key_inj, ← hName'] at hSame
                exact hText hSame
              rw [Option.filter_some, if_pos (by simpa),
                Function.update_of_ne hNe, toolDir, hEntry]
      have hOk : DirOk tool.total
          (toolDir (tool.without name.text)) := by
        rw [hDir]
        exact hStores.dir.clear not_live_zero slot
      refine ⟨hOk, hLives, ?_⟩
      apply (hOk.represents disk).unique
      rw [hDir, slots_update_free not_live_zero]
      exact hMap.clear (hStores.dir.distinct disk)
        (slots_of_findEntry hFind)

end Without

--
-- Built Images
--

/-
  The tool and its image after a sequence of additions.
-/
structure Built
    (tool : Tool)
    (im : Image)
    (files : FileMap) : Prop where
  low : 2121 ≤ tool.total
  length : im.length = tool.total * 512
  flushed : ∃ before, Flushed tool before im
  named : ∀ i e, tool.entries i = some e → Named e
  stores : Stores tool im.disk files

variable {im : Image} {sizeMb : Nat}

/- A created image holds no file. -/
theorem built_of_create
    {tool : Tool}
    (hCreate : Tool.create sizeMb = .ok (tool, im)) :
    Built tool im (fun _ => none) := by
  unfold Tool.create at hCreate
  simp only at hCreate
  split at hCreate
  · cases hCreate
  next hLow =>
  generalize sizeMb * 1024 * 1024 / 512 = total
    at hCreate hLow
  have hData : dataStart.toNat = 2057 := rfl
  rw [hData] at hLow
  cases hFlush : Tool.flush ⟨total, fun _ => none⟩
      (.blank (total * 512)) with
  | error stop =>
      rw [hFlush] at hCreate
      cases hCreate
  | ok im' =>
      rw [hFlush] at hCreate
      cases hCreate
      have hFlushed := flushed_of_flush hFlush
      have hLength : im.length = max (total * 512)
          (2057 * 512) :=
        hFlushed.length
      have hOk : DirOk total
          (toolDir ⟨total, fun _ => none⟩) :=
        { entry := fun _ hLive =>
            absurd hLive not_live_zero
          names := fun _ _ hLive =>
            absurd hLive not_live_zero
          disjoint := fun _ _ hLive =>
            absurd hLive not_live_zero }
      exact
        { low := by
            change 2121 ≤ total
            omega
          length := by
            rw [hLength]
            exact Nat.max_eq_left
              (Nat.mul_le_mul_right 512 (by omega))
          flushed := ⟨_, hFlushed⟩
          named := fun _ _ hEntry => by cases hEntry
          stores :=
            { dir := hOk
              lives :=
                { packs := fun _ _ hEntry => by cases hEntry
                  live := fun _ _ hEntry => by
                    cases hEntry }
              map := fileMap_zero im.disk } }

/- One addition binds its name. -/
theorem Built.add
    {tool tool' : Tool}
    {im im' : Image}
    {files : FileMap}
    (hBuilt : Built tool im files)
    {a : Addition}
    (hSmall : a.data.length < 2 ^ 31)
    (hAdd : tool.add im a.name.text a.data a.isExec =
      .ok (tool', im')) :
    Built tool' im' (Function.update files a.name.key
      (some ⟨a.data, a.isExec⟩)) := by
  rcases placed_of_add hAdd with ⟨slot, start, hPlaced⟩
  have hKept := hBuilt.stores.without hBuilt.named a.name
  have hStores := hPlaced.stores hSmall hKept
    (Function.update_self ..)
  rw [Function.update_idem] at hStores
  have hTotal := hPlaced.total_eq
  have hSpec := hPlaced.spec
  have hLow := hBuilt.low
  refine
    { low := by rwa [hTotal]
      length := ?_
      flushed := ⟨_, hPlaced.flushed⟩
      named := ?_
      stores := hStores }
  · have hBody : start * 512 +
        (Tool.padded a.data).length ≤ tool.total * 512 := by
      rw [length_padded, ← Nat.add_mul]
      exact Nat.mul_le_mul_right 512 hSpec.2.1
    rw [hPlaced.flushed.length]
    change max (max im.length _) _ = _
    rw [hBuilt.length, hTotal, Nat.max_eq_left hBody]
    exact Nat.max_eq_left
      (Nat.mul_le_mul_right 512 (by omega))
  · intro i e hEntry
    rw [hPlaced.result] at hEntry
    change Function.update
      (tool.without a.name.text).entries slot _ i =
        some e at hEntry
    by_cases hEq : i = slot
    · rw [hEq, Function.update_self] at hEntry
      injection hEntry with hEntry
      exact ⟨a.name, by rw [← hEntry]; rfl, hPlaced.length⟩
    · rw [Function.update_of_ne hEq] at hEntry
      exact hBuilt.named i e
        (Option.filter_eq_some_iff.mp hEntry).1

variable {additions : List Addition}

/- Additions one after the other bind their names. -/
theorem Built.addAll
    {state done : Tool × Image}
    {files : FileMap}
    (hBuilt : Built state.1 state.2 files)
    (hSmall : ∀ a ∈ additions, a.data.length < 2 ^ 31)
    (hAll : additions.foldlM
      (fun state a =>
        Tool.add state.1 state.2 a.name.text a.data a.isExec)
      state = .ok done) :
    Built done.1 done.2
      (additions.foldl
        (fun files a => Function.update files a.name.key
          (some ⟨a.data, a.isExec⟩))
        files) := by
  induction additions generalizing state files with
  | nil =>
      cases hAll
      exact hBuilt
  | cons a additions ih =>
      rw [List.foldlM_cons] at hAll
      cases hAdd : state.1.add state.2 a.name.text a.data
          a.isExec with
      | error stop =>
          rw [hAdd] at hAll
          cases hAll
      | ok next =>
          rw [hAdd] at hAll
          exact ih
            (hBuilt.add (hSmall a (by simp)) hAdd)
            (fun a' hMem => hSmall a'
              (List.mem_cons_of_mem _ hMem)) hAll

theorem built_of_toolBuild
    {tool : Tool}
    (hSmall : ∀ a ∈ additions, a.data.length < 2 ^ 31)
    (hBuild : toolBuild sizeMb additions =
      .ok (tool, im)) :
    Built tool im (addedFiles additions) := by
  unfold toolBuild at hBuild
  cases hCreate : Tool.create sizeMb with
  | error stop =>
      rw [hCreate] at hBuild
      cases hBuild
  | ok start =>
      rw [hCreate] at hBuild
      exact (built_of_create hCreate).addAll hSmall hBuild

/- An image that the tool has rewritten mounts. -/
theorem Flushed.accepted
    {tool : Tool}
    {im im' : Image}
    (hFlushed : Flushed tool im im')
    (hLow : 2121 ≤ tool.total)
    (hSectors : tool.total ≤ im'.ata.sectors.toNat)
    (hOk : DirOk tool.total (toolDir tool)) :
    Accepted im'.ata := by
  have hSuper : diskSuper im'.ata = toolSuper tool :=
    hFlushed.super
  have hTotal : (diskSuper im'.ata).totalSectors.toNat =
      tool.total := by
    rw [hSuper]
    change (UInt32.ofNat tool.total).toNat = _
    rw [UInt32.toNat_ofNat']
    exact Nat.mod_eq_of_lt hFlushed.total
  refine
    { drive := Int.le_refl 0
      magic := by rw [hSuper]; rfl
      version := by rw [hSuper]; rfl
      super := ⟨by rw [hSuper]; rfl, ?_, ?_⟩
      dir := ?_ }
  · rw [UInt32.le_iff_toNat_le, hTotal]
    exact hLow
  · rw [UInt32.le_iff_toNat_le, hTotal]
    exact hSectors
  · rw [hTotal]
    change DirOk tool.total (diskDir im'.disk)
    rw [hFlushed.dir]
    exact hOk

/- A built image passes every check of mounting. -/
theorem Built.accepted
    {tool : Tool}
    {files : FileMap}
    (hBuilt : Built tool im files) :
    Accepted im.ata := by
  rcases hBuilt.flushed with ⟨before, hFlushed⟩
  apply hFlushed.accepted hBuilt.low _ hBuilt.stores.dir
  change _ ≤ (UInt32.ofNat (im.length / 512)).toNat
  rw [hBuilt.length, Nat.mul_div_cancel _ (by decide),
    UInt32.toNat_ofNat', Nat.mod_eq_of_lt hFlushed.total]

/- The kernel holds the directory that the tool holds. -/
theorem Built.sameDirectory
    {tool : Tool}
    {files : FileMap}
    (hBuilt : Built tool im files) :
    SameDirectory tool (mountedFs im.ata) := by
  have hSound := hBuilt.accepted.sound
  rcases hBuilt.flushed with ⟨before, hFlushed⟩
  have hTotal : tool.total =
      (diskSuper im.ata).totalSectors.toNat := by
    rw [show diskSuper im.ata = toolSuper tool from
      hFlushed.super]
    change _ = (UInt32.ofNat tool.total).toNat
    rw [UInt32.toNat_ofNat']
    exact (Nat.mod_eq_of_lt hFlushed.total).symm
  refine ⟨hTotal, hSound.data, hSound.dirOk, ?_⟩
  change ∀ i, _ = if (diskDir im.disk i).live then
    some (extentOf (diskDir im.disk i)) else none
  rw [hFlushed.dir]
  exact hBuilt.stores.lives.slots

--
-- Agreement
--

/-
  Every image that the tool builds mounts, and the kernel
  lists and reads in it the added files. It places further
  files as the tool does, over any directory that both hold.
-/
theorem toolBuild_mounts
    {sizeMb : Nat}
    {additions : List Addition}
    {tool : Tool}
    {im : Image}
    (hSmall : ∀ a ∈ additions, a.data.length < 2 ^ 31)
    (hBuild : toolBuild sizeMb additions =
      .ok (tool, im))
    (fs₀ : Fs) :
    ∃ fs,
      (kvfsMount fs₀).run Ata.perfect im.ata =
        ((0, fs), im.ata) ∧
      Lists fs (addedFiles additions) ∧
      (∀ name buf max,
        (Call.read name buf max).Does
          (((Call.read name buf max).program fs).run
            Ata.perfect im.ata).1
          (addedFiles additions) (addedFiles additions)) ∧
      SameDirectory tool fs ∧
      ∀ tool' fs', SameDirectory tool' fs' →
        ∀ need : UInt32, (findSpace fs' need).toNat =
          (tool'.findSpace need.toNat).toOption.getD 0 := by
  have hBuilt := built_of_toolBuild hSmall hBuild
  have hAccepted := hBuilt.accepted
  have hFiles : diskMap im.ata = addedFiles additions := by
    rcases hBuilt.flushed with ⟨before, hFlushed⟩
    unfold diskMap
    change fileMap (diskDir im.disk) im.disk = _
    rw [hFlushed.dir]
    exact hBuilt.stores.map
  refine ⟨mountedFs im.ata, kvfsMount_run hAccepted fs₀,
    ?_, ?_, hBuilt.sameDirectory, ?_⟩
  · rw [← hFiles]
    exact hAccepted.sound.lists
  · intro name buf max
    rcases (Call.read name buf max).spec hAccepted.sound with
      ⟨target, hSpec⟩
    have hDoes := hSpec.run.2.1
    rw [← hFiles]
    exact ⟨rfl, hDoes.2⟩
  · intro tool' fs' hSame need
    exact findSpace_agrees hSame need

/- A program of three bytes. -/
def tinyAddition : Addition where
  name := ⟨['a'], by decide, by decide⟩
  data := [1, 2, 3]
  isExec := true

/- What building a disk of two mebibytes gives. -/
def tinyBuild : Tool × Image :=
  (toolBuild 2 [tinyAddition]).toOption.getD
    (⟨0, fun _ => none⟩, .blank 0)

theorem toolBuild_tiny :
    toolBuild 2 [tinyAddition] = .ok tinyBuild := by
  have hOk :
      (toolBuild 2 [tinyAddition]).toOption.isSome := by
    decide +kernel
  unfold tinyBuild
  cases hBuild : toolBuild 2 [tinyAddition] with
  | error stop =>
      rw [hBuild] at hOk
      cases hOk
  | ok state => rfl

theorem toolBuild_mounts_tiny :
    ∃ fs, (kvfsMount bootFs).run Ata.perfect
      tinyBuild.2.ata = ((0, fs), tinyBuild.2.ata) := by
  have hMounts := toolBuild_mounts
    (by decide : ∀ a ∈ [tinyAddition],
      a.data.length < 2 ^ 31) toolBuild_tiny bootFs
  rcases hMounts with ⟨fs, hMount, -⟩
  exact ⟨fs, hMount⟩

end KvantOS.Kvfs
