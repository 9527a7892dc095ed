import KvantOS.Kvfs.Commit

/-
  This file proves that listing a mounted KvFS disk
  enumerates its files, each once, with its size and its
  executable flag.

  Key definitions include:
    * `Lists`

  Key theorems include:
    * `Sound.lists`
-/

namespace KvantOS.Kvfs

/- Listing enumerates exactly the given files. -/
structure Lists
    (fs : Fs)
    (files : FileMap) : Prop where
  sound : ∀ index name size isExec,
    kvfsList fs index = some (name, size, isExec) →
    ∃ file, files name = some file ∧
      file.data.length = size.toNat ∧ file.exec = isExec
  complete : ∀ name file, files name = some file →
    ∃ index size, kvfsList fs index =
      some (name, size, file.exec)
  once : ∀ index index' name size size' isExec isExec',
    kvfsList fs index = some (name, size, isExec) →
    kvfsList fs index' = some (name, size', isExec') →
    index = index'

section List

variable {fs : Fs} {d : Ata}

/- The slots that listing goes through. -/
def usedSlots (dir : Dir) : List (Fin 64) :=
  (List.finRange 64).filter fun i => (dir i).live

theorem mem_usedSlots
    {dir : Dir}
    {i : Fin 64} :
    i ∈ usedSlots dir ↔ (dir i).live := by
  simp [usedSlots]

/- The entry with an ordinal, on a mounted disk. -/
theorem Sound.kvfsList_iff
    (hSound : Sound fs d)
    {index : Nat}
    {name : CStr}
    {size : UInt32}
    {isExec : Bool} :
    kvfsList fs index = some (name, size, isExec) ↔
      ∃ i, (usedSlots fs.dir)[index]? = some i ∧
        (fs.dir i).nameOf = name ∧
        (fs.dir i).size = size ∧
        (fs.dir i).isExec = isExec := by
  have hList : kvfsList fs index =
      (usedSlots fs.dir)[index]?.map fun i =>
        ((fs.dir i).nameOf.take 39, (fs.dir i).size,
          (fs.dir i).isExec) := by
    unfold kvfsList
    rw [hSound.mounted]
    rfl
  have hTake : ∀ i, (usedSlots fs.dir)[index]? = some i →
      (fs.dir i).nameOf.take 39 = (fs.dir i).nameOf := by
    intro i hSlot
    have hLive := mem_usedSlots.mp
      (List.mem_of_getElem? hSlot)
    apply CStr.take_of_length_le
    exact Nat.le_of_lt_succ (CStr.length_ofBuffer_lt
      (hSound.dirOk.entry i hLive).terminated)
  rw [hList, Option.map_eq_some_iff]
  constructor
  · rintro ⟨i, hSlot, hEntry⟩
    rw [hTake i hSlot] at hEntry
    injection hEntry with hName hRest
    injection hRest with hSize hExec
    exact ⟨i, hSlot, hName, hSize, hExec⟩
  · rintro ⟨i, hSlot, rfl, rfl, rfl⟩
    refine ⟨i, hSlot, ?_⟩
    rw [hTake i hSlot]

/- Listing a mounted disk enumerates its files. -/
theorem Sound.lists
    (hSound : Sound fs d) :
    Lists fs (diskMap d) := by
  have hOk := hSound.dirOk
  rw [hSound.map_eq]
  refine ⟨?_, ?_, ?_⟩
  · intro index name size isExec hList
    rcases hSound.kvfsList_iff.mp hList with
      ⟨i, hSlot, rfl, rfl, rfl⟩
    have hLive := mem_usedSlots.mp
      (List.mem_of_getElem? hSlot)
    refine ⟨fileOf d.disk (fs.dir i), ?_, ?_, rfl⟩
    · exact (hOk.represents d.disk).value_eq
        (slots_live hLive)
    · simp [fileOf]
  · intro name file hFile
    rcases (hOk.represents d.disk name file).mp hFile with
      ⟨i, hSlot⟩
    rcases slots_eq_some hSlot with ⟨hLive, rfl, rfl⟩
    rcases List.getElem?_of_mem (mem_usedSlots.mpr hLive)
      with ⟨index, hIndex⟩
    exact ⟨index, (fs.dir i).size,
      hSound.kvfsList_iff.mpr ⟨i, hIndex, rfl, rfl, rfl⟩⟩
  · intro index index' name size size' isExec isExec'
      hList hList'
    rcases hSound.kvfsList_iff.mp hList with
      ⟨i, hSlot, hName, -, -⟩
    rcases hSound.kvfsList_iff.mp hList' with
      ⟨j, hSlot', hName', -, -⟩
    have hSame : i = j := hOk.names i j
      (mem_usedSlots.mp (List.mem_of_getElem? hSlot))
      (mem_usedSlots.mp (List.mem_of_getElem? hSlot'))
      (hName.trans hName'.symm)
    subst hSame
    have hNodup : (usedSlots fs.dir).Nodup :=
      (List.nodup_finRange 64).filter _
    have hBound := (List.getElem?_eq_some_iff.mp hSlot).1
    exact (List.getElem?_inj hBound hNodup).mp
      (hSlot.trans hSlot'.symm)

end List

end KvantOS.Kvfs
