import KvantOS.Kvfs.Mount
import KvantOS.Kvfs.Tool

/-
  This file proves what the kernel reads from the bytes that
  the host tool writes: the superblock, and one directory
  entry for each entry of the tool.

  Key definitions include:
    * `toolDirent`, `toolDir`, `Flushed`

  Key theorems include:
    * `ofBytes_entryBytes`, `flushed_of_flush`
-/

namespace KvantOS.Kvfs

namespace Image

variable {im : Image} {k lba : Nat} {data : List UInt8}

/- A write leaves the sectors around it alone. -/
theorem disk_write_outside
    (hOut : lba < k ∨ k * 512 + data.length ≤ lba * 512) :
    (im.write (k * 512) data).disk lba = im.disk lba := by
  apply Buf.toSector_eq_iff.mpr
  intro i hi
  apply Buf.copy_outside
  omega

variable {i : Nat}

/- A write of whole sectors is read back byte by byte. -/
theorem disk_write_inside
    (hLow : k ≤ lba)
    (hHigh : lba * 512 + 512 ≤ k * 512 + data.length)
    (hi : i < 512) :
    ((im.write (k * 512) data).disk lba).toBuf i =
      data.getD ((lba - k) * 512 + i) 0 := by
  have hStart : k * 512 ≤ lba * 512 + i :=
    Nat.le_trans (Nat.mul_le_mul_right 512 hLow)
      (Nat.le_add_right ..)
  have hEnd : lba * 512 + i < k * 512 + data.length := by
    omega
  have hOffset : lba * 512 + i - k * 512 =
      (lba - k) * 512 + i := by
    omega
  unfold disk
  rw [Buf.toBuf_toSector hi]
  change (im.bytes.copy (k * 512) (.ofList data)
    data.length) (lba * 512 + i) = _
  rw [Buf.copy_inside hStart hEnd, hOffset]
  rfl

/- The bytes of an image, sector by sector. -/
theorem disk_byte
    (im : Image)
    (lba : Nat)
    (hi : i < 512) :
    (im.disk lba).toBuf i = im.bytes (lba * 512 + i) :=
  Buf.toBuf_toSector hi

end Image

--
-- Packed Integers
--

/- The bytes of a packed value. -/
def packed (value : Nat) : List UInt8 :=
  [.ofNat value, .ofNat (value >>> 8),
    .ofNat (value >>> 16), .ofNat (value >>> 24)]

variable {bytes : List UInt8}

theorem pack_ok
    {value : Nat}
    (hPack : Tool.pack value = .ok bytes) :
    value < 2 ^ 32 ∧ bytes = packed value := by
  unfold Tool.pack at hPack
  split at hPack
  · next hLt =>
      cases hPack
      exact ⟨hLt, rfl⟩
  · cases hPack

/- A packed value is read back at its offset. -/
theorem field32_packed
    (before after : List UInt8)
    (value : Nat) :
    field32 (.ofList (before ++ packed value ++ after))
      before.length = .ofNat value := by
  have hByte : ∀ i, i < 4 →
      Buf.ofList (before ++ packed value ++ after)
        (before.length + i) =
          (Buf.zero.put32 0 value) (0 + i) := by
    intro i hi
    have hLength : (packed value).length = 4 := rfl
    change (before ++ packed value ++ after).getD
      (before.length + i) 0 = _
    rw [List.append_assoc, List.getD_append_right _ _ _ _
        (Nat.le_add_right ..),
      Nat.add_sub_cancel_left,
      List.getD_append _ _ _ _ (by rw [hLength]; exact hi)]
    have hCases : i = 0 ∨ i = 1 ∨ i = 2 ∨ i = 3 := by omega
    rcases hCases with rfl | rfl | rfl | rfl <;> rfl
  unfold field32
  rw [Buf.get32_congr hByte, Buf.get32_put32_same]
  apply UInt32.toNat_inj.mp
  rw [UInt32.toNat_ofNat', UInt32.toNat_ofNat',
    Nat.mod_mod]

/- Each of several packed values is read back. -/
theorem field32_packs
    (before after : List UInt8)
    (values : List Nat)
    (i : Nat)
    (hi : i < values.length) :
    field32 (.ofList (before ++ values.flatMap packed ++
      after)) (before.length + 4 * i) =
        .ofNat values[i] := by
  induction values generalizing before i with
  | nil => cases hi
  | cons value values ih =>
      cases i with
      | zero =>
          have hField := field32_packed before
            (values.flatMap packed ++ after) value
          rw [List.flatMap_cons]
          simp only [List.append_assoc] at hField ⊢
          exact hField
      | succ i =>
          have hField := ih (before ++ packed value) i
            (Nat.lt_of_succ_lt_succ hi)
          have hLength : (before ++ packed value).length +
              4 * i = before.length + 4 * (i + 1) := by
            rw [List.length_append]
            change before.length + 4 + 4 * i = _
            omega
          rw [hLength] at hField
          rw [List.flatMap_cons]
          simp only [List.append_assoc] at hField ⊢
          exact hField

--
-- Entries
--

/- The directory entry that the kernel reads. -/
def toolDirent : Option ToolEntry → Dirent
  | none => .zero
  | some e =>
      { name := fun i => (Tool.storedName e.name).getD i 0
        start := .ofNat e.start
        sectors := .ofNat e.sectors
        size := .ofNat e.size
        flags := .ofNat e.flags
        reserved0 := 0
        reserved1 := 0 }

/- The directory that the kernel reads. -/
def toolDir (tool : Tool) : Dir :=
  fun i => toolDirent (tool.entries i)

/- The numbers of an entry fit their fields. -/
structure Packs (e : ToolEntry) : Prop where
  start : e.start < 2 ^ 32
  sectors : e.sectors < 2 ^ 32
  size : e.size < 2 ^ 32
  flags : e.flags < 2 ^ 32

theorem length_storedName (name : List Char) :
    (Tool.storedName name).length ≤ 39 :=
  List.length_take_le ..

/- The bytes of an entry that packs. -/
theorem entryBytes_some
    {e : ToolEntry}
    (hBytes : Tool.entryBytes (some e) = .ok bytes) :
    Packs e ∧ bytes =
      Tool.storedName e.name ++
        List.replicate
          (40 - (Tool.storedName e.name).length) 0 ++
        [e.start, e.sectors, e.size, e.flags, 0, 0].flatMap
          packed ++ [] := by
  simp only [Tool.entryBytes] at hBytes
  cases hStart : Tool.pack e.start with
  | error stop => rw [hStart] at hBytes; cases hBytes
  | ok start =>
  cases hSectors : Tool.pack e.sectors with
  | error stop =>
      rw [hStart, hSectors] at hBytes
      cases hBytes
  | ok sectors =>
  cases hSize : Tool.pack e.size with
  | error stop =>
      rw [hStart, hSectors, hSize] at hBytes
      cases hBytes
  | ok size =>
  cases hFlags : Tool.pack e.flags with
  | error stop =>
      rw [hStart, hSectors, hSize, hFlags] at hBytes
      cases hBytes
  | ok flags =>
      rw [hStart, hSectors, hSize, hFlags] at hBytes
      injection hBytes with hBytes
      have hStart := pack_ok hStart
      have hSectors := pack_ok hSectors
      have hSize := pack_ok hSize
      have hFlags := pack_ok hFlags
      refine ⟨⟨hStart.1, hSectors.1, hSize.1, hFlags.1⟩, ?_⟩
      rw [← hBytes, hStart.2, hSectors.2, hSize.2, hFlags.2]
      simp only [List.append_assoc]
      rfl

variable {entry : Option ToolEntry}

theorem length_entryBytes
    (hBytes : Tool.entryBytes entry = .ok bytes) :
    bytes.length = 64 := by
  cases entry with
  | none =>
      cases hBytes
      simp
  | some e =>
      have hName := length_storedName e.name
      rw [(entryBytes_some hBytes).2]
      simp only [List.length_append, List.length_replicate,
        packed, List.flatMap_cons, List.flatMap_nil,
        List.length_cons, List.length_nil]
      omega

/- The kernel reads an entry back from its bytes. -/
theorem ofBytes_entryBytes
    (hBytes : Tool.entryBytes entry = .ok bytes) :
    Dirent.ofBytes (.ofList bytes) = toolDirent entry := by
  cases entry with
  | none =>
      cases hBytes
      have hZero : Dirent.ofBytes
          (.ofList (List.replicate 64 0)) =
            Dirent.ofBytes Dirent.zero.toBytes := by
        apply Dirent.ofBytes_congr
        decide
      rw [hZero, Dirent.ofBytes_toBytes]
      rfl
  | some e =>
      have hName := length_storedName e.name
      rw [(entryBytes_some hBytes).2]
      generalize hStored : Tool.storedName e.name = name
        at hName
      generalize hPad : List.replicate (40 - name.length)
        (0 : UInt8) = pad
      have hHead : (name ++ pad).length = 40 := by
        rw [← hPad, List.length_append,
          List.length_replicate]
        omega
      apply Dirent.ext
      · funext i
        have hi := i.isLt
        change (name ++ pad ++ _ ++ []).getD i 0 =
          (Tool.storedName e.name).getD i 0
        rw [List.append_assoc, List.getD_append _ _ _ _
          (by rw [hHead]; exact hi), hStored]
        by_cases hIn : i.val < name.length
        · exact List.getD_append _ _ _ _ hIn
        · have hZero : pad.getD (i.val - name.length) 0 =
              0 := by
            rw [← hPad]
            exact List.getD_replicate _ (by omega)
          rw [List.getD_append_right _ _ _ _ (by omega),
            hZero]
          exact (List.getD_eq_default _ _ (by omega)).symm
      all_goals
        have hField := field32_packs (name ++ pad) []
          [e.start, e.sectors, e.size, e.flags, 0, 0]
        rw [hHead] at hField
      · exact hField 0 (by simp)
      · exact hField 1 (by simp)
      · exact hField 2 (by simp)
      · exact hField 3 (by simp)
      · exact hField 4 (by simp)
      · exact hField 5 (by simp)

--
-- The Service Areas
--

/- What a successful traversal returned for each element. -/
theorem mapM_ok
    {α β : Type}
    {f : α → Except ToolStop β}
    {items : List α}
    {results : List β}
    (hMap : items.mapM f = .ok results) :
    List.Forall₂ (fun a b => f a = .ok b)
      items results := by
  induction items generalizing results with
  | nil =>
      cases hMap
      exact .nil
  | cons a items ih =>
      rw [List.mapM_cons] at hMap
      cases hHead : f a with
      | error stop =>
          rw [hHead] at hMap
          cases hMap
      | ok b =>
          rw [hHead] at hMap
          cases hTail : items.mapM f with
          | error stop =>
              simp only [hTail] at hMap
              cases hMap
          | ok rest =>
              simp only [hTail] at hMap
              cases hMap
              exact .cons hHead (ih hTail)

/- Blocks of one length lie one after the other. -/
theorem getD_flatten
    {blocks : List (List UInt8)}
    {width : Nat}
    (hWidth : ∀ block ∈ blocks, block.length = width)
    {i j : Nat}
    (hi : i < blocks.length)
    (hj : j < width) :
    blocks.flatten.getD (i * width + j) 0 =
      (blocks[i]).getD j 0 := by
  induction blocks generalizing i with
  | nil => cases hi
  | cons block blocks ih =>
      have hHead := hWidth block (by simp)
      rw [List.flatten_cons]
      cases i with
      | zero =>
          rw [Nat.zero_mul, Nat.zero_add, List.getD_append]
          · rfl
          · rw [hHead]
            exact hj
      | succ i =>
          have hOffset : (i + 1) * width + j - block.length =
              i * width + j := by
            rw [hHead, Nat.succ_mul]
            omega
          rw [List.getD_append_right]
          · rw [hOffset]
            exact ih (fun b hMem => hWidth b
              (List.mem_cons_of_mem _ hMem))
              (Nat.lt_of_succ_lt_succ hi)
          · rw [hHead, Nat.succ_mul]
            omega

/- The directory of the tool, as the blocks it writes. -/
structure Blocks
    (tool : Tool)
    (raw : List (List UInt8)) : Prop where
  length : raw.length = 64
  width : ∀ block ∈ raw, block.length = 64
  entry : ∀ i : Fin 64, ∀ h : i.val < raw.length,
    Tool.entryBytes (tool.entries i) = .ok raw[i.val]

variable {raw : List (List UInt8)} {tool : Tool}

theorem blocks_of_mapM
    (hRaw : ((List.finRange 64).mapM fun i =>
      Tool.entryBytes (tool.entries i)) = .ok raw) :
    Blocks tool raw := by
  have hAll := mapM_ok hRaw
  have hLength := hAll.length_eq
  rw [List.length_finRange] at hLength
  have hEntry : ∀ i : Fin 64, ∀ h : i.val < raw.length,
      Tool.entryBytes (tool.entries i) =
        .ok raw[i.val] := by
    intro i h
    have hGet := List.forall₂_iff_get.mp hAll
    have hAt := hGet.2 i.val (by simp) h
    simpa using hAt
  refine ⟨hLength.symm, ?_, hEntry⟩
  intro block hMem
  rcases List.getElem_of_mem hMem with ⟨i, hi, hBlock⟩
  have hBytes := hEntry ⟨i, by omega⟩ hi
  rw [← hBlock]
  exact length_entryBytes hBytes

theorem Blocks.length_flatten
    (hBlocks : Blocks tool raw) :
    raw.flatten.length = 4096 := by
  rw [List.length_flatten,
    List.eq_replicate_of_mem (l := raw.map List.length)
      (a := 64)]
  · rw [List.length_map, hBlocks.length,
      List.sum_replicate]
    rfl
  · intro n hMem
    rcases List.mem_map.mp hMem with ⟨block, hBlock, rfl⟩
    exact hBlocks.width block hBlock

/- The superblock of the tool. -/
def toolSuper (tool : Tool) : Super where
  magic := kvfsMagic
  version := kvfsVersion
  totalSectors := .ofNat tool.total
  dataStart := dataStart
  fileCount := .ofNat tool.used
  reserved0 := 0
  reserved1 := 0
  reserved2 := 0

/- What an image holds once the tool has rewritten it. -/
structure Flushed
    (tool : Tool)
    (im im' : Image) : Prop where
  total : tool.total < 2 ^ 32
  packs : ∀ i e, tool.entries i = some e → Packs e
  length : im'.length = max im.length (2057 * 512)
  super : Super.ofSector (im'.disk kvfsBase.toNat) =
    toolSuper tool
  dir : diskDir im'.disk = toolDir tool
  outside : ∀ lba, lba < 2048 ∨ 2057 ≤ lba →
    im'.disk lba = im.disk lba

/- The bytes of a superblock that packs. -/
theorem superBytes_ok
    (hBytes : tool.superBytes = .ok bytes) :
    tool.total < 2 ^ 32 ∧ bytes = [] ++
      [kvfsMagic.toNat, kvfsVersion.toNat, tool.total,
        dataStart.toNat, tool.used, 0, 0, 0].flatMap
          packed ++ List.replicate 480 0 := by
  have hConst : ∀ value : UInt32,
      Tool.pack value.toNat = .ok (packed value.toNat) :=
    fun value => if_pos value.toNat_lt
  unfold Tool.superBytes at hBytes
  rw [hConst, hConst, hConst] at hBytes
  cases hTotal : Tool.pack tool.total with
  | error stop => rw [hTotal] at hBytes; cases hBytes
  | ok total =>
  cases hCount : Tool.pack tool.used with
  | error stop =>
      rw [hTotal, hCount] at hBytes
      cases hBytes
  | ok count =>
      rw [hTotal, hCount] at hBytes
      injection hBytes with hBytes
      have hTotal := pack_ok hTotal
      have hCount := pack_ok hCount
      refine ⟨hTotal.1, ?_⟩
      rw [← hBytes, hTotal.2, hCount.2]
      rfl

/- The kernel reads the superblock back. -/
theorem ofSector_superBytes
    (hBytes : tool.superBytes = .ok bytes)
    {s : Sector}
    (hSector : ∀ i, i < 512 →
      s.toBuf i = bytes.getD i 0) :
    Super.ofSector s = toolSuper tool := by
  have hField := field32_packs [] (List.replicate 480 0)
    [kvfsMagic.toNat, kvfsVersion.toNat, tool.total,
      dataStart.toNat, tool.used, 0, 0, 0]
  rw [← (superBytes_ok hBytes).2, List.length_nil] at hField
  have hRead : ∀ i, (h : i < 8) →
      field32 s.toBuf (4 * i) =
        .ofNat [kvfsMagic.toNat, kvfsVersion.toNat,
          tool.total, dataStart.toNat, tool.used,
          0, 0, 0][i] := by
    intro i hi
    rw [← hField i (by simpa using hi), Nat.zero_add]
    apply field32_congr
    intro k hk
    exact hSector _ (by omega)
  apply Super.ext
  · exact (hRead 0 (by decide)).trans UInt32.ofNat_toNat
  · exact (hRead 1 (by decide)).trans UInt32.ofNat_toNat
  · exact hRead 2 (by decide)
  · exact (hRead 3 (by decide)).trans UInt32.ofNat_toNat
  · exact hRead 4 (by decide)
  · exact hRead 5 (by decide)
  · exact hRead 6 (by decide)
  · exact hRead 7 (by decide)

/- The kernel reads the directory back. -/
theorem Blocks.diskDir_eq
    (hBlocks : Blocks tool raw)
    (im : Image) :
    diskDir ((im.write (2049 * 512) raw.flatten).disk) =
      toolDir tool := by
  have hLength := hBlocks.length_flatten
  funext i
  have hi := i.isLt
  have hRow : i.val < raw.length := by
    rw [hBlocks.length]
    exact hi
  rw [toolDir, ← ofBytes_entryBytes (hBlocks.entry i hRow)]
  have hSector : groupSector i = 2049 + i.val / 8 := rfl
  unfold diskDir
  rw [hSector]
  apply Dirent.ofBytes_congr
  intro j hj
  change (((im.write (2049 * 512) raw.flatten).disk
    (2049 + i.val / 8)).toBuf (i.val % 8 * 64 + j)) = _
  have hOffset : (2049 + i.val / 8 - 2049) * 512 +
      (i.val % 8 * 64 + j) = i.val * 64 + j := by
    omega
  rw [Image.disk_write_inside (by omega)
    (by rw [hLength]; omega) (by omega), hOffset,
    getD_flatten hBlocks.width hRow hj]
  rfl

/- A rewritten image holds what the tool had in memory. -/
theorem flushed_of_flush
    {im im' : Image}
    (hFlush : tool.flush im = .ok im') :
    Flushed tool im im' := by
  unfold Tool.flush at hFlush
  cases hSuper : tool.superBytes with
  | error stop => rw [hSuper] at hFlush; cases hFlush
  | ok super =>
  cases hRaw : (List.finRange 64).mapM (fun i =>
      Tool.entryBytes (tool.entries i)) with
  | error stop =>
      rw [hSuper, hRaw] at hFlush
      cases hFlush
  | ok raw =>
      rw [hSuper, hRaw] at hFlush
      injection hFlush with hFlush
      have hBlocks := blocks_of_mapM hRaw
      have hFlat := hBlocks.length_flatten
      have hBytes := superBytes_ok hSuper
      have hSize : super.length = 512 := by
        rw [hBytes.2, List.length_append, List.length_append,
          List.length_replicate]
        rfl
      change (im.write (2048 * 512) super).write (2049 * 512)
        raw.flatten = im' at hFlush
      subst hFlush
      refine
        { total := hBytes.1
          packs := ?_
          length := ?_
          super := ?_
          dir := hBlocks.diskDir_eq _
          outside := ?_ }
      · intro i e hEntry
        have hRow : i.val < raw.length := by
          rw [hBlocks.length]
          exact i.isLt
        have hPacked := hBlocks.entry i hRow
        rw [hEntry] at hPacked
        exact (entryBytes_some hPacked).1
      · change max (max im.length _) _ = _
        rw [hSize, hFlat, Nat.max_assoc]
        rfl
      · apply ofSector_superBytes hSuper
        intro i hi
        have hBase : kvfsBase.toNat = 2048 := rfl
        rw [hBase, Image.disk_write_outside
            (.inl (by omega)),
          Image.disk_write_inside (Nat.le_refl _)
            (by rw [hSize]) hi]
        simp
      · intro lba hOut
        rw [Image.disk_write_outside
            (by rw [hFlat]; omega),
          Image.disk_write_outside (by rw [hSize]; omega)]

end KvantOS.Kvfs
