import KvantOS.Partition.Model

/-
  This file shows that a table which `gpt_table` accepts is
  sound: its array lies on the disk and away from the usable
  range, every field kept its value, and the checksum was
  taken of the bytes of the array.

  Key definitions include:
    * `GptSound`

  Key theorems include:
    * `crcLoop_run`, `gptTable_sound`
-/

namespace KvantOS.Partition

@[simp]
theorem diskRead_block
    (dev : BlkDisk)
    (lba count : Nat)
    (m : Media) :
    (diskRead dev lba count m).2.block = m.block := by
  unfold diskRead
  split <;> rfl

variable {dev : BlkDisk} {m m' : Media}

variable {lba count : Nat}

/- A read that succeeds hands out what the blocks hold. -/
theorem diskRead_some
    {p : Buf}
    (hRead : diskRead dev lba count m = (some p, m')) :
    p = m.byte lba ∧ m'.block = m.block := by
  unfold diskRead at hRead
  split at hRead
  · exact absurd (congrArg Prod.fst hRead) nofun
  · have hData := congrArg Prod.fst hRead
    exact ⟨(Option.some.inj hData).symm,
      congrArg (fun r => r.2.block) hRead.symm⟩

/- A read inside the disk that does not fail succeeds. -/
theorem diskRead_ok
    (hCount : 0 < count)
    (hInside : lba + count ≤ dev.sectors)
    (hWorks : dev.fails m.reads = false) :
    (diskRead dev lba count m).1 = some (m.byte lba) := by
  unfold diskRead
  rw [if_neg]
  simp only [hWorks, Bool.or_false, Bool.or_eq_true,
    beq_iff_eq, decide_eq_true_eq, not_or]
  omega

theorem byte_shift
    (m : Media)
    (lba : Nat)
    {done : Nat}
    (hDone : done % 512 = 0)
    (i : Nat) :
    m.byte (lba + done / 512) i = m.byte lba (done + i) := by
  unfold Media.byte
  have hBlock : lba + done / 512 + i / 512 =
      lba + (done + i) / 512 := by
    omega
  have hOff : i % 512 = (done + i) % 512 := by
    omega
  rw [hBlock, hOff]

theorem byte_congr
    (hBlock : m'.block = m.block)
    (lba : Nat) :
    m'.byte lba = m.byte lba := by
  funext i
  unfold Media.byte
  rw [hBlock]

--
-- Checksums
--

theorem gptCrc_zero
    (crc : UInt32)
    (p : Buf) :
    gptCrc crc p 0 = crc := by
  unfold gptCrc
  rw [List.range_zero, List.foldl_nil]

variable {n : Nat}

theorem gptCrc_congr
    {p q : Buf}
    (crc : UInt32)
    (hSame : ∀ i, i < n → p i = q i) :
    gptCrc crc p n = gptCrc crc q n := by
  unfold gptCrc
  induction n with
  | zero => simp only [List.range_zero, List.foldl_nil]
  | succ n hInd =>
      rw [List.range_succ, List.foldl_append,
        List.foldl_append,
        hInd (fun i hi => hSame i (by omega))]
      simp only [List.foldl_cons, List.foldl_nil,
        hSame n (by omega)]

/- A checksum can be taken piece by piece. -/
theorem gptCrc_add
    (crc : UInt32)
    (p : Buf)
    (a b : Nat) :
    gptCrc crc p (a + b) =
      gptCrc (gptCrc crc p a) (p.drop a) b := by
  unfold gptCrc Buf.drop
  rw [List.range_add, List.foldl_append, List.foldl_map]

theorem crcLoop_block
    (dev : BlkDisk)
    (entries bytes : Nat)
    (pieces done : Nat)
    (crc : UInt32)
    (m : Media) :
    (crcLoop dev entries bytes pieces done crc m).2.block =
      m.block := by
  induction pieces generalizing done crc m with
  | zero => rfl
  | succ pieces hInd =>
      unfold crcLoop
      split
      · have hBlock := diskRead_block dev
          (u32 (u32 entries + done / 512))
          ((min (bytes - done) 4096 + 511) / 512) m
        dsimp only
        generalize diskRead dev _ _ m = r at hBlock
        obtain ⟨read, m'⟩ := r
        cases read with
        | none => exact hBlock
        | some sector => exact (hInd _ _ _).trans hBlock
      · rfl

/-
  The loop takes the checksum of the rest of the array. Each
  piece but the last ends at the end of a block.
-/
theorem crcLoop_run
    {entries bytes pieces done : Nat}
    {crc c : UInt32}
    (hRun : crcLoop dev entries bytes pieces done crc m =
      (some c, m'))
    (hFits : entries + (bytes + 511) / 512 < 2 ^ 32)
    (hDone : done % 512 = 0 ∨ bytes ≤ done)
    (hPieces : bytes ≤ done + 4096 * pieces) :
    c = gptCrc crc (fun i => m.byte entries (done + i))
      (bytes - done) := by
  induction pieces generalizing done crc m with
  | zero =>
      have hEnd : bytes - done = 0 := by
        omega
      rw [hEnd, gptCrc_zero]
      exact (Option.some.inj
        (congrArg Prod.fst hRun)).symm
  | succ pieces hInd =>
      unfold crcLoop at hRun
      split at hRun
      case isFalse hLast =>
        have hEnd : bytes - done = 0 := by
          omega
        rw [hEnd, gptCrc_zero]
        exact (Option.some.inj
          (congrArg Prod.fst hRun)).symm
      case isTrue hMore =>
        have hAligned : done % 512 = 0 :=
          hDone.resolve_right (by omega)
        have hLba : u32 (u32 entries + done / 512) =
            entries + done / 512 := by
          unfold u32
          omega
        dsimp only at hRun
        rw [hLba] at hRun
        split at hRun
        case h_1 hRead =>
          exact absurd (congrArg Prod.fst hRun) nofun
        case h_2 sector next hRead =>
          have ⟨hSector, hBlock⟩ := diskRead_some hRead
          generalize hPiece :
            min (bytes - done) 4096 = n at hRun
          have hRest := hInd hRun (by omega) (by omega)
          have hSplit :
              bytes - done = n + (bytes - (done + n)) := by
            omega
          rw [hRest, hSplit, gptCrc_add, hSector]
          have hFirst :
              gptCrc crc (m.byte (entries + done / 512)) n =
                gptCrc crc
                  (fun i => m.byte entries (done + i)) n :=
            gptCrc_congr crc (fun i _ =>
              byte_shift m entries hAligned i)
          rw [hFirst]
          apply gptCrc_congr
          intro i _
          rw [byte_congr hBlock]
          unfold Buf.drop
          rw [Nat.add_assoc]

--
-- Geometry
--

/- The blocks that the array of a table fills. -/
def GptTable.span (t : GptTable) : Nat :=
  (t.count * t.size + 511) / 512

/- A geometry that passed the checks. -/
structure GeometryChecked
    (total loc first last entries count stride : Nat) :
    Prop where
  used : 2 ≤ first ∧ first ≤ last ∧ last < total - 1
  array : 2 ≤ entries ∧ entries < total - 1
  slots : 0 < count ∧ count ≤ 1024
  power : stride.isPowerOfTwo
  sizes : 128 ≤ stride ∧ stride ≤ 4096
  bytes : count * stride ≤ 128 * 1024
  before : 2 + (count * stride + 511) / 512 ≤ first
  after : last + (count * stride + 511) / 512 + 2 ≤ total
  fits : entries + (count * stride + 511) / 512 ≤ total - 1
  apart :
    if loc = 1 then
      entries + (count * stride + 511) / 512 ≤ first
    else
      last < entries

theorem gptGeometryOk_checked
    {total loc first last entries count stride : Nat}
    (hTotal : total < 2 ^ 32)
    (hOk : gptGeometryOk total loc first last entries count
      stride = true) :
    GeometryChecked total loc first last entries count
      stride := by
  unfold gptGeometryOk at hOk
  simp only [Bool.or_eq_true, decide_eq_true_eq, beq_iff_eq,
    bne_iff_ne] at hOk
  split at hOk
  · exact absurd hOk nofun
  · rename_i hRange
    split at hOk
    · exact absurd hOk nofun
    · rename_i hSlots
      have hPower : stride &&& (stride - 1) = 0 := by
        by_contra hNot
        exact hSlots (.inr hNot)
      have hCount : count ≤ 1024 := by
        omega
      have hStride : 128 ≤ stride ∧ stride ≤ 4096 := by
        omega
      have hProduct : count * stride ≤ 1024 * 4096 :=
        Nat.mul_le_mul hCount hStride.2
      have hBytes : gptBytes count stride =
          count * stride := by
        unfold gptBytes u32
        omega
      unfold gptSectors at hOk
      rw [hBytes] at hOk
      generalize hArray : count * stride = bytes at hOk
      unfold u64 at hOk
      split at hOk
      · exact absurd hOk nofun
      · split at hOk
        · exact absurd hOk nofun
        · split at hOk
          · exact absurd hOk nofun
          · exact
              { used := by omega
                array := by omega
                slots := by omega
                power := (Nat.and_sub_one_eq_zero_iff_isPowerOfTwo
                  (by omega)).mp hPower
                sizes := hStride
                bytes := by omega
                before := by omega
                after := by omega
                fits := by omega
                apart := by
                  split at hOk <;> rename_i hLoc
                  · rw [if_pos hLoc]
                    simp at hOk
                    omega
                  · rw [if_neg hLoc]
                    simp at hOk
                    omega }

/- The array fills the blocks that the code counts. -/
theorem GeometryChecked.bytes_eq
    {total loc first last entries count stride : Nat}
    (hGeo : GeometryChecked total loc first last entries
      count stride) :
    gptBytes count stride = count * stride := by
  have hBytes := hGeo.bytes
  unfold gptBytes u32
  omega

variable {off : Nat}

/- Beyond the checksum, the header is what was read. -/
theorem fill_get64
    (raw : Buf)
    (hOff : 20 ≤ off) :
    (raw.fill 16 0 4).get64 off = raw.get64 off := by
  apply Buf.get64_congr
  intro i _
  apply if_neg
  omega

theorem fill_get32
    (raw : Buf)
    (hOff : 20 ≤ off) :
    (raw.fill 16 0 4).get32 off = raw.get32 off := by
  apply Buf.get32_congr
  intro i _
  apply if_neg
  omega

--
-- Accepted Tables
--

/-
  A table that describes a disk of `total` blocks soundly:
  its fields are those of the header at `loc`, its array and
  the copies of it have their place outside of the usable
  range, and the header holds the checksum of the array.
-/
structure GptSound
    (total loc : Nat)
    (m : Media)
    (t : GptTable) : Prop where
  first_eq : t.first = (m.byte loc).get64 40
  last_eq : t.last = (m.byte loc).get64 48
  entries_eq : t.entries = (m.byte loc).get64 72
  count_eq : t.count = (m.byte loc).get32 80
  size_eq : t.size = (m.byte loc).get32 84
  count_pos : 0 < t.count
  slots : 128 ≤ t.size ∧ t.size ∣ 4096
  ordered : t.first ≤ t.last
  array_low : 2 ≤ t.entries
  array_high : t.entries + t.span ≤ total - 1
  array_fits : t.entries + t.span < 2 ^ 32
  bytes_fit : t.count * t.size < 2 ^ 32
  apart :
    t.entries + t.span ≤ t.first ∨ t.last < t.entries
  room_before : 2 + t.span ≤ t.first
  room_after : t.last + 1 + t.span ≤ total - 1
  checksum :
    (gptCrc 0xFFFFFFFF (m.byte t.entries)
      (t.count * t.size) ^^^ 0xFFFFFFFF).toNat =
      (m.byte loc).get32 88

variable {t : GptTable}

theorem GptSound.congr
    {total loc : Nat}
    (hSound : GptSound total loc m t)
    (hBlock : m'.block = m.block) :
    GptSound total loc m' t := by
  have hLoc := byte_congr hBlock loc
  have hArray := byte_congr hBlock t.entries
  exact
    { hSound with
      first_eq := hLoc ▸ hSound.first_eq
      last_eq := hLoc ▸ hSound.last_eq
      entries_eq := hLoc ▸ hSound.entries_eq
      count_eq := hLoc ▸ hSound.count_eq
      size_eq := hLoc ▸ hSound.size_eq
      checksum := by
        rw [hLoc, hArray]
        exact hSound.checksum }

/- A power of two that is not over 4096 divides it. -/
theorem dvd_of_power
    (hPower : n.isPowerOfTwo)
    (hLe : n ≤ 4096) :
    n ∣ 4096 := by
  obtain ⟨k, rfl⟩ := hPower
  have hBase : (4096 : Nat) = 2 ^ 12 := rfl
  rw [hBase] at hLe ⊢
  exact Nat.pow_dvd_pow 2
    ((Nat.pow_le_pow_iff_right (by decide)).mp hLe)

theorem gptTable_block
    (dev : BlkDisk)
    (loc : Nat)
    (m : Media) :
    (gptTable dev loc m).2.block = m.block := by
  unfold gptTable
  dsimp only
  split
  · rfl
  have hRead := diskRead_block dev loc 1 m
  generalize diskRead dev loc 1 m = r at hRead
  obtain ⟨raw, next⟩ := r
  cases raw with
  | none => exact hRead
  | some raw =>
      dsimp only at hRead ⊢
      split
      · exact hRead
      split
      · exact hRead
      have hLoop := crcLoop_block dev
        ((raw.fill 16 0 4).get64 72)
        (gptBytes ((raw.fill 16 0 4).get32 80)
          ((raw.fill 16 0 4).get32 84))
        ((gptBytes ((raw.fill 16 0 4).get32 80)
          ((raw.fill 16 0 4).get32 84) + 4095) / 4096)
        0 0xFFFFFFFF next
      generalize crcLoop dev _ _ _ 0 0xFFFFFFFF next = r
        at hLoop
      obtain ⟨crc, after⟩ := r
      cases crc with
      | none => exact hLoop.trans hRead
      | some crc =>
          dsimp only at hLoop ⊢
          split <;> exact hLoop.trans hRead

theorem gptTable_sound
    {loc : Nat}
    (hTable : gptTable dev loc m = (some t, m')) :
    GptSound dev.sectors loc m t := by
  unfold gptTable at hTable
  dsimp only at hTable
  split at hTable
  · exact absurd (congrArg Prod.fst hTable) nofun
  split at hTable
  · exact absurd (congrArg Prod.fst hTable) nofun
  rename_i raw next hRead
  have ⟨hRaw, hNext⟩ := diskRead_some hRead
  split at hTable
  · exact absurd (congrArg Prod.fst hTable) nofun
  split at hTable
  · exact absurd (congrArg Prod.fst hTable) nofun
  rename_i _ hGeometry
  rw [Bool.not_eq_true', Bool.not_eq_false] at hGeometry
  have hGeo := gptGeometryOk_checked dev.fits hGeometry
  rw [hGeo.bytes_eq] at hTable
  split at hTable
  · exact absurd (congrArg Prod.fst hTable) nofun
  rename_i crc after hCrc
  split at hTable
  · exact absurd (congrArg Prod.fst hTable) nofun
  rename_i hSame
  rw [bne_iff_ne, not_not] at hSame
  have hFits := dev.fits
  have hRun := crcLoop_run hCrc
    (by have := hGeo.fits; omega) (.inl rfl) (by omega)
  have hT := Option.some.inj (congrArg Prod.fst hTable)
  rw [fill_get32 _ (by decide)] at hSame
  rw [fill_get64 _ (by decide), fill_get64 _ (by decide),
    fill_get64 _ (by decide), fill_get32 _ (by decide),
    fill_get32 _ (by decide)] at hGeo hT
  rw [fill_get64 _ (by decide), fill_get32 _ (by decide),
    fill_get32 _ (by decide)] at hRun
  rw [hRaw] at hGeo hT hRun hSame
  have hUsed := hGeo.used
  have hArray := hGeo.array
  have hEnd := hGeo.fits
  have hBytes := hGeo.bytes
  have hAfter := hGeo.after
  have hApart := hGeo.apart
  generalize hHeader : m.byte loc = header at *
  have hFirst : u32 (header.get64 40) = header.get64 40 :=
    Nat.mod_eq_of_lt (by omega)
  have hLast : u32 (header.get64 48) = header.get64 48 :=
    Nat.mod_eq_of_lt (by omega)
  have hEntries : u32 (header.get64 72) = header.get64 72 :=
    Nat.mod_eq_of_lt (by omega)
  rw [hFirst, hLast, hEntries] at hT
  subst hT
  exact
    { first_eq := by rw [hHeader]
      last_eq := by rw [hHeader]
      entries_eq := by rw [hHeader]
      count_eq := by rw [hHeader]
      size_eq := by rw [hHeader]
      count_pos := hGeo.slots.1
      slots := ⟨hGeo.sizes.1,
        dvd_of_power hGeo.power hGeo.sizes.2⟩
      ordered := hUsed.2.1
      array_low := hArray.1
      array_high := hEnd
      array_fits := by
        unfold GptTable.span
        dsimp only
        omega
      bytes_fit := by
        dsimp only
        omega
      apart := by
        unfold GptTable.span
        dsimp only
        split at hApart <;> omega
      room_before := hGeo.before
      room_after := by
        unfold GptTable.span
        dsimp only
        omega
      checksum := by
        rw [hHeader, ← hSame, hRun]
        simp only [Nat.sub_zero, Nat.zero_add,
          byte_congr hNext] }

end KvantOS.Partition
