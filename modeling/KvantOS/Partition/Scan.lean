import KvantOS.Partition.Gpt
import Mathlib

/-
  This file shows that the scan of an accepted table sees
  the slots in order, each with the bytes that the checksum
  was taken of, and mounts only what lies inside the usable
  range.

  Key definitions include:
    * `slotOf`, `ScanSound`

  Key theorems include:
    * `useSlot_inv`, `scanLoop_run`, `gpt_scan_sound`
-/

namespace KvantOS.Partition

--
-- Slots
--

/- The bytes of a slot of the array. -/
def slotEntry
    (m : Media)
    (t : GptTable)
    (i : Nat) : Buf :=
  ((m.byte t.entries).drop (i * t.size)).take t.size

/- What a scan of the whole array sees in a slot. -/
def slotOf
    (dev : BlkDisk)
    (m : Media)
    (t : GptTable)
    (i : Nat) : SlotSeen :=
  ⟨i, slotEntry m t i, slotCall dev t i (slotEntry m t i)⟩

variable {p q : Buf}

theorem slotUsed_congr
    (hSame : ∀ j, j < 16 → p j = q j) :
    slotUsed p = slotUsed q := by
  unfold slotUsed
  congr 1
  apply List.foldl_ext
  intro t n hn
  rw [hSame n (List.mem_range.mp hn)]

/- A call depends on the first 48 bytes of a slot. -/
theorem slotCall_congr
    (dev : BlkDisk)
    (t : GptTable)
    (i : Nat)
    (hSame : ∀ j, j < 48 → p j = q j) :
    slotCall dev t i p = slotCall dev t i q := by
  have hUsed : slotUsed p = slotUsed q :=
    slotUsed_congr (fun j hj => hSame j (by omega))
  have hStart : p.get64 32 = q.get64 32 :=
    Buf.get64_congr (fun j hj => hSame _ (by omega))
  have hStop : p.get64 40 = q.get64 40 :=
    Buf.get64_congr (fun j hj => hSame _ (by omega))
  unfold slotCall
  rw [hUsed, hStart, hStop]

variable {i : Nat}

/- A call is for a used slot inside the usable range. -/
theorem slotCall_some
    {dev : BlkDisk}
    {t : GptTable}
    {c : MountCall}
    (hLast : t.last < 2 ^ 32 - 1)
    (hCall : slotCall dev t i p = some c) :
    slotUsed p = true ∧ t.first ≤ p.get64 32 ∧
      p.get64 32 ≤ p.get64 40 ∧ p.get64 40 ≤ t.last ∧
      c = ⟨volumeName dev.disk (i + 1), p.get64 32,
        p.get64 40 - p.get64 32 + 1⟩ := by
  unfold slotCall at hCall
  split at hCall
  · exact absurd hCall nofun
  · rename_i hUsed
    rw [Bool.not_eq_true', Bool.not_eq_false] at hUsed
    dsimp only at hCall
    split at hCall
    · exact absurd hCall nofun
    · rename_i hRange
      simp only [Bool.or_eq_true, decide_eq_true_eq,
        not_or, not_lt] at hRange
      have hStart : u32 (p.get64 32) = p.get64 32 :=
        Nat.mod_eq_of_lt (by omega)
      have hSize :
          u32 (u64 (p.get64 40 - p.get64 32 + 1)) =
            p.get64 40 - p.get64 32 + 1 := by
        unfold u32 u64
        omega
      rw [hStart, hSize] at hCall
      exact ⟨hUsed, hRange.1.1, by omega, hRange.2,
        (Option.some.inj hCall).symm⟩

/- Where a slot lies in the array and in its piece. -/
theorem slot_place
    {t : GptTable}
    (hSize : t.size ∣ 4096)
    (hSlot : i < t.count) :
    i * t.size + t.size ≤ t.count * t.size ∧
      i * t.size % 4096 + t.size ≤ 4096 := by
  refine ⟨?_, ?_⟩
  · calc
      i * t.size + t.size = (i + 1) * t.size := by
        rw [Nat.succ_mul]
      _ ≤ t.count * t.size := Nat.mul_le_mul_right _ hSlot
  · have hOff : t.size ∣ i * t.size % 4096 :=
      (Nat.dvd_mod_iff hSize).mpr (Nat.dvd_mul_left _ _)
    have hLt : i * t.size % 4096 < 4096 :=
      Nat.mod_lt _ (by decide)
    generalize i * t.size % 4096 = off at hOff hLt
    obtain ⟨r, rfl⟩ := hOff
    obtain ⟨q, hq⟩ := hSize
    rw [hq] at hLt ⊢
    have hLess : r < q := Nat.lt_of_mul_lt_mul_left hLt
    calc
      t.size * r + t.size = t.size * (r + 1) := by
        rw [Nat.mul_succ]
      _ ≤ t.size * q := Nat.mul_le_mul_left _ hLess

theorem tryMount_inside
    (dev : BlkDisk)
    (drv : Drivers)
    (name : String) :
    Inside (tryMount dev drv name) := by
  intro lba count m b hOut
  unfold tryMount
  split
  · rfl
  · have hFat := drv.fatProbe_inside lba count m b hOut
    generalize drv.fatProbe lba count m = r at hFat
    obtain ⟨found, m'⟩ := r
    cases found with
    | true =>
        exact (drv.fatMount_inside name lba count m' b
          hOut).trans hFat
    | false =>
        have hNtfs := drv.ntfsProbe_inside lba count m' b hOut
        dsimp only
        generalize drv.ntfsProbe lba count m' = r at hNtfs
        obtain ⟨found, m''⟩ := r
        cases found with
        | true =>
            exact (drv.ntfsMount_inside name lba count m'' b
              hOut).trans (hNtfs.trans hFat)
        | false => exact hNtfs.trans hFat

--
-- Invariant
--

/-
  Before slot `i`: the array is as it was when the scan
  began, the sector buffer holds a piece of it or nothing,
  and all the slots before were seen.
-/
structure ScanInv
    (dev : BlkDisk)
    (m : Media)
    (t : GptTable)
    (i : Nat)
    (s : ScanState) : Prop where
  kept : ∀ b, t.entries ≤ b → b < t.entries + t.span →
    s.media.block b = m.block b
  cached : s.loaded ≠ 0xFFFFFFFF →
    ∃ b, s.loaded = t.entries + b * 8 ∧
      ∀ j, j < min (t.span - b * 8) 8 * 512 →
        s.sector j = m.byte t.entries (b * 4096 + j)
  seen : s.seen = (List.range i).map (slotOf dev m t)

section Steps

variable {dev : BlkDisk} {drv : Drivers} {loc : Nat}
variable {m : Media} {t : GptTable}

/- The code counts the blocks that the array fills. -/
theorem gptSectors_span
    (hSound : GptSound dev.sectors loc m t) :
    gptSectors t.count t.size = t.span := by
  have hBytes : gptBytes t.count t.size = t.count * t.size :=
    Nat.mod_eq_of_lt hSound.bytes_fit
  unfold gptSectors GptTable.span
  rw [hBytes]

/- The bytes that a kept array has. -/
theorem byte_kept
    {now : Media}
    (hKept : ∀ b, t.entries ≤ b →
      b < t.entries + t.span → now.block b = m.block b)
    {k j : Nat}
    (hByte : k * 8 + j / 512 < t.span) :
    now.byte (t.entries + k * 8) j =
      m.byte t.entries (k * 4096 + j) := by
  unfold Media.byte
  have hBlock : t.entries + k * 8 + j / 512 =
      t.entries + (k * 4096 + j) / 512 := by
    omega
  have hOff : j % 512 = (k * 4096 + j) % 512 := by
    omega
  rw [hBlock, hOff]
  exact congrFun (hKept _ (by omega) (by omega)) _

/-
  The buffer holds the piece of a slot afterwards, or a read
  failed.
-/
theorem loadSlot_inv
    (hSound : GptSound dev.sectors loc m t)
    {i : Nat}
    {s : ScanState}
    (hInv : ScanInv dev m t i s)
    {off : Nat}
    (hOff : off < t.count * t.size) :
    (∃ next, (loadSlot dev t off s).1 = some next ∧
      ScanInv dev m t i next ∧
      next.loaded = t.entries + off / 4096 * 8) ∨
    ((loadSlot dev t off s).1 = none ∧
      ∃ n, dev.fails n = true) := by
  have hPlace : off / 4096 * 8 < t.span := by
    unfold GptTable.span
    omega
  have hFits := hSound.array_fits
  have hHigh := hSound.array_high
  have hLba : u32 (t.entries + off / 4096 * 8) =
      t.entries + off / 4096 * 8 :=
    Nat.mod_eq_of_lt (by omega)
  unfold loadSlot
  dsimp only
  rw [hLba, gptSectors_span hSound]
  generalize off / 4096 = k at hPlace
  by_cases hLoaded : s.loaded = t.entries + k * 8
  · rw [if_neg (by simp [hLoaded])]
    exact .inl ⟨s, rfl, hInv, hLoaded⟩
  · rw [if_pos (by simp [hLoaded])]
    generalize hN : min (t.span - k * 8) 8 = n
    cases hFails : dev.fails s.media.reads with
    | true =>
        refine .inr ⟨?_, _, hFails⟩
        have hRead : (diskRead dev (t.entries + k * 8) n
            s.media).1 = none := by
          unfold diskRead
          rw [if_pos (by simp [hFails])]
        generalize diskRead dev (t.entries + k * 8) n
          s.media = r at hRead
        obtain ⟨read, m'⟩ := r
        subst hRead
        rfl
    | false =>
        have hRead : (diskRead dev (t.entries + k * 8) n
            s.media).1 =
              some (s.media.byte (t.entries + k * 8)) :=
          diskRead_ok (by omega) (by omega) hFails
        generalize hR : diskRead dev (t.entries + k * 8) n
          s.media = r at hRead
        obtain ⟨read, m'⟩ := r
        subst hRead
        have hBlock := (diskRead_some hR).2
        refine .inl ⟨_, rfl, ?_, rfl⟩
        exact
          { kept := fun b hLow hTop =>
              (congrFun hBlock b).trans
                (hInv.kept b hLow hTop)
            cached := fun _ => by
              refine ⟨k, rfl, ?_⟩
              intro j hj
              rw [hN] at hj
              dsimp only
              rw [Buf.copy_inside (Nat.zero_le _) (by omega),
                Nat.sub_zero]
              exact byte_kept hInv.kept (by omega)
            seen := hInv.seen }

variable {s : ScanState}

/- The slot that the loaded buffer shows. -/
theorem slot_loaded
    (hSound : GptSound dev.sectors loc m t)
    (hInv : ScanInv dev m t i s)
    (hSlot : i < t.count)
    (hLoaded :
      s.loaded = t.entries + i * t.size / 4096 * 8) :
    (s.sector.drop (i * t.size % 4096)).take t.size =
      slotEntry m t i := by
  have ⟨hInside, hPiece⟩ := slot_place hSound.slots.2 hSlot
  have hFits := hSound.array_fits
  have hHigh := hSound.array_high
  have hBlocks : t.count * t.size ≤ t.span * 512 := by
    unfold GptTable.span
    omega
  have hSize := hSound.slots.1
  obtain ⟨k, hPlace, hBytes⟩ := hInv.cached (by
    have := dev.fits
    omega)
  generalize hOff : i * t.size = off at *
  have hK : k = off / 4096 := by
    omega
  unfold slotEntry Buf.take Buf.drop
  funext j
  by_cases hj : j < t.size
  · rw [if_pos hj, if_pos hj, hBytes _ (by omega), hOff]
    congr 1
    omega
  · rw [if_neg hj, if_neg hj]

theorem useSlot_inv
    (hSound : GptSound dev.sectors loc m t)
    (hInv : ScanInv dev m t i s)
    (hSlot : i < t.count)
    (hLoaded :
      s.loaded = t.entries + i * t.size / 4096 * 8) :
    ScanInv dev m t (i + 1)
      (useSlot dev drv t i (i * t.size) s) := by
  have hEntry := slot_loaded hSound hInv hSlot hLoaded
  have hSize := hSound.slots.1
  have hCall :
      slotCall dev t i (s.sector.drop (i * t.size % 4096)) =
        slotCall dev t i (slotEntry m t i) := by
    rw [← hEntry]
    apply slotCall_congr
    intro j hj
    exact (Buf.take_inside (by omega)).symm
  have hSeen : s.seen ++ [⟨i, slotEntry m t i,
      slotCall dev t i (slotEntry m t i)⟩] =
      (List.range (i + 1)).map (slotOf dev m t) := by
    rw [List.range_succ, List.map_append, hInv.seen]
    rfl
  unfold useSlot
  dsimp only
  rw [hCall, hEntry, hSeen]
  split
  · exact
      { kept := hInv.kept
        cached := hInv.cached
        seen := rfl }
  · rename_i c hSome
    have hFits := hSound.room_after
    have hDisk := dev.fits
    obtain ⟨_, hLow, hOrder, hHigh, rfl⟩ :=
      slotCall_some (by omega) hSome
    refine
      { kept := ?_
        cached := hInv.cached
        seen := rfl }
    intro b hFrom hTo
    -- The partition lies in the usable range, and the array
    -- lies on one side of it.
    have hApart := hSound.apart
    exact (tryMount_inside dev drv _ _ _ _ b (by
      dsimp only
      omega)).trans (hInv.kept b hFrom hTo)

/-
  The loop sees the slots from `i` on, all of them unless a
  read fails.
-/
theorem scanLoop_run
    (hSound : GptSound dev.sectors loc m t)
    {left i : Nat}
    {s : ScanState}
    (hInv : ScanInv dev m t i s)
    (hLeft : i + left = t.count) :
    ∃ k, k ≤ t.count ∧
      (scanLoop dev drv t left i s).seen =
        (List.range k).map (slotOf dev m t) ∧
      ((∀ n, dev.fails n = false) → k = t.count) := by
  induction left generalizing i s with
  | zero =>
      exact ⟨i, by omega, hInv.seen, fun _ => by omega⟩
  | succ left hInd =>
      have hInside := (slot_place hSound.slots.2
        (i := i) (by omega)).1
      have hBytes := hSound.bytes_fit
      have hSize := hSound.slots.1
      have hOff : u32 (i * t.size) = i * t.size :=
        Nat.mod_eq_of_lt (by omega)
      have hLoad := @loadSlot_inv dev loc m t hSound i s
        hInv (i * t.size) (by omega)
      unfold scanLoop
      dsimp only
      rw [hOff]
      generalize loadSlot dev t (i * t.size) s = r at hLoad
      obtain ⟨loaded, m'⟩ := r
      rcases hLoad with
        ⟨next, hNext, hNextInv, hPlace⟩ | ⟨hNone, n, hFail⟩
      · subst hNext
        exact hInd
          (useSlot_inv hSound hNextInv (by omega) hPlace)
          (by omega)
      · subst hNone
        refine ⟨i, by omega, hInv.seen, ?_⟩
        intro hWorks
        exact absurd hFail (by simp [hWorks n])

end Steps

--
-- Scans
--

/-
  A scan of an accepted table. It sees the slots in order,
  each of them once and with the bytes of the checksum, all
  of them when no read fails. It calls the drivers for used
  slots whose partition is inside the usable range.
-/
structure ScanSound
    (dev : BlkDisk)
    (m : Media)
    (t : GptTable)
    (s : ScanState) : Prop where
  seen : s.seen =
    (List.range s.seen.length).map (slotOf dev m t)
  bounded : s.seen.length ≤ t.count
  whole : (∀ n, dev.fails n = false) →
    s.seen.length = t.count
  calls : ∀ x c, x ∈ s.seen → x.call = some c →
    slotUsed x.entry = true ∧
      t.first ≤ x.entry.get64 32 ∧
      x.entry.get64 32 ≤ x.entry.get64 40 ∧
      x.entry.get64 40 ≤ t.last ∧
      c = ⟨volumeName dev.disk (x.slot + 1),
        x.entry.get64 32,
        x.entry.get64 40 - x.entry.get64 32 + 1⟩

/- The copy of the table that was found. -/
theorem findTable_sound
    {dev : BlkDisk}
    {m m' : Media}
    {t : GptTable}
    (hFind : findTable dev m = (some t, m')) :
    m'.block = m.block ∧
      ∃ loc, (loc = 1 ∨ loc = dev.sectors - 1) ∧
        GptSound dev.sectors loc m t := by
  have hFirst := gptTable_block dev 1 m
  unfold findTable at hFind
  split at hFind
  · rename_i found after hOne
    cases hFind
    rw [hOne] at hFirst
    exact ⟨hFirst, 1, .inl rfl, gptTable_sound hOne⟩
  · rename_i after hNone
    rw [hNone] at hFirst
    have hLast := gptTable_block dev (dev.sectors - 1) after
    rw [hFind] at hLast
    exact ⟨hLast.trans hFirst, _, .inr rfl,
      (gptTable_sound hFind).congr hFirst.symm⟩

theorem findTable_large
    {dev : BlkDisk}
    {m m' : Media}
    {t : GptTable}
    (hFind : findTable dev m = (some t, m')) :
    ¬ dev.sectors < 68 := by
  intro hSmall
  unfold findTable gptTable at hFind
  simp [hSmall] at hFind

/-
  Whatever the disk holds, a table that is accepted at a
  block is sound, and a scan keeps to the table it found:
  without one it calls no driver.
-/
theorem gpt_scan_sound
    (dev : BlkDisk)
    (drv : Drivers)
    (held : Buf)
    (m : Media) :
    (∀ loc t m', gptTable dev loc m = (some t, m') →
      GptSound dev.sectors loc m t) ∧
    (∀ t m', findTable dev m = (some t, m') →
      (∃ loc, (loc = 1 ∨ loc = dev.sectors - 1) ∧
        GptSound dev.sectors loc m t) ∧
      ScanSound dev m t (scanGpt dev drv held m)) ∧
    ((findTable dev m).1 = none →
      (scanGpt dev drv held m).seen = []) := by
  refine ⟨fun _ _ _ => gptTable_sound, ?_, ?_⟩
  · intro t m' hFind
    have ⟨hBlock, loc, hLoc, hSound⟩ :=
      findTable_sound hFind
    refine ⟨⟨loc, hLoc, hSound⟩, ?_⟩
    have hInv : ScanInv dev m t 0
        ⟨m', held, 0xFFFFFFFF, 0, []⟩ :=
      { kept := fun b _ _ => congrFun hBlock b
        cached := fun hLoaded => absurd rfl hLoaded
        seen := rfl }
    obtain ⟨k, hBound, hSeen, hWhole⟩ :=
      @scanLoop_run dev drv loc m t hSound t.count 0 _ hInv
        (Nat.zero_add t.count)
    have hScan : scanGpt dev drv held m =
        scanLoop dev drv t t.count 0
          ⟨m', held, 0xFFFFFFFF, 0, []⟩ := by
      unfold scanGpt
      rw [if_neg (findTable_large hFind), hFind]
    have hLength :
        (scanGpt dev drv held m).seen.length = k := by
      rw [hScan, hSeen, List.length_map, List.length_range]
    have hEq : (scanGpt dev drv held m).seen =
        (List.range k).map (slotOf dev m t) := by
      rw [hScan, hSeen]
    refine
      { seen := by rw [hLength, hEq]
        bounded := hLength ▸ hBound
        whole := fun hWorks => hLength.trans (hWhole hWorks)
        calls := ?_ }
    intro x c hIn hCall
    rw [hEq] at hIn
    obtain ⟨i, _, rfl⟩ := List.mem_map.mp hIn
    have hAfter := hSound.room_after
    have hFits := dev.fits
    exact slotCall_some (by omega) hCall
  · intro hNone
    unfold scanGpt
    dsimp only
    split
    · rfl
    · generalize findTable dev m = r at hNone
      obtain ⟨found, m'⟩ := r
      subst hNone
      rfl

/- A disk of 68 blocks whose table has a single slot. -/
def tinyDisk : BlkDisk where
  disk := 4
  sectors := 68
  fails := fun _ => false
  fits := by decide

def tinyMedia : Media where
  block b :=
    if b = 1 then
      ((((((((((efiPart.put32 8 0x10000).put32 12 92).put32
        16 0xd0cd006f).put64 24 1).put64 32 67).put64 40
        3).put64 48 65).put64 72 2).put32 80 1).put32
        84 128).put32 88 0x98f4457e
    else if b = 2 then
      ((Buf.ofList [1]).put64 32 3).put64 40 60
    else
      Buf.zero
  reads := 0

example : (gptTable tinyDisk 1 tinyMedia).1 =
    some ⟨3, 65, 2, 1, 128⟩ := by
  decide +kernel

end KvantOS.Partition
