import KvantOS.SectorTx.Model

/-
  This file says what the header sector and the backups
  stand for, and that the header written by `header` is one
  that `stx_load` accepts with exactly the same records.

  Key definitions include:
    * `ClosedHeader`, `ClosedLog`, `ValidLog`
    * `RecordsOk`

  Key theorems include:
    * `closedHeader_headerSector`, `validLog_of_header`
    * `ValidLog.unique`
-/

--
-- Validated Logs
--

namespace KvantOS

/- A valid header sector that names no transaction. -/
structure ClosedHeader
    (io : StxIo)
    (sector : Sector) : Prop where
  header : headerValid io sector.toBuf = true
  state : sector.toBuf.get32 32 = 0
  count : sector.toBuf.get32 36 = 0

/- The log on this disk names no transaction. -/
abbrev ClosedLog
    (io : StxIo)
    (disk : Nat → Sector) : Prop :=
  ClosedHeader io (disk io.journal)

/-
  The records may be restored: targets in range and pairwise
  distinct, and every backup matching its checksum.
-/
structure RecordsOk
    (io : StxIo)
    (undo : List UndoRecord) : Prop where
  length : undo.length ≤ stxMax
  targets : ∀ u ∈ undo, targetOk io u.lba = true
  distinct : (undo.map UndoRecord.lba).Nodup
  checksums : ∀ u ∈ undo,
    stxCrc32 u.old.toBuf 512 = u.crc

/-
  The header sector is valid, it is active, and it and the
  backup slots hold exactly these records.
-/
structure ValidLog
    (io : StxIo)
    (disk : Nat → Sector)
    (undo : List UndoRecord) : Prop where
  header : headerValid io (disk io.journal).toBuf = true
  state : (disk io.journal).toBuf.get32 32 = 1
  count : (disk io.journal).toBuf.get32 36 = undo.length
  lbas : ∀ i (hi : i < undo.length),
    undo[i].lba = (disk io.journal).toBuf.get32 (40 + 8 * i)
  crcs : ∀ i (hi : i < undo.length),
    undo[i].crc = (disk io.journal).toBuf.get32 (44 + 8 * i)
  olds : ∀ i (hi : i < undo.length),
    undo[i].old = disk (io.journal + 1 + i)
  records : RecordsOk io undo

theorem RecordsOk.nil (io : StxIo) :
    RecordsOk io [] where
  length := by simp [stxMax]
  targets := by simp
  distinct := by simp
  checksums := by simp

variable {io : StxIo} {undo : List UndoRecord}

/- One more good record with a fresh target. -/
theorem RecordsOk.append
    {u : UndoRecord}
    (hOk : RecordsOk io undo)
    (hLength : undo.length < stxMax)
    (hTarget : targetOk io u.lba = true)
    (hFresh : ∀ w ∈ undo, w.lba ≠ u.lba)
    (hCrc : stxCrc32 u.old.toBuf 512 = u.crc) :
    RecordsOk io (undo ++ [u]) where
  length := by
    rw [List.length_append]
    exact hLength
  targets w hw := by
    rcases List.mem_append.mp hw with hOld | hNew
    · exact hOk.targets w hOld
    · rw [List.mem_singleton.mp hNew]
      exact hTarget
  distinct := by
    rw [List.map_append, List.nodup_append]
    refine ⟨hOk.distinct, by simp, ?_⟩
    intro a ha b hb
    obtain ⟨w, hw, rfl⟩ := List.mem_map.mp ha
    simp only [List.map_cons, List.map_nil,
      List.mem_singleton] at hb
    rw [hb]
    exact hFresh w hw
  checksums w hw := by
    rcases List.mem_append.mp hw with hOld | hNew
    · exact hOk.checksums w hOld
    · rw [List.mem_singleton.mp hNew]
      exact hCrc

variable {disk : Nat → Sector}

/- The disk determines the records of a valid log. -/
theorem ValidLog.unique
    {us vs : List UndoRecord}
    (hUs : ValidLog io disk us)
    (hVs : ValidLog io disk vs) :
    us = vs := by
  have hLength : us.length = vs.length :=
    hUs.count.symm.trans hVs.count
  apply List.ext_getElem hLength
  intro i hi hj
  have hLba := (hUs.lbas i hi).trans (hVs.lbas i hj).symm
  have hCrc := (hUs.crcs i hi).trans (hVs.crcs i hj).symm
  have hOld := (hUs.olds i hi).trans (hVs.olds i hj).symm
  cases hu : us[i]
  cases hv : vs[i]
  simp_all

/- A log is not both closed and active. -/
theorem ClosedLog.not_valid
    (hClosed : ClosedLog io disk) :
    ¬ ValidLog io disk undo := by
  intro hValid
  have hState := hClosed.state.symm.trans hValid.state
  omega

--
-- Geometry Facts
--

/- Targets of an accepted configuration are 32-bit. -/
theorem configOk_bounds
    (hConfig : configOk io = true) :
    0 < io.count ∧ io.first + io.count < 2 ^ 32 := by
  unfold configOk at hConfig
  by_cases hGuard :
      (!io.read || !io.write || !io.sync ||
        io.count == 0 ||
        decide (io.count > u32Max - io.first)) = true
  · rw [if_pos hGuard] at hConfig
    contradiction
  · simp only [Bool.or_eq_true, beq_iff_eq,
      decide_eq_true_eq, not_or] at hGuard
    simp only [u32Max] at hGuard
    omega

/- The journal has room and lies apart from the targets. -/
theorem configOk_journal
    (hConfig : configOk io = true)
    (hJournal : io.journalCount ≠ 0) :
    stxMax + 1 ≤ io.journalCount ∧
      io.journal + io.journalCount < 2 ^ 32 ∧
      (io.first + io.count ≤ io.journal ∨
        io.journal + io.journalCount ≤ io.first) := by
  unfold configOk at hConfig
  by_cases hGuard :
      (!io.read || !io.write || !io.sync ||
        io.count == 0 ||
        decide (io.count > u32Max - io.first)) = true
  · rw [if_pos hGuard] at hConfig
    contradiction
  · rw [if_neg hGuard, if_neg (by simpa using hJournal)]
      at hConfig
    simp only [Bool.and_eq_true, Bool.or_eq_true,
      decide_eq_true_eq] at hConfig
    simp only [stxMax, u32Max] at hConfig ⊢
    omega

theorem targetOk_iff
    {lba : Nat} :
    targetOk io lba = true ↔
      io.first ≤ lba ∧ lba < io.first + io.count := by
  simp only [targetOk, Bool.and_eq_true,
    decide_eq_true_eq]
  omega

/- Neither the header nor a slot is a target. -/
theorem targetOk_ne_journal
    (hConfig : configOk io = true)
    (hJournal : io.journalCount ≠ 0)
    {lba i : Nat}
    (hTarget : targetOk io lba = true)
    (hi : i ≤ stxMax) :
    lba ≠ io.journal + i := by
  have hGeometry := configOk_journal hConfig hJournal
  rw [targetOk_iff] at hTarget
  omega

theorem stxCrc32_lt
    (data : Buf)
    (n : Nat) :
    stxCrc32 data n < 2 ^ 32 :=
  UInt32.toNat_lt _

--
-- Reading Back the Header
--

/- Bytes outside the record area are not touched. -/
theorem putRecords_outside
    {b : Buf}
    {i off : Nat}
    (hOut : off < 40 + 8 * i ∨
      40 + 8 * (i + undo.length) ≤ off) :
    putRecords b i undo off = b off := by
  induction undo generalizing b i with
  | nil => rfl
  | cons u us ih =>
      rw [List.length_cons] at hOut
      rw [putRecords, ih (by omega),
        Buf.put32_outside (by omega),
        Buf.put32_outside (by omega)]

theorem get32_putRecords_outside
    {b : Buf}
    {i off : Nat}
    (hOut : off + 4 ≤ 40 + 8 * i ∨
      40 + 8 * (i + undo.length) ≤ off) :
    (putRecords b i undo).get32 off = b.get32 off := by
  apply Buf.get32_congr
  intro k hk
  apply putRecords_outside
  omega

/- Every stored record is read back modulo `2 ^ 32`. -/
theorem get32_putRecords
    (b : Buf)
    (i : Nat)
    (undo : List UndoRecord)
    (k : Nat)
    (hk : k < undo.length) :
    (putRecords b i undo).get32 (40 + 8 * (i + k)) =
        undo[k].lba % 2 ^ 32 ∧
      (putRecords b i undo).get32 (44 + 8 * (i + k)) =
        undo[k].crc % 2 ^ 32 := by
  induction undo generalizing b i k with
  | nil => exact absurd hk (Nat.not_lt_zero k)
  | cons u us ih =>
      cases k with
      | zero =>
          simp only [putRecords, List.getElem_cons_zero,
            Nat.add_zero]
          rw [get32_putRecords_outside (by omega),
            get32_putRecords_outside (by omega),
            Buf.get32_put32_ne (by omega),
            Buf.get32_put32_same, Buf.get32_put32_same]
          exact ⟨rfl, rfl⟩
      | succ k =>
          have hNext := ih
            ((b.put32 (40 + 8 * i) u.lba).put32
              (44 + 8 * i) u.crc)
            (i + 1) k (by simpa using hk)
          have hIndex : i + (k + 1) = i + 1 + k := by
            omega
          simpa only [putRecords, hIndex,
            List.getElem_cons_succ] using hNext

variable {active : Bool}

/- The fixed fields survive the records. -/
theorem get32_headerFields
    {off : Nat}
    (hOff : off + 4 ≤ 40) :
    (headerFields io active undo).get32 off =
      (headerBase io active undo.length).get32 off := by
  cases active with
  | false => rfl
  | true => exact get32_putRecords_outside (by omega)

theorem headerFields_magic
    {i : Nat}
    (hi : i < 8) :
    headerFields io active undo i = stxMagicBuf i := by
  have hBase :
      headerFields io active undo i =
        headerBase io active undo.length i := by
    cases active with
    | false => rfl
    | true => exact putRecords_outside (by omega)
  rw [hBase]
  simp (disch := omega) only [headerBase,
    Buf.put32_outside]
  rw [Buf.copy_inside (by omega) (by omega)]
  rfl

/- The fields of the written header, as `stx_load` sees them. -/
theorem get32_headerSector
    {off : Nat}
    (hOff : off + 4 ≤ 508) :
    (headerSector io active undo).toBuf.get32 off =
      (headerFields io active undo).get32 off := by
  simp only [headerSector]
  rw [Buf.get32_toSector (by omega),
    Buf.get32_put32_ne (by omega)]

/- The checksum covers the bytes below it only. -/
theorem stxCrc32_congr
    {a b : Buf}
    {n : Nat}
    (hSame : ∀ i, i < n → a i = b i) :
    stxCrc32 a n = stxCrc32 b n := by
  have hFold := List.foldl_ext
    (fun c i => crcByte c (a i))
    (fun c i => crcByte c (b i)) (~~~0)
    (l := List.range n)
    (fun c i hi => by rw [hSame i (List.mem_range.mp hi)])
  rw [stxCrc32, stxCrc32, hFold]

/- `stx_load` accepts every header that `header` writes. -/
theorem headerValid_headerSector
    (hConfig : configOk io = true)
    (hJournal : io.journalCount ≠ 0)
    (hLength : undo.length ≤ stxMax) :
    headerValid io
      (headerSector io active undo).toBuf = true := by
  have hBounds := configOk_bounds hConfig
  have hGeometry := configOk_journal hConfig hJournal
  have hIdentity := io.identity.toNat_lt
  simp only [stxMax] at hLength hGeometry
  have hMagic :
      Buf.same (headerSector io active undo).toBuf
        stxMagicBuf 8 = true := by
    rw [Buf.same_iff]
    intro i hi
    simp only [headerSector]
    rw [Buf.toBuf_toSector (by omega),
      Buf.put32_outside (by omega),
      headerFields_magic hi]
  have hCrc :
      (headerSector io active undo).toBuf.get32 508 =
        stxCrc32 (headerSector io active undo).toBuf
          508 := by
    have hSame :
        stxCrc32 (headerSector io active undo).toBuf 508 =
          stxCrc32 (headerFields io active undo) 508 := by
      apply stxCrc32_congr
      intro i hi
      simp only [headerSector]
      rw [Buf.toBuf_toSector (by omega),
        Buf.put32_outside (by omega)]
    rw [hSame]
    simp only [headerSector]
    rw [Buf.get32_toSector (by omega),
      Buf.get32_put32_same]
    exact Nat.mod_eq_of_lt (stxCrc32_lt _ _)
  simp only [headerValid, hMagic, hCrc, stxMax]
  simp (disch := omega) only [get32_headerSector,
    get32_headerFields]
  simp (disch := omega) only [headerBase,
    Buf.get32_put32_ne, Buf.get32_put32_same]
  cases active <;>
    simp (disch := omega) [Nat.mod_eq_of_lt]
  omega

/- The closed header does not depend on the records. -/
theorem headerSector_closed
    (io : StxIo)
    (undo : List UndoRecord) :
    headerSector io false undo =
      headerSector io false [] := by
  simp [headerSector, headerFields, headerBase]

/- The header that `header(t, 0)` leaves is closed. -/
theorem closedHeader_headerSector
    (hConfig : configOk io = true)
    (hJournal : io.journalCount ≠ 0)
    (undo : List UndoRecord) :
    ClosedHeader io (headerSector io false undo) := by
  rw [headerSector_closed]
  constructor
  · exact headerValid_headerSector hConfig hJournal
      (Nat.zero_le _)
  · rw [get32_headerSector (by omega),
      get32_headerFields (by omega)]
    simp (disch := omega) [headerBase,
      Buf.get32_put32_ne]
  · rw [get32_headerSector (by omega),
      get32_headerFields (by omega)]
    simp [headerBase]

/-
  The log that `header(t, 1)` leaves holds its records, once
  their backups are in their slots.
-/
theorem validLog_of_header
    (hConfig : configOk io = true)
    (hJournal : io.journalCount ≠ 0)
    (hOk : RecordsOk io undo)
    (hHeader :
      disk io.journal = headerSector io true undo)
    (hSlots : ∀ i (hi : i < undo.length),
      disk (io.journal + 1 + i) = undo[i].old) :
    ValidLog io disk undo := by
  have hBounds := configOk_bounds hConfig
  have hLength := hOk.length
  simp only [stxMax] at hLength
  have hRecord :
      ∀ i (hi : i < undo.length),
        (disk io.journal).toBuf.get32 (40 + 8 * i) =
            undo[i].lba % 2 ^ 32 ∧
          (disk io.journal).toBuf.get32 (44 + 8 * i) =
            undo[i].crc % 2 ^ 32 := by
    intro i hi
    have hPut := get32_putRecords
      (headerBase io true undo.length) 0 undo i hi
    rw [Nat.zero_add] at hPut
    rw [hHeader, get32_headerSector (by omega),
      get32_headerSector (by omega)]
    exact hPut
  constructor
  · rw [hHeader]
    exact headerValid_headerSector hConfig hJournal
      hOk.length
  · rw [hHeader, get32_headerSector (by omega),
      get32_headerFields (by omega)]
    simp (disch := omega) [headerBase,
      Buf.get32_put32_ne]
  · rw [hHeader, get32_headerSector (by omega),
      get32_headerFields (by omega)]
    simp only [headerBase, if_true,
      Buf.get32_put32_same]
    omega
  · intro i hi
    have hTarget := targetOk_iff.mp
      (hOk.targets undo[i] (List.getElem_mem hi))
    rw [(hRecord i hi).1]
    omega
  · intro i hi
    have hCrc :=
      hOk.checksums undo[i] (List.getElem_mem hi)
    have hLt := stxCrc32_lt undo[i].old.toBuf 512
    rw [(hRecord i hi).2]
    omega
  · intro i hi
    exact (hSlots i hi).symm
  · exact hOk

end KvantOS
