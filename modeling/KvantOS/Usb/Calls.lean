import KvantOS.Usb.Invariant

/-
  This file proves that every call into the USB driver keeps
  its invariant, what a read delivers, and what a grant of
  the write lease has checked.

  Key theorems include:
    * `usbRead_spec`, `usbWrite_spec`
    * `usbFatAuthorize_spec`, `UsbCall.spec`
-/

namespace KvantOS.Usb

section Capacity

variable {s : UsbState} {b : Bus}

/- What a check of the capacity may change. -/
structure Sized
    (disk : Int)
    (s : UsbState)
    (b : Bus)
    (sectors : UInt32)
    (s' : UsbState)
    (b' : Bus) : Prop where
  inv : Inv none s' b'
  media : b'.media = b.media
  grant : NoGrant s s'
  live : sectors ≠ 0 →
    s' = s ∧ b' = b ∧ 0 ≤ disk ∧ disk < s.diskCount ∧
      (s.disks disk).generation = s.enumerationGeneration ∧
      sectors = (s.disks disk).sectors

theorem usbSectors_spec
    (hInv : Inv none s b)
    (disk : Int) :
    UsbSpec (usbSectors disk) (Sized disk s b) s b := by
  unfold usbSectors
  apply spec_state
  apply ProgM.spec_ite
  · intro _
    apply ProgM.spec_pure hInv.safe
    exact ⟨hInv, rfl, fun _ h => h, fun h => absurd rfl h⟩
  intro hRange
  rw [not_or, Int.not_lt, Int.not_le] at hRange
  -- the end of every failing check
  have hLost : ∀ s' b', Inv none s' b' →
      b'.media = b.media → NoGrant s s' →
      UsbSpec (do
        forbid disk
        invalidate disk
        return 0) (Sized disk s b) s' b' := by
    intro s' b' hInv' hMedia hGrant
    apply spec_update
    apply spec_update
    apply ProgM.spec_pure hInv'.safe
    refine ⟨hInv'.giveUp (.inl rfl), hMedia, ?_,
      fun h => absurd rfl h⟩
    intro k hAllowed
    change (Function.update s'.disks disk _ k).writeAllowed =
      true at hAllowed
    by_cases hEq : k = disk
    · rw [hEq, Function.update_self] at hAllowed
      cases hAllowed
    · rw [Function.update_of_ne hEq] at hAllowed
      exact hGrant k hAllowed
  by_cases hCurrent :
      (s.disks disk).generation = s.enumerationGeneration
  · simp only [hCurrent, if_true]
    apply (usbRouteCheck_spec hInv disk false).seq
    intro ok s' b' hRouted
    cases hRouted with
    | live hRoute hDead =>
        apply spec_state
        apply ProgM.spec_pure hInv.safe
        exact ⟨hInv, rfl, fun _ h => h, fun _ =>
          ⟨rfl, rfl, hRange.1, hRange.2, hCurrent, rfl⟩⟩
    | lost hInv' hCache hMedia hGrant =>
        exact hLost _ _ hInv' hMedia hGrant
  · simp only [hCurrent, if_false]
    exact hLost s b hInv rfl (fun _ h => h)

theorem usbGeneration_spec
    (hInv : Inv none s b)
    (disk : Int) :
    UsbSpec (usbGeneration disk)
      (fun generation s' b' => Inv none s' b' ∧
        b'.media = b.media ∧ NoGrant s s' ∧
        (generation ≠ 0 → s' = s ∧ b' = b ∧
          (s.disks disk).generation =
            s.enumerationGeneration ∧
          generation = (s.disks disk).generation)) s b := by
  unfold usbGeneration
  apply (usbSectors_spec hInv disk).seq
  intro sectors s' b' hSized
  apply ProgM.spec_ite
  · intro hSectors
    rcases hSized.live hSectors with
      ⟨rfl, rfl, -, -, hCurrent, -⟩
    apply spec_state
    apply ProgM.spec_pure hInv.safe
    exact ⟨hInv, rfl, fun _ h => h, fun _ =>
      ⟨rfl, rfl, hCurrent, rfl⟩⟩
  · intro _
    apply ProgM.spec_pure hSized.inv.safe
    exact ⟨hSized.inv, hSized.media, hSized.grant,
      fun h => absurd rfl h⟩

end Capacity

--
-- Reading
--

section Read

variable {s : UsbState} {b : Bus} {disk : Int}

variable {k n i : Nat}

/- A copy leaves the sectors before it alone. -/
theorem dataSector_copy_before
    {buf data : Buf}
    (hi : i < k) :
    dataSector (buf.copy (k * 512) data (n * 512)) i =
      dataSector buf i := by
  apply Buf.toSector_eq_iff.mpr
  intro j hj
  apply Buf.copy_outside
  omega

/- A copy of whole sectors puts them in their places. -/
theorem dataSector_copy_inside
    {buf data : Buf}
    (hLow : k ≤ i)
    (hHigh : i < k + n) :
    dataSector (buf.copy (k * 512) data (n * 512)) i =
      dataSector data (i - k) := by
  apply Buf.toSector_eq_iff.mpr
  intro j hj
  change buf.copy (k * 512) data (n * 512) (i * 512 + j) =
    data ((i - k) * 512 + j)
  rw [Buf.copy_inside (by omega) (by omega)]
  congr 1
  omega

theorem dataSector_toBuf (sector : Sector) :
    dataSector sector.toBuf 0 = sector := by
  rw [← Buf.toSector_toBuf sector]
  apply Buf.toSector_eq_iff.mpr
  intro j hj
  change sector.toBuf.toSector.toBuf (0 * 512 + j) = _
  rw [Nat.zero_mul, Nat.zero_add, Buf.toSector_toBuf]

variable {lba : UInt32}

/- A hit holds the sector as it is on the disk. -/
theorem cacheHit_data
    (hInv : Inv none s b)
    {hit : Fin 32}
    (hHit : cacheHit s disk lba = some hit) :
    (s.cache hit).data = b.media disk lba.toNat := by
  have hFound := List.find?_some hHit
  simp only [Bool.and_eq_true, decide_eq_true_eq] at hFound
  rw [hInv.coherent hit hFound.1.1, hFound.1.2, hFound.2]

/- What was just read may be put into the cache. -/
theorem cacheFill_spec
    {data : Buf}
    {n left i : Nat}
    (hInv : Inv none s b)
    (hRounds : i + left = n)
    (hLba : lba.toNat + n < 2 ^ 32)
    (hData : ∀ i, i < n →
      dataSector data i = b.media disk (lba.toNat + i)) :
    UsbSpec (cacheFill disk lba data left i)
      (fun _ s' b' => Inv none s' b' ∧ b' = b) s b := by
  induction left generalizing s i with
  | zero => exact ⟨hInv.safe, hInv, rfl⟩
  | succ left ih =>
      apply spec_update
      refine ih ?_ (by omega)
      refine hInv.weaken ?_ (fun _ _ h => h) hInv.lost
      intro k hValid
      change (Function.update s.cache _ _ k).valid = true
        at hValid
      change (Function.update s.cache _ _ k).data =
        b.media (Function.update s.cache _ _ k).disk
          (Function.update s.cache _ _ k).lba.toNat
      by_cases hEq : k = cacheSlot s.cacheNext
      · rw [hEq, Function.update_self]
        have hNat : (lba + UInt32.ofNat i).toNat =
            lba.toNat + i := by
          rw [UInt32.toNat_add, UInt32.toNat_ofNat']
          omega
        rw [hNat]
        exact hData i (by omega)
      · rw [Function.update_of_ne hEq] at hValid ⊢
        exact hInv.coherent k hValid

/- What a read has promised when it returns. -/
structure Delivered
    (disk : Int)
    (start total : Nat)
    (sectors : Int → Nat → Sector)
    (out : Int × Buf)
    (s' : UsbState)
    (b' : Bus) : Prop where
  inv : Inv none s' b'
  media : b'.media = sectors
  data : out.1 = 0 → ∀ i, i < total →
    dataSector out.2 i = sectors disk (start + i)

/- The route of cached sectors is sound, or it is lost. -/
theorem liveUnless_spec
    (hInv : Inv none s b)
    (checked : Bool)
    (disk : Int) :
    UsbSpec (liveUnless checked disk)
      (fun ok s' b' =>
        (ok = true ∧ s' = s ∧ b' = b) ∨
          (ok = false ∧ Inv none s' b' ∧
            b'.media = b.media)) s b := by
  cases checked with
  | true => exact ⟨hInv.safe, .inl ⟨rfl, rfl, rfl⟩⟩
  | false =>
      apply (usbRouteCheck_spec hInv disk true).consequence
        (fun _ h => h)
      intro ok s' b' _ hRouted
      cases hRouted with
      | live hRoute hDead => exact .inl ⟨rfl, rfl, rfl⟩
      | lost hInv' hCache hMedia hGrant =>
          exact .inr ⟨rfl, hInv', hMedia⟩

variable {buf : Buf}

/- The end of a read checks the route of cached sectors. -/
theorem finish_spec
    {start total : Nat}
    (cached : Bool)
    (hInv : Inv none s b)
    (hBuf : ∀ i, i < total →
      dataSector buf i = b.media disk (start + i)) :
    UsbSpec (usbReadFrom.finish disk buf cached)
      (Delivered disk start total b.media) s b := by
  unfold usbReadFrom.finish
  have hDone : UsbSpec (return (0, buf))
      (Delivered disk start total b.media) s b :=
    ⟨hInv.safe, hInv, rfl, fun _ => hBuf⟩
  apply (liveUnless_spec hInv (!cached) disk).seq
  rintro ok s' b'
    (⟨rfl, rfl, rfl⟩ | ⟨rfl, hInv', hMedia⟩)
  · exact hDone
  · apply spec_update
    apply ProgM.spec_pure hInv'.safe
    exact ⟨hInv'.invalidate disk, hMedia,
      fun h => by cases h⟩

/-
  The rounds of a read: the first `k` sectors are in the
  buffer, and `count` are left.
-/
theorem usbReadFrom_spec
    {start k left count : Nat}
    {cached : Bool}
    (hInv : Inv none s b)
    (hLeft : count ≤ left)
    (hLba : lba.toNat = start + k)
    (hRoom : start + k + count < 2 ^ 32)
    (hBuf : ∀ i, i < k →
      dataSector buf i = b.media disk (start + i)) :
    UsbSpec (usbReadFrom disk left lba count (k * 512) buf
      cached)
      (Delivered disk start (k + count) b.media) s b := by
  induction left generalizing s b k count lba buf cached with
  | zero =>
      have hZero : count = 0 := by omega
      subst hZero
      exact finish_spec cached hInv hBuf
  | succ left ih =>
      rw [usbReadFrom]
      apply ProgM.spec_ite
      · rintro rfl
        exact finish_spec cached hInv hBuf
      intro hCount
      apply spec_state
      cases hHit : cacheHit s disk lba with
      | some hit =>
          have hNext : UsbSpec (usbReadFrom disk left
              (lba + 1) (count - 1) (k * 512 + 512)
              (buf.copy (k * 512) (s.cache hit).data.toBuf
                512) true)
              (Delivered disk start (k + count) b.media)
              s b := by
            have hOff : k * 512 + 512 = (k + 1) * 512 := by
              omega
            have hTotal : k + count = k + 1 + (count - 1) := by
              omega
            rw [hOff, hTotal]
            apply ih hInv (by omega)
            · rw [UInt32.toNat_add]
              change (lba.toNat + 1) % 2 ^ 32 = _
              omega
            · omega
            · intro i hi
              by_cases hOld : i < k
              · rw [← hBuf i hOld]
                exact dataSector_copy_before
                  (n := 1) hOld
              · have hLast : i = k := by omega
                rw [hLast, ← hLba, ← cacheHit_data hInv hHit]
                refine (dataSector_copy_inside (n := 1)
                  (Nat.le_refl k) (by omega)).trans ?_
                rw [Nat.sub_self]
                exact dataSector_toBuf _
          apply (liveUnless_spec hInv cached disk).seq
          rintro ok s' b'
            (⟨rfl, rfl, rfl⟩ | ⟨rfl, hInv', hMedia⟩)
          · apply spec_state
            exact hNext
          · apply spec_update
            apply ProgM.spec_pure hInv'.safe
            exact ⟨hInv'.invalidate disk, hMedia,
              fun h => by cases h⟩
      | none =>
          simp only
          generalize hn : (if 8 < count then 8 else count) = n
          have hSmall : n ≤ 8 ∧ n ≤ count ∧ 0 < n := by
            rw [← hn]
            split
            all_goals omega
          have hByte : (UInt8.ofNat n).toNat = n := by
            rw [UInt8.toNat_ofNat']
            omega
          have hNat : (UInt32.ofNat n).toNat = n := by
            rw [UInt32.toNat_ofNat']
            omega
          apply (commandDir_spec hInv disk
            (cdb10 0x28 lba (.ofNat n)) true .zero (n * 512)
            (fun h => by cases h)).seq
          rintro ⟨result, data⟩ s' b' hCommanded
          have hMedia := hCommanded.kept rfl
          apply ProgM.spec_ite
          · intro _
            apply spec_update
            apply spec_update
            apply ProgM.spec_pure hCommanded.inv.safe
            exact ⟨hCommanded.inv.giveUp (.inr rfl), hMedia,
              fun h => by cases h⟩
          intro hDone
          rw [not_not] at hDone
          rcases hCommanded.done hDone with
            ⟨hInv', -, hRead⟩
          have hData : ∀ i, i < n → dataSector data i =
              b'.media disk (lba.toNat + i) := by
            intro i hi
            rw [hMedia]
            have hSector := hRead rfl i (by
              rw [cdbCount_cdb10, hByte]
              exact hi)
            rwa [cdbLba_cdb10] at hSector
          apply (cacheFill_spec hInv' (Nat.zero_add n)
            (by omega) hData).seq
          rintro _ s₂ b₂ ⟨hInv₂, rfl⟩
          have hOff : k * 512 + n * 512 = (k + n) * 512 := by
            omega
          have hTotal : k + count = k + n + (count - n) := by
            omega
          rw [hOff, hTotal, ← hMedia]
          apply ih hInv₂ (by omega)
          · rw [UInt32.toNat_add, hNat]
            omega
          · omega
          · intro i hi
            by_cases hOld : i < k
            · rw [dataSector_copy_before hOld, hBuf i hOld,
                hMedia]
            · rw [dataSector_copy_inside (by omega) hi,
                hData _ (by omega), hLba]
              congr 1
              omega

/- A read that returns 0 delivers the sectors of the disk. -/
theorem usbRead_spec
    (hInv : Inv none s b)
    (disk : Int)
    (lba : UInt32)
    (count : UInt8)
    (buf : Option Buf) :
    UsbSpec (usbRead disk lba count buf)
      (Delivered disk lba.toNat count.toNat b.media) s b := by
  unfold usbRead
  apply (usbSectors_spec hInv disk).seq
  intro sectors s' b' hSized
  apply ProgM.spec_ite
  · intro _
    apply ProgM.spec_pure hSized.inv.safe
    exact ⟨hSized.inv, hSized.media, fun h => by cases h⟩
  intro hRange
  simp only [not_or, UInt32.not_le, UInt32.not_lt]
    at hRange
  rcases hRange with ⟨-, hCount, hLow, hHigh⟩
  rw [UInt32.lt_iff_toNat_lt] at hLow
  rw [UInt32.le_iff_toNat_le, UInt32.toNat_sub_of_le _ _
    (UInt32.le_iff_toNat_le.mpr (Nat.le_of_lt hLow)),
    UInt8.toNat_toUInt32] at hHigh
  have hTop := sectors.toNat_lt
  have hRead : UsbSpec (usbReadFrom disk count.toNat lba
      count.toNat (0 * 512) (buf.getD .zero) false)
      (Delivered disk lba.toNat (0 + count.toNat) b'.media)
      s' b' :=
    usbReadFrom_spec hSized.inv (Nat.le_refl _)
      (Nat.add_zero _).symm (by omega)
      (fun i hi => absurd hi (Nat.not_lt_zero i))
  rw [Nat.zero_add, hSized.media] at hRead
  exact hRead

end Read

--
-- Writing
--

section Write

variable {s : UsbState} {b : Bus} {disk : Int}

/- The check of the lease, over the natural numbers. -/
theorem inRange_iff
    {lba count start n : UInt32} :
    inRange lba count start n = true ↔
      start.toNat ≤ lba.toNat ∧
        lba.toNat - start.toNat < n.toNat ∧
        lba.toNat + count.toNat ≤
          start.toNat + n.toNat := by
  unfold inRange
  rw [decide_eq_true_iff]
  constructor
  · rintro ⟨hLow, hLt, hRoom⟩
    rw [UInt32.lt_iff_toNat_lt,
      UInt32.toNat_sub_of_le _ _ hLow] at hLt
    have hLe : lba - start ≤ n := by
      rw [UInt32.le_iff_toNat_le,
        UInt32.toNat_sub_of_le _ _ hLow]
      omega
    rw [UInt32.le_iff_toNat_le,
      UInt32.toNat_sub_of_le _ _ hLe,
      UInt32.toNat_sub_of_le _ _ hLow] at hRoom
    rw [UInt32.le_iff_toNat_le] at hLow
    omega
  · rintro ⟨hLow, hLt, hRoom⟩
    have hLow' : start ≤ lba :=
      UInt32.le_iff_toNat_le.mpr hLow
    have hLt' : lba - start < n := by
      rw [UInt32.lt_iff_toNat_lt,
        UInt32.toNat_sub_of_le _ _ hLow']
      exact hLt
    refine ⟨hLow', hLt', ?_⟩
    rw [UInt32.le_iff_toNat_le, UInt32.toNat_sub_of_le _ _
        (UInt32.le_of_lt hLt'),
      UInt32.toNat_sub_of_le _ _ hLow']
    omega

/- The rounds of a write stay inside the lease. -/
theorem usbWriteFrom_spec
    {left count : Nat}
    {lba : UInt32}
    {buf : Buf}
    (hInv : Inv none s b)
    (hAllowed : (s.disks disk).writeAllowed = true)
    (hLow : (s.disks disk).writeStart.toNat ≤ lba.toNat)
    (hHigh : lba.toNat + count ≤
      (s.disks disk).writeStart.toNat +
        (s.disks disk).writeCount.toNat)
    (hRoom : lba.toNat + count < 2 ^ 32)
    (hUncached : Uncached s disk) :
    UsbSpec (usbWriteFrom disk left lba count buf)
      (fun _ s' b' => Inv none s' b') s b := by
  induction left generalizing s b count lba buf with
  | zero => exact ⟨hInv.safe, hInv⟩
  | succ left ih =>
      rw [usbWriteFrom]
      apply ProgM.spec_ite
      · exact fun _ => ⟨hInv.safe, hInv⟩
      intro hCount
      simp only
      generalize hn : (if 8 < count then 8 else count) = n
      have hSmall : n ≤ 8 ∧ n ≤ count ∧ 0 < n := by
        rw [← hn]
        split
        all_goals omega
      have hByte : (UInt8.ofNat n).toNat = n := by
        rw [UInt8.toNat_ofNat']
        omega
      have hNext : (lba + UInt32.ofNat n).toNat =
          lba.toNat + n := by
        rw [UInt32.toNat_add, UInt32.toNat_ofNat']
        omega
      have hMay : MayWrite s disk
          (cdb10 0x2A lba (.ofNat n)) := by
        refine ⟨hAllowed, ?_, hUncached⟩
        unfold Extent.Within Extent.stop cdbExtent
        simp only [cdbLba_cdb10, cdbCount_cdb10, hByte]
        omega
      apply (commandDir_spec hInv disk
        (cdb10 0x2A lba (.ofNat n)) false buf (n * 512)
        (fun _ => hMay)).seq
      rintro ⟨result, data⟩ s' b' hCommanded
      apply ProgM.spec_ite
      · intro _
        apply (writeFailed_spec hCommanded.inv).consequence
          (fun _ h => h)
        exact fun _ _ _ _ h => h.2
      intro hDone
      rw [not_not] at hDone
      rcases hCommanded.done hDone with ⟨hInv', hDisks, -⟩
      apply ih hInv'
      · rw [hDisks]
        exact hAllowed
      · rw [hDisks, hNext]
        omega
      · rw [hDisks, hNext]
        omega
      · rw [hNext]
        omega
      · intro i hValid
        rw [hCommanded.cache] at hValid ⊢
        exact hUncached i hValid

theorem usbWrite_spec
    (hInv : Inv none s b)
    (disk : Int)
    (lba : UInt32)
    (count : UInt8)
    (buf : Option Buf) :
    UsbSpec (usbWrite disk lba count buf)
      (fun _ s' b' => Inv none s' b') s b := by
  unfold usbWrite
  apply (usbSectors_spec hInv disk).seq
  intro sectors s' b' hSized
  have hInv' := hSized.inv
  cases buf with
  | none => exact ⟨hInv'.safe, hInv'⟩
  | some buf =>
      apply ProgM.spec_ite
      · exact fun _ => ⟨hInv'.safe, hInv'⟩
      intro hRange
      simp only [not_or, UInt32.not_le, UInt32.not_lt]
        at hRange
      rcases hRange with ⟨-, hBelow, hTop⟩
      have hLess := UInt32.le_of_lt hBelow
      rw [UInt32.le_iff_toNat_le,
        UInt32.toNat_sub_of_le _ _ hLess,
        UInt8.toNat_toUInt32] at hTop
      rw [UInt32.lt_iff_toNat_lt] at hBelow
      have hLimit := sectors.toNat_lt
      apply spec_state
      apply ProgM.spec_ite
      · exact fun _ => ⟨hInv'.safe, hInv'⟩
      intro hLease
      rw [not_or] at hLease
      rcases hLease with ⟨hAllowed, hInside⟩
      simp only [Bool.not_eq_true', Bool.not_eq_false]
        at hAllowed hInside
      have hExtent := inRange_iff.mp hInside
      rw [UInt8.toNat_toUInt32] at hExtent
      apply spec_update
      apply usbWriteFrom_spec (hInv'.invalidate disk)
        hAllowed hExtent.1 hExtent.2.2 (by omega)
      intro i hValid
      exact (uncached_dropCached s'.cache disk hValid).2

theorem usbSync_spec
    (hInv : Inv none s b)
    (disk : Int) :
    UsbSpec (usbSync disk)
      (fun _ s' b' => Inv none s' b') s b := by
  unfold usbSync
  apply (usbSectors_spec hInv disk).seq
  intro sectors s' b' hSized
  have hInv' := hSized.inv
  apply spec_state
  apply ProgM.spec_ite
  · exact fun _ => ⟨hInv'.safe, hInv'⟩
  intro _
  apply (commandDir_spec hInv' disk
    [0x35, 0, 0, 0, 0, 0, 0, 0, 0, 0] false .zero 0
    (fun h => by cases h)).seq
  rintro ⟨result, data⟩ s₂ b₂ hCommanded
  apply ProgM.spec_ite
  · intro _
    apply (writeFailed_spec hCommanded.inv).consequence
      (fun _ h => h)
    exact fun _ _ _ _ h => h.2
  · intro hDone
    rw [not_not] at hDone
    have hInv₂ := (hCommanded.done hDone).1
    exact ⟨hInv₂.safe, hInv₂⟩

end Write

--
-- Leases
--

section Leases

variable {s : UsbState} {b : Bus} {disk : Int}

theorem usbFatRevoke_spec
    (hInv : Inv none s b)
    (disk : Int) :
    UsbSpec (usbFatRevoke disk)
      (fun _ s' b' => Inv none s' b' ∧
        b'.media = b.media) s b := by
  unfold usbFatRevoke
  apply spec_state
  apply ProgM.spec_ite
  · intro _
    apply spec_update
    have hForbidden := hInv.setDisk disk
      (fun d => { d with writeAllowed := false })
      (.inl rfl) rfl
    refine And.intro hInv.safe ?_
    rintro reply b' rfl
    have hNone : leases none (s.setDisk disk fun d =>
        { d with writeAllowed := false }) disk = none := by
      unfold leases
      rw [if_neg (by simp)]
      apply leaseOf_forbidden
      simp only [UsbState.setDisk, Function.update_self]
    have hDropped := hForbidden.drop hNone
    exact ⟨hDropped.safe, hDropped, rfl⟩
  · exact fun _ => ⟨hInv.safe, hInv, rfl⟩

/- What a grant has checked, and what it has recorded. -/
structure Granted
    (disk : Int)
    (start count generation : UInt32)
    (s' : UsbState)
    (b' : Bus) : Prop where
  nonzero : generation ≠ 0
  current : generation = (s'.disks disk).generation
  epoch : generation = s'.enumerationGeneration
  nonempty : count ≠ 0
  inside : start.toNat + count.toNat ≤
    (s'.disks disk).sectors.toNat
  lease : Lease.holder b'.log disk =
    some ⟨start.toNat, count.toNat⟩

/- A granted lease is the one in memory. -/
theorem Inv.grant
    (hInv : Inv none s b)
    (hRoute : (s.disks disk).routeDead = false)
    (start count : UInt32) :
    Inv none
      (s.setDisk disk fun d =>
        { d with
          writeStart := start
          writeCount := count
          writeAllowed := true })
      ⟨b.media,
        .grant disk ⟨start.toNat, count.toNat⟩ :: b.log⟩
      where
  coherent := hInv.coherent
  safe := hInv.safe
  tracks := by
    apply hInv.tracks.grant
    · intro e hLease
      have hSome := leaseOf_eq_some.mp
        (leases_eq_some.mp hLease).2
      simp only [UsbState.setDisk, Function.update_self]
        at hSome
      exact hSome.2.2
    · intro k e hNe hLease
      rw [leases_eq_some] at hLease ⊢
      rw [leaseOf_setDisk_ne hNe] at hLease
      exact hLease
  lost := by
    intro k hDead
    change (Function.update s.disks disk _ k).routeDead =
      true at hDead
    change (Function.update s.disks disk _ k).writeAllowed =
      false
    by_cases hEq : k = disk
    · rw [hEq, Function.update_self] at hDead
      change (s.disks disk).routeDead = true at hDead
      rw [hRoute] at hDead
      cases hDead
    · rw [Function.update_of_ne hEq] at hDead ⊢
      exact hInv.lost k hDead

theorem usbFatAuthorize_spec
    (hInv : Inv none s b)
    (disk : Int)
    (start count generation : UInt32) :
    UsbSpec (usbFatAuthorize disk start count generation)
      (fun code s' b' => Inv none s' b' ∧
        b'.media = b.media ∧
        (code = 0 →
          Granted disk start count generation s' b'))
      s b := by
  unfold usbFatAuthorize
  apply (usbFatRevoke_spec hInv disk).seq
  rintro _ s₁ b₁ ⟨hInv₁, hMedia₁⟩
  apply (usbSectors_spec hInv₁ disk).seq
  intro sectors s₂ b₂ hSized
  have hInv₂ := hSized.inv
  have hMedia₂ := hSized.media.trans hMedia₁
  apply ProgM.spec_ite
  · exact fun _ => ⟨hInv₂.safe, hInv₂, hMedia₂,
      fun h => by cases h⟩
  intro hGeneration
  apply (usbGeneration_spec hInv₂ disk).seq
  rintro current s₃ b₃ ⟨hInv₃, hMedia₃, -, hCurrent⟩
  have hKept := hMedia₃.trans hMedia₂
  apply ProgM.spec_ite
  · exact fun _ => ⟨hInv₃.safe, hInv₃, hKept,
      fun h => by cases h⟩
  intro hSame
  rw [not_not] at hSame
  rcases hCurrent (by rw [← hSame]; exact hGeneration) with
    ⟨rfl, rfl, hEpoch, hDisk⟩
  apply (usbRouteCheck_spec hInv₃ disk true).seq
  intro ok s₄ b₄ hRouted
  cases hRouted with
  | lost hInv₄ hCache hMedia hGrant =>
      exact ⟨hInv₄.safe, hInv₄, hMedia.trans hKept,
        fun h => by cases h⟩
  | live hRoute hDead =>
      apply ProgM.spec_ite
      · exact fun h => by cases h
      intro _
      apply ProgM.spec_ite
      · exact fun _ => ⟨hInv₃.safe, hInv₃, hKept,
          fun h => by cases h⟩
      intro hExtent
      simp only [not_or, UInt32.not_le, UInt32.not_lt]
        at hExtent
      rcases hExtent with ⟨hCount, hBelow, hTop⟩
      apply spec_update
      refine And.intro hInv₃.safe ?_
      rintro reply b' rfl
      have hGranted := hInv₃.grant hRoute start count
      have hSectors : sectors ≠ 0 := by
        rintro rfl
        exact absurd hBelow (UInt32.not_lt_zero)
      rcases hSized.live hSectors with
        ⟨rfl, rfl, -, -, -, hSize⟩
      refine ⟨hGranted.safe, hGranted, hKept, fun _ => ?_⟩
      have hLess := UInt32.le_of_lt hBelow
      rw [UInt32.le_iff_toNat_le,
        UInt32.toNat_sub_of_le _ _ hLess] at hTop
      rw [UInt32.lt_iff_toNat_lt] at hBelow
      refine
        { nonzero := hGeneration
          current := ?_
          epoch := hSame.trans (hDisk.trans hEpoch)
          nonempty := hCount
          inside := ?_
          lease := if_pos rfl }
      · simp only [UsbState.setDisk, Function.update_self]
        exact hSame.trans hDisk
      · simp only [UsbState.setDisk, Function.update_self]
        rw [← hSize]
        omega

end Leases

/- Enumeration leaves no lease and no cached sector. -/
theorem usbRescan_spec
    {s : UsbState}
    {b : Bus}
    (hInv : Inv none s b) :
    UsbSpec usbRescan (fun _ s' b' => Inv none s' b')
      s b := by
  unfold usbRescan
  apply spec_update
  apply spec_update
  apply spec_note hInv.safe
  apply spec_state
  have hSafe : Safe { b with log := .dropAll :: b.log } :=
    hInv.safe
  refine And.intro hSafe ?_
  intro found b' hLog
  have hForbidden : ∀ (k : Nat) (generation : UInt32),
      ((found.disks[k]?).elim UsbDisk.zero
        (registered generation)).writeAllowed = false := by
    intro k generation
    cases found.disks[k]? with
    | none => rfl
    | some d => rfl
  have hSafe' : Safe b' := by
    unfold Safe
    rw [hLog]
    exact hSafe
  refine ⟨hSafe', ?_⟩
  exact
    { coherent := fun i hValid => by cases hValid
      safe := hSafe'
      tracks := by
        rw [hLog]
        apply Lease.tracks_dropAll
        intro k
        unfold leases
        rw [if_neg (by simp)]
        exact leaseOf_forbidden (hForbidden _ _)
      lost := fun k _ => hForbidden _ _ }

--
-- Runs
--

/- Every call keeps the invariant. -/
theorem UsbCall.spec
    {s : UsbState}
    {b : Bus}
    (hInv : Inv none s b)
    (c : UsbCall) :
    UsbSpec c.program (fun _ s' b' => Inv none s' b')
      s b := by
  cases c with
  | sectors disk =>
      apply (usbSectors_spec hInv disk).seq
      intro _ s' b' hSized
      exact ⟨hSized.inv.safe, hSized.inv⟩
  | generation disk =>
      apply (usbGeneration_spec hInv disk).seq
      rintro _ s' b' ⟨hInv', -⟩
      exact ⟨hInv'.safe, hInv'⟩
  | read disk lba count buf =>
      apply (usbRead_spec hInv disk lba count buf).seq
      intro _ s' b' hDelivered
      exact ⟨hDelivered.inv.safe, hDelivered.inv⟩
  | write disk lba count buf =>
      apply (usbWrite_spec hInv disk lba count buf).seq
      intro _ s' b' hInv'
      exact ⟨hInv'.safe, hInv'⟩
  | sync disk =>
      apply (usbSync_spec hInv disk).seq
      intro _ s' b' hInv'
      exact ⟨hInv'.safe, hInv'⟩
  | authorize disk start count generation =>
      apply (usbFatAuthorize_spec hInv disk start count
        generation).seq
      rintro _ s' b' ⟨hInv', -⟩
      exact ⟨hInv'.safe, hInv'⟩
  | revoke disk =>
      apply (usbFatRevoke_spec hInv disk).consequence
        (fun _ h => h)
      exact fun _ _ _ _ h => h.1
  | rescan => exact usbRescan_spec hInv

/- The driver before the first enumeration. -/
def bootState
    (kind : Nat → Nat)
    (dead : Nat → Bool) : UsbState where
  kind := kind
  dead := dead
  disks := fun _ => .zero
  diskCount := 0
  hubs := fun _ => ⟨.zero, 0, 0, 0⟩
  hubCount := 0
  nextTag := 0
  enumerationGeneration := 0
  cache := fun _ => .zero
  cacheNext := 0

/-
  The states between calls: from boot on, any calls in any
  order, answered by the bus in any way.
-/
inductive Reaches : UsbState → Bus → Prop where
  | boot
      (kind : Nat → Nat)
      (dead : Nat → Bool)
      (media : Int → Nat → Sector) :
      Reaches (bootState kind dead) ⟨media, []⟩
  | call
      {s s' : UsbState}
      {b b' : Bus}
      (c : UsbCall)
      (hReaches : Reaches s b)
      (hReturns : Prog.Returns Bus.answers (c.program s) b
        ((), s') b') :
      Reaches s' b'

theorem Reaches.inv
    {s : UsbState}
    {b : Bus}
    (hReaches : Reaches s b) :
    Inv none s b := by
  induction hReaches with
  | boot kind dead media =>
      exact
        { coherent := fun i hValid => by cases hValid
          safe := trivial
          tracks := by
            intro k e hLease
            have hSome := (leases_eq_some.mp hLease).2
            rw [leaseOf_forbidden rfl] at hSome
            cases hSome
          lost := fun k hDead => by cases hDead }
  | call c _ hReturns ih =>
      exact (UsbCall.spec ih c).returns hReturns

end KvantOS.Usb
