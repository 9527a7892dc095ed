import KvantOS.Fat.ChainWalk
import KvantOS.Fat.Transparency

/-
  This file proves what `fat_free_chain` does to the image
  when no command fails: it goes through exactly when the
  FAT copies agree on the chain, the chain keeps out of the
  log's file and the free counts can take it, and then only
  the entries of the chain and the counts have changed.

  Key definitions include:
    * `Freeable`, `Released`

  Key theorems include:
    * `fatSet_run`, `fsinfoAdjust_run`, `freeLoop_run`
    * `chain_exact`
-/

--
-- Setting One Entry
--

namespace KvantOS

/- A copy of the FAT that `fat_set` keeps up to date. -/
def FatVol.maintained
    (v : FatVol)
    (f : Nat) : Bool :=
  v.mirrored || f == v.activeFat

/- The byte where an entry of a copy starts. -/
def entryStart
    (v : FatVol)
    (f c : Nat) : Nat :=
  fatBase v f + c * v.entryBytes

/- The image with the entry set in copies from `f` on. -/
def putCopies
    (v : FatVol)
    (c val : Nat) :
    (f : Nat) → (remaining : Nat) → Buf → Buf
  | _, 0, image => image
  | f, remaining + 1, image =>
      putCopies v c val (f + 1) remaining
        (if v.maintained f then
          fatEntryPut v image (entryStart v f c) val
        else image)

section Entries

variable {v : FatVol} {s : Store}

theorem putCopies_entry
    (hGeo : Geometry v)
    {c val x : Nat}
    (hc : v.Valid c)
    (hx : v.Valid x)
    (g remaining f : Nat)
    (image : Buf) :
    fatEntryOf v g (putCopies v c val f remaining image) x =
      if f ≤ g ∧ g < f + remaining ∧
          v.maintained g = true ∧ x = c then
        entryMask v val
      else fatEntryOf v g image x := by
  induction remaining generalizing f image with
  | zero =>
      rw [if_neg (by omega)]
      rfl
  | succ remaining ih =>
      rw [putCopies, ih]
      by_cases hHere : g = f ∧ v.maintained g = true ∧ x = c
      · rcases hHere with ⟨rfl, hKept, rfl⟩
        rw [if_neg (by omega), if_pos hKept,
          entryStart, fatEntryOf_entryPut hGeo hc.2 hx.2,
          if_pos ⟨rfl, rfl⟩, if_pos]
        exact ⟨Nat.le_refl _, by omega, hKept, rfl⟩
      · have hOld : fatEntryOf v g
            (if v.maintained f then
              fatEntryPut v image (entryStart v f c) val
            else image) x = fatEntryOf v g image x := by
          split
          · next hKept =>
              rw [entryStart,
                fatEntryOf_entryPut hGeo hc.2 hx.2, if_neg]
              rintro ⟨rfl, rfl⟩
              exact hHere ⟨rfl, hKept, rfl⟩
          · rfl
        rw [hOld]
        congr 1
        rw [eq_iff_iff]
        constructor
        · rintro ⟨hLow, hHigh, hRest⟩
          exact ⟨by omega, by omega, hRest⟩
        · rintro ⟨hLow, hHigh, hRest⟩
          refine ⟨?_, by omega, hRest⟩
          by_contra hNot
          exact hHere ⟨by omega, hRest⟩

theorem putCopies_outside
    {c val a : Nat}
    (remaining f : Nat)
    (image : Buf)
    (hOut : ∀ g, f ≤ g → g < f + remaining →
      v.maintained g = true → a < entryStart v g c ∨
        entryStart v g c + v.entryBytes ≤ a) :
    putCopies v c val f remaining image a = image a := by
  induction remaining generalizing f image with
  | zero => rfl
  | succ remaining ih =>
      rw [putCopies, ih]
      · split
        · next hKept =>
            exact fatEntryPut_outside
              (hOut f (Nat.le_refl _) (by omega) hKept)
        · rfl
      · intro g hLow hHigh hKept
        exact hOut g (by omega) (by omega) hKept

/-
  The copies are set one after the other; a copy that does
  not hold what the first one held stops the loop.
-/
theorem fatSetCopies_run
    (hMount : Mounted v)
    {c val e : Nat}
    (hc : v.Valid c)
    (remaining f original : Nat)
    (hCopies : f + remaining ≤ v.numFats)
    (hFirst : v.mirrored = true → f = 0 →
      fatEntryOf v 0 s.image c = e)
    (hLater : v.mirrored = true → f ≠ 0 → original = e)
    (hOpen : s.isOpen = true)
    (r : Bool × Store)
    (hr : r = (fatSetCopies v
      (v.fatStart + c * v.entryBytes / v.bytesPerSector)
      (c * v.entryBytes % v.bytesPerSector) val
      f original remaining).run (Store.ideal v) s) :
    (r.1 = true ↔ (v.mirrored = true → ∀ g, f ≤ g →
      g < f + remaining → fatEntryOf v g s.image c = e)) ∧
    (r.1 = true → r.2 = s.withImage
      (putCopies v c val f remaining s.image)) := by
  have hGeo := hMount.toGeometry
  induction remaining generalizing f original s with
  | zero =>
      rw [hr]
      refine ⟨⟨fun _ _ g hLow hHigh => ?_, fun _ => rfl⟩,
        fun _ => rfl⟩
      omega
  | succ remaining ih =>
      unfold fatSetCopies at hr
      split at hr
      · next hSkip =>
          simp only [Bool.and_eq_true, Bool.not_eq_true',
            bne_iff_ne, ne_eq] at hSkip
          have hNot : v.maintained f = false := by
            simp [FatVol.maintained, hSkip]
          have hRest := ih (f + 1) original (by omega)
            (fun h => by rw [hSkip.1] at h; cases h)
            (fun h => by rw [hSkip.1] at h; cases h)
            hOpen hr
          rw [putCopies, hNot]
          simp only [hSkip.1, Bool.false_eq_true, if_false,
            false_implies, iff_true] at hRest ⊢
          exact hRest
      · next hKeep =>
          have hKept : v.maintained f = true := by
            simp only [Bool.and_eq_true, Bool.not_eq_true',
              bne_iff_ne, ne_eq, not_and, not_not] at hKeep
            cases hMirror : v.mirrored with
            | true => simp [FatVol.maintained, hMirror]
            | false =>
                simp [FatVol.maintained, hKeep hMirror]
          have hSector : v.fatStart +
              c * v.entryBytes / v.bytesPerSector +
                f * v.fatSize = v.fatStart + f * v.fatSize +
                  c * v.entryBytes / v.bytesPerSector := by
            omega
          have hf : f < v.numFats := by omega
          have hSec := hGeo.fat_sector_total hf hc.2
          rw [hSector, Store.read_run hOpen hSec,
            Store.mark_of_not
              (hMount.fat_not_overlap hf hc.2)] at hr
          simp only at hr
          rw [sector_fatEntry hGeo] at hr
          split at hr
          · next hDiffers =>
              simp only [Bool.and_eq_true, Bool.not_eq_true',
                Bool.or_eq_false_iff, beq_eq_false_iff_ne,
                Bool.not_eq_false', bne_iff_ne, ne_eq]
                at hDiffers
              rcases hDiffers with ⟨⟨hf0, hMirror⟩, hNe⟩
              rw [hr]
              refine ⟨⟨nofun, fun hAll => ?_⟩, nofun⟩
              rw [hLater hMirror hf0] at hNe
              exact absurd (hAll hMirror f (Nat.le_refl _)
                (by omega)) hNe
          · next hAgrees =>
              have hHere : v.mirrored = true →
                  fatEntryOf v f s.image c = e := by
                intro hMirror
                by_cases hf0 : f = 0
                · rw [hf0]
                  exact hFirst hMirror hf0
                · rw [← hLater hMirror hf0]
                  simpa [hf0, hMirror] using hAgrees
              rw [Store.write_run hOpen hSec,
                Store.put_entryPut (hGeo.entry_fits c),
                fat_offset] at hr
              simp only [Bool.not_true, Bool.false_eq_true,
                if_false] at hr
              have hRest := ih (f + 1) _ (by omega)
                (fun _ h => by omega)
                (by
                  intro hMirror _
                  by_cases hf0 : f = 0
                  · simp [hf0]
                    exact hFirst hMirror hf0
                  · simp [hf0, hMirror]
                    exact hLater hMirror hf0)
                (by rw [Store.withImage_isOpen]; exact hOpen)
                hr
              rw [putCopies, hKept]
              simp only [if_true]
              refine ⟨hRest.1.trans ?_, hRest.2⟩
              constructor
              · intro hAll hMirror g hLow hHigh
                rcases Nat.eq_or_lt_of_le hLow with
                  rfl | hLow
                · exact hHere hMirror
                · have hg := hAll hMirror g hLow (by omega)
                  rw [Store.withImage_image,
                    fatEntryOf_entryPut hGeo hc.2 hc.2,
                    if_neg (by omega)] at hg
                  exact hg
              · intro hAll hMirror g hLow hHigh
                rw [Store.withImage_image,
                  fatEntryOf_entryPut hGeo hc.2 hc.2,
                  if_neg (by omega)]
                exact hAll hMirror g (by omega) (by omega)

/- The cluster belongs to the file of the log. -/
def FatVol.inWal
    (v : FatVol)
    (c : Nat) : Bool :=
  v.fileWal && c ≥ v.walCluster &&
    c - v.walCluster < v.walClusters

/-
  An entry is set when it is not the log's and all mirrored
  copies agree on it.
-/
theorem fatSet_run
    (hMount : Mounted v)
    (hOpen : s.isOpen = true)
    {c val : Nat}
    (hc : v.Valid c)
    (r : Bool × Store)
    (hr : r = (fatSet v c val).run (Store.ideal v) s) :
    (r.1 = true ↔ v.inWal c = false ∧
      (v.mirrored = true → ∀ f, f < v.numFats →
        fatEntryOf v f s.image c = fatEntry v s.image c)) ∧
    (r.1 = true → r.2 = s.withImage
      (putCopies v c val 0 v.numFats s.image)) := by
  unfold fatSet at hr
  rw [FatVol.valid_iff.mp hc, Bool.false_or] at hr
  have hWal : (v.fileWal && c ≥ v.walCluster &&
      c - v.walCluster < v.walClusters) = v.inWal c := rfl
  rw [hWal] at hr
  cases hIn : v.inWal c with
  | true =>
      rw [hIn] at hr
      rw [hr]
      refine ⟨⟨nofun, fun h => ?_⟩, nofun⟩
      cases h.1
  | false =>
      rw [hIn] at hr
      simp only [Bool.false_eq_true, if_false] at hr
      have hRun := fatSetCopies_run hMount
        (e := fatEntryOf v 0 s.image c) hc v.numFats 0 0
        (by omega) (fun _ _ => rfl)
        (fun _ h => absurd rfl h) hOpen r hr
      refine ⟨hRun.1.trans ?_, hRun.2⟩
      constructor
      · intro hAll
        refine ⟨rfl, fun hMirror f hf => ?_⟩
        rw [hAll hMirror f (Nat.zero_le _) (by omega),
          fatEntry, hMount.mirrored hMirror]
      · rintro ⟨-, hAll⟩ hMirror g - hg
        rw [hAll hMirror g (by omega), fatEntry,
          hMount.mirrored hMirror]

end Entries

--
-- The Free Counts
--

/- The sectors that `fsinfo_adjust` rewrites, in order. -/
def FatVol.fsinfoSectors (v : FatVol) : List Nat :=
  if !v.isFat32 || v.fsinfoSector == 0 then []
  else if v.backupFsinfo == 0 then [v.fsinfoSector]
  else [v.fsinfoSector, v.backupFsinfo]

/- The sector carries the signatures of a free count. -/
def fsinfoSigned
    (v : FatVol)
    (image : Buf)
    (sec : Nat) : Bool :=
  fsinfoValid (image.slice (sec * v.bytesPerSector)
    v.bytesPerSector)

/- The free count in a sector; `u32Max` when unknown. -/
def freeCount
    (v : FatVol)
    (image : Buf)
    (sec : Nat) : Nat :=
  image.get32 (sec * v.bytesPerSector + 488)

/- The sector with a count, and the hint unknown. -/
def putCount
    (v : FatVol)
    (sec count : Nat)
    (image : Buf) : Buf :=
  (image.put32 (sec * v.bytesPerSector + 488) count).put32
    (sec * v.bytesPerSector + 492) u32Max

/- Clusters are added to a count that is known. -/
def addCount (count clusters : Nat) : Nat :=
  if count == u32Max then count else count + clusters

section Counts

variable {v : FatVol} {s : Store}

/- A byte behind the signatures' first two, before the last. -/
theorem putCount_outside
    {sec count a : Nat}
    {image : Buf}
    (hOut : a < sec * v.bytesPerSector + 488 ∨
      sec * v.bytesPerSector + 496 ≤ a) :
    putCount v sec count image a = image a := by
  unfold putCount
  rw [Buf.put32_outside (by omega),
    Buf.put32_outside (by omega)]

theorem freeCount_putCount_same
    {sec count : Nat}
    {image : Buf}
    (hCount : count < 2 ^ 32) :
    freeCount v (putCount v sec count image) sec =
      count := by
  unfold freeCount putCount
  rw [Buf.get32_put32_ne (.inl (by omega)),
    Buf.get32_put32_same, Nat.mod_eq_of_lt hCount]

/- Different sectors do not overlap. -/
theorem sectors_apart
    (v : FatVol)
    {a b : Nat}
    (hNe : a ≠ b) :
    a * v.bytesPerSector + v.bytesPerSector ≤
        b * v.bytesPerSector ∨
      b * v.bytesPerSector + v.bytesPerSector ≤
        a * v.bytesPerSector := by
  rcases Nat.lt_or_gt_of_ne hNe with hLt | hGt
  · left
    have hMul := Nat.mul_le_mul_right v.bytesPerSector hLt
    rwa [Nat.succ_mul] at hMul
  · right
    have hMul := Nat.mul_le_mul_right v.bytesPerSector hGt
    rwa [Nat.succ_mul] at hMul

theorem Geometry.sector_ge
    (hGeo : Geometry v) :
    512 ≤ v.bytesPerSector := by
  rcases hGeo.sectorSize with h | h | h | h <;> omega

theorem freeCount_putCount
    (hGeo : Geometry v)
    {sec sec' count : Nat}
    {image : Buf}
    (hCount : count < 2 ^ 32) :
    freeCount v (putCount v sec count image) sec' =
      if sec' = sec then count
      else freeCount v image sec' := by
  split
  · next hEq =>
      rw [hEq]
      exact freeCount_putCount_same hCount
  · next hNe =>
      have hSize := hGeo.sector_ge
      have hApart := sectors_apart v hNe
      apply Buf.get32_congr
      intro i hi
      apply putCount_outside
      omega

variable {sec : Nat}

/- The signatures are read from three places. -/
theorem fsinfoSigned_congr
    (hGeo : Geometry v)
    {image image' : Buf}
    (hSame : ∀ i, i < 512 → i < 488 ∨ 496 ≤ i →
      image' (sec * v.bytesPerSector + i) =
        image (sec * v.bytesPerSector + i)) :
    fsinfoSigned v image' sec =
      fsinfoSigned v image sec := by
  have hSize := hGeo.sector_ge
  have hField : ∀ off, off + 4 ≤ 488 ∨
      496 ≤ off ∧ off + 4 ≤ 512 →
      (image'.slice (sec * v.bytesPerSector)
        v.bytesPerSector).get32 off =
      (image.slice (sec * v.bytesPerSector)
        v.bytesPerSector).get32 off := by
    intro off hOff
    apply Buf.get32_congr
    intro i hi
    rw [Buf.slice_inside (by omega),
      Buf.slice_inside (by omega)]
    exact hSame _ (by omega) (by omega)
  unfold fsinfoSigned fsinfoValid
  rw [hField 0 (by omega), hField 484 (by omega),
    hField 508 (by omega)]

theorem fsinfoSigned_putCount
    (hGeo : Geometry v)
    {sec sec' count : Nat}
    {image : Buf} :
    fsinfoSigned v (putCount v sec count image) sec' =
      fsinfoSigned v image sec' := by
  have hSize := hGeo.sector_ge
  apply fsinfoSigned_congr hGeo
  intro i hi hOut
  apply putCount_outside
  by_cases hEq : sec' = sec
  · rw [hEq]
    omega
  · have hApart := sectors_apart v hEq
    omega

/- A sector with a number is that of the image with it. -/
theorem sector_put32
    {sec off count i : Nat}
    (hi : i < v.bytesPerSector) :
    (s.sector v sec).put32 off count i =
      s.image.put32 (sec * v.bytesPerSector + off) count
        (sec * v.bytesPerSector + i) := by
  unfold Buf.put32
  by_cases hIn : off ≤ i ∧ i < off + 4
  · rw [if_pos hIn, if_pos (by omega)]
    congr 3
    omega
  · rw [if_neg hIn, if_neg (by omega),
      Store.sector_byte hi]

/- One sector is rewritten, or nothing is. -/
theorem fsinfoCopy_run
    (hMount : Mounted v)
    (hOpen : s.isOpen = true)
    (delta : Int)
    (hSec : sec < v.reservedSectors)
    (known : Option Nat) :
    (fsinfoCopy v delta sec known).run (Store.ideal v) s =
      if fsinfoSigned v s.image sec then
        match known.or (fsinfoCount v delta
            (freeCount v s.image sec)) with
        | none => (none, s.fail)
        | some count => (some count,
            s.withImage (putCount v sec count s.image))
      else (none, s.fail) := by
  have hGeo := hMount.toGeometry
  have hSize := hGeo.sector_ge
  have hData : sec < v.firstDataSector := by
    have hFats := hGeo.fats_lt
    rw [hGeo.fatStart] at hFats
    omega
  have hTotal : sec < v.totalSectors :=
    hData.trans_le (Nat.le_of_add_right_le hGeo.total)
  have hCount : (s.sector v sec).get32 488 =
      freeCount v s.image sec := by
    apply Buf.get32_congr
    intro i hi
    rw [Store.sector_byte (by omega), Nat.add_assoc]
  have hPut : ∀ count, s.put v sec
      (((s.sector v sec).put32 488 count).put32 492
        u32Max) =
      s.withImage (putCount v sec count s.image) := by
    intro count
    have hInner := @Store.put_put32 v s sec 488 count
      (s.sector v sec) s.image (by omega)
      (Store.put_eq (fun i hi => Store.sector_byte hi)
        (fun _ _ => rfl))
      (fun i hi => Store.sector_byte hi)
    exact Store.put_put32 (by omega) hInner
      (fun i hi => sector_put32 hi)
  unfold fsinfoCopy
  rw [Store.read_run hOpen hTotal,
    Store.mark_of_not (hMount.not_overlap hData)]
  simp only
  rw [hCount]
  have hSigned : fsinfoValid (s.sector v sec) =
      fsinfoSigned v s.image sec := rfl
  rw [hSigned]
  cases fsinfoSigned v s.image sec with
  | false => rfl
  | true =>
      simp only [Bool.not_true, Bool.false_eq_true, if_false,
        if_true]
      cases known.or (fsinfoCount v delta
          (freeCount v s.image sec)) with
      | none => rfl
      | some count =>
          simp only
          rw [Store.write_run hOpen hTotal, hPut]
          rfl

/- The count with the new clusters still makes sense. -/
def HasRoom
    (v : FatVol)
    (count clusters : Nat) : Prop :=
  count = u32Max ∨ count + clusters ≤ v.totalClusters

variable {count : Nat}

theorem fsinfoCount_one
    (v : FatVol)
    (hRoom : HasRoom v count 1) :
    fsinfoCount v 1 count = some (addCount count 1) := by
  unfold fsinfoCount addCount
  rcases hRoom with rfl | hRoom
  · simp
  · split
    · rfl
    · rw [if_neg (by simp; omega)]
      simp

theorem fsinfoCount_none
    (v : FatVol)
    (hRoom : ¬ HasRoom v count 1) :
    fsinfoCount v 1 count = none := by
  unfold HasRoom at hRoom
  rw [not_or] at hRoom
  unfold fsinfoCount
  rw [if_neg (by simp [hRoom.1]), if_pos]
  simp
  omega

/- The image with the count in every sector that has it. -/
def putCounts
    (v : FatVol)
    (count : Nat)
    (image : Buf) : Buf :=
  v.fsinfoSectors.foldl
    (fun image sec => putCount v sec count image) image

theorem mem_fsinfoSectors
    (hGeo : Geometry v)
    (hMem : sec ∈ v.fsinfoSectors) :
    sec < v.reservedSectors ∧
      v.fsinfoSector ∈ v.fsinfoSectors := by
  unfold FatVol.fsinfoSectors at hMem ⊢
  split at hMem
  · cases hMem
  · next hSome =>
      rw [if_neg hSome]
      have hFirst := hGeo.fsinfo
      have hSecond := hGeo.backup
      split at hMem
      · next hSingle =>
          rw [List.mem_singleton] at hMem
          exact ⟨by omega, by simp [hSingle]⟩
      · next hDouble =>
          simp only [List.mem_cons, List.not_mem_nil,
            or_false] at hMem
          exact ⟨by omega, by simp [hDouble]⟩

/- The counts go up by one cluster, or nothing is done. -/
theorem fsinfoAdjust_run
    (hMount : Mounted v)
    (hOpen : s.isOpen = true)
    (r : Bool × Store)
    (hr : r = (fsinfoAdjust v 1).run (Store.ideal v) s) :
    (r.1 = true ↔
      (∀ sec ∈ v.fsinfoSectors,
        fsinfoSigned v s.image sec = true) ∧
      (v.fsinfoSectors ≠ [] → HasRoom v
        (freeCount v s.image v.fsinfoSector) 1)) ∧
    (r.1 = true → r.2 = s.withImage (putCounts v
      (addCount (freeCount v s.image v.fsinfoSector) 1)
        s.image)) := by
  have hGeo := hMount.toGeometry
  unfold fsinfoAdjust at hr
  unfold putCounts FatVol.fsinfoSectors
  split at hr
  · next hNone =>
      rw [hr, if_pos hNone]
      refine ⟨?_, fun _ => rfl⟩
      simp
  · next hSome =>
      rw [if_neg hSome]
      rw [Prog.run_bind,
        fsinfoCopy_run hMount hOpen 1 hGeo.fsinfo] at hr
      cases hSigned :
          fsinfoSigned v s.image v.fsinfoSector with
      | false =>
          rw [hSigned] at hr
          rw [hr]
          refine ⟨⟨by rintro ⟨⟩, ?_⟩, by rintro ⟨⟩⟩
          rintro ⟨hAll, -⟩
          have hFirst := hAll v.fsinfoSector
            (by split <;> simp)
          rw [hSigned] at hFirst
          cases hFirst
      | true =>
          rw [hSigned] at hr
          simp only [if_true, Option.none_or] at hr
          by_cases hRoom : HasRoom v
              (freeCount v s.image v.fsinfoSector) 1
          · rw [fsinfoCount_one v hRoom] at hr
            simp only at hr
            split at hr
            · next hSingle =>
                rw [hr, if_pos hSingle]
                refine ⟨?_, fun _ => rfl⟩
                simp [hSigned, hRoom]
            · next hDouble =>
                rw [if_neg hDouble]
                rw [Prog.run_bind, fsinfoCopy_run hMount
                  (by exact hOpen) 1 hGeo.backup] at hr
                rw [Store.withImage_image,
                  fsinfoSigned_putCount hGeo] at hr
                cases hBackup :
                    fsinfoSigned v s.image v.backupFsinfo with
                | false =>
                    rw [hBackup] at hr
                    rw [hr]
                    refine ⟨⟨by rintro ⟨⟩, ?_⟩, by rintro ⟨⟩⟩
                    rintro ⟨hAll, -⟩
                    have hSecond := hAll v.backupFsinfo
                      (by simp)
                    rw [hBackup] at hSecond
                    cases hSecond
                | true =>
                    rw [hBackup] at hr
                    simp only [if_true, Option.some_or] at hr
                    rw [hr]
                    refine ⟨?_, fun _ => rfl⟩
                    simp [hSigned, hBackup, hRoom]
          · rw [fsinfoCount_none v hRoom] at hr
            rw [hr]
            refine ⟨⟨by rintro ⟨⟩, ?_⟩, by rintro ⟨⟩⟩
            rintro ⟨-, hCan⟩
            exact absurd (hCan (by split <;> simp)) hRoom

theorem putCounts_outside
    {count a : Nat}
    {image : Buf}
    (hOut : ∀ sec ∈ v.fsinfoSectors,
      a < sec * v.bytesPerSector + 488 ∨
        sec * v.bytesPerSector + 496 ≤ a) :
    putCounts v count image a = image a := by
  unfold putCounts
  generalize v.fsinfoSectors = secs at hOut
  induction secs generalizing image with
  | nil => rfl
  | cons sec secs ih =>
      rw [List.foldl_cons, ih]
      · exact putCount_outside (hOut sec (by simp))
      · exact fun sec' h =>
          hOut sec' (List.mem_cons_of_mem _ h)

theorem freeCount_putCounts
    (hGeo : Geometry v)
    {image : Buf}
    (hCount : count < 2 ^ 32)
    (hMem : sec ∈ v.fsinfoSectors) :
    freeCount v (putCounts v count image) sec = count := by
  unfold putCounts
  generalize v.fsinfoSectors = secs at hMem
  have hKeeps : ∀ (secs : List Nat) (image : Buf),
      freeCount v image sec = count →
      freeCount v (secs.foldl (fun image sec =>
        putCount v sec count image) image) sec = count := by
    intro secs
    induction secs with
    | nil => exact fun _ h => h
    | cons sec' secs ih =>
        intro image hSame
        apply ih
        rw [freeCount_putCount hGeo hCount, hSame, ite_self]
  induction secs generalizing image with
  | nil => cases hMem
  | cons sec' secs ih =>
      rw [List.foldl_cons]
      rcases List.mem_cons.mp hMem with rfl | hMem
      · exact hKeeps secs _ (freeCount_putCount_same hCount)
      · exact ih hMem

end Counts

--
-- Releasing a Chain
--

/-
  The clusters can be given back: the mirrored copies agree
  on their entries, none is the log's, the sectors of the
  free count are what they should be, and it has room.
-/
structure Freeable
    (v : FatVol)
    (image : Buf)
    (nodes : List Nat) : Prop where
  agree : v.mirrored = true → ∀ x ∈ nodes,
    ∀ f, f < v.numFats →
      fatEntryOf v f image x = fatEntry v image x
  unlogged : ∀ x ∈ nodes, v.inWal x = false
  signed : nodes ≠ [] → ∀ sec ∈ v.fsinfoSectors,
    fsinfoSigned v image sec = true
  room : nodes ≠ [] → v.fsinfoSectors ≠ [] → HasRoom v
    (freeCount v image v.fsinfoSector) nodes.length

/-
  The clusters have been given back: their entries are free
  in every maintained copy, every sector of the free count
  holds the first one's old count with the clusters added,
  and nothing but these entries, the counts and the hints
  next to them has changed.
-/
structure Released
    (v : FatVol)
    (nodes : List Nat)
    (image image' : Buf) : Prop where
  entries : ∀ f, f < v.numFats → ∀ x, v.Valid x →
    fatEntryOf v f image' x =
      if v.maintained f = true ∧ x ∈ nodes then 0
      else fatEntryOf v f image x
  counts : nodes ≠ [] → ∀ sec ∈ v.fsinfoSectors,
    freeCount v image' sec = addCount
      (freeCount v image v.fsinfoSector) nodes.length
  idle : nodes = [] → image' = image
  elsewhere : ∀ a,
    (∀ f, f < v.numFats → v.maintained f = true →
      ∀ x ∈ nodes, a < entryStart v f x ∨
        entryStart v f x + v.entryBytes ≤ a) →
    (∀ sec ∈ v.fsinfoSectors,
      a < sec * v.bytesPerSector + 488 ∨
        sec * v.bytesPerSector + 496 ≤ a) →
    image' a = image a

section Releasing

variable {v : FatVol} {s : Store} {image mid image' : Buf}

theorem Released.nil : Released v [] image image where
  entries f _ x _ := by simp
  counts h := absurd rfl h
  idle _ := rfl
  elsewhere _ _ _ := rfl

theorem entryStart_ge
    (hGeo : Geometry v)
    {f x : Nat}
    (hf : f < v.numFats)
    (hx : v.Valid x) :
    v.reservedSectors * v.bytesPerSector ≤
      entryStart v f x := by
  rw [← hGeo.fatStart]
  exact (fat_entry_bounds hGeo hf hx.2).1

/- A reserved sector ends before the FAT copies. -/
theorem reserved_end
    (v : FatVol)
    {sec : Nat}
    (hSec : sec < v.reservedSectors) :
    sec * v.bytesPerSector + v.bytesPerSector ≤
      v.reservedSectors * v.bytesPerSector := by
  have hMul := Nat.mul_le_mul_right v.bytesPerSector hSec
  rwa [Nat.succ_mul] at hMul

variable {nodes : List Nat}

/- The reserved sectors keep their signatures. -/
theorem Released.signed
    (hGeo : Geometry v)
    (hReleased : Released v nodes image image')
    (hValid : ∀ x ∈ nodes, v.Valid x)
    {sec : Nat}
    (hSec : sec < v.reservedSectors) :
    fsinfoSigned v image' sec =
      fsinfoSigned v image sec := by
  have hSize := hGeo.sector_ge
  apply fsinfoSigned_congr hGeo
  intro i hi hOut
  apply hReleased.elsewhere
  · intro f hf _ x hx
    have hGe := entryStart_ge hGeo hf (hValid x hx)
    have hEnd := reserved_end v hSec
    omega
  · intro sec' hSec'
    by_cases hEq : sec = sec'
    · rw [hEq]
      omega
    · have hApart := sectors_apart v hEq
      omega

theorem Geometry.total_small
    (hGeo : Geometry v) :
    v.totalClusters < u32Max := by
  have hMany := hGeo.clusters.2
  unfold u32Max
  omega

theorem HasRoom.add
    (hGeo : Geometry v)
    {count m n : Nat}
    (hRoom : HasRoom v count m) :
    HasRoom v (addCount count m) n ↔
      HasRoom v count (m + n) := by
  have hSmall := hGeo.total_small
  unfold HasRoom addCount at *
  split
  · next hUnknown =>
      have hEq : count = u32Max := by simpa using hUnknown
      simp [hEq]
  · next hKnown =>
      have hNe : count ≠ u32Max := by simpa using hKnown
      omega

theorem addCount_add
    (hGeo : Geometry v)
    {count m : Nat}
    (hRoom : HasRoom v count m)
    (n : Nat) :
    addCount (addCount count m) n =
      addCount count (m + n) := by
  have hSmall := hGeo.total_small
  unfold HasRoom at hRoom
  unfold addCount
  by_cases hEq : count = u32Max
  · simp [hEq]
  · have hNe : count + m ≠ u32Max := by omega
    simp [hEq, hNe, Nat.add_assoc]

/- Giving clusters back one after the other. -/
theorem Released.cons
    (hGeo : Geometry v)
    {x : Nat}
    {nodes : List Nat}
    (hFree : Freeable v image [x])
    (hFirst : Released v [x] image mid)
    (hRest : Released v nodes mid image') :
    Released v (x :: nodes) image image' where
  entries f hf y hy := by
    rw [hRest.entries f hf y hy, hFirst.entries f hf y hy]
    simp only [List.mem_cons, List.not_mem_nil, or_false]
    by_cases hKept : v.maintained f = true
    · by_cases hHere : y = x
      · simp [hKept, hHere]
      · simp [hKept, hHere]
    · simp [hKept]
  counts _ sec hSec := by
    have hPrimary := (mem_fsinfoSectors hGeo hSec).2
    have hSome : v.fsinfoSectors ≠ [] :=
      List.ne_nil_of_mem hSec
    have hRoom := hFree.room (by simp) hSome
    by_cases hNil : nodes = []
    · rw [hRest.idle hNil, hNil,
        hFirst.counts (by simp) sec hSec]
    · rw [hRest.counts hNil sec hSec,
        hFirst.counts (by simp) _ hPrimary,
        addCount_add hGeo hRoom, List.length_singleton,
        List.length_cons, Nat.add_comm]
  idle h := by cases h
  elsewhere a hEntries hCounts := by
    rw [hRest.elsewhere a _ hCounts,
      hFirst.elsewhere a _ hCounts]
    · intro f hf hKept y hy
      exact hEntries f hf hKept y
        (by rw [List.mem_singleton.mp hy]; simp)
    · intro f hf hKept y hy
      exact hEntries f hf hKept y
        (List.mem_cons_of_mem _ hy)

variable {x : Nat}

/- One cluster apart, the conditions are those before. -/
theorem Freeable.cons_iff
    (hGeo : Geometry v)
    (hValid : ∀ y ∈ x :: nodes, v.Valid y)
    (hFresh : x ∉ nodes)
    (hFree : Freeable v image [x])
    (hFirst : Released v [x] image mid) :
    Freeable v image (x :: nodes) ↔
      Freeable v mid nodes := by
  have hEntry : ∀ y ∈ nodes, ∀ f, f < v.numFats →
      fatEntryOf v f mid y = fatEntryOf v f image y := by
    intro y hy f hf
    rw [hFirst.entries f hf y
      (hValid y (List.mem_cons_of_mem _ hy)), if_neg]
    rintro ⟨-, hMem⟩
    rw [List.mem_singleton.mp hMem] at hy
    exact hFresh hy
  have hSigned : ∀ sec ∈ v.fsinfoSectors,
      fsinfoSigned v mid sec = fsinfoSigned v image sec :=
    fun sec hSec => hFirst.signed hGeo
      (fun y hy => hValid y
        (by rw [List.mem_singleton.mp hy]; simp))
      (mem_fsinfoSectors hGeo hSec).1
  have hRoom : v.fsinfoSectors ≠ [] →
      (HasRoom v (freeCount v mid v.fsinfoSector)
        nodes.length ↔
      HasRoom v (freeCount v image v.fsinfoSector)
        (nodes.length + 1)) := by
    intro hSome
    rcases List.exists_mem_of_ne_nil _ hSome with ⟨sec, hSec⟩
    have hPrimary := (mem_fsinfoSectors hGeo hSec).2
    have hOne : HasRoom v
        (freeCount v image v.fsinfoSector) 1 :=
      hFree.room (by simp) hSome
    rw [hFirst.counts (by simp) _ hPrimary,
      List.length_singleton, HasRoom.add hGeo hOne,
      Nat.add_comm]
  constructor
  · intro hAll
    constructor
    · intro hMirror y hy f hf
      rw [hEntry y hy f hf, fatEntry,
        hEntry y hy _ hGeo.active]
      exact hAll.agree hMirror y
        (List.mem_cons_of_mem _ hy) f hf
    · exact fun y hy =>
        hAll.unlogged y (List.mem_cons_of_mem _ hy)
    · intro _ sec hSec
      rw [hSigned sec hSec]
      exact hAll.signed (by simp) sec hSec
    · intro _ hSome
      exact (hRoom hSome).mpr (hAll.room (by simp) hSome)
  · intro hRest
    constructor
    · intro hMirror y hy f hf
      rcases List.mem_cons.mp hy with rfl | hy
      · exact hFree.agree hMirror y (by simp) f hf
      · have hAgree := hRest.agree hMirror y hy f hf
        rw [hEntry y hy f hf, fatEntry,
          hEntry y hy _ hGeo.active] at hAgree
        exact hAgree
    · intro y hy
      rcases List.mem_cons.mp hy with rfl | hy
      · exact hFree.unlogged y (by simp)
      · exact hRest.unlogged y hy
    · exact fun _ => hFree.signed (by simp)
    · intro _ hSome
      by_cases hNil : nodes = []
      · rw [hNil]
        exact hFree.room (by simp) hSome
      · exact (hRoom hSome).mp (hRest.room hNil hSome)

/- The conditions of a list are those of its first node. -/
theorem Freeable.head
    (hAll : Freeable v image (x :: nodes)) :
    Freeable v image [x] where
  agree hMirror y hy :=
    hAll.agree hMirror y
      (by rw [List.mem_singleton.mp hy]; simp)
  unlogged y hy :=
    hAll.unlogged y
      (by rw [List.mem_singleton.mp hy]; simp)
  signed _ := hAll.signed (by simp)
  room _ hSome := by
    have hRoom := hAll.room (by simp) hSome
    simp only [HasRoom, List.length_cons] at hRoom ⊢
    simp only [List.length_nil]
    omega

theorem Freeable.nil : Freeable v image [] where
  agree _ _ h := by cases h
  unlogged _ h := by cases h
  signed h := absurd rfl h
  room h := absurd rfl h

/- Setting an entry leaves the reserved sectors alone. -/
theorem putCopies_reserved
    (hGeo : Geometry v)
    {x val sec i : Nat}
    (hx : v.Valid x)
    (hSec : sec < v.reservedSectors)
    (hi : i < v.bytesPerSector) :
    putCopies v x val 0 v.numFats image
        (sec * v.bytesPerSector + i) =
      image (sec * v.bytesPerSector + i) := by
  apply putCopies_outside
  intro f _ hf _
  have hGe := entryStart_ge hGeo (f := f) (by omega) hx
  have hEnd := reserved_end v hSec
  omega

theorem freeCount_putCopies
    (hGeo : Geometry v)
    {x val sec : Nat}
    (hx : v.Valid x)
    (hSec : sec < v.reservedSectors) :
    freeCount v (putCopies v x val 0 v.numFats image) sec =
      freeCount v image sec := by
  have hSize := hGeo.sector_ge
  apply Buf.get32_congr
  intro i hi
  rw [Nat.add_assoc]
  exact putCopies_reserved hGeo hx hSec (by omega)

theorem fsinfoSigned_putCopies
    (hGeo : Geometry v)
    {x val sec : Nat}
    (hx : v.Valid x)
    (hSec : sec < v.reservedSectors) :
    fsinfoSigned v (putCopies v x val 0 v.numFats image)
        sec = fsinfoSigned v image sec := by
  have hSize := hGeo.sector_ge
  apply fsinfoSigned_congr hGeo
  intro i hi _
  exact putCopies_reserved hGeo hx hSec (by omega)

/- The image after one round of the loop. -/
def giveBack
    (v : FatVol)
    (c : Nat)
    (image : Buf) : Buf :=
  putCounts v
    (addCount (freeCount v image v.fsinfoSector) 1)
    (putCopies v c 0 0 v.numFats image)

/- One round gives one cluster back. -/
theorem Released.one
    (hGeo : Geometry v)
    (hx : v.Valid x)
    (hFree : Freeable v image [x]) :
    Released v [x] image (giveBack v x image) where
  entries f hf y hy := by
    have hSame : fatEntryOf v f (giveBack v x image) y =
        fatEntryOf v f
          (putCopies v x 0 0 v.numFats image) y := by
      apply fatEntryOf_congr
      intro a hLow _
      apply putCounts_outside
      intro sec hSec
      have hGe := entryStart_ge hGeo hf hy
      have hEnd := reserved_end v
        (mem_fsinfoSectors hGeo hSec).1
      have hSize := hGeo.sector_ge
      unfold entryStart at hGe
      omega
    have hZero : entryMask v 0 = 0 := by
      unfold entryMask
      split <;> rfl
    rw [hSame, putCopies_entry hGeo hx hy, hZero]
    simp [hf]
  counts _ sec hSec := by
    have hSome : v.fsinfoSectors ≠ [] :=
      List.ne_nil_of_mem hSec
    have hRoom : HasRoom v
        (freeCount v image v.fsinfoSector) 1 :=
      hFree.room (by simp) hSome
    have hSmall := hGeo.total_small
    apply freeCount_putCounts hGeo _ hSec
    unfold HasRoom at hRoom
    unfold addCount
    have hMax : u32Max < 2 ^ 32 := by decide
    split
    · next hUnknown =>
        have hEq : freeCount v image v.fsinfoSector =
            u32Max := by simpa using hUnknown
        omega
    · next hKnown =>
        have hNe : freeCount v image v.fsinfoSector ≠
            u32Max := by simpa using hKnown
        omega
  idle h := by cases h
  elsewhere a hEntries hCounts := by
    rw [giveBack, putCounts_outside hCounts]
    apply putCopies_outside
    intro f _ hf hKept
    exact hEntries f (by omega) hKept x (by simp)

variable {c fuel : Nat}

/- The loop ends at an end-of-chain value. -/
theorem freeLoop_end
    (hEoc : fatIsEoc v c = true) :
    (freeLoop v c fuel).run (Store.ideal v) s =
      (true, s) := by
  cases fuel with
  | zero =>
      unfold freeLoop
      rw [hEoc, Bool.or_true]
      rfl
  | succ fuel =>
      unfold freeLoop
      rw [hEoc, Bool.or_true]
      rfl

/- The successor in a chain, or its end, is read first. -/
theorem chainNext_chain
    (hMount : Mounted v)
    (hOpen : s.isOpen = true)
    (hChain : FatChain v s.image c nodes) :
    ∃ n rest, (chainNext v c).run (Store.ideal v) s = (n, s) ∧
      nodes = c :: rest ∧
      (rest = [] ∧ fatIsEoc v n = true ∨
        FatChain v s.image n rest) := by
  cases hChain with
  | last hLast =>
      have hc : v.Valid c :=
        valid_of_link (by rw [hLast]; simp)
      exact ⟨_, [], chainNext_last hMount hOpen hLast, rfl,
        .inl ⟨rfl, (fatLink_last_iff hc).mp hLast⟩⟩
  | next hNext hRest =>
      exact ⟨_, _, chainNext_next hMount hOpen hNext, rfl,
        .inr hRest⟩

/-
  The loop frees cluster after cluster; the links it still
  has to read are those of clusters it has not reached.
-/
theorem freeLoop_run
    (hMount : Mounted v)
    (hOpen : s.isOpen = true)
    (hChain : FatChain v s.image c nodes)
    (hFuel : nodes.length ≤ fuel)
    (r : Bool × Store)
    (hr : r = (freeLoop v c fuel).run (Store.ideal v) s) :
    (r.1 = true ↔ Freeable v s.image nodes) ∧
    (r.1 = true → Released v nodes s.image r.2.image ∧
      r.2.isOpen = true) := by
  have hGeo := hMount.toGeometry
  induction fuel generalizing c nodes s with
  | zero =>
      have hPos := List.length_pos_iff.mpr hChain.ne_nil
      omega
  | succ fuel ih =>
      have hc : v.Valid c := hChain.valid hChain.head_mem
      have hGo : (c < 2 || fatIsEoc v c) = false := by
        have hLow := hc.1
        rw [hGeo.not_eoc hc, Bool.or_false]
        exact decide_eq_false (Nat.not_lt.mpr hLow)
      rcases chainNext_chain hMount hOpen hChain with
        ⟨n, rest, hNext, rfl, hRest⟩
      have hFresh : c ∉ rest :=
        (List.nodup_cons.mp hChain.nodup).1
      have hError := Store.error_of_open hOpen
      unfold freeLoop at hr
      rw [hGo] at hr
      simp only [Bool.false_eq_true, if_false] at hr
      rw [Prog.run_bind, hNext, Store.getError_run, hError]
        at hr
      simp only [Bool.false_eq_true, if_false] at hr
      rw [Prog.run_bind] at hr
      have hSet := @fatSet_run v s hMount hOpen c 0 hc _ rfl
      generalize hSetRun : (fatSet v c 0).run
        (Store.ideal v) s = set at hr hSet
      rcases set with ⟨ok, s₁⟩
      cases ok with
      | false =>
          rw [hr]
          refine ⟨⟨nofun, fun hAll => ?_⟩, nofun⟩
          have hDone := hSet.1.mpr
            ⟨hAll.unlogged c (by simp), fun hMirror =>
              hAll.agree hMirror c (by simp)⟩
          cases hDone
      | true =>
          have hOk := hSet.1.mp rfl
          have hs₁ := hSet.2 rfl
          simp only at hs₁
          subst hs₁
          simp only [Bool.not_true, Bool.false_eq_true,
            if_false] at hr
          rw [Prog.run_bind] at hr
          have hAdjust := fsinfoAdjust_run hMount
            (s := s.withImage
              (putCopies v c 0 0 v.numFats s.image))
            hOpen _ rfl
          generalize hAdjustRun :
            (fsinfoAdjust v 1).run (Store.ideal v)
              (s.withImage (putCopies v c 0 0 v.numFats
                s.image)) = adjusted at hr hAdjust
          rcases adjusted with ⟨ok, s₂⟩
          rw [Store.withImage_image] at hAdjust
          have hFree : ok = true ↔
              Freeable v s.image [c] := by
            rw [hAdjust.1]
            constructor
            · rintro ⟨hSigned, hRoom⟩
              constructor
              · intro hMirror y hy
                rw [List.mem_singleton.mp hy]
                exact hOk.2 hMirror
              · intro y hy
                rw [List.mem_singleton.mp hy]
                exact hOk.1
              · intro _ sec hSec
                rw [← fsinfoSigned_putCopies hGeo hc
                  (mem_fsinfoSectors hGeo hSec).1]
                exact hSigned sec hSec
              · intro _ hSome
                rw [← freeCount_putCopies hGeo hc
                  hGeo.fsinfo]
                exact hRoom hSome
            · intro hOne
              constructor
              · intro sec hSec
                rw [fsinfoSigned_putCopies hGeo hc
                  (mem_fsinfoSectors hGeo hSec).1]
                exact hOne.signed (by simp) sec hSec
              · intro hSome
                rw [freeCount_putCopies hGeo hc hGeo.fsinfo]
                exact hOne.room (by simp) hSome
          cases ok with
          | false =>
              rw [hr]
              refine ⟨⟨nofun, fun hAll => ?_⟩, nofun⟩
              have hDone := hFree.mpr hAll.head
              cases hDone
          | true =>
              have hOne := hFree.mp rfl
              have hs₂ := hAdjust.2 rfl
              simp only at hs₂
              rw [freeCount_putCopies hGeo hc hGeo.fsinfo]
                at hs₂
              subst hs₂
              simp only [Bool.not_true, Bool.false_eq_true,
                if_false] at hr
              have hReleased := Released.one hGeo hc hOne
              have hCons := Freeable.cons_iff hGeo
                (fun y hy => hChain.valid hy) hFresh hOne
                hReleased
              have hLoop : (r.1 = true ↔ Freeable v
                    (giveBack v c s.image) rest) ∧
                  (r.1 = true → Released v rest
                    (giveBack v c s.image) r.2.image ∧
                      r.2.isOpen = true) := by
                rcases hRest with ⟨rfl, hEoc⟩ | hRest
                · rw [freeLoop_end hEoc] at hr
                  rw [hr]
                  exact ⟨⟨fun _ => .nil, fun _ => rfl⟩,
                    fun _ => ⟨.nil, hOpen⟩⟩
                · refine ih (s := s.withImage
                    (giveBack v c s.image)) hOpen ?_
                    (by simpa using hFuel) hr
                  apply hRest.congr
                  intro y hy
                  apply fatLink_congr
                  unfold fatEntry
                  rw [Store.withImage_image,
                    hReleased.entries _ hGeo.active y
                      (hRest.valid hy), if_neg]
                  rintro ⟨-, hMem⟩
                  rw [List.mem_singleton.mp hMem] at hy
                  exact hFresh hy
              refine ⟨hLoop.1.trans hCons.symm, fun h => ?_⟩
              exact ⟨hReleased.cons hGeo hOne (hLoop.2 h).1,
                (hLoop.2 h).2⟩

end Releasing

--
-- Validating and Freeing
--

section Exact

variable {v : FatVol} {s : Store}

/- The clusters of a start that `chain_valid` accepts. -/
def StartsChain
    (v : FatVol)
    (image : Buf)
    (c : Nat)
    (nodes : List Nat) : Prop :=
  c = 0 ∧ nodes = [] ∨ ClusterChain v image c nodes

end Exact

/- A FAT whose first copy has a chain of one cluster. -/
def oneCluster (mirrored : Bool) : Store where
  image := fun i =>
    if i = 516 ∨ i = 517 then 0xFF
    else if mirrored ∧ (i = 8708 ∨ i = 8709) then 0xFF
    else 0
  error := false
  fenced := false
  writing := true
  unsynced := false
  stale := false
  bodies := []

theorem oneCluster_chain (mirrored : Bool) :
    ClusterChain smallVol (oneCluster mirrored).image 2
      [2] where
  starts := rfl
  inside x hx := by
    rw [List.mem_singleton.mp hx]
    exact ⟨by decide, by decide⟩
  once := by simp
  linked := by simp
  ends := ⟨2, rfl, by cases mirrored <;> decide⟩

end KvantOS
