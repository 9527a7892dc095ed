import KvantOS.Fat.Geometry

/-
  This file proves that reading a sector, changing some of
  its bytes and writing it back is a patch of the image, and
  what such patches do to FAT entries. It also gives the
  rules for the sector commands over a faulty store.

  Key theorems include:
    * `fatEntryOf_entryPut`, `Store.spec_read`
-/

--
-- Patches
--

namespace KvantOS

namespace Store

/- The store with another image. -/
def withImage
    (s : Store)
    (image : Buf) : Store :=
  { s with image }

@[simp]
theorem withImage_image
    (s : Store)
    (image : Buf) :
    (s.withImage image).image = image :=
  rfl

@[simp]
theorem withImage_isOpen
    (s : Store)
    (image : Buf) :
    (s.withImage image).isOpen = s.isOpen :=
  rfl

/-
  Writing back a sector changes the image where the sector
  was changed.
-/
theorem put_eq
    {v : FatVol}
    {s : Store}
    {sec : Nat}
    {data image : Buf}
    (hInside : ∀ i, i < v.bytesPerSector →
      data i = image (sec * v.bytesPerSector + i))
    (hOutside : ∀ a, a < sec * v.bytesPerSector ∨
      sec * v.bytesPerSector + v.bytesPerSector ≤ a →
      image a = s.image a) :
    s.put v sec data = s.withImage image := by
  unfold put withImage
  congr 1
  funext a
  by_cases hIn : sec * v.bytesPerSector ≤ a ∧
      a < sec * v.bytesPerSector + v.bytesPerSector
  · rw [Buf.copy_inside hIn.1 hIn.2, hInside _ (by omega)]
    congr 1
    omega
  · rw [Buf.copy_outside (by omega), hOutside a (by omega)]

theorem sector_byte
    {v : FatVol}
    {s : Store}
    {sec i : Nat}
    (hi : i < v.bytesPerSector) :
    s.sector v sec i =
      s.image (sec * v.bytesPerSector + i) :=
  Buf.slice_inside hi

/- A number stored into a sector. -/
theorem put_put32
    {v : FatVol}
    {s : Store}
    {sec off value : Nat}
    {b image : Buf}
    (hFits : off + 4 ≤ v.bytesPerSector)
    (hPut : s.put v sec b = s.withImage image)
    (hSame : ∀ i, i < v.bytesPerSector →
      b i = image (sec * v.bytesPerSector + i)) :
    s.put v sec (b.put32 off value) = s.withImage
      (image.put32 (sec * v.bytesPerSector + off)
        value) := by
  have hImage : ∀ a, (s.put v sec b).image a = image a := by
    rw [hPut]
    exact fun _ => rfl
  apply put_eq
  · intro i hi
    unfold Buf.put32
    by_cases hIn : off ≤ i ∧ i < off + 4
    · rw [if_pos hIn, if_pos (by omega)]
      congr 3
      omega
    · rw [if_neg hIn, if_neg (by omega), hSame i hi]
  · intro a hOut
    rw [Buf.put32_outside (by omega), ← hImage a]
    exact Buf.copy_outside (by omega)

/- A FAT entry replaced in its sector. -/
theorem put_entryPut
    {v : FatVol}
    {s : Store}
    {sec o val : Nat}
    (hFits : o + v.entryBytes ≤ v.bytesPerSector) :
    s.put v sec (fatEntryPut v (s.sector v sec) o val) =
      s.withImage (fatEntryPut v s.image
        (sec * v.bytesPerSector + o) val) := by
  unfold FatVol.entryBytes at hFits
  unfold fatEntryPut
  split
  · next h32 =>
      rw [if_pos h32] at hFits
      have hOld : (s.sector v sec).get32 o =
          s.image.get32 (sec * v.bytesPerSector + o) := by
        apply Buf.get32_congr
        intro i hi
        rw [sector_byte (by omega), Nat.add_assoc]
      rw [hOld]
      apply put_eq
      · intro i hi
        unfold Buf.put32
        by_cases hIn : o ≤ i ∧ i < o + 4
        · rw [if_pos hIn, if_pos (by omega)]
          congr 3
          omega
        · rw [if_neg hIn, if_neg (by omega),
            sector_byte hi]
      · intro a hOut
        exact Buf.put32_outside (by omega)
  · next h32 =>
      rw [if_neg h32] at hFits
      apply put_eq
      · intro i hi
        unfold Buf.put16
        by_cases hIn : o ≤ i ∧ i < o + 2
        · rw [if_pos hIn, if_pos (by omega)]
          congr 3
          omega
        · rw [if_neg hIn, if_neg (by omega),
            sector_byte hi]
      · intro a hOut
        exact Buf.put16_outside (by omega)

end Store

--
-- Patched Entries
--

/- The bits of a value that an entry holds. -/
def entryMask
    (v : FatVol)
    (val : Nat) : Nat :=
  if v.isFat32 then val % 2 ^ 28 else val % 2 ^ 16

variable {b : Buf}

theorem fatEntryPut_outside
    {v : FatVol}
    {off val i : Nat}
    (hOut : i < off ∨ off + v.entryBytes ≤ i) :
    fatEntryPut v b off val i = b i := by
  unfold FatVol.entryBytes at hOut
  unfold fatEntryPut
  split
  · next h32 =>
      rw [if_pos h32] at hOut
      exact Buf.put32_outside hOut
  · next h32 =>
      rw [if_neg h32] at hOut
      exact Buf.put16_outside hOut

/- The entry itself is set, reserved bits apart. -/
theorem fatEntryAt_entryPut_same
    (v : FatVol)
    (b : Buf)
    (off val : Nat) :
    fatEntryAt v (fatEntryPut v b off val) off =
      entryMask v val := by
  unfold fatEntryAt fatEntryPut entryMask
  split
  · rw [Buf.get32_put32_same]
    have hLt := b.get32_lt off
    omega
  · rw [Buf.get16_put16_same]
    omega

/- Entries elsewhere are kept. -/
theorem fatEntryAt_entryPut_ne
    {v : FatVol}
    {off off' val : Nat}
    (hOut : off' + v.entryBytes ≤ off ∨
      off + v.entryBytes ≤ off') :
    fatEntryAt v (fatEntryPut v b off val) off' =
      fatEntryAt v b off' := by
  apply fatEntryAt_congr
  intro i hi
  apply fatEntryPut_outside
  omega

variable {f g c c' : Nat}

/- Two entries of the FAT copies do not overlap. -/
theorem fat_entries_apart
    {v : FatVol}
    (hGeo : Geometry v)
    (hc : c < v.totalClusters + 2)
    (hc' : c' < v.totalClusters + 2)
    (hNe : ¬ (f = g ∧ c = c')) :
    fatBase v g + c' * v.entryBytes + v.entryBytes ≤
        fatBase v f + c * v.entryBytes ∨
      fatBase v f + c * v.entryBytes + v.entryBytes ≤
        fatBase v g + c' * v.entryBytes := by
  have hStep : ∀ a b : Nat, a < b →
      a * v.entryBytes + v.entryBytes ≤ b * v.entryBytes := by
    intro a b hab
    have hMul := Nat.mul_le_mul_right v.entryBytes hab
    rw [Nat.succ_mul] at hMul
    exact hMul
  have hEnd : ∀ a, a < v.totalClusters + 2 →
      a * v.entryBytes + v.entryBytes ≤
        v.fatSize * v.bytesPerSector := by
    intro a ha
    exact (hStep a _ ha).trans hGeo.fatBytes
  have hCopies : ∀ a b : Nat, a < b →
      fatBase v a + v.fatSize * v.bytesPerSector ≤
        fatBase v b := by
    intro a b hab
    unfold fatBase
    rw [← Nat.add_mul]
    apply Nat.mul_le_mul_right
    have hMul := Nat.mul_le_mul_right v.fatSize hab
    rw [Nat.succ_mul] at hMul
    omega
  have hEndC := hEnd c hc
  have hEndC' := hEnd c' hc'
  rcases Nat.lt_trichotomy f g with hLt | rfl | hGt
  · have := hCopies f g hLt
    omega
  · rcases Nat.lt_trichotomy c c' with hLt | rfl | hGt
    · have := hStep c c' hLt
      omega
    · exact absurd ⟨rfl, rfl⟩ hNe
    · have := hStep c' c hGt
      omega
  · have := hCopies g f hGt
    omega

/- What setting one entry does to all entries. -/
theorem fatEntryOf_entryPut
    {v : FatVol}
    (hGeo : Geometry v)
    (hc : c < v.totalClusters + 2)
    (hc' : c' < v.totalClusters + 2)
    (image : Buf)
    (val : Nat) :
    fatEntryOf v g (fatEntryPut v image
        (fatBase v f + c * v.entryBytes) val) c' =
      if f = g ∧ c = c' then entryMask v val
      else fatEntryOf v g image c' := by
  unfold fatEntryOf
  split
  · next hEq =>
      rw [hEq.1, hEq.2]
      exact fatEntryAt_entryPut_same ..
  · next hNe =>
      exact fatEntryAt_entryPut_ne
        (fat_entries_apart hGeo hc hc' hNe)

/- The FAT is untouched by patches elsewhere. -/
theorem fatEntryOf_congr
    {v : FatVol}
    {image image' : Buf}
    (hSame : ∀ a,
      fatBase v f + c * v.entryBytes ≤ a →
      a < fatBase v f + c * v.entryBytes + v.entryBytes →
      image' a = image a) :
    fatEntryOf v f image' c = fatEntryOf v f image c := by
  apply fatEntryAt_congr
  intro i hi
  exact hSame _ (Nat.le_add_right _ _) (by omega)

/- The bytes of the FAT copies. -/
theorem fat_entry_bounds
    {v : FatVol}
    (hGeo : Geometry v)
    (hf : f < v.numFats)
    (hc : c < v.totalClusters + 2) :
    v.fatStart * v.bytesPerSector ≤
        fatBase v f + c * v.entryBytes ∧
      fatBase v f + c * v.entryBytes + v.entryBytes ≤
        v.rootSector * v.bytesPerSector := by
  have hMul := Nat.mul_le_mul_right v.entryBytes hc
  rw [Nat.succ_mul] at hMul
  have hEnd := hMul.trans hGeo.fatBytes
  have hCopy := Nat.mul_le_mul_right v.fatSize hf
  rw [Nat.succ_mul] at hCopy
  have hAll : (v.fatStart + f * v.fatSize + v.fatSize) *
      v.bytesPerSector ≤
        v.rootSector * v.bytesPerSector := by
    apply Nat.mul_le_mul_right
    unfold FatVol.rootSector
    omega
  rw [Nat.add_mul (v.fatStart + f * v.fatSize)] at hAll
  unfold fatBase
  refine ⟨?_, by omega⟩
  rw [Nat.add_mul]
  omega

--
-- Command Rules
--

namespace Store

variable {v : FatVol} {α : Type} {crash : Store → Prop}
variable {post : α → Store → Prop} {s : Store}

variable {sec : Nat}

theorem spec_read_any
    {next : Option Buf → FatProg α}
    (hCrash : crash s)
    (hFail : (next none).Spec (faulty v) crash post s.fail)
    (hRead : s.isOpen = true → sec < v.totalSectors →
      ∀ b, (walOverlap v sec 1 = false →
          b = s.sector v sec) →
        (next (some b)).Spec (faulty v) crash post
          (s.mark v sec)) :
    (fatReadSectors sec >>= next).Spec (faulty v) crash
      post s := by
  refine Prog.spec_step.mpr ⟨hCrash, ?_⟩
  intro reply s' hStep
  rcases hStep with
    hIdeal | ⟨rfl, rfl⟩ | ⟨hWal, hOpen, hSec, hSome, rfl⟩
  · simp only [ideal] at hIdeal
    split at hIdeal
    · next hOpen =>
        cases hIdeal
        simp only [Bool.and_eq_true,
          decide_eq_true_eq] at hOpen
        exact hRead hOpen.1 hOpen.2 _ (fun _ => rfl)
    · cases hIdeal
      exact hFail
  · exact hFail
  · cases reply with
    | none => cases hSome
    | some b =>
        apply hRead hOpen hSec b
        intro hOut
        rw [hWal] at hOut
        cases hOut

/- A read outside the log's file delivers the image. -/
theorem spec_read
    {next : Option Buf → FatProg α}
    (hOut : walOverlap v sec 1 = false)
    (hCrash : crash s)
    (hFail : (next none).Spec (faulty v) crash post s.fail)
    (hRead : s.isOpen = true → sec < v.totalSectors →
      (next (some (s.sector v sec))).Spec (faulty v) crash
        post s) :
    (fatReadSectors sec >>= next).Spec (faulty v) crash
      post s := by
  apply spec_read_any hCrash hFail
  intro hOpen hSec b hb
  rw [mark_of_not hOut, hb hOut]
  exact hRead hOpen hSec

theorem spec_getError
    {next : Bool → FatProg α}
    (hCrash : crash s)
    (hNext : (next s.error).Spec (faulty v) crash post s) :
    (getError >>= next).Spec (faulty v) crash post s := by
  refine Prog.spec_step.mpr ⟨hCrash, ?_⟩
  rintro reply s' ⟨rfl, rfl⟩
  exact hNext

theorem spec_setError
    {next : Unit → FatProg α}
    (hCrash : crash s)
    (hNext : (next ()).Spec (faulty v) crash post s.fail) :
    (setError >>= next).Spec (faulty v) crash post s := by
  refine Prog.spec_step.mpr ⟨hCrash, ?_⟩
  rintro reply s' rfl
  exact hNext

end Store

end KvantOS
