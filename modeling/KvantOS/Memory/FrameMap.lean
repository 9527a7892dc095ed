import KvantOS.Memory.Frames

/-
  This file determines which frames `pmm_init` leaves free
  for a memory map, and when these are the frames that lie
  in available memory.

  Key definitions include:
    * `Counted`, `Freed`, `Taken`
    * `MapAt`
    * `Inside`, `Named`, `Usable`
    * `MapFits`

  Key theorems include:
    * `clearFrames_spec`, `clearFrames_never`
    * `setFrames_spec`, `pmmInit_spec`, `pmmInit_never`
    * `pmmInit_exact_iff`
-/

namespace KvantOS.Memory

--
-- Marking Frames
--

/- The counter of used frames is right. -/
structure Counted (s : Pmm) : Prop where
  used : s.usedFrames =
    s.frameBitmap.count s.totalFrames
  total : s.totalFrames ≤ maxFrames

/- Exactly the named frames were made free. -/
structure Freed
    (s s' : Pmm)
    (named : Nat → Prop) : Prop where
  counted : Counted s'
  total : s'.totalFrames = s.totalFrames
  test : ∀ i, s'.frameBitmap.test i = false ↔
    s.frameBitmap.test i = false ∨
      (i < s.totalFrames ∧ named i)

/- Exactly the named frames were taken. -/
structure Taken
    (s s' : Pmm)
    (named : Nat → Prop) : Prop where
  counted : Counted s'
  total : s'.totalFrames = s.totalFrames
  test : ∀ i, s'.frameBitmap.test i = true ↔
    s.frameBitmap.test i = true ∨
      (i < s.totalFrames ∧ named i)

variable {s s' s'' : Pmm} {p q : Nat → Prop}

theorem Freed.refl
    (hCounted : Counted s)
    (hNone : ∀ i, ¬p i) :
    Freed s s p where
  counted := hCounted
  total := rfl
  test := by
    intro i
    simp [hNone i]

theorem Taken.refl
    (hCounted : Counted s)
    (hNone : ∀ i, ¬p i) :
    Taken s s p where
  counted := hCounted
  total := rfl
  test := by
    intro i
    simp [hNone i]

theorem Freed.trans
    {r : Nat → Prop}
    (hFirst : Freed s s' p)
    (hSecond : Freed s' s'' q)
    (hBoth : ∀ i, r i ↔ p i ∨ q i) :
    Freed s s'' r where
  counted := hSecond.counted
  total := hSecond.total.trans hFirst.total
  test := by
    intro i
    rw [hSecond.test, hFirst.test, hFirst.total, hBoth i]
    tauto

theorem Taken.trans
    {r : Nat → Prop}
    (hFirst : Taken s s' p)
    (hSecond : Taken s' s'' q)
    (hBoth : ∀ i, r i ↔ p i ∨ q i) :
    Taken s s'' r where
  counted := hSecond.counted
  total := hSecond.total.trans hFirst.total
  test := by
    intro i
    rw [hSecond.test, hFirst.test, hFirst.total, hBoth i]
    tauto

theorem markFree_spec
    (hCounted : Counted s)
    (i : Nat) :
    Freed s (markFree s i) (· = i) := by
  unfold markFree
  split
  · rename_i hHere
    have hCount := Bitmap.count_clear hHere.2 hHere.1
    have hLe := Bitmap.count_le s.frameBitmap s.totalFrames
    have hUsed := hCounted.used
    have hTotal := hCounted.total
    unfold maxFrames at hTotal
    refine ⟨⟨?_, hTotal⟩, rfl, ?_⟩
    · dsimp only
      rw [hUsed, Word.sub_of_le (by omega) (by omega)]
      omega
    · intro j
      dsimp only
      rw [Bitmap.test_clear, Bool.and_eq_false_iff]
      simp only [Bool.not_eq_false', decide_eq_true_eq]
      constructor
      · rintro (hFree | rfl)
        · exact Or.inl hFree
        · exact Or.inr ⟨hHere.1, rfl⟩
      · rintro (hFree | ⟨_, rfl⟩)
        · exact Or.inl hFree
        · exact Or.inr rfl
  · rename_i hOut
    refine ⟨hCounted, rfl, ?_⟩
    intro j
    refine ⟨Or.inl, ?_⟩
    rintro (hFree | ⟨hj, rfl⟩)
    · exact hFree
    · simpa [hj] using hOut

theorem markUsed_spec
    (hCounted : Counted s)
    (i : Nat) :
    Taken s (markUsed s i) (· = i) := by
  unfold markUsed
  split
  · rename_i hHere
    have hCount := Bitmap.count_set
      (n := s.totalFrames) hHere.2
    have hLe := Bitmap.count_le s.frameBitmap s.totalFrames
    have hUsed := hCounted.used
    have hTotal := hCounted.total
    unfold maxFrames at hTotal
    rw [if_pos hHere.1] at hCount
    refine ⟨⟨?_, hTotal⟩, rfl, ?_⟩
    · dsimp only
      rw [hUsed, hCount, Nat.mod_eq_of_lt (by omega)]
    · intro j
      dsimp only
      rw [Bitmap.test_set, Bool.or_eq_true, decide_eq_true_eq]
      constructor
      · rintro (hSet | rfl)
        · exact Or.inl hSet
        · exact Or.inr ⟨hHere.1, rfl⟩
      · rintro (hSet | ⟨_, rfl⟩)
        · exact Or.inl hSet
        · exact Or.inr rfl
  · rename_i hOut
    refine ⟨hCounted, rfl, ?_⟩
    intro j
    refine ⟨Or.inl, ?_⟩
    rintro (hSet | ⟨hj, rfl⟩)
    · exact hSet
    · simpa [hj] using hOut

--
-- Loops
--

variable {a stop : Nat}

/- The address of the last frame below 4 GiB. -/
def lastFrame : Nat := 0xFFFFF000

theorem clearFrames_below
    (fuel : Nat)
    (hCounted : Counted s)
    (hAligned : frameSize ∣ a)
    (hBelow : a < lastFrame)
    (hStop : stop < lastFrame)
    (hFuel : (stop - a) / frameSize < fuel) :
    ∃ s', clearFrames fuel s a stop = some s' ∧
      Freed s s' (fun i => a ≤ i * frameSize ∧
        (i + 1) * frameSize ≤ stop) := by
  unfold lastFrame at hBelow hStop
  unfold frameSize at *
  induction fuel generalizing s a with
  | zero => omega
  | succ fuel ih =>
      unfold clearFrames
      unfold frameSize
      rw [Nat.mod_eq_of_lt (by omega)]
      by_cases hMore : a + 4096 ≤ stop
      · rw [if_pos hMore]
        have hMark := markFree_spec hCounted (a / 4096)
        obtain ⟨s', hRest, hFreed⟩ := ih
          (a := a + 4096) hMark.counted (by omega) (by omega) (by omega)
        refine ⟨s', hRest, hMark.trans hFreed ?_⟩
        intro i
        omega
      · rw [if_neg hMore]
        refine ⟨s, rfl, Freed.refl hCounted ?_⟩
        intro i
        omega

/- The loop wraps around once from the last frame. -/
theorem clearFrames_spec
    (hCounted : Counted s)
    (hAligned : frameSize ∣ a)
    (hBound : a ≤ lastFrame)
    (hStop : stop < lastFrame) :
    ∃ s', clearFrames rounds s a stop = some s' ∧
      Freed s s' (fun i =>
        (a ≤ i * frameSize ∧ (i + 1) * frameSize ≤ stop) ∨
          (a = lastFrame ∧
            (i * frameSize = lastFrame ∨
              (i + 1) * frameSize ≤ stop))) := by
  have hRounds : rounds = 1048575 + 1 + 1 := rfl
  by_cases hLast : a = lastFrame
  · subst hLast
    have hMark := markFree_spec hCounted
      (lastFrame / frameSize)
    have hZero : (lastFrame + frameSize) % 2 ^ 32 = 0 := rfl
    obtain ⟨s', hRest, hFreed⟩ := clearFrames_below
      (a := 0) (1048575 + 1) hMark.counted (Nat.dvd_zero _)
      (by decide) hStop (by
        unfold lastFrame at hStop
        unfold frameSize
        omega)
    refine ⟨s', ?_, hMark.trans hFreed ?_⟩
    · rw [hRounds]
      unfold clearFrames
      rw [hZero, if_pos (Nat.zero_le _)]
      exact hRest
    · intro i
      unfold lastFrame at hStop ⊢
      unfold frameSize
      omega
  · obtain ⟨s', hRest, hFreed⟩ := clearFrames_below rounds
      hCounted hAligned (by omega) hStop (by
        unfold lastFrame at hStop
        unfold frameSize
        omega)
    refine ⟨s', hRest, hFreed.counted, hFreed.total, ?_⟩
    intro i
    rw [hFreed.test]
    simp [hLast]

/- A loop up to the last frame never ends. -/
theorem clearFrames_never
    (fuel : Nat)
    (hAligned : frameSize ∣ a)
    (hBound : a ≤ lastFrame)
    (hStop : lastFrame ≤ stop) :
    clearFrames fuel s a stop = none := by
  induction fuel generalizing s a with
  | zero => rfl
  | succ fuel ih =>
      unfold lastFrame at hBound hStop ih
      unfold frameSize at hAligned ih
      unfold clearFrames
      unfold frameSize
      rw [if_pos (by omega)]
      exact ih (by omega) (by omega)

theorem setFrames_spec
    (fuel : Nat)
    (hCounted : Counted s)
    (hAligned : frameSize ∣ a)
    (hStopAligned : frameSize ∣ stop)
    (hStop : stop ≤ lastFrame)
    (hFuel : (stop - a) / frameSize < fuel) :
    ∃ s', setFrames fuel s a stop = some s' ∧
      Taken s s' (fun i => a ≤ i * frameSize ∧
        i * frameSize < stop) := by
  unfold lastFrame at hStop
  unfold frameSize at *
  induction fuel generalizing s a with
  | zero => omega
  | succ fuel ih =>
      unfold setFrames
      unfold frameSize
      by_cases hMore : a < stop
      · rw [if_pos hMore, Nat.mod_eq_of_lt (by omega)]
        have hMark := markUsed_spec hCounted (a / 4096)
        obtain ⟨s', hRest, hTaken⟩ := ih
          (a := a + 4096) hMark.counted (by omega) (by omega)
        refine ⟨s', hRest, hMark.trans hTaken ?_⟩
        intro i
        omega
      · rw [if_neg hMore]
        refine ⟨s, rfl, Taken.refl hCounted ?_⟩
        intro i
        omega

/- Rounding to frames, in 32-bit addresses. -/
theorem roundDown_eq
    {x : Nat}
    (hBound : x < 2 ^ 32) :
    roundDown x = x / frameSize * frameSize :=
  Word.and_high (w := 32) (k := 12) hBound (by decide)

theorem roundUp_eq (x : Nat) :
    roundUp x =
      (x + 4095) % 2 ^ 32 / frameSize * frameSize :=
  roundDown_eq (Nat.mod_lt _ (by decide))

theorem roundUp_aligned (x : Nat) :
    frameSize ∣ roundUp x := by
  rw [roundUp_eq]
  exact Nat.dvd_mul_left _ _

theorem roundUp_le (x : Nat) :
    roundUp x ≤ lastFrame := by
  have hLess := Nat.mod_lt (x + 4095)
    (show 0 < 2 ^ 32 by decide)
  rw [roundUp_eq]
  unfold frameSize lastFrame
  omega

--
-- Memory Maps
--

/- The entries of a map fill the memory from `p` to `stop`. -/
def MapAt
    (m : Buf)
    (stop : Nat) : Nat → List Mmap → Prop
  | p, [] => p = stop
  | p, e :: rest =>
      mmapAt m p = e ∧ 20 ≤ e.size ∧
        MapAt m stop (p + e.size + 4) rest

/- The frame lies wholly inside a region. -/
def Inside (e : Mmap) (i : Nat) : Prop :=
  e.addr ≤ i * frameSize ∧
    (i + 1) * frameSize ≤ e.addr + e.len

/- Where the loop over a region begins and ends. -/
def loopStart (e : Mmap) : Nat :=
  roundUp (e.addr % 2 ^ 32)

def loopEnd (e : Mmap) : Nat :=
  (e.addr + e.len) % 2 ^ 64 % 2 ^ 32

/- The loop over a region passes over the frame. -/
def Named (e : Mmap) (i : Nat) : Prop :=
  (loopStart e ≤ i * frameSize ∧
      (i + 1) * frameSize ≤ loopEnd e) ∨
    (loopStart e = lastFrame ∧
      (i * frameSize = lastFrame ∨
        (i + 1) * frameSize ≤ loopEnd e))

/- An available region of the map satisfies `p`. -/
def Available
    (entries : List Mmap)
    (p : Mmap → Prop) : Prop :=
  ∃ e ∈ entries, e.type = 1 ∧ p e

variable {m : Buf} {entries : List Mmap}

/- An address is below the end while entries are left. -/
theorem MapAt.bounds
    {p : Nat}
    (hMap : MapAt m stop p entries) :
    p + 24 * entries.length ≤ stop := by
  induction entries generalizing p with
  | nil => exact Nat.le_of_eq hMap
  | cons e rest ih =>
      obtain ⟨_, hSize, hRest⟩ := hMap
      have hTail := ih hRest
      simp only [List.length_cons]
      omega

theorem freeEntry_spec
    (e : Mmap)
    (hCounted : Counted s)
    (hEnd : e.type = 1 → loopEnd e < lastFrame) :
    ∃ s', freeEntry s e = some s' ∧
      Freed s s' (fun i => e.type = 1 ∧ Named e i) := by
  unfold freeEntry
  split
  · rename_i hType
    obtain ⟨s', hLoop, hFreed⟩ := clearFrames_spec hCounted
      (roundUp_aligned _) (roundUp_le _) (hEnd hType)
    refine ⟨s', hLoop, hFreed.counted, hFreed.total, ?_⟩
    intro i
    rw [hFreed.test]
    simp only [hType, true_and]
    rfl
  · rename_i hType
    exact ⟨s, rfl, Freed.refl hCounted (by simp [hType])⟩

theorem freeEntries_spec
    {p fuel : Nat}
    (hMap : MapAt m stop p entries)
    (hCounted : Counted s)
    (hTop : stop < 2 ^ 32)
    (hEnds : ∀ e ∈ entries, e.type = 1 →
      loopEnd e < lastFrame)
    (hFuel : entries.length < fuel) :
    ∃ s', freeEntries m stop fuel s p = some s' ∧
      Freed s s' (fun i => Available entries (Named · i)) := by
  induction entries generalizing s p fuel with
  | nil =>
      obtain ⟨fuel, rfl⟩ : ∃ f, fuel = f + 1 :=
        ⟨fuel - 1, by omega⟩
      have hDone : ¬p < stop := by
        rw [show p = stop from hMap]
        exact Nat.lt_irrefl stop
      unfold freeEntries
      rw [if_neg hDone]
      exact ⟨s, rfl, Freed.refl hCounted (by simp [Available])⟩
  | cons e rest ih =>
      simp only [List.length_cons] at hFuel
      obtain ⟨fuel, rfl⟩ : ∃ f, fuel = f + 1 :=
        ⟨fuel - 1, by omega⟩
      have hBounds := hMap.bounds
      obtain ⟨hHere, hSize, hRest⟩ := hMap
      have hNext := hRest.bounds
      simp only [List.length_cons] at hBounds
      obtain ⟨s₁, hEntry, hFirst⟩ := freeEntry_spec e hCounted
        (hEnds e (by simp))
      obtain ⟨s', hLoop, hFreed⟩ := ih hRest hFirst.counted
        (fun d hd => hEnds d (by simp [hd]))
        (show rest.length < fuel by omega)
      refine ⟨s', ?_, hFirst.trans hFreed ?_⟩
      · unfold freeEntries
        rw [if_pos (by omega), hHere, hEntry]
        simp only [Option.bind_eq_bind, Option.bind_some]
        rw [Nat.mod_eq_of_lt (by omega)]
        exact hLoop
      · intro i
        simp [Available]

/- A region that ends in the last frame stops the boot. -/
theorem freeEntries_never
    (fuel : Nat)
    {p : Nat}
    (hMap : MapAt m stop p entries)
    (hCounted : Counted s)
    (hTop : stop < 2 ^ 32)
    (hEnd : ∃ e ∈ entries, e.type = 1 ∧
      lastFrame ≤ loopEnd e) :
    freeEntries m stop fuel s p = none := by
  induction entries generalizing s p fuel with
  | nil => simp at hEnd
  | cons e rest ih =>
      have hBounds := hMap.bounds
      obtain ⟨hHere, hSize, hRest⟩ := hMap
      have hNext := hRest.bounds
      simp only [List.length_cons] at hBounds
      cases fuel with
      | zero => rfl
      | succ fuel =>
          unfold freeEntries
          rw [if_pos (by omega), hHere]
          by_cases hBad : e.type = 1 ∧ lastFrame ≤ loopEnd e
          · have hNever : freeEntry s e = none := by
              unfold freeEntry
              rw [if_pos hBad.1]
              exact clearFrames_never rounds
                (roundUp_aligned _) (roundUp_le _) hBad.2
            rw [hNever]
            rfl
          · obtain ⟨s₁, hEntry, hFirst⟩ := freeEntry_spec e
              hCounted (fun hType => Nat.lt_of_not_le
                (fun hLe => hBad ⟨hType, hLe⟩))
            have hLater : ∃ d ∈ rest, d.type = 1 ∧
                lastFrame ≤ loopEnd d := by
              obtain ⟨d, hd, hWhy⟩ := hEnd
              rcases List.mem_cons.mp hd with rfl | hd
              · exact absurd hWhy hBad
              · exact ⟨d, hd, hWhy⟩
            rw [hEntry]
            simp only [Option.bind_eq_bind, Option.bind_some]
            rw [Nat.mod_eq_of_lt (by omega)]
            exact ih fuel hRest hFirst.counted hLater

--
-- Initialisation
--

/- `total_frames`, by the memory the boot loader reports. -/
def framesOf (memUpperKb : Nat) : Nat :=
  min ((memUpperKb + 1024) * 1024 % 2 ^ 32 / frameSize)
    maxFrames

/-
  A frame that is there to be handed out: below
  `total_frames`, past the first megabyte and the kernel's
  image, and wholly inside an available region.
-/
def Usable
    (kernelEnd memUpperKb : Nat)
    (entries : List Mmap)
    (i : Nat) : Prop :=
  i < framesOf memUpperKb ∧ kernelEnd ≤ i * frameSize ∧
    Available entries (Inside · i)

/-
  A memory map in 32-bit memory, of regions in 64-bit memory,
  and a kernel that was loaded at the first megabyte.
-/
structure Booted
    (m : Buf)
    (kernelEnd mmapAddr mmapLen : Nat)
    (entries : List Mmap) : Prop where
  map : MapAt m (mmapAddr + mmapLen) mmapAddr entries
  present : mmapAddr ≠ 0 ∧ mmapLen ≠ 0
  below : mmapAddr + mmapLen < 2 ^ 32
  regions : ∀ e ∈ entries, e.addr + e.len ≤ 2 ^ 64
  image : 0x100000 ≤ kernelEnd
  imageEnd : kernelEnd ≤ lastFrame

variable {kernelEnd memUpperKb mmapAddr mmapLen : Nat}

theorem counted_start (memUpperKb : Nat) :
    Counted ⟨Bitmap.full, framesOf memUpperKb,
      framesOf memUpperKb⟩ where
  used := Bitmap.count_full.symm
  total := Nat.min_le_right _ _

/- The frames past the kernel's image. -/
theorem roundUp_kernelEnd
    (hEnd : kernelEnd ≤ lastFrame)
    (i : Nat) :
    roundUp kernelEnd ≤ i * frameSize ↔
      kernelEnd ≤ i * frameSize := by
  unfold lastFrame at hEnd
  rw [roundUp_eq, Nat.mod_eq_of_lt (by omega)]
  unfold frameSize
  omega

theorem pmmInit_spec
    (hBoot : Booted m kernelEnd mmapAddr mmapLen entries)
    (memUpperKb : Nat)
    (hEnds : ∀ e ∈ entries, e.type = 1 →
      loopEnd e < lastFrame) :
    ∃ s, pmmInit m kernelEnd memUpperKb mmapAddr mmapLen =
        some s ∧ Counted s ∧
      s.totalFrames = framesOf memUpperKb ∧
      ∀ i, s.frameBitmap.test i = false ↔
        i < framesOf memUpperKb ∧
          kernelEnd ≤ i * frameSize ∧
          Available entries (Named · i) := by
  have hBelow := hBoot.below
  have hLength := hBoot.map.bounds
  obtain ⟨s₁, hEntries, hFreed⟩ := freeEntries_spec
    hBoot.map (counted_start memUpperKb)
    hBelow hEnds (show entries.length < 2 ^ 32 by omega)
  obtain ⟨s, hImage, hTaken⟩ := setFrames_spec rounds
    (a := 0) hFreed.counted (Nat.dvd_zero _)
    (roundUp_aligned kernelEnd) (roundUp_le kernelEnd) (by
      have hLe := roundUp_le kernelEnd
      unfold lastFrame at hLe
      unfold rounds maxFrames frameSize
      omega)
  have hTotal : s.totalFrames = framesOf memUpperKb :=
    hTaken.total.trans hFreed.total
  refine ⟨s, ?_, hTaken.counted, hTotal, ?_⟩
  · unfold pmmInit
    dsimp only
    rw [if_pos hBoot.present, Nat.mod_eq_of_lt hBelow]
    unfold framesOf at hEntries
    rw [hEntries]
    exact hImage
  · intro i
    have hKernel := roundUp_kernelEnd hBoot.imageEnd i
    have hHigh : (0 ≤ i * frameSize ∧
        i * frameSize < roundUp kernelEnd) ↔
        ¬kernelEnd ≤ i * frameSize := by
      rw [← hKernel]
      omega
    rw [← Bool.not_eq_true, hTaken.test, hHigh, hFreed.total]
    rw [not_or, Bool.not_eq_true, hFreed.test,
      Bitmap.test_full]
    dsimp only
    simp only [Bool.true_eq_false, false_or]
    tauto

theorem pmmInit_never
    (hBoot : Booted m kernelEnd mmapAddr mmapLen entries)
    (memUpperKb : Nat)
    (hEnd : ∃ e ∈ entries, e.type = 1 ∧
      lastFrame ≤ loopEnd e) :
    pmmInit m kernelEnd memUpperKb mmapAddr mmapLen =
      none := by
  have hNever := freeEntries_never (2 ^ 32) hBoot.map
    (counted_start memUpperKb) hBoot.below
    hEnd
  unfold pmmInit
  dsimp only
  rw [if_pos hBoot.present, Nat.mod_eq_of_lt hBoot.below]
  unfold framesOf at hNever
  rw [hNever]
  rfl

--
-- Exactness
--

/- `pmm_init` ends and leaves exactly the usable frames free. -/
def InitExact
    (m : Buf)
    (kernelEnd memUpperKb mmapAddr mmapLen : Nat)
    (entries : List Mmap) : Prop :=
  ∃ s, pmmInit m kernelEnd memUpperKb mmapAddr mmapLen =
      some s ∧ Counted s ∧
    s.totalFrames = framesOf memUpperKb ∧
    ∀ i, s.frameBitmap.test i = false ↔
      Usable kernelEnd memUpperKb entries i

/-
  What the map must be like for 32-bit loops: no available
  region ends, modulo 2^32, in the last frame, and those that
  reach beyond the last but one neither stray into frames of
  no available region nor lose frames of their own.
-/
structure MapFits
    (kernelEnd memUpperKb : Nat)
    (entries : List Mmap) : Prop where
  ends : ∀ e ∈ entries, e.type = 1 → loopEnd e < lastFrame
  strays : ∀ e ∈ entries, e.type = 1 →
    lastFrame - frameSize < e.addr + e.len →
    ∀ i, i < framesOf memUpperKb →
      kernelEnd ≤ i * frameSize → Named e i →
      Available entries (Inside · i)
  loses : ∀ e ∈ entries, e.type = 1 →
    lastFrame - frameSize < e.addr + e.len →
    ∀ i, i < framesOf memUpperKb →
      kernelEnd ≤ i * frameSize → Inside e i →
      Available entries (Named · i)

/- The loop is right for a region that ends in time. -/
theorem named_iff_inside
    {e : Mmap}
    (hBelow : e.addr + e.len ≤ lastFrame - frameSize)
    (i : Nat) :
    Named e i ↔ Inside e i := by
  unfold lastFrame frameSize at hBelow
  have hStart : loopStart e =
      (e.addr + 4095) / 4096 * 4096 := by
    unfold loopStart
    rw [roundUp_eq, Nat.mod_eq_of_lt (by omega),
      Nat.mod_eq_of_lt (by omega)]
    rfl
  have hEnd : loopEnd e = e.addr + e.len := by
    unfold loopEnd
    rw [Nat.mod_eq_of_lt (by omega),
      Nat.mod_eq_of_lt (by omega)]
  unfold Named Inside lastFrame frameSize
  rw [hStart, hEnd]
  omega

theorem pmmInit_exact_iff
    (hBoot : Booted m kernelEnd mmapAddr mmapLen entries)
    (memUpperKb : Nat) :
    InitExact m kernelEnd memUpperKb mmapAddr mmapLen
        entries ↔
      MapFits kernelEnd memUpperKb entries := by
  constructor
  · rintro ⟨s, hInit, _, _, hExact⟩
    have hEnds : ∀ e ∈ entries, e.type = 1 →
        loopEnd e < lastFrame := by
      intro e hMem hType
      by_contra hBad
      have hNever := pmmInit_never hBoot memUpperKb
        ⟨e, hMem, hType, by omega⟩
      rw [hInit] at hNever
      cases hNever
    obtain ⟨s', hInit', _, _, hNamed⟩ :=
      pmmInit_spec hBoot memUpperKb hEnds
    rw [hInit, Option.some.injEq] at hInit'
    subst hInit'
    refine ⟨hEnds, ?_, ?_⟩
    · intro e hMem hType _ i hi hPast hIn
      exact ((hExact i).mp ((hNamed i).mpr
        ⟨hi, hPast, e, hMem, hType, hIn⟩)).2.2
    · intro e hMem hType _ i hi hPast hIn
      exact ((hNamed i).mp ((hExact i).mpr
        ⟨hi, hPast, e, hMem, hType, hIn⟩)).2.2
  · intro hFits
    obtain ⟨s, hInit, hCounted, hTotal, hNamed⟩ :=
      pmmInit_spec hBoot memUpperKb hFits.ends
    refine ⟨s, hInit, hCounted, hTotal, ?_⟩
    intro i
    rw [hNamed]
    unfold Usable
    refine and_congr_right (fun hi =>
      and_congr_right (fun hPast => ?_))
    constructor
    · rintro ⟨e, hMem, hType, hIn⟩
      by_cases hBelow : e.addr + e.len ≤ lastFrame - frameSize
      · exact ⟨e, hMem, hType,
          (named_iff_inside hBelow i).mp hIn⟩
      · exact hFits.strays e hMem hType (by omega) i hi hPast
          hIn
    · rintro ⟨e, hMem, hType, hIn⟩
      by_cases hBelow : e.addr + e.len ≤ lastFrame - frameSize
      · exact ⟨e, hMem, hType,
          (named_iff_inside hBelow i).mpr hIn⟩
      · exact hFits.loses e hMem hType (by omega) i hi hPast
          hIn

end KvantOS.Memory
