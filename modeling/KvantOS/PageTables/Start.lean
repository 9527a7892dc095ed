import KvantOS.PageTables.Ranges

/-
  This file proves that the tables of the start are sound and
  map the first 128 MiB to themselves, but for page zero, and
  nothing else.

  Key definitions include:
    * `FramesOk`, `owner64`, `owner32`
    * `atStart`

  Key theorems include:
    * `pagingInit_sound`, `pagingInit_look`
-/

namespace KvantOS.PageTables

open Paging

/- The frames that the allocator may return: see `Sound`. -/
structure FramesOk
    (wide : Bool)
    (img : Image)
    (supply : List Nat) : Prop where
  fresh : ∀ f ∈ supply, f ≠ 0 →
    4096 ∣ f ∧ f < 2 ^ 27 ∧ f ∉ img.tables wide
  apart : supply.Pairwise (fun f g => f ≠ 0 → f ≠ g)

/- What an address translates to at the start. -/
def atStart (va : Nat) : Option Page :=
  if 1 ≤ va / 4096 ∧ va / 4096 < 32768 then
    some (direct true false va)
  else none

--
-- Four Levels
--

section Wide

variable {img : Image} {mem : Nat → Buf}

def owner64
    (img : Image)
    (t : Nat) : Option (Nat × Nat) :=
  if t = img.pml4 then some (3, 0)
  else if t = img.pdpt then some (2, 0)
  else if t = img.pd then some (1, 0)
  else if t = img.pt0 then some (0, 0)
  else none

/- The static tables are different ones. -/
theorem apart64 (img : Image) :
    img.pml4 ≠ img.pdpt ∧ img.pml4 ≠ img.pd ∧
      img.pml4 ≠ img.pt0 ∧ img.pdpt ≠ img.pd ∧
      img.pdpt ≠ img.pt0 ∧ img.pd ≠ img.pt0 := by
  have hApart := img.apart64
  simp only [List.nodup_cons, List.mem_cons, List.not_mem_nil,
    or_false, not_or, not_false_eq_true, List.nodup_nil,
    and_true] at hApart
  exact ⟨hApart.1.1, hApart.1.2.1, hApart.1.2.2,
    hApart.2.1.1, hApart.2.1.2, hApart.2.2⟩

theorem links64
    (img : Image)
    {t : Nat}
    (hMem : t ∈ [img.pml4, img.pdpt, img.pd, img.pt0]) :
    LinksTo (t ||| present ||| writable) t :=
  ⟨or_flags t, (img.aligned64 t hMem).1,
    (img.aligned64 t hMem).2⟩

/- A page of 4096 bytes of the first 2 MiB. -/
theorem smallPage
    {i : Nat}
    (hi : i < 512) :
    LinksTo ((i <<< 12) ||| present ||| writable)
      (i * 4096) := by
  have hShift : i <<< 12 = i * 4096 := Nat.shiftLeft_eq i 12
  rw [or_flags, hShift]
  exact ⟨rfl, by omega, by omega⟩

/- `base | PAGE_PRESENT | PAGE_RW | PAGE_PSE` -/
def largeFlags : Nat :=
  present ||| writable ||| large

theorem or_largeFlags (p : Nat) :
    p ||| present ||| writable ||| large =
      mapping p largeFlags := by
  unfold mapping largeFlags
  rw [Nat.or_assoc p, Nat.or_assoc p]

theorem largeFlags_lt : largeFlags < 2 ^ 12 := by
  decide

theorem isLarge_mapping
    {p : Nat}
    (hDvd : 4096 ∣ p) :
    IsLarge true 0 (mapping p largeFlags) ∧
      has (mapping p largeFlags) present = true := by
  have hBit : ∀ k, k < 12 →
      has (mapping p largeFlags) (2 ^ k) =
        largeFlags.testBit k := by
    intro k hk
    rw [has_two_pow, testBit_mapping_low hDvd hk]
  have hThrough : has (mapping p largeFlags) writeThrough =
      false :=
    (hBit 3 (by decide)).trans (by decide)
  refine ⟨{ wide := rfl, level := rfl,
            large := (hBit 7 (by decide)).trans (by decide),
            writable := (hBit 1 (by decide)).trans (by decide),
            cached := by rw [hThrough, Bool.false_and] },
    (hBit 0 (by decide)).trans (by decide)⟩

theorem largePhys
    {p va size : Nat}
    (hPos : 0 < size)
    (hPlace : va / size * size = p) :
    p / size * size + va % size = va := by
  rw [← hPlace, Nat.mul_div_cancel _ hPos, Nat.div_add_mod']

theorem pageAt_large
    {p va : Nat}
    (hDvd : 4096 ∣ p)
    (hBelow : p < 2 ^ 32)
    (hPlace : va / reach true 1 * reach true 1 = p) :
    pageAt (mapping p largeFlags) (reach true 1) va =
      direct true false va := by
  have hFrame : frameOf (mapping p largeFlags) = p := by
    refine frameOf_mapping hDvd
      (Nat.lt_trans hBelow (by decide)) ?_
    intro k hLow _
    exact Nat.testBit_lt_two_pow
      (Nat.lt_of_lt_of_le largeFlags_lt
        (Nat.pow_le_pow_right (by decide) hLow))
  have hLarge := (isLarge_mapping hDvd).1
  simp only [pageAt, direct, hFrame, hLarge.writable,
    hLarge.cached, largePhys (reach_pos true 1) hPlace]

/- A page of 2 MiB. -/
theorem largePage
    {i : Nat}
    (hi : i < 64) :
    IsLarge true 0
        ((i <<< 21) ||| present ||| writable ||| large) ∧
      has ((i <<< 21) ||| present ||| writable ||| large)
        present = true ∧
      ((i <<< 21) ||| present ||| writable ||| large) <
        2 ^ 32 ∧
      ∀ va, va / reach true 1 = i →
        pageAt
            ((i <<< 21) ||| present ||| writable ||| large)
            (reach true 1) va = direct true false va := by
  obtain ⟨p, hp⟩ : ∃ p, i <<< 21 = p := ⟨_, rfl⟩
  have hShift : p = i * 2097152 :=
    hp.symm.trans (Nat.shiftLeft_eq i 21)
  have hDvd : 4096 ∣ p := by omega
  have hBelow : p < 2 ^ 32 := by omega
  have hReach : reach true 1 = 2097152 := by decide
  have hPlace : ∀ va, va / reach true 1 = i →
      va / reach true 1 * reach true 1 = p := by
    intro va hVa
    rw [hVa, hReach, hShift]
  rw [hp, or_largeFlags]
  obtain ⟨hLarge, hPresent⟩ := isLarge_mapping hDvd
  exact ⟨hLarge, hPresent,
    Nat.or_lt_two_pow hBelow (by decide),
    fun va hVa => pageAt_large hDvd hBelow (hPlace va hVa)⟩

/- What the tables hold after `paging_init`. -/
theorem pagingInit64_entries
    (img : Image)
    (mem : Nat → Buf) :
    (∀ i, entry true
        (pagingInit64 img (bss mem (img.tables true)) img.pml4)
        i = if i = 0 then
          img.pdpt ||| present ||| writable else 0) ∧
      (∀ i, entry true
        (pagingInit64 img (bss mem (img.tables true)) img.pdpt)
        i = if i = 0 then
          img.pd ||| present ||| writable else 0) ∧
      (∀ i, entry true
        (pagingInit64 img (bss mem (img.tables true)) img.pd)
        i = if i = 0 then img.pt0 ||| present ||| writable
          else if i < 64 then
            (i <<< 21) ||| present ||| writable ||| large
          else 0) ∧
      ∀ i, entry true
        (pagingInit64 img (bss mem (img.tables true)) img.pt0)
        i = if i = 0 then 0
          else if i < 512 then
            (i <<< 12) ||| present ||| writable
          else 0 := by
  obtain ⟨h12, h13, h14, h23, h24, h34⟩ := apart64 img
  have hPdpt : LinksTo (img.pdpt ||| present ||| writable)
      img.pdpt := links64 img (by simp)
  have hPd : LinksTo (img.pd ||| present ||| writable)
      img.pd := links64 img (by simp)
  have hPt0 : LinksTo (img.pt0 ||| present ||| writable)
      img.pt0 := links64 img (by simp)
  have hSmall : ∀ i ∈ List.range' 1 511,
      (i <<< 12) ||| present ||| writable <
        2 ^ (8 * entryBytes true) := by
    intro i hi
    rw [List.mem_range'_1] at hi
    exact lt_entry true (smallPage (by omega)).lt
  have hLarge : ∀ i ∈ List.range' 1 63,
      (i <<< 21) ||| present ||| writable ||| large <
        2 ^ (8 * entryBytes true) := by
    intro i hi
    rw [List.mem_range'_1] at hi
    exact lt_entry true (largePage (by omega)).2.2.1
  have hZero : ∀ t ∈ img.tables true, ∀ i,
      entry true (bss mem (img.tables true) t) i = 0 := by
    intro t hMem i
    unfold bss
    rw [if_pos hMem, entry_zero]
  have hTables : img.tables true =
      [img.pml4, img.pdpt, img.pd, img.pt0] := rfl
  rw [hTables] at hZero ⊢
  have hIn63 : ∀ i, i ∈ List.range' 1 63 ↔
      i ≠ 0 ∧ i < 64 := by
    intro i
    rw [List.mem_range'_1]
    omega
  have hIn511 : ∀ i, i ∈ List.range' 1 511 ↔
      i ≠ 0 ∧ i < 512 := by
    intro i
    rw [List.mem_range'_1]
    omega
  unfold pagingInit64
  refine ⟨?_, ?_, ?_, ?_⟩
  all_goals
    intro i
    simp only [entry_store (lt_entry true hPdpt.lt),
      entry_store (lt_entry true hPd.lt),
      entry_store (lt_entry true hPt0.lt),
      entry_store (show 0 < 2 ^ (8 * entryBytes true) by decide),
      entry_storeAll hSmall, entry_storeAll hLarge,
      hIn63, hIn511, h12, h13, h14, h23, h24, h34, h12.symm,
      h13.symm, h14.symm, h23.symm, h24.symm, h34.symm,
      false_and, true_and, if_false]
  · rw [hZero _ (by simp)]
  · rw [hZero _ (by simp)]
  · by_cases hi : i = 0
    · rw [if_pos hi, if_pos hi]
    · rw [if_neg hi, if_neg hi, hZero _ (by simp)]
      simp only [hi, ne_eq, not_false_eq_true, true_and]
  · by_cases hi : i = 0
    · rw [if_pos hi, if_pos hi]
    · rw [if_neg hi, if_neg hi, hZero _ (by simp)]
      simp only [hi, ne_eq, not_false_eq_true, true_and]

/- An owned table is one of the four. -/
theorem owner64_cases
    {t : Nat}
    {place : Nat × Nat}
    (hOwner : owner64 img t = some place) :
    (t = img.pml4 ∧ place = (3, 0)) ∨
      (t = img.pdpt ∧ place = (2, 0)) ∨
      (t = img.pd ∧ place = (1, 0)) ∨
      (t = img.pt0 ∧ place = (0, 0)) := by
  unfold owner64 at hOwner
  split at hOwner
  · exact Or.inl ⟨by assumption, by cases hOwner; rfl⟩
  · split at hOwner
    · exact Or.inr (Or.inl
        ⟨by assumption, by cases hOwner; rfl⟩)
    · split at hOwner
      · exact Or.inr (Or.inr (Or.inl
          ⟨by assumption, by cases hOwner; rfl⟩))
      · split at hOwner
        · exact Or.inr (Or.inr (Or.inr
            ⟨by assumption, by cases hOwner; rfl⟩))
        · cases hOwner

theorem owner64_tables (img : Image) :
    owner64 img img.pml4 = some (3, 0) ∧
      owner64 img img.pdpt = some (2, 0) ∧
      owner64 img img.pd = some (1, 0) ∧
      owner64 img img.pt0 = some (0, 0) := by
  obtain ⟨h12, h13, h14, h23, h24, h34⟩ := apart64 img
  unfold owner64
  simp [h12.symm, h13.symm, h14.symm, h23.symm, h24.symm,
    h34.symm]

theorem pagingInit64_tree
    (img : Image)
    (mem : Nat → Buf) :
    Tree true (pagingInit64 img (bss mem (img.tables true)))
      img.pml4 (owner64 img) := by
  obtain ⟨hTop, hMid, hDir, hLow⟩ :=
    pagingInit64_entries img mem
  generalize pagingInit64 img (bss mem (img.tables true)) = m
    at hTop hMid hDir hLow ⊢
  obtain ⟨hO1, hO2, hO3, hO4⟩ := owner64_tables img
  have hPdpt : LinksTo (img.pdpt ||| present ||| writable)
      img.pdpt := links64 img (by simp)
  have hPd : LinksTo (img.pd ||| present ||| writable)
      img.pd := links64 img (by simp)
  have hPt0 : LinksTo (img.pt0 ||| present ||| writable)
      img.pt0 := links64 img (by simp)
  constructor
  · exact hO1
  · intro t q hOwner
    rcases owner64_cases hOwner with
      ⟨hEq, _⟩ | ⟨_, hBad⟩ | ⟨_, hBad⟩ | ⟨_, hBad⟩
    · exact hEq
    all_goals cases hBad
  · intro t l q hOwner
    rcases owner64_cases hOwner with
      ⟨_, hAt⟩ | ⟨_, hAt⟩ | ⟨_, hAt⟩ | ⟨_, hAt⟩
    all_goals
      cases hAt
      decide
  · intro t place hOwner i hi
    have hi' : i < 512 := hi
    rcases owner64_cases hOwner with
      ⟨rfl, _⟩ | ⟨rfl, _⟩ | ⟨rfl, _⟩ | ⟨rfl, _⟩
    · rw [hTop]
      split
      · exact hPdpt.lt
      · decide
    · rw [hMid]
      split
      · exact hPd.lt
      · decide
    · rw [hDir]
      split
      · exact hPt0.lt
      · split
        · exact (largePage (by assumption)).2.2.1
        · decide
    · rw [hLow]
      split
      · decide
      · exact (smallPage hi').lt
  · intro t l q hOwner hBelow
    rcases owner64_cases hOwner with
      ⟨rfl, hAt⟩ | ⟨rfl, hAt⟩ | ⟨rfl, hAt⟩ | ⟨rfl, hAt⟩
    · cases hAt
      exact absurd rfl hBelow
    · cases hAt
      exact ⟨img.pml4, hO1, by rw [hTop]; exact hPdpt⟩
    · cases hAt
      exact ⟨img.pdpt, hO2, by rw [hMid]; exact hPd⟩
    · cases hAt
      exact ⟨img.pd, hO3, by rw [hDir]; exact hPt0⟩
  · intro t l q i hOwner hi hPresent
    rcases owner64_cases hOwner with
      ⟨rfl, hAt⟩ | ⟨rfl, hAt⟩ | ⟨rfl, hAt⟩ | ⟨rfl, hAt⟩
    · cases hAt
      rw [hTop] at hPresent ⊢
      by_cases hZero : i = 0
      · subst hZero
        exact Or.inr ⟨img.pdpt, hO2, hPdpt⟩
      · rw [if_neg hZero] at hPresent
        exact absurd hPresent (by decide)
    · cases hAt
      rw [hMid] at hPresent ⊢
      by_cases hZero : i = 0
      · subst hZero
        exact Or.inr ⟨img.pd, hO3, hPd⟩
      · rw [if_neg hZero] at hPresent
        exact absurd hPresent (by decide)
    · cases hAt
      rw [hDir] at hPresent ⊢
      by_cases hZero : i = 0
      · subst hZero
        exact Or.inr ⟨img.pt0, hO4, hPt0⟩
      · rw [if_neg hZero] at hPresent ⊢
        by_cases hLarge : i < 64
        · rw [if_pos hLarge]
          exact Or.inl (largePage hLarge).1
        · rw [if_neg hLarge] at hPresent
          exact absurd hPresent (by decide)
    · cases hAt

theorem pagingInit64_look
    (img : Image)
    (mem : Nat → Buf)
    {va : Nat}
    (hSpace : va < spaceBytes true) :
    translate true
        (pagingInit64 img (bss mem (img.tables true)))
        3 img.pml4 va = atStart va := by
  have hSpace' : va < 281474976710656 := hSpace
  have h3 : index true 3 va = va / 549755813888 % 512 := rfl
  have h2 : index true 2 va = va / 1073741824 % 512 := rfl
  have h1 : index true 1 va = va / 2097152 % 512 := rfl
  have h0 : index true 0 va = va / 4096 % 512 := rfl
  obtain ⟨hTop, hMid, hDir, hLow⟩ :=
    pagingInit64_entries img mem
  generalize pagingInit64 img (bss mem (img.tables true)) = m
    at hTop hMid hDir hLow ⊢
  have hPdpt : LinksTo (img.pdpt ||| present ||| writable)
      img.pdpt := links64 img (by simp)
  have hPd : LinksTo (img.pd ||| present ||| writable)
      img.pd := links64 img (by simp)
  have hPt0 : LinksTo (img.pt0 ||| present ||| writable)
      img.pt0 := links64 img (by simp)
  have hNone : has 0 present = false := by decide
  unfold atStart
  by_cases hi3 : index true 3 va = 0
  · rw [translate_link (by rw [hTop, if_pos hi3]; exact hPdpt)]
    by_cases hi2 : index true 2 va = 0
    · rw [translate_link (by rw [hMid, if_pos hi2]; exact hPd)]
      by_cases hi1 : index true 1 va = 0
      · rw [translate_link
          (by rw [hDir, if_pos hi1]; exact hPt0)]
        by_cases hi0 : index true 0 va = 0
        · rw [translate_absent
            (by rw [hLow, if_pos hi0]; exact hNone),
            if_neg (by omega)]
        · have hSmall : entry true (m img.pt0)
              (index true 0 va) =
                (index true 0 va <<< 12) ||| present |||
                  writable := by
            have hIdx : index true 0 va < 512 :=
              index_lt true 0 va
            rw [hLow, if_neg hi0, if_pos hIdx]
          have hPage := smallPage (index_lt true 0 va)
          rw [translate_page (by rw [hSmall]; exact hPage.present),
            hSmall, if_pos (by omega), hPage.value,
            pageAt_mapping hPage.aligned hPage.below
              (by decide)]
          unfold direct
          simp only [Option.some.injEq, Page.mk.injEq]
          exact ⟨by omega, by decide, by decide⟩
      · by_cases hLarge : index true 1 va < 64
        · obtain ⟨hIs, hPresent, _, hPage⟩ := largePage hLarge
          have hEntry : entry true (m img.pd)
              (index true 1 va) =
                (index true 1 va <<< 21) ||| present |||
                  writable ||| large := by
            rw [hDir, if_neg hi1, if_pos hLarge]
          rw [translate_large (by decide)
            (by rw [hEntry]; exact hPresent)
            (by rw [hEntry]; exact hIs.large), hEntry,
            if_pos (by omega), hPage va (by
              rw [h1, Nat.mod_eq_of_lt]
              · rfl
              · omega)]
        · rw [translate_absent (by
            rw [hDir, if_neg hi1, if_neg hLarge]
            exact hNone), if_neg (by omega)]
    · rw [translate_absent
        (by rw [hMid, if_neg hi2]; exact hNone),
        if_neg (by omega)]
  · rw [translate_absent
      (by rw [hTop, if_neg hi3]; exact hNone),
      if_neg (by omega)]

end Wide

--
-- Two Levels
--

section Narrow

variable {img : Image} {mem : Nat → Buf}

/- The entry of a row for an address. -/
theorem rowPage
    {a : Nat}
    (hDvd : 4096 ∣ a)
    (hBelow : a < 2 ^ 32) :
    LinksTo (a ||| present ||| writable) a :=
  ⟨or_flags a, hDvd, hBelow⟩

/- A row maps the pages from an address on. -/
theorem fillRow_spec
    (t addr : Nat)
    (hDvd : 4096 ∣ addr)
    (hBelow : addr + 4096 * 1024 < 2 ^ 32) :
    (fillRow img t (mem, addr)).2 = addr + 4096 * 1024 ∧
      ∀ t' j, entry false
          ((fillRow img t (mem, addr)).1 t') j =
        if t' = rowAt img.pageTables t ∧ j < 1024 then
          (addr + 4096 * j) ||| present ||| writable
        else entry false (mem t') j := by
  unfold fillRow
  -- By induction on the entries stored so far.
  suffices hAll : ∀ n, n ≤ 1024 →
      ((List.range n).foldl
        (fun (r : (Nat → Buf) × Nat) i =>
          (store false r.1 (rowAt img.pageTables t) i
            (r.2 ||| present ||| writable),
            (r.2 + 0x1000) % 2 ^ 32)) (mem, addr)).2 =
          addr + 4096 * n ∧
        ∀ t' j, entry false
          (((List.range n).foldl
            (fun (r : (Nat → Buf) × Nat) i =>
              (store false r.1 (rowAt img.pageTables t) i
                (r.2 ||| present ||| writable),
                (r.2 + 0x1000) % 2 ^ 32)) (mem, addr)).1 t')
            j =
          if t' = rowAt img.pageTables t ∧ j < n then
            (addr + 4096 * j) ||| present ||| writable
          else entry false (mem t') j from
    hAll 1024 (Nat.le_refl 1024)
  intro n hn
  induction n with
  | zero =>
      refine ⟨rfl, ?_⟩
      intro t' j
      rw [if_neg (by omega)]
      rfl
  | succ n ih =>
      obtain ⟨hAddr, hEntry⟩ := ih (by omega)
      rw [List.range_succ, List.foldl_append]
      generalize (List.range n).foldl _ (mem, addr) = r
        at hAddr hEntry ⊢
      have hPage : LinksTo (r.2 ||| present ||| writable) r.2 :=
        rowPage (by omega) (by omega)
      refine ⟨?_, ?_⟩
      · simp only [List.foldl_cons, List.foldl_nil]
        rw [hAddr, Nat.mod_eq_of_lt (by omega)]
        omega
      · intro t' j
        simp only [List.foldl_cons, List.foldl_nil]
        rw [entry_store (lt_entry false hPage.lt), hEntry]
        by_cases hTable : t' = rowAt img.pageTables t
        · simp only [hTable, true_and]
          by_cases hLast : j = n
          · rw [if_pos hLast, if_pos (by omega), hAddr, hLast]
          · rw [if_neg hLast]
            by_cases hLow : j < n
            · rw [if_pos hLow, if_pos (by omega)]
            · rw [if_neg hLow, if_neg (by omega)]
        · simp only [hTable, false_and, if_false]

theorem rowAt_inj
    {p t t' : Nat} :
    rowAt p t = rowAt p t' ↔ t = t' := by
  unfold rowAt
  omega

theorem rowLink
    (img : Image)
    {t : Nat}
    (ht : t < 32) :
    LinksTo
      (rowAt img.pageTables t ||| present ||| writable)
      (rowAt img.pageTables t) := by
  have hDvd := img.aligned32.2
  have hBelow := img.below32.2
  unfold rowAt
  exact rowPage (by omega) (by omega)

theorem fillRows_succ
    (img : Image)
    (mem : Nat → Buf)
    (n : Nat) :
    fillRows img mem (n + 1) =
      linkRow img n (fillRow img n (fillRows img mem n)) := by
  unfold fillRows
  rw [List.range_succ, List.foldl_append, List.foldl_cons,
    List.foldl_nil]

theorem linkRow_snd
    (img : Image)
    (n : Nat)
    (r : (Nat → Buf) × Nat) :
    (linkRow img n r).2 = r.2 := rfl

theorem entry_linkRow
    (img : Image)
    (r : (Nat → Buf) × Nat)
    {n : Nat}
    (hn : n < 32)
    (t j : Nat) :
    entry false ((linkRow img n r).1 t) j =
      if t = img.pageDirectory ∧ j = n then
        rowAt img.pageTables n ||| present ||| writable
      else entry false (r.1 t) j :=
  entry_store (lt_entry false (rowLink img hn).lt) t j

/- The directory and the rows after some rounds. -/
theorem fillRows_spec
    (img : Image)
    (mem : Nat → Buf)
    (n : Nat)
    (hn : n ≤ 32) :
    (fillRows img mem n).2 = 4096 * (1024 * n) ∧
      (∀ j, entry false
          ((fillRows img mem n).1 img.pageDirectory) j =
        if j < n then
          rowAt img.pageTables j ||| present ||| writable
        else entry false (mem img.pageDirectory) j) ∧
      ∀ k, k < n → ∀ j, j < 1024 →
        entry false ((fillRows img mem n).1
            (rowAt img.pageTables k)) j =
          4096 * (k * 1024 + j) ||| present |||
            writable := by
  induction n with
  | zero =>
      refine ⟨rfl, ?_, ?_⟩
      · intro j
        rw [if_neg (Nat.not_lt_zero j)]
        rfl
      · intro k hk
        omega
  | succ n ih =>
      obtain ⟨hAddr, hDir, hRows⟩ := ih (by omega)
      rw [fillRows_succ]
      generalize fillRows img mem n = r at hAddr hDir hRows ⊢
      obtain ⟨m, addr⟩ := r
      dsimp only at hAddr hDir hRows
      obtain ⟨hNext, hFill⟩ := @fillRow_spec img m n addr
        (by omega) (by omega)
      have hApart := img.apart32 n (by omega)
      have hLink := entry_linkRow img (fillRow img n (m, addr))
        (show n < 32 by omega)
      refine ⟨?_, ?_, ?_⟩
      · rw [linkRow_snd, hNext, hAddr]
        omega
      · intro j
        rw [hLink, hFill,
          if_neg (fun hAt : _ ∧ _ => hApart hAt.1), hDir]
        by_cases hLast : j = n
        · rw [if_pos ⟨rfl, hLast⟩, if_pos (by omega), hLast]
        · rw [if_neg (fun hAt => hLast hAt.2)]
          by_cases hLow : j < n
          · rw [if_pos hLow, if_pos (by omega)]
          · rw [if_neg hLow, if_neg (by omega)]
      · intro k hk j hj
        rw [hLink, hFill, if_neg (fun hAt =>
          img.apart32 k (by omega) hAt.1.symm)]
        by_cases hLast : k = n
        · subst hLast
          have hPlace : addr + 4096 * j =
              4096 * (k * 1024 + j) := by omega
          rw [if_pos ⟨rfl, hj⟩, hPlace]
        · rw [if_neg (fun hAt => hLast (rowAt_inj.mp hAt.1)),
            hRows k (by omega) j hj]

/- What the tables hold after `paging_init`. -/
theorem pagingInit32_entries
    (img : Image)
    (mem : Nat → Buf) :
    (∀ j, j < 1024 → entry false
        (pagingInit32 img mem img.pageDirectory) j =
        if j < 32 then
          rowAt img.pageTables j ||| present ||| writable
        else writable) ∧
      ∀ k, k < 32 → ∀ j, j < 1024 →
        entry false
          (pagingInit32 img mem (rowAt img.pageTables k)) j =
          if k = 0 ∧ j = 0 then 0
          else 4096 * (k * 1024 + j) ||| present |||
            writable := by
  have hWritable : ∀ i ∈ List.range 1024,
      writable < 2 ^ (8 * entryBytes false) := by
    intro i _
    decide
  obtain ⟨_, hDir, hRows⟩ := fillRows_spec img
    (storeAll false mem img.pageDirectory (List.range 1024)
      (fun _ => writable)) 32 (Nat.le_refl 32)
  unfold pagingInit32
  refine ⟨?_, ?_⟩
  · intro j hj
    rw [entry_store (show 0 < 2 ^ (8 * entryBytes false) by
        decide),
      if_neg (fun hAt => img.apart32 0 (by decide) hAt.1),
      hDir, entry_storeAll hWritable,
      if_pos (show img.pageDirectory = img.pageDirectory ∧
        j ∈ List.range 1024 from
          ⟨rfl, List.mem_range.mpr hj⟩)]
  · intro k hk j hj
    rw [entry_store (show 0 < 2 ^ (8 * entryBytes false) by
        decide), hRows k hk j hj]
    simp only [rowAt_inj]

/- The rows by number. -/
def owner32
    (img : Image)
    (t : Nat) : Option (Nat × Nat) :=
  if t = img.pageDirectory then some (1, 0)
  else
    ((List.range 32).find?
      (fun k => rowAt img.pageTables k == t)).map
      (fun k => (0, k))

theorem owner32_cases
    {t : Nat}
    {place : Nat × Nat}
    (hOwner : owner32 img t = some place) :
    (t = img.pageDirectory ∧ place = (1, 0)) ∨
      ∃ k, k < 32 ∧ t = rowAt img.pageTables k ∧
        place = (0, k) := by
  unfold owner32 at hOwner
  split at hOwner
  · exact Or.inl ⟨by assumption, by cases hOwner; rfl⟩
  · rw [Option.map_eq_some_iff] at hOwner
    obtain ⟨k, hFind, hPlace⟩ := hOwner
    have hEq := List.find?_some hFind
    simp only [beq_iff_eq] at hEq
    exact Or.inr ⟨k,
      List.mem_range.mp (List.mem_of_find?_eq_some hFind),
      hEq.symm, hPlace.symm⟩

theorem owner32_row
    (img : Image)
    {k : Nat}
    (hk : k < 32) :
    owner32 img (rowAt img.pageTables k) = some (0, k) := by
  unfold owner32
  rw [if_neg (img.apart32 k hk).symm]
  cases hFind : (List.range 32).find?
      (fun j => rowAt img.pageTables j ==
        rowAt img.pageTables k) with
  | none =>
      have hNone := List.find?_eq_none.mp hFind k
        (List.mem_range.mpr hk)
      exact absurd BEq.rfl hNone
  | some j =>
      have hSome := List.find?_some hFind
      simp only [beq_iff_eq, rowAt_inj] at hSome
      rw [hSome]
      rfl

theorem pagingInit32_tree
    (img : Image)
    (mem : Nat → Buf) :
    Tree false (pagingInit32 img mem) img.pageDirectory
      (owner32 img) := by
  obtain ⟨hDir, hRows⟩ := pagingInit32_entries img mem
  generalize pagingInit32 img mem = m at hDir hRows ⊢
  have hFirst : owner32 img img.pageDirectory = some (1, 0) :=
    if_pos rfl
  have hAbsent : has writable present = false := by decide
  constructor
  · exact hFirst
  · intro t q hOwner
    rcases owner32_cases hOwner with
      ⟨hEq, _⟩ | ⟨k, _, _, hBad⟩
    · exact hEq
    · cases hBad
  · intro t l q hOwner
    rcases owner32_cases hOwner with
      ⟨_, hAt⟩ | ⟨_, _, _, hAt⟩
    all_goals
      cases hAt
      decide
  · intro t place hOwner i hi
    exact entry_lt false (m t) i
  · intro t l q hOwner hBelow
    rcases owner32_cases hOwner with
      ⟨rfl, hAt⟩ | ⟨k, hk, rfl, hAt⟩
    · cases hAt
      exact absurd rfl hBelow
    · cases hAt
      have hPart : q / tableEntries false = 0 :=
        Nat.div_eq_of_lt (Nat.lt_trans hk (by decide))
      have hSlot : q % tableEntries false = q :=
        Nat.mod_eq_of_lt (Nat.lt_trans hk (by decide))
      refine ⟨img.pageDirectory, ?_, ?_⟩
      · rw [hPart]
        exact hFirst
      · rw [hSlot, hDir q (by omega), if_pos hk]
        exact rowLink img hk
  · intro t l q i hOwner hi hPresent
    rcases owner32_cases hOwner with
      ⟨rfl, hAt⟩ | ⟨k, hk, rfl, hAt⟩
    · cases hAt
      rw [hDir i hi] at hPresent ⊢
      by_cases hLow : i < 32
      · rw [if_pos hLow, Nat.zero_mul, Nat.zero_add]
        exact Or.inr ⟨_, owner32_row img hLow,
          rowLink img hLow⟩
      · rw [if_neg hLow, hAbsent] at hPresent
        cases hPresent
    · cases hAt

theorem pagingInit32_look
    (img : Image)
    (mem : Nat → Buf)
    {va : Nat}
    (hSpace : va < spaceBytes false) :
    translate false (pagingInit32 img mem) 1
        img.pageDirectory va = atStart va := by
  have hSpace' : va < 4294967296 := hSpace
  have h1 : index false 1 va = va / 4194304 % 1024 := rfl
  have h0 : index false 0 va = va / 4096 % 1024 := rfl
  obtain ⟨hDir, hRows⟩ := pagingInit32_entries img mem
  generalize pagingInit32 img mem = m at hDir hRows ⊢
  have hDirAt := hDir _ (index_lt false 1 va)
  unfold atStart
  by_cases hRow : index false 1 va < 32
  · rw [if_pos hRow] at hDirAt
    rw [translate_link (by
      rw [hDirAt]
      exact rowLink img hRow)]
    have hAt := hRows _ hRow _ (index_lt false 0 va)
    by_cases hZero : index false 1 va = 0 ∧
        index false 0 va = 0
    · rw [if_pos hZero] at hAt
      rw [translate_absent (by rw [hAt]; decide),
        if_neg (by omega)]
    · rw [if_neg hZero] at hAt
      have hPlace : 4096 * (index false 1 va * 1024 +
          index false 0 va) = va / 4096 * 4096 := by
        omega
      rw [hPlace] at hAt
      have hPage : LinksTo
          (va / 4096 * 4096 ||| present ||| writable)
          (va / 4096 * 4096) :=
        rowPage (by omega) (by omega)
      rw [translate_page (by rw [hAt]; exact hPage.present),
        hAt, if_pos (by omega), hPage.value,
        pageAt_mapping hPage.aligned hPage.below (by decide)]
      unfold direct
      simp only [Option.some.injEq, Page.mk.injEq]
      exact ⟨by omega, by decide, by decide⟩
  · rw [if_neg hRow] at hDirAt
    rw [translate_absent (by rw [hDirAt]; decide),
      if_neg (by omega)]

end Narrow

section Both

variable {wide : Bool} {img : Image} {supply : List Nat}

/- The state of the start is sound. -/
theorem pagingInit_sound
    (mem : Nat → Buf)
    (hFrames : FramesOk wide img supply) :
    ∃ owner,
      Sound wide img (pagingInit wide img mem supply)
        owner := by
  cases wide with
  | true =>
      refine ⟨owner64 img, pagingInit64_tree img mem, ?_,
        hFrames.apart⟩
      intro f hMem hZero
      obtain ⟨hDvd, hBelow, hFree⟩ :=
        hFrames.fresh f hMem hZero
      refine ⟨hDvd, hBelow, ?_⟩
      have hNot : f ≠ img.pml4 ∧ f ≠ img.pdpt ∧
          f ≠ img.pd ∧ f ≠ img.pt0 := by
        simpa [Image.tables] using hFree
      unfold owner64
      rw [if_neg hNot.1, if_neg hNot.2.1, if_neg hNot.2.2.1,
        if_neg hNot.2.2.2]
  | false =>
      refine ⟨owner32 img, pagingInit32_tree img _, ?_,
        hFrames.apart⟩
      intro f hMem hZero
      obtain ⟨hDvd, hBelow, hFree⟩ :=
        hFrames.fresh f hMem hZero
      refine ⟨hDvd, hBelow, ?_⟩
      cases hOwner : owner32 img f with
      | none => rfl
      | some place =>
          exfalso
          apply hFree
          unfold Image.tables
          simp only [Bool.false_eq_true, if_false,
            List.mem_cons, List.mem_map, List.mem_range]
          rcases owner32_cases hOwner with
            ⟨hEq, _⟩ | ⟨k, hk, hEq, _⟩
          · exact Or.inl hEq
          · exact Or.inr ⟨k, hk, hEq.symm⟩

/- It maps the first 128 MiB without page zero. -/
theorem pagingInit_look
    (img : Image)
    (mem : Nat → Buf)
    (supply : List Nat)
    {va : Nat}
    (hSpace : va < spaceBytes wide) :
    look wide img (pagingInit wide img mem supply) va =
      atStart va := by
  cases wide with
  | true => exact pagingInit64_look img mem hSpace
  | false => exact pagingInit32_look img _ hSpace

end Both

end KvantOS.PageTables
