import KvantOS.PageTables.Walk

/-
  This file proves what the calls for one page do: mapping it
  changes its own translation only, looking it up changes
  none, and the address found is that of the processor.

  Key theorems include:
    * `setPage_spec`, `pagingMap_spec`, `pagingPhys_spec`
    * `uncachePage_spec`
-/

namespace KvantOS.PageTables

open Paging

/- Two addresses of a page take the same way. -/
theorem div_reach_congr
    (wide : Bool)
    {va virt : Nat}
    (hPage : va / 4096 = virt / 4096) :
    va / reach wide 1 = virt / reach wide 1 ∧
      index wide 0 va = index wide 0 virt := by
  rw [index_eq, index_eq, reach_succ, reach_zero,
    ← Nat.div_div_eq_div_mul, ← Nat.div_div_eq_div_mul, hPage]
  exact ⟨rfl, rfl⟩

section Entries

variable {wide : Bool} {img : Image} {s : PagingState}
variable {owner : Nat → Option (Nat × Nat)}
variable {table value virt : Nat}

theorem page_of_place
    {va : Nat}
    (hPlace : va / reach wide 1 = virt / reach wide 1)
    (hIndex : index wide 0 va = index wide 0 virt) :
    va / 4096 = virt / 4096 := by
  have hVa := div_reach_child hPlace
  have hVirt : virt / reach wide 0 = virt / reach wide 1 *
      tableEntries wide + index wide 0 virt :=
    div_reach_child rfl
  rw [hIndex, ← hVirt, reach_zero] at hVa
  exact hVa

/- An address ends at the entry in the table of its page. -/
theorem look_table
    (hSound : Sound wide img s owner)
    (hTable : owner table = some (0, virt / reach wide 1)) :
    look wide img s virt =
      translate wide s.mem 0 table virt :=
  hSound.tree.translate_root hTable rfl

/- The entry of a page is stored. -/
theorem setPage_spec
    (hSound : Sound wide img s owner)
    (hTable : owner table = some (0, virt / reach wide 1))
    (hValue : value < 2 ^ 32)
    (hPresent : has value present = true) :
    Sound wide img
        { s with
          mem := store wide s.mem table (index wide 0 virt)
            value } owner ∧
      ∀ va, va < spaceBytes wide →
        look wide img
            { s with
              mem := store wide s.mem table
                (index wide 0 virt) value } va =
          if va / 4096 = virt / 4096 then
            some (pageAt value 4096 va)
          else look wide img s va := by
  have hEntry : ∀ t j, entry wide
      (store wide s.mem table (index wide 0 virt) value t) j =
        if t = table ∧ j = index wide 0 virt then value
        else entry wide (s.mem t) j :=
    entry_store (lt_entry wide hValue)
  have hSame : OnlyAt wide owner s.mem
      (store wide s.mem table (index wide 0 virt) value)
      table (index wide 0 virt) := by
    intro t _ i _ hNot
    rw [hEntry, if_neg (fun hAt => hNot hAt.1 hAt.2)]
  have hNew : entry wide
      (store wide s.mem table (index wide 0 virt) value table)
      (index wide 0 virt) = value := by
    rw [hEntry, if_pos ⟨rfl, rfl⟩]
  have hTree := hSound.tree.setEntry hTable hSame
    (by rw [hNew]; exact hValue)
  refine ⟨⟨hTree, hSound.fresh, hSound.apart⟩, ?_⟩
  intro va hSpace
  unfold look
  by_cases hPage : va / 4096 = virt / 4096
  · obtain ⟨hPlace, hIndex⟩ :=
      div_reach_congr wide hPage
    rw [if_pos hPage, hTree.translate_root hTable hPlace,
      translate_page (by rw [hIndex, hNew]; exact hPresent),
      hIndex, hNew]
  · rw [if_neg hPage]
    refine hSound.tree.translate_congr hTable hSame ?_
      hSound.tree.first (div_reach_top hSpace)
    intro hPlace hIndex
    exact absurd (page_of_place hPlace hIndex) hPage

end Entries

--
-- Finding an Entry
--

section Finding

variable {img : Image} {s : PagingState}
variable {owner : Nat → Option (Nat × Nat)} {virt : Nat}

theorem shift_directory
    (hVirt : virt < 2 ^ 32) :
    virt >>> 22 = index false 1 virt := by
  rw [Nat.shiftRight_eq_div_pow]
  exact (Nat.mod_eq_of_lt
    (Nat.div_lt_of_lt_mul (by omega))).symm

theorem shift_table (virt : Nat) :
    (virt >>> 12) &&& 0x3FF = index false 0 virt := by
  rw [Nat.shiftRight_eq_div_pow]
  exact Nat.and_two_pow_sub_one_eq_mod _ 10

/- The directory leads to the table of an address. -/
theorem directory_spec
    (hSound : Sound false img s owner)
    (hVirt : virt < 2 ^ 32)
    (hPresent :
      has (entry false (s.mem img.pageDirectory)
        (virt >>> 22)) present = true) :
    owner (entry false (s.mem img.pageDirectory)
        (virt >>> 22) &&& frameMask false) =
      some (0, virt / reach false 1) := by
  have hFirst : owner img.pageDirectory = some (1, 0) :=
    hSound.tree.first
  have hTop : virt / reach false 2 = 0 :=
    Nat.div_eq_of_lt (Nat.lt_of_lt_of_le hVirt (by decide))
  rw [shift_directory hVirt] at hPresent ⊢
  rcases hSound.tree.down hFirst (index_lt false 1 virt)
    hPresent with hLarge | ⟨child, hChild, hLink⟩
  · cases hLarge.wide
  · rw [and_frameMask hLink.lt, hLink.frameOf, hChild,
      div_reach_child hTop]

end Finding

--
-- New Entries
--

/- The page of an entry with the bits of `flags`. -/
theorem pageAt_mapping
    {p flags va : Nat}
    (hDvd : 4096 ∣ p)
    (hBelow : p < 2 ^ 32)
    (hFlags : flags < 2 ^ 12) :
    pageAt (mapping p flags) 4096 va =
      { phys := p + va % 4096
        writable := flags.testBit 1
        uncached := flags.testBit 3 && flags.testBit 4 } := by
  have hHigh : ∀ k, 12 ≤ k → k < 52 →
      flags.testBit k = false := fun k hLow _ =>
    Nat.testBit_lt_two_pow (Nat.lt_of_lt_of_le hFlags
      (Nat.pow_le_pow_right (by decide) hLow))
  have hWritable : has (mapping p flags) writable =
      flags.testBit 1 :=
    (has_two_pow _ 1).trans
      (testBit_mapping_low hDvd (by decide))
  have hThrough : has (mapping p flags) writeThrough =
      flags.testBit 3 :=
    (has_two_pow _ 3).trans
      (testBit_mapping_low hDvd (by decide))
  have hDisable : has (mapping p flags) cacheDisable =
      flags.testBit 4 :=
    (has_two_pow _ 4).trans
      (testBit_mapping_low hDvd (by decide))
  unfold pageAt
  rw [hWritable, hThrough, hDisable, frameOf_mapping hDvd
    (Nat.lt_trans hBelow (by decide)) hHigh,
    Nat.div_mul_cancel hDvd]

variable {phys : Nat}

/- The entry that `paging_map` stores. -/
theorem mapValue_spec
    (rw : Bool)
    (hPhys : phys < 2 ^ 32) :
    (phys &&& frameMask false) ||| present ||| rights rw =
        mapping (phys / 4096 * 4096) (present ||| rights rw) ∧
      mapping (phys / 4096 * 4096) (present ||| rights rw) <
        2 ^ 32 ∧
      has (mapping (phys / 4096 * 4096)
        (present ||| rights rw)) present = true ∧
      ∀ va, pageAt (mapping (phys / 4096 * 4096)
          (present ||| rights rw)) 4096 va =
        { phys := phys / 4096 * 4096 + va % 4096
          writable := rw
          uncached := false } := by
  have hDvd : 4096 ∣ phys / 4096 * 4096 := Nat.dvd_mul_left ..
  have hBelow : phys / 4096 * 4096 < 2 ^ 32 := by omega
  have hFlags : present ||| rights rw < 2 ^ 12 := by
    cases rw <;> decide
  refine ⟨?_, ?_, ?_, ?_⟩
  · rw [Nat.or_assoc, and_frameMask hPhys,
      frameOf_eq (Nat.lt_trans hPhys (by decide))]
    rfl
  · exact Nat.or_lt_two_pow hBelow
      (Nat.lt_trans hFlags (by decide))
  · rw [has_present, testBit_mapping_low hDvd (by decide)]
    cases rw <;> decide
  · intro va
    rw [pageAt_mapping hDvd hBelow hFlags]
    cases rw <;> rfl

variable {e : Nat}

/- Setting PCD and PWT in an entry. -/
theorem uncached_spec
    (hBound : e < 2 ^ 32) :
    e ||| 0x18 < 2 ^ 32 ∧
      has (e ||| 0x18) present = has e present ∧
      ∀ va, pageAt (e ||| 0x18) 4096 va =
        { pageAt e 4096 va with uncached := true } := by
  have hBit : ∀ k, has (e ||| 0x18) (2 ^ k) =
      (e.testBit k || (0x18 : Nat).testBit k) := by
    intro k
    rw [has_two_pow, Nat.testBit_or]
  have hFrame : frameOf (e ||| 0x18) = frameOf e := by
    unfold frameOf
    rw [Nat.and_or_distrib_right]
    exact Nat.or_zero _
  refine ⟨Nat.or_lt_two_pow hBound (by decide), ?_, ?_⟩
  · rw [has_present e]
    exact (hBit 0).trans (Bool.or_false _)
  · intro va
    have hWritable : has (e ||| 0x18) writable =
        has e writable :=
      (hBit 1).trans
        ((Bool.or_false _).trans (has_writable e).symm)
    have hThrough : has (e ||| 0x18) writeThrough = true :=
      (hBit 3).trans (Bool.or_true _)
    have hDisable : has (e ||| 0x18) cacheDisable = true :=
      (hBit 4).trans (Bool.or_true _)
    unfold pageAt
    rw [hFrame, hWritable, hThrough, hDisable]
    rfl

--
-- Calls for a Page
--

section Calls

variable {wide : Bool} {img : Image} {s : PagingState}
variable {owner : Nat → Option (Nat × Nat)} {virt : Nat}

/- What a page maps to when `paging_map` has stored it. -/
def mapped
    (phys : Nat)
    (rw : Bool)
    (va : Nat) : Page where
  phys := phys / 4096 * 4096 + va % 4096
  writable := rw
  uncached := false

/- The entry found is stored over. -/
theorem mapEntry_spec
    (rw : Bool)
    {table : Nat}
    (hPhys : phys < 2 ^ 32)
    (hSound : Sound wide img s owner)
    (hTable : owner table = some (0, virt / reach wide 1)) :
    Sound wide img
        { s with
          mem := store wide s.mem table (index wide 0 virt)
            ((phys &&& frameMask false) ||| present |||
              rights rw) } owner ∧
      ∀ va, va < spaceBytes wide →
        look wide img
            { s with
              mem := store wide s.mem table
                (index wide 0 virt)
                ((phys &&& frameMask false) ||| present |||
                  rights rw) } va =
          if va / 4096 = virt / 4096 then
            some (mapped phys rw va)
          else look wide img s va := by
  obtain ⟨hValue, hBound, hPresent, hPage⟩ :=
    mapValue_spec rw hPhys
  rw [hValue]
  obtain ⟨hAfter, hLook⟩ :=
    setPage_spec hSound hTable hBound hPresent
  refine ⟨hAfter, ?_⟩
  intro va hSpace
  rw [hLook va hSpace, hPage]
  rfl

/- The page is mapped as asked, or nothing has changed. -/
theorem pagingMap_spec
    (rw : Bool)
    (hSound : Sound wide img s owner)
    (hVirt : virt < 2 ^ 32)
    (hPhys : phys < 2 ^ 32) :
    ∃ owner',
      Sound wide img (pagingMap wide img virt phys rw s).2
          owner' ∧
        (((pagingMap wide img virt phys rw s).1 = 0 ∧
          ∀ va, va < spaceBytes wide →
            look wide img
                (pagingMap wide img virt phys rw s).2 va =
              if va / 4096 = virt / 4096 then
                some (mapped phys rw va)
              else look wide img s va) ∨
        ((pagingMap wide img virt phys rw s).1 = -1 ∧
          ∀ va, va < spaceBytes wide →
            look wide img
                (pagingMap wide img virt phys rw s).2 va =
              look wide img s va)) := by
  cases wide with
  | true =>
      unfold pagingMap pagingMap64
      simp only [if_true]
      obtain ⟨owner', hGrows, hFound⟩ :=
        walk_spec true hSound hVirt
      generalize walk img virt true s = r at hGrows hFound ⊢
      cases hResult : r.1 with
      | none =>
          exact ⟨owner', hGrows.sound,
            Or.inr ⟨rfl, hGrows.same⟩⟩
      | some found =>
          obtain ⟨table, i⟩ := found
          obtain ⟨hTable, rfl⟩ := hFound table i hResult
          obtain ⟨hAfter, hLook⟩ :=
            mapEntry_spec rw hPhys hGrows.sound hTable
          refine ⟨owner', hAfter, Or.inl ⟨rfl, ?_⟩⟩
          intro va hSpace
          rw [hLook va hSpace, hGrows.same va hSpace]
  | false =>
      unfold pagingMap pagingMap32
      simp only [Bool.false_eq_true, if_false]
      have hFirst : owner img.pageDirectory = some (1, 0) :=
        hSound.tree.first
      have hIdx := index_lt false 1 virt
      rw [← shift_directory hVirt] at hIdx
      obtain ⟨owner', hGrows, hPresent⟩ :=
        growEntry_spec true hSound hFirst hIdx
      generalize growEntry false true img.pageDirectory
        (virt >>> 22) s = grown at hGrows hPresent ⊢
      cases hOk : grown.1 with
      | false =>
          exact ⟨owner', hGrows.sound,
            Or.inr ⟨rfl, hGrows.same⟩⟩
      | true =>
          have hTable := directory_spec hGrows.sound hVirt
            (hPresent hOk)
          obtain ⟨hAfter, hLook⟩ :=
            mapEntry_spec rw hPhys hGrows.sound hTable
          rw [shift_table]
          refine ⟨owner', hAfter, Or.inl ⟨rfl, ?_⟩⟩
          intro va hSpace
          refine (hLook va hSpace).trans ?_
          rw [hGrows.same va hSpace]

/- An address is found where the processor finds it. -/
theorem phys_eq
    (wide : Bool)
    (hBound : e < 2 ^ 32) :
    ((e &&& frameMask wide) ||| (virt &&& 0xFFF)) =
        (pageAt e 4096 virt).phys ∧
      (pageAt e 4096 virt).phys < 2 ^ 32 := by
  have hLow : virt &&& 0xFFF = virt % 4096 :=
    Nat.and_two_pow_sub_one_eq_mod _ 12
  have hHigh : e / 4096 * 4096 = 2 ^ 12 * (e / 4096) :=
    Nat.mul_comm _ _
  rw [and_frameMask hBound, hLow]
  unfold pageAt
  rw [frameOf_eq (Nat.lt_trans hBound (by decide)),
    Nat.mul_div_cancel _ (by decide)]
  constructor
  · rw [hHigh, ← Nat.two_pow_add_eq_or_of_lt
      (Nat.mod_lt _ (by decide))]
  · dsimp only
    omega

/- Looking a page up changes no translation. -/
theorem pagingPhys_spec
    (hSound : Sound wide img s owner)
    (hVirt : virt < 2 ^ 32) :
    ∃ owner',
      Grows wide img s owner (pagingPhys wide img virt s).2
          owner' ∧
        ((pagingPhys wide img virt s).1 ≠ 0 →
          (look wide img s virt).map Page.phys =
            some (pagingPhys wide img virt s).1) := by
  have hSpace : virt < spaceBytes wide := by
    cases wide with
    | true => exact Nat.lt_trans hVirt (by decide)
    | false => exact hVirt
  cases wide with
  | true =>
      unfold pagingPhys pagingPhys64
      simp only [if_true]
      obtain ⟨owner', hGrows, hFound⟩ :=
        walk_spec false hSound hVirt
      generalize walk img virt false s = r at hGrows hFound ⊢
      cases hResult : r.1 with
      | none => exact ⟨owner', hGrows, fun hZero => absurd rfl hZero⟩
      | some found =>
          obtain ⟨table, i⟩ := found
          obtain ⟨hTable, rfl⟩ := hFound table i hResult
          have hBound := hGrows.sound.tree.narrow hTable _
            (index_lt true 0 virt)
          have hSame := hGrows.same virt hSpace
          rw [look_table hGrows.sound hTable] at hSame
          cases hPresent : has (entry true (r.2.mem table)
              (index true 0 virt)) present with
          | false =>
              refine ⟨owner', ?_, ?_⟩
              · simp only [hPresent, Bool.not_false, if_true]
                exact hGrows
              · simp [hPresent]
          | true =>
              simp only [hPresent, Bool.not_true,
                Bool.false_eq_true, if_false]
              refine ⟨owner', hGrows, fun _ => ?_⟩
              rw [← hSame, translate_page hPresent,
                (phys_eq true hBound).1,
                Nat.mod_eq_of_lt (phys_eq true hBound).2]
              rfl
  | false =>
      unfold pagingPhys pagingPhys32
      simp only [Bool.false_eq_true, if_false]
      refine ⟨owner, ?_⟩
      cases hDir : has (entry false (s.mem img.pageDirectory)
          (virt >>> 22)) present with
      | false =>
          simp only [Bool.not_false, if_true]
          exact ⟨.refl hSound, fun hZero => absurd rfl hZero⟩
      | true =>
          simp only [Bool.not_true, Bool.false_eq_true,
            if_false]
          have hTable := directory_spec hSound hVirt hDir
          have hBound := hSound.tree.narrow hTable _
            (index_lt false 0 virt)
          have hLook := look_table hSound hTable
          rw [shift_table]
          cases hPresent : has (entry false
              (s.mem (entry false (s.mem img.pageDirectory)
                (virt >>> 22) &&& frameMask false))
              (index false 0 virt)) present with
          | false =>
              simp only [Bool.not_false, if_true]
              exact ⟨.refl hSound, fun hZero => absurd rfl hZero⟩
          | true =>
              simp only [Bool.not_true, Bool.false_eq_true,
                if_false]
              refine ⟨.refl hSound, fun _ => ?_⟩
              rw [hLook, translate_page hPresent,
                (phys_eq false hBound).1]
              rfl

variable {page : Page}

/- The entry of a present page is kept out of the caches. -/
theorem uncacheEntry_spec
    {table : Nat}
    (hSound : Sound wide img s owner)
    (hTable : owner table = some (0, virt / reach wide 1))
    (hLook : look wide img s virt = some page) :
    Sound wide img
        { s with
          mem := store wide s.mem table (index wide 0 virt)
            (entry wide (s.mem table) (index wide 0 virt) |||
              0x18) } owner ∧
      ∀ va, va < spaceBytes wide →
        look wide img
            { s with
              mem := store wide s.mem table
                (index wide 0 virt)
                (entry wide (s.mem table)
                  (index wide 0 virt) ||| 0x18) } va =
          if va / 4096 = virt / 4096 then
            (look wide img s va).map
              (fun page => { page with uncached := true })
          else look wide img s va := by
  have hBound := hSound.tree.narrow hTable _
    (index_lt wide 0 virt)
  obtain ⟨hNew, hSame, hPage⟩ := uncached_spec hBound
  have hPresent : has (entry wide (s.mem table)
      (index wide 0 virt)) present = true := by
    cases hAbsent : has (entry wide (s.mem table)
        (index wide 0 virt)) present with
    | true => rfl
    | false =>
        rw [look_table hSound hTable, translate_absent hAbsent]
          at hLook
        cases hLook
  obtain ⟨hAfter, hStored⟩ := setPage_spec hSound hTable hNew
    (hSame.trans hPresent)
  refine ⟨hAfter, ?_⟩
  intro va hSpace
  rw [hStored va hSpace]
  by_cases hAt : va / 4096 = virt / 4096
  · obtain ⟨hPlace, hIndex⟩ :=
      div_reach_congr wide hAt
    rw [if_pos hAt, if_pos hAt, hPage,
      look_table hSound (hPlace.symm ▸ hTable),
      translate_page (by rw [hIndex]; exact hPresent), hIndex]
    rfl
  · rw [if_neg hAt, if_neg hAt]

theorem uncachePage_spec
    (hSound : Sound wide img s owner)
    (hVirt : virt < 2 ^ 32)
    (hLook : look wide img s virt = some page) :
    ∃ owner',
      Sound wide img (uncachePage wide img virt s).2 owner' ∧
        (((uncachePage wide img virt s).1 = 0 ∧
          ∀ va, va < spaceBytes wide →
            look wide img (uncachePage wide img virt s).2 va =
              if va / 4096 = virt / 4096 then
                (look wide img s va).map
                  (fun page => { page with uncached := true })
              else look wide img s va) ∨
        ((uncachePage wide img virt s).1 = -1 ∧
          ∀ va, va < spaceBytes wide →
            look wide img (uncachePage wide img virt s).2 va =
              look wide img s va)) := by
  have hSpace : virt < spaceBytes wide := by
    cases wide with
    | true => exact Nat.lt_trans hVirt (by decide)
    | false => exact hVirt
  cases wide with
  | true =>
      unfold uncachePage uncachePage64
      simp only [if_true]
      obtain ⟨owner', hGrows, hFound⟩ :=
        walk_spec false hSound hVirt
      generalize walk img virt false s = r at hGrows hFound ⊢
      cases hResult : r.1 with
      | none =>
          exact ⟨owner', hGrows.sound,
            Or.inr ⟨rfl, hGrows.same⟩⟩
      | some found =>
          obtain ⟨table, i⟩ := found
          obtain ⟨hTable, rfl⟩ := hFound table i hResult
          obtain ⟨hAfter, hStored⟩ := uncacheEntry_spec
            hGrows.sound hTable
            ((hGrows.same virt hSpace).trans hLook)
          refine ⟨owner', hAfter, Or.inl ⟨rfl, ?_⟩⟩
          intro va hVa
          rw [hStored va hVa, hGrows.same va hVa]
  | false =>
      unfold uncachePage uncachePage32
      simp only [Bool.false_eq_true, if_false]
      have hFirst : owner img.pageDirectory = some (1, 0) :=
        hSound.tree.first
      have hDir : has (entry false (s.mem img.pageDirectory)
          (virt >>> 22)) present = true := by
        cases hAbsent : has (entry false
            (s.mem img.pageDirectory) (virt >>> 22))
            present with
        | true => rfl
        | false =>
            rw [shift_directory hVirt] at hAbsent
            have hNone : look false img s virt = none :=
              translate_absent hAbsent
            rw [hNone] at hLook
            cases hLook
      have hTable := directory_spec hSound hVirt hDir
      obtain ⟨hAfter, hStored⟩ :=
        uncacheEntry_spec hSound hTable hLook
      have hIndex : (virt >>> 12) &&& 1023 =
          index false 0 virt := shift_table virt
      rw [hIndex]
      exact ⟨owner, hAfter, Or.inl ⟨trivial, hStored⟩⟩

end Calls

end KvantOS.PageTables
