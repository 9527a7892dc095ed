import KvantOS.PageTables.Model

/-
  This file proves what the walk does: whatever it allocates
  and splits, no address translates otherwise, and where it
  finds an entry, that is the one the processor ends at.

  Key definitions include:
    * `look`, `Sound`, `Grows`

  Key theorems include:
    * `growEntry_spec`, `splitEntry_spec`, `walk_spec`
-/

namespace KvantOS.PageTables

open Paging

--
-- Sound States
--

/- What the processor makes of an address. -/
def look
    (wide : Bool)
    (img : Image)
    (s : PagingState)
    (va : Nat) : Option Page :=
  translate wide s.mem (topLevel wide) (img.root wide) va

/-
  The tables are a tree, and the frames that the allocator
  will return are no tables and differ from each other.
-/
structure Sound
    (wide : Bool)
    (img : Image)
    (s : PagingState)
    (owner : Nat → Option (Nat × Nat)) : Prop where
  tree : Tree wide s.mem (img.root wide) owner
  fresh : ∀ f ∈ s.supply, f ≠ 0 →
    4096 ∣ f ∧ f < 2 ^ 27 ∧ owner f = none
  apart : s.supply.Pairwise (fun f g => f ≠ 0 → f ≠ g)

/- Tables were added, and nothing translates otherwise. -/
structure Grows
    (wide : Bool)
    (img : Image)
    (s : PagingState)
    (owner : Nat → Option (Nat × Nat))
    (s' : PagingState)
    (owner' : Nat → Option (Nat × Nat)) : Prop where
  sound : Sound wide img s' owner'
  kept : ∀ {t place},
    owner t = some place → owner' t = some place
  same : ∀ va, va < spaceBytes wide →
    look wide img s' va = look wide img s va

section Grows

variable {wide : Bool} {img : Image} {s s₁ s₂ : PagingState}
variable {owner owner₁ owner₂ : Nat → Option (Nat × Nat)}

theorem Grows.refl
    (hSound : Sound wide img s owner) :
    Grows wide img s owner s owner :=
  ⟨hSound, fun hOwner => hOwner, fun _ _ => rfl⟩

theorem Grows.trans
    (hFirst : Grows wide img s owner s₁ owner₁)
    (hSecond : Grows wide img s₁ owner₁ s₂ owner₂) :
    Grows wide img s owner s₂ owner₂ :=
  ⟨hSecond.sound,
    fun hOwner => hSecond.kept (hFirst.kept hOwner),
    fun va hSpace =>
      (hSecond.same va hSpace).trans (hFirst.same va hSpace)⟩

/- The allocator returns 0 or a frame that is no table. -/
theorem pmmAllocFrame_spec
    (hSound : Sound wide img s owner) :
    (pmmAllocFrame s).2.mem = s.mem ∧
      Grows wide img s owner (pmmAllocFrame s).2 owner ∧
      ((pmmAllocFrame s).1 ≠ 0 →
        4096 ∣ (pmmAllocFrame s).1 ∧
        (pmmAllocFrame s).1 < 2 ^ 27 ∧
        owner (pmmAllocFrame s).1 = none ∧
        ∀ f ∈ (pmmAllocFrame s).2.supply,
          f ≠ (pmmAllocFrame s).1) := by
  unfold pmmAllocFrame
  cases hSupply : s.supply with
  | nil => exact ⟨rfl, .refl hSound, fun hZero => absurd rfl hZero⟩
  | cons frame rest =>
      have hFresh := hSound.fresh
      have hApart := hSound.apart
      rw [hSupply] at hFresh hApart
      rw [List.pairwise_cons] at hApart
      refine ⟨rfl, ⟨⟨hSound.tree, ?_, hApart.2⟩,
        fun hOwner => hOwner, fun _ _ => rfl⟩, ?_⟩
      · intro f hMem hZero
        exact hFresh f (List.mem_cons_of_mem frame hMem) hZero
      · intro hZero
        obtain ⟨hDvd, hBelow, hNone⟩ :=
          hFresh frame List.mem_cons_self hZero
        exact ⟨hDvd, hBelow, hNone,
          fun f hMem hEq => hApart.1 f hMem hZero hEq.symm⟩

end Grows

--
-- Hanging a Table
--

/- `frame | PAGE_PRESENT | PAGE_RW` -/
theorem or_flags (p : Nat) :
    p ||| present ||| writable = mapping p kernelFlags :=
  Nat.or_assoc p present writable

theorem linksTo_new
    {frame : Nat}
    (hDvd : 4096 ∣ frame)
    (hBelow : frame < 2 ^ 27) :
    LinksTo (frame ||| present ||| writable) frame :=
  ⟨or_flags frame, hDvd,
    Nat.lt_trans hBelow (by decide)⟩

theorem lt_entry
    (wide : Bool)
    {value : Nat}
    (hBound : value < 2 ^ 32) :
    value < 2 ^ (8 * entryBytes wide) := by
  cases wide with
  | true => exact Nat.lt_trans hBound (by decide)
  | false => exact hBound

section Hanging

variable {wide : Bool} {img : Image} {s : PagingState}
variable {owner : Nat → Option (Nat × Nat)}
variable {l lvl idx part frame : Nat}

/-
  A filled frame is linked from an entry that led to no
  table.  If its entries translate as the entry did, nothing
  else changes.
-/
theorem grows_attach
    (hSound : Sound wide img s owner)
    (hLvl : owner lvl = some (l + 1, part))
    (hIdx : idx < tableEntries wide)
    (hOld : ∀ child,
      ¬LinksTo (entry wide (s.mem lvl) idx) child)
    (hDvd : 4096 ∣ frame)
    (hBelow : frame < 2 ^ 27)
    (hNone : owner frame = none)
    (hApart : ∀ f ∈ s.supply, f ≠ frame)
    (mem : Nat → Buf)
    (hFill : ∀ t, t ≠ frame → mem t = s.mem t)
    (hNarrow : ∀ i, i < tableEntries wide →
      entry wide (mem frame) i < 2 ^ 32)
    (hEmpty : l ≠ 0 → ∀ i, i < tableEntries wide →
      has (entry wide (mem frame) i) present = false)
    (hHere : ∀ va, index wide (l + 1) va = idx →
      ∀ mem' : Nat → Buf, mem' frame = mem frame →
      translate wide mem' l frame va =
        translate wide s.mem (l + 1) lvl va) :
    Grows wide img s owner
      { s with
        mem := store wide mem lvl idx
          (frame ||| present ||| writable) }
      (Function.update owner frame
        (some (l, part * tableEntries wide + idx))) := by
  have hLink := linksTo_new hDvd hBelow
  have hNe : ∀ {t place}, owner t = some place →
      t ≠ frame := by
    rintro t place hOwner rfl
    rw [hNone] at hOwner
    cases hOwner
  have hEntry : ∀ t j, entry wide (store wide mem lvl idx
      (frame ||| present ||| writable) t) j =
        if t = lvl ∧ j = idx then
          frame ||| present ||| writable
        else entry wide (mem t) j :=
    entry_store (lt_entry wide hLink.lt)
  have hSame : OnlyAt wide owner s.mem
      (store wide mem lvl idx
        (frame ||| present ||| writable)) lvl idx := by
    intro t hOwner i hi hNot
    obtain ⟨place, hPlace⟩ :=
      Option.ne_none_iff_exists'.mp hOwner
    rw [hEntry, if_neg (fun hAt => hNot hAt.1 hAt.2),
      hFill t (hNe hPlace)]
  have hNew : entry wide (store wide mem lvl idx
      (frame ||| present ||| writable) lvl) idx =
        (frame ||| present ||| writable) := by
    rw [hEntry, if_pos ⟨rfl, rfl⟩]
  have hFrame : store wide mem lvl idx
      (frame ||| present ||| writable) frame =
        mem frame :=
    Function.update_of_ne (hNe hLvl).symm _ _
  have hAttach := hSound.tree.attach hLvl hIdx hOld hNone
    hSame (hNew.symm ▸ hLink) (by rw [hFrame]; exact hNarrow)
    (by rw [hFrame]; exact hEmpty)
  refine ⟨⟨hAttach, ?_, hSound.apart⟩, ?_, ?_⟩
  · intro f hMem hZero
    obtain ⟨hAligned, hLow, hFree⟩ :=
      hSound.fresh f hMem hZero
    refine ⟨hAligned, hLow, ?_⟩
    rw [Function.update_of_ne (hApart f hMem), hFree]
  · intro t place hOwner
    rw [Function.update_of_ne (hNe hOwner), hOwner]
  · intro va hSpace
    unfold look
    refine hSound.tree.translate_congr hLvl hSame ?_
      hSound.tree.first (div_reach_top hSpace)
    intro _ hAt
    rw [translate_link (by rw [hAt, hNew]; exact hLink)]
    exact hHere va hAt _ hFrame

/- An entry that leads nowhere gets a table of zeros. -/
theorem growEntry_spec
    (alloc : Bool)
    (hSound : Sound wide img s owner)
    (hLvl : owner lvl = some (l + 1, part))
    (hIdx : idx < tableEntries wide) :
    ∃ owner',
      Grows wide img s owner
          (growEntry wide alloc lvl idx s).2 owner' ∧
        ((growEntry wide alloc lvl idx s).1 = true →
          has (entry wide
            ((growEntry wide alloc lvl idx s).2.mem lvl) idx)
            present = true) := by
  unfold growEntry
  by_cases hPresent :
      has (entry wide (s.mem lvl) idx) present = true
  · rw [if_pos hPresent]
    exact ⟨owner, .refl hSound, fun _ => hPresent⟩
  · rw [if_neg hPresent]
    rw [Bool.not_eq_true] at hPresent
    by_cases hAlloc : (!alloc) = true
    · rw [if_pos hAlloc]
      exact ⟨owner, .refl hSound, fun hFalse => by cases hFalse⟩
    · rw [if_neg hAlloc]
      obtain ⟨hMem, hAfter, hFrame⟩ := pmmAllocFrame_spec hSound
      dsimp only
      rw [← hMem] at hPresent
      generalize pmmAllocFrame s = r at hPresent hAfter hFrame ⊢
      by_cases hZero : r.1 = 0
      · rw [if_pos hZero]
        exact ⟨owner, hAfter, fun hFalse => by cases hFalse⟩
      · rw [if_neg hZero]
        obtain ⟨hDvd, hBelow, hNone, hApart⟩ := hFrame hZero
        have hLink := linksTo_new hDvd hBelow
        have hZeros : ∀ i, entry wide
            (Function.update r.2.mem r.1 Buf.zero r.1) i = 0 := by
          intro i
          rw [Function.update_self, entry_zero]
        have hGrows := grows_attach hAfter.sound hLvl hIdx
          (by
            intro child hOld
            rw [hOld.present] at hPresent
            cases hPresent)
          hDvd hBelow hNone hApart
          (Function.update r.2.mem r.1 Buf.zero)
          (fun t hNe => Function.update_of_ne hNe _ _)
          (fun i _ => by rw [hZeros]; decide)
          (fun _ i _ => by rw [hZeros]; decide)
          (by
            intro va hAt mem' hSame
            rw [translate_absent (by
                rw [hSame, hZeros]
                decide),
              translate_absent (by rw [hAt, hPresent])])
        refine ⟨_, hAfter.trans hGrows, fun _ => ?_⟩
        dsimp only
        rw [entry_store (lt_entry wide hLink.lt),
          if_pos ⟨rfl, rfl⟩]
        exact hLink.present

end Hanging

--
-- Splitting
--

/- The frame filled with the pages of a page of 2 MiB. -/
def splitPages
    (mem : Nat → Buf)
    (frame e : Nat) : Nat → Buf :=
  storeAll true mem frame (List.range 512)
    (fun i => (e &&& (2 ^ 64 - 2 ^ 21)) + (i <<< 12) |||
      present ||| writable)

theorem splitValue_spec
    {e i : Nat}
    (hBound : e < 2 ^ 32)
    (hi : i < 512) :
    LinksTo ((e &&& (2 ^ 64 - 2 ^ 21)) + (i <<< 12) |||
        present ||| writable)
      (e / 2 ^ 21 * 2 ^ 21 + i * 4096) := by
  have hBase : e &&& (2 ^ 64 - 2 ^ 21) =
      e / 2 ^ 21 * 2 ^ 21 :=
    Word.and_high (Nat.lt_trans hBound (by decide)) (by decide)
  have hShift : i <<< 12 = i * 4096 := Nat.shiftLeft_eq i 12
  rw [or_flags, hBase, hShift]
  exact ⟨rfl, by omega, by omega⟩

theorem splitPages_spec
    {mem : Nat → Buf}
    {frame e : Nat}
    (hBound : e < 2 ^ 32)
    (i : Nat)
    (hi : i < 512) :
    LinksTo (entry true (splitPages mem frame e frame) i)
      (e / 2 ^ 21 * 2 ^ 21 + i * 4096) := by
  unfold splitPages
  rw [entry_storeAll, if_pos ⟨rfl, List.mem_range.mpr hi⟩]
  · exact splitValue_spec hBound hi
  · intro k hk
    exact lt_entry true
      (splitValue_spec hBound (List.mem_range.mp hk)).lt

/- They map what the large page mapped. -/
theorem pageAt_split
    {e va : Nat}
    (hBound : e < 2 ^ 32)
    (hWritable : has e writable = true)
    (hCached :
      (has e writeThrough && has e cacheDisable) = false) :
    pageAt
        (mapping
          (e / 2 ^ 21 * 2 ^ 21 + index true 0 va * 4096)
          kernelFlags) 4096 va =
      pageAt e (reach true 1) va := by
  have hi := index_lt true 0 va
  have hDvd : 4096 ∣
      e / 2 ^ 21 * 2 ^ 21 + index true 0 va * 4096 := by
    omega
  have hLink : LinksTo
      (mapping
        (e / 2 ^ 21 * 2 ^ 21 + index true 0 va * 4096)
        kernelFlags)
      (e / 2 ^ 21 * 2 ^ 21 + index true 0 va * 4096) :=
    ⟨rfl, hDvd, (splitValue_spec hBound hi).below⟩
  have hPlain : has
      (mapping
        (e / 2 ^ 21 * 2 ^ 21 + index true 0 va * 4096)
        kernelFlags) writeThrough = false := by
    refine (has_two_pow _ 3).trans ?_
    rw [testBit_mapping_low hDvd (by decide)]
    decide
  have hReach : reach true 1 = 2 ^ 21 := by decide
  have hIndex : index true 0 va = va / 4096 % 512 := rfl
  unfold pageAt
  rw [hLink.frameOf, hLink.writable, hWritable, hPlain, hCached,
    frameOf_eq (Nat.lt_trans hBound (by decide)), hReach, hIndex]
  simp only [Bool.false_and, Page.mk.injEq, and_true]
  omega

section Splitting

variable {img : Image} {s : PagingState}
variable {owner : Nat → Option (Nat × Nat)}
variable {l lvl idx part : Nat}

/- After a split the entry leads to a table. -/
theorem splitEntry_spec
    (hSound : Sound true img s owner)
    (hLvl : owner lvl = some (l + 1, part))
    (hIdx : idx < 512)
    (hPresent : has (entry true (s.mem lvl) idx) present =
      true) :
    ∃ owner',
      Grows true img s owner
          (splitEntry (l + 1) lvl idx s).2 owner' ∧
        ((splitEntry (l + 1) lvl idx s).1 = true →
          ∃ child,
            owner' child = some (l, part * 512 + idx) ∧
            LinksTo
              (entry true
                ((splitEntry (l + 1) lvl idx s).2.mem lvl) idx)
              child) := by
  have hBound := hSound.tree.narrow hLvl idx hIdx
  rcases hSound.tree.down hLvl hIdx hPresent with
    hLarge | ⟨child, hChild, hLink⟩
  · have hLevel := hLarge.level
    subst hLevel
    unfold splitEntry
    simp only [hLarge.large, Nat.zero_add, beq_self_eq_true,
      Bool.and_self, if_true]
    obtain ⟨hMem, hAfter, hFrame⟩ := pmmAllocFrame_spec hSound
    rw [← hMem] at hBound hLarge hPresent ⊢
    generalize pmmAllocFrame s = r
      at hBound hLarge hPresent hAfter hFrame ⊢
    by_cases hZero : r.1 = 0
    · rw [if_pos hZero]
      exact ⟨owner, hAfter, fun hFalse => by cases hFalse⟩
    · rw [if_neg hZero]
      obtain ⟨hDvd, hBelow, hNone, hApart⟩ := hFrame hZero
      have hLink := linksTo_new hDvd hBelow
      generalize hE : entry true (r.2.mem lvl) idx = e
        at hBound hLarge hPresent ⊢
      have hPages := @splitPages_spec r.2.mem r.1 e hBound
      have hGrows := grows_attach hAfter.sound hLvl hIdx
        (by
          intro child hOld
          rw [hE] at hOld
          have hNot := hOld.large
          rw [hLarge.large] at hNot
          cases hNot)
        hDvd hBelow hNone hApart
        (splitPages r.2.mem r.1 e)
        (fun t hNe => storeAll_of_ne hNe)
        (fun i hi => (hPages i hi).lt)
        (fun hZero => absurd rfl hZero)
        (by
          intro va hAt mem' hSame
          have hIndex := (hPages _ (index_lt true 0 va)).value
          have hOld : translate true r.2.mem 1 lvl va =
              some (pageAt
                (entry true (r.2.mem lvl) (index true 1 va))
                (reach true 1) va) :=
            translate_large (by decide)
              (by rw [hAt, hE, hPresent])
              (by rw [hAt, hE, hLarge.large])
          have hNew : translate true mem' 0 r.1 va =
              some (pageAt
                (entry true (mem' r.1) (index true 0 va))
                4096 va) :=
            translate_page (by
              rw [hSame]
              exact (hPages _ (index_lt true 0 va)).present)
          rw [hOld, hNew, hSame, hIndex, hAt, hE,
            pageAt_split hBound hLarge.writable hLarge.cached])
      refine ⟨_, hAfter.trans hGrows, fun _ =>
        ⟨r.1, Function.update_self .., ?_⟩⟩
      dsimp only
      rw [entry_store (lt_entry true hLink.lt),
        if_pos ⟨rfl, rfl⟩]
      exact hLink
  · have hSmall : (l + 1 == 1 && has (entry true (s.mem lvl) idx)
        large) = false := by
      rw [hLink.large, Bool.and_false]
    unfold splitEntry
    simp only [hSmall, Bool.false_eq_true, if_false]
    exact ⟨owner, .refl hSound, fun _ => ⟨child, hChild, hLink⟩⟩

--
-- The Walk
--

theorem shift_index
    (virt l : Nat) :
    (virt >>> (12 + 9 * l)) &&& 0x1FF = index true l virt := by
  rw [Nat.shiftRight_eq_div_pow]
  exact Nat.and_two_pow_sub_one_eq_mod _ 9

/- The address in an entry below 4 GiB. -/
theorem and_frameMask
    {wide : Bool}
    {e : Nat}
    (hBound : e < 2 ^ 32) :
    e &&& frameMask wide = frameOf e := by
  rw [frameOf_eq (Nat.lt_trans hBound (by decide))]
  cases wide with
  | true =>
      exact Word.and_high (w := 64) (k := 12)
        (Nat.lt_trans hBound (by decide)) (by decide)
  | false =>
      exact Word.and_high (w := 32) (k := 12) hBound
        (by decide)

/- One level down is the table of the address there. -/
theorem walkLevel_spec
    (alloc : Bool)
    {virt : Nat}
    (hSound : Sound true img s owner)
    (hLvl : owner lvl =
      some (l + 1, virt / reach true (l + 2))) :
    ∃ owner',
      Grows true img s owner
          (walkLevel virt alloc (l + 1) lvl s).2 owner' ∧
        ∀ next,
          (walkLevel virt alloc (l + 1) lvl s).1 = some next →
          owner' next = some (l, virt / reach true (l + 1)) := by
  have hIdx := index_lt true (l + 1) virt
  have hChild : virt / reach true (l + 1) =
      virt / reach true (l + 2) * tableEntries true +
        index true (l + 1) virt :=
    div_reach_child rfl
  unfold walkLevel
  rw [shift_index]
  obtain ⟨owner₁, hGrown, hPresent⟩ :=
    growEntry_spec alloc hSound hLvl hIdx
  dsimp only
  generalize growEntry true alloc lvl (index true (l + 1) virt)
    s = grown at hGrown hPresent ⊢
  cases hOk : grown.1 with
  | false => exact ⟨owner₁, hGrown, fun next hNone => by cases hNone⟩
  | true =>
      obtain ⟨owner₂, hSplit, hLink⟩ := splitEntry_spec
        hGrown.sound (hGrown.kept hLvl) hIdx (hPresent hOk)
      simp only [Bool.not_true, Bool.false_eq_true, if_false]
      generalize splitEntry (l + 1) lvl
        (index true (l + 1) virt) grown.2 = split
        at hSplit hLink ⊢
      cases hDone : split.1 with
      | false =>
          exact ⟨owner₂, hGrown.trans hSplit,
            fun next hNone => by cases hNone⟩
      | true =>
          obtain ⟨child, hOwner, hTo⟩ := hLink hDone
          refine ⟨owner₂, hGrown.trans hSplit, ?_⟩
          intro next hSome
          simp only [Bool.not_true, Bool.false_eq_true,
            if_false, Option.some.injEq] at hSome
          rw [← hSome, and_frameMask hTo.lt, hTo.frameOf,
            hOwner, hChild]
          rfl

end Splitting

/- The rest of a walk from a table of the address. -/
theorem walkFrom_spec
    (alloc : Bool)
    {img : Image}
    {s : PagingState}
    {owner : Nat → Option (Nat × Nat)}
    {virt l lvl : Nat}
    (hSound : Sound true img s owner)
    (hLvl : owner lvl = some (l, virt / reach true (l + 1))) :
    ∃ owner',
      Grows true img s owner
          (walkFrom virt alloc l lvl s).2 owner' ∧
        ∀ table i,
          (walkFrom virt alloc l lvl s).1 = some (table, i) →
          owner' table = some (0, virt / reach true 1) ∧
            i = index true 0 virt := by
  induction l generalizing lvl s owner with
  | zero =>
      refine ⟨owner, .refl hSound, ?_⟩
      intro table i hSome
      cases hSome
      exact ⟨hLvl, shift_index virt 0⟩
  | succ l ih =>
      obtain ⟨owner₁, hGrows, hNext⟩ :=
        walkLevel_spec alloc hSound hLvl
      unfold walkFrom
      dsimp only
      generalize walkLevel virt alloc (l + 1) lvl s = r
        at hGrows hNext ⊢
      cases hFound : r.1 with
      | none =>
          exact ⟨owner₁, hGrows, fun _ _ hNone => by cases hNone⟩
      | some next =>
          obtain ⟨owner₂, hRest, hEntry⟩ :=
            ih hGrows.sound (hNext next hFound)
          exact ⟨owner₂, hGrows.trans hRest, hEntry⟩

/- The entry of the page, in the table that maps it. -/
theorem walk_spec
    (alloc : Bool)
    {img : Image}
    {s : PagingState}
    {owner : Nat → Option (Nat × Nat)}
    {virt : Nat}
    (hSound : Sound true img s owner)
    (hVirt : virt < 2 ^ 32) :
    ∃ owner',
      Grows true img s owner (walk img virt alloc s).2 owner' ∧
        ∀ table i,
          (walk img virt alloc s).1 = some (table, i) →
          owner' table = some (0, virt / reach true 1) ∧
            i = index true 0 virt := by
  refine walkFrom_spec alloc hSound ?_
  have hTop : virt / reach true 4 = 0 :=
    Nat.div_eq_of_lt (Nat.lt_trans hVirt (by decide))
  rw [hTop]
  exact hSound.tree.first

end KvantOS.PageTables
