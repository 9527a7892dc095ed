import KvantOS.Data.Paging
import KvantOS.Data.Word

/-
  This file treats the tables that a processor walks as a
  tree: each table has a place in the address space, and the
  one above leads to it.  A table that nothing leads to may
  be filled and hung into the tree, and an entry for a page
  may be rewritten; what every other address translates to
  stays as it is.

  Key definitions include:
    * `Paging.Page`, `Paging.translate`
    * `Paging.store`, `Paging.storeAll`, `Paging.Tree`

  Key theorems include:
    * `Paging.translate_walk`, `Paging.Tree.translate_root`
    * `Paging.Tree.translate_congr`, `Paging.Tree.attach`
    * `Paging.Tree.setEntry`
-/

namespace KvantOS.Paging

--
-- Places
--

section Places

variable {wide : Bool} {level va q : Nat}

theorem tableEntries_pos (wide : Bool) :
    0 < tableEntries wide := by
  cases wide <;> decide

theorem reach_pos
    (wide : Bool)
    (level : Nat) :
    0 < reach wide level := by
  unfold reach
  cases wide <;> exact Nat.two_pow_pos _

theorem reach_zero (wide : Bool) :
    reach wide 0 = 4096 := by
  cases wide <;> decide

theorem reach_succ
    (wide : Bool)
    (level : Nat) :
    reach wide (level + 1) =
      reach wide level * tableEntries wide := by
  unfold reach tableEntries
  cases wide with
  | true =>
      have hPow : 12 + 9 * (level + 1) =
          12 + 9 * level + 9 := by omega
      simp only [if_true]
      rw [hPow, Nat.pow_add]
  | false =>
      have hPow : 12 + 10 * (level + 1) =
          12 + 10 * level + 10 := by omega
      simp only [Bool.false_eq_true, if_false]
      rw [hPow, Nat.pow_add]

theorem index_eq
    (wide : Bool)
    (level va : Nat) :
    index wide level va =
      va / reach wide level % tableEntries wide := by
  unfold index reach tableEntries
  cases wide <;> rfl

theorem index_lt
    (wide : Bool)
    (level va : Nat) :
    index wide level va < tableEntries wide := by
  rw [index_eq]
  exact Nat.mod_lt _ (tableEntries_pos wide)

/- The place below a table that an address belongs to. -/
theorem div_reach_child
    (hPlace : va / reach wide (level + 1) = q) :
    va / reach wide level =
      q * tableEntries wide + index wide level va := by
  rw [index_eq, ← hPlace, reach_succ, ← Nat.div_div_eq_div_mul,
    Nat.mul_comm]
  exact (Nat.div_add_mod _ _).symm

/- The place above that an address belongs to. -/
theorem div_reach_parent
    (hPlace : va / reach wide level = q) :
    va / reach wide (level + 1) = q / tableEntries wide ∧
      index wide level va = q % tableEntries wide := by
  rw [index_eq, reach_succ, ← Nat.div_div_eq_div_mul, hPlace]
  exact ⟨rfl, rfl⟩

/- An address of the space belongs to the first table. -/
theorem div_reach_top
    (hSpace : va < spaceBytes wide) :
    va / reach wide (topLevel wide + 1) = 0 := by
  apply Nat.div_eq_of_lt
  cases wide <;> exact hSpace

end Places

--
-- Translations
--

/- The bits that keep a page out of the caches. -/
def writeThrough : Nat := 8
def cacheDisable : Nat := 16

/- Where an address leads, and how it may be accessed. -/
structure Page where
  phys : Nat
  writable : Bool
  uncached : Bool
  deriving DecidableEq

/- What an entry on the way takes from the access. -/
def Page.under
    (e : Nat)
    (page : Page) : Page :=
  { page with writable := has e Paging.writable && page.writable }

/- The page at an entry that maps `size` bytes. -/
def pageAt
    (e size va : Nat) : Page where
  phys := frameOf e / size * size + va % size
  writable := has e writable
  uncached := has e writeThrough && has e cacheDisable

/- The walk of the processor, with the caching of the page. -/
def translate
    (wide : Bool)
    (mem : Nat → Buf) :
    (level table va : Nat) → Option Page
  | 0, table, va =>
      let e := entry wide (mem table) (index wide 0 va)
      if has e present then some (pageAt e 4096 va) else none
  | level + 1, table, va =>
      let e := entry wide (mem table)
        (index wide (level + 1) va)
      if !has e present then
        none
      else if has e large then
        if level = 2 then none
        else some (pageAt e (reach wide (level + 1)) va)
      else
        (translate wide mem level (frameOf e) va).map
          (Page.under e)

/- The flags of an entry that leads on for the kernel. -/
def kernelFlags : Nat :=
  present ||| writable

/- An entry leads to a table. -/
structure LinksTo (e table : Nat) : Prop where
  value : e = mapping table kernelFlags
  aligned : 4096 ∣ table
  below : table < 2 ^ 32

section Links

variable {wide : Bool} {mem : Nat → Buf}
variable {level table next e va : Nat}

theorem frameOf_eq
    (hBound : e < 2 ^ 52) :
    frameOf e = e / 4096 * 4096 := by
  have hMask : addressMask = 2 ^ 52 - 2 ^ 12 := by decide
  unfold frameOf
  rw [hMask]
  exact Word.and_high hBound (by decide)

/- It is the same walk. -/
theorem translate_walk
    (wide : Bool)
    (mem : Nat → Buf)
    (level table va : Nat) :
    (translate wide mem level table va).map
        (fun page => (page.phys, page.writable)) =
      (walk wide mem level table va).map
        (fun leaf => (leaf.phys, leaf.writable)) := by
  induction level generalizing table with
  | zero =>
      simp only [translate, walk]
      split
      · rfl
      · rfl
  | succ level ih =>
      simp only [translate, walk]
      split
      · rfl
      · split
        · split
          · rfl
          · rfl
        · have hNext := ih (frameOf (entry wide (mem table)
            (index wide (level + 1) va)))
          generalize translate wide mem level _ va = page
            at hNext ⊢
          generalize walk wide mem level _ va = leaf
            at hNext ⊢
          cases page with
          | none =>
              cases leaf with
              | none => rfl
              | some leaf => cases hNext
          | some page =>
              cases leaf with
              | none => cases hNext
              | some leaf =>
                  simp only [Option.map_some, Option.some.injEq,
                    Prod.mk.injEq] at hNext
                  simp only [Option.map_some, Page.under,
                    Leaf.under, hNext]

theorem testBit_kernelFlags_high
    {k : Nat}
    (hk : 2 ≤ k) :
    kernelFlags.testBit k = false := by
  apply Nat.testBit_lt_two_pow
  calc kernelFlags < 2 ^ 2 := by decide
    _ ≤ 2 ^ k := Nat.pow_le_pow_right (by decide) hk

theorem LinksTo.present
    (hLink : LinksTo e next) :
    has e present = true := by
  rw [hLink.value, has_present,
    testBit_mapping_low hLink.aligned (by decide)]
  decide

theorem LinksTo.writable
    (hLink : LinksTo e next) :
    has e writable = true := by
  rw [hLink.value, has_writable,
    testBit_mapping_low hLink.aligned (by decide)]
  decide

theorem LinksTo.large
    (hLink : LinksTo e next) :
    has e large = false := by
  rw [hLink.value, has_large,
    testBit_mapping_low hLink.aligned (by decide)]
  decide

theorem LinksTo.frameOf
    (hLink : LinksTo e next) :
    frameOf e = next := by
  rw [hLink.value]
  exact frameOf_mapping hLink.aligned
    (Nat.lt_trans hLink.below (by decide))
    (fun _ hLow _ => testBit_kernelFlags_high (by omega))

/- A translation goes through such an entry. -/
theorem translate_link
    (hLink : LinksTo
      (entry wide (mem table) (index wide (level + 1) va))
      next) :
    translate wide mem (level + 1) table va =
      translate wide mem level next va := by
  simp only [translate, hLink.present, hLink.large,
    hLink.frameOf, Bool.not_true, Bool.false_eq_true,
    if_false]
  cases translate wide mem level next va with
  | none => rfl
  | some page =>
      simp only [Option.map_some, Page.under, hLink.writable,
        Bool.true_and]

/- Nothing is mapped where the entry is not present. -/
theorem translate_absent
    (hAbsent :
      has (entry wide (mem table) (index wide level va))
        present = false) :
    translate wide mem level table va = none := by
  cases level with
  | zero => simp [translate, hAbsent]
  | succ level => simp [translate, hAbsent]

theorem translate_page
    (hPresent :
      has (entry wide (mem table) (index wide 0 va))
        present = true) :
    translate wide mem 0 table va =
      some (pageAt (entry wide (mem table)
        (index wide 0 va)) 4096 va) := by
  simp only [translate, hPresent, if_true]

theorem translate_large
    (hLevel : level ≠ 2)
    (hPresent :
      has (entry wide (mem table)
        (index wide (level + 1) va)) present = true)
    (hLarge :
      has (entry wide (mem table)
        (index wide (level + 1) va)) large = true) :
    translate wide mem (level + 1) table va =
      some (pageAt (entry wide (mem table)
        (index wide (level + 1) va))
        (reach wide (level + 1)) va) := by
  simp only [translate, hPresent, hLarge, if_true,
    Bool.not_true, Bool.false_eq_true, if_false, hLevel]

end Links

--
-- Stores
--

/- The memory with one entry of a table stored. -/
def store
    (wide : Bool)
    (mem : Nat → Buf)
    (table i value : Nat) : Nat → Buf :=
  Function.update mem table
    (putEntry wide (mem table) i value)

/- The memory with some entries of a table stored in turn. -/
def storeAll
    (wide : Bool)
    (mem : Nat → Buf)
    (table : Nat)
    (slots : List Nat)
    (value : Nat → Nat) : Nat → Buf :=
  slots.foldl (fun m i => store wide m table i (value i)) mem

section Stores

variable {wide : Bool} {mem : Nat → Buf} {table i value : Nat}

theorem entry_store
    (hBound : value < 2 ^ (8 * entryBytes wide))
    (t j : Nat) :
    entry wide (store wide mem table i value t) j =
      if t = table ∧ j = i then value
      else entry wide (mem t) j := by
  unfold store
  by_cases hTable : t = table
  · subst hTable
    rw [Function.update_self, entry_putEntry hBound]
    simp
  · rw [Function.update_of_ne hTable]
    simp [hTable]

theorem entry_storeAll
    {slots : List Nat}
    {value : Nat → Nat}
    (hBound : ∀ i ∈ slots,
      value i < 2 ^ (8 * entryBytes wide))
    (t j : Nat) :
    entry wide (storeAll wide mem table slots value t) j =
      if t = table ∧ j ∈ slots then value j
      else entry wide (mem t) j := by
  induction slots generalizing mem with
  | nil => simp [storeAll]
  | cons i rest ih =>
      have hRest := @ih (store wide mem table i (value i))
        (fun k hk => hBound k (List.mem_cons_of_mem i hk))
      unfold storeAll at hRest ⊢
      rw [List.foldl_cons, hRest,
        entry_store (hBound i List.mem_cons_self)]
      by_cases hIn : t = table ∧ j ∈ rest
      · rw [if_pos hIn, if_pos
          ⟨hIn.1, List.mem_cons_of_mem i hIn.2⟩]
      · rw [if_neg hIn]
        by_cases hEq : t = table ∧ j = i
        · rw [if_pos hEq, hEq.2, if_pos
            ⟨hEq.1, List.mem_cons_self⟩]
        · rw [if_neg hEq, if_neg]
          rintro ⟨hTable, hMem⟩
          rcases List.mem_cons.mp hMem with hHead | hTail
          · exact hEq ⟨hTable, hHead⟩
          · exact hIn ⟨hTable, hTail⟩

/- Other tables are as they were. -/
theorem storeAll_of_ne
    {slots : List Nat}
    {value : Nat → Nat}
    {t : Nat}
    (hNe : t ≠ table) :
    storeAll wide mem table slots value t = mem t := by
  induction slots generalizing mem with
  | nil => rfl
  | cons i rest ih =>
      have hRest := @ih (store wide mem table i (value i))
      unfold storeAll at hRest ⊢
      rw [List.foldl_cons, hRest]
      exact Function.update_of_ne hNe _ _

end Stores

--
-- Trees
--

/- A page of 2 MiB that the kernel may write. -/
structure IsLarge
    (wide : Bool)
    (level e : Nat) : Prop where
  wide : wide = true
  level : level = 0
  large : has e large = true
  writable : has e writable = true
  cached : (has e writeThrough && has e cacheDisable) = false

/-
  Each table has a level and the number of its part of the
  space.  The table above it leads to it, and what a table
  leads to is a large page or the table at that place.
-/
structure Tree
    (wide : Bool)
    (mem : Nat → Buf)
    (root : Nat)
    (owner : Nat → Option (Nat × Nat)) : Prop where
  first : owner root = some (topLevel wide, 0)
  top : ∀ {t q}, owner t = some (topLevel wide, q) → t = root
  level : ∀ {t l q}, owner t = some (l, q) → l ≤ topLevel wide
  narrow : ∀ {t place}, owner t = some place →
    ∀ i, i < tableEntries wide → entry wide (mem t) i < 2 ^ 32
  up : ∀ {t l q}, owner t = some (l, q) → l ≠ topLevel wide →
    ∃ parent,
      owner parent = some (l + 1, q / tableEntries wide) ∧
        LinksTo
          (entry wide (mem parent) (q % tableEntries wide)) t
  down : ∀ {t l q i}, owner t = some (l + 1, q) →
    i < tableEntries wide →
    has (entry wide (mem t) i) present = true →
    IsLarge wide l (entry wide (mem t) i) ∨
      ∃ child,
        owner child = some (l, q * tableEntries wide + i) ∧
          LinksTo (entry wide (mem t) i) child

/- The tables are as before but for one entry of one. -/
def OnlyAt
    (wide : Bool)
    (owner : Nat → Option (Nat × Nat))
    (mem mem' : Nat → Buf)
    (table slot : Nat) : Prop :=
  ∀ t, owner t ≠ none → ∀ i, i < tableEntries wide →
    (t = table → i ≠ slot) →
    entry wide (mem' t) i = entry wide (mem t) i

section Trees

variable {wide : Bool} {mem mem' : Nat → Buf} {root : Nat}
variable {owner : Nat → Option (Nat × Nat)} {t l q i va : Nat}

/- An address leads through every table it belongs to. -/
theorem Tree.translate_root
    (hTree : Tree wide mem root owner)
    (hOwner : owner t = some (l, q))
    (hPlace : va / reach wide (l + 1) = q) :
    translate wide mem (topLevel wide) root va =
      translate wide mem l t va := by
  have hLevel := hTree.level hOwner
  -- The induction goes up to the first table.
  obtain ⟨k, hk⟩ : ∃ k, l + k = topLevel wide :=
    ⟨topLevel wide - l, by omega⟩
  induction k generalizing t l q with
  | zero =>
      rw [Nat.add_zero] at hk
      subst hk
      rw [hTree.top hOwner]
  | succ k ih =>
      obtain ⟨parent, hParent, hLink⟩ :=
        hTree.up hOwner (by omega)
      obtain ⟨hAbove, hIndex⟩ := div_reach_parent hPlace
      rw [ih hParent hAbove (by omega) (by omega)]
      rw [← hIndex] at hLink
      exact translate_link hLink

/-
  If only one entry was changed, an address that translates
  the same from there translates the same.
-/
theorem Tree.translate_congr
    (hTree : Tree wide mem root owner)
    {table level part slot : Nat}
    (hTable : owner table = some (level, part))
    (hSame : OnlyAt wide owner mem mem' table slot)
    (hHere : va / reach wide (level + 1) = part →
      index wide level va = slot →
      translate wide mem' level table va =
        translate wide mem level table va)
    (hOwner : owner t = some (l, q))
    (hPlace : va / reach wide (l + 1) = q) :
    translate wide mem' l t va =
      translate wide mem l t va := by
  induction l generalizing t q with
  | zero =>
      by_cases hAt : t = table ∧ index wide 0 va = slot
      · obtain ⟨rfl, hSlot⟩ := hAt
        cases hOwner.symm.trans hTable
        exact hHere hPlace hSlot
      · have hEntry := hSame t (by rw [hOwner]; simp) _
          (index_lt wide 0 va) (fun hTbl hSlot =>
            hAt ⟨hTbl, hSlot⟩)
        simp only [translate, hEntry]
  | succ l ih =>
      by_cases hAt : t = table ∧ index wide (l + 1) va = slot
      · obtain ⟨rfl, hSlot⟩ := hAt
        cases hOwner.symm.trans hTable
        exact hHere hPlace hSlot
      · have hEntry := hSame t (by rw [hOwner]; simp) _
          (index_lt wide (l + 1) va) (fun hTbl hSlot =>
            hAt ⟨hTbl, hSlot⟩)
        cases hPresent : has (entry wide (mem t)
            (index wide (l + 1) va)) present with
        | false =>
            rw [translate_absent hPresent,
              translate_absent (hEntry ▸ hPresent)]
        | true =>
            rcases hTree.down hOwner
                (index_lt wide (l + 1) va) hPresent with
              hLarge | ⟨child, hChild, hLink⟩
            · simp only [translate, hEntry, hPresent,
                hLarge.large]
              rfl
            · rw [translate_link hLink,
                translate_link (hEntry.symm ▸ hLink)]
              exact ih hChild (div_reach_child hPlace)

theorem LinksTo.lt
    {e next : Nat}
    (hLink : LinksTo e next) :
    e < 2 ^ 32 := by
  rw [hLink.value]
  exact Nat.or_lt_two_pow hLink.below (by decide)

/- A filled table is hung where no table was. -/
theorem Tree.attach
    (hTree : Tree wide mem root owner)
    {table part slot next : Nat}
    (hTable : owner table = some (l + 1, part))
    (hSlot : slot < tableEntries wide)
    (hOld : ∀ child,
      ¬LinksTo (entry wide (mem table) slot) child)
    (hFresh : owner next = none)
    (hSame : OnlyAt wide owner mem mem' table slot)
    (hLink : LinksTo (entry wide (mem' table) slot) next)
    (hNarrow : ∀ i, i < tableEntries wide →
      entry wide (mem' next) i < 2 ^ 32)
    (hEmpty : l ≠ 0 → ∀ i, i < tableEntries wide →
      has (entry wide (mem' next) i) present = false) :
    Tree wide mem' root
      (Function.update owner next
        (some (l, part * tableEntries wide + slot))) := by
  have hPos := tableEntries_pos wide
  have hDiv : (part * tableEntries wide + slot) /
      tableEntries wide = part := by
    rw [Nat.mul_comm, Nat.mul_add_div hPos,
      Nat.div_eq_of_lt hSlot, Nat.add_zero]
  have hMod : (part * tableEntries wide + slot) %
      tableEntries wide = slot := by
    rw [Nat.mul_comm, Nat.mul_add_mod, Nat.mod_eq_of_lt hSlot]
  have hLevel := hTree.level hTable
  have hKept : ∀ {t place}, owner t = some place →
      Function.update owner next
        (some (l, part * tableEntries wide + slot)) t =
          some place := by
    intro t place hOwner
    have hNe : t ≠ next := by
      rintro rfl
      rw [hFresh] at hOwner
      cases hOwner
    rw [Function.update_of_ne hNe, hOwner]
  -- A table of the new tree is the new one or an old one.
  have hCases : ∀ {t place},
      Function.update owner next
        (some (l, part * tableEntries wide + slot)) t =
          some place →
      (t = next ∧
        place = (l, part * tableEntries wide + slot)) ∨
      owner t = some place := by
    intro t place hOwner
    by_cases hNe : t = next
    · subst hNe
      rw [Function.update_self] at hOwner
      cases hOwner
      exact Or.inl ⟨rfl, rfl⟩
    · rw [Function.update_of_ne hNe] at hOwner
      exact Or.inr hOwner
  have hEntry : ∀ {t place}, owner t = some place →
      ∀ i, i < tableEntries wide → ¬(t = table ∧ i = slot) →
      entry wide (mem' t) i = entry wide (mem t) i := by
    intro t place hOwner i hi hNot
    exact hSame t (by rw [hOwner]; simp) i hi
      (fun hTbl hEq => hNot ⟨hTbl, hEq⟩)
  constructor
  · exact hKept hTree.first
  · intro t q hOwner
    rcases hCases hOwner with ⟨_, hNew⟩ | hOwner
    · simp only [Prod.mk.injEq] at hNew
      omega
    · exact hTree.top hOwner
  · intro t l' q hOwner
    rcases hCases hOwner with ⟨_, hNew⟩ | hOwner
    · simp only [Prod.mk.injEq] at hNew
      omega
    · exact hTree.level hOwner
  · intro t place hOwner i hi
    rcases hCases hOwner with ⟨rfl, _⟩ | hOwner
    · exact hNarrow i hi
    · by_cases hAt : t = table ∧ i = slot
      · rw [hAt.1, hAt.2]
        exact hLink.lt
      · rw [hEntry hOwner i hi hAt]
        exact hTree.narrow hOwner i hi
  · intro t l' q hOwner hBelow
    rcases hCases hOwner with ⟨rfl, hNew⟩ | hOwner
    · cases hNew
      rw [hDiv, hMod]
      exact ⟨table, hKept hTable, hLink⟩
    · obtain ⟨parent, hParent, hUp⟩ :=
        hTree.up hOwner hBelow
      refine ⟨parent, hKept hParent, ?_⟩
      rw [hEntry hParent _ (Nat.mod_lt _ hPos) (by
        rintro ⟨rfl, hEq⟩
        exact hOld t (hEq ▸ hUp))]
      exact hUp
  · intro t l' q i hOwner hi hPresent
    rcases hCases hOwner with ⟨rfl, hNew⟩ | hBefore
    · simp only [Prod.mk.injEq] at hNew
      have hNone := hEmpty (by omega) i hi
      rw [hPresent] at hNone
      cases hNone
    · by_cases hAt : t = table ∧ i = slot
      · obtain ⟨rfl, rfl⟩ := hAt
        cases hBefore.symm.trans hTable
        exact Or.inr ⟨next, Function.update_self .., hLink⟩
      · have hEq := hEntry hBefore i hi hAt
        rw [hEq] at hPresent ⊢
        rcases hTree.down hBefore hi hPresent with
          hLarge | ⟨child, hChild, hDown⟩
        · exact Or.inl hLarge
        · exact Or.inr ⟨child, hKept hChild, hDown⟩

/- An entry for a page is rewritten. -/
theorem Tree.setEntry
    (hTree : Tree wide mem root owner)
    {table part slot : Nat}
    (hTable : owner table = some (0, part))
    (hSame : OnlyAt wide owner mem mem' table slot)
    (hNarrow : entry wide (mem' table) slot < 2 ^ 32) :
    Tree wide mem' root owner := by
  have hEntry : ∀ {t place}, owner t = some place →
      ∀ i, i < tableEntries wide → ¬(t = table ∧ i = slot) →
      entry wide (mem' t) i = entry wide (mem t) i := by
    intro t place hOwner i hi hNot
    exact hSame t (by rw [hOwner]; simp) i hi
      (fun hTbl hEq => hNot ⟨hTbl, hEq⟩)
  -- A table above has a level of its own.
  have hAbove : ∀ {t l q i}, owner t = some (l + 1, q) →
      i < tableEntries wide →
      entry wide (mem' t) i = entry wide (mem t) i := by
    intro t l q i hOwner hi
    refine hEntry hOwner i hi ?_
    rintro ⟨rfl, _⟩
    cases hOwner.symm.trans hTable
  constructor
  · exact hTree.first
  · exact hTree.top
  · exact hTree.level
  · intro t place hOwner i hi
    by_cases hAt : t = table ∧ i = slot
    · rw [hAt.1, hAt.2]
      exact hNarrow
    · rw [hEntry hOwner i hi hAt]
      exact hTree.narrow hOwner i hi
  · intro t l q hOwner hBelow
    obtain ⟨parent, hParent, hUp⟩ := hTree.up hOwner hBelow
    refine ⟨parent, hParent, ?_⟩
    rw [hAbove hParent (Nat.mod_lt _ (tableEntries_pos wide))]
    exact hUp
  · intro t l q i hOwner hi hPresent
    rw [hAbove hOwner hi] at hPresent ⊢
    exact hTree.down hOwner hi hPresent

end Trees

end KvantOS.Paging
