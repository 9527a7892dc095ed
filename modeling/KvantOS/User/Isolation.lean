import KvantOS.User.Tables

/-
  This file says what the processor finds when it walks the
  tables of an address space: user code reaches the mapped
  pages of the arena and nothing else, and everything beside
  the arena is where the kernel has it.

  Key definitions include:
    * `InArena`, `spineOf`, `Isolated`

  Key theorems include:
    * `walk_arena`, `keeps_outside`, `Spine.isolated`
-/

namespace KvantOS.User

open Paging

/- The addresses of the arena. -/
def InArena (va : Nat) : Prop :=
  kuBase ≤ va ∧ va < kuBase + kuSize

/-
  The kernel's borrowed tables as they were cloned, for a
  walk down them.
-/
def spineOf
    (wide : Bool)
    (seen : Nat → Buf) : List (Buf × Nat) :=
  (List.range (cloneCount wide)).map
    (fun l => (seen l, spineIndex wide l))

section Walks

variable {mapped : Nat → Bool} {s : KuSpace} {e : KuEnv}
variable {mem : PhysMem} {seen : Nat → Buf}

theorem testBit_flag
    (c : Bool)
    (j k : Nat) :
    (if c then 2 ^ j else 0 : Nat).testBit k =
      (c && decide (k = j)) := by
  cases c with
  | true =>
      rw [if_pos rfl, Nat.testBit_two_pow, Bool.true_and]
      exact decide_eq_decide.mpr eq_comm
  | false => simp

theorem testBit_pageFlags
    (wide nx : Bool)
    (rights k : Nat) :
    (pageFlags wide nx rights).testBit k =
      (decide (k = 0) || decide (k = 2) ||
        (has rights kuW && decide (k = 1)) ||
        (wide && nx && !has rights kuX &&
          decide (k = 63))) := by
  have hFirst : present.testBit k = decide (k = 0) :=
    testBit_flag true 0 k
  have hSecond : user.testBit k = decide (k = 2) :=
    testBit_flag true 2 k
  unfold pageFlags
  rw [Nat.testBit_or, Nat.testBit_or, Nat.testBit_or,
    hFirst, hSecond]
  exact congrArg₂ _
    (congrArg _ (testBit_flag (has rights kuW) 1 k))
    (testBit_flag (wide && nx && !has rights kuX) 63 k)

theorem leafAt_page
    {p rights va : Nat}
    {wide nx : Bool}
    (hDirect : direct mapped p = true) :
    leafAt (mapping p (pageFlags wide nx rights)) 4096 va =
      ⟨p + va % 4096, true, has rights kuW,
        wide && nx && !has rights kuX⟩ := by
  rcases direct_aligned hDirect with ⟨hAligned, hLimit⟩
  have hBound : p < 2 ^ 52 :=
    Nat.lt_trans hLimit (by decide)
  have hFrame : frameOf
      (mapping p (pageFlags wide nx rights)) = p := by
    apply frameOf_mapping hAligned hBound
    intro k hLow hHigh
    rw [testBit_pageFlags]
    have h0 : k ≠ 0 := by omega
    have h1 : k ≠ 1 := by omega
    have h2 : k ≠ 2 := by omega
    have h3 : k ≠ 63 := by omega
    simp [h0, h1, h2, h3]
  have hHigh : p.testBit 63 = false :=
    Nat.testBit_lt_two_pow
      (Nat.lt_trans hBound (by decide))
  simp only [leafAt, hFrame, Leaf.mk.injEq]
  refine ⟨?_, ?_, ?_, ?_⟩
  · rw [Nat.div_mul_cancel hAligned]
  · rw [has_user, testBit_mapping_low hAligned (by decide),
      testBit_pageFlags]
    rfl
  · rw [has_writable,
      testBit_mapping_low hAligned (by decide),
      testBit_pageFlags]
    simp
  · rw [has_noExec, mapping, Nat.testBit_or, hHigh,
      testBit_pageFlags]
    simp

theorem has_present_page
    {p rights : Nat}
    {wide nx : Bool}
    (hDirect : direct mapped p = true) :
    has (mapping p (pageFlags wide nx rights)) present =
      true := by
  rw [has_present, testBit_mapping_low
    (direct_aligned hDirect).1 (by decide),
    testBit_pageFlags]
  rfl

--
-- The Arena
--

/- The place of an address of the arena in each table. -/
theorem index_arena
    {wide : Bool}
    {va : Nat}
    (hArena : InArena va) :
    (∀ l < spineDepth wide,
      index wide (spineDepth wide - l) va =
        spineIndex wide l) ∧
    index wide 0 va =
      arenaStart wide + (va - kuBase) / 4096 := by
  rcases hArena with ⟨hLow, hHigh⟩
  change 0xE00000 ≤ va at hLow
  change va < 0x1000000 at hHigh
  cases wide with
  | true =>
      refine ⟨?_, ?_⟩
      · intro l hl
        change l < 3 at hl
        match l, hl with
        | 0, _ =>
            change va / 2 ^ 39 % 512 = 0
            omega
        | 1, _ =>
            change va / 2 ^ 30 % 512 = 0
            omega
        | 2, _ =>
            change va / 2 ^ 21 % 512 = 7
            omega
      · change va / 2 ^ 12 % 512 =
          0 + (va - 0xE00000) / 4096
        omega
  | false =>
      refine ⟨?_, ?_⟩
      · intro l hl
        change l < 1 at hl
        have hZero : l = 0 := by omega
        subst hZero
        change va / 2 ^ 22 % 1024 = 3
        omega
      · change va / 2 ^ 12 % 1024 =
          512 + (va - 0xE00000) / 4096
        omega

theorem Sound.table_aligned
    (hSound : Sound mapped s e)
    {l : Nat}
    (hl : l < s.tables.length) :
    4096 ∣ s.table l ∧ s.table l < 2 ^ 52 := by
  rcases direct_aligned
    (hSound.usable _ (.inl (table_mem hl))) with
    ⟨hAligned, hLimit⟩
  exact ⟨hAligned, Nat.lt_trans hLimit (by decide)⟩

variable {va : Nat}

/- The walk goes down the spine to the last table. -/
theorem walk_spine
    (hSpine : Spine s mem seen)
    (hSound : Sound mapped s e)
    (hIndex : ∀ l < spineDepth s.arch64,
      index s.arch64 (spineDepth s.arch64 - l) va =
        spineIndex s.arch64 l)
    {n : Nat}
    (hn : n ≤ spineDepth s.arch64) :
    walk s.arch64 mem (spineDepth s.arch64) s.root va =
      walk s.arch64 mem (spineDepth s.arch64 - n)
        (s.table n) va := by
  induction n with
  | zero => rw [hSpine.root, Nat.sub_zero]
  | succ n ih =>
      have hNext : n + 1 < s.tables.length := by
        rw [hSpine.tables]
        omega
      have hLevel : spineDepth s.arch64 - n =
          spineDepth s.arch64 - (n + 1) + 1 := by
        omega
      rcases hSound.table_aligned hNext with
        ⟨hAligned, hBound⟩
      rw [ih (Nat.le_of_succ_le hn), hLevel]
      refine walk_link ?_ hAligned hBound
      rw [← hLevel, hIndex n hn]
      exact hSpine.links n hn

/- A walk in the arena ends at the entry of the page. -/
theorem walk_arena
    (hSpine : Spine s mem seen)
    (hSound : Sound mapped s e)
    (hArena : InArena va) :
    walk s.arch64 mem (spineDepth s.arch64) s.root va =
      if s.frames ((va - kuBase) / 4096) = 0 then none
      else some
        ⟨s.frames ((va - kuBase) / 4096) + va % 4096, true,
          has (s.rights ((va - kuBase) / 4096)) kuW,
          s.nx && !has (s.rights ((va - kuBase) / 4096))
            kuX⟩ := by
  have hPage : (va - kuBase) / 4096 < kuPages := by
    rcases hArena with ⟨hLow, hHigh⟩
    change va < 0x1000000 at hHigh
    change (va - 0xE00000) / 4096 < 512
    omega
  rcases @index_arena s.arch64 va hArena with
    ⟨hIndex, hLast⟩
  rw [walk_spine hSpine hSound hIndex (Nat.le_refl _),
    Nat.sub_self]
  simp only [walk, hLast, hSpine.pages _ hPage, pageEntry]
  by_cases hEmpty : s.frames ((va - kuBase) / 4096) = 0
  · rw [if_pos hEmpty, if_pos hEmpty]
    rfl
  · have hDirect := hSound.usable _
      (.inr ⟨_, hPage, rfl, hEmpty⟩)
    have hWide : (s.arch64 && s.nx) = s.nx := by
      cases hNx : s.nx with
      | false => exact Bool.and_false _
      | true => rw [hSpine.nx hNx, Bool.and_true]
    rw [if_neg hEmpty, if_neg hEmpty,
      if_pos (has_present_page hDirect),
      leafAt_page hDirect, hWide]

--
-- Beside the Arena
--

theorem index_lt
    (wide : Bool)
    (level va : Nat) :
    index wide level va < tableEntries wide := by
  unfold index tableEntries
  cases wide with
  | true => exact Nat.mod_lt _ (by decide)
  | false => exact Nat.mod_lt _ (by decide)

theorem besideSpine_of_ne
    {wide : Bool}
    {l i : Nat}
    (hl : l < spineDepth wide)
    (hNe : i ≠ spineIndex wide l) :
    besideSpine wide l i = true := by
  cases wide with
  | true => exact bne_iff_ne.mpr hNe
  | false =>
      have hZero : l = 0 := by
        change l < 1 at hl
        omega
      subst hZero
      exact bne_iff_ne.mpr hNe

theorem leadsDown_iff (e : Nat) :
    leadsDown e = true ↔
      has e present = true ∧ has e large = false := by
  simp [leadsDown]

/- One cloned table on the way, on the spine or off it. -/
theorem keeps_level
    {va l : Nat}
    {rest : List (Buf × Nat)}
    (hSpine : Spine s mem seen)
    (hSound : Sound mapped s e)
    (hl : l < spineDepth s.arch64)
    (hRest :
      index s.arch64 (spineDepth s.arch64 - l) va =
        spineIndex s.arch64 l →
      l + 1 < cloneCount s.arch64 ∧
      Keeps
        (walkDown s.arch64 mem
          (spineDepth s.arch64 - (l + 1)) rest va)
        (walk s.arch64 mem (spineDepth s.arch64 - (l + 1))
          (s.table (l + 1)) va)) :
    Keeps
      (walkDown s.arch64 mem (spineDepth s.arch64 - l)
        ((seen l, spineIndex s.arch64 l) :: rest) va)
      (walk s.arch64 mem (spineDepth s.arch64 - l)
        (s.table l) va) := by
  have hLevel : spineDepth s.arch64 - l =
      spineDepth s.arch64 - (l + 1) + 1 := by
    omega
  rw [hLevel] at hRest ⊢
  by_cases hOn : index s.arch64
      (spineDepth s.arch64 - (l + 1) + 1) va =
        spineIndex s.arch64 l
  · rcases hRest hOn with ⟨hNext, hKeeps⟩
    rcases (leadsDown_iff _).mp (hSpine.kept l hNext).1 with
      ⟨hPresent, hLarge⟩
    have hTable : l + 1 < s.tables.length := by
      rw [hSpine.tables]
      omega
    rcases hSound.table_aligned hTable with
      ⟨hAligned, hBound⟩
    exact keeps_link hOn hPresent hLarge (hSpine.links l hl)
      hAligned hBound hKeeps
  · exact keeps_beside hOn (hSpine.beside l
      (Nat.lt_of_lt_of_le hl (spineDepth_le _)) _
      (index_lt _ _ _) (besideSpine_of_ne hl hOn))

theorem outside_wide
    (hRange : va < spaceBytes true)
    (hOutside : ¬InArena va)
    (h0 : index true 3 va = 0)
    (h1 : index true 2 va = 0) :
    index true 1 va ≠ 7 := by
  intro h2
  apply hOutside
  change va < 2 ^ 48 at hRange
  change va / 2 ^ 39 % 512 = 0 at h0
  change va / 2 ^ 30 % 512 = 0 at h1
  change va / 2 ^ 21 % 512 = 7 at h2
  change 0xE00000 ≤ va ∧ va < 0x1000000
  omega

theorem outside_narrow
    (hRange : va < spaceBytes false)
    (hOutside : ¬InArena va)
    (h0 : index false 1 va = 3) :
    index false 0 va < 512 := by
  change va < 2 ^ 32 at hRange
  change va / 2 ^ 22 % 1024 = 3 at h0
  change va / 2 ^ 12 % 1024 < 512
  have hNot : ¬(0xE00000 ≤ va ∧ va < 0x1000000) := hOutside
  omega

/-
  Beside the arena an address leads where the kernel's
  tables led when they were cloned, and not for user code.
-/
theorem keeps_outside
    (hSpine : Spine s mem seen)
    (hSound : Sound mapped s e)
    (hRange : va < spaceBytes s.arch64)
    (hOutside : ¬InArena va) :
    Keeps
      (walkDown s.arch64 mem (spineDepth s.arch64)
        (spineOf s.arch64 seen) va)
      (walk s.arch64 mem (spineDepth s.arch64) s.root va) := by
  rw [hSpine.root]
  cases hWide : s.arch64 with
  | true =>
      rw [hWide] at hRange
      have hStep := @keeps_level mapped s e mem seen va
      rw [hWide] at hStep
      refine hStep (l := 0) hSpine hSound (by decide)
        fun h0 => ⟨by decide, ?_⟩
      refine hStep (l := 1) hSpine hSound (by decide)
        fun h1 => ⟨by decide, ?_⟩
      refine hStep (l := 2) hSpine hSound (by decide)
        fun h2 => ?_
      exact absurd h2 (outside_wide hRange hOutside h0 h1)
  | false =>
      rw [hWide] at hRange
      have hStep := @keeps_level mapped s e mem seen va
      rw [hWide] at hStep
      refine hStep (l := 0) hSpine hSound (by decide)
        fun h0 => ⟨by decide, ?_⟩
      have hBelow := outside_narrow hRange hOutside h0
      have hEntry := hSpine.beside 1
      rw [hWide] at hEntry
      exact keeps_page (hEntry (by decide) _
        (index_lt _ _ _) (decide_eq_true hBelow))

/- The spine leads from each borrowed table to the next. -/
theorem Spine.frameOf_kept
    (hSpine : Spine s mem seen)
    {l : Nat}
    (hNext : l + 1 < cloneCount s.arch64) :
    frameOf (entry s.arch64 (seen l)
      (spineIndex s.arch64 l)) = s.lent (l + 1) := by
  have hAddress := (hSpine.kept l hNext).2
  have hNe := hSpine.lentNe (l + 1) hNext
  rw [address] at hAddress
  split at hAddress
  · exact hAddress
  · exact absurd hAddress.symm hNe

/-
  While the borrowed tables are what they were, a walk down
  them is the kernel's own walk.
-/
theorem walkDown_kernel
    (hSpine : Spine s mem seen)
    (hSame : ∀ l < cloneCount s.arch64,
      mem (s.lent l) = seen l)
    (hRange : va < spaceBytes s.arch64)
    (hOutside : ¬InArena va) :
    walkDown s.arch64 mem (spineDepth s.arch64)
        (spineOf s.arch64 seen) va =
      walk s.arch64 mem (spineDepth s.arch64) (s.lent 0)
        va := by
  have hNext := @Spine.frameOf_kept s mem seen hSpine
  cases hWide : s.arch64 with
  | true =>
      rw [hWide] at hRange hSame hNext
      refine walkDown_step (hSame 0 (by decide))
        (hNext (l := 0) (by decide)) fun h0 => ?_
      refine walkDown_step (hSame 1 (by decide))
        (hNext (l := 1) (by decide)) fun h1 => ?_
      refine walkDown_step (hSame 2 (by decide)) rfl
        fun h2 => ?_
      exact absurd h2 (outside_wide hRange hOutside h0 h1)
  | false =>
      rw [hWide] at hRange hSame hNext
      refine walkDown_step (hSame 0 (by decide))
        (hNext (l := 0) (by decide)) fun h0 => ?_
      exact walkDown_page (hSame 1 (by decide))

--
-- Isolation
--

/-
  What a walk of the tables of a live space finds. `seen` is
  what the borrowed tables were at the last create or
  refresh.
-/
structure Isolated
    (s : KuSpace)
    (mem : PhysMem)
    (seen : Nat → Buf) : Prop where
  user : ∀ va < spaceBytes s.arch64, ∀ leaf,
    walk s.arch64 mem (topLevel s.arch64) s.root va =
      some leaf →
    leaf.user = true →
      InArena va ∧ s.frames ((va - kuBase) / 4096) ≠ 0
  page : ∀ va, InArena va →
    s.frames ((va - kuBase) / 4096) ≠ 0 →
    walk s.arch64 mem (topLevel s.arch64) s.root va = some
      ⟨s.frames ((va - kuBase) / 4096) + va % 4096, true,
        has (s.rights ((va - kuBase) / 4096)) kuW,
        s.nx && !has (s.rights ((va - kuBase) / 4096)) kuX⟩
  exclusive : ∀ i < kuPages,
    ¬(has (s.rights i) kuW = true ∧
      has (s.rights i) kuX = true)
  beside : ∀ va < spaceBytes s.arch64, ¬InArena va →
    Keeps
      (walkDown s.arch64 mem (topLevel s.arch64)
        (spineOf s.arch64 seen) va)
      (walk s.arch64 mem (topLevel s.arch64) s.root va)
  current :
    (∀ l < cloneCount s.arch64, mem (s.lent l) = seen l) →
    ∀ va < spaceBytes s.arch64, ¬InArena va →
      Keeps
        (walk s.arch64 mem (topLevel s.arch64) (s.lent 0) va)
        (walk s.arch64 mem (topLevel s.arch64) s.root va)

theorem not_both_of_rightsOk
    {rights : Nat}
    (hOk : rightsOk rights = true) :
    ¬(has rights kuW = true ∧ has rights kuX = true) := by
  rintro ⟨hWrite, hExec⟩
  have hWrite : rights.testBit 1 = true :=
    (has_two_pow rights 1).symm.trans hWrite
  have hExec : rights.testBit 2 = true :=
    (has_two_pow rights 2).symm.trans hExec
  have hBoth : rights &&& (kuW ||| kuX) = kuW ||| kuX := by
    apply Nat.eq_of_testBit_eq
    intro k
    have hMask : (kuW ||| kuX).testBit k =
        (decide (k = 1) || decide (k = 2)) := by
      rw [Nat.testBit_or]
      exact congrArg₂ _ (testBit_flag true 1 k)
        (testBit_flag true 2 k)
    rw [Nat.testBit_and, hMask]
    by_cases h1 : k = 1
    · simp [h1, hWrite]
    · by_cases h2 : k = 2
      · simp [h2, hExec]
      · simp [h1, h2]
  simp [rightsOk, hBoth] at hOk

theorem Spine.isolated
    (hSpine : Spine s mem seen)
    (hSound : Sound mapped s e) :
    Isolated s mem seen where
  user := by
    intro va hRange leaf hWalk hUser
    by_cases hArena : InArena va
    · refine ⟨hArena, ?_⟩
      intro hEmpty
      have hNone := walk_arena hSpine hSound hArena
      rw [if_pos hEmpty] at hNone
      exact Option.some_ne_none _ (hWalk.symm.trans hNone)
    · have hKeeps :=
        keeps_outside hSpine hSound hRange hArena
      have hWalk : walk s.arch64 mem (spineDepth s.arch64)
        s.root va = some leaf := hWalk
      rw [hWalk] at hKeeps
      rw [hKeeps.user_false] at hUser
      cases hUser
  page := by
    intro va hArena hUsed
    exact (walk_arena hSpine hSound hArena).trans
      (if_neg hUsed)
  exclusive := by
    intro i hi
    by_cases hEmpty : s.frames i = 0
    · rw [hSpine.noRights i hi hEmpty]
      decide
    · exact not_both_of_rightsOk (hSpine.rights i hi hEmpty)
  beside := fun va hRange hOutside =>
    keeps_outside hSpine hSound hRange hOutside
  current := by
    intro hSame va hRange hOutside
    have hKeeps :=
      keeps_outside hSpine hSound hRange hOutside
    rw [walkDown_kernel hSpine hSame hRange hOutside]
      at hKeeps
    exact hKeeps

end Walks

end KvantOS.User
