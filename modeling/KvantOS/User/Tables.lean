import KvantOS.User.Frames
import Mathlib.Data.List.GetD

/-
  This file says what lies in the page tables of an address
  space: the spine that leads to the arena, the kernel's
  entries beside it, and the entries of the pages. Each call
  on a space keeps it so.

  Key definitions include:
    * `Spine`, `kernelSpine`

  Key theorems include:
    * `spec_kuCreate`, `spec_kuRefresh`, `spec_kuMap`
-/

namespace KvantOS.User

open Paging

--
-- The Spine
--

/- The links of the spine, and the tables that are cloned. -/
def spineDepth (wide : Bool) : Nat :=
  if wide then 3 else 1

def cloneCount (wide : Bool) : Nat :=
  if wide then 3 else 2

/- The entry of table `l` that leads to table `l + 1`. -/
def spineIndex
    (wide : Bool)
    (l : Nat) : Nat :=
  if wide then (if l == 2 then arenaIndex true else 0)
  else arenaIndex false

/- The entry of page `i` in the last table. -/
def pageEntry
    (s : KuSpace)
    (i : Nat) : Nat :=
  if s.frames i = 0 then 0
  else mapping (s.frames i)
    (pageFlags s.arch64 s.nx (s.rights i))

/-
  The tables of a live space: `seen` is what the borrowed
  tables were when they were cloned last.
-/
structure Spine
    (s : KuSpace)
    (mem : PhysMem)
    (seen : Nat → Buf) : Prop where
  root : s.root = s.table 0
  tables : s.tables.length = spineDepth s.arch64 + 1
  borrowed : s.borrowed.length = cloneCount s.arch64
  nx : s.nx = true → s.arch64 = true
  links : ∀ l < spineDepth s.arch64,
    entry s.arch64 (mem (s.table l))
      (spineIndex s.arch64 l) =
        mapping (s.table (l + 1)) linkFlags
  beside : ∀ l < cloneCount s.arch64,
    ∀ i < tableEntries s.arch64,
      besideSpine s.arch64 l i = true →
        entry s.arch64 (mem (s.table l)) i =
          supervisor s.arch64 (entry s.arch64 (seen l) i)
  pages : ∀ i < kuPages,
    entry s.arch64 (mem (s.table (spineDepth s.arch64)))
      (arenaStart s.arch64 + i) = pageEntry s i
  kept : ∀ l, l + 1 < cloneCount s.arch64 →
    leadsDown (entry s.arch64 (seen l)
      (spineIndex s.arch64 l)) = true ∧
    address (entry s.arch64 (seen l)
      (spineIndex s.arch64 l)) = s.lent (l + 1)
  lentNe : ∀ l < cloneCount s.arch64, s.lent l ≠ 0
  noRights : ∀ i < kuPages,
    s.frames i = 0 → s.rights i = 0
  rights : ∀ i < kuPages,
    s.frames i ≠ 0 → rightsOk (s.rights i) = true

section Tables

variable {mapped : Nat → Bool}
variable {x : KuWorld} {s : KuSpace} {e : KuEnv}
variable {mem : PhysMem} {seen : Nat → Buf}

variable {l : Nat}

theorem table_mem
    (hl : l < s.tables.length) :
    s.table l ∈ s.tables := by
  unfold KuSpace.table
  rw [List.getD_eq_getElem _ _ hl]
  exact List.getElem_mem hl

theorem lent_mem
    (hl : l < s.borrowed.length) :
    s.lent l ∈ s.borrowed := by
  unfold KuSpace.lent
  rw [List.getD_eq_getElem _ _ hl]
  exact List.getElem_mem hl

theorem table_ne
    (hNodup : s.tables.Nodup)
    {l l' : Nat}
    (hl : l < s.tables.length)
    (hl' : l' < s.tables.length)
    (hNe : l ≠ l') :
    s.table l ≠ s.table l' := by
  unfold KuSpace.table
  rw [List.getD_eq_getElem _ _ hl,
    List.getD_eq_getElem _ _ hl']
  exact fun hSame => hNe (hNodup.getElem_inj_iff.mp hSame)

/- A borrowed frame is not one of the space's own. -/
theorem Sound.lent_not_owned
    (hSound : Sound mapped s e)
    (hl : l < s.borrowed.length) :
    ¬s.Owns (s.lent l) :=
  fun hOwns => hSound.kernel _ hOwns
    (hSound.borrowed _ (lent_mem hl))

theorem Sound.lent_ne_table
    (hSound : Sound mapped s e)
    {l l' : Nat}
    (hl : l < s.borrowed.length)
    (hl' : l' < s.tables.length) :
    s.lent l ≠ s.table l' := by
  intro hSame
  apply hSound.lent_not_owned hl
  rw [hSame]
  exact .inl (table_mem hl')

theorem storeIn_same
    (mem : PhysMem)
    (p : Nat)
    (change : Buf → Buf) :
    storeIn mem p change p = change (mem p) :=
  Function.update_self ..

theorem storeIn_ne
    (mem : PhysMem)
    {p q : Nat}
    (change : Buf → Buf)
    (hNe : q ≠ p) :
    storeIn mem p change q = mem q :=
  Function.update_of_ne hNe ..

--
-- Cloning and Linking
--

/- The memory after the first `n` tables were cloned. -/
def cloneFirst
    (s : KuSpace)
    (wide : Bool)
    (takes : Nat → Nat → Bool)
    (mem : PhysMem) : Nat → PhysMem
  | 0 => mem
  | n + 1 =>
      storeIn (cloneFirst s wide takes mem n) (s.table n)
        (fun dst => cloneEntries wide
          (cloneFirst s wide takes mem n (s.lent n)) dst
          (takes n))

variable {n p : Nat}

variable {takes : Nat → Nat → Bool}

theorem cloneFirst_other
    {wide : Bool}
    (hOther : ∀ l < n, p ≠ s.table l) :
    cloneFirst s wide takes mem n p = mem p := by
  induction n with
  | zero => rfl
  | succ n ih =>
      rw [cloneFirst, storeIn_ne _ _
        (hOther n (Nat.lt_succ_self n))]
      exact ih fun l hl => hOther l (Nat.lt_succ_of_lt hl)

theorem cloneFirst_table
    {wide : Bool}
    (hSound : Sound mapped s e)
    (hTables : n ≤ s.tables.length)
    (hBorrowed : n ≤ s.borrowed.length)
    (hl : l < n) :
    cloneFirst s wide takes mem n (s.table l) =
      cloneEntries wide (mem (s.lent l)) (mem (s.table l))
        (takes l) := by
  induction n with
  | zero => cases hl
  | succ n ih =>
      by_cases hLast : l = n
      · subst hLast
        have hThis : cloneFirst s wide takes mem l
            (s.table l) = mem (s.table l) :=
          cloneFirst_other fun l' hl' =>
            table_ne hSound.tables hTables (by omega)
              (by omega)
        have hLent : cloneFirst s wide takes mem l
            (s.lent l) = mem (s.lent l) :=
          cloneFirst_other fun l' hl' =>
            hSound.lent_ne_table hBorrowed (by omega)
        rw [cloneFirst, storeIn_same, hThis, hLent]
      · have hNe : s.table l ≠ s.table n :=
          table_ne hSound.tables (by omega) hTables hLast
        rw [cloneFirst, storeIn_ne _ _ hNe]
        exact ih (by omega) (by omega) (by omega)

/- The memory after the first `n` links were stored. -/
def linkFirst
    (s : KuSpace)
    (wide : Bool)
    (mem : PhysMem) : Nat → PhysMem
  | 0 => mem
  | n + 1 =>
      storeIn (linkFirst s wide mem n) (s.table n)
        (fun b => putEntry wide b (spineIndex wide n)
          (mapping (s.table (n + 1)) linkFlags))

theorem linkFirst_other
    {wide : Bool}
    (hOther : ∀ l < n, p ≠ s.table l) :
    linkFirst s wide mem n p = mem p := by
  induction n with
  | zero => rfl
  | succ n ih =>
      rw [linkFirst, storeIn_ne _ _
        (hOther n (Nat.lt_succ_self n))]
      exact ih fun l hl => hOther l (Nat.lt_succ_of_lt hl)

theorem linkFirst_table
    {wide : Bool}
    (hSound : Sound mapped s e)
    (hTables : n ≤ s.tables.length)
    (hl : l < n) :
    linkFirst s wide mem n (s.table l) =
      putEntry wide (mem (s.table l)) (spineIndex wide l)
        (mapping (s.table (l + 1)) linkFlags) := by
  induction n with
  | zero => cases hl
  | succ n ih =>
      by_cases hLast : l = n
      · subst hLast
        have hThis : linkFirst s wide mem l (s.table l) =
            mem (s.table l) :=
          linkFirst_other fun l' hl' =>
            table_ne hSound.tables hTables (by omega)
              (by omega)
        rw [linkFirst, storeIn_same, hThis]
      · have hNe : s.table l ≠ s.table n :=
          table_ne hSound.tables (by omega) hTables hLast
        rw [linkFirst, storeIn_ne _ _ hNe]
        exact ih (by omega) (by omega)

theorem spec_cloneTable
    {α : Type}
    {post : α → KuWorld → KuEnv → Prop}
    {f : Unit → KuM α}
    {wide : Bool}
    {takes : Nat → Bool}
    (hNext : (f ()).Spec post
      ⟨s, storeIn mem (s.table l) (fun dst =>
        cloneEntries wide (mem (s.lent l)) dst takes)⟩ e) :
    KuM.Spec (cloneTable wide l takes >>= f) post
      ⟨s, mem⟩ e :=
  hNext

theorem spec_link
    {α : Type}
    {post : α → KuWorld → KuEnv → Prop}
    {f : Unit → KuM α}
    {wide : Bool}
    {l i : Nat}
    (hNext : (f ()).Spec post
      ⟨s, storeIn mem (s.table l) (fun b =>
        putEntry wide b i
          (mapping (s.table (l + 1)) linkFlags))⟩ e) :
    KuM.Spec (link wide l i >>= f) post ⟨s, mem⟩ e :=
  hNext

/- An entry for a frame of the space fits. -/
theorem mapping_lt
    {wide : Bool}
    {p flags : Nat}
    (hDirect : direct mapped p = true)
    (hFlags : flags < 2 ^ (8 * entryBytes wide)) :
    mapping p flags < 2 ^ (8 * entryBytes wide) := by
  apply Nat.or_lt_two_pow _ hFlags
  have hLimit := (direct_aligned hDirect).2
  refine Nat.lt_trans hLimit ?_
  cases wide <;> decide

theorem linkFlags_lt (wide : Bool) :
    linkFlags < 2 ^ (8 * entryBytes wide) := by
  cases wide <;> decide

theorem pageFlags_lt
    (wide nx : Bool)
    (rights : Nat) :
    pageFlags wide nx rights <
      2 ^ (8 * entryBytes wide) := by
  unfold pageFlags
  cases wide with
  | false =>
      cases has rights kuW <;> cases nx <;>
        cases has rights kuX <;> decide
  | true =>
      cases has rights kuW <;> cases nx <;>
        cases has rights kuX <;> decide

/- The link is stored, and the entries beside it are left. -/
theorem entry_linkFirst
    {wide : Bool}
    {n l i : Nat}
    (hSound : Sound mapped s e)
    (hTables : n < s.tables.length)
    (hl : l < n) :
    entry wide (linkFirst s wide mem n (s.table l)) i =
      if i = spineIndex wide l then
        mapping (s.table (l + 1)) linkFlags
      else entry wide (mem (s.table l)) i := by
  rw [linkFirst_table hSound (Nat.le_of_lt hTables) hl]
  apply entry_putEntry
  refine mapping_lt (hSound.usable _ (.inl ?_))
    (linkFlags_lt wide)
  exact table_mem (by omega)

--
-- Borrowing
--

/- A frame that can be borrowed. -/
def borrowable
    (mapped : Nat → Bool)
    (s : KuSpace)
    (p : Nat) : Bool :=
  direct mapped p && s.borrowed.length != 3 &&
    !s.borrowed.contains p

/- The space with another borrowed frame. -/
def KuSpace.lend
    (s : KuSpace)
    (p : Nat) : KuSpace :=
  { s with borrowed := s.borrowed ++ [p] }

theorem spec_borrow
    (p : Nat) :
    (borrow mapped p).Spec (fun lent x' e' =>
      e' = e ∧ lent = borrowable mapped x.space p ∧
        x' = if lent then
          ⟨x.space.lend p, x.mem⟩ else x)
      x e := by
  unfold borrow
  refine spec_state (spec_ite ?_ ?_)
  · intro hRefused
    have hNot : borrowable mapped x.space p = false := by
      simp only [Bool.or_eq_true, Bool.not_eq_true',
        beq_iff_eq] at hRefused
      rcases hRefused with (hDirect | hFull) | hKnown
      · simp [borrowable, hDirect]
      · simp [borrowable, hFull]
      · simp only [borrowable, hKnown, Bool.not_true,
          Bool.and_false]
    exact spec_pure ⟨rfl, hNot.symm, rfl⟩
  · intro hAccepted
    have hYes : borrowable mapped x.space p = true := by
      simp only [Bool.or_eq_true, Bool.not_eq_true',
        beq_iff_eq, not_or, Bool.not_eq_false,
        Bool.not_eq_true] at hAccepted
      simp only [borrowable, hAccepted.1.1, hAccepted.2,
        Bool.not_false, Bool.and_true, Bool.true_and]
      exact bne_iff_ne.mpr hAccepted.1.2
    exact spec_setSpace (spec_pure ⟨rfl, hYes.symm, rfl⟩)

/- The entry leads to a table that can be borrowed. -/
def leadsOn
    (mapped : Nat → Bool)
    (s : KuSpace)
    (e : Nat) : Bool :=
  leadsDown e && borrowable mapped s (address e)

theorem spec_borrowNext
    (wide : Bool)
    (p i : Nat) :
    (borrowNext mapped wide p i).Spec (fun lent x' e' =>
      e' = e ∧
        lent = leadsOn mapped x.space
          (entry wide (x.mem p) i) ∧
        x' = if lent then
          ⟨x.space.lend (address (entry wide (x.mem p) i)),
            x.mem⟩ else x)
      x e := by
  unfold borrowNext
  refine spec_state (spec_ite ?_ ?_)
  · intro hNot
    rw [Bool.not_eq_true'] at hNot
    refine spec_pure ⟨rfl, ?_, rfl⟩
    rw [leadsOn, hNot, Bool.false_and]
  · intro hLeads
    rw [Bool.not_eq_true', Bool.not_eq_false] at hLeads
    refine (spec_borrow _).weaken ?_
    rintro lent x' e' ⟨hEnv, hLent, hWorld⟩
    refine ⟨hEnv, ?_, hWorld⟩
    rw [leadsOn, hLeads, Bool.true_and, hLent]

theorem Sound.lend
    (hSound : Sound mapped s e)
    (hKernel : e.kernel p)
    (hLive : s.live = true) :
    Sound mapped (s.lend p) e :=
  { hSound with
    borrowed := by
      intro q hMem
      rcases List.mem_append.mp hMem with hOld | hLast
      · exact hSound.borrowed q hOld
      · rw [List.mem_singleton.mp hLast]
        exact hKernel
    dead := by
      intro hDead
      rw [KuSpace.lend, hLive] at hDead
      cases hDead }

--
-- Building
--

/- The space as `ku_create` starts it. -/
def startSpace
    (wide nx : Bool) : KuSpace :=
  { KuSpace.zero with
    live := true
    arch64 := wide
    nx }

/- The space with what it borrows, and its tables. -/
def builtSpace
    (wide nx : Bool)
    (lent ps : List Nat) : KuSpace :=
  { startSpace wide nx with
    borrowed := lent
    tables := ps }

theorem Sound.start
    (hSound : Sound mapped .zero e)
    (wide nx : Bool) :
    Sound mapped (startSpace wide nx) e :=
  { hSound with
    dead := by
      intro hDead
      cases hDead }

/- The kernel's tables on the way to the arena. -/
def spineNext
    (wide : Bool)
    (mem : PhysMem)
    (root : Nat) : Nat :=
  entry wide (mem root) (spineIndex wide 0)

def spineLast
    (mem : PhysMem)
    (root : Nat) : Nat :=
  entry true (mem (address (spineNext true mem root))) 0

/-
  Where the kernel's entries on the way lead down, they lead
  to tables of the kernel.
-/
structure KernelRoot
    (wide : Bool)
    (mem : PhysMem)
    (e : KuEnv)
    (top : Nat) : Prop where
  root : e.kernel top
  next : leadsDown (spineNext wide mem top) = true →
    e.kernel (address (spineNext wide mem top))
  last : wide = true →
    leadsDown (spineNext wide mem top) = true →
    leadsDown (spineLast mem top) = true →
    e.kernel (address (spineLast mem top))

/- The kernel's tables that are borrowed. -/
def spineFrames
    (wide : Bool)
    (mem : PhysMem)
    (root : Nat) : List Nat :=
  if wide then
    [root, address (spineNext true mem root),
      address (spineLast mem root)]
  else
    [root, address (spineNext false mem root)]

/-
  The kernel's tables lead to the arena, through tables that
  can be borrowed.
-/
def kernelSpine
    (mapped : Nat → Bool)
    (wide : Bool)
    (mem : PhysMem)
    (root : Nat) : Bool :=
  (spineFrames wide mem root).all (direct mapped) &&
    (spineFrames wide mem root).Nodup &&
    leadsDown (spineNext wide mem root) &&
    (!wide || leadsDown (spineLast mem root))

theorem kernelSpine_wide
    (nx : Bool)
    (mem : PhysMem)
    (top : Nat) :
    kernelSpine mapped true mem top = true ↔
      direct mapped top = true ∧
        leadsOn mapped (builtSpace true nx [top] [])
          (spineNext true mem top) = true ∧
        leadsOn mapped (builtSpace true nx
          [top, address (spineNext true mem top)] [])
          (spineLast mem top) = true := by
  simp only [kernelSpine, spineFrames, leadsOn, borrowable,
    builtSpace, if_true, List.all_cons, List.all_nil,
    List.nodup_cons, List.mem_cons, List.not_mem_nil,
    List.nodup_nil, List.length_cons, List.length_nil,
    List.contains_cons, List.contains_nil, Bool.and_eq_true,
    decide_eq_true_eq, Bool.not_eq_true', Bool.or_eq_false_iff,
    beq_eq_false_iff_ne, bne_iff_ne, Bool.not_true,
    Bool.false_or, or_false, not_or, not_false_eq_true,
    and_true, ne_eq]
  have hSymm : ∀ a b : Nat, ¬a = b ↔ ¬b = a :=
    fun a b => not_congr eq_comm
  rw [hSymm top, hSymm top,
    hSymm (address (spineNext true mem top))]
  tauto

theorem kernelSpine_narrow
    (nx : Bool)
    (mem : PhysMem)
    (top : Nat) :
    kernelSpine mapped false mem top = true ↔
      direct mapped top = true ∧
        leadsOn mapped (builtSpace false nx [top] [])
          (spineNext false mem top) = true := by
  simp only [kernelSpine, spineFrames, leadsOn, borrowable,
    builtSpace, Bool.false_eq_true, if_false, List.all_cons,
    List.all_nil, List.nodup_cons, List.mem_cons,
    List.not_mem_nil, List.nodup_nil, List.length_cons,
    List.length_nil, List.contains_cons, List.contains_nil,
    Bool.and_eq_true, decide_eq_true_eq, Bool.not_eq_true',
    Bool.or_eq_false_iff, beq_eq_false_iff_ne, bne_iff_ne,
    Bool.not_false, Bool.true_or, or_false,
    not_false_eq_true, and_true, ne_eq]
  rw [not_congr (eq_comm (a := top))]
  tauto

/- The space with the root that `ku_create` sets at last. -/
def KuSpace.rooted (s : KuSpace) : KuSpace :=
  { s with root := s.table 0 }

section Built

variable {wide nx : Bool} {lent ps : List Nat}

/- The kernel's entries lead from each lent frame on. -/
def LentLinks
    (wide : Bool)
    (lent : List Nat)
    (seen : Nat → Buf) : Prop :=
  ∀ l, l + 1 < cloneCount wide →
    leadsDown (entry wide (seen l) (spineIndex wide l)) =
      true ∧
    address (entry wide (seen l) (spineIndex wide l)) =
      lent.getD (l + 1) 0

theorem spineFrames_ne_zero
    {top l : Nat}
    (hSpine : kernelSpine mapped wide mem top = true)
    (hl : l < cloneCount wide) :
    (spineFrames wide mem top).getD l 0 ≠ 0 := by
  simp only [kernelSpine, Bool.and_eq_true,
    List.all_eq_true] at hSpine
  have hLength :
      l < (spineFrames wide mem top).length := by
    cases wide <;> exact hl
  rw [List.getD_eq_getElem _ _ hLength]
  exact direct_ne_zero
    (hSpine.1.1.1 _ (List.getElem_mem hLength))

variable {m : PhysMem}

theorem spine_wide
    (hSound : Sound mapped (builtSpace true nx lent ps) e)
    (hTables : ps.length = 4)
    (hBorrowed : lent.length = 3)
    (hZero : ∀ p ∈ ps, m p = Buf.zero)
    (hKept : LentLinks true lent
      (fun l => m (lent.getD l 0)))
    (hLentNe : ∀ l < 3, lent.getD l 0 ≠ 0) :
    Spine (builtSpace true nx lent ps).rooted
      (linkFirst (builtSpace true nx lent ps) true
        (cloneFirst (builtSpace true nx lent ps) true
          (fun _ => allEntries) m 3) 3)
      (fun l => m (lent.getD l 0)) where
  root := rfl
  tables := hTables
  borrowed := hBorrowed
  nx := fun _ => rfl
  links := by
    intro l hl
    change l < 3 at hl
    refine (entry_linkFirst hSound ?_ hl).trans
      (if_pos rfl)
    change 3 < ps.length
    omega
  beside := by
    intro l hl i hi hBeside
    change l < 3 at hl
    change i < tableEntries true at hi
    have hNe : i ≠ spineIndex true l := by
      rw [← bne_iff_ne]
      exact hBeside
    have hFour :
        3 < (builtSpace true nx lent ps).tables.length := by
      change 3 < ps.length
      omega
    change entry true (linkFirst _ true _ 3
      ((builtSpace true nx lent ps).table l)) i = _
    rw [entry_linkFirst hSound hFour hl, if_neg hNe,
      cloneFirst_table hSound (Nat.le_of_lt hFour)
        (Nat.le_of_eq hBorrowed.symm) hl,
      entry_cloneEntries hi]
    exact if_pos rfl
  pages := by
    intro i _
    have hFour :
        3 < (builtSpace true nx lent ps).tables.length := by
      change 3 < ps.length
      omega
    have hLast : ∀ l < 3, (builtSpace true nx lent ps).table
        3 ≠ (builtSpace true nx lent ps).table l :=
      fun l hl => table_ne hSound.tables hFour (by omega)
        (by omega)
    change entry true (linkFirst _ true _ 3
      ((builtSpace true nx lent ps).table 3)) _ = 0
    rw [linkFirst_other hLast, cloneFirst_other hLast,
      hZero _ (table_mem hFour)]
    exact entry_zero true _
  kept := hKept
  lentNe := hLentNe
  noRights := fun _ _ _ => rfl
  rights := fun _ _ hNe => absurd rfl hNe

variable {b : Buf} {i : Nat}

/- Entries below the arena are left by clearing it. -/
theorem entry_fill_below
    (hi : i < 512) :
    entry false (b.fill (4 * 512) 0 (4 * 512)) i =
      entry false b i := by
  apply entry_congr
  intro k hk
  change k < 4 at hk
  refine if_neg ?_
  rintro ⟨hFrom, -⟩
  change 4 * 512 ≤ 4 * i + k at hFrom
  omega

theorem entry_fill_inside
    (hFrom : 512 ≤ i)
    (hi : i < 1024) :
    entry false (b.fill (4 * 512) 0 (4 * 512)) i = 0 := by
  apply entry_of_bytes _ (Nat.two_pow_pos _)
  intro k hk
  change k < 4 at hk
  rw [byteOf, Nat.zero_shiftRight]
  refine if_pos ?_
  change 4 * 512 ≤ 4 * i + k ∧ 4 * i + k < 4 * 512 + 4 * 512
  omega

theorem spine_narrow
    (hSound : Sound mapped (builtSpace false false lent ps) e)
    (hTables : ps.length = 2)
    (hBorrowed : lent.length = 2)
    (hKept : LentLinks false lent
      (fun l => m (lent.getD l 0)))
    (hLentNe : ∀ l < 2, lent.getD l 0 ≠ 0) :
    Spine (builtSpace false false lent ps).rooted
      (linkFirst (builtSpace false false lent ps) false
        (storeIn
          (cloneFirst (builtSpace false false lent ps) false
            (fun _ => allEntries) m 2)
          ((builtSpace false false lent ps).table 1)
          (fun b => b.fill (4 * 512) 0 (4 * 512))) 1)
      (fun l => m (lent.getD l 0)) := by
  have hOne : 1 < (builtSpace false false lent ps).tables.length := by
    change 1 < ps.length
    omega
  have hTwo :
      2 ≤ (builtSpace false false lent ps).tables.length :=
    hOne
  have hLent :
      2 ≤ (builtSpace false false lent ps).borrowed.length :=
    Nat.le_of_eq hBorrowed.symm
  have hApart : (builtSpace false false lent ps).table 1 ≠
      (builtSpace false false lent ps).table 0 :=
    table_ne hSound.tables hOne (by omega) (by decide)
  have hLast : ∀ l < 1,
      (builtSpace false false lent ps).table 1 ≠
        (builtSpace false false lent ps).table l := by
    intro l hl
    have hZero : l = 0 := by omega
    rw [hZero]
    exact hApart
  constructor
  · rfl
  · exact hTables
  · exact hBorrowed
  · intro hNx
    cases hNx
  · intro l hl
    exact (entry_linkFirst hSound hOne hl).trans
      (if_pos rfl)
  · intro l hl i hi hBeside
    change l < 2 at hl
    change i < tableEntries false at hi
    rcases Nat.lt_or_ge l 1 with hFirst | hSecond
    · have hZero : l = 0 := by omega
      subst hZero
      have hNe : i ≠ spineIndex false 0 := by
        rw [← bne_iff_ne]
        exact hBeside
      change entry false (linkFirst _ false _ 1
        ((builtSpace false false lent ps).table 0)) i = _
      rw [entry_linkFirst hSound hOne hFirst, if_neg hNe,
        storeIn_ne _ _ hApart.symm,
        cloneFirst_table hSound hTwo hLent hl,
        entry_cloneEntries hi]
      exact if_pos rfl
    · have hEq : l = 1 := by omega
      subst hEq
      have hBelow : i < 512 := of_decide_eq_true hBeside
      change entry false (linkFirst _ false _ 1
        ((builtSpace false false lent ps).table 1)) i = _
      rw [linkFirst_other hLast, storeIn_same,
        entry_fill_below hBelow,
        cloneFirst_table hSound hTwo hLent hl,
        entry_cloneEntries hi]
      exact if_pos rfl
  · intro i hi
    change i < 512 at hi
    change entry false (linkFirst _ false _ 1
      ((builtSpace false false lent ps).table 1))
        (512 + i) = 0
    rw [linkFirst_other hLast, storeIn_same]
    exact entry_fill_inside (by omega) (by omega)
  · exact hKept
  · exact hLentNe
  · exact fun _ _ _ => rfl
  · exact fun _ _ hNe => absurd rfl hNe

/-
  What the building of the tables ends in: it is complete if
  the kernel's tables lead to the arena and there were
  frames enough.
-/
structure BuildDone
    (mapped : Nat → Bool)
    (wide nx : Bool)
    (top : Nat)
    (mem : PhysMem)
    (e : KuEnv)
    (built : Bool)
    (x' : KuWorld)
    (e' : KuEnv) : Prop where
  ran : ∃ ok, Ran mapped e e' ok ∧
    (built = true ↔
      kernelSpine mapped wide mem top = true ∧ ok)
  space : ∃ lent ps,
    x'.space = builtSpace wide nx lent ps ∧
    Sound mapped (builtSpace wide nx lent ps) e' ∧
    (∀ p ∉ ps, x'.mem p = mem p) ∧
    (built = true →
      lent = spineFrames wide mem top ∧
      Spine (builtSpace wide nx lent ps).rooted x'.mem
        (fun l => mem (lent.getD l 0)))

variable {top : Nat}

/- Nothing was allocated before the building failed. -/
theorem BuildDone.refused
    (hSound : Sound mapped (builtSpace wide nx lent []) e)
    (hSpine :
      ¬kernelSpine mapped wide mem top = true) :
    BuildDone mapped wide nx top mem e false
      ⟨builtSpace wide nx lent [], mem⟩ e where
  ran := ⟨True, Ran.refl mapped e, by simp [hSpine]⟩
  space := ⟨lent, [], rfl, hSound, fun _ _ => rfl,
    fun hNone => by cases hNone⟩

/- What was borrowed is not among the new tables. -/
theorem lent_not_new
    (hSound : Sound mapped (builtSpace wide nx lent ps) e)
    (l : Nat) :
    lent.getD l 0 ∉ ps := by
  intro hMem
  have hOwns : (builtSpace wide nx lent ps).Owns
      (lent.getD l 0) :=
    .inl hMem
  rcases Nat.lt_or_ge l lent.length with hl | hl
  · exact hSound.kernel _ hOwns
      (hSound.borrowed _ (lent_mem
        (s := builtSpace wide nx lent ps) hl))
  · rw [List.getD_eq_default _ _ hl] at hOwns
    exact direct_ne_zero (hSound.usable _ hOwns) rfl

theorem not_new_table
    (hTables : n ≤ ps.length)
    (hNew : p ∉ ps) :
    ∀ l < n, p ≠ (builtSpace wide nx lent ps).table l := by
  rintro l hl rfl
  apply hNew
  apply table_mem (s := builtSpace wide nx lent ps)
  change l < ps.length
  omega

theorem lentLinks_wide
    (hLent : ∀ l,
      m ((spineFrames true mem top).getD l 0) =
        mem ((spineFrames true mem top).getD l 0))
    (hSpine : kernelSpine mapped true mem top = true) :
    LentLinks true (spineFrames true mem top)
      (fun l => m ((spineFrames true mem top).getD l 0)) := by
  simp only [kernelSpine, Bool.and_eq_true, Bool.not_true,
    Bool.false_or] at hSpine
  intro l hl
  change l + 1 < 3 at hl
  simp only [hLent]
  match l, hl with
  | 0, _ => exact ⟨hSpine.1.2, rfl⟩
  | 1, _ => exact ⟨hSpine.2, rfl⟩

theorem lentLinks_narrow
    (hLent : ∀ l,
      m ((spineFrames false mem top).getD l 0) =
        mem ((spineFrames false mem top).getD l 0))
    (hSpine : kernelSpine mapped false mem top = true) :
    LentLinks false (spineFrames false mem top)
      (fun l => m ((spineFrames false mem top).getD l 0)) := by
  simp only [kernelSpine, Bool.and_eq_true] at hSpine
  intro l hl
  change l + 1 < 2 at hl
  simp only [hLent]
  match l, hl with
  | 0, _ => exact ⟨hSpine.1.2, rfl⟩

variable {e' : KuEnv} {x' : KuWorld}

/- The building goes on once the tables are allocated. -/
theorem spec_unlessAdded
    {wide nx added : Bool}
    {fill : KuM Bool}
    (hRan : Ran mapped e e' (added = true))
    (hAdded : TablesAdded mapped
      ⟨builtSpace wide nx (spineFrames wide mem top) [], mem⟩
      ps x' e')
    (hFill : ∀ m, added = true →
      x' = ⟨builtSpace wide nx
        (spineFrames wide mem top) ps, m⟩ →
      Sound mapped (builtSpace wide nx
        (spineFrames wide mem top) ps) e' →
      (∀ l, m ((spineFrames wide mem top).getD l 0) =
        mem ((spineFrames wide mem top).getD l 0)) →
      fill.Spec (BuildDone mapped wide nx top mem e) x' e') :
    KuM.Spec (if !added then pure false else fill)
      (BuildDone mapped wide nx top mem e) x' e' := by
  have hSound : Sound mapped (builtSpace wide nx
      (spineFrames wide mem top) ps) e' := by
    have hNow := hAdded.sound
    rw [hAdded.space] at hNow
    exact hNow
  rcases x' with ⟨s', m⟩
  have hSpace : s' = builtSpace wide nx
      (spineFrames wide mem top) ps :=
    hAdded.space
  subst hSpace
  cases added with
  | false =>
      refine spec_ite (fun _ => ?_)
        (fun hNot => (hNot rfl).elim)
      refine spec_pure ⟨⟨_, hRan, by simp⟩, _, ps, rfl,
        hSound, hAdded.kept, fun hNone => by cases hNone⟩
  | true =>
      refine spec_ite (fun hNot => by cases hNot)
        (fun _ => hFill m rfl rfl hSound ?_)
      exact fun l => hAdded.kept _ (lent_not_new hSound l)

variable {added : Bool}

theorem spec_finish64
    (hSpine : kernelSpine mapped true mem top = true)
    (hRan : Ran mapped e e' (added = true))
    (hAdded : TablesAdded mapped
      ⟨builtSpace true nx (spineFrames true mem top) [], mem⟩
      ps x' e')
    (hLength : added = true → ps.length = 4) :
    KuM.Spec
      (if !added then
        pure false
      else do
        cloneTable true 0 allEntries
        cloneTable true 1 allEntries
        cloneTable true 2 allEntries
        link true 0 0
        link true 1 0
        link true 2 (arenaIndex true)
        pure true)
      (BuildDone mapped true nx top mem e) x' e' := by
  refine spec_unlessAdded hRan hAdded ?_
  rintro m rfl rfl hSound hLent
  have hFour := hLength rfl
  have hTabled := spine_wide hSound hFour rfl
    hAdded.zero (lentLinks_wide hLent hSpine)
    (fun _ hl => spineFrames_ne_zero hSpine hl)
  rw [funext hLent] at hTabled
  have hKept : ∀ p ∉ ps,
      linkFirst (builtSpace true nx
          (spineFrames true mem top) ps) true
        (cloneFirst (builtSpace true nx
          (spineFrames true mem top) ps) true
          (fun _ => allEntries) m 3) 3 p = mem p := by
    intro p hNew
    have hOther : ∀ l < 3, p ≠ (builtSpace true nx
        (spineFrames true mem top) ps).table l :=
      not_new_table (by omega) hNew
    rw [linkFirst_other hOther, cloneFirst_other hOther]
    exact hAdded.kept p hNew
  refine spec_cloneTable (spec_cloneTable
    (spec_cloneTable ?_))
  refine spec_link (spec_link (spec_link ?_))
  exact spec_pure ⟨⟨_, hRan, by simp [hSpine]⟩, _,
    ps, rfl, hSound, hKept, fun _ => ⟨rfl, hTabled⟩⟩

theorem spec_build64
    (hSound : Sound mapped (builtSpace true nx [top] []) e)
    (hDirect : direct mapped top = true)
    (hKernel : KernelRoot true mem e top) :
    (build64 mapped top).Spec
      (BuildDone mapped true nx top mem e)
      ⟨builtSpace true nx [top] [], mem⟩ e := by
  have hIff := @kernelSpine_wide mapped nx mem top
  unfold build64
  refine KuM.Spec.seq (spec_borrowNext true top 0) ?_
  rintro lent x₁ e₁ ⟨rfl, hLent, hWorld⟩
  change lent = leadsOn mapped (builtSpace true nx [top] [])
    (spineNext true mem top) at hLent
  cases lent with
  | false =>
      subst hWorld
      refine spec_ite (fun _ => ?_)
        (fun hNot => (hNot rfl).elim)
      refine spec_pure (BuildDone.refused hSound ?_)
      rw [hIff, ← hLent]
      simp
  | true =>
      have hDown :
          leadsDown (spineNext true mem top) = true :=
        (Bool.and_eq_true_iff.mp hLent.symm).1
      have hWorld : x₁ = ⟨builtSpace true nx
          [top, address (spineNext true mem top)] [], mem⟩ :=
        hWorld
      have hSound₁ : Sound mapped (builtSpace true nx
          [top, address (spineNext true mem top)] []) e₁ :=
        hSound.lend (hKernel.next hDown) rfl
      subst hWorld
      refine spec_ite (fun hNot => by cases hNot)
        (fun _ => spec_state ?_)
      refine KuM.Spec.seq (spec_borrowNext true _ 0) ?_
      rintro lent x₂ e₂ ⟨rfl, hLent₂, hWorld⟩
      change lent = leadsOn mapped (builtSpace true nx
          [top, address (spineNext true mem top)] [])
        (spineLast mem top) at hLent₂
      cases lent with
      | false =>
          subst hWorld
          refine spec_ite (fun _ => ?_)
            (fun hNot => (hNot rfl).elim)
          refine spec_pure (BuildDone.refused hSound₁ ?_)
          rw [hIff, ← hLent₂]
          simp
      | true =>
          have hDown₂ :
              leadsDown (spineLast mem top) = true :=
            (Bool.and_eq_true_iff.mp hLent₂.symm).1
          have hSpine := hIff.mpr
            ⟨hDirect, hLent.symm, hLent₂.symm⟩
          have hWorld : x₂ = ⟨builtSpace true nx
              (spineFrames true mem top) [], mem⟩ :=
            hWorld
          have hSound₂ : Sound mapped (builtSpace true nx
              (spineFrames true mem top) []) e₂ :=
            hSound₁.lend (hKernel.last rfl hDown hDown₂) rfl
          subst hWorld
          refine spec_ite (fun hNot => by cases hNot)
            (fun _ => ?_)
          refine KuM.Spec.seq
            (spec_addTables 4 hSound₂ rfl) ?_
          rintro added x₃ e₃ ⟨hRan, ps, hAdded, hLength⟩
          exact spec_finish64 hSpine hRan hAdded hLength

theorem spec_clearArena
    {α : Type}
    {post : α → KuWorld → KuEnv → Prop}
    {f : Unit → KuM α}
    (hNext : (f ()).Spec post
      ⟨s, storeIn mem (s.table 1) (fun b =>
        b.fill (4 * 512) 0 (4 * 512))⟩ e) :
    KuM.Spec (clearArena >>= f) post ⟨s, mem⟩ e :=
  hNext

theorem spec_finish32
    (hSpine : kernelSpine mapped false mem top = true)
    (hRan : Ran mapped e e' (added = true))
    (hAdded : TablesAdded mapped
      ⟨builtSpace false false (spineFrames false mem top) [],
        mem⟩ ps x' e')
    (hLength : added = true → ps.length = 2) :
    KuM.Spec
      (if !added then
        pure false
      else do
        cloneTable false 0 allEntries
        cloneTable false 1 allEntries
        clearArena
        link false 0 (arenaIndex false)
        pure true)
      (BuildDone mapped false false top mem e) x' e' := by
  refine spec_unlessAdded hRan hAdded ?_
  rintro m rfl rfl hSound hLent
  have hTwo := hLength rfl
  have hTabled := spine_narrow hSound hTwo rfl
    (lentLinks_narrow hLent hSpine)
    (fun _ hl => spineFrames_ne_zero hSpine hl)
  rw [funext hLent] at hTabled
  have hKept : ∀ p ∉ ps,
      linkFirst (builtSpace false false
          (spineFrames false mem top) ps) false
        (storeIn
          (cloneFirst (builtSpace false false
            (spineFrames false mem top) ps) false
            (fun _ => allEntries) m 2)
          ((builtSpace false false
            (spineFrames false mem top) ps).table 1)
          (fun b => b.fill (4 * 512) 0 (4 * 512))) 1 p =
        mem p := by
    intro p hNew
    have hOther : ∀ l < 2, p ≠ (builtSpace false false
        (spineFrames false mem top) ps).table l :=
      not_new_table (by omega) hNew
    rw [linkFirst_other (fun l hl => hOther l (by omega)),
      storeIn_ne _ _ (hOther 1 (by decide)),
      cloneFirst_other hOther]
    exact hAdded.kept p hNew
  refine spec_cloneTable (spec_cloneTable ?_)
  refine spec_clearArena (spec_link ?_)
  exact spec_pure ⟨⟨_, hRan, by simp [hSpine]⟩, _,
    ps, rfl, hSound, hKept, fun _ => ⟨rfl, hTabled⟩⟩

theorem spec_build32
    (hSound :
      Sound mapped (builtSpace false false [top] []) e)
    (hDirect : direct mapped top = true)
    (hKernel : KernelRoot false mem e top) :
    (build32 mapped top).Spec
      (BuildDone mapped false false top mem e)
      ⟨builtSpace false false [top] [], mem⟩ e := by
  have hIff :=
    @kernelSpine_narrow mapped false mem top
  unfold build32
  refine KuM.Spec.seq
    (spec_borrowNext false top (arenaIndex false)) ?_
  rintro lent x₁ e₁ ⟨rfl, hLent, hWorld⟩
  change lent = leadsOn mapped
    (builtSpace false false [top] [])
    (spineNext false mem top) at hLent
  cases lent with
  | false =>
      subst hWorld
      refine spec_ite (fun _ => ?_)
        (fun hNot => (hNot rfl).elim)
      refine spec_pure (BuildDone.refused hSound ?_)
      rw [hIff, ← hLent]
      simp
  | true =>
      have hDown :
          leadsDown (spineNext false mem top) = true :=
        (Bool.and_eq_true_iff.mp hLent.symm).1
      have hSpine := hIff.mpr ⟨hDirect, hLent.symm⟩
      have hWorld : x₁ = ⟨builtSpace false false
          (spineFrames false mem top) [], mem⟩ :=
        hWorld
      have hSound₁ : Sound mapped (builtSpace false false
          (spineFrames false mem top) []) e₁ :=
        hSound.lend (hKernel.next hDown) rfl
      subst hWorld
      refine spec_ite (fun hNot => by cases hNot)
        (fun _ => ?_)
      refine KuM.Spec.seq
        (spec_addTables 2 hSound₁ rfl) ?_
      rintro added x₂ e₂ ⟨hRan, ps, hAdded, hLength⟩
      exact spec_finish32 hSpine hRan hAdded hLength

end Built

--
-- Creating
--

/- The arguments of `ku_create` that are not refused. -/
def createArgs (arch64 nx : Int) : Prop :=
  (arch64 = 0 ∨ arch64 = 1) ∧ (nx = 0 ∨ nx = 1) ∧
    (nx ≠ 0 → arch64 ≠ 0)

/- What the making of a space ends in. -/
structure Created
    (mapped : Nat → Bool)
    (wide nx : Bool)
    (top : Nat)
    (mem : PhysMem)
    (e : KuEnv)
    (r : Int)
    (x' : KuWorld)
    (e' : KuEnv) : Prop where
  ran : ∃ ok, Ran mapped e e' ok ∧
    (r = 0 ↔ kernelSpine mapped wide mem top = true ∧ ok)
  result : r = 0 ∨ r = -1
  sound : Sound mapped x'.space e'
  kept : ∀ p, e.kernel p → x'.mem p = mem p
  done : r = 0 → ∃ ps,
    x'.space = (builtSpace wide nx
      (spineFrames wide mem top) ps).rooted ∧
    Spine x'.space x'.mem (fun l => mem (x'.space.lent l))
  failed : r = -1 → x'.space = .zero

theorem Sound.rooted
    (hSound : Sound mapped s e)
    (hLive : s.live = true) :
    Sound mapped s.rooted e :=
  { hSound with
    dead := by
      intro hDead
      rw [KuSpace.rooted, hLive] at hDead
      cases hDead }

section Create

variable {wide nx : Bool}

variable {top : Nat}

/- Nothing was borrowed, or the building failed. -/
theorem spec_unbuilt
    {e₀ : KuEnv}
    {ok : Prop}
    (hSound : Sound mapped x.space e)
    (hLive : x.space.live = true)
    (hPins : x.space.pins = 0)
    (hKept : ∀ p, ¬x.space.Owns p → x.mem p = mem p)
    (hRan : Ran mapped e₀ e ok)
    (hFailed :
      ¬(kernelSpine mapped wide mem top = true ∧ ok)) :
    KuM.Spec (do
      let _ ← kuDestroy
      pure (-1))
      (Created mapped wide nx top mem e₀) x e := by
  refine KuM.Spec.seq (spec_kuDestroy hSound hPins hLive) ?_
  rintro r x' e' ⟨-, hSpace, hZero, hEnd, hMem⟩
  have hAll := hRan.trans hEnd
  refine spec_pure
    ⟨⟨ok, hAll.iff (by simp), ?_⟩, .inr rfl, ?_, ?_, ?_,
      fun _ => hSpace⟩
  · constructor
    · intro hResult
      cases hResult
    · intro hBoth
      exact absurd hBoth hFailed
  · rw [hSpace]
    exact hZero
  · intro p hKernel
    have hNot : ¬x.space.Owns p := by
      intro hOwns
      refine hSound.kernel p hOwns ?_
      rw [hRan.kernel]
      exact hKernel
    rw [hMem p hNot]
    exact hKept p hNot
  · intro hResult
    cases hResult

/- The end of `ku_create`. -/
theorem spec_created
    {built : Bool}
    {e' : KuEnv}
    {x' : KuWorld}
    (hDone : BuildDone mapped wide nx top mem e built x' e') :
    KuM.Spec
      (if built then do
        KuM.setSpace (fun s => { s with root := s.table 0 })
        pure 0
      else do
        let _ ← kuDestroy
        pure (-1))
      (Created mapped wide nx top mem e) x' e' := by
  rcases hDone with ⟨⟨ok, hRan, hOk⟩, lent, ps, hSpace,
    hSound, hKept, hBuilt⟩
  have hOutside : ∀ p, ¬x'.space.Owns p →
      x'.mem p = mem p := by
    intro p hNot
    apply hKept
    intro hTable
    apply hNot
    rw [hSpace]
    exact .inl hTable
  rw [← hSpace] at hSound
  have hLive : x'.space.live = true := by
    rw [hSpace]
    rfl
  cases built with
  | false =>
      have hPins : x'.space.pins = 0 := by
        rw [hSpace]
        rfl
      have hFailed :
          ¬(kernelSpine mapped wide mem top = true ∧ ok) :=
        fun hBoth => Bool.false_ne_true (hOk.mpr hBoth)
      exact spec_ite (fun hNot => by cases hNot)
        (fun _ => spec_unbuilt hSound hLive hPins hOutside
          hRan hFailed)
  | true =>
      refine spec_ite (fun _ => ?_)
        (fun hNot => (hNot rfl).elim)
      rcases hBuilt rfl with ⟨rfl, hSpine⟩
      refine spec_setSpace (spec_pure
        ⟨⟨ok, hRan, ?_⟩, .inl rfl, hSound.rooted hLive, ?_,
          fun _ => ⟨ps, ?_, ?_⟩, ?_⟩)
      · rw [← hOk]
        simp
      · intro p hKernel
        apply hOutside
        intro hOwns
        refine hSound.kernel p hOwns ?_
        rw [hRan.kernel]
        exact hKernel
      · rw [hSpace]
        rfl
      · rw [hSpace]
        exact hSpine
      · intro hResult
        cases hResult

theorem not_kernelSpine
    (hDirect : direct mapped top = false) :
    ¬kernelSpine mapped wide mem top = true := by
  cases wide with
  | true => simp [kernelSpine_wide false, hDirect]
  | false => simp [kernelSpine_narrow false, hDirect]

end Create

/- `ku_create` on a space that is not live. -/
theorem spec_kuCreate
    {top : Nat}
    {arch64 nx : Int}
    (hSound : Sound mapped x.space e)
    (hDead : x.space.live = false)
    (hArgs : createArgs arch64 nx)
    (hKernel : KernelRoot (arch64 == 1) x.mem e top) :
    (kuCreate mapped top arch64 nx).Spec
      (Created mapped (arch64 == 1) (nx == 1) top x.mem e)
      x e := by
  have hStart : Sound mapped
      (startSpace (arch64 == 1) (nx == 1)) e := by
    rw [hSound.dead hDead] at hSound
    exact hSound.start _ _
  unfold kuCreate
  refine spec_state (spec_ite ?_ ?_)
  · intro hRefused
    rcases hArgs with ⟨hArch | hArch, hNx | hNx, hBoth⟩
    all_goals simp_all
  · intro _
    refine spec_setSpace ?_
    refine KuM.Spec.seq (spec_borrow top) ?_
    rintro lent x₁ e₁ ⟨rfl, hLent, hWorld⟩
    have hTop : direct mapped top = lent := by
      simp [hLent, borrowable, KuSpace.zero]
    have hEnd : ∀ built x' e',
        BuildDone mapped (arch64 == 1) (nx == 1) top x.mem
          e₁ built x' e' → _ :=
      fun _ _ _ hDone => spec_created hDone
    refine spec_ite ?_ ?_
    · intro hNot
      have hNone : lent = false := by simpa using hNot
      rw [hNone] at hTop hWorld
      refine KuM.Spec.seq ?_ hEnd
      subst hWorld
      exact spec_pure (BuildDone.refused hStart
        (not_kernelSpine hTop))
    · intro hLentTop
      have hSome : lent = true := by simpa using hLentTop
      rw [hSome] at hTop hWorld
      have hLend := hStart.lend hKernel.root rfl
      rcases hArgs with ⟨rfl | rfl, hNx, hBoth⟩
      · have hNone : nx = 0 := by
          by_contra hNe
          exact hBoth hNe rfl
        subst hNone
        refine spec_ite (fun hNot => by cases hNot)
          (fun _ => ?_)
        refine KuM.Spec.seq ?_ hEnd
        subst hWorld
        exact spec_build32 hLend hTop hKernel
      · refine spec_ite (fun _ => ?_)
          (fun hNot => (hNot rfl).elim)
        refine KuM.Spec.seq ?_ hEnd
        subst hWorld
        exact spec_build64 hLend hTop hKernel

/- A live space, or arguments of no sense, are refused. -/
theorem spec_kuCreate_refused
    {top : Nat}
    {arch64 nx : Int}
    (hRefused :
      x.space.live = true ∨ ¬createArgs arch64 nx) :
    (kuCreate mapped top arch64 nx).Spec
      (fun r x' e' => r = -1 ∧ x' = x ∧ e' = e) x e := by
  unfold kuCreate
  refine spec_state (spec_ite
    (fun _ => spec_pure ⟨rfl, rfl, rfl⟩) ?_)
  intro hAccepted
  simp only [Bool.or_eq_true, Bool.and_eq_true, bne_iff_ne,
    beq_iff_eq, not_or, not_and, ne_eq, Decidable.not_not,
    Bool.not_eq_true] at hAccepted
  rcases hAccepted with ⟨⟨⟨hLive, hArch⟩, hNx⟩, hBoth⟩
  rcases hRefused with hAlive | hArgs
  · rw [hLive] at hAlive
    cases hAlive
  · exfalso
    apply hArgs
    refine ⟨?_, ?_, hBoth⟩
    · by_cases hZero : arch64 = 0
      · exact .inl hZero
      · exact .inr (hArch hZero)
    · by_cases hZero : nx = 0
      · exact .inl hZero
      · exact .inr (hNx hZero)

--
-- Refreshing
--

theorem spineIndex_lt
    (wide : Bool)
    (l : Nat) :
    spineIndex wide l < tableEntries wide := by
  unfold spineIndex tableEntries
  cases wide with
  | true =>
      rw [if_pos rfl, if_pos rfl]
      split <;> decide
  | false =>
      change arenaIndex false < 1024
      decide

theorem besideSpine_index
    {wide : Bool}
    (hl : l < spineDepth wide) :
    besideSpine wide l (spineIndex wide l) = false := by
  cases wide with
  | true => simp [besideSpine, spineIndex]
  | false =>
      have hZero : l = 0 := by
        change l < 1 at hl
        omega
      subst hZero
      decide

theorem spineDepth_le (wide : Bool) :
    spineDepth wide ≤ cloneCount wide := by
  cases wide <;> decide

theorem cloneCount_le (wide : Bool) :
    cloneCount wide ≤ spineDepth wide + 1 := by
  cases wide <;> decide

/- A refresh clones what is beside the spine once more. -/
theorem Spine.refresh
    (hSpine : Spine s mem seen)
    (hSound : Sound mapped s e)
    (hKept : ∀ l, l + 1 < cloneCount s.arch64 →
      leadsDown (entry s.arch64 (mem (s.lent l))
        (spineIndex s.arch64 l)) = true ∧
      address (entry s.arch64 (mem (s.lent l))
        (spineIndex s.arch64 l)) = s.lent (l + 1)) :
    Spine s
      (cloneFirst s s.arch64 (besideSpine s.arch64) mem
        (cloneCount s.arch64))
      (fun l => mem (s.lent l)) := by
  have hTables :
      cloneCount s.arch64 ≤ s.tables.length := by
    rw [hSpine.tables]
    exact cloneCount_le s.arch64
  have hBorrowed :
      cloneCount s.arch64 ≤ s.borrowed.length :=
    Nat.le_of_eq hSpine.borrowed.symm
  refine { hSpine with
    links := ?_
    beside := ?_
    pages := ?_
    kept := hKept }
  · intro l hl
    have hCloned :=
      Nat.lt_of_lt_of_le hl (spineDepth_le s.arch64)
    rw [cloneFirst_table hSound hTables hBorrowed hCloned,
      entry_cloneEntries (spineIndex_lt _ _),
      besideSpine_index hl]
    exact hSpine.links l hl
  · intro l hl i hi hBeside
    rw [cloneFirst_table hSound hTables hBorrowed hl,
      entry_cloneEntries hi, if_pos hBeside]
  · intro i hi
    cases hWide : s.arch64 with
    | true =>
        have hOther : ∀ l < cloneCount true,
            s.table 3 ≠ s.table l := by
          intro l hl
          change l < 3 at hl
          have hFour : s.tables.length = 4 := by
            rw [hSpine.tables, hWide]
            rfl
          exact table_ne hSound.tables (by omega) (by omega)
            (by omega)
        have hOld := hSpine.pages i hi
        rw [hWide] at hOld
        change entry true (cloneFirst s true _ mem _
          (s.table 3)) _ = _
        rw [cloneFirst_other hOther]
        exact hOld
    | false =>
        have hOld := hSpine.pages i hi
        rw [hWide] at hOld hTables hBorrowed
        have hLast : spineDepth false < cloneCount false := by
          decide
        have hInside :
            arenaStart false + i < tableEntries false := by
          change 512 + i < 1024
          change i < 512 at hi
          omega
        have hSkip : besideSpine false (spineDepth false)
            (arenaStart false + i) = false := by
          apply decide_eq_false
          omega
        rw [cloneFirst_table hSound hTables hBorrowed hLast,
          entry_cloneEntries hInside, hSkip]
        exact hOld

/- What a refresh ends in. -/
structure Refreshed
    (top : Nat)
    (x x' : KuWorld) : Prop where
  root : top = x.space.lent 0
  space : x'.space = x.space
  spine : Spine x'.space x'.mem
    (fun l => x.mem (x.space.lent l))
  kept : ∀ p, p ∉ x.space.tables → x'.mem p = x.mem p

theorem Spine.refreshed
    {top : Nat}
    (hSpine : Spine s mem seen)
    (hSound : Sound mapped s e)
    (hRoot : top = s.lent 0)
    (hKept : ∀ l, l + 1 < cloneCount s.arch64 →
      spineKept ⟨s, mem⟩ s.arch64 l
        (spineIndex s.arch64 l) = true) :
    Refreshed top ⟨s, mem⟩
      ⟨s, cloneFirst s s.arch64 (besideSpine s.arch64) mem
        (cloneCount s.arch64)⟩ where
  root := hRoot
  space := rfl
  spine := by
    refine hSpine.refresh hSound ?_
    intro l hl
    have hBoth := Bool.and_eq_true_iff.mp (hKept l hl)
    exact ⟨hBoth.1, eq_of_beq hBoth.2⟩
  kept := by
    intro p hNot
    refine cloneFirst_other ?_
    rintro l hl rfl
    apply hNot
    apply table_mem
    rw [hSpine.tables]
    exact Nat.lt_of_lt_of_le hl (cloneCount_le s.arch64)

theorem spec_kuRefresh
    {top : Nat}
    (hSound : Sound mapped s e)
    (hSpine : Spine s mem seen) :
    (kuRefresh mapped top).Spec (fun r x' e' =>
      e' = e ∧
        ((r = -1 ∧ x' = ⟨s, mem⟩) ∨
          (r = 0 ∧ Refreshed top ⟨s, mem⟩ x')))
      ⟨s, mem⟩ e := by
  unfold kuRefresh
  refine spec_state (spec_ite
    (fun _ => spec_pure ⟨rfl, .inl ⟨rfl, rfl⟩⟩) ?_)
  intro hLive
  have hRoot : top = s.lent 0 := by
    simp only [Bool.or_eq_true, bne_iff_ne, ne_eq, not_or,
      Decidable.not_not] at hLive
    exact hLive.2
  refine spec_ite ?_ ?_
  · intro hWide
    change s.arch64 = true at hWide
    refine spec_ite
      (fun _ => spec_pure ⟨rfl, .inl ⟨rfl, rfl⟩⟩) ?_
    intro hChecks
    simp only [Bool.or_eq_true, Bool.not_eq_true', not_or,
      Bool.not_eq_false] at hChecks
    have hDone := hSpine.refreshed hSound hRoot ?_
    · rw [hWide] at hDone
      refine spec_cloneTable (spec_cloneTable
        (spec_cloneTable (spec_pure ?_)))
      exact ⟨rfl, .inr ⟨rfl, hDone⟩⟩
    · rw [hWide]
      intro l hl
      change l + 1 < 3 at hl
      match l, hl with
      | 0, _ => exact hChecks.1.2
      | 1, _ => exact hChecks.2
  · intro hNarrow
    have hNarrow : s.arch64 = false := by simpa using hNarrow
    refine spec_ite
      (fun _ => spec_pure ⟨rfl, .inl ⟨rfl, rfl⟩⟩) ?_
    intro hChecks
    simp only [Bool.or_eq_true, Bool.not_eq_true', not_or,
      Bool.not_eq_false] at hChecks
    have hDone := hSpine.refreshed hSound hRoot ?_
    · rw [hNarrow] at hDone
      refine spec_cloneTable (spec_cloneTable (spec_pure ?_))
      exact ⟨rfl, .inr ⟨rfl, hDone⟩⟩
    · rw [hNarrow]
      intro l hl
      change l + 1 < 2 at hl
      match l, hl with
      | 0, _ => exact hChecks.2

--
-- Mapping
--

/- The arguments of `ku_map` that are not refused. -/
def mapArgs
    (s : KuSpace)
    (off rights : Nat) : Prop :=
  s.live = true ∧ s.pins = 0 ∧ off < kuSize ∧
    off % 4096 = 0 ∧ rightsOk rights = true ∧
    s.frames (off / 4096) = 0

/- A page was mapped, with a frame of its own. -/
structure Mapped
    (mapped : Nat → Bool)
    (off rights p : Nat)
    (x : KuWorld)
    (e : KuEnv)
    (x' : KuWorld)
    (e' : KuEnv) : Prop where
  granted : Granted mapped e p
  env : e' = (e.push (.alloc p)).push (.take p Buf.zero)
  space : x'.space = x.space.withPage (off / 4096) p rights
  sound : Sound mapped x'.space e'
  zero : x'.mem p = Buf.zero
  kept : ∀ q, q ≠ p → q ∉ x.space.tables →
    x'.mem q = x.mem q
  spine : ∀ seen, Spine x.space x.mem seen →
    Spine x'.space x'.mem seen

theorem arenaTable_eq (s : KuSpace) :
    s.arenaTable = s.table (spineDepth s.arch64) := by
  unfold KuSpace.arenaTable spineDepth
  rfl

theorem besideSpine_arena
    {wide : Bool}
    {l i : Nat}
    (hl : l < cloneCount wide)
    (hLast : l = spineDepth wide)
    (hBeside : besideSpine wide l i = true)
    (j : Nat) :
    i ≠ arenaStart wide + j := by
  cases wide with
  | true =>
      change l < 3 at hl
      change l = 3 at hLast
      omega
  | false =>
      change l = 1 at hLast
      subst hLast
      have hBelow : i < arenaStart false :=
        of_decide_eq_true hBeside
      omega

/- A new page changes no entry but its own. -/
theorem Spine.map
    {i p rights : Nat}
    {m : PhysMem}
    (hSpine : Spine s mem seen)
    (hSound : Sound mapped s e)
    (hDirect : direct mapped p = true)
    (hIndex : i < kuPages)
    (hRights : rightsOk rights = true)
    (hOther : ∀ q ∈ s.tables,
      q ≠ s.table (spineDepth s.arch64) → m q = mem q)
    (hThis : m (s.table (spineDepth s.arch64)) =
      putEntry s.arch64
        (mem (s.table (spineDepth s.arch64)))
        (arenaStart s.arch64 + i)
        (mapping p (pageFlags s.arch64 s.nx rights))) :
    Spine (s.withPage i p rights) m seen := by
  have hEntry : ∀ j,
      entry s.arch64 (m (s.table (spineDepth s.arch64))) j =
        if j = arenaStart s.arch64 + i then
          mapping p (pageFlags s.arch64 s.nx rights)
        else entry s.arch64
          (mem (s.table (spineDepth s.arch64))) j := by
    intro j
    rw [hThis]
    exact entry_putEntry
      (mapping_lt hDirect (pageFlags_lt _ _ _)) j
  have hTable : ∀ l < spineDepth s.arch64,
      m (s.table l) = mem (s.table l) := by
    intro l hl
    have hLow : l < s.tables.length := by
      rw [hSpine.tables]
      omega
    refine hOther _ (table_mem hLow) ?_
    refine table_ne hSound.tables hLow ?_ (Nat.ne_of_lt hl)
    rw [hSpine.tables]
    omega
  refine { hSpine with
    links := ?_
    beside := ?_
    pages := ?_
    noRights := ?_
    rights := ?_ }
  · intro l hl
    change entry s.arch64 (m (s.table l)) _ = _
    rw [hTable l hl]
    exact hSpine.links l hl
  · intro l hl j hj hBeside
    change l < cloneCount s.arch64 at hl
    have hLe := cloneCount_le s.arch64
    change entry s.arch64 (m (s.table l)) j = _
    rcases Nat.lt_or_ge l (spineDepth s.arch64) with
      hLow | hHigh
    · rw [hTable l hLow]
      exact hSpine.beside l hl j hj hBeside
    · have hLast : l = spineDepth s.arch64 := by omega
      have hNe := besideSpine_arena hl hLast hBeside i
      have hOld := hSpine.beside l hl j hj hBeside
      rw [hLast] at hOld ⊢
      rw [hEntry j, if_neg hNe]
      exact hOld
  · intro j hj
    change entry s.arch64
      (m (s.table (spineDepth s.arch64)))
        (arenaStart s.arch64 + j) = _
    rw [hEntry]
    by_cases hSame : j = i
    · subst hSame
      rw [if_pos rfl]
      simp [pageEntry, KuSpace.withPage,
        direct_ne_zero hDirect]
    · rw [if_neg (by omega), hSpine.pages j hj]
      simp [pageEntry, KuSpace.withPage,
        Function.update_of_ne hSame]
  · intro j hj hNone
    by_cases hSame : j = i
    · subst hSame
      simp [KuSpace.withPage, direct_ne_zero hDirect]
        at hNone
    · simp only [KuSpace.withPage,
        Function.update_of_ne hSame] at hNone ⊢
      exact hSpine.noRights j hj hNone
  · intro j hj hUsed
    by_cases hSame : j = i
    · subst hSame
      simpa [KuSpace.withPage] using hRights
    · simp only [KuSpace.withPage,
        Function.update_of_ne hSame] at hUsed ⊢
      exact hSpine.rights j hj hUsed

/- The end of `ku_map`. -/
theorem mapped_page
    {off rights p : Nat}
    (hSound : Sound mapped x.space e)
    (hGranted : Granted mapped e p)
    (hIndex : off / 4096 < kuPages)
    (hEmpty : x.space.frames (off / 4096) = 0)
    (hLive : x.space.live = true)
    (hRights : rightsOk rights = true)
    (hTables :
      spineDepth x.space.arch64 < x.space.tables.length) :
    Mapped mapped off rights p x e
      ⟨x.space.withPage (off / 4096) p rights,
        storeIn (Function.update x.mem p Buf.zero)
          x.space.arenaTable (fun b =>
            putEntry x.space.arch64 b
              (arenaStart x.space.arch64 + off / 4096)
              (mapping p (pageFlags x.space.arch64
                x.space.nx rights)))⟩
      ((e.push (.alloc p)).push (.take p Buf.zero)) := by
  have hNotTable : p ∉ x.space.tables :=
    fun hMem => hGranted.not_owned hSound (.inl hMem)
  have hArena : x.space.arenaTable ∈ x.space.tables := by
    rw [arenaTable_eq]
    exact table_mem hTables
  have hNe : x.space.arenaTable ≠ p := by
    rintro rfl
    exact hNotTable hArena
  constructor
  · exact hGranted
  · rfl
  · rfl
  · exact hSound.withPage hGranted hIndex hEmpty hLive rights
  · simp only [storeIn_ne _ _ hNe.symm,
      Function.update_self]
  · intro q hQ hTable
    have hNotArena : q ≠ x.space.arenaTable := by
      rintro rfl
      exact hTable hArena
    simp only [storeIn_ne _ _ hNotArena,
      Function.update_of_ne hQ]
  · intro seen hSpine
    refine hSpine.map hSound hGranted.usable hIndex hRights
      ?_ ?_
    · intro q hQ hOther
      have hQNe : q ≠ p := by
        rintro rfl
        exact hNotTable hQ
      rw [← arenaTable_eq] at hOther
      simp only [storeIn_ne _ _ hOther,
        Function.update_of_ne hQNe]
    · rw [← arenaTable_eq]
      simp only [storeIn_same, Function.update_of_ne hNe]

theorem spec_kuMap
    {off rights : Nat}
    (hSound : Sound mapped x.space e)
    (hTables : x.space.live = true →
      spineDepth x.space.arch64 < x.space.tables.length) :
    (kuMap mapped off rights).Spec (fun r x' e' =>
      (r = -1 ∧ x' = x ∧
        ((¬mapArgs x.space off rights ∧ e' = e) ∨
          (mapArgs x.space off rights ∧
            Denied mapped e e'))) ∨
      (r = 0 ∧ mapArgs x.space off rights ∧
        ∃ p, Mapped mapped off rights p x e x' e'))
      x e := by
  unfold kuMap
  refine spec_state (spec_ite ?_ ?_)
  · intro hRefused
    refine spec_pure (.inl ⟨rfl, rfl, .inl ⟨?_, rfl⟩⟩)
    rintro ⟨hLive, hPins, hOff, hAligned, hRights, -⟩
    simp [hLive, hPins, hAligned, hRights] at hRefused
    omega
  · intro hAccepted
    simp only [Bool.or_eq_true, Bool.not_eq_true',
      bne_iff_ne, decide_eq_true_eq, not_or,
      Bool.not_eq_false, ne_eq, Decidable.not_not,
      Nat.not_le] at hAccepted
    rcases hAccepted with
      ⟨⟨⟨⟨hLive, hPins⟩, hOff⟩, hAligned⟩, hRights⟩
    refine spec_ite ?_ ?_
    · intro hUsed
      refine spec_pure (.inl ⟨rfl, rfl, .inl ⟨?_, rfl⟩⟩)
      rintro ⟨-, -, -, -, -, hEmpty⟩
      rw [hEmpty] at hUsed
      cases hUsed
    · intro hEmpty
      have hEmpty : x.space.frames (off / 4096) = 0 := by
        simpa using hEmpty
      have hArgs : mapArgs x.space off rights :=
        ⟨hLive, hPins, hOff, hAligned, hRights, hEmpty⟩
      refine KuM.Spec.seq (spec_newFrame hSound) ?_
      rintro p x' e' (⟨rfl, rfl, hDenied⟩ |
        ⟨hGranted, rfl, rfl⟩)
      · exact spec_pure
          (.inl ⟨rfl, rfl, .inr ⟨hArgs, hDenied⟩⟩)
      · refine spec_ite ?_ ?_
        · intro hZero
          exact absurd (eq_of_beq hZero)
            (direct_ne_zero hGranted.usable)
        · intro _
          have hIndex : off / 4096 < kuPages := by
            change off < 0x200000 at hOff
            change off / 4096 < 512
            omega
          refine spec_take (spec_setSpace (spec_store
            (spec_pure (.inr ⟨rfl, hArgs, p, ?_⟩))))
          simp only [Function.update_self]
          exact mapped_page hSound hGranted hIndex hEmpty
            hLive hRights (hTables hLive)

end Tables

end KvantOS.User
