import KvantOS.User.Guarantees

/-
  This file says what the checks and copies of an address
  space do whatever lies in its page tables: what is checked
  is a walk of the tables, and what passes is copied exactly.

  Key definitions include:
    * `Grants`, `WalkTo`, `PageGranted`
    * `Filled`, `CopiesExact`

  Key theorems include:
    * `translate_iff`, `WalkTo.walk`, `kuCheck_pages`
    * `copyFrom_spec`, `copyTo_written`, `kuReach_copies`
-/

namespace KvantOS.User

open Paging

section Transfers

variable {mapped : Nat → Bool} {s : KuSpace} {mem : PhysMem}
variable {virt rights level frame target : Nat}
variable {tables : List Nat}

--
-- Walks
--

/- An entry grants rights to the program. -/
structure Grants
    (s : KuSpace)
    (rights e : Nat) : Prop where
  present : has e present = true
  user : has e user = true
  write : has rights kuW = true → has e writable = true
  exec : s.arch64 = true → has e noExec = true →
    s.nx = true ∧ has rights kuX = false

/-
  A walk from a table of some level to the frame of a page,
  in frames that the kernel can access; every entry on the
  way grants the rights, and none maps a large page.
-/
inductive WalkTo
    (mapped : Nat → Bool)
    (s : KuSpace)
    (mem : PhysMem)
    (virt rights : Nat) :
    (level frame target : Nat) → List Nat → Prop where
  | last
      {frame e : Nat}
      (hTable : direct mapped frame = true)
      (hEntry : entry s.arch64 (mem frame)
        (index s.arch64 0 virt) = e)
      (hGrants : Grants s rights e)
      (hSome : address e ≠ 0) :
      WalkTo mapped s mem virt rights 0 frame (address e)
        [frame]
  | next
      {level frame target e : Nat}
      {tables : List Nat}
      (hTable : direct mapped frame = true)
      (hEntry : entry s.arch64 (mem frame)
        (index s.arch64 (level + 1) virt) = e)
      (hGrants : Grants s rights e)
      (hSmall : has e large = false)
      (hRest : WalkTo mapped s mem virt rights level
        (address e) target tables) :
      WalkTo mapped s mem virt rights (level + 1) frame
        target (frame :: tables)

/- The entry that a step of the translation looks at. -/
def entryAt
    (s : KuSpace)
    (mem : PhysMem)
    (virt level frame : Nat) : Nat :=
  entry s.arch64 (mem frame) (index s.arch64 level virt)

theorem translateStep_eq_iff
    (hSome : target ≠ 0) :
    translateStep mapped s mem virt rights level frame =
        target ↔
      direct mapped frame = true ∧
        Grants s rights (entryAt s mem virt level frame) ∧
        (level ≠ 0 →
          has (entryAt s mem virt level frame) large =
            false) ∧
        address (entryAt s mem virt level frame) =
          target := by
  unfold translateStep entryAt
  dsimp only
  generalize entry s.arch64 (mem frame)
    (index s.arch64 level virt) = e
  cases hTable : direct mapped frame with
  | false =>
      rw [if_pos (by decide)]
      exact iff_of_false (Ne.symm hSome) (fun hAll => by
        cases hAll.1)
  | true =>
      rw [if_neg (by decide)]
      by_cases hBad : (!has e present || !has e user ||
          has rights kuW && !has e writable ||
          s.arch64 && has e noExec &&
            (!s.nx || has rights kuX) ||
          level != 0 && has e large) = true
      · rw [if_pos hBad]
        refine iff_of_false (Ne.symm hSome) ?_
        rintro ⟨-, hGrants, hLarge, -⟩
        simp only [hGrants.present, hGrants.user,
          Bool.not_true, Bool.false_or, Bool.or_eq_true,
          Bool.and_eq_true, Bool.not_eq_true',
          bne_iff_ne] at hBad
        rcases hBad with (⟨hAsked, hLacks⟩ | hExec) | hBig
        · rw [hGrants.write hAsked] at hLacks
          cases hLacks
        · obtain ⟨⟨hWide, hNo⟩, hWhy⟩ := hExec
          obtain ⟨hNx, hNone⟩ := hGrants.exec hWide hNo
          rw [hNx, hNone] at hWhy
          simp at hWhy
        · rw [hLarge hBig.1] at hBig
          cases hBig.2
      · rw [if_neg hBad]
        simp only [Bool.or_eq_true, Bool.and_eq_true,
          Bool.not_eq_true', not_or, not_and, bne_iff_ne,
          Bool.not_eq_false, Bool.not_eq_true] at hBad
        obtain ⟨⟨⟨⟨hPresent, hUser⟩, hWrite⟩, hExec⟩,
          hLarge⟩ := hBad
        refine ⟨fun hEq => ⟨rfl, ⟨hPresent, hUser, hWrite,
          fun hWide hNo => hExec ⟨hWide, hNo⟩⟩, hLarge, hEq⟩,
          fun hAll => hAll.2.2.2⟩

theorem WalkTo.table
    (hWalk : WalkTo mapped s mem virt rights level frame
      target tables) :
    direct mapped frame = true := by
  cases hWalk with
  | last hTable => exact hTable
  | next hTable => exact hTable

/- The translation finds what a walk leads to. -/
theorem translateFrom_eq_iff
    (hSome : target ≠ 0) :
    translateFrom mapped s mem virt rights level frame =
        target ↔
      ∃ tables, WalkTo mapped s mem virt rights level frame
        target tables := by
  induction level generalizing frame with
  | zero =>
      rw [translateFrom, translateStep_eq_iff hSome]
      constructor
      · rintro ⟨hTable, hGrants, -, rfl⟩
        exact ⟨_, .last hTable rfl hGrants hSome⟩
      · rintro ⟨tables, hWalk⟩
        cases hWalk with
        | last hTable hEntry hGrants hSome' =>
            subst hEntry
            exact ⟨hTable, hGrants, fun hNot =>
              absurd rfl hNot, rfl⟩
  | succ level ih =>
      rw [translateFrom]
      constructor
      · intro hEq
        by_cases hNone : translateStep mapped s mem virt
            rights (level + 1) frame = 0
        · rw [if_pos (by simp [hNone])] at hEq
          exact absurd hEq.symm hSome
        · rw [if_neg (by simpa using hNone)] at hEq
          obtain ⟨hTable, hGrants, hSmall, hNext⟩ :=
            (translateStep_eq_iff hNone).mp rfl
          rw [← hNext] at hEq
          obtain ⟨tables, hRest⟩ := ih.mp hEq
          exact ⟨_, .next hTable rfl hGrants
            (hSmall (Nat.succ_ne_zero _)) hRest⟩
      · rintro ⟨tables, hWalk⟩
        cases hWalk with
        | next hTable hEntry hGrants hSmall hRest =>
            subst hEntry
            have hStep := (translateStep_eq_iff
              (direct_ne_zero hRest.table)).mpr
                ⟨hTable, hGrants, fun _ => hSmall, rfl⟩
            rw [hStep, if_neg (by
              simpa using direct_ne_zero hRest.table)]
            exact ih.mpr ⟨_, hRest⟩

variable {e : Nat}

theorem address_frame
    (hSome : address e ≠ 0) :
    frameOf e = address e := by
  unfold address at hSome ⊢
  dsimp only at hSome ⊢
  split at hSome
  · rename_i hLow
    rw [if_pos hLow]
  · exact absurd rfl hSome

variable {j : Nat}

theorem index_page
    (wide : Bool)
    (level : Nat)
    (hAligned : 4096 ∣ virt)
    (hByte : j < 4096) :
    index wide level (virt + j) = index wide level virt := by
  obtain ⟨k, rfl⟩ := hAligned
  have hPage (n : Nat) :
      (4096 * k + j) / 2 ^ (12 + n) =
        4096 * k / 2 ^ (12 + n) := by
    rw [Nat.pow_add, ← Nat.div_div_eq_div_mul,
      ← Nat.div_div_eq_div_mul]
    have hFirst : (4096 * k + j) / 2 ^ 12 =
        4096 * k / 2 ^ 12 := by
      omega
    rw [hFirst]
  unfold index
  rw [hPage, hPage]

/- Code may run where the entries let it. -/
theorem Grants.runs
    (hGrants : Grants s rights e)
    (hBound : e < 2 ^ (8 * entryBytes s.arch64))
    (hExec : has rights kuX = true) :
    has e noExec = false := by
  by_contra hNo
  rw [Bool.not_eq_false] at hNo
  cases hWide : s.arch64 with
  | true =>
      have hNone := (hGrants.exec hWide hNo).2
      rw [hExec] at hNone
      cases hNone
  | false =>
      rw [hWide] at hBound
      rw [has_noExec, Nat.testBit_lt_two_pow
        (Nat.lt_trans hBound (by decide))] at hNo
      cases hNo

/- What the processor finds at a byte of a page. -/
structure Lets
    (rights phys : Nat)
    (leaf : Leaf) : Prop where
  phys : leaf.phys = phys
  user : leaf.user = true
  write : has rights kuW = true → leaf.writable = true
  exec : has rights kuX = true → leaf.noExec = false

/- The processor walks the same way. -/
theorem WalkTo.walk
    (hWalk : WalkTo mapped s mem virt rights level frame
      target tables)
    (hAligned : 4096 ∣ virt)
    (hTarget : 4096 ∣ target)
    (hByte : j < 4096) :
    ∃ leaf, Paging.walk s.arch64 mem level frame (virt + j) =
        some leaf ∧
      Lets rights (target + j) leaf := by
  have hIndex (level : Nat) :=
    index_page s.arch64 level hAligned hByte
  induction hWalk with
  | @last frame e hTable hEntry hGrants hSome =>
      have hBound := entry_lt s.arch64 (mem frame)
        (index s.arch64 0 virt)
      rw [hEntry] at hBound
      refine ⟨leafAt e 4096 (virt + j), ?_, ?_⟩
      · simp only [Paging.walk, hIndex, hEntry,
          hGrants.present, if_true]
      · refine ⟨?_, hGrants.user, hGrants.write,
          hGrants.runs hBound⟩
        unfold leafAt
        dsimp only
        rw [address_frame hSome]
        omega
  | @next level frame target e tables hTable hEntry hGrants
      hSmall hRest ih =>
      obtain ⟨leaf, hLeaf, hLets⟩ := ih hTarget
      have hBound := entry_lt s.arch64 (mem frame)
        (index s.arch64 (level + 1) virt)
      rw [hEntry] at hBound
      refine ⟨leaf.under e, ?_, hLets.phys, ?_, ?_, ?_⟩
      · simp only [Paging.walk, hIndex, hEntry,
          hGrants.present, hSmall,
          address_frame (direct_ne_zero hRest.table), hLeaf]
        rfl
      · unfold Leaf.under
        dsimp only
        rw [hGrants.user, hLets.user, Bool.and_true]
      · intro hAsked
        unfold Leaf.under
        dsimp only
        rw [hGrants.write hAsked, hLets.write hAsked,
          Bool.and_true]
      · intro hAsked
        unfold Leaf.under
        dsimp only
        rw [hGrants.runs hBound hAsked, hLets.exec hAsked,
          Bool.or_false]

/- A page has the rights, in its entry and on the way. -/
def PageGranted
    (mapped : Nat → Bool)
    (s : KuSpace)
    (mem : PhysMem)
    (i rights : Nat) : Prop :=
  s.rights i &&& rights = rights ∧
    direct mapped (s.frames i) = true ∧
    ∃ tables, WalkTo mapped s mem (kuBase + i * 4096) rights
      (topLevel s.arch64) s.root (s.frames i) tables

/- A translation is a walk to the frame of the page. -/
theorem translate_iff
    {i : Nat} :
    translate mapped s mem (i * 4096) rights ≠ 0 ↔
      direct mapped (s.frames i) = true ∧
        ∃ tables, WalkTo mapped s mem (kuBase + i * 4096)
          rights (topLevel s.arch64) s.root (s.frames i)
          tables := by
  have hPage : i * 4096 / 4096 = i := by omega
  unfold translate
  dsimp only
  rw [hPage]
  constructor
  · intro hSome
    split at hSome
    · rename_i hBoth
      rw [Bool.and_eq_true, beq_iff_eq] at hBoth
      obtain ⟨hEq, hDirect⟩ := hBoth
      rw [hEq] at hDirect
      exact ⟨hDirect, (translateFrom_eq_iff
        (direct_ne_zero hDirect)).mp hEq⟩
    · exact absurd rfl hSome
  · rintro ⟨hDirect, hWalk⟩
    have hSome := direct_ne_zero hDirect
    rw [(translateFrom_eq_iff hSome).mpr hWalk,
      if_pos (by simp [hDirect])]
    exact hSome

/- The check is one of every page that the range touches. -/
theorem kuCheck_pages
    {off length : Nat}
    (hLive : s.live = true)
    (hRights : rights ≠ 0)
    (hMask : rights &&& 0xFFFFFFF8 = 0) :
    kuCheck mapped s mem off length rights = true ↔
      off + length ≤ kuSize ∧
        (0 < length → ∀ i, off / 4096 ≤ i →
          i * 4096 < off + length →
            PageGranted mapped s mem i rights) := by
  rw [kuCheck_each hLive hRights hMask]
  simp only [PageGranted, translate_iff]

theorem kuCheck_rights
    {off length : Nat}
    (hBad : rights = 0 ∨ rights &&& 0xFFFFFFF8 ≠ 0) :
    kuCheck mapped s mem off length rights = false := by
  unfold kuCheck
  rw [if_pos]
  rcases hBad with hNone | hMore
  · simp [hNone]
  · simp [hMore]

--
-- Copies
--

variable {fuel off length : Nat}

/- The loop reads the bytes of its range in their order. -/
theorem copyFrom_spec
    {k : Nat}
    {dst : Buf}
    (hFuel : length ≤ fuel)
    (j : Nat) :
    copyFrom s mem fuel off length k dst j =
      if k ≤ j ∧ j < k + length then
        userByte s mem (off + (j - k))
      else
        dst j := by
  induction fuel generalizing off length k dst with
  | zero => rw [copyFrom, if_neg (by omega)]
  | succ fuel ih =>
      rw [copyFrom]
      by_cases hEmpty : length = 0
      · rw [if_pos (by simpa using hEmpty),
          if_neg (by omega)]
      · rw [if_neg (by simpa using hEmpty)]
        have hN : min (kuPage - off % 4096) length ≤ length ∧
            off % 4096 + min (kuPage - off % 4096) length ≤
              4096 ∧
            0 < min (kuPage - off % 4096) length := by
          change min (4096 - off % 4096) length ≤ length ∧
            off % 4096 + min (4096 - off % 4096) length ≤
              4096 ∧
            0 < min (4096 - off % 4096) length
          omega
        generalize min (kuPage - off % 4096) length = n at hN
        rw [ih (by omega)]
        by_cases hLate : k + n ≤ j ∧
            j < k + n + (length - n)
        · rw [if_pos hLate, if_pos (by omega)]
          congr 1
          omega
        · rw [if_neg hLate]
          unfold Buf.copy Buf.drop
          by_cases hEarly : k ≤ j ∧ j < k + n
          · rw [if_pos hEarly, if_pos (by omega)]
            unfold userByte
            have hPage : (off + (j - k)) / 4096 =
                off / 4096 := by
              omega
            have hByte : (off + (j - k)) % 4096 =
                off % 4096 + (j - k) := by
              omega
            rw [hPage, hByte]
          · rw [if_neg hEarly, if_neg (by omega)]

variable {src : Buf}

/- A copy changes no byte that is not of its range. -/
theorem copyTo_outside
    {p j : Nat}
    (hOut : ∀ o, off ≤ o → o < off + length →
      ¬(p = s.frames (o / 4096) ∧ j = o % 4096)) :
    copyTo s fuel off length src mem p j = mem p j := by
  induction fuel generalizing off length src mem with
  | zero => rfl
  | succ fuel ih =>
      by_cases hEmpty : length = 0
      · rw [copyTo, if_pos (by simpa using hEmpty)]
      · have hN : min (kuPage - off % 4096) length ≤ length ∧
            off % 4096 + min (kuPage - off % 4096) length ≤
              4096 := by
          change min (4096 - off % 4096) length ≤ length ∧
            off % 4096 + min (4096 - off % 4096) length ≤
              4096
          omega
        generalize hRound :
          min (kuPage - off % 4096) length = n at hN
        rw [copyTo_round s fuel src mem hEmpty hRound, ih]
        · by_cases hHere : p = s.frames (off / 4096)
          · subst hHere
            rw [Function.update_self]
            unfold Buf.copy
            rw [if_neg]
            rintro ⟨hFrom, hTo⟩
            refine hOut (off + (j - off % 4096)) (by omega)
              (by omega) ⟨?_, by omega⟩
            congr 1
            omega
          · rw [Function.update_of_ne hHere]
        · intro o hFrom hTo
          exact hOut o (by omega) (by omega)

/- The bytes of a range are those of a buffer, no others. -/
structure Filled
    (s : KuSpace)
    (mem : PhysMem)
    (off length : Nat)
    (src : Buf)
    (after : PhysMem) : Prop where
  inside : ∀ o, off ≤ o → o < off + length →
    userByte s after o = src (o - off)
  outside : ∀ p j, (∀ o, off ≤ o → o < off + length →
    ¬(p = s.frames (o / 4096) ∧ j = o % 4096)) →
      after p j = mem p j

theorem copyTo_written
    (hOneEach : OneEach s)
    (hRange : off + length ≤ kuSize)
    (hPaged : Paged s off length) :
    Filled s mem off length src
      (copyTo s length off length src mem) where
  inside := by
    intro o hFrom hTo
    rw [userByte_copyTo hOneEach (Nat.le_refl _) hRange hPaged
      (by omega), if_pos ⟨hFrom, hTo⟩]
  outside := fun _ _ hOut => copyTo_outside hOut

--
-- Reading Back
--

/- A walk that grants more, in memory with the same tables. -/
theorem WalkTo.again
    {mem' : PhysMem}
    {rights' : Nat}
    (hWalk : WalkTo mapped s mem virt rights level frame
      target tables)
    (hSame : ∀ t ∈ tables, mem' t = mem t)
    (hFewer : ∀ e, Grants s rights e → Grants s rights' e) :
    WalkTo mapped s mem' virt rights' level frame target
      tables := by
  induction hWalk with
  | last hTable hEntry hGrants hSome =>
      rw [List.forall_mem_singleton] at hSame
      rw [← hSame] at hEntry
      exact .last hTable hEntry (hFewer _ hGrants) hSome
  | next hTable hEntry hGrants hSmall hRest ih =>
      rw [List.forall_mem_cons] at hSame
      rw [← hSame.1] at hEntry
      exact .next hTable hEntry (hFewer _ hGrants) hSmall
        (ih hSame.2)

theorem Grants.reads
    (hGrants : Grants s (kuR ||| kuW) e) :
    Grants s kuR e where
  present := hGrants.present
  user := hGrants.user
  write := fun hAsked => absurd hAsked (by decide)
  exec := fun hWide hNo =>
    ⟨(hGrants.exec hWide hNo).1, by decide⟩

/- Who may read and write may read. -/
theorem rights_read
    (hBoth : rights &&& (kuR ||| kuW) = kuR ||| kuW) :
    rights &&& kuR = kuR := by
  have hLess : (kuR ||| kuW) &&& kuR = kuR := by decide
  calc
    rights &&& kuR = rights &&& ((kuR ||| kuW) &&& kuR) := by
      rw [hLess]
    _ = rights &&& (kuR ||| kuW) &&& kuR :=
      (Nat.and_assoc _ _ _).symm
    _ = kuR := by rw [hBoth, hLess]

/- The pages that a range touches. -/
def Touches
    (off length i : Nat) : Prop :=
  off / 4096 ≤ i ∧ i * 4096 < off + length

/- No frame of a range is a table for a page of it. -/
def TablesApart
    (mapped : Nat → Bool)
    (s : KuSpace)
    (mem : PhysMem)
    (off length rights : Nat) : Prop :=
  ∀ i tables, Touches off length i →
    WalkTo mapped s mem (kuBase + i * 4096) rights
      (topLevel s.arch64) s.root (s.frames i) tables →
    ∀ k, Touches off length k → s.frames k ∉ tables

/- What checks and copies do, whatever lies in the memory. -/
structure CopiesExact
    (mapped : Nat → Bool)
    (s : KuSpace)
    (mem : PhysMem) : Prop where
  check : ∀ off length rights,
    kuCheck mapped s mem off length rights = true ↔
      (rights ≠ 0 ∧ rights &&& 0xFFFFFFF8 = 0) ∧
        off + length ≤ kuSize ∧
        (0 < length → ∀ i, Touches off length i →
          PageGranted mapped s mem i rights)
  granted : ∀ i rights, PageGranted mapped s mem i rights →
    ∀ j < 4096, ∃ leaf,
      Paging.walk s.arch64 mem (topLevel s.arch64) s.root
        (kuBase + i * 4096 + j) = some leaf ∧
      Lets rights (s.frames i + j) leaf
  copyin : ∀ dst off length,
    if kuCheck mapped s mem off length kuR then
      ∃ r, kuCopyin mapped s mem dst off length = some r ∧
        ∀ j, r j = if j < length then
          userByte s mem (off + j) else dst j
    else
      kuCopyin mapped s mem dst off length = none
  copyout : ∀ off src length,
    if kuCheck mapped s mem off length (kuR ||| kuW) then
      ∃ after, kuCopyout mapped s mem off src length =
          some after ∧
        Filled s mem off length src after
    else
      kuCopyout mapped s mem off src length = none
  load : ∀ off src length,
    if s.pins = 0 ∧ kuCheck mapped s mem off length kuR then
      ∃ after, kuLoad mapped off src length ⟨s, mem⟩ =
          .ret (0, ⟨s, after⟩) ∧
        Filled s mem off length src after
    else
      kuLoad mapped off src length ⟨s, mem⟩ =
        .ret (-1, ⟨s, mem⟩)
  back : ∀ off src length after dst r,
    kuCopyout mapped s mem off src length = some after →
      kuCopyin mapped s after dst off length = some r →
        ∀ j < length, r j = src j
  again : ∀ off src length after dst,
    kuCopyout mapped s mem off src length = some after →
      TablesApart mapped s mem off length (kuR ||| kuW) →
        (kuCopyin mapped s after dst off length).isSome

/- What passes the check has frames. -/
theorem kuCheck_paged
    (hLive : s.live = true)
    (hRights : rights ≠ 0)
    (hMask : rights &&& 0xFFFFFFF8 = 0)
    (hSome : 0 < length)
    (hCheck : kuCheck mapped s mem off length rights = true) :
    off + length ≤ kuSize ∧ Paged s off length := by
  obtain ⟨hRange, hPages⟩ :=
    (kuCheck_pages hLive hRights hMask).mp hCheck
  exact ⟨hRange, fun i hFrom hBelow =>
    direct_ne_zero (hPages hSome i hFrom hBelow).2.1⟩

theorem kuCheck_written
    (hOneEach : OneEach s)
    (hLive : s.live = true)
    (hRights : rights ≠ 0)
    (hMask : rights &&& 0xFFFFFFF8 = 0)
    (hCheck : kuCheck mapped s mem off length rights = true) :
    Filled s mem off length src
      (copyTo s length off length src mem) := by
  by_cases hSome : 0 < length
  · obtain ⟨hRange, hPaged⟩ :=
      kuCheck_paged hLive hRights hMask hSome hCheck
    exact copyTo_written hOneEach hRange hPaged
  · obtain rfl : length = 0 := by omega
    exact ⟨by omega, fun _ _ _ => rfl⟩

/- The tables of a range are as they were before a copy. -/
theorem PageGranted.again
    {i : Nat}
    (hGranted : PageGranted mapped s mem i (kuR ||| kuW))
    (hApart : TablesApart mapped s mem off length
      (kuR ||| kuW))
    (hTouches : Touches off length i) :
    PageGranted mapped s
      (copyTo s length off length src mem) i kuR := by
  obtain ⟨hRights, hDirect, tables, hWalk⟩ := hGranted
  refine ⟨?_, hDirect, tables, hWalk.again ?_
    fun e hGrants => hGrants.reads⟩
  · exact rights_read hRights
  · intro t hTable
    refine copyTo_other fun k hFrom hBelow hSame => ?_
    exact hApart i tables hTouches hWalk k ⟨hFrom, hBelow⟩
      (hSame ▸ hTable)

/- Copies are exact in any memory. -/
theorem copiesExact
    (hOneEach : OneEach s)
    (hLive : s.live = true)
    (mem : PhysMem) :
    CopiesExact mapped s mem where
  check := by
    intro off length rights
    by_cases hValid :
        rights ≠ 0 ∧ rights &&& 0xFFFFFFF8 = 0
    · rw [kuCheck_pages hLive hValid.1 hValid.2,
        and_iff_right hValid]
      simp only [Touches, and_imp]
    · rw [kuCheck_rights (by tauto)]
      exact iff_of_false nofun (fun hAll => hValid hAll.1)
  granted := by
    rintro i rights ⟨-, hDirect, tables, hWalk⟩ j hj
    refine hWalk.walk ?_ (direct_aligned hDirect).1 hj
    change 4096 ∣ 0xE00000 + i * 4096
    omega
  copyin := by
    intro dst off length
    unfold kuCopyin
    split
    · refine ⟨_, rfl, fun j => ?_⟩
      rw [copyFrom_spec (Nat.le_refl _)]
      simp
    · rfl
  copyout := by
    intro off src length
    unfold kuCopyout
    split
    · rename_i hCheck
      exact ⟨_, rfl, kuCheck_written hOneEach hLive
        (by decide) (by decide) hCheck⟩
    · rfl
  load := by
    intro off src length
    have hRun : kuLoad mapped off src length ⟨s, mem⟩ =
        if s.pins != 0 ||
            !kuCheck mapped s mem off length kuR then
          .ret (-1, ⟨s, mem⟩)
        else
          .ret (0, ⟨s, copyTo s length off length src mem⟩) := by
      show (if _ then _ else _ : KuM Int) ⟨s, mem⟩ = _
      split
      · rfl
      · rfl
    rw [hRun]
    by_cases hReady : s.pins = 0 ∧
        kuCheck mapped s mem off length kuR = true
    · rw [if_pos hReady,
        if_neg (by simp [hReady.1, hReady.2])]
      exact ⟨_, rfl, kuCheck_written hOneEach hLive
        (by decide) (by decide) hReady.2⟩
    · rw [if_neg hReady, if_pos]
      rw [Bool.or_eq_true, bne_iff_ne, Bool.not_eq_true',
        ← Bool.not_eq_true]
      tauto
  back := by
    intro off src length after dst r hOut hIn j hj
    unfold kuCopyout at hOut
    unfold kuCopyin at hIn
    split at hOut
    · rename_i hCheck
      obtain rfl := Option.some.inj hOut
      split at hIn
      · obtain rfl := Option.some.inj hIn
        have hWritten : Filled s mem off length src
            (copyTo s length off length src mem) :=
          kuCheck_written hOneEach hLive (by decide)
            (by decide) hCheck
        rw [copyFrom_spec (Nat.le_refl _), if_pos (by omega),
          hWritten.inside _ (by omega) (by omega)]
        congr 1
        omega
      · cases hIn
    · cases hOut
  again := by
    intro off src length after dst hOut hApart
    unfold kuCopyout at hOut
    split at hOut
    · rename_i hCheck
      obtain rfl := Option.some.inj hOut
      obtain ⟨hRange, hPages⟩ := (kuCheck_pages hLive
        (by decide) (by decide)).mp hCheck
      unfold kuCopyin
      rw [if_pos]
      · rfl
      · refine (kuCheck_pages hLive (by decide)
          (by decide)).mpr ⟨hRange, fun hSome i hFrom hTo => ?_⟩
        exact (hPages hSome i hFrom hTo).again hApart
          ⟨hFrom, hTo⟩
    · cases hOut

end Transfers

--
-- Spaces
--

/- In a space whose tables are its own, a copy is read back. -/
theorem Spine.readBack
    {mapped : Nat → Bool}
    {s : KuSpace} {e : KuEnv}
    {mem after : PhysMem} {seen : Nat → Buf}
    {off length : Nat}
    {src : Buf}
    (hSpine : Spine s mem seen)
    (hSound : Sound mapped s e)
    (hLive : s.live = true)
    (hOut : kuCopyout mapped s mem off src length =
      some after)
    (dst : Buf) :
    (kuCopyin mapped s after dst off length).isSome := by
  unfold kuCopyout at hOut
  split at hOut
  · rename_i hCheck
    obtain rfl := Option.some.inj hOut
    have hKept : Spine s
        (copyTo s length off length src mem) seen :=
      hSpine.userWrite hSound fun p hForeign =>
        kuCheck_copyTo hSpine hSound (by decide) (by decide)
          hCheck hForeign
    obtain ⟨hRange, hAllows⟩ := (kuCheck_iff hSpine hSound
      hLive (by decide) (by decide)).mp hCheck
    unfold kuCopyin
    rw [if_pos]
    · rfl
    · refine (kuCheck_iff hKept hSound hLive (by decide)
        (by decide)).mpr ⟨hRange, fun hSome i hFrom hTo => ?_⟩
      exact rights_read (hAllows hSome i hFrom hTo)
  · cases hOut

/-
  In every live space that calls lead to, checks and copies
  are exact whatever lies in the memory, the page tables
  among it; and in the memory that the calls left a copy is
  read back.
-/
theorem kuReach_copies
    {mapped : Nat → Bool}
    {x : KuWorld} {e : KuEnv}
    {past : PhysMem}
    (hReach : KuReach mapped x e past)
    (hLive : x.space.live = true) :
    (∀ mem, CopiesExact mapped x.space mem) ∧
      ∀ off src length after dst,
        kuCopyout mapped x.space x.mem off src length =
            some after →
          ∃ r, kuCopyin mapped x.space after dst off length =
              some r ∧
            ∀ j < length, r j = src j := by
  have hKept := hReach.keeps
  have hAll (mem : PhysMem) :
      CopiesExact mapped x.space mem :=
    copiesExact hKept.sound.pages hLive mem
  refine ⟨hAll, fun off src length after dst hOut => ?_⟩
  have hSome := (hKept.spine hLive).readBack hKept.sound hLive
    hOut dst
  obtain ⟨r, hIn⟩ := Option.isSome_iff_exists.mp hSome
  exact ⟨r, hIn, (hAll x.mem).back off src length after dst r
    hOut hIn⟩

/- In the small kernel's space. -/
theorem kuReach_copies_boot :
    ∃ x e, Booted x e ∧
      (∀ mem, CopiesExact allMapped x.space mem) ∧
        ∀ off src length after dst,
          kuCopyout allMapped x.space x.mem off src length =
              some after →
            ∃ r, kuCopyin allMapped x.space after dst off
                length = some r ∧
              ∀ j < length, r j = src j := by
  rcases booted_exists with ⟨x, e, hBooted⟩
  exact ⟨x, e, hBooted,
    kuReach_copies hBooted.reach hBooted.live⟩

/- A page for data is mapped. -/
theorem Booted.map
    {x : KuWorld} {e : KuEnv}
    (hBooted : Booted x e) :
    KuReach allMapped
      (counted ((KuCall.map 0 3).run allMapped) x e).1.2
      (counted ((KuCall.map 0 3).run allMapped) x e).2
      rootTable := by
  have hRun := (returns_counted
    ((KuCall.map 0 3).run allMapped) x hBooted.below).1
  have hReach := hBooted.reach.call (c := .map 0 3) trivial
    hRun
  have hKeeps : (KuCall.map 0 3).clones = false := rfl
  rwa [KuCall.past, hKeeps, Bool.false_and,
    if_neg Bool.false_ne_true] at hReach

def mappedSpace : (Int × KuWorld) × KuEnv :=
  counted ((KuCall.map 0 3).run allMapped) bootSpace.1.2
    bootSpace.2

/- Memory in which the page is its own last table. -/
def aliasedMem : PhysMem :=
  fun p =>
    if p = 0x10000 then
      putEntry false Buf.zero 3 (mapping 0x14000 7)
    else if p = 0x14000 then
      putEntry false Buf.zero 512 (mapping 0x14000 7)
    else
      Buf.zero

/- What is written there takes the page out of the tables. -/
theorem copyout_unreadable :
    ¬∀ mapped x e past, KuReach mapped x e past →
      x.space.live = true →
      ∀ mem off src length after dst,
        kuCopyout mapped x.space mem off src length =
            some after →
          ∃ r, kuCopyin mapped x.space after dst off length =
              some r ∧
            ∀ j < length, r j = src j := by
  intro hAll
  have hReach : KuReach allMapped mappedSpace.1.2
      mappedSpace.2 rootTable := by
    unfold mappedSpace
    exact booted_bootSpace.map
  have hLive : mappedSpace.1.2.space.live = true := by
    decide +kernel
  have hFirst : kuCheck allMapped mappedSpace.1.2.space
      aliasedMem 2048 4 (kuR ||| kuW) = true := by
    decide +kernel
  have hThen : kuCheck allMapped mappedSpace.1.2.space
      (copyTo mappedSpace.1.2.space 4 2048 4 Buf.zero
        aliasedMem) 2048 4 kuR = false := by
    decide +kernel
  obtain ⟨r, hIn, -⟩ := hAll _ _ _ _ hReach hLive aliasedMem
    2048 Buf.zero 4 _ Buf.zero
    (by
      unfold kuCopyout
      rw [if_pos hFirst])
  unfold kuCopyin at hIn
  rw [hThen] at hIn
  cases hIn

end KvantOS.User
