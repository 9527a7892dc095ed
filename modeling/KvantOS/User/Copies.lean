import KvantOS.User.Isolation

/-
  This file says when the kernel may copy to and from the
  pages of a program, and what such a copy changes.

  Key definitions include:
    * `userByte`, `Allows`

  Key theorems include:
    * `translate_page`, `kuCheck_iff`, `userByte_copyTo`
    * `copyTo_other`
-/

namespace KvantOS.User

open Paging

section Copies

variable {mapped : Nat → Bool} {s : KuSpace} {e : KuEnv}
variable {mem : PhysMem} {seen : Nat → Buf}

--
-- Translation
--

theorem address_mapping
    {p flags : Nat}
    (hDirect : direct mapped p = true)
    (hFlags : ∀ k, 12 ≤ k → k < 52 →
      flags.testBit k = false) :
    address (mapping p flags) = p := by
  rcases direct_aligned hDirect with ⟨hAligned, hLimit⟩
  have hFrame := frameOf_mapping hAligned
    (Nat.lt_trans hLimit (by decide)) hFlags
  rw [address, hFrame]
  exact if_pos hLimit

/- A link translates to the next table. -/
theorem translateStep_link
    {virt rights level frame next : Nat}
    (hFrame : direct mapped frame = true)
    (hNext : direct mapped next = true)
    (hEntry :
      entry s.arch64 (mem frame)
        (index s.arch64 level virt) =
          mapping next linkFlags) :
    translateStep mapped s mem virt rights level frame =
      next := by
  rcases direct_aligned hNext with ⟨hAligned, hLimit⟩
  have hBound : next < 2 ^ 52 :=
    Nat.lt_trans hLimit (by decide)
  have hAddress : address (mapping next linkFlags) = next :=
    address_mapping hNext
      (fun _ hLow _ => testBit_linkFlags_high (by omega))
  simp [translateStep, hFrame, hEntry,
    has_user_link hAligned, has_writable_link hAligned,
    has_noExec_link hBound, has_present_link hAligned,
    has_large_link hAligned, hAddress]

/- The rights that a page lacks are not asked for. -/
theorem has_of_and_eq
    {granted asked flag : Nat}
    (hAsked : granted &&& asked = asked)
    (hFlag : has asked (2 ^ flag) = true) :
    has granted (2 ^ flag) = true := by
  rw [has_two_pow] at hFlag ⊢
  rw [← hAsked, Nat.testBit_and] at hFlag
  exact (Bool.and_eq_true_iff.mp hFlag).1

/- The entry of a page translates to its frame. -/
theorem translateStep_page
    {virt rights frame i : Nat}
    (hSound : Sound mapped s e)
    (hFrame : direct mapped frame = true)
    (hIndex : i < kuPages)
    (hUsed : s.frames i ≠ 0)
    (hRights : s.rights i &&& rights = rights)
    (hEntry :
      entry s.arch64 (mem frame) (index s.arch64 0 virt) =
        pageEntry s i) :
    translateStep mapped s mem virt rights 0 frame =
      s.frames i := by
  have hDirect := hSound.usable _
    (.inr ⟨i, hIndex, rfl, hUsed⟩)
  have hLeaf := @leafAt_page mapped (s.frames i)
    (s.rights i) 0 s.arch64 s.nx hDirect
  simp only [leafAt, Leaf.mk.injEq] at hLeaf
  rcases hLeaf with ⟨-, hUser, hWritable, hNoExec⟩
  rw [pageEntry, if_neg hUsed] at hEntry
  have hAddress : address (mapping (s.frames i)
      (pageFlags s.arch64 s.nx (s.rights i))) =
        s.frames i := by
    apply address_mapping hDirect
    intro k hLow hHigh
    rw [testBit_pageFlags]
    have h0 : k ≠ 0 := by omega
    have h1 : k ≠ 1 := by omega
    have h2 : k ≠ 2 := by omega
    have h3 : k ≠ 63 := by omega
    simp [h0, h1, h2, h3]
  have hWrite : has rights kuW = true →
      has (s.rights i) kuW = true :=
    @has_of_and_eq _ _ 1 hRights
  have hExec : has rights kuX = true →
      has (s.rights i) kuX = true :=
    @has_of_and_eq _ _ 2 hRights
  simp only [translateStep, hFrame, hEntry, hUser,
    hWritable, hNoExec, has_present_page hDirect, hAddress,
    Bool.not_true, Bool.false_or, Bool.false_eq_true,
    if_false, bne_self_eq_false, Bool.false_and,
    Bool.or_false]
  rw [if_neg]
  intro hBad
  rcases Bool.or_eq_true_iff.mp hBad with hBad | hBad
  · rcases Bool.and_eq_true_iff.mp hBad with
      ⟨hAsked, hLacks⟩
    rw [hWrite hAsked] at hLacks
    cases hLacks
  · simp only [Bool.and_eq_true, Bool.or_eq_true,
      Bool.not_eq_true'] at hBad
    rcases hBad with ⟨⟨-, ⟨-, hNx⟩, hLacks⟩, hNone | hAsked⟩
    · rw [hNx] at hNone
      cases hNone
    · rw [hExec hAsked] at hLacks
      cases hLacks

theorem Sound.table_direct
    (hSound : Sound mapped s e)
    {l : Nat}
    (hl : l < s.tables.length) :
    direct mapped (s.table l) = true :=
  hSound.usable _ (.inl (table_mem hl))

/- The translation goes down the spine to the last table. -/
theorem translateFrom_spine
    {virt rights : Nat}
    (hSpine : Spine s mem seen)
    (hSound : Sound mapped s e)
    (hIndex : ∀ l < spineDepth s.arch64,
      index s.arch64 (spineDepth s.arch64 - l) virt =
        spineIndex s.arch64 l)
    {n : Nat}
    (hn : n ≤ spineDepth s.arch64) :
    translateFrom mapped s mem virt rights
        (spineDepth s.arch64) s.root =
      translateFrom mapped s mem virt rights
        (spineDepth s.arch64 - n) (s.table n) := by
  induction n with
  | zero => rw [hSpine.root, Nat.sub_zero]
  | succ n ih =>
      have hTable : n < s.tables.length := by
        rw [hSpine.tables]
        omega
      have hTable' : n + 1 < s.tables.length := by
        rw [hSpine.tables]
        omega
      have hLevel : spineDepth s.arch64 - n =
          spineDepth s.arch64 - (n + 1) + 1 := by
        omega
      have hEntry := hSpine.links n hn
      rw [← hIndex n hn, hLevel] at hEntry
      have hNext := hSound.table_direct hTable'
      have hStep := @translateStep_link mapped s mem virt
        rights _ _ _ (hSound.table_direct hTable) hNext
        hEntry
      rw [ih (Nat.le_of_succ_le hn), hLevel, translateFrom,
        hStep]
      exact if_neg (by
        simpa using direct_ne_zero hNext)

/- A page translates to its frame for what it allows. -/
theorem translate_page
    {i rights : Nat}
    (hSpine : Spine s mem seen)
    (hSound : Sound mapped s e)
    (hIndex : i < kuPages)
    (hUsed : s.frames i ≠ 0)
    (hRights : s.rights i &&& rights = rights) :
    translate mapped s mem (i * 4096) rights =
      s.frames i := by
  have hArena : InArena (kuBase + i * 4096) := by
    change i < 512 at hIndex
    change 0xE00000 ≤ 0xE00000 + i * 4096 ∧
      0xE00000 + i * 4096 < 0x1000000
    omega
  rcases @index_arena s.arch64 _ hArena with ⟨hPath, hLast⟩
  have hPage : (kuBase + i * 4096 - kuBase) / 4096 = i := by
    omega
  have hDirect := hSound.usable _
    (.inr ⟨i, hIndex, rfl, hUsed⟩)
  have hTable : spineDepth s.arch64 < s.tables.length := by
    rw [hSpine.tables]
    omega
  have hEntry := hSpine.pages i hIndex
  rw [hPage] at hLast
  rw [← hLast] at hEntry
  have hWalk := @translateFrom_spine mapped s e mem seen _
    rights hSpine hSound hPath _ (Nat.le_refl _)
  rw [Nat.sub_self] at hWalk
  have hStep := @translateStep_page mapped s e mem _ rights
    _ i hSound (hSound.table_direct hTable) hIndex hUsed
    hRights hEntry
  have hFrom : translateFrom mapped s mem
      (kuBase + i * 4096) rights (topLevel s.arch64) s.root =
        s.frames i :=
    hWalk.trans hStep
  have hBack : i * 4096 / 4096 = i := by omega
  rw [translate, hFrom, hBack]
  simp [hDirect]

--
-- Checks
--

/- Every page of a range has some rights. -/
def Allows
    (s : KuSpace)
    (off length rights : Nat) : Prop :=
  ∀ i, off / 4096 ≤ i → i * 4096 < off + length →
    s.rights i &&& rights = rights

variable {off length rights : Nat}

/-
  `ku_check` asks of every page that the range touches for
  its rights, and that it translates.
-/
theorem kuCheck_each
    (hLive : s.live = true)
    (hRights : rights ≠ 0)
    (hMask : rights &&& 0xFFFFFFF8 = 0) :
    kuCheck mapped s mem off length rights = true ↔
      off + length ≤ kuSize ∧
        (0 < length → ∀ i, off / 4096 ≤ i →
          i * 4096 < off + length →
            s.rights i &&& rights = rights ∧
              translate mapped s mem (i * 4096) rights ≠
                0) := by
  have hRights' : (rights == 0) = false := by
    simpa using hRights
  unfold kuCheck
  simp only [hLive, hRights', hMask, Bool.not_true,
    Bool.false_or, bne_self_eq_false]
  by_cases hRange : off + length ≤ kuSize
  · rw [if_neg (by
      simp only [Bool.or_eq_true, decide_eq_true_eq]
      omega)]
    by_cases hEmpty : length = 0
    · simp [hEmpty, show off ≤ kuSize by omega]
    · have hPos : 0 < length := Nat.pos_of_ne_zero hEmpty
      rw [if_neg (by simpa using hEmpty),
        forall_prop_of_true hPos,
        and_iff_right hRange]
      simp only [List.all_eq_true, List.mem_range,
        Bool.and_eq_true, beq_iff_eq, bne_iff_ne]
      constructor
      · intro hAll i hFrom hBelow
        have hPage := hAll (i - off / 4096) (by omega)
        rwa [Nat.add_sub_cancel' hFrom] at hPage
      · intro hAll k hk
        exact hAll (off / 4096 + k) (by omega) (by omega)
  · rw [if_pos (by
      simp only [Bool.or_eq_true, decide_eq_true_eq]
      omega)]
    exact iff_of_false nofun (fun hAll => hRange hAll.1)

/-
  What `ku_check` accepts is what the rights of the pages
  allow; the contents of the memory do not matter.
-/
theorem kuCheck_iff
    {off length rights : Nat}
    (hSpine : Spine s mem seen)
    (hSound : Sound mapped s e)
    (hLive : s.live = true)
    (hRights : rights ≠ 0)
    (hMask : rights &&& 0xFFFFFFF8 = 0) :
    kuCheck mapped s mem off length rights = true ↔
      off + length ≤ kuSize ∧
        (0 < length → Allows s off length rights) := by
  rw [kuCheck_each hLive hRights hMask]
  constructor
  · rintro ⟨hRange, hAll⟩
    exact ⟨hRange, fun hPos i hFrom hBelow =>
      (hAll hPos i hFrom hBelow).1⟩
  · rintro ⟨hRange, hAllows⟩
    refine ⟨hRange, fun hPos i hFrom hBelow => ?_⟩
    have hPage := hAllows hPos i hFrom hBelow
    refine ⟨hPage, ?_⟩
    have hIndex : i < kuPages := by
      change off + length ≤ 0x200000 at hRange
      change i < 512
      omega
    have hUsed : s.frames i ≠ 0 := by
      intro hNone
      rw [hSpine.noRights _ hIndex hNone, Nat.zero_and]
        at hPage
      exact hRights hPage.symm
    rw [translate_page hSpine hSound hIndex hUsed hPage]
    exact hUsed

--
-- Copying
--

/- The byte at an offset of the arena. -/
def userByte
    (s : KuSpace)
    (mem : PhysMem)
    (off : Nat) : UInt8 :=
  mem (s.frames (off / 4096)) (off % 4096)

/- Every page of a range has a frame. -/
def Paged
    (s : KuSpace)
    (off length : Nat) : Prop :=
  ∀ i, off / 4096 ≤ i → i * 4096 < off + length →
    s.frames i ≠ 0

/- No frame is used for two pages. -/
def OneEach (s : KuSpace) : Prop :=
  ∀ i < kuPages, ∀ j < kuPages,
    s.frames i ≠ 0 → s.frames i = s.frames j → i = j

variable {src : Buf}

/- One round of the loop changes its part of the page. -/
theorem userByte_round
    {off n o : Nat}
    (hOneEach : OneEach s)
    (hPage : off / 4096 < kuPages)
    (hUsed : s.frames (off / 4096) ≠ 0)
    (hInside : off % 4096 + n ≤ 4096)
    (hOffset : o < kuSize) :
    userByte s
        (Function.update mem (s.frames (off / 4096))
          ((mem (s.frames (off / 4096))).copy (off % 4096)
            src n)) o =
      if off ≤ o ∧ o < off + n then src (o - off)
      else userByte s mem o := by
  have hPage' : o / 4096 < kuPages := by
    change o < 0x200000 at hOffset
    change o / 4096 < 512
    omega
  unfold userByte
  by_cases hSame : o / 4096 = off / 4096
  · rw [hSame, Function.update_self, Buf.copy]
    by_cases hIn : off ≤ o ∧ o < off + n
    · have hIn' : off % 4096 ≤ o % 4096 ∧
          o % 4096 < off % 4096 + n := by
        omega
      rw [if_pos hIn, if_pos hIn']
      congr 1
      omega
    · have hIn' : ¬(off % 4096 ≤ o % 4096 ∧
          o % 4096 < off % 4096 + n) := by
        omega
      rw [if_neg hIn, if_neg hIn']
  · have hNe : s.frames (o / 4096) ≠
        s.frames (off / 4096) := by
      intro hFrames
      exact hSame (hOneEach _ hPage _ hPage' hUsed
        hFrames.symm).symm
    have hOut : ¬(off ≤ o ∧ o < off + n) := by omega
    rw [Function.update_of_ne hNe, if_neg hOut]

/- One round copies what fits in the page and goes on. -/
theorem copyTo_round
    (s : KuSpace)
    (fuel : Nat)
    {off length n : Nat}
    (src : Buf)
    (mem : PhysMem)
    (hLength : length ≠ 0)
    (hN : min (kuPage - off % 4096) length = n) :
    copyTo s (fuel + 1) off length src mem =
      copyTo s fuel (off + n) (length - n) (src.drop n)
        (Function.update mem (s.frames (off / 4096))
          ((mem (s.frames (off / 4096))).copy (off % 4096)
            src n)) := by
  subst hN
  rw [copyTo, if_neg (by simpa using hLength)]

/- A copy changes exactly the bytes of its range. -/
theorem userByte_copyTo
    {fuel off length o : Nat}
    {src : Buf}
    (hOneEach : OneEach s)
    (hFuel : length ≤ fuel)
    (hRange : off + length ≤ kuSize)
    (hPaged : Paged s off length)
    (hOffset : o < kuSize) :
    userByte s (copyTo s fuel off length src mem) o =
      if off ≤ o ∧ o < off + length then src (o - off)
      else userByte s mem o := by
  induction fuel generalizing off length src mem with
  | zero =>
      have hNone : ¬(off ≤ o ∧ o < off + length) := by omega
      rw [if_neg hNone, copyTo]
  | succ fuel ih =>
      by_cases hEmpty : length = 0
      · have hNone : ¬(off ≤ o ∧ o < off + length) := by
          omega
        rw [copyTo, if_pos (by simpa using hEmpty),
          if_neg hNone]
      · have hPage : off / 4096 < kuPages := by
          change off + length ≤ 0x200000 at hRange
          change off / 4096 < 512
          omega
        have hUsed := hPaged (off / 4096) (Nat.le_refl _)
          (by omega)
        have hN : min (kuPage - off % 4096) length ≤ length ∧
            off % 4096 + min (kuPage - off % 4096) length ≤
              4096 ∧
            0 < min (kuPage - off % 4096) length := by
          change min (4096 - off % 4096) length ≤ length ∧
            off % 4096 + min (4096 - off % 4096) length ≤
              4096 ∧
            0 < min (4096 - off % 4096) length
          omega
        generalize hRound :
          min (kuPage - off % 4096) length = n at hN
        have hRest : Paged s (off + n) (length - n) := by
          intro i hFrom hBelow
          exact hPaged i (by omega) (by omega)
        rw [copyTo_round s fuel src mem hEmpty hRound,
          ih (by omega) (by omega) hRest,
          userByte_round hOneEach hPage hUsed hN.2.1 hOffset]
        by_cases hLate : off + n ≤ o ∧
            o < off + n + (length - n)
        · have hAll : off ≤ o ∧ o < off + length := by omega
          rw [if_pos hLate, if_pos hAll, Buf.drop]
          congr 1
          omega
        · rw [if_neg hLate]
          by_cases hEarly : off ≤ o ∧ o < off + n
          · have hAll : off ≤ o ∧ o < off + length := by
              omega
            rw [if_pos hEarly, if_pos hAll]
          · have hAll : ¬(off ≤ o ∧ o < off + length) := by
              omega
            rw [if_neg hEarly, if_neg hAll]

/- A copy changes no frame but those of its pages. -/
theorem copyTo_other
    {fuel off length p : Nat}
    (hOther : ∀ i, off / 4096 ≤ i →
      i * 4096 < off + length → p ≠ s.frames i) :
    copyTo s fuel off length src mem p = mem p := by
  induction fuel generalizing off length src mem with
  | zero => rfl
  | succ fuel ih =>
      by_cases hEmpty : length = 0
      · rw [copyTo, if_pos (by simpa using hEmpty)]
      · have hThis := hOther (off / 4096) (Nat.le_refl _)
          (by omega)
        have hN : min (kuPage - off % 4096) length ≤
            length :=
          Nat.min_le_right _ _
        generalize hRound :
          min (kuPage - off % 4096) length = n at hN
        rw [copyTo_round s fuel src mem hEmpty hRound, ih]
        · exact Function.update_of_ne hThis ..
        · intro i hFrom hBelow
          exact hOther i (by omega) (by omega)

/- The frames that a range uses are those of the space. -/
theorem copyTo_foreign
    {fuel off length p : Nat}
    (hRange : off + length ≤ kuSize)
    (hPaged : Paged s off length)
    (hForeign : ∀ i < kuPages,
      s.frames i ≠ 0 → p ≠ s.frames i) :
    copyTo s fuel off length src mem p = mem p := by
  refine copyTo_other fun i hFrom hBelow =>
    hForeign i ?_ (hPaged i hFrom hBelow)
  change off + length ≤ 0x200000 at hRange
  change i < 512
  omega

/- Pages with rights have frames. -/
theorem Spine.paged
    (hSpine : Spine s mem seen)
    (hRights : rights ≠ 0)
    (hRange : off + length ≤ kuSize)
    (hAllows : Allows s off length rights) :
    Paged s off length := by
  intro i hFrom hBelow hNone
  have hIndex : i < kuPages := by
    change off + length ≤ 0x200000 at hRange
    change i < 512
    omega
  have hPage := hAllows i hFrom hBelow
  rw [hSpine.noRights i hIndex hNone, Nat.zero_and] at hPage
  exact hRights hPage.symm

/- The tables are what they were. -/
theorem Spine.tablesKept
    {m : PhysMem}
    (hSpine : Spine s mem seen)
    (hSame : ∀ p ∈ s.tables, m p = mem p) :
    Spine s m seen := by
  have hTable : ∀ l < s.tables.length,
      m (s.table l) = mem (s.table l) :=
    fun l hl => hSame _ (table_mem hl)
  have hLength := hSpine.tables
  have hCount := cloneCount_le s.arch64
  refine { hSpine with
    links := ?_
    beside := ?_
    pages := ?_ }
  · intro l hl
    rw [hTable l (by omega)]
    exact hSpine.links l hl
  · intro l hl i hi hBeside
    rw [hTable l (by omega)]
    exact hSpine.beside l hl i hi hBeside
  · intro i hi
    rw [hTable _ (by omega)]
    exact hSpine.pages i hi

/-
  The tables do not change when only pages of the program
  do.
-/
theorem Spine.userWrite
    {m : PhysMem}
    (hSpine : Spine s mem seen)
    (hSound : Sound mapped s e)
    (hSame : ∀ p, (∀ i < kuPages,
      s.frames i ≠ 0 → p ≠ s.frames i) → m p = mem p) :
    Spine s m seen := by
  refine hSpine.tablesKept fun p hMem => hSame p ?_
  rintro i hi hUsed rfl
  exact hSound.apart i hi hMem

theorem kuCheck_live
    (hCheck :
      kuCheck mapped s mem off length rights = true) :
    s.live = true := by
  by_contra hDead
  simp [kuCheck, hDead] at hCheck

/- A copy that was checked stays inside the pages. -/
theorem kuCheck_copyTo
    {off length rights p : Nat}
    (hSpine : Spine s mem seen)
    (hSound : Sound mapped s e)
    (hRights : rights ≠ 0)
    (hMask : rights &&& 0xFFFFFFF8 = 0)
    (hCheck : kuCheck mapped s mem off length rights = true)
    (hForeign : ∀ i < kuPages,
      s.frames i ≠ 0 → p ≠ s.frames i) :
    copyTo s length off length src mem p = mem p := by
  have hIff := @kuCheck_iff mapped s e mem seen off length
    rights hSpine hSound (kuCheck_live hCheck) hRights hMask
  rcases hIff.mp hCheck with ⟨hRange, hAllows⟩
  rcases Nat.eq_zero_or_pos length with rfl | hPos
  · rfl
  · exact copyTo_foreign hRange
      (hSpine.paged hRights hRange (hAllows hPos)) hForeign

end Copies

end KvantOS.User
