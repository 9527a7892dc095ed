import KvantOS.User.Calls

/-
  This file says what the calls on an address space promise:
  a program stays inside its pages, every frame comes from
  the allocator and goes back to it once, and an image that
  is accepted is what the program finds.

  Key definitions include:
    * `Accounted`, `Realised`

  Key theorems include:
    * `kuReach_isolated`, `kuReach_frames`, `kuReach_image`
-/

namespace KvantOS.User

open Paging

--
-- A Small Kernel
--

/-
  Tables of a kernel with two levels: the table for the arena
  is empty, and page 1 is mapped by another table.
-/
def rootTable : PhysMem :=
  fun p =>
    if p = 0x1000 then
      putEntry false
        (putEntry false Buf.zero 3 (mapping 0x2000 3)) 0
        (mapping 0x3000 3)
    else if p = 0x3000 then
      putEntry false Buf.zero 1 (mapping 0x5000 3)
    else
      Buf.zero

/- The frames below the first 64 KB are the kernel's. -/
def bootEnv : KuEnv where
  log := []
  kernel := fun p => p < 0x10000

/- Every frame has an address. -/
def allMapped : Nat → Bool :=
  fun _ => true

theorem belowNext_bootEnv :
    BelowNext bootEnv := by
  rintro p (hOut | hKernel)
  · cases hOut
  · exact hKernel

theorem kernelRoot_boot
    {x : KuWorld} {e : KuEnv}
    (hMem : x.mem 0x1000 = rootTable 0x1000)
    (hKernel : e.kernel = bootEnv.kernel) :
    KernelRoot false x.mem e 0x1000 where
  root := by
    rw [hKernel]
    change 0x1000 < 0x10000
    decide
  next := by
    intro _
    rw [hKernel, spineNext, hMem]
    change address _ < 0x10000
    decide +kernel
  last := by
    intro hWide
    cases hWide

/- The memory when the kernel has moved page 1. -/
def movedMem (mem : PhysMem) : PhysMem :=
  Function.update mem 0x3000
    (putEntry false Buf.zero 1 (mapping 0x6000 3))

/- A space that was created for that kernel. -/
def bootSpace : (Int × KuWorld) × KuEnv :=
  counted ((KuCall.create 0x1000 0 0).run allMapped)
    ⟨.zero, rootTable⟩ bootEnv

theorem bootSpace_result :
    bootSpace.1.1 = 0 := by
  decide +kernel

/- What a space for that kernel looks like. -/
structure Booted
    (x : KuWorld)
    (e : KuEnv) : Prop where
  reach : KuReach allMapped x e rootTable
  kernel : e.kernel = bootEnv.kernel
  below : BelowNext e
  live : x.space.live = true
  wide : x.space.arch64 = false
  lent : x.space.borrowed = [0x1000, 0x2000]
  tables : x.space.tables = [0x10000, 0x12000]
  mem : ∀ p < 0x10000, x.mem p = rootTable p
  moved : walk false (movedMem x.mem) 1 x.space.root 0x1000 =
    some ⟨0x6000, false, true, false⟩

theorem booted_bootSpace :
    Booted bootSpace.1.2 bootSpace.2 := by
  have hStart : KuReach allMapped ⟨.zero, rootTable⟩ bootEnv
      rootTable :=
    .start rootTable bootEnv.kernel
  have hReady : (KuCall.create 0x1000 0 0).Ready
      ⟨.zero, rootTable⟩ bootEnv :=
    kernelRoot_boot rfl rfl
  rcases returns_counted
    ((KuCall.create 0x1000 0 0).run allMapped)
    ⟨.zero, rootTable⟩ belowNext_bootEnv with ⟨hRun, hBelow⟩
  have hReach := hStart.call hReady hRun
  have hDone := hStart.done hReady hRun
  rcases grew_steps hRun with ⟨events, hGrew⟩
  have hPast : (KuCall.create 0x1000 0 0).past bootSpace.1.1
      ⟨.zero, rootTable⟩ rootTable = rootTable := by
    rw [bootSpace_result]
    rfl
  rw [bootSpace] at hPast ⊢
  rw [hPast] at hReach
  constructor
  · exact hReach
  · exact hGrew.kernel
  · exact hBelow
  · decide +kernel
  · decide +kernel
  · decide +kernel
  · decide +kernel
  · exact hDone.kernel
  · decide +kernel

/- Such a space can be made. -/
theorem booted_exists :
    ∃ x e, Booted x e :=
  ⟨_, _, booted_bootSpace⟩

--
-- Isolation
--

/-
  In every state that is reached a live space is isolated,
  from tables of the kernel's that no call writes.
-/
theorem kuReach_isolated
    {mapped : Nat → Bool}
    {x : KuWorld} {e : KuEnv}
    {past : PhysMem}
    (hReach : KuReach mapped x e past) :
    (x.space.live = true →
      Isolated x.space x.mem
        (fun l => past (x.space.lent l)) ∧
      ∀ p ∈ x.space.borrowed, e.kernel p) ∧
    ∀ (c : KuCall) r x' e', c.Ready x e →
      Prog.Returns kuHandler (c.run mapped x) e
        (r, x') e' →
      ∀ p, e.kernel p → x'.mem p = x.mem p := by
  have hKept := hReach.keeps
  refine ⟨fun hLive => ⟨?_, hKept.sound.borrowed⟩, ?_⟩
  · exact (hKept.spine hLive).isolated hKept.sound
  · intro c r x' e' hReady hRun
    exact (hReach.done hReady hRun).kernel

theorem kuReach_isolated_boot :
    Isolated bootSpace.1.2.space bootSpace.1.2.mem
      (fun l => rootTable (bootSpace.1.2.space.lent l)) :=
  ((kuReach_isolated booted_bootSpace.reach).1
    booted_bootSpace.live).1

/-
  A table below the borrowed ones is shared with the kernel:
  what it maps moves without a refresh.
-/
theorem kuReach_moved :
    ∃ x e past, KuReach allMapped x e past ∧
      x.space.live = true ∧
      (∀ l < cloneCount x.space.arch64,
        x.mem (x.space.lent l) = past (x.space.lent l)) ∧
      ¬InArena 0x1000 ∧
      ∃ leaf, walk x.space.arch64 past
          (topLevel x.space.arch64) (x.space.lent 0) 0x1000 =
            some leaf ∧
        ¬Keeps (some leaf)
          (walk x.space.arch64 x.mem
            (topLevel x.space.arch64) x.space.root
            0x1000) := by
  rcases booted_exists with ⟨x, e, hBooted⟩
  have hWide := hBooted.wide
  have hFirst : x.space.lent 0 = 0x1000 := by
    rw [KuSpace.lent, hBooted.lent]
    rfl
  have hSecond : x.space.lent 1 = 0x2000 := by
    rw [KuSpace.lent, hBooted.lent]
    rfl
  have hOld : walk false rootTable 1 0x1000 0x1000 =
      some ⟨0x5000, false, true, false⟩ := by
    decide +kernel
  have hReach : KuReach allMapped
      ⟨x.space, movedMem x.mem⟩ e rootTable := by
    refine hBooted.reach.changed ?_
    intro p hForeign
    rw [movedMem, Function.update_of_ne]
    rintro rfl
    apply hForeign
    rw [hBooted.kernel]
    change 0x3000 < 0x10000
    decide
  have hBelow : ∀ p < 0x3000,
      movedMem x.mem p = rootTable p := by
    intro p hp
    rw [movedMem, Function.update_of_ne (Nat.ne_of_lt hp)]
    exact hBooted.mem p (by omega)
  refine ⟨⟨x.space, movedMem x.mem⟩, e, rootTable, hReach,
    hBooted.live, ?_, ?_, ⟨0x5000, false, true, false⟩, ?_,
    ?_⟩
  · intro l hl
    change l < cloneCount x.space.arch64 at hl
    rw [hWide] at hl
    match l, hl with
    | 0, _ =>
        rw [hFirst]
        exact hBelow 0x1000 (by decide)
    | 1, _ =>
        rw [hSecond]
        exact hBelow 0x2000 (by decide)
  · rintro ⟨hArena, -⟩
    exact absurd hArena (by decide)
  · rw [hWide, hFirst]
    exact hOld
  · rw [hWide]
    change ¬Keeps _ (walk false (movedMem x.mem) 1
      x.space.root 0x1000)
    rw [hBooted.moved]
    intro hKeeps
    cases hKeeps with
    | some hPhys => exact absurd hPhys (by decide)

--
-- Frames
--

/-
  What a call does with frames: `events` is what it adds to
  the history.
-/
structure Accounted
    (c : KuCall)
    (x : KuWorld)
    (e : KuEnv)
    (events : List KuEvent)
    (r : Int)
    (x' : KuWorld)
    (e' : KuEnv) : Prop where
  log : e'.log = events ++ e.log
  kernel : ∀ p, e.kernel p → x'.mem p = x.mem p
  foreign : ∀ p content, .release p content ∈ events →
    ¬e.kernel p ∧ p ∉ x.space.borrowed
  pinned : x.space.pins ≠ 0 → events = []
  ended : ∀ p content, .release p content ∈ events →
    x.space.Owns p → c = .destroy ∧ x'.space = .zero
  failed : c.makes = true → x.space.live = false →
    r ≠ 0 → x'.space = .zero
  refused : c.makes = true → x.space.live = true →
    r ≠ 0 ∧ x' = x ∧ events = []

/- What user code reaches is outstanding. -/
theorem Isolated.outstanding
    {mapped : Nat → Bool}
    {s : KuSpace}
    {e : KuEnv}
    {mem : PhysMem}
    {seen : Nat → Buf}
    {va : Nat}
    {leaf : Leaf}
    (hIsolated : Isolated s mem seen)
    (hSound : Sound mapped s e)
    (hRange : va < spaceBytes s.arch64)
    (hWalk : walk s.arch64 mem (topLevel s.arch64) s.root
      va = some leaf)
    (hUser : leaf.user = true) :
    ∃ p, User.outstanding e.log p ∧
      leaf.phys = p + va % 4096 := by
  rcases hIsolated.user va hRange leaf hWalk hUser with
    ⟨hArena, hUsed⟩
  have hPage := hIsolated.page va hArena hUsed
  have hIndex : (va - kuBase) / 4096 < kuPages := by
    rcases hArena with ⟨hFrom, hTo⟩
    apply page_lt
    omega
  refine ⟨s.frames ((va - kuBase) / 4096),
    (hSound.owned _).mpr (.inr ⟨_, hIndex, rfl, hUsed⟩), ?_⟩
  rw [hWalk] at hPage
  cases hPage
  rfl

/-
  In every state that is reached the frames that were handed
  out and did not go back are those of the space, and each
  call accounts for the others.
-/
theorem kuReach_frames
    {mapped : Nat → Bool}
    {x : KuWorld} {e : KuEnv}
    {past : PhysMem}
    (hReach : KuReach mapped x e past) :
    LogLawful e.log ∧
      (∀ p, outstanding e.log p ↔ x.space.Owns p) ∧
      (x.space.live = false → ∀ p, ¬x.space.Owns p) ∧
      (x.space.live = true →
        outstanding e.log x.space.root ∧
        ∀ va < spaceBytes x.space.arch64, ∀ leaf,
          walk x.space.arch64 x.mem
            (topLevel x.space.arch64) x.space.root va =
              some leaf →
          leaf.user = true →
          ∃ p, outstanding e.log p ∧
            leaf.phys = p + va % 4096) ∧
      ∀ (c : KuCall) r x' e', c.Ready x e →
        Prog.Returns kuHandler (c.run mapped x) e
          (r, x') e' →
        ∃ events, Accounted c x e events r x' e' := by
  have hKept := hReach.keeps
  have hSound := hKept.sound
  refine ⟨hSound.lawful, hSound.owned, ?_, ?_, ?_⟩
  · intro hDead p
    rw [hSound.dead hDead]
    exact not_owns_zero p
  · intro hLive
    have hSpine := hKept.spine hLive
    refine ⟨(hSound.owned _).mpr (.inl ?_), ?_⟩
    · rw [hSpine.root]
      apply table_mem
      rw [hSpine.tables]
      exact Nat.succ_pos _
    · intro va hRange leaf hWalk hUser
      exact (hSpine.isolated hSound).outstanding hSound
        hRange hWalk hUser
  · intro c r x' e' hReady hRun
    have hDone := hReach.done hReady hRun
    rcases grew_steps hRun with ⟨events, hGrew⟩
    have hNone : e' = e → events = [] := by
      rintro rfl
      exact List.self_eq_append_left.mp hGrew.log
    have hForeign : ∀ p content,
        .release p content ∈ events → ¬e.kernel p := by
      intro p content hMem
      have hLawful := hDone.kept.sound.lawful
      rw [hGrew.log] at hLawful
      refine released_foreign hLawful hGrew.foreign ?_ hMem
      intro q hOut
      exact hSound.kernel q ((hSound.owned q).mp hOut)
    refine ⟨events, hGrew.log, hDone.kernel, ?_,
      fun hPins => hNone (hDone.pinned hPins), ?_,
      hDone.failed, ?_⟩
    · intro p content hMem
      have hNot := hForeign p content hMem
      exact ⟨hNot, fun hLent =>
        hNot (hSound.borrowed p hLent)⟩
    · intro p content hMem hOwns
      by_cases hDestroy : c = .destroy
      · refine ⟨hDestroy, (hDone.ended hDestroy ?_).2⟩
        by_contra hPins
        rw [hNone (hDone.pinned hPins)] at hMem
        cases hMem
      · exact absurd hOwns
          (hDone.safe hDestroy events hGrew.log p content
            hMem)
    · intro hMakes hLive
      rcases hDone.refused hMakes hLive with
        ⟨hFailed, hSame, hEnv⟩
      exact ⟨hFailed, hSame, hNone hEnv⟩

theorem kuReach_frames_boot :
    ∃ x e, Booted x e ∧ LogLawful e.log ∧
      outstanding e.log x.space.root := by
  rcases booted_exists with ⟨x, e, hBooted⟩
  have hFrames := kuReach_frames hBooted.reach
  exact ⟨x, e, hBooted, hFrames.1,
    (hFrames.2.2.2.1 hBooted.live).1⟩

/-
  A call that makes a space fails on a live one, which stays
  alive and keeps its frames.
-/
theorem kuCreate_live :
    ∃ x e past, KuReach allMapped x e past ∧
      ∃ r x' e',
        (KuCall.create 0x1000 0 0).Ready x e ∧
        Prog.Returns kuHandler
          ((KuCall.create 0x1000 0 0).run allMapped x) e
          (r, x') e' ∧
        r ≠ 0 ∧ x'.space.live = true ∧
        ∃ p, x'.space.Owns p := by
  rcases booted_exists with ⟨x, e, hBooted⟩
  have hReady : (KuCall.create 0x1000 0 0).Ready x e :=
    kernelRoot_boot (hBooted.mem 0x1000 (by decide))
      hBooted.kernel
  have hRun := (returns_counted
    ((KuCall.create 0x1000 0 0).run allMapped) x
    hBooted.below).1
  have hDone := hBooted.reach.done hReady hRun
  rcases hDone.refused rfl hBooted.live with
    ⟨hFailed, hSame, -⟩
  refine ⟨x, e, rootTable, hBooted.reach, _, _, _, hReady,
    hRun, hFailed, ?_, 0x10000, ?_⟩
  · rw [hSame]
    exact hBooted.live
  · rw [hSame]
    refine .inl ?_
    rw [hBooted.tables]
    exact List.mem_cons_self

--
-- Images
--

/- The pages of a space are what an image asks for. -/
structure Realised
    (image : List UInt8)
    (p : KiPlan)
    (x : KuWorld) : Prop where
  text : ∀ i < pagesIn p.textBytes,
    x.space.frames i ≠ 0 ∧ x.space.rights i = kuR ||| kuX
  data : ∀ i, p.dataVa / 4096 ≤ i →
    i < p.dataVa / 4096 +
      pagesIn (p.dataBytes + p.bssBytes) →
    x.space.frames i ≠ 0 ∧ x.space.rights i = kuR ||| kuW
  stack : ∀ i < kuPages,
    (kuSize - p.stackBytes) / 4096 ≤ i →
    x.space.frames i ≠ 0 ∧ x.space.rights i = kuR ||| kuW
  boot : x.space.frames (kiBootOff / 4096) ≠ 0 ∧
    x.space.rights (kiBootOff / 4096) = kuR
  others : ∀ i < kuPages, pagesIn p.textBytes ≤ i →
    (i < p.dataVa / 4096 ∨ p.dataVa / 4096 +
      pagesIn (p.dataBytes + p.bssBytes) ≤ i) →
    i < (kuSize - p.stackBytes) / 4096 →
    i ≠ kiBootOff / 4096 → x.space.frames i = 0
  textBytes : ∀ o < pagesIn p.textBytes * 4096,
    userByte x.space x.mem o =
      if o < p.textBytes then
        Buf.ofList image (kiHeader + o)
      else 0
  dataBytes : ∀ o <
      pagesIn (p.dataBytes + p.bssBytes) * 4096,
    userByte x.space x.mem (p.dataVa + o) =
      if o < p.dataBytes then
        Buf.ofList image (kiHeader + p.dataFile + o)
      else 0
  stackBytes : ∀ o, kuSize - p.stackBytes ≤ o →
    o < kuSize → userByte x.space x.mem o = 0
  bootBytes : ∀ o, kiBootOff ≤ o → o < kiBootOff + 4096 →
    userByte x.space x.mem o = 0
  apart : pagesIn p.textBytes * 4096 ≤ p.dataVa ∧
    p.dataVa + pagesIn (p.dataBytes + p.bssBytes) * 4096 ≤
      kiBootOff ∧
    kiBootOff + 4096 ≤ kuSize - p.stackBytes ∧
    p.stackBytes ≤ kuSize
  entry : kuBase ≤ p.entry ∧ p.entry < kuBase + p.textBytes

section Images

variable {mapped : Nat → Bool} {wide nx : Bool}
variable {start : PhysMem} {x : KuWorld} {e : KuEnv}
variable {image : List UInt8} {p : KiPlan}

/- A page with some rights has a frame. -/
theorem Stocked.used
    {rights : Nat → Nat}
    {content : Nat → UInt8}
    {i r : Nat}
    (hStocked : Stocked mapped wide nx start rights content
      x e)
    (hIndex : i < kuPages)
    (hRights : rights i = r)
    (hNe : r ≠ 0) :
    x.space.frames i ≠ 0 ∧ x.space.rights i = r := by
  have hThis := (hStocked.rights i hIndex).trans hRights
  refine ⟨(hStocked.spine.used_iff hIndex).mpr ?_, hThis⟩
  rw [hThis]
  exact hNe

/- Stocked with what a plan asks for, a space realises it. -/
theorem Stocked.realised
    (hStocked : Stocked mapped wide nx start (planRights p)
      (planByte image p) x e)
    (hFits : PlanFits image p) :
    Realised image p x := by
  have hPages := hFits.pages
  have hCount : kuPages = 512 := rfl
  have hSize : kuSize = 0x200000 := rfl
  have hBoot : kiBootOff = 0x1E0000 := rfl
  rcases hFits with ⟨-, -, hEntry, hAligned, hAfter, hData, -,
    -, hStack, hWhole⟩
  have hDataPages : p.dataVa + pagesIn (p.dataBytes +
      p.bssBytes) * 4096 ≤ kiBootOff := by
    unfold pagesIn
    omega
  have hText : ∀ i < pagesIn p.textBytes,
      x.space.frames i ≠ 0 ∧
        x.space.rights i = kuR ||| kuX := by
    intro i hi
    exact hStocked.used (by omega)
      (planRights_text hPages hi) (by decide)
  have hDatas : ∀ i, p.dataVa / 4096 ≤ i →
      i < p.dataVa / 4096 +
        pagesIn (p.dataBytes + p.bssBytes) →
      x.space.frames i ≠ 0 ∧
        x.space.rights i = kuR ||| kuW := by
    intro i hFrom hTo
    exact hStocked.used (by omega)
      (planRights_data hPages hFrom hTo) (by decide)
  have hStacks : ∀ i < kuPages,
      (kuSize - p.stackBytes) / 4096 ≤ i →
      x.space.frames i ≠ 0 ∧
        x.space.rights i = kuR ||| kuW := by
    intro i hi hFrom
    exact hStocked.used hi
      (planRights_stack hPages hFrom hi) (by decide)
  have hBoots := hStocked.used (r := kuR) (by decide)
    (planRights_boot (p := p)) (by decide)
  have hZero : ∀ o, p.textBytes ≤ o →
      (o < p.dataVa ∨ p.dataVa + p.dataBytes ≤ o) →
      planByte image p o = 0 := by
    intro o hLate hOther
    unfold planByte
    rw [overlay, if_neg (by omega), overlay,
      if_neg (by omega)]
  refine ⟨hText, hDatas, hStacks, hBoots, ?_, ?_, ?_, ?_, ?_,
    ⟨hAfter, hDataPages, by omega, by omega⟩, hEntry⟩
  · intro i hi hNotText hNotData hNotStack hNotBoot
    apply hStocked.spine.noFrame hi
    rw [hStocked.rights i hi]
    exact planRights_none hNotText hNotData (.inl hNotStack)
      hNotBoot
  · intro o hO
    rw [hStocked.content o (by omega) (hText _ (by omega)).1]
    by_cases hIn : o < p.textBytes
    · rw [if_pos hIn]
      unfold planByte
      rw [overlay, if_neg (by omega), overlay,
        if_pos (by omega), Nat.sub_zero]
      rfl
    · rw [if_neg hIn]
      exact hZero o (by omega) (.inl (by omega))
  · intro o hO
    rw [hStocked.content _ (by omega)
      (hDatas _ (by omega) (by omega)).1]
    by_cases hIn : o < p.dataBytes
    · rw [if_pos hIn]
      unfold planByte
      rw [overlay, if_pos (by omega), Nat.add_sub_cancel_left]
      rfl
    · rw [if_neg hIn]
      have hTextIn : p.textBytes ≤
          pagesIn p.textBytes * 4096 := by
        unfold pagesIn
        omega
      exact hZero _ (by omega) (.inr (by omega))
  · intro o hFrom hO
    rw [hStocked.content o hO
      (hStacks _ (page_lt hO) (by omega)).1]
    have hTextIn : p.textBytes ≤
        pagesIn p.textBytes * 4096 := by
      unfold pagesIn
      omega
    exact hZero o (by omega) (.inr (by omega))
  · intro o hFrom hO
    have hTextIn : p.textBytes ≤
        pagesIn p.textBytes * 4096 := by
      unfold pagesIn
      omega
    have hNone := hZero o (by omega) (.inr (by omega))
    have hInside : o < kuSize :=
      Nat.lt_of_lt_of_le hO (by decide)
    have hPage : o / 4096 = kiBootOff / 4096 := by omega
    rw [hStocked.content o hInside]
    · exact hNone
    · rw [hPage]
      exact hBoots.1

/- An allocator may have no frame left. -/
def exhausted :
    (command : KuCmd) → KuEnv → command.Reply × KuEnv
  | .alloc, e => ((0 : Nat), e.push (.alloc 0))
  | .take q content, e => ((), e.push (.take q content))
  | .release q content, e =>
      ((), e.push (.release q content))

theorem exhausted_step
    (command : KuCmd)
    (e : KuEnv) :
    kuHandler command e (exhausted command e).1
      (exhausted command e).2 := by
  cases command with
  | alloc => exact ⟨.inl rfl, rfl⟩
  | take q content => rfl
  | release q content => rfl

/-
  From every state that is reached the loader reads nothing
  outside of the image; it succeeds for the images that are
  accepted when there are enough frames, and leaves nothing
  of any other.
-/
theorem kuReach_image
    {past : PhysMem}
    {root : Nat}
    {arch64 nx₀ : Int}
    (hReach : KuReach mapped x e past)
    (hReady : KernelRoot (arch64 == 1) x.mem e root) :
    (∃ r x' e', Prog.Returns kuHandler
      (kiLoad mapped root image arch64 nx₀ x) e (r, x')
        e') ∧
    ∀ r x' e', Prog.Returns kuHandler
        (kiLoad mapped root image arch64 nx₀ x) e (r, x')
          e' →
      r ≠ .fault ∧
      (x.space.live = true →
        r = .failed ∧ x' = x ∧ e' = e) ∧
      (x.space.live = false →
        (∃ events, e'.log = events ++ e.log ∧
          ((∃ p, r = .ok p) ↔
            (∃ p, kiValidate image arch64 = .ok p) ∧
              createArgs arch64 nx₀ ∧
              kernelSpine mapped (arch64 == 1) x.mem root =
                true ∧
              enough mapped events)) ∧
        (r = .failed → x'.space = .zero ∧
          ∀ p, ¬outstanding e'.log p) ∧
        ∀ p, r = .ok p →
          kiValidate image arch64 = .ok p ∧
          Realised image p x' ∧
          Isolated x'.space x'.mem
            (fun l => x.mem (x'.space.lent l))) := by
  have hSound := hReach.keeps.sound
  refine ⟨⟨_, _, _, Prog.returns_possible exhausted_step
    (kiLoad mapped root image arch64 nx₀ x) e⟩, ?_⟩
  intro r x' e' hRun
  cases hLive : x.space.live with
  | true =>
      rcases ProgM.Spec.returns (spec_kiLoad_live hLive)
        hRun with ⟨rfl, rfl, rfl⟩
      refine ⟨KiResult.noConfusion,
        fun _ => ⟨rfl, rfl, rfl⟩, ?_⟩
      intro hDead
      cases hDead
  | false =>
      have hLoaded := ProgM.Spec.returns
        (spec_kiLoad hSound hLive hReady) hRun
      refine ⟨hLoaded.inside, ?_, fun _ => ⟨?_, ?_, ?_⟩⟩
      · intro hAlive
        cases hAlive
      · rcases hLoaded.ran with ⟨ok, hRan, hIff⟩
        rcases hRan.log with ⟨events, hLog, hOk⟩
        refine ⟨events, hLog, ?_⟩
        rw [hIff, hOk]
      · intro hFailed
        have hZero := hLoaded.failed hFailed
        refine ⟨hZero, fun p hOut => ?_⟩
        have hOwns := (hLoaded.sound.owned p).mp hOut
        rw [hZero] at hOwns
        exact not_owns_zero p hOwns
      · intro p hOk
        rcases hLoaded.done p hOk with ⟨hValid, hStocked⟩
        exact ⟨hValid,
          hStocked.realised (kiValidate_ok hValid).fits,
          hStocked.spine.isolated hStocked.sound⟩

end Images

/- An image with a page of text and a byte of data. -/
def smallImage : List UInt8 :=
  [0x4B, 0x41, 0x50, 0x50, 2, 0, 96, 0, 4, 0, 0, 0,
    1, 0, 0, 0, 0, 0, 0xE0, 0, 0, 0, 0xE0, 0,
    17, 0, 0, 0, 0, 0, 0, 0] ++
  (0x61 :: List.replicate 31 0) ++
  [16, 0, 0, 0, 0, 0x10, 0, 0, 16, 0, 0, 0, 1, 0, 0, 0,
    0, 0, 0, 0, 0, 0x10, 0, 0, 1, 0, 0, 0, 0, 0, 0, 0] ++
  List.replicate 16 0x90 ++ [0x2A]

def smallPlan : KiPlan where
  entry := 0xE00000
  textBytes := 16
  dataVa := 4096
  dataFile := 16
  dataBytes := 1
  bssBytes := 0
  stackBytes := 4096
  title := 0x61 :: List.replicate 31 0

/- The image is loaded for the small kernel. -/
theorem smallImage_loads :
    (counted (kiLoad allMapped 0x1000 smallImage 0 0)
      ⟨.zero, rootTable⟩ bootEnv).1.1 = .ok smallPlan := by
  decide +kernel

theorem kuReach_image_small :
    kiValidate smallImage 0 = .ok smallPlan ∧
      ∃ x, Realised smallImage smallPlan x := by
  have hStart : KuReach allMapped ⟨.zero, rootTable⟩ bootEnv
      rootTable :=
    .start rootTable bootEnv.kernel
  have hReady : KernelRoot ((0 : Int) == 1) rootTable bootEnv
      0x1000 :=
    @kernelRoot_boot ⟨.zero, rootTable⟩ bootEnv rfl rfl
  have hRun := (returns_counted
    (kiLoad allMapped 0x1000 smallImage 0 0)
    ⟨.zero, rootTable⟩ belowNext_bootEnv).1
  have hAll := (@kuReach_image allMapped _ _ smallImage _
    0x1000 0 0 hStart hReady).2 _ _ _ hRun
  have hDone := (hAll.2.2 rfl).2.2 smallPlan
    smallImage_loads
  exact ⟨hDone.1, _, hDone.2.1⟩

end KvantOS.User
