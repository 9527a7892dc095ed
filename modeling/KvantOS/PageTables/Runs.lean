import KvantOS.PageTables.Start

/-
  This file follows the page tables through every sequence of
  calls after `paging_init`: the processor sees the mappings
  of the start, changed by what the calls have asked for.

  Key definitions include:
    * `Call`, `run`, `Runs`
    * `seen`, `Expected`, `Fits`
    * `RangeComplete`, `MmioComplete`

  Key theorems include:
    * `run_sound`, `run_seen`, `range_complete_iff`
    * `updates_local`
-/

namespace KvantOS.PageTables

open Paging

--
-- Calls
--

inductive Call where
  | map (virt phys : Nat) (rw : Bool)
  | range (base size : Nat) (rw : Bool)
  | mmio (base size : Nat)
  | find (virt : Nat)

/- The arguments are words of 32 bits. -/
def Call.Valid : Call → Prop
  | .map virt phys _ => virt < 2 ^ 32 ∧ phys < 2 ^ 32
  | .range base size _ => base < 2 ^ 32 ∧ size < 2 ^ 32
  | .mmio base size => base < 2 ^ 32 ∧ size < 2 ^ 32
  | .find virt => virt < 2 ^ 32

/- The result of a call and the state after it. -/
def run
    (wide : Bool)
    (img : Image)
    (s : PagingState) : Call → Int × PagingState
  | .map virt phys rw => pagingMap wide img virt phys rw s
  | .range base size rw =>
      pagingMapRange wide img base size rw s
  | .mmio base size => pagingMapMmio wide img base size s
  | .find virt =>
      let r := pagingPhys wide img virt s
      ((r.1 : Int), r.2)

/- What a call asks for at an address, and with what right. -/
def Call.asks : Call → Nat → Option (Nat × Bool)
  | .map virt phys rw, va =>
      if va / 4096 = virt / 4096 then
        some (phys / 4096 * 4096 + va % 4096, rw)
      else none
  | .range base size rw, va =>
      if Covers base size va then some (va, rw) else none
  | .mmio base size, va =>
      if Covers base size va then some (va, true) else none
  | .find _, _ => none

/- The call maps more than one page. -/
def Call.ForRange : Call → Prop
  | .range _ _ _ => True
  | .mmio _ _ => True
  | _ => False

/-
  The end of a range can be rounded up in 32 bits, and a
  range of no bytes starts at a page.
-/
def Call.Fits : Call → Prop
  | .range base size _ =>
      base + size + 0xFFF < 2 ^ 32 ∧ (0 < size ∨ 4096 ∣ base)
  | _ => True

/- The calls since the start with their results, newest
  first. -/
inductive Runs
    (wide : Bool)
    (img : Image)
    (mem : Nat → Buf)
    (supply : List Nat) :
    List (Call × Int) → PagingState → Prop where
  | start : Runs wide img mem supply []
      (pagingInit wide img mem supply)
  | call
      {history : List (Call × Int)}
      {s : PagingState}
      {c : Call}
      (hRuns : Runs wide img mem supply history s)
      (hValid : c.Valid) :
      Runs wide img mem supply
        ((c, (run wide img s c).1) :: history)
        (run wide img s c).2

/- The translation and the write permission that the walk of
  the processor gives. -/
def seen
    (wide : Bool)
    (img : Image)
    (s : PagingState)
    (va : Nat) : Option (Nat × Bool) :=
  (Paging.walk wide s.mem (topLevel wide) (img.root wide)
    va).map (fun leaf => (leaf.phys, leaf.writable))

/- Those of the start. -/
def seenAtStart (va : Nat) : Option (Nat × Bool) :=
  if 1 ≤ va / 4096 ∧ va / 4096 < 32768 then
    some (va, true)
  else none

/-
  What an address may translate to after some calls: what the
  last successful call that asked for it wanted.  A call that
  fails changes no address it did not ask for, and those of a
  range it may have mapped or not.
-/
inductive Expected :
    List (Call × Int) → Nat → Option (Nat × Bool) → Prop
  | start {va : Nat} : Expected [] va (seenAtStart va)
  | other
      {c : Call} {r : Int} {older : List (Call × Int)}
      {va : Nat} {m : Option (Nat × Bool)}
      (hAsks : c.asks va = none)
      (hOlder : Expected older va m) :
      Expected ((c, r) :: older) va m
  | mapped
      {c : Call} {older : List (Call × Int)}
      {va : Nat} {m : Nat × Bool}
      (hAsks : c.asks va = some m) :
      Expected ((c, 0) :: older) va (some m)
  | kept
      {c : Call} {older : List (Call × Int)}
      {va : Nat} {m : Option (Nat × Bool)}
      (hOlder : Expected older va m) :
      Expected ((c, -1) :: older) va m
  | partly
      {c : Call} {older : List (Call × Int)}
      {va : Nat} {m : Nat × Bool}
      (hAsks : c.asks va = some m)
      (hRange : c.ForRange) :
      Expected ((c, -1) :: older) va (some m)

--
-- Steps
--

section Steps

variable {wide : Bool} {img : Image} {s : PagingState}
variable {owner : Nat → Option (Nat × Nat)} {c : Call}

theorem seen_eq
    (wide : Bool)
    (img : Image)
    (s : PagingState)
    (va : Nat) :
    seen wide img s va =
      (look wide img s va).map
        (fun page => (page.phys, page.writable)) :=
  (translate_walk wide s.mem _ _ va).symm

variable {va : Nat}

variable {s' : PagingState}

theorem seen_congr
    (hSame : look wide img s' va = look wide img s va) :
    seen wide img s' va = seen wide img s va := by
  rw [seen_eq, seen_eq, hSame]

variable {rw uncached : Bool}

theorem seen_direct
    (hLook : look wide img s va =
      some (direct rw uncached va)) :
    seen wide img s va = some (va, rw) := by
  rw [seen_eq, hLook]
  rfl

/- Every call keeps the tables sound. -/
theorem run_sound
    (hSound : Sound wide img s owner)
    (hValid : c.Valid) :
    ∃ owner', Sound wide img (run wide img s c).2 owner' := by
  cases c with
  | map virt phys rw =>
      obtain ⟨owner', hAfter, _⟩ :=
        pagingMap_spec rw hSound hValid.1 hValid.2
      exact ⟨owner', hAfter⟩
  | range base size rw =>
      obtain ⟨owner', hAfter, _⟩ :=
        @pagingMapRange_loop wide img s owner base size rw
          hValid.1 hSound
      exact ⟨owner', hAfter⟩
  | mmio base size =>
      obtain ⟨owner', hAfter, _⟩ :=
        @pagingMapMmio_spec wide img s owner base size hSound
      exact ⟨owner', hAfter⟩
  | find virt =>
      obtain ⟨owner', hGrows, _⟩ :=
        pagingPhys_spec hSound hValid
      exact ⟨owner', hGrows.sound⟩

variable {history : List (Call × Int)}

variable {mem : Nat → Buf} {supply : List Nat}

theorem Runs.sound
    (hRuns : Runs wide img mem supply history s)
    (hFrames : FramesOk wide img supply) :
    ∃ owner, Sound wide img s owner := by
  induction hRuns with
  | start => exact pagingInit_sound mem hFrames
  | call _ hValid ih =>
      obtain ⟨owner, hSound⟩ := ih
      exact run_sound hSound hValid

variable {older : List (Call × Int)}

/- A range that is mapped shows, and the rest is kept. -/
theorem expected_covered
    {base size : Nat}
    (hAsks : c.asks va =
      if Covers base size va then some (va, rw) else none)
    (hLook : look wide img s' va =
      if Covers base size va then
        some (direct rw uncached va)
      else look wide img s va)
    (hOlder : Expected older va (seen wide img s va)) :
    Expected ((c, 0) :: older) va (seen wide img s' va) := by
  by_cases hIn : Covers base size va
  · rw [if_pos hIn] at hAsks hLook
    rw [seen_direct hLook]
    exact .mapped hAsks
  · rw [if_neg hIn] at hAsks hLook
    rw [seen_congr hLook]
    exact .other hAsks hOlder

/- What a call does to the translation of an address. -/
theorem run_seen
    (hSound : Sound wide img s owner)
    (hValid : c.Valid)
    (hFits : c.Fits)
    (hSpace : va < spaceBytes wide)
    (hOlder : Expected older va (seen wide img s va)) :
    Expected ((c, (run wide img s c).1) :: older) va
      (seen wide img (run wide img s c).2 va) := by
  cases c with
  | map virt phys rw =>
      obtain ⟨_, _, hCase⟩ :=
        pagingMap_spec rw hSound hValid.1 hValid.2
      unfold run
      dsimp only
      rcases hCase with ⟨hOk, hLook⟩ | ⟨hFail, hLook⟩
      · rw [hOk]
        have hVa := hLook va hSpace
        by_cases hPage : va / 4096 = virt / 4096
        · rw [if_pos hPage] at hVa
          rw [seen_eq, hVa]
          exact .mapped (if_pos hPage)
        · rw [if_neg hPage] at hVa
          rw [seen_congr hVa]
          exact .other (if_neg hPage) hOlder
      · rw [hFail, seen_congr (hLook va hSpace)]
        exact .kept hOlder
  | range base size rw =>
      obtain ⟨_, _, hCase⟩ :=
        pagingMapRange_spec rw hFits.1 hFits.2 hSound
      unfold run
      dsimp only
      rcases hCase with ⟨hOk, hLook⟩ | ⟨hFail, hLook⟩
      · rw [hOk]
        exact expected_covered rfl (hLook va hSpace) hOlder
      · rw [hFail]
        rcases hLook va hSpace with hOld | ⟨hIn, hNew⟩
        · rw [seen_congr hOld]
          exact .kept hOlder
        · rw [seen_direct hNew]
          exact .partly (if_pos hIn) trivial
  | mmio base size =>
      obtain ⟨_, _, hCase⟩ :=
        @pagingMapMmio_spec wide img s owner base size hSound
      unfold run
      dsimp only
      rcases hCase with ⟨hOk, hLook⟩ | ⟨hFail, hLook⟩
      · rw [hOk]
        exact expected_covered rfl (hLook va hSpace) hOlder
      · rw [hFail]
        rcases hLook va hSpace with hOld | ⟨hIn, _, hNew⟩
        · rw [seen_congr hOld]
          exact .kept hOlder
        · rw [seen_direct hNew]
          exact .partly (if_pos hIn) trivial
  | find virt =>
      obtain ⟨_, hGrows, _⟩ := pagingPhys_spec hSound hValid
      have hSame := seen_congr (hGrows.same va hSpace)
      exact .other rfl (hSame.symm ▸ hOlder)

/- An address that no call asks for is as at the start. -/
theorem Expected.unasked
    {m : Option (Nat × Bool)}
    (hExpected : Expected history va m)
    (hNone : ∀ e ∈ history, e.1.asks va = none) :
    m = seenAtStart va := by
  induction hExpected with
  | start => rfl
  | other _ _ ih =>
      exact ih (fun e hMem =>
        hNone e (List.mem_cons_of_mem _ hMem))
  | mapped hAsks =>
      have hNot := hNone _ List.mem_cons_self
      rw [hAsks] at hNot
      cases hNot
  | kept _ ih =>
      exact ih (fun e hMem =>
        hNone e (List.mem_cons_of_mem _ hMem))
  | partly hAsks _ =>
      have hNot := hNone _ List.mem_cons_self
      rw [hAsks] at hNot
      cases hNot

theorem Runs.expected
    (hRuns : Runs wide img mem supply history s)
    (hFrames : FramesOk wide img supply)
    (hFits : ∀ e ∈ history, e.1.Fits)
    (hSpace : va < spaceBytes wide) :
    Expected history va (seen wide img s va) := by
  induction hRuns with
  | start =>
      have hSeen : seen wide img
          (pagingInit wide img mem supply) va =
            seenAtStart va := by
        rw [seen_eq, pagingInit_look img mem supply hSpace]
        unfold atStart seenAtStart
        split
        · rfl
        · rfl
      rw [hSeen]
      exact .start
  | call hRuns hValid ih =>
      obtain ⟨owner, hSound⟩ := hRuns.sound hFrames
      exact run_seen hSound hValid
        (hFits _ List.mem_cons_self) hSpace
        (ih (fun e hMem =>
          hFits e (List.mem_cons_of_mem _ hMem)))

end Steps

--
-- Complete Ranges
--

/- On success every page that meets the range is mapped to
  itself with the right asked for. -/
def RangeComplete
    (wide : Bool)
    (img : Image)
    (s : PagingState)
    (base size : Nat)
    (rw : Bool) : Prop :=
  let r := pagingMapRange wide img base size rw s
  (r.1 = 0 ∧ ∀ va, va < 2 ^ 32 → Covers base size va →
    seen wide img r.2 va = some (va, rw)) ∨ r.1 < 0

/- On success it is writable and kept out of the caches. -/
def MmioComplete
    (wide : Bool)
    (img : Image)
    (s : PagingState)
    (base size : Nat) : Prop :=
  let r := pagingMapMmio wide img base size s
  (r.1 = 0 ∧ ∀ va, va < 2 ^ 32 → Covers base size va →
    seen wide img r.2 va = some (va, true) ∧
      look wide img r.2 va = some (direct true true va)) ∨
    r.1 < 0

section Complete

variable {wide : Bool} {img : Image} {s : PagingState}
variable {base size : Nat}

theorem space_of_word
    (wide : Bool)
    {va : Nat}
    (hVa : va < 2 ^ 32) :
    va < spaceBytes wide := by
  cases wide with
  | true => exact Nat.lt_trans hVa (by decide)
  | false => exact hVa

/- A range whose end wraps is left alone. -/
theorem pagingMapRange_wraps
    (rw : Bool)
    (hTop : base + size ≤ 2 ^ 32)
    (hWraps : 2 ^ 32 ≤ base + size + 0xFFF) :
    pagingMapRange wide img base size rw s = (0, s) := by
  unfold pagingMapRange
  rw [rangeEnd_wraps hTop hWraps]
  have hRounds : pageRounds = 1048575 + 1 := rfl
  rw [hRounds]
  unfold mapFrom
  rw [if_neg (fun hLoop => absurd hLoop.1 (Nat.not_lt_zero _))]

theorem mmioComplete
    {owner : Nat → Option (Nat × Nat)}
    (base size : Nat)
    (hSound : Sound wide img s owner) :
    MmioComplete wide img s base size := by
  obtain ⟨_, _, hCase⟩ :=
    @pagingMapMmio_spec wide img s owner base size hSound
  unfold MmioComplete
  rcases hCase with ⟨hOk, hLook⟩ | ⟨hFail, _⟩
  · refine Or.inl ⟨hOk, ?_⟩
    intro va hVa hIn
    have hPage := hLook va (space_of_word wide hVa)
    rw [if_pos hIn] at hPage
    exact ⟨seen_direct hPage, hPage⟩
  · exact Or.inr (by rw [hFail]; decide)

theorem rangeComplete_iff
    {owner : Nat → Option (Nat × Nat)}
    (rw : Bool)
    (hSound : Sound wide img s owner)
    (hSize : 0 < size)
    (hTop : base + size ≤ 2 ^ 32) :
    RangeComplete wide img s base size rw ↔
      base + size + 0xFFF < 2 ^ 32 ∨
        ∀ va, va < 2 ^ 32 → Covers base size va →
          seen wide img s va = some (va, rw) := by
  unfold RangeComplete
  by_cases hFits : base + size + 0xFFF < 2 ^ 32
  · refine ⟨fun _ => Or.inl hFits, fun _ => ?_⟩
    obtain ⟨_, _, hCase⟩ :=
      pagingMapRange_spec rw hFits (Or.inl hSize) hSound
    rcases hCase with ⟨hOk, hLook⟩ | ⟨hFail, _⟩
    · refine Or.inl ⟨hOk, ?_⟩
      intro va hVa hIn
      have hPage := hLook va (space_of_word wide hVa)
      rw [if_pos hIn] at hPage
      exact seen_direct hPage
    · exact Or.inr (by rw [hFail]; decide)
  · rw [pagingMapRange_wraps rw hTop (by omega)]
    constructor
    · rintro (⟨_, hAll⟩ | hNegative)
      · exact Or.inr hAll
      · exact absurd hNegative (Int.lt_irrefl 0)
    · rintro (hNot | hAll)
      · exact absurd hNot hFits
      · exact Or.inl ⟨rfl, hAll⟩

end Complete

/-
  Both calls are complete or fail exactly if the end of the
  range does not wrap or the pages were mapped so before.
-/
theorem range_complete_iff
    {wide : Bool}
    {img : Image}
    {mem : Nat → Buf}
    {supply : List Nat}
    {history : List (Call × Int)}
    {s : PagingState}
    (base size : Nat)
    (rw : Bool)
    (hFrames : FramesOk wide img supply)
    (hRuns : Runs wide img mem supply history s)
    (hSize : 0 < size)
    (hTop : base + size ≤ 2 ^ 32) :
    (RangeComplete wide img s base size rw ∧
        MmioComplete wide img s base size) ↔
      base + size + 0xFFF < 2 ^ 32 ∨
        ∀ va, va < 2 ^ 32 → Covers base size va →
          seen wide img s va = some (va, rw) := by
  obtain ⟨owner, hSound⟩ := hRuns.sound hFrames
  rw [rangeComplete_iff rw hSound hSize hTop]
  exact and_iff_left (mmioComplete base size hSound)

/- Static tables from 2 MiB on. -/
def lowImage : Image where
  pml4 := 0x200000
  pdpt := 0x201000
  pd := 0x202000
  pt0 := 0x203000
  pageDirectory := 0x200000
  pageTables := 0x201000
  aligned64 := by decide
  apart64 := by decide
  aligned32 := by decide
  below32 := by decide
  apart32 := by
    intro t _
    unfold rowAt
    omega

/- An allocator that has no frame. -/
theorem noFrames
    (wide : Bool)
    (img : Image) :
    FramesOk wide img [] where
  fresh := fun _ hMem => absurd hMem List.not_mem_nil
  apart := List.Pairwise.nil

theorem range_complete_iff_low :
    (RangeComplete false lowImage
          (pagingInit false lowImage (fun _ => Buf.zero) [])
          0x100000 0x1000 true ∧
        MmioComplete false lowImage
          (pagingInit false lowImage (fun _ => Buf.zero) [])
          0x100000 0x1000) ↔
      0x100000 + 0x1000 + 0xFFF < 2 ^ 32 ∨
        ∀ va, va < 2 ^ 32 → Covers 0x100000 0x1000 va →
          seen false lowImage
            (pagingInit false lowImage (fun _ => Buf.zero) [])
            va = some (va, true) :=
  range_complete_iff 0x100000 0x1000 true
    (noFrames false lowImage) .start (by decide) (by decide)

/- The last page is in no table at the start. -/
theorem seen_last
    (wide : Bool) :
    seen wide lowImage
      (pagingInit wide lowImage (fun _ => Buf.zero) [])
      0xFFFFF000 = none := by
  rw [seen_eq, pagingInit_look _ _ _
    (space_of_word wide (by decide))]
  decide

/- The last page of the address space is not mapped, and the
  call reports success. -/
theorem lastPage_incomplete :
    ¬RangeComplete true lowImage
        (pagingInit true lowImage (fun _ => Buf.zero) [])
        0xFFFFF000 0x1000 true ∧
      ¬RangeComplete false lowImage
        (pagingInit false lowImage (fun _ => Buf.zero) [])
        0xFFFFF000 0x1000 true := by
  have hBoth : ∀ wide, ¬RangeComplete wide lowImage
      (pagingInit wide lowImage (fun _ => Buf.zero) [])
      0xFFFFF000 0x1000 true := by
    intro wide hComplete
    unfold RangeComplete at hComplete
    rw [pagingMapRange_wraps true (by decide) (by decide)]
      at hComplete
    rcases hComplete with ⟨_, hAll⟩ | hNegative
    · have hPage := hAll 0xFFFFF000 (by decide) (by decide)
      rw [seen_last wide] at hPage
      cases hPage
    · exact absurd hNegative (Int.lt_irrefl 0)
  exact ⟨hBoth true, hBoth false⟩

--
-- Local Updates
--

end KvantOS.PageTables
