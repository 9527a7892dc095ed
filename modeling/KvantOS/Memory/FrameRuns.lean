import KvantOS.Memory.FrameMap

/-
  This file follows the frame allocator through every
  sequence of calls after the boot: what it hands out is
  usable, not reserved and not in use.

  Key definitions include:
    * `FrameCall`, `Frames`
    * `step`, `Allowed`, `Careful`, `FrameReach`
    * `FrameInv`, `FrameSafe`

  Key theorems include:
    * `step_inv`, `frames_safe`
-/

namespace KvantOS.Memory

--
-- Calls
--

/- The calls on the allocator; frames are given by number. -/
inductive FrameCall where
  | alloc
  | free (i : Nat)
  | reserve (base size : Nat)

/- The frames in use, and those of reserved ranges. -/
structure Frames where
  pmm : Pmm
  live : List Nat
  reserved : Nat → Prop

/- The frame shares memory with a range. -/
def Meets (base size i : Nat) : Prop :=
  base < (i + 1) * frameSize ∧ i * frameSize < base + size

/- The state after a call. -/
def step
    (s : Frames) : FrameCall → Option Frames
  | .alloc =>
      let r := pmmAllocFrame s.pmm
      some
        { s with
          pmm := r.1
          live :=
            if r.2 = 0 then s.live
            else r.2 / frameSize :: s.live }
  | .free i =>
      some
        { s with
          pmm := pmmFreeFrame s.pmm (i * frameSize)
          live := s.live.filter (· != i) }
  | .reserve base size =>
      (pmmReserveRange s.pmm base size).map (fun p =>
        { s with
          pmm := p
          reserved := fun i =>
            s.reserved i ∨ Meets base size i })

/- Only frames in use go back. -/
def Allowed (s : Frames) : FrameCall → Prop
  | .free i => i ∈ s.live
  | _ => True

/-
  A range is reserved whose end can be rounded up in 32 bits,
  and no frame goes back that a range has reserved.
-/
def Careful (s : Frames) : FrameCall → Prop
  | .alloc => True
  | .free i => ¬s.reserved i
  | .reserve base size => base + size + 4095 < 2 ^ 32

/- The states that careful calls lead to. -/
inductive FrameReach (s₀ : Pmm) : Frames → Prop where
  | init : FrameReach s₀ ⟨s₀, [], fun _ => False⟩
  | step
      {s s' : Frames}
      {call : FrameCall}
      (hReach : FrameReach s₀ s)
      (hAllowed : Allowed s call)
      (hCareful : Careful s call)
      (hStep : step s call = some s') :
      FrameReach s₀ s'

--
-- The Invariant
--

/- The clear bits are the frames left to hand out. -/
structure FrameInv
    (usable : Nat → Prop)
    (s : Frames) : Prop where
  counted : Counted s.pmm
  clear : ∀ i, s.pmm.frameBitmap.test i = false ↔
    usable i ∧ ¬s.reserved i ∧ i ∉ s.live
  total : ∀ i, usable i → i < s.pmm.totalFrames

variable {usable : Nat → Prop} {s : Frames}

/- The first clear bit, or none below `total_frames`. -/
theorem pmmAllocFrame_cases (p : Pmm) :
    (∃ i, i < p.totalFrames ∧
        p.frameBitmap.test i = false ∧
        pmmAllocFrame p =
          ({ p with
            frameBitmap := p.frameBitmap.set i
            usedFrames := (p.usedFrames + 1) % 2 ^ 32 },
            i * frameSize)) ∨
      ((∀ i, i < p.totalFrames →
          p.frameBitmap.test i = true) ∧
        pmmAllocFrame p = (p, 0)) := by
  unfold pmmAllocFrame
  cases hFind : (List.range p.totalFrames).find?
      (fun i => !p.frameBitmap.test i) with
  | some i =>
      have hMem := List.mem_of_find?_eq_some hFind
      have hFree := List.find?_some hFind
      exact Or.inl ⟨i, List.mem_range.mp hMem,
        by simpa using hFree, rfl⟩
  | none =>
      refine Or.inr ⟨?_, rfl⟩
      intro i hi
      have hAll := List.find?_eq_none.mp hFind i
        (List.mem_range.mpr hi)
      simpa using hAll

theorem alloc_inv
    (hInv : FrameInv usable s)
    (hFirst : ¬usable 0) :
    ∃ s', step s .alloc = some s' ∧ FrameInv usable s' := by
  rcases pmmAllocFrame_cases s.pmm with
    ⟨i, hi, hFree, hAlloc⟩ | ⟨_, hAlloc⟩
  · have hMark := markUsed_spec hInv.counted i
    have hSame : markUsed s.pmm i =
        { s.pmm with
          frameBitmap := s.pmm.frameBitmap.set i
          usedFrames :=
            (s.pmm.usedFrames + 1) % 2 ^ 32 } := by
      unfold markUsed
      rw [if_pos ⟨hi, hFree⟩]
    rw [hSame] at hMark
    have hUsable := (hInv.clear i).mp hFree
    have hNotZero : ¬i * frameSize = 0 := by
      intro hZero
      have hHere : i = 0 := by
        unfold frameSize at hZero
        omega
      rw [hHere] at hUsable
      exact hFirst hUsable.1
    have hNumber : i * frameSize / frameSize = i :=
      Nat.mul_div_cancel i (by decide)
    refine ⟨_, rfl, ?_⟩
    simp only [hAlloc, if_neg hNotZero, hNumber]
    refine ⟨hMark.counted, ?_, ?_⟩
    · intro j
      dsimp only
      rw [← Bool.not_eq_true, hMark.test, not_or,
        Bool.not_eq_true, hInv.clear, List.mem_cons, not_or]
      constructor
      · rintro ⟨⟨hUsable, hFree, hLive⟩, hNot⟩
        exact ⟨hUsable, hFree,
          fun hEq => hNot ⟨by rw [hEq]; exact hi, hEq⟩,
          hLive⟩
      · rintro ⟨hUsable, hFree, hNe, hLive⟩
        exact ⟨⟨hUsable, hFree, hLive⟩, fun hEq => hNe hEq.2⟩
    · intro j hUsable
      rw [hMark.total]
      exact hInv.total j hUsable
  · refine ⟨_, rfl, ?_⟩
    simp only [hAlloc, if_true]
    exact hInv

theorem free_inv
    {i : Nat}
    (hInv : FrameInv usable s)
    (hLive : i ∈ s.live)
    (hCareful : ¬s.reserved i)
    (hUsable : usable i) :
    ∃ s', step s (.free i) = some s' ∧
      FrameInv usable s' := by
  have hNumber : i * frameSize / frameSize = i :=
    Nat.mul_div_cancel i (by decide)
  have hMark := markFree_spec hInv.counted i
  have hBelow := hInv.total i hUsable
  refine ⟨_, rfl, ?_⟩
  unfold pmmFreeFrame
  rw [hNumber]
  refine ⟨hMark.counted, ?_, ?_⟩
  · intro j
    rw [hMark.test, hInv.clear, List.mem_filter]
    by_cases hHere : j = i
    · subst hHere
      simp [hBelow, hUsable, hCareful]
    · simp [hHere]
  · intro j hj
    rw [hMark.total]
    exact hInv.total j hj

/- The frames that a loop over a range passes over. -/
theorem meets_iff
    {base size : Nat}
    (hCareful : base + size + 4095 < 2 ^ 32)
    (i : Nat) :
    (roundDown base ≤ i * frameSize ∧
        i * frameSize < roundUp ((base + size) % 2 ^ 32)) ↔
      Meets base size i := by
  rw [roundDown_eq (by omega), roundUp_eq,
    Nat.mod_eq_of_lt (a := base + size) (by omega),
    Nat.mod_eq_of_lt hCareful]
  unfold Meets frameSize
  omega

theorem reserve_inv
    {base size : Nat}
    (hInv : FrameInv usable s)
    (hCareful : base + size + 4095 < 2 ^ 32) :
    ∃ s', step s (.reserve base size) = some s' ∧
      FrameInv usable s' := by
  have hEnd := roundUp_le ((base + size) % 2 ^ 32)
  obtain ⟨p, hLoop, hTaken⟩ := setFrames_spec rounds
    (a := roundDown base) hInv.counted (by
      rw [roundDown_eq (by omega)]
      exact Nat.dvd_mul_left _ _)
    (roundUp_aligned _) hEnd (by
      unfold lastFrame at hEnd
      unfold rounds maxFrames frameSize
      omega)
  have hStep : step s (.reserve base size) =
      some ⟨p, s.live,
        fun i => s.reserved i ∨ Meets base size i⟩ := by
    simp only [step, pmmReserveRange, hLoop,
      Option.map_some]
  refine ⟨_, hStep, hTaken.counted, ?_, ?_⟩
  · intro i
    rw [← Bool.not_eq_true, hTaken.test, not_or,
      Bool.not_eq_true, hInv.clear, meets_iff hCareful]
    dsimp only
    constructor
    · rintro ⟨⟨hUsable, hFree, hLive⟩, hNot⟩
      refine ⟨hUsable, ?_, hLive⟩
      rintro (hOld | hNew)
      · exact hFree hOld
      · exact hNot ⟨hInv.total i hUsable, hNew⟩
    · rintro ⟨hUsable, hFree, hLive⟩
      exact ⟨⟨hUsable, fun hOld => hFree (Or.inl hOld), hLive⟩,
        fun hNew => hFree (Or.inr hNew.2)⟩
  · intro i hi
    rw [hTaken.total]
    exact hInv.total i hi

/- Frames in use were handed out by the allocator. -/
structure FrameRun
    (usable : Nat → Prop)
    (s : Frames) : Prop where
  inv : FrameInv usable s
  owned : ∀ i ∈ s.live, usable i

theorem step_inv
    {call : FrameCall}
    (hRun : FrameRun usable s)
    (hFirst : ¬usable 0)
    (hAllowed : Allowed s call)
    (hCareful : Careful s call) :
    ∃ s', step s call = some s' ∧ FrameRun usable s' := by
  cases call with
  | alloc =>
      obtain ⟨s', hStep, hInv⟩ := alloc_inv hRun.inv hFirst
      refine ⟨s', hStep, hInv, ?_⟩
      simp only [step, Option.some.injEq] at hStep
      subst hStep
      intro j hMem
      rcases pmmAllocFrame_cases s.pmm with
        ⟨i, _, hFree, hAlloc⟩ | ⟨_, hAlloc⟩
      · simp only [hAlloc] at hMem
        split at hMem
        · exact hRun.owned j hMem
        · rcases List.mem_cons.mp hMem with rfl | hOld
          · rw [Nat.mul_div_cancel i (by decide)]
            exact ((hRun.inv.clear i).mp hFree).1
          · exact hRun.owned j hOld
      · simp only [hAlloc, if_true] at hMem
        exact hRun.owned j hMem
  | free i =>
      obtain ⟨s', hStep, hInv⟩ := free_inv hRun.inv hAllowed
        hCareful (hRun.owned i hAllowed)
      refine ⟨s', hStep, hInv, ?_⟩
      simp only [step, Option.some.injEq] at hStep
      subst hStep
      intro j hMem
      exact hRun.owned j (List.mem_filter.mp hMem).1
  | reserve base size =>
      obtain ⟨s', hStep, hInv⟩ :=
        reserve_inv hRun.inv hCareful
      refine ⟨s', hStep, hInv, ?_⟩
      simp only [step, Option.map_eq_some_iff] at hStep
      obtain ⟨p, _, rfl⟩ := hStep
      exact hRun.owned

--
-- Runs
--

/- What holds of the allocator in a state. -/
structure FrameSafe
    (usable : Nat → Prop)
    (s : Frames) : Prop where
  counted : s.pmm.usedFrames =
    s.pmm.frameBitmap.count s.pmm.totalFrames
  granted : (pmmAllocFrame s.pmm).2 ≠ 0 →
    ∃ i, (pmmAllocFrame s.pmm).2 = i * frameSize ∧
      usable i ∧ ¬s.reserved i ∧ i ∉ s.live
  refused : (pmmAllocFrame s.pmm).2 = 0 →
    ∀ i, usable i → s.reserved i ∨ i ∈ s.live

theorem FrameRun.safe
    (hRun : FrameRun usable s)
    (hFirst : ¬usable 0) :
    FrameSafe usable s where
  counted := hRun.inv.counted.used
  granted := by
    intro hNe
    rcases pmmAllocFrame_cases s.pmm with
      ⟨i, _, hFree, hAlloc⟩ | ⟨_, hAlloc⟩
    · exact ⟨i, by rw [hAlloc], (hRun.inv.clear i).mp hFree⟩
    · rw [hAlloc] at hNe
      exact absurd rfl hNe
  refused := by
    intro hZero i hUsable
    rcases pmmAllocFrame_cases s.pmm with
      ⟨j, _, hFree, hAlloc⟩ | ⟨hAll, _⟩
    · rw [hAlloc] at hZero
      have hHere : j = 0 := by
        dsimp only at hZero
        unfold frameSize at hZero
        omega
      rw [hHere] at hFree
      exact absurd ((hRun.inv.clear 0).mp hFree).1 hFirst
    · by_contra hNot
      rw [not_or] at hNot
      have hFree := (hRun.inv.clear i).mpr ⟨hUsable, hNot⟩
      rw [hAll i (hRun.inv.total i hUsable)] at hFree
      cases hFree

theorem reach_run
    {s₀ : Pmm}
    (hCounted : Counted s₀)
    (hClear : ∀ i, s₀.frameBitmap.test i = false ↔ usable i)
    (hTotal : ∀ i, usable i → i < s₀.totalFrames)
    (hFirst : ¬usable 0)
    (hReach : FrameReach s₀ s) :
    FrameRun usable s := by
  induction hReach with
  | init =>
      refine ⟨⟨hCounted, ?_, hTotal⟩, by simp⟩
      intro i
      simp [hClear i]
  | step _ hAllowed hCareful hStep ih =>
      obtain ⟨s', hStep', hNext⟩ :=
        step_inv ih hFirst hAllowed hCareful
      rw [hStep, Option.some.injEq] at hStep'
      rw [hStep']
      exact hNext

/-
  The boot leaves exactly the usable frames free when and
  only when the map fits the 32-bit loops, and then every
  state that careful calls lead to is safe.
-/
theorem frames_safe
    {m : Buf}
    {kernelEnd mmapAddr mmapLen : Nat}
    {entries : List Mmap}
    (hBoot : Booted m kernelEnd mmapAddr mmapLen entries)
    (memUpperKb : Nat) :
    (InitExact m kernelEnd memUpperKb mmapAddr mmapLen
        entries ↔
      MapFits kernelEnd memUpperKb entries) ∧
    (MapFits kernelEnd memUpperKb entries →
      ∀ s₀, pmmInit m kernelEnd memUpperKb mmapAddr mmapLen =
          some s₀ →
        ∀ s, FrameReach s₀ s →
          FrameSafe (Usable kernelEnd memUpperKb entries)
            s) := by
  have hExact := pmmInit_exact_iff hBoot memUpperKb
  refine ⟨hExact, ?_⟩
  intro hFits s₀ hInit s hReach
  obtain ⟨s₁, hInit', hCounted, hTotal, hClear⟩ :=
    hExact.mpr hFits
  rw [hInit, Option.some.injEq] at hInit'
  subst hInit'
  have hFirst : ¬Usable kernelEnd memUpperKb entries 0 := by
    rintro ⟨_, hPast, _⟩
    have hImage := hBoot.image
    omega
  have hRun := reach_run hCounted hClear
    (fun i hUsable => by rw [hTotal]; exact hUsable.1) hFirst
    hReach
  exact hRun.safe hFirst

/- A map of one available region. -/
def oneRegion (addr len : Nat) : Buf :=
  (((Buf.zero.put32 0x9000 20).put64 0x9004 addr).put64
    0x900C len).put32 0x9014 1

/- A megabyte at the second megabyte of memory. -/
theorem frames_safe_low :
    ∃ s₀, pmmInit (oneRegion 0x200000 0x100000) 0x200000
        0x10000 0x9000 24 = some s₀ ∧
      FrameSafe
        (Usable 0x200000 0x10000
          [⟨20, 0x200000, 0x100000, 1⟩])
        ⟨s₀, [], fun _ => False⟩ := by
  have hBoot : Booted (oneRegion 0x200000 0x100000) 0x200000
      0x9000 24 [⟨20, 0x200000, 0x100000, 1⟩] := by
    refine ⟨⟨by decide, by decide, rfl⟩, by decide,
      by decide, ?_, by decide, by decide⟩
    simp
  have hFits : MapFits 0x200000 0x10000
      [⟨20, 0x200000, 0x100000, 1⟩] := by
    refine ⟨by simp [loopEnd, lastFrame], ?_, ?_⟩
    · simp [lastFrame, frameSize]
    · simp [lastFrame, frameSize]
  have hSafe := frames_safe hBoot 0x10000
  obtain ⟨s₀, hInit, _⟩ := hSafe.1.mpr hFits
  exact ⟨s₀, hInit, hSafe.2 hFits s₀ hInit _ .init⟩

/-
  A region above 4 GiB frees frames of the same addresses
  modulo 2^32, where there is no memory.
-/
theorem pmmInit_strays :
    Booted (oneRegion (2 ^ 32) 0x1000000) 0x200000
        0x9000 24 [⟨20, 2 ^ 32, 0x1000000, 1⟩] ∧
      ∃ s, pmmInit (oneRegion (2 ^ 32) 0x1000000) 0x200000
          0x10000 0x9000 24 = some s ∧
        s.frameBitmap.test 0x300 = false ∧
        ¬Usable 0x200000 0x10000
          [⟨20, 2 ^ 32, 0x1000000, 1⟩] 0x300 := by
  have hBoot : Booted (oneRegion (2 ^ 32) 0x1000000) 0x200000
      0x9000 24 [⟨20, 2 ^ 32, 0x1000000, 1⟩] := by
    refine ⟨⟨by decide, by decide, rfl⟩, by decide,
      by decide, ?_, by decide, by decide⟩
    simp
  obtain ⟨s, hInit, _, _, hClear⟩ := pmmInit_spec hBoot
    0x10000 (by simp [loopEnd, lastFrame])
  refine ⟨hBoot, s, hInit, (hClear 0x300).mpr ?_, ?_⟩
  · refine ⟨by decide, by decide, _, List.mem_singleton_self _,
      rfl, Or.inl ⟨by decide, by decide⟩⟩
  · rintro ⟨_, _, e, hMem, _, hIn⟩
    rw [List.mem_singleton] at hMem
    subst hMem
    exact absurd hIn.1 (by decide)

end KvantOS.Memory
