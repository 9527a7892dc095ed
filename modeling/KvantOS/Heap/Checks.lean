import KvantOS.Heap.Runs

/-
  This file compares the self-check of the heap with the
  allocator: pointers are multiples of eight, and the check
  finds nothing wrong, when headers are multiples of eight.

  Key definitions include:
    * `Run`, `HeapCall.Plain`, `Unserved`

  Key theorems include:
    * `heapStats_spec`, `run_fresh_or_first`
    * `heapStats_exact_iff`
-/

namespace KvantOS.Heap

open Blocks

variable {wide : Bool} {start size n : Nat} {h : HeapState}
variable {cells : List Cell}

--
-- The Walk
--

/- The low bits that an address is checked for. -/
theorem and_seven_eq_zero
    {a : Nat}
    (hDvd : 8 ∣ a) :
    a &&& 7 = 0 := by
  have hMask : a &&& 7 = a % 2 ^ 3 :=
    Nat.and_two_pow_sub_one_eq_mod a 3
  rw [hMask]
  exact Nat.mod_eq_zero_of_dvd hDvd

variable {b next prev : Nat} {c : Cell}

theorem goodBlock_of_header
    (hHeader : HeaderAt wide h.mem b c next prev)
    (hLow : h.heapStart ≤ b)
    (hHigh : b + sizeofBlock wide ≤ h.heapEnd)
    (hTop : h.heapEnd < 2 ^ 32)
    (hDvd : 8 ∣ b) :
    goodBlock wide h b = true := by
  have hWord : 2 ^ 32 ≤ 2 ^ wordBits wide := by
    cases wide <;> decide
  have hMagic : (get wide h.mem b .magic != magicUsed &&
      get wide h.mem b .magic != magicFree) = false := by
    rw [hHeader.magic]
    cases c.used <;> decide
  unfold goodBlock
  dsimp only
  rw [Nat.mod_eq_of_lt (a := b) (by omega),
    Nat.mod_eq_of_lt (by omega), and_seven_eq_zero hDvd,
    hMagic]
  simp
  omega

theorem goodLink_of_header
    (hHeader : HeaderAt wide h.mem b c next prev)
    (hBelow : b < 2 ^ 32)
    (hNext : next ≠ 0 → b < next ∧
      next + sizeofBlock wide ≤ h.heapEnd ∧ 8 ∣ next)
    (hTop : h.heapEnd < 2 ^ 32) :
    goodLink wide h b = true := by
  have hWord : 2 ^ 32 ≤ 2 ^ wordBits wide := by
    cases wide <;> decide
  unfold goodLink
  rw [hHeader.next]
  by_cases hZero : next = 0
  · simp [hZero]
  · have hFacts := hNext hZero
    dsimp only
    rw [Nat.mod_eq_of_lt hBelow, Nat.mod_eq_of_lt (by omega),
      Word.sub_of_le (by omega) (by omega),
      and_seven_eq_zero hFacts.2.2]
    simp [hZero]
    omega

/- The walk of the self-check over aligned blocks. -/
theorem heapStats_spec
    {prev b fuel : Nat}
    (hSeg : Seg wide h.mem prev b cells 0)
    (hStart : b ≠ 0)
    (hLow : h.heapStart ≤ b)
    (hEnd : b + span (sizeofBlock wide) cells = h.heapEnd)
    (hTop : h.heapEnd < 2 ^ 32)
    (hDvd : ∀ pre c post, cells = pre ++ c :: post →
      8 ∣ b + span (sizeofBlock wide) pre)
    (hFuel : cells.length < fuel) :
    heapStats wide fuel h (linkTo b 0 cells) =
      some (cells.length, true) := by
  have hPos := sizeofBlock_pos wide
  induction cells generalizing prev b fuel with
  | nil =>
      obtain ⟨fuel, rfl⟩ : ∃ f, fuel = f + 1 :=
        ⟨fuel - 1, by omega⟩
      simp [heapStats, linkTo]
  | cons c rest ih =>
      simp only [List.length_cons] at hFuel
      obtain ⟨fuel, rfl⟩ : ∃ f, fuel = f + 1 :=
        ⟨fuel - 1, by omega⟩
      rcases hSeg with ⟨hHeader, hRest⟩
      simp only [span] at hEnd
      have hBlock := goodBlock_of_header hHeader hLow
        (by omega) hTop (hDvd [] c rest rfl)
      have hLater : ∀ pre d post, rest = pre ++ d :: post →
          8 ∣ b + sizeofBlock wide + c.size +
            span (sizeofBlock wide) pre := by
        rintro pre d post rfl
        have hAll := hDvd (c :: pre) d post rfl
        simp only [span] at hAll
        have hSum : b + sizeofBlock wide + c.size +
            span (sizeofBlock wide) pre =
            b + (sizeofBlock wide + c.size +
              span (sizeofBlock wide) pre) := by omega
        rwa [hSum]
      have hLink : goodLink wide h b = true := by
        apply goodLink_of_header hHeader (by omega) _ hTop
        cases rest with
        | nil => exact fun hNe => absurd rfl hNe
        | cons d rest =>
            intro _
            have hNext := hLater [] d rest rfl
            simp only [span] at hEnd
            simp only [linkTo]
            exact ⟨by omega, by omega, hNext⟩
      have hWalk := ih hRest (by omega) (by omega)
        (by omega) hLater (show rest.length < fuel by omega)
      have hHere : linkTo b 0 (c :: rest) = b := rfl
      rw [hHere]
      simp only [heapStats, if_neg hStart, hBlock, hLink,
        hHeader.next, hWalk, Bool.not_true,
        Bool.false_eq_true, if_false, Option.map_some,
        List.length_cons]

/- The self-check of a heap whose blocks are aligned. -/
theorem Inv.stats
    {s : Client}
    (hInv : Inv wide start size s cells)
    (hBelow : start + size < 2 ^ 32)
    (hDvd : ∀ pre c post, cells = pre ++ c :: post →
      8 ∣ start + span (sizeofBlock wide) pre) :
    heapStats wide s.heap.fuel s.heap s.heap.head =
      some (cells.length, true) := by
  have hWhole := hInv.whole
  have hAbove := hWhole.above
  have hEnd := hWhole.heapEnd
  rw [Nat.mod_eq_of_lt hBelow] at hEnd
  have hHead : s.heap.head = linkTo start 0 cells := by
    rw [hWhole.head]
    cases cells with
    | nil => exact absurd rfl hWhole.nonempty
    | cons c rest => rfl
  rw [hHead]
  apply heapStats_spec hWhole.seg (by omega)
  · rw [hWhole.heapStart]
  · rw [hWhole.span_eq, hEnd]
  · rw [hEnd]
    exact hBelow
  · exact hDvd
  · exact hWhole.length_le

/- An arena at the very top fails the check at once. -/
theorem heapStats_top
    (hArena : Arena wide start size)
    (hWhole : Whole wide start size h cells)
    (hTop : start + size = 2 ^ 32) :
    heapStats wide h.fuel h h.head = some (0, false) := by
  have hLow := hArena.low
  have hRoom := hArena.room
  have hPos := sizeofBlock_pos wide
  have hWord : 2 ^ 32 ≤ 2 ^ wordBits wide := by
    cases wide <;> decide
  have hBad : goodBlock wide h start = false := by
    unfold goodBlock
    dsimp only
    rw [hWhole.heapEnd, hTop, Nat.mod_self,
      Nat.mod_eq_of_lt (a := start) (by omega),
      Nat.mod_eq_of_lt (by omega)]
    have hEnd : decide (0 < start + sizeofBlock wide) = true :=
      decide_eq_true (by omega)
    rw [hEnd]
    simp only [Bool.or_true, Bool.true_or, Bool.not_true]
  rw [hWhole.head]
  unfold HeapState.fuel heapStats
  rw [if_neg (by omega), hBad]
  rfl

--
-- Runs
--

/- Calls from a fresh heap on, and the pointers returned. -/
inductive Run
    (wide : Bool)
    (start size : Nat) :
    List HeapCall → Client → List Nat → Prop where
  | init (m : Buf) :
      Run wide start size []
        ⟨heapInit wide m start size, []⟩ []
  | step
      {calls : List HeapCall}
      {s s' : Client}
      {pointers : List Nat}
      {call : HeapCall}
      {p : Nat}
      (hRun : Run wide start size calls s pointers)
      (hAllowed : Allowed s call)
      (hStep : step wide s call = some (s', p)) :
      Run wide start size (calls ++ [call]) s'
        (pointers ++ [p])

/- `kmalloc` and `kfree`. -/
def HeapCall.Plain : HeapCall → Prop
  | .kmalloc _ | .kfree _ => True
  | _ => False

/- A fresh arena refuses every request of the calls. -/
def Unserved
    (wide : Bool)
    (size : Nat)
    (calls : List HeapCall) : Prop :=
  ∀ n, .kmalloc n ∈ calls →
    n = 0 ∨ size - sizeofBlock wide < (n + 7) / 8 * 8

variable {calls : List HeapCall} {s : Client}
variable {pointers : List Nat}

theorem Run.reach
    (hRun : Run wide start size calls s pointers) :
    Reach wide start size s := by
  induction hRun with
  | init m => exact Reach.init m
  | step _ hAllowed hStep ih =>
      exact Reach.step ih hAllowed hStep

/- Pointers are multiples of eight when headers are. -/
theorem run_aligned
    (hArena : Arena wide start size)
    (hHeader : 8 ∣ sizeofBlock wide)
    (hStart : 8 ∣ start)
    (hSize : 8 ∣ size)
    (hRun : Run wide start size calls s pointers) :
    ∀ p ∈ pointers, 8 ∣ p := by
  induction hRun with
  | init m => simp
  | @step calls s s' pointers call p hRun hAllowed hStep ih =>
      obtain ⟨cells, hInv⟩ := reach_inv hArena hRun.reach
      obtain ⟨s₁, p₁, cells', hStep', hKeeps, hPoints, _⟩ :=
        step_inv hArena hInv hAllowed
      rw [hStep, Option.some.injEq, Prod.mk.injEq] at hStep'
      obtain ⟨rfl, rfl⟩ := hStep'
      intro q hMem
      rcases List.mem_append.mp hMem with hOld | hNew
      · exact ih q hOld
      · rw [List.mem_singleton.mp hNew]
        rcases hPoints with rfl | ⟨e, he, rfl⟩
        · exact Nat.dvd_zero 8
        · exact dvd_payloads hStart hHeader
            (hKeeps.whole.aligned hHeader hSize) e he

/- A request to a heap that is still fresh. -/
theorem fresh_kmalloc
    (m : Buf)
    (hArena : Arena wide start size)
    (n : Nat) :
    (kmalloc wide (heapInit wide m start size) n =
          some (heapInit wide m start size, 0) ∧
        (n = 0 ∨
          size - sizeofBlock wide < (n + 7) / 8 * 8)) ∨
      ∃ h, kmalloc wide (heapInit wide m start size) n =
          some (h, start + sizeofBlock wide) ∧ n ≠ 0 ∧
        (n + 7) / 8 * 8 ≤ size - sizeofBlock wide := by
  have hWhole := whole_heapInit m hArena
  have hLow := hArena.low
  have hTop := hArena.top
  by_cases hZero : n = 0
  · exact Or.inl ⟨by simp [kmalloc, hZero], Or.inl hZero⟩
  by_cases hLarge : 0xFFFFFFF0 < n
  · exact Or.inl ⟨by simp [kmalloc, hLarge],
      Or.inr (by omega)⟩
  have hAlign := align8_eq (Nat.le_of_not_lt hLarge)
  by_cases hFits : (n + 7) / 8 * 8 ≤ size - sizeofBlock wide
  · have hCells : Whole wide start size
        (heapInit wide m start size)
        ([] ++ ⟨size - sizeofBlock wide, false⟩ :: []) :=
      hWhole
    refine Or.inr ⟨_, kmalloc_found hCells (by omega)
      (by omega) (by simp) ?_, hZero, hFits⟩
    exact ⟨rfl, by rw [hAlign]; exact hFits⟩
  · refine Or.inl ⟨kmalloc_none hWhole ?_,
      Or.inr (by omega)⟩
    intro c hMem hHolds
    rw [List.mem_singleton.mp hMem] at hHolds
    have hEnough := hHolds.2
    rw [hAlign] at hEnough
    exact hFits hEnough

/-
  Either nothing was served yet, or the first block served
  lies behind the first header.
-/
theorem run_fresh_or_first
    (hArena : Arena wide start size)
    (hRun : Run wide start size calls s pointers)
    (hPlain : ∀ call ∈ calls, call.Plain) :
    ((∃ m, s = ⟨heapInit wide m start size, []⟩) ∧
        Unserved wide size calls ∧ ∀ p ∈ pointers, p = 0) ∨
      (start + sizeofBlock wide ∈ pointers ∧
        ¬Unserved wide size calls) := by
  induction hRun with
  | init m =>
      refine Or.inl ⟨⟨m, rfl⟩, ?_, by simp⟩
      intro n hMem
      cases hMem
  | @step calls s s' pointers call p _ hAllowed hStep ih =>
      have hLast : call.Plain :=
        hPlain call (by simp)
      rcases ih (fun c hMem => hPlain c (by simp [hMem])) with
        ⟨⟨m, rfl⟩, hNone, hNull⟩ | ⟨hFirst, hSome⟩
      · cases call with
        | kmalloc n =>
            rcases fresh_kmalloc m hArena n with
              ⟨hRefused, hWhy⟩ | ⟨h, hServed, hPos, hFits⟩
            · left
              simp only [step, hRefused, Option.map_some,
                Option.some.injEq, Prod.mk.injEq] at hStep
              obtain ⟨rfl, rfl⟩ := hStep
              refine ⟨⟨m, rfl⟩, ?_, ?_⟩
              · intro k hMem
                rcases List.mem_append.mp hMem with hOld | hNew
                · exact hNone k hOld
                · simp only [List.mem_singleton,
                    HeapCall.kmalloc.injEq] at hNew
                  rw [hNew]
                  exact hWhy
              · intro q hMem
                rcases List.mem_append.mp hMem with hOld | hNew
                · exact hNull q hOld
                · exact List.mem_singleton.mp hNew
            · right
              simp only [step, hServed, Option.map_some,
                Option.some.injEq, Prod.mk.injEq] at hStep
              obtain ⟨rfl, rfl⟩ := hStep
              refine ⟨by simp, fun hAll => ?_⟩
              rcases hAll n (by simp) with hZero | hShort
              · exact hPos hZero
              · omega
        | kfree q =>
            left
            rcases hAllowed with rfl | ⟨e, hMem, _⟩
            · simp only [step, kfree, true_or, if_true,
                Option.map_some, List.filter_nil,
                Option.some.injEq, Prod.mk.injEq] at hStep
              obtain ⟨rfl, rfl⟩ := hStep
              refine ⟨⟨m, rfl⟩, ?_, ?_⟩
              · intro k hMem
                apply hNone k
                simpa using hMem
              · intro q hMem
                rcases List.mem_append.mp hMem with hOld | hNew
                · exact hNull q hOld
                · exact List.mem_singleton.mp hNew
            · cases hMem
        | kcalloc _ _ => exact hLast.elim
        | kstrdup _ => exact hLast.elim
        | store _ _ => exact hLast.elim
      · right
        refine ⟨by simp [hFirst], fun hAll => hSome ?_⟩
        exact fun n hMem => hAll n (by simp [hMem])

/-
  For every run of `kmalloc` and `kfree` from a heap whose
  start and size are multiples of eight: all pointers are,
  and the self-check finds and counts every block, exactly
  when the arena ends below 4 GiB and either the build is
  the 64-bit one or no request was served.
-/
theorem heapStats_exact_iff
    (wide : Bool)
    (start size : Nat)
    (hArena : Arena wide start size)
    (hStart : 8 ∣ start)
    (hSize : 8 ∣ size)
    (calls : List HeapCall)
    (s : Client)
    (pointers : List Nat)
    (hRun : Run wide start size calls s pointers)
    (hPlain : ∀ call ∈ calls, call.Plain) :
    ((∀ p ∈ pointers, 8 ∣ p) ∧
        ∃ cells, Sound wide start size s cells ∧
          heapStats wide s.heap.fuel s.heap s.heap.head =
            some (cells.length, true)) ↔
      start + size < 2 ^ 32 ∧
        (wide = true ∨ Unserved wide size calls) := by
  have hLow := hArena.low
  have hTop := hArena.top
  have hFresh := run_fresh_or_first hArena hRun hPlain
  constructor
  · rintro ⟨hAligned, cells, hSound, hStats⟩
    obtain ⟨cells', hInv⟩ := reach_inv hArena hRun.reach
    refine ⟨?_, ?_⟩
    · by_contra hHigh
      have hBad := heapStats_top hArena hInv.whole (by omega)
      rw [hStats] at hBad
      simp at hBad
    · rcases hFresh with ⟨_, hNone, _⟩ | ⟨hFirst, _⟩
      · exact Or.inr hNone
      · have hOdd := hAligned _ hFirst
        cases wide with
        | true => exact Or.inl rfl
        | false =>
            have hTwenty : sizeofBlock false = 20 := rfl
            rw [hTwenty] at hOdd
            omega
  · rintro ⟨hBelow, hWhy⟩
    by_cases hWide : wide = true
    · subst hWide
      have hHeader : 8 ∣ sizeofBlock true := by decide
      obtain ⟨cells, hInv⟩ := reach_inv hArena hRun.reach
      refine ⟨run_aligned hArena hHeader hStart hSize hRun,
        cells, hInv.sound hArena, hInv.stats hBelow ?_⟩
      rintro pre c post rfl
      have hSizes := hInv.whole.aligned hHeader hSize
      exact Nat.dvd_add hStart (dvd_span hHeader
        (fun d hd => hSizes d (by simp [hd])))
    · rcases hFresh with ⟨⟨m, rfl⟩, _, hNull⟩ | ⟨_, hServed⟩
      · have hInv := inv_init m hArena
        refine ⟨fun p hMem => ?_, _, hInv.sound hArena,
          hInv.stats hBelow ?_⟩
        · rw [hNull p hMem]
          exact Nat.dvd_zero 8
        · intro pre c post hCells
          cases pre with
          | nil => exact hStart
          | cons d rest => simp at hCells
      · rcases hWhy with hTrue | hNone
        · exact absurd hTrue hWide
        · exact absurd hNone hServed

/- The first request on the 64-bit build. -/
theorem heapStats_exact_first :
    ∃ s p cells,
      step true
        ⟨heapInit true Buf.zero 0x400000 256, []⟩
        (.kmalloc 10) = some (s, p) ∧
      8 ∣ p ∧ Sound true 0x400000 256 s cells ∧
      heapStats true s.heap.fuel s.heap s.heap.head =
        some (cells.length, true) := by
  have hArena : Arena true 0x400000 256 :=
    ⟨by decide, by decide, by decide⟩
  have hAllowed : Allowed
      ⟨heapInit true Buf.zero 0x400000 256, []⟩
      (.kmalloc 10) :=
    trivial
  obtain ⟨s, p, _, hStep, _⟩ := step_inv hArena
    (inv_init Buf.zero hArena) hAllowed
  have hRun := Run.step (Run.init Buf.zero) hAllowed hStep
  obtain ⟨hAligned, cells, hSound, hStats⟩ :=
    (heapStats_exact_iff true 0x400000 256 hArena
      (by decide) (by decide) _ s _ hRun (by
        intro call hMem
        rw [List.nil_append, List.mem_singleton] at hMem
        rw [hMem]
        trivial)).mpr ⟨by decide, Or.inl rfl⟩
  exact ⟨s, p, cells, hStep, hAligned p (by simp), hSound,
    hStats⟩

/-
  On the 32-bit build the first pointer is not a multiple of
  eight, and the self-check stops at the second block.
-/
theorem heapStats_misaligned :
    (step false ⟨heapInit false Buf.zero 0x400000 256, []⟩
        (.kmalloc 1)).map
      (fun r => (r.2, heapStats false r.1.heap.fuel
        r.1.heap r.1.heap.head)) =
      some (0x400014, some (1, false)) ∧
    ¬8 ∣ 0x400014 := by
  decide +kernel

end KvantOS.Heap
