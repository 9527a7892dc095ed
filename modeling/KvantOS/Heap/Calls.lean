import KvantOS.Heap.Blocks

/-
  This file shows what `kmalloc` and `kfree` do to the blocks
  of a heap: the first free block that holds a request is
  carved, and a block given back joins its free neighbours.

  Key definitions include:
    * `Whole`

  Key theorems include:
    * `whole_heapInit`, `kmalloc_none`, `kmalloc_found`
    * `merge_spec`, `kfree_spec`
-/

namespace KvantOS.Heap

open Blocks

variable {wide : Bool}

/- The blocks tile the arena that the heap was made for. -/
structure Whole
    (wide : Bool)
    (start size : Nat)
    (h : HeapState)
    (cells : List Cell) : Prop extends
    Lists wide h start cells where
  span_eq : span (sizeofBlock wide) cells = size
  coalesced : Coalesced cells
  nonempty : cells ≠ []
  head : h.head = start
  total : h.heapTotal = size
  heapStart : h.heapStart = start
  heapEnd : h.heapEnd = (start + size) % 2 ^ 32
  aligned : 8 ∣ sizeofBlock wide → 8 ∣ size →
    ∀ c ∈ cells, 8 ∣ c.size

/-
  An arena: it is longer than a header and lies between page
  zero, which is never mapped, and the end of the addresses.
-/
structure Arena
    (wide : Bool)
    (start size : Nat) : Prop where
  low : 0x1000 ≤ start
  top : start + size ≤ 2 ^ 32
  room : sizeofBlock wide < size

variable {start size : Nat}

theorem whole_heapInit
    (m : Buf)
    (hArena : Arena wide start size) :
    Whole wide start size (heapInit wide m start size)
      [⟨size - sizeofBlock wide, false⟩] := by
  have hLow := hArena.low
  have hTop := hArena.top
  have hRoom := hArena.room
  have hWord : 2 ^ 32 ≤ 2 ^ wordBits wide := by
    cases wide <;> decide
  have hSize : Word.sub (wordBits wide) size
      (sizeofBlock wide) = size - sizeofBlock wide :=
    Word.sub_of_le (by omega) (by omega)
  have hSmall : size - sizeofBlock wide < 2 ^ 32 := by omega
  unfold heapInit
  rw [hSize]
  refine
    { seg := ⟨⟨?_, ?_, ?_, ?_, ?_⟩, trivial⟩
      used := ?_
      above := by omega
      top := ?_
      span_eq := ?_
      coalesced := by simp [Coalesced]
      nonempty := by simp
      head := rfl
      total := rfl
      heapStart := rfl
      heapEnd := rfl
      aligned := ?_ }
  · rw [get_set_field (by decide), get_set_field (by decide),
      get_set_field (by decide), get_set_field (by decide),
      get_set_same (by decide)]
    rfl
  · rw [get_set_field (by decide), get_set_field (by decide),
      get_set_field (by decide), get_set_same hSmall]
  · rw [get_set_field (by decide), get_set_field (by decide),
      get_set_same (by decide)]
    rfl
  · rw [get_set_field (by decide), get_set_same (by decide)]
  · rw [get_set_same (by decide)]
    rfl
  · simp [taken]
  · simp only [span]
    omega
  · simp only [span]
    omega
  · intro hHeader hArenaSize c hMem
    rw [List.mem_singleton.mp hMem]
    exact Nat.dvd_sub hArenaSize hHeader

--
-- Requests
--

variable {h : HeapState} {n prev b : Nat} {c : Cell}
variable {pre post cells : List Cell}

/- The search passes a block that cannot serve. -/
theorem search_skip
    (fuel : Nat)
    {next : Nat}
    (hHeader : HeaderAt wide h.mem b c next prev)
    (hStart : b ≠ 0)
    (hShort : ¬c.Holds n) :
    search wide (fuel + 1) h b n =
      search wide fuel h next n := by
  have hFails : ¬(get wide h.mem b .free ≠ 0 ∧
      n ≤ get wide h.mem b .size) := by
    rw [hHeader.free_ne, hHeader.size]
    exact hShort
  conv_lhs => unfold search
  rw [if_neg hStart, if_neg hFails, hHeader.next]

theorem search_none
    {fuel : Nat}
    (hSeg : Seg wide h.mem prev b cells 0)
    (hStart : b ≠ 0)
    (hNone : ∀ c ∈ cells, ¬c.Holds n)
    (hFuel : cells.length < fuel) :
    search wide fuel h (linkTo b 0 cells) n = some (h, 0) := by
  induction cells generalizing prev b fuel with
  | nil =>
      obtain ⟨fuel, rfl⟩ : ∃ f, fuel = f + 1 :=
        ⟨fuel - 1, by omega⟩
      simp [search, linkTo]
  | cons c rest ih =>
      simp only [List.length_cons] at hFuel
      obtain ⟨fuel, rfl⟩ : ∃ f, fuel = f + 1 :=
        ⟨fuel - 1, by omega⟩
      have hSkip := search_skip fuel hSeg.1 hStart
        (hNone c (by simp))
      simp only [linkTo]
      rw [hSkip]
      exact ih hSeg.2 (by omega)
        (fun d hd => hNone d (by simp [hd])) (by omega)

theorem search_found
    {fuel : Nat}
    (hSeg : Seg wide h.mem prev b (pre ++ c :: post) 0)
    (hStart : b ≠ 0)
    (hPre : ∀ d ∈ pre, ¬d.Holds n)
    (hHolds : c.Holds n)
    (hFuel : pre.length < fuel) :
    search wide fuel h b n =
      some (handOut wide h
        (b + span (sizeofBlock wide) pre) n) := by
  induction pre generalizing prev b fuel with
  | nil =>
      obtain ⟨fuel, rfl⟩ : ∃ f, fuel = f + 1 :=
        ⟨fuel - 1, by omega⟩
      have hHere : get wide h.mem b .free ≠ 0 ∧
          n ≤ get wide h.mem b .size := by
        rw [hSeg.1.free_ne, hSeg.1.size]
        exact hHolds
      unfold search
      rw [if_neg hStart, if_pos hHere]
      rfl
  | cons d rest ih =>
      simp only [List.length_cons] at hFuel
      obtain ⟨fuel, rfl⟩ : ∃ f, fuel = f + 1 :=
        ⟨fuel - 1, by omega⟩
      rw [List.cons_append] at hSeg
      have hSkip := search_skip fuel hSeg.1 hStart
        (hPre d (by simp))
      have hLink : linkTo (b + sizeofBlock wide + d.size) 0
          (rest ++ c :: post) =
          b + sizeofBlock wide + d.size := by
        cases rest <;> rfl
      have hNext : b + span (sizeofBlock wide) (d :: rest) =
          b + sizeofBlock wide + d.size +
            span (sizeofBlock wide) rest := by
        simp only [span]
        omega
      rw [hSkip, hLink, hNext]
      exact ih hSeg.2 (by omega)
        (fun e he => hPre e (by simp [he])) (by omega)

/- `ALIGN8` rounds up to a multiple of eight. -/
theorem align8_eq
    (hSmall : n ≤ 0xFFFFFFF0) :
    align8 n = (n + 7) / 8 * 8 := by
  unfold align8
  exact Word.and_high (w := 32) (k := 3) (by omega)
    (by omega)

/- A block that holds a request is no longer than the arena. -/
theorem Whole.size_le
    (hWhole : Whole wide start size h (pre ++ c :: post)) :
    sizeofBlock wide + c.size ≤ size := by
  have hSpan := hWhole.span_eq
  simp only [span_append, span] at hSpan
  omega

theorem Whole.length_le
    (hWhole : Whole wide start size h cells) :
    cells.length < h.fuel := by
  have hLength := length_le_span
    (sizeofBlock_pos wide) cells
  have hSpan := hWhole.span_eq
  have hTotal := hWhole.total
  unfold HeapState.fuel
  omega

theorem kmalloc_none
    (hWhole : Whole wide start size h cells)
    (hNone : ∀ c ∈ cells, ¬c.Holds (align8 n)) :
    kmalloc wide h n = some (h, 0) := by
  have hAbove := hWhole.above
  have hHead : linkTo start 0 cells = start := by
    cases cells with
    | nil => exact absurd rfl hWhole.nonempty
    | cons c rest => rfl
  unfold kmalloc
  split
  · rfl
  · split
    · rfl
    · rw [hWhole.head, ← hHead]
      exact search_none hWhole.seg (by omega) hNone
        hWhole.length_le

theorem kmalloc_found
    (hWhole : Whole wide start size h (pre ++ c :: post))
    (hPos : 0 < n)
    (hSmall : n ≤ 0xFFFFFFF0)
    (hPre : ∀ d ∈ pre, ¬d.Holds (align8 n))
    (hHolds : c.Holds (align8 n)) :
    kmalloc wide h n =
      some (handOut wide h
        (start + span (sizeofBlock wide) pre)
        (align8 n)) := by
  have hAbove := hWhole.above
  have hLength := hWhole.length_le
  have hSize := hWhole.size_le
  have hFits := hHolds.2
  have hTotal := hWhole.total
  simp only [List.length_append, List.length_cons] at hLength
  unfold kmalloc
  rw [if_neg (by omega), if_neg (by omega), hWhole.head]
  exact search_found hWhole.seg (by omega) hPre hHolds
    (by omega)

/- A request that a block holds does not overflow a word. -/
theorem Whole.no_wrap
    (hWhole : Whole wide start size h (pre ++ c :: post))
    (hArena : Arena wide start size)
    (hHolds : c.Holds n) :
    n + sizeofBlock wide + 16 < 2 ^ wordBits wide := by
  have hSize := hWhole.size_le
  have hLow := hArena.low
  have hTop := hArena.top
  have hFits := hHolds.2
  have hWord : 2 ^ 32 ≤ 2 ^ wordBits wide := by
    cases wide <;> decide
  omega

/- The blocks after a request is served. -/
theorem HandedOut.whole
    {h' : HeapState}
    (hHanded : HandedOut wide h h' start n pre c post)
    (hWhole : Whole wide start size h (pre ++ c :: post))
    (hHolds : c.Holds n)
    (hRequest : 8 ∣ n) :
    Whole wide start size h'
      (pre ++ carve (sizeofBlock wide) 16 n c ++ post) where
  toLists := hHanded.lists
  span_eq := by
    rw [← hWhole.span_eq]
    simp only [span_append, span_carve _ _ hHolds, span]
    omega
  coalesced := hWhole.coalesced.carve hHolds
  nonempty := by
    unfold carve
    split <;> simp
  head := by
    rw [hHanded.fields]
    exact hWhole.head
  total := by
    rw [hHanded.fields]
    exact hWhole.total
  heapStart := by
    rw [hHanded.fields]
    exact hWhole.heapStart
  heapEnd := by
    rw [hHanded.fields]
    exact hWhole.heapEnd
  aligned := by
    intro hHeader hSize d hMem
    have hSizes := hWhole.aligned hHeader hSize
    rcases List.mem_append.mp hMem with hFront | hPost
    · rcases List.mem_append.mp hFront with hPre | hMid
      · exact hSizes d (by simp [hPre])
      · exact dvd_carve hHeader hRequest
          (hSizes c (by simp)) d hMid
    · exact hSizes d (by simp [hPost])

/- A payload keeps clear of a free block and its links. -/
theorem payloads_apart
    {e : Extent}
    (hFree : c.used = false)
    (hMem : e ∈ payloads (sizeofBlock wide) start
      (pre ++ c :: post)) :
    e.stop ≤ start + span (sizeofBlock wide) pre ∨
      start + span (sizeofBlock wide) pre +
        sizeofBlock wide + c.size + sizeofBlock wide ≤
          e.start := by
  rw [payloads_append, List.mem_append] at hMem
  rcases hMem with hPre | hPost
  · exact Or.inl (payloads_inside hPre).2
  · simp only [payloads, hFree, Bool.false_eq_true, if_false]
      at hPost
    exact Or.inr (payloads_inside hPost).1

--
-- Giving Back
--

/- What `merge` leaves at a free block. -/
structure Merged
    (wide : Bool)
    (h h' : HeapState)
    (b prev others : Nat)
    (g : Cell × List Cell) : Prop where
  seg : Seg wide h'.mem prev b (g.1 :: g.2) 0
  used : h'.heapUsed =
    others + taken (sizeofBlock wide) (g.1 :: g.2)
  fields : h' = { h with
    mem := h'.mem
    heapUsed := h'.heapUsed }
  same : ∀ i, i < b ∨ b + sizeofBlock wide + g.1.size +
      sizeofBlock wide ≤ i →
    h'.mem i = h.mem i

/- One round of the loop of `merge`. -/
theorem merge_step
    (fuel : Nat)
    {d : Cell}
    {rest : List Cell}
    {others : Nat}
    (hSeg : Seg wide h.mem prev b (c :: d :: rest) 0)
    (hFree : c.used = false)
    (hNext : d.used = false)
    (hUsed : h.heapUsed =
      others + taken (sizeofBlock wide) (c :: d :: rest))
    (hTop : b + span (sizeofBlock wide) (c :: d :: rest) ≤
      2 ^ 32)
    (hBound : h.heapUsed < 2 ^ 32) :
    ∃ h₁, merge wide (fuel + 1) h b = merge wide fuel h₁ b ∧
      Merged wide h h₁ b prev others
        (⟨c.size + (d.size + sizeofBlock wide), c.used⟩,
          rest) := by
  have hPos := sizeofBlock_pos wide
  rcases hSeg with ⟨hHere, hAfter, hRest⟩
  have hFields : linkTo (b + sizeofBlock wide + c.size) 0
      (d :: rest) = b + sizeofBlock wide + c.size := rfl
  rw [hFields] at hHere
  have hApart : b + sizeofBlock wide + c.size +
        sizeofBlock wide ≤ b ∨
      b + sizeofBlock wide ≤ b + sizeofBlock wide + c.size :=
    Or.inr (by omega)
  have hLoop : b + sizeofBlock wide + c.size ≠ 0 ∧
      get wide h.mem (b + sizeofBlock wide + c.size) .free ≠
        0 :=
    ⟨by omega, hAfter.free_ne.mpr hNext⟩
  simp only [span] at hTop
  have hLink : linkTo (b + sizeofBlock wide + c.size +
      sizeofBlock wide + d.size) 0 rest < 2 ^ 32 :=
    linkTo_lt wide (by omega)
  have hOut : linkTo (b + sizeofBlock wide + c.size +
      sizeofBlock wide + d.size) 0 rest ≠ 0 →
      linkTo (b + sizeofBlock wide + c.size +
        sizeofBlock wide + d.size) 0 rest =
      b + sizeofBlock wide + c.size + sizeofBlock wide +
        d.size :=
    linkTo_apart
  conv =>
    enter [1, h₁, 1, 1]
    unfold merge
  simp only [hHere.next, if_pos hLoop, hHere.size, hAfter.size,
    get_set_block hApart, hAfter.next]
  refine ⟨_, rfl, ?_, ?_, rfl, ?_⟩
  · have hEnd : b + sizeofBlock wide +
        (c.size + (d.size + sizeofBlock wide)) =
        b + sizeofBlock wide + c.size + sizeofBlock wide +
          d.size := by omega
    refine ⟨?_, ?_⟩
    · dsimp only
      rw [hEnd]
      exact ((hHere.setSize (by omega)).setNext
        hLink).relinkOther
        (fun hNe => by rw [hOut hNe]; omega)
    · dsimp only
      rw [hEnd]
      apply seg_relink _ (by omega) (by omega)
      · exact b + sizeofBlock wide + c.size
      · apply seg_congr hRest
        intro i hIn
        have hBounds := hIn.inside
        rw [set_outside (by omega), set_outside (by omega)]
  · simp only [taken, hFree, hNext, Bool.false_eq_true,
      if_false] at hUsed ⊢
    rw [Word.sub_of_le (by omega) hBound]
    omega
  · intro i hi
    dsimp only at hi ⊢
    rw [relink_outside (fun hNe => by rw [hOut hNe]; omega),
      set_outside (by omega), set_outside (by omega)]

theorem merge_spec
    (fuel : Nat)
    {others : Nat}
    (hSeg : Seg wide h.mem prev b (c :: post) 0)
    (hFree : c.used = false)
    (hUsed : h.heapUsed =
      others + taken (sizeofBlock wide) (c :: post))
    (hTop : b + span (sizeofBlock wide) (c :: post) ≤ 2 ^ 32)
    (hBound : h.heapUsed < 2 ^ 32)
    (hFuel : post.length < fuel) :
    ∃ h', merge wide fuel h b = some h' ∧
      Merged wide h h' b prev others
        (grow (sizeofBlock wide) c post) := by
  induction post generalizing c h fuel with
  | nil =>
      obtain ⟨fuel, rfl⟩ : ∃ f, fuel = f + 1 :=
        ⟨fuel - 1, by omega⟩
      have hEnd : get wide h.mem b .next = 0 := hSeg.1.next
      refine ⟨h, ?_, hSeg, hUsed, rfl, fun _ _ => rfl⟩
      unfold merge
      rw [hEnd]
      exact if_neg (fun hNe => hNe.1 rfl)
  | cons d rest ih =>
      simp only [List.length_cons] at hFuel
      obtain ⟨fuel, rfl⟩ : ∃ f, fuel = f + 1 :=
        ⟨fuel - 1, by omega⟩
      cases hNext : d.used with
      | true =>
          have hGrow : grow (sizeofBlock wide) c (d :: rest) =
              (c, d :: rest) := by
            simp [grow, hNext]
          rw [hGrow]
          refine ⟨h, ?_, hSeg, hUsed, rfl, fun _ _ => rfl⟩
          have hLink : get wide h.mem b .next =
              b + sizeofBlock wide + c.size := hSeg.1.next
          unfold merge
          rw [hLink]
          refine if_neg (fun hNe => ?_)
          have hAfter := hSeg.2.1.free_ne.mp hNe.2
          rw [hNext] at hAfter
          cases hAfter
      | false =>
          have hGrow : grow (sizeofBlock wide) c (d :: rest) =
              grow (sizeofBlock wide)
                ⟨c.size + (d.size + sizeofBlock wide), c.used⟩
                rest := by
            simp [grow, hNext]
          obtain ⟨h₁, hStep, hMerged⟩ := merge_step
            fuel hSeg hFree hNext hUsed hTop
            hBound
          have hLarger := size_le_grow (h := sizeofBlock wide)
            ⟨c.size + (d.size + sizeofBlock wide), c.used⟩ rest
          have hUsed₁ := hMerged.used
          have hLess : h₁.heapUsed < 2 ^ 32 := by
            dsimp only at hUsed₁
            simp only [taken, hFree, hNext,
              Bool.false_eq_true, if_false] at hUsed hUsed₁
            omega
          obtain ⟨h', hRest, hDone⟩ := ih
            fuel hMerged.seg hFree
            hUsed₁ (by simp only [span] at hTop ⊢; omega)
            hLess (by omega)
          rw [hGrow, hStep]
          refine ⟨h', hRest, hDone.seg, hDone.used, ?_, ?_⟩
          · rw [hDone.fields, hMerged.fields]
          · intro i hi
            rw [hDone.same i hi]
            apply hMerged.same
            dsimp only at hLarger ⊢
            omega

/- The last block of a run that is not empty. -/
theorem lastOf_concat
    (prev b : Nat)
    (init : List Cell)
    (q : Cell) :
    lastOf wide prev b (init ++ [q]) =
      b + span (sizeofBlock wide) init := by
  induction init generalizing prev b with
  | nil => rfl
  | cons c rest ih =>
      simp only [List.cons_append, lastOf, ih, span]
      omega

/- What `kfree` leaves of the blocks. -/
structure Freed
    (wide : Bool)
    (h h' : HeapState)
    (start : Nat)
    (cells : List Cell) : Prop where
  lists : Lists wide h' start cells
  fields : h' = { h with
    mem := h'.mem
    heapUsed := h'.heapUsed }
  same : ∀ e ∈ payloads (sizeofBlock wide) start cells,
    ∀ i, e.start ≤ i → i < e.stop → h'.mem i = h.mem i

theorem Freed.trans
    {h₁ h₂ : HeapState}
    {cells₁ cells₂ : List Cell}
    (hFirst : Freed wide h h₁ start cells₁)
    (hSecond : Freed wide h₁ h₂ start cells₂)
    (hOffers : payloads (sizeofBlock wide) start cells₂ =
      payloads (sizeofBlock wide) start cells₁) :
    Freed wide h h₂ start cells₂ where
  lists := hSecond.lists
  fields := by rw [hSecond.fields, hFirst.fields]
  same := by
    intro e hMem i hLow hHigh
    rw [hSecond.same e hMem i hLow hHigh]
    rw [hOffers] at hMem
    exact hFirst.same e hMem i hLow hHigh

/- The block is marked free, and nothing is joined yet. -/
theorem release_spec
    {k : Nat}
    (hLists : Lists wide h start (pre ++ ⟨k, true⟩ :: post)) :
    ∀ h₁, h₁ = { h with
      mem := set wide (set wide h.mem
        (start + span (sizeofBlock wide) pre) .free 1)
        (start + span (sizeofBlock wide) pre) .magic
        magicFree
      heapUsed := h.heapUsed - k } →
    Lists wide h₁ start (pre ++ ⟨k, false⟩ :: post) ∧
      get wide h₁.mem (start + span (sizeofBlock wide) pre)
        .size = k ∧
      ∀ i, i < start + span (sizeofBlock wide) pre ∨
        start + span (sizeofBlock wide) pre +
          sizeofBlock wide ≤ i →
        h₁.mem i = h.mem i := by
  rintro h₁ rfl
  rcases seg_append.mp hLists.seg with ⟨hPre, hHeader, hPost⟩
  have hTop := hLists.top
  have hUsed := hLists.used
  have hRelease := hHeader.release
  generalize ha : start + span (sizeofBlock wide) pre = a
    at hPre hHeader hPost hRelease ⊢
  have hSame : ∀ i, i < a ∨ a + sizeofBlock wide ≤ i →
      set wide (set wide h.mem a .free 1) a .magic magicFree
        i = h.mem i := by
    intro i hOut
    rw [set_outside hOut, set_outside hOut]
  refine ⟨⟨?_, ?_, hLists.above, ?_⟩, hRelease.size, hSame⟩
  · rw [seg_append, ha]
    refine ⟨seg_congr hPre ?_, hRelease, seg_congr hPost ?_⟩
    · intro i hIn
      have hBounds := hIn.inside
      exact hSame i (by omega)
    · intro i hIn
      have hBounds := hIn.inside
      exact hSame i (by omega)
  · simp only [taken_append, taken, if_true,
      Bool.false_eq_true, if_false] at hUsed ⊢
    omega
  · simpa only [span_append, span] using hTop

/- Joining a free block with those behind it. -/
theorem merge_lists
    (fuel : Nat)
    (hLists : Lists wide h start (pre ++ c :: post))
    (hFree : c.used = false)
    (hFuel : post.length < fuel) :
    ∃ h', merge wide fuel h
        (start + span (sizeofBlock wide) pre) = some h' ∧
      Freed wide h h' start
        (pre ++ (grow (sizeofBlock wide) c post).1 ::
          (grow (sizeofBlock wide) c post).2) ∧
      get wide h'.mem (start + span (sizeofBlock wide) pre)
        .prev = lastOf wide 0 start pre := by
  rcases seg_append.mp hLists.seg with ⟨hPre, hSeg⟩
  have hTop := hLists.top
  have hUsed := hLists.used
  have hAbove := hLists.above
  have hSpan := span_grow (h := sizeofBlock wide) c post
  have hTaken := taken_le_span (h := sizeofBlock wide)
    (pre ++ c :: post)
  have hGrown := grow_used (h := sizeofBlock wide) c post
  simp only [span_append] at hTop hTaken
  simp only [taken_append] at hUsed hTaken
  obtain ⟨h', hMerge, hDone⟩ := merge_spec fuel hSeg hFree hUsed
    (by omega) (by omega) hFuel
  refine ⟨h', hMerge, ⟨⟨?_, ?_, hAbove, ?_⟩, hDone.fields,
    ?_⟩, hDone.seg.1.prev⟩
  · rw [seg_append]
    refine ⟨seg_congr hPre ?_, hDone.seg⟩
    intro i hIn
    have hBounds := hIn.inside
    exact hDone.same i (by omega)
  · rw [hDone.used, taken_append]
  · simp only [span_append, span] at hTop ⊢
    omega
  · intro e hMem i hLow hHigh
    have hApart := payloads_apart (by rw [hGrown, hFree]) hMem
    exact hDone.same i (by omega)

theorem kfree_spec
    (hWhole : Whole wide start size h (pre ++ c :: post))
    (hUsed : c.used = true) :
    ∃ h', kfree wide h
        (start + span (sizeofBlock wide) pre +
          sizeofBlock wide) = some h' ∧
      Freed wide h h' start
        (giveBack (sizeofBlock wide) pre c post) := by
  have hPos := sizeofBlock_pos wide
  have hLength := hWhole.length_le
  have hLists := hWhole.toLists
  obtain ⟨k, used⟩ := c
  subst hUsed
  have hAbove := hLists.above
  have hTaken := taken_le_span (h := sizeofBlock wide)
    (pre ++ ⟨k, true⟩ :: post)
  have hTop := hLists.top
  have hCount := hLists.used
  rw [← hCount] at hTaken
  rcases seg_append.mp hLists.seg with ⟨_, hHeader, _⟩
  obtain ⟨hReleased, hSize, hOutside⟩ :=
    release_spec hLists _ rfl
  simp only [List.length_append, List.length_cons] at hLength
  obtain ⟨h₁, hMerge, hFreed, hPrev⟩ := merge_lists
    h.fuel hReleased rfl (by omega)
  have hStart : start + span (sizeofBlock wide) pre +
      sizeofBlock wide - sizeofBlock wide =
      start + span (sizeofBlock wide) pre := by omega
  have hGuard : ¬(start + span (sizeofBlock wide) pre +
        sizeofBlock wide = 0 ∨
      get wide h.mem (start + span (sizeofBlock wide) pre)
        .magic ≠ magicUsed) := by
    rw [hHeader.magic]
    simp
    omega
  have hSub : Word.sub 32 h.heapUsed k = h.heapUsed - k := by
    simp only [taken_append, taken, if_true] at hCount
    exact Word.sub_of_le (by omega) (by omega)
  unfold kfree
  dsimp only at hSize ⊢
  rw [hStart, if_neg hGuard]
  simp only [hSize, hSub]
  rw [hMerge]
  simp only [Option.bind_eq_bind, Option.bind_some, hPrev]
  have hGrown := grow_used (h := sizeofBlock wide) ⟨k, false⟩
    post
  have hNext : Freed wide h h₁ start
      (pre ++ (grow (sizeofBlock wide) ⟨k, false⟩ post).1 ::
        (grow (sizeofBlock wide) ⟨k, false⟩ post).2) := by
    refine ⟨hFreed.lists, hFreed.fields, ?_⟩
    intro e hMem i hLow hHigh
    rw [hFreed.same e hMem i hLow hHigh]
    have hApart := payloads_apart hGrown hMem
    exact hOutside i (by omega)
  rcases List.eq_nil_or_concat pre with rfl | ⟨init, q, rfl⟩
  · exact ⟨h₁, if_neg (fun hNe => hNe.1 rfl), hNext⟩
  · rw [List.concat_eq_append] at hNext hLength ⊢
    rw [lastOf_concat]
    have hBefore := hNext.lists
    rw [List.append_assoc, List.singleton_append] at hBefore
    have hq := (seg_append.mp hBefore.seg).2.1.free_ne
    have hAddress : start + span (sizeofBlock wide) init ≠ 0 :=
      by omega
    cases hFree : q.used with
    | true =>
        rw [giveBack_used _ hFree]
        refine ⟨h₁, if_neg (fun hNe => ?_), hNext⟩
        have hAbsurd := hq.mp hNe.2
        rw [hFree] at hAbsurd
        cases hAbsurd
    | false =>
        have hSuffix := (grow_suffix (h := sizeofBlock wide)
          ⟨k, false⟩ post).length_le
        have hFuel : h₁.fuel = h.fuel := by
          unfold HeapState.fuel
          rw [hFreed.fields]
        obtain ⟨h₂, hJoin, hJoined, _⟩ := merge_lists
          h₁.fuel hBefore hFree (by
            simp only [List.length_cons, List.length_append]
              at hLength ⊢
            omega)
        refine ⟨h₂, ?_, ?_⟩
        · rw [if_pos ⟨hAddress, hq.mpr hFree⟩]
          exact hJoin
        · rw [giveBack_free _ hFree]
          apply hNext.trans hJoined
          rw [payloads_join hFree, List.append_assoc,
            List.singleton_append]

/- The blocks after one is given back. -/
theorem Freed.whole
    {h' : HeapState}
    (hFreed : Freed wide h h' start
      (giveBack (sizeofBlock wide) pre c post))
    (hWhole : Whole wide start size h (pre ++ c :: post)) :
    Whole wide start size h'
      (giveBack (sizeofBlock wide) pre c post) where
  toLists := hFreed.lists
  span_eq := by rw [span_giveBack, hWhole.span_eq]
  coalesced := hWhole.coalesced.giveBack
  nonempty := by
    intro hNil
    have hSpan := span_giveBack (h := sizeofBlock wide) pre
      post c
    have hPos := sizeofBlock_pos wide
    rw [hNil] at hSpan
    simp only [span, span_append] at hSpan
    omega
  head := by
    rw [hFreed.fields]
    exact hWhole.head
  total := by
    rw [hFreed.fields]
    exact hWhole.total
  heapStart := by
    rw [hFreed.fields]
    exact hWhole.heapStart
  heapEnd := by
    rw [hFreed.fields]
    exact hWhole.heapEnd
  aligned := fun hHeader hSize =>
    dvd_giveBack hHeader (hWhole.aligned hHeader hSize)

end KvantOS.Heap
