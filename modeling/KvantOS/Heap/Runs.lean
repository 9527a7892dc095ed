import KvantOS.Heap.Calls

/-
  This file follows the kernel heap through every sequence of
  allocator calls, and shows that its blocks tile the arena
  and that no call touches a live allocation.

  Key definitions include:
    * `HeapCall`, `Client`
    * `step`, `Allowed`, `Reach`
    * `Inv`, `Sound`

  Key theorems include:
    * `kmalloc_cases`, `step_inv`, `reach_sound`
-/

namespace KvantOS.Heap

open Blocks

variable (wide : Bool)

--
-- Calls
--

/- A call, or a byte stored by the owner of an allocation. -/
inductive HeapCall where
  | kmalloc (n : Nat)
  | kcalloc (n size : Nat)
  | kstrdup (s : Nat)
  | kfree (p : Nat)
  | store (i : Nat) (value : UInt8)

/- The heap and the allocations, by the bytes asked for. -/
structure Client where
  heap : HeapState
  live : List Extent

/- An allocation that is not refused becomes live. -/
def grant
    (p n : Nat)
    (live : List Extent) : List Extent :=
  if p = 0 then live else ⟨p, n⟩ :: live

/- The state after a call, and the pointer it returns. -/
def step
    (s : Client) : HeapCall → Option (Client × Nat)
  | .kmalloc n =>
      (kmalloc wide s.heap n).map
        (fun r => (⟨r.1, grant r.2 n s.live⟩, r.2))
  | .kcalloc n size =>
      (kcalloc wide s.heap n size).map
        (fun r => (⟨r.1, grant r.2 (n * size) s.live⟩, r.2))
  | .kstrdup a => do
      let length ← strlen (2 ^ 32) s.heap.mem a
      (kstrdup wide s.heap a).map
        (fun r => (⟨r.1, grant r.2 (length + 1) s.live⟩, r.2))
  | .kfree p =>
      (kfree wide s.heap p).map
        (fun h => (⟨h, s.live.filter (·.start != p)⟩, 0))
  | .store i value =>
      some (⟨{ s.heap with
        mem := Function.update s.heap.mem i value }, s.live⟩,
        0)

/-
  `kfree` gets a null or a live pointer, `kstrdup` a string,
  and only bytes of live allocations are stored.
-/
def Allowed (s : Client) : HeapCall → Prop
  | .kmalloc _ | .kcalloc _ _ => True
  | .kstrdup a => (strlen (2 ^ 32) s.heap.mem a).isSome
  | .kfree p => p = 0 ∨ ∃ e ∈ s.live, e.start = p
  | .store i _ => ∃ e ∈ s.live, e.start ≤ i ∧ i < e.stop

/- The states that calls lead to. -/
inductive Reach (start size : Nat) : Client → Prop where
  | init (m : Buf) :
      Reach start size ⟨heapInit wide m start size, []⟩
  | step
      {s s' : Client}
      {call : HeapCall}
      {p : Nat}
      (hReach : Reach start size s)
      (hAllowed : Allowed s call)
      (hStep : step wide s call = some (s', p)) :
      Reach start size s'

variable {wide}

--
-- Requests
--

variable {start size n : Nat} {h : HeapState}
variable {cells : List Cell}

/- No block serves a request of `n` bytes. -/
def Refused
    (n : Nat)
    (cells : List Cell) : Prop :=
  0xFFFFFFF0 < n ∨
    ∀ c ∈ cells, c.used = false → c.size < (n + 7) / 8 * 8

/- What a request that is served leaves. -/
structure Granted
    (wide : Bool)
    (start size n p : Nat)
    (h h' : HeapState)
    (cells cells' : List Cell) : Prop where
  whole : Whole wide start size h' cells'
  pointer : p ≠ 0
  offers : ∃ g, n ≤ g ∧
    (payloads (sizeofBlock wide) start cells').Perm
      (⟨p, g⟩ :: payloads (sizeofBlock wide) start cells)
  same : ∀ e ∈ payloads (sizeofBlock wide) start cells,
    ∀ i, e.start ≤ i → i < e.stop → h'.mem i = h.mem i

theorem kmalloc_cases
    (hArena : Arena wide start size)
    (hWhole : Whole wide start size h cells)
    (n : Nat) :
    (kmalloc wide h n = some (h, 0) ∧
        (n = 0 ∨ Refused n cells)) ∨
      ∃ h' p cells', kmalloc wide h n = some (h', p) ∧
        0 < n ∧ ¬Refused n cells ∧
        Granted wide start size n p h h' cells cells' := by
  by_cases hZero : n = 0
  · exact Or.inl ⟨by simp [kmalloc, hZero], Or.inl hZero⟩
  by_cases hLarge : 0xFFFFFFF0 < n
  · exact Or.inl ⟨by simp [kmalloc, hLarge],
      Or.inr (Or.inl hLarge)⟩
  have hAlign := align8_eq (Nat.le_of_not_lt hLarge)
  rcases cases_firstFree (align8 n) cells with
    hNone | ⟨pre, c, post, rfl, hPre, hHolds⟩
  · refine Or.inl ⟨kmalloc_none hWhole hNone,
      Or.inr (Or.inr ?_)⟩
    intro c hMem hFree
    have hShort := hNone c hMem
    rw [hAlign] at hShort
    exact Nat.lt_of_not_le
      (fun hFits => hShort ⟨hFree, hFits⟩)
  · have hHanded := handOut_spec hWhole.toLists hHolds
      (hWhole.no_wrap hArena hHolds)
    have hPos := sizeofBlock_pos wide
    have hEnough := le_granted (sizeofBlock wide) 16 hHolds
    refine Or.inr ⟨_, _, _,
      kmalloc_found hWhole (by omega) (by omega) hPre hHolds,
      by omega, ?_, hHanded.whole hWhole hHolds ?_, ?_,
      ⟨_, ?_, payloads_served hHolds start pre post⟩, ?_⟩
    · rintro (hBig | hAll)
      · exact hLarge hBig
      · have hShort := hAll c (by simp) hHolds.1
        have hFits := hHolds.2
        omega
    · rw [hAlign]
      exact Nat.dvd_mul_left 8 _
    · omega
    · omega
    · intro e hMem i hLow hHigh
      have hApart := payloads_apart hHolds.1 hMem
      exact hHanded.same i (by omega)

--
-- Payloads
--

variable {e : Extent} {m : Buf}

/- Bytes stored inside a payload keep the list. -/
theorem Whole.store
    (hWhole : Whole wide start size h cells)
    (hMem : e ∈ payloads (sizeofBlock wide) start cells)
    (hSame : ∀ i, i < e.start ∨ e.stop ≤ i →
      m i = h.mem i) :
    Whole wide start size { h with mem := m } cells where
  seg := by
    apply seg_congr hWhole.seg
    exact fun i hIn => hSame i (hIn.not_payload hMem)
  used := hWhole.used
  above := hWhole.above
  top := hWhole.top
  span_eq := hWhole.span_eq
  coalesced := hWhole.coalesced
  nonempty := hWhole.nonempty
  head := hWhole.head
  total := hWhole.total
  heapStart := hWhole.heapStart
  heapEnd := hWhole.heapEnd
  aligned := hWhole.aligned

variable {cells' : List Cell} {h' : HeapState} {p : Nat}

/- The allocation that was granted is filled in. -/
theorem Granted.store
    (hGranted : Granted wide start size n p h h' cells cells')
    (hSame : ∀ i, i < p ∨ p + n ≤ i → m i = h'.mem i) :
    Granted wide start size n p h { h' with mem := m } cells
      cells' := by
  obtain ⟨g, hEnough, hOffers⟩ := hGranted.offers
  have hMem : (⟨p, g⟩ : Extent) ∈
      payloads (sizeofBlock wide) start cells' :=
    hOffers.mem_iff.mpr (by simp)
  have hApart := (hOffers.pairwise_iff
    (fun hDisjoint => Extent.Disjoint.symm hDisjoint)).mp
      (payloads_disjoint start cells')
  refine
    { whole := hGranted.whole.store hMem ?_
      pointer := hGranted.pointer
      offers := hGranted.offers
      same := ?_ }
  · intro i hOut
    apply hSame
    simp only [Extent.stop] at hOut
    omega
  · intro e he i hLow hHigh
    have hDisjoint := (List.pairwise_cons.mp hApart).1 e he
    rw [← hGranted.same e he i hLow hHigh]
    apply hSame
    by_contra hIn
    have hIn' : ¬(i < p ∨ p + n ≤ i) := hIn
    have hStart : (⟨p, g⟩ : Extent).start ≤ i := by
      dsimp only
      omega
    have hStop : i < (⟨p, g⟩ : Extent).stop := by
      simp only [Extent.stop]
      omega
    exact hDisjoint.ne hStart hStop hLow hHigh rfl

/- An allocation lies at the front of a payload. -/
def Fits (a e : Extent) : Prop :=
  a.start = e.start ∧ a.length ≤ e.length

/- The live allocations are what the used blocks offer. -/
def Tracked
    (live offers : List Extent) : Prop :=
  ∃ ps, ps.Perm offers ∧ List.Forall₂ Fits live ps

variable {live offers : List Extent}

theorem Tracked.mem
    {a : Extent}
    (hTracked : Tracked live offers)
    (hMem : a ∈ live) :
    ∃ e ∈ offers, Fits a e := by
  obtain ⟨ps, hPerm, hFits⟩ := hTracked
  induction hFits generalizing offers with
  | nil => cases hMem
  | @cons b e live ps hHere _ ih =>
      rcases List.mem_cons.mp hMem with rfl | hTail
      · exact ⟨e, hPerm.mem_iff.mp (by simp), hHere⟩
      · obtain ⟨e', he', hFit⟩ := ih hTail (List.Perm.refl ps)
        exact ⟨e', hPerm.mem_iff.mp (by simp [he']), hFit⟩

theorem Tracked.nil
    (hTracked : Tracked [] offers) :
    offers = [] := by
  obtain ⟨ps, hPerm, hFits⟩ := hTracked
  cases hFits
  exact hPerm.symm.eq_nil

theorem Tracked.cons
    {live offers offers' : List Extent}
    {p n g : Nat}
    (hTracked : Tracked live offers)
    (hEnough : n ≤ g)
    (hOffers : offers'.Perm (⟨p, g⟩ :: offers)) :
    Tracked (⟨p, n⟩ :: live) offers' := by
  obtain ⟨ps, hPerm, hFits⟩ := hTracked
  exact ⟨⟨p, g⟩ :: ps, (hPerm.cons _).trans hOffers.symm,
    List.Forall₂.cons ⟨rfl, hEnough⟩ hFits⟩

theorem fits_filter
    {live ps : List Extent}
    (p : Nat)
    (hFits : List.Forall₂ Fits live ps) :
    List.Forall₂ Fits (live.filter (·.start != p))
      (ps.filter (·.start != p)) := by
  induction hFits with
  | nil => exact List.Forall₂.nil
  | @cons a e live ps hHere _ ih =>
      rw [List.filter_cons, List.filter_cons, hHere.1]
      split
      · exact List.Forall₂.cons hHere ih
      · exact ih

/- Dropping the allocation that starts at `p`. -/
theorem Tracked.filter
    {live offers offers' : List Extent}
    (hTracked : Tracked live offers)
    (hOffers : offers.Perm (e :: offers'))
    (hNodup : (offers.map Extent.start).Nodup) :
    Tracked (live.filter (·.start != e.start)) offers' := by
  obtain ⟨ps, hPerm, hFits⟩ := hTracked
  refine ⟨_, ?_, fits_filter e.start hFits⟩
  have hDistinct := (hOffers.map Extent.start).nodup_iff.mp
    hNodup
  rw [List.map_cons, List.nodup_cons] at hDistinct
  have hOthers : offers'.filter (·.start != e.start) =
      offers' := by
    apply List.filter_eq_self.mpr
    intro d hd
    rw [bne_iff_ne]
    intro hEq
    exact hDistinct.1
      (List.mem_map.mpr ⟨d, hd, hEq⟩)
  have hAll := (hPerm.trans hOffers).filter
    (fun d => d.start != e.start)
  rw [List.filter_cons, bne_self_eq_false, hOthers] at hAll
  exact hAll

/- Allocations at the front of disjoint payloads. -/
theorem Tracked.disjoint
    (hTracked : Tracked live offers)
    (hOffers : offers.Pairwise Extent.Disjoint) :
    live.Pairwise Extent.Disjoint := by
  obtain ⟨ps, hPerm, hFits⟩ := hTracked
  have hApart := (hPerm.pairwise_iff
    (fun hDisjoint => Extent.Disjoint.symm hDisjoint)).mpr
      hOffers
  clear hPerm hOffers
  induction hFits with
  | nil => exact List.Pairwise.nil
  | @cons a e live ps hHere hRest ih =>
      rw [List.pairwise_cons] at hApart
      refine List.pairwise_cons.mpr ⟨?_, ih hApart.2⟩
      intro a' ha' hMeets
      obtain ⟨e', he', hFit⟩ := Tracked.mem
        ⟨ps, List.Perm.refl ps, hRest⟩ ha'
      apply hApart.1 e' he'
      have hFirst := hMeets.1
      have hSecond := hMeets.2
      have hStart := hHere.1
      have hStart' := hFit.1
      have hLength := hHere.2
      have hLength' := hFit.2
      unfold Extent.stop at hFirst
      constructor
      · unfold Extent.stop
        omega
      · omega

--
-- Steps
--

variable {s : Client}

/- The blocks of a heap, and the allocations in them. -/
structure Inv
    (wide : Bool)
    (start size : Nat)
    (s : Client)
    (cells : List Cell) : Prop where
  whole : Whole wide start size s.heap cells
  tracked : Tracked s.live
    (payloads (sizeofBlock wide) start cells)

/- Allocations live before and after keep their bytes. -/
def Untouched (s s' : Client) : Prop :=
  ∀ e ∈ s.live, e ∈ s'.live →
    ∀ i, e.start ≤ i → i < e.stop →
      s'.heap.mem i = s.heap.mem i

/- A returned pointer is null or leads to a used block. -/
def Points
    (wide : Bool)
    (start p : Nat)
    (cells : List Cell) : Prop :=
  p = 0 ∨
    ∃ e ∈ payloads (sizeofBlock wide) start cells, e.start = p

/- A call of the allocator, not a store of its client. -/
def HeapCall.Allocator : HeapCall → Prop
  | .store _ _ => False
  | _ => True

theorem inv_init
    (m : Buf)
    (hArena : Arena wide start size) :
    Inv wide start size ⟨heapInit wide m start size, []⟩
      [⟨size - sizeofBlock wide, false⟩] where
  whole := whole_heapInit m hArena
  tracked := ⟨[], by simp [payloads], List.Forall₂.nil⟩

/- A refused request changes nothing. -/
theorem inv_refused
    (hInv : Inv wide start size s cells) :
    Inv wide start size ⟨s.heap, grant 0 n s.live⟩ cells ∧
      Untouched s ⟨s.heap, grant 0 n s.live⟩ :=
  ⟨⟨hInv.whole, hInv.tracked⟩, fun _ _ _ _ _ _ => rfl⟩

theorem inv_granted
    (hInv : Inv wide start size s cells)
    (hGranted : Granted wide start size n p s.heap h' cells
      cells') :
    Inv wide start size ⟨h', grant p n s.live⟩ cells' ∧
      Untouched s ⟨h', grant p n s.live⟩ := by
  obtain ⟨g, hEnough, hOffers⟩ := hGranted.offers
  refine ⟨⟨hGranted.whole, ?_⟩, ?_⟩
  · unfold grant
    rw [if_neg hGranted.pointer]
    exact hInv.tracked.cons hEnough hOffers
  · intro a hMem _ i hLow hHigh
    obtain ⟨e, he, hStart, hLength⟩ := hInv.tracked.mem hMem
    unfold Extent.stop at hHigh
    apply hGranted.same e he
    · omega
    · unfold Extent.stop
      omega

/- A request whose memory is then filled in. -/
theorem inv_filled
    (call : HeapCall)
    (n : Nat)
    (hArena : Arena wide start size)
    (hInv : Inv wide start size s cells)
    (fill : HeapState → Nat → Buf)
    (hFill : ∀ h p i, i < p ∨ p + n ≤ i →
      fill h p i = h.mem i)
    (hStep : step wide s call =
      (kmalloc wide s.heap n).map (fun r =>
        (⟨if r.2 = 0 then r.1
          else { r.1 with mem := fill r.1 r.2 },
          grant r.2 n s.live⟩, r.2))) :
    ∃ s' p cells', step wide s call = some (s', p) ∧
      Inv wide start size s' cells' ∧
      Points wide start p cells' ∧ Untouched s s' := by
  rcases kmalloc_cases hArena hInv.whole n with
    ⟨hNull, _⟩ | ⟨h', p, cells', hPointer, _, _, hGranted⟩
  · rw [hStep, hNull]
    obtain ⟨hKeeps, hSame⟩ := inv_refused (n := n) hInv
    exact ⟨_, _, cells, rfl, hKeeps, Or.inl rfl, hSame⟩
  · rw [hStep, hPointer, Option.map_some]
    obtain ⟨g, _, hOffers⟩ := hGranted.offers
    obtain ⟨hKeeps, hSame⟩ := inv_granted hInv
      (hGranted.store (hFill h' p))
    refine ⟨_, _, cells', rfl, ?_,
      Or.inr ⟨⟨p, g⟩, ?_, rfl⟩, ?_⟩
    · simpa only [if_neg hGranted.pointer] using hKeeps
    · exact hOffers.mem_iff.mpr (by simp)
    · simpa only [if_neg hGranted.pointer] using hSame

theorem inv_kfree
    (hInv : Inv wide start size s cells)
    (hAllowed : Allowed s (.kfree p)) :
    ∃ s' cells', step wide s (.kfree p) = some (s', 0) ∧
      Inv wide start size s' cells' ∧ Untouched s s' := by
  rcases hAllowed with rfl | ⟨a, hMem, rfl⟩
  · refine ⟨s, cells, ?_, hInv, fun _ _ _ _ _ _ => rfl⟩
    have hPos := sizeofBlock_pos wide
    have hAll : s.live.filter (·.start != 0) = s.live := by
      apply List.filter_eq_self.mpr
      intro e he
      rw [bne_iff_ne]
      obtain ⟨e', he', hStart, _⟩ := hInv.tracked.mem he
      have hInside := payloads_inside he'
      omega
    simp [step, kfree, hAll]
  · obtain ⟨e, he, hStart, _⟩ := hInv.tracked.mem hMem
    obtain ⟨pre, c, post, rfl, hUsed, rfl⟩ :=
      mem_payloads.mp he
    obtain ⟨h', hFree, hFreed⟩ := kfree_spec hInv.whole hUsed
    have hTracked := hInv.tracked.filter
      (payloads_giveBack hUsed start pre post)
      (payloads_nodup (sizeofBlock_pos wide) start _)
    dsimp only at hStart hTracked
    rw [hStart]
    refine ⟨⟨h', _⟩, giveBack (sizeofBlock wide) pre c post,
      ?_, ⟨hFreed.whole hInv.whole, hTracked⟩, ?_⟩
    · simp only [step, hFree, Option.map_some]
    · intro d _ hKept i hLow hHigh
      obtain ⟨e', he', hFirst, hLength⟩ := hTracked.mem hKept
      unfold Extent.stop at hHigh
      apply hFreed.same e' he'
      · omega
      · unfold Extent.stop
        omega

/- The string is shorter than the memory it is read from. -/
theorem strlen_lt
    {fuel a length : Nat}
    (hLength : strlen fuel m a = some length) :
    length < fuel := by
  induction fuel generalizing a length with
  | zero => simp [strlen] at hLength
  | succ fuel ih =>
      unfold strlen at hLength
      split at hLength
      · simp only [Option.some.injEq] at hLength
        omega
      · rw [Option.map_eq_some_iff] at hLength
        obtain ⟨k, hk, hSum⟩ := hLength
        have hLess := ih hk
        omega

/- Every call that is allowed keeps the invariant. -/
theorem step_inv
    {call : HeapCall}
    (hArena : Arena wide start size)
    (hInv : Inv wide start size s cells)
    (hAllowed : Allowed s call) :
    ∃ s' p cells', step wide s call = some (s', p) ∧
      Inv wide start size s' cells' ∧
      Points wide start p cells' ∧
      (call.Allocator → Untouched s s') := by
  have hWord : 2 ^ 32 ≤ 2 ^ wordBits wide := by
    cases wide <;> decide
  cases call with
  | kmalloc n =>
      obtain ⟨s', p, cells', hStep, hKeeps, hPoints, hSame⟩ :=
        inv_filled (.kmalloc n) n hArena hInv
          (fun h _ => h.mem) (fun _ _ _ _ => rfl)
          (by simp [step])
      exact ⟨s', p, cells', hStep, hKeeps, hPoints,
        fun _ => hSame⟩
  | kcalloc n k =>
      by_cases hGuard : n ≠ 0 ∧ k ≠ 0 ∧ 0xFFFFFFFF / k < n
      · obtain ⟨hKeeps, hSame⟩ := inv_refused (n := n * k) hInv
        refine ⟨_, 0, cells, ?_, hKeeps, Or.inl rfl,
          fun _ => hSame⟩
        simp [step, kcalloc, hGuard]
      · have hTotal : n * k % 2 ^ wordBits wide = n * k := by
          apply Nat.mod_eq_of_lt
          by_cases hn : n = 0
          · rw [hn, Nat.zero_mul]
            exact Nat.two_pow_pos _
          by_cases hk : k = 0
          · rw [hk, Nat.mul_zero]
            exact Nat.two_pow_pos _
          have hLe : n ≤ 0xFFFFFFFF / k := by
            by_contra hMore
            exact hGuard ⟨hn, hk, Nat.lt_of_not_le hMore⟩
          have hMul := Nat.mul_le_of_le_div k n _ hLe
          omega
        obtain ⟨s', p, cells', hStep, hKeeps, hPoints, hSame⟩ :=
          inv_filled (.kcalloc n k) (n * k)
            hArena hInv (fun h p => h.mem.fill p 0 (n * k))
            (fun h p i hOut => if_neg (by omega)) (by
              simp only [step, kcalloc, if_neg hGuard, hTotal]
              cases kmalloc wide s.heap (n * k) with
              | none => rfl
              | some r =>
                  by_cases hNull : r.2 = 0 <;> simp [hNull])
        exact ⟨s', p, cells', hStep, hKeeps, hPoints,
          fun _ => hSame⟩
  | kstrdup a =>
      obtain ⟨length, hLength⟩ :=
        Option.isSome_iff_exists.mp hAllowed
      have hLess := strlen_lt hLength
      by_cases hWrap : length + 1 = 2 ^ wordBits wide
      · obtain ⟨hKeeps, hSame⟩ :=
          inv_refused (n := length + 1) hInv
        have hNull : kmalloc wide s.heap 0 = some (s.heap, 0) :=
          by simp [kmalloc]
        refine ⟨_, 0, cells, ?_, hKeeps, Or.inl rfl,
          fun _ => hSame⟩
        simp only [step, kstrdup, hLength, Option.bind_eq_bind,
          Option.bind_some, hWrap, Nat.mod_self, hNull, if_true,
          Option.map_some]
      · have hTotal : (length + 1) % 2 ^ wordBits wide =
            length + 1 :=
          Nat.mod_eq_of_lt (by omega)
        obtain ⟨s', p, cells', hStep, hKeeps, hPoints, hSame⟩ :=
          inv_filled (.kstrdup a) (length + 1)
            hArena hInv
            (fun h d => h.mem.copy d (h.mem.drop a)
              (length + 1))
            (fun h p i hOut => Buf.copy_outside hOut) (by
              simp only [step, kstrdup, hLength,
                Option.bind_eq_bind, Option.bind_some, hTotal]
              cases kmalloc wide s.heap (length + 1) with
              | none => rfl
              | some r =>
                  by_cases hNull : r.2 = 0 <;> simp [hNull])
        exact ⟨s', p, cells', hStep, hKeeps, hPoints,
          fun _ => hSame⟩
  | kfree p =>
      obtain ⟨s', cells', hStep, hKeeps, hSame⟩ :=
        inv_kfree hInv hAllowed
      exact ⟨s', 0, cells', hStep, hKeeps, Or.inl rfl,
        fun _ => hSame⟩
  | store i value =>
      obtain ⟨a, hMem, hLow, hHigh⟩ := hAllowed
      obtain ⟨e, he, hStart, hLength⟩ := hInv.tracked.mem hMem
      refine ⟨_, 0, cells, rfl, ⟨hInv.whole.store he ?_,
        hInv.tracked⟩, Or.inl rfl, False.elim⟩
      intro j hOut
      apply Function.update_of_ne
      unfold Extent.stop at hHigh hOut
      omega

--
-- Runs
--

theorem reach_inv
    (hArena : Arena wide start size)
    (hReach : Reach wide start size s) :
    ∃ cells, Inv wide start size s cells := by
  induction hReach with
  | init m => exact ⟨_, inv_init m hArena⟩
  | step _ hAllowed hStep ih =>
      obtain ⟨cells, hInv⟩ := ih
      obtain ⟨s', p, cells', hStep', hKeeps, _, _⟩ :=
        step_inv hArena hInv hAllowed
      rw [hStep, Option.some.injEq, Prod.mk.injEq] at hStep'
      rw [hStep'.1]
      exact ⟨cells', hKeeps⟩

/- What holds of a heap and its live allocations. -/
structure Sound
    (wide : Bool)
    (start size : Nat)
    (s : Client)
    (cells : List Cell) : Prop where
  linked : Seg wide s.heap.mem 0 s.heap.head cells 0
  first : s.heap.head = start
  tiles : span (sizeofBlock wide) cells = size
  coalesced : Coalesced cells
  counted : s.heap.heapUsed = taken (sizeofBlock wide) cells
  disjoint : s.live.Pairwise Extent.Disjoint
  behind : ∀ e ∈ s.live, ∃ pre c post,
    cells = pre ++ c :: post ∧ c.used = true ∧
      e.start = start + span (sizeofBlock wide) pre +
        sizeofBlock wide ∧
      e.length ≤ c.size
  inside : ∀ e ∈ s.live,
    start ≤ e.start ∧ e.stop ≤ start + size
  refused : ∀ n, 0 < n →
    ((∃ h', kmalloc wide s.heap n = some (h', 0)) ↔
      Refused n cells)
  empty : s.live = [] →
    cells = [⟨size - sizeofBlock wide, false⟩]

theorem Inv.sound
    (hArena : Arena wide start size)
    (hInv : Inv wide start size s cells) :
    Sound wide start size s cells where
  linked := by
    rw [hInv.whole.head]
    exact hInv.whole.seg
  first := hInv.whole.head
  tiles := hInv.whole.span_eq
  coalesced := hInv.whole.coalesced
  counted := hInv.whole.used
  disjoint := hInv.tracked.disjoint
    (payloads_disjoint start cells)
  behind := by
    intro a hMem
    obtain ⟨e, he, hStart, hLength⟩ := hInv.tracked.mem hMem
    obtain ⟨pre, c, post, hCells, hUsed, rfl⟩ :=
      mem_payloads.mp he
    exact ⟨pre, c, post, hCells, hUsed, hStart, hLength⟩
  inside := by
    intro a hMem
    obtain ⟨e, he, hStart, hLength⟩ := hInv.tracked.mem hMem
    have hInside := payloads_inside he
    rw [hInv.whole.span_eq] at hInside
    unfold Extent.stop at hInside ⊢
    omega
  refused := by
    intro n hPos
    rcases kmalloc_cases hArena hInv.whole n with
      ⟨hNull, hWhy⟩ | ⟨h', p, _, hServed, _, hNot, hGranted⟩
    · refine ⟨fun _ => ?_, fun _ => ⟨_, hNull⟩⟩
      rcases hWhy with hZero | hRefused
      · omega
      · exact hRefused
    · refine ⟨?_, fun hRefused => absurd hRefused hNot⟩
      rintro ⟨h₁, hNull⟩
      rw [hServed, Option.some.injEq, Prod.mk.injEq] at hNull
      exact absurd hNull.2 hGranted.pointer
  empty := by
    intro hNone
    have hOffers := hInv.tracked
    rw [hNone] at hOffers
    have hFree := payloads_eq_nil_iff.mp hOffers.nil
    have hSingle := single_of_free (h := sizeofBlock wide)
      hInv.whole.coalesced hInv.whole.nonempty hFree
    rwa [hInv.whole.span_eq] at hSingle

/-
  In every state that calls lead to, the heap is sound, and
  every further call that is allowed ends and leaves the live
  allocations alone.
-/
theorem reach_sound
    (wide : Bool)
    (start size : Nat)
    (hArena : Arena wide start size)
    (s : Client)
    (hReach : Reach wide start size s) :
    ∃ cells, Sound wide start size s cells ∧
      ∀ call, Allowed s call →
        ∃ s' p, step wide s call = some (s', p) ∧
          (call.Allocator → Untouched s s') := by
  obtain ⟨cells, hInv⟩ := reach_inv hArena hReach
  refine ⟨cells, hInv.sound hArena, ?_⟩
  intro call hAllowed
  obtain ⟨s', p, _, hStep, _, _, hSame⟩ :=
    step_inv hArena hInv hAllowed
  exact ⟨s', p, hStep, hSame⟩

/- The first request in a fresh arena of 256 bytes. -/
theorem reach_sound_first :
    ∃ s p cells,
      step true
        ⟨heapInit true Buf.zero 0x400000 256, []⟩
        (.kmalloc 10) = some (s, p) ∧
      Sound true 0x400000 256 s cells := by
  have hArena : Arena true 0x400000 256 :=
    ⟨by decide, by decide, by decide⟩
  have hFresh : Reach true 0x400000 256
      ⟨heapInit true Buf.zero 0x400000 256, []⟩ :=
    Reach.init Buf.zero
  obtain ⟨_, _, hCalls⟩ :=
    reach_sound true 0x400000 256 hArena _ hFresh
  obtain ⟨s, p, hStep, _⟩ := hCalls (.kmalloc 10) trivial
  have hAllowed : Allowed
      ⟨heapInit true Buf.zero 0x400000 256, []⟩
      (.kmalloc 10) :=
    trivial
  have hNext := Reach.step hFresh hAllowed hStep
  obtain ⟨cells, hSound, _⟩ :=
    reach_sound true 0x400000 256 hArena s hNext
  exact ⟨s, p, cells, hStep, hSound⟩

end KvantOS.Heap
