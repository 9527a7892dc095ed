import KvantOS.Data.Blocks
import KvantOS.Heap.Model

/-
  This file relates the block list in memory to the blocks it
  stands for: headers, runs of linked blocks, and what the
  steps of the allocator do to them.

  Key definitions include:
    * `HeaderAt`, `Seg`
    * `linkTo`, `lastOf`, `InHeaders`

  Key theorems include:
    * `get_set_same`, `get_set_field`, `get_set_block`
    * `seg_append`, `seg_congr`, `seg_relink`
    * `handOut_spec`
-/

namespace KvantOS.Heap

open Blocks

variable {wide : Bool}

--
-- Fields
--

/- The bytes of a field. -/
def Field.width
    (wide : Bool)
    (f : Field) : Nat :=
  if wide && f.link then 8 else 4

theorem Field.stop_le
    (wide : Bool)
    (f : Field) :
    f.offset wide + f.width wide ≤ sizeofBlock wide := by
  cases wide <;> cases f <;> decide

theorem Field.apart
    (wide : Bool)
    {f g : Field}
    (hNe : f ≠ g) :
    f.offset wide + f.width wide ≤ g.offset wide ∨
      g.offset wide + g.width wide ≤ f.offset wide := by
  revert hNe
  cases wide <;> cases f <;> cases g <;> decide

theorem sizeofBlock_pos (wide : Bool) : 0 < sizeofBlock wide := by
  cases wide <;> decide

variable {b : Nat} {f : Field}

/- A field depends on its own bytes. -/
theorem get_congr_field
    {m m' : Buf}
    (hSame : ∀ i, b + f.offset wide ≤ i →
      i < b + f.offset wide + f.width wide → m' i = m i) :
    get wide m' b f = get wide m b f := by
  unfold get Field.width at *
  split at hSame
  · rename_i hLink
    rw [if_pos hLink, if_pos hLink]
    exact Buf.get64_congr
      (fun i hi => hSame _ (by omega) (by omega))
  · rename_i hLink
    rw [if_neg hLink, if_neg hLink]
    exact Buf.get32_congr
      (fun i hi => hSame _ (by omega) (by omega))

variable {m : Buf}

theorem set_outside_field
    {b value i : Nat}
    (hOut : i < b + f.offset wide ∨
      b + f.offset wide + f.width wide ≤ i) :
    set wide m b f value i = m i := by
  unfold set Field.width at *
  split at hOut
  · rename_i hLink
    rw [if_pos hLink]
    unfold Buf.put64
    rw [Buf.put32_outside (by omega),
      Buf.put32_outside (by omega)]
  · rename_i hLink
    rw [if_neg hLink]
    exact Buf.put32_outside hOut

/- Storing a field touches its header only. -/
theorem set_outside
    {b value i : Nat}
    (hOut : i < b ∨ b + sizeofBlock wide ≤ i) :
    set wide m b f value i = m i := by
  have hStop := f.stop_le wide
  apply set_outside_field
  omega

theorem get_set_same
    {b value : Nat}
    (hBound : value < 2 ^ 32) :
    get wide (set wide m b f value) b f = value := by
  unfold get set
  split
  · rw [Buf.get64_put64_same]
    exact Nat.mod_eq_of_lt (Nat.lt_trans hBound (by decide))
  · rw [Buf.get32_put32_same, Nat.mod_eq_of_lt hBound]

theorem get_set_field
    {b value : Nat}
    {f g : Field}
    (hNe : f ≠ g) :
    get wide (set wide m b f value) b g = get wide m b g := by
  have hApart := Field.apart wide hNe
  apply get_congr_field
  intro i hLow hHigh
  apply set_outside_field
  omega

theorem get_set_block
    {b b' value : Nat}
    {f g : Field}
    (hOut : b' + sizeofBlock wide ≤ b ∨
      b + sizeofBlock wide ≤ b') :
    get wide (set wide m b f value) b' g =
      get wide m b' g := by
  have hStop := g.stop_le wide
  apply get_congr_field
  intro i hLow hHigh
  apply set_outside
  omega

theorem relink_outside
    {n p i : Nat}
    (hOut : n ≠ 0 → i < n ∨ n + sizeofBlock wide ≤ i) :
    relink wide m n p i = m i := by
  unfold relink
  split
  · rfl
  · exact set_outside (hOut ‹_›)

theorem get_relink_block
    {n p b : Nat}
    (hOut : n ≠ 0 → b + sizeofBlock wide ≤ n ∨
      n + sizeofBlock wide ≤ b) :
    get wide (relink wide m n p) b f = get wide m b f := by
  unfold relink
  split
  · rfl
  · exact get_set_block (hOut ‹_›)

--
-- Headers
--

/- The header at `b` describes the block and its links. -/
structure HeaderAt
    (wide : Bool)
    (m : Buf)
    (b : Nat)
    (c : Cell)
    (next prev : Nat) : Prop where
  magic : get wide m b .magic =
    if c.used then magicUsed else magicFree
  size : get wide m b .size = c.size
  next : get wide m b .next = next
  prev : get wide m b .prev = prev
  free : get wide m b .free = if c.used then 0 else 1

theorem headerAt_congr
    {m m' : Buf}
    {b next prev : Nat}
    {c : Cell}
    (hHeader : HeaderAt wide m b c next prev)
    (hSame : ∀ f, get wide m' b f = get wide m b f) :
    HeaderAt wide m' b c next prev where
  magic := by rw [hSame, hHeader.magic]
  size := by rw [hSame, hHeader.size]
  next := by rw [hSame, hHeader.next]
  prev := by rw [hSame, hHeader.prev]
  free := by rw [hSame, hHeader.free]

theorem headerAt_bytes
    {m m' : Buf}
    {b next prev : Nat}
    {c : Cell}
    (hHeader : HeaderAt wide m b c next prev)
    (hSame : ∀ i, b ≤ i → i < b + sizeofBlock wide →
      m' i = m i) :
    HeaderAt wide m' b c next prev := by
  apply headerAt_congr hHeader
  intro f
  have hStop := f.stop_le wide
  apply get_congr_field
  exact fun i hLow hHigh => hSame i (by omega) (by omega)

theorem HeaderAt.free_ne
    {b next prev : Nat}
    {c : Cell}
    (hHeader : HeaderAt wide m b c next prev) :
    get wide m b .free ≠ 0 ↔ c.used = false := by
  rw [hHeader.free]
  cases c.used <;> decide

theorem HeaderAt.setNext
    {b next prev value : Nat}
    {c : Cell}
    (hHeader : HeaderAt wide m b c next prev)
    (hBound : value < 2 ^ 32) :
    HeaderAt wide (set wide m b .next value) b c value
      prev where
  magic := by rw [get_set_field (by decide), hHeader.magic]
  size := by rw [get_set_field (by decide), hHeader.size]
  next := get_set_same hBound
  prev := by rw [get_set_field (by decide), hHeader.prev]
  free := by rw [get_set_field (by decide), hHeader.free]

theorem HeaderAt.setPrev
    {b next prev value : Nat}
    {c : Cell}
    (hHeader : HeaderAt wide m b c next prev)
    (hBound : value < 2 ^ 32) :
    HeaderAt wide (set wide m b .prev value) b c next
      value where
  magic := by rw [get_set_field (by decide), hHeader.magic]
  size := by rw [get_set_field (by decide), hHeader.size]
  next := by rw [get_set_field (by decide), hHeader.next]
  prev := get_set_same hBound
  free := by rw [get_set_field (by decide), hHeader.free]

theorem HeaderAt.setSize
    {b next prev value : Nat}
    {c : Cell}
    (hHeader : HeaderAt wide m b c next prev)
    (hBound : value < 2 ^ 32) :
    HeaderAt wide (set wide m b .size value) b
      ⟨value, c.used⟩ next prev where
  magic := by rw [get_set_field (by decide), hHeader.magic]
  size := get_set_same hBound
  next := by rw [get_set_field (by decide), hHeader.next]
  prev := by rw [get_set_field (by decide), hHeader.prev]
  free := by rw [get_set_field (by decide), hHeader.free]

/- Stores into other headers. -/
theorem HeaderAt.setOther
    {b b' next prev value : Nat}
    {c : Cell}
    (hHeader : HeaderAt wide m b c next prev)
    (hOut : b + sizeofBlock wide ≤ b' ∨
      b' + sizeofBlock wide ≤ b) :
    HeaderAt wide (set wide m b' f value) b c next prev :=
  headerAt_congr hHeader (fun _ => get_set_block hOut)

theorem HeaderAt.relinkOther
    {b n p next prev : Nat}
    {c : Cell}
    (hHeader : HeaderAt wide m b c next prev)
    (hOut : n ≠ 0 → b + sizeofBlock wide ≤ n ∨
      n + sizeofBlock wide ≤ b) :
    HeaderAt wide (relink wide m n p) b c next prev :=
  headerAt_congr hHeader (fun _ => get_relink_block hOut)

/- A block changes hands: its mark and its magic are set. -/
theorem HeaderAt.retag
    {b next prev : Nat}
    {c : Cell}
    (hHeader : HeaderAt wide m b c next prev)
    (used : Bool) :
    HeaderAt wide
      (set wide
        (set wide m b .free (if used then 0 else 1)) b .magic
          (if used then magicUsed else magicFree))
      b ⟨c.size, used⟩ next prev where
  magic := get_set_same (by cases used <;> decide)
  size := by
    rw [get_set_field (by decide), get_set_field (by decide),
      hHeader.size]
  next := by
    rw [get_set_field (by decide), get_set_field (by decide),
      hHeader.next]
  prev := by
    rw [get_set_field (by decide), get_set_field (by decide),
      hHeader.prev]
  free := by
    rw [get_set_field (by decide),
      get_set_same (by cases used <;> decide)]

/- The header of a block that is handed out. -/
theorem HeaderAt.mark
    {b next prev k : Nat}
    (hHeader : HeaderAt wide m b ⟨k, false⟩ next prev) :
    HeaderAt wide
      (set wide (set wide m b .free 0) b .magic magicUsed)
      b ⟨k, true⟩ next prev :=
  hHeader.retag true

/- The header of a block that is given back. -/
theorem HeaderAt.release
    {b next prev k : Nat}
    (hHeader : HeaderAt wide m b ⟨k, true⟩ next prev) :
    HeaderAt wide
      (set wide (set wide m b .free 1) b .magic magicFree)
      b ⟨k, false⟩ next prev :=
  hHeader.retag false

--
-- Runs of Blocks
--

/- Where a link to the blocks at `b` leads. -/
def linkTo (b out : Nat) : List Cell → Nat
  | [] => out
  | _ :: _ => b

/- The last block of a run, or the one before the run. -/
def lastOf
    (wide : Bool) : Nat → Nat → List Cell → Nat
  | prev, _, [] => prev
  | _, b, c :: rest =>
      lastOf wide b (b + sizeofBlock wide + c.size) rest

/-
  The blocks at `b` are linked in place: the first one back
  to `prev`, the last one on to `out`.
-/
def Seg
    (wide : Bool)
    (m : Buf) : Nat → Nat → List Cell → Nat → Prop
  | _, _, [], _ => True
  | prev, b, c :: rest, out =>
      HeaderAt wide m b c
          (linkTo (b + sizeofBlock wide + c.size) out rest)
          prev ∧
        Seg wide m b (b + sizeofBlock wide + c.size) rest out

/- The byte is in a header of the blocks at `b`. -/
def InHeaders
    (wide : Bool) : Nat → List Cell → Nat → Prop
  | _, [], _ => False
  | b, c :: rest, i =>
      (b ≤ i ∧ i < b + sizeofBlock wide) ∨
        InHeaders wide (b + sizeofBlock wide + c.size) rest i

variable {cells : List Cell}

theorem InHeaders.inside
    {b i : Nat}
    (hIn : InHeaders wide b cells i) :
    b ≤ i ∧ i < b + span (sizeofBlock wide) cells := by
  induction cells generalizing b with
  | nil => exact hIn.elim
  | cons c rest ih =>
      simp only [span]
      rcases hIn with hHere | hRest
      · omega
      · have hBounds := ih hRest
        omega

/- Headers and payloads share no byte. -/
theorem InHeaders.not_payload
    {b i : Nat}
    (hIn : InHeaders wide b cells i)
    {e : Extent}
    (hMem : e ∈ payloads (sizeofBlock wide) b cells) :
    i < e.start ∨ e.stop ≤ i := by
  induction cells generalizing b with
  | nil => exact hIn.elim
  | cons c rest ih =>
      have hRest : e ∈ payloads (sizeofBlock wide)
          (b + sizeofBlock wide + c.size) rest →
          i < e.start ∨ e.stop ≤ i := by
        intro hTail
        rcases hIn with hHere | hLater
        · have hInside := payloads_inside hTail
          omega
        · exact ih hLater hTail
      simp only [payloads] at hMem
      split at hMem
      · rcases List.mem_cons.mp hMem with rfl | hTail
        · simp only [Extent.stop]
          rcases hIn with hHere | hLater
          · omega
          · have hBounds := hLater.inside
            omega
        · exact hRest hTail
      · exact hRest hMem

/- A run depends on the bytes of its headers. -/
theorem seg_congr
    {m m' : Buf}
    {prev b out : Nat}
    (hSeg : Seg wide m prev b cells out)
    (hSame : ∀ i, InHeaders wide b cells i → m' i = m i) :
    Seg wide m' prev b cells out := by
  induction cells generalizing prev b with
  | nil => trivial
  | cons c rest ih =>
      refine ⟨headerAt_bytes hSeg.1 ?_, ih hSeg.2 ?_⟩
      · exact fun i hLow hHigh => hSame i (Or.inl ⟨hLow, hHigh⟩)
      · exact fun i hIn => hSame i (Or.inr hIn)

theorem seg_append
    {prev b out : Nat}
    {xs ys : List Cell} :
    Seg wide m prev b (xs ++ ys) out ↔
      Seg wide m prev b xs
          (linkTo (b + span (sizeofBlock wide) xs) out ys) ∧
        Seg wide m (lastOf wide prev b xs)
          (b + span (sizeofBlock wide) xs) ys out := by
  induction xs generalizing prev b with
  | nil => simp [Seg, span, lastOf]
  | cons c xs ih =>
      have hHere : b + span (sizeofBlock wide) (c :: xs) =
          b + sizeofBlock wide + c.size +
            span (sizeofBlock wide) xs := by
        simp only [span]
        omega
      have hLink : linkTo (b + sizeofBlock wide + c.size) out
            (xs ++ ys) =
          linkTo (b + sizeofBlock wide + c.size)
            (linkTo (b + sizeofBlock wide + c.size +
              span (sizeofBlock wide) xs) out ys) xs := by
        cases xs
        · cases ys <;> simp [linkTo, span]
        · rfl
      simp only [List.cons_append, Seg, ih, hHere, hLink, lastOf,
        and_assoc]

/- The first block of a run is linked back elsewhere. -/
theorem seg_relink
    {prev b p : Nat}
    (hSeg : Seg wide m prev b cells 0)
    (hStart : b ≠ 0)
    (hBound : p < 2 ^ 32) :
    Seg wide (relink wide m (linkTo b 0 cells) p) p b cells
      0 := by
  cases cells with
  | nil => trivial
  | cons c rest =>
      have hFirst : linkTo b 0 (c :: rest) = b := rfl
      rw [hFirst]
      unfold relink
      rw [if_neg hStart]
      refine ⟨hSeg.1.setPrev hBound, seg_congr hSeg.2 ?_⟩
      intro i hIn
      have hBounds := hIn.inside
      exact set_outside (by omega)

--
-- Handing Out
--

/- Links in an arena below 4 GiB. -/
theorem linkTo_lt
    (wide : Bool)
    (hTop : b + span (sizeofBlock wide) cells ≤ 2 ^ 32) :
    linkTo b 0 cells < 2 ^ 32 := by
  have hPos := sizeofBlock_pos wide
  cases cells with
  | nil => exact Nat.two_pow_pos 32
  | cons c rest =>
      simp only [span] at hTop
      simp only [linkTo]
      omega

/- A link leads nowhere or to the next block. -/
theorem linkTo_apart
    (hLink : linkTo b 0 cells ≠ 0) :
    linkTo b 0 cells = b := by
  cases cells with
  | nil => exact absurd rfl hLink
  | cons c rest => rfl

/- The header that `split` writes. -/
theorem headerAt_new
    {b k next prev : Nat}
    (hSize : k < 2 ^ 32)
    (hNext : next < 2 ^ 32)
    (hPrev : prev < 2 ^ 32) :
    HeaderAt wide
      (set wide (set wide (set wide (set wide
        (set wide m b .magic magicFree) b .size k) b .free 1)
        b .next next) b .prev prev)
      b ⟨k, false⟩ next prev where
  magic := by
    rw [get_set_field (by decide), get_set_field (by decide),
      get_set_field (by decide), get_set_field (by decide),
      get_set_same (by decide)]
    rfl
  size := by
    rw [get_set_field (by decide), get_set_field (by decide),
      get_set_field (by decide), get_set_same hSize]
  next := by
    rw [get_set_field (by decide), get_set_same hNext]
  prev := get_set_same hPrev
  free := by
    rw [get_set_field (by decide), get_set_field (by decide),
      get_set_same (by decide)]
    rfl

variable {h : HeapState} {a n pv : Nat} {c : Cell}
variable {post : List Cell}

/- What `split` leaves at the block it is given. -/
structure Split
    (wide : Bool)
    (h h' : HeapState)
    (a n pv : Nat)
    (c : Cell)
    (post : List Cell) : Prop where
  front : HeaderAt wide h'.mem a ⟨n, false⟩
    (a + sizeofBlock wide + n) pv
  rest : HeaderAt wide h'.mem (a + sizeofBlock wide + n)
    ⟨c.size - n - sizeofBlock wide, false⟩
    (linkTo (a + sizeofBlock wide + c.size) 0 post) a
  after : Seg wide h'.mem (a + sizeofBlock wide + n)
    (a + sizeofBlock wide + c.size) post 0
  same : ∀ i, i < a ∨
    a + sizeofBlock wide + c.size + sizeofBlock wide ≤ i →
    h'.mem i = h.mem i
  fields : h' = { h with
    mem := h'.mem
    heapUsed := (h.heapUsed + sizeofBlock wide) % 2 ^ 32 }

/- The block is long enough for a rest of its own. -/
theorem split_spec
    (hHeader : HeaderAt wide h.mem a c
      (linkTo (a + sizeofBlock wide + c.size) 0 post) pv)
    (hPost : Seg wide h.mem a
      (a + sizeofBlock wide + c.size) post 0)
    (hFree : c.used = false)
    (hFits : n + sizeofBlock wide + 16 ≤ c.size)
    (hTop : a + sizeofBlock wide + c.size +
      span (sizeofBlock wide) post ≤ 2 ^ 32) :
    Split wide h (split wide h a n) a n pv c post := by
  have hPos := sizeofBlock_pos wide
  have hWord : 2 ^ 32 ≤ 2 ^ wordBits wide := by
    cases wide <;> decide
  have hLink : linkTo (a + sizeofBlock wide + c.size) 0 post <
      2 ^ 32 :=
    linkTo_lt wide hTop
  have hApart : a + sizeofBlock wide ≤
        a + sizeofBlock wide + n ∨
      a + sizeofBlock wide + n + sizeofBlock wide ≤ a :=
    Or.inl (by omega)
  have hNoRoom : ¬get wide h.mem a .size <
      (n + sizeofBlock wide + 16) % 2 ^ wordBits wide := by
    rw [hHeader.size, Nat.mod_eq_of_lt (by omega)]
    omega
  have hRest : Word.sub (wordBits wide)
        (Word.sub 32 c.size n) (sizeofBlock wide) =
      c.size - n - sizeofBlock wide := by
    have hInner : Word.sub 32 c.size n = c.size - n :=
      Word.sub_of_le (by omega) (by omega)
    rw [hInner, Word.sub_of_le (by omega) (by omega)]
  have hNext : ∀ {n'}, n' = linkTo
      (a + sizeofBlock wide + c.size) 0 post → n' ≠ 0 →
      n' = a + sizeofBlock wide + c.size := by
    rintro n' rfl hNe
    exact linkTo_apart hNe
  have hFront : a + sizeofBlock wide + n < 2 ^ 32 := by omega
  have hKept : ∀ {m f v nx},
      HeaderAt wide m a c nx pv →
      HeaderAt wide
        (set wide m (a + sizeofBlock wide + n) f v) a c nx
        pv :=
    fun hOld => hOld.setOther hApart
  have hAfter : ∀ {m f v},
      Seg wide m a (a + sizeofBlock wide + c.size) post 0 →
      Seg wide (set wide m (a + sizeofBlock wide + n) f v) a
        (a + sizeofBlock wide + c.size) post 0 := by
    intro m f v hOld
    apply seg_congr hOld
    intro i hIn
    have hBounds := hIn.inside
    exact set_outside (by omega)
  unfold split
  rw [if_neg hNoRoom]
  simp only [get_set_block hApart, hHeader.size,
    hHeader.next, hRest]
  refine ⟨?_, ?_, ?_, ?_, rfl⟩
  · have hLength : n < 2 ^ 32 := by omega
    have hCell : (⟨n, false⟩ : Cell) = ⟨n, c.used⟩ := by
      rw [hFree]
    rw [hCell]
    refine HeaderAt.setSize (HeaderAt.setNext
      (HeaderAt.relinkOther (hKept (hKept (hKept (hKept
        (hKept hHeader))))) ?_) hFront) hLength
    intro hNe
    rw [hNext rfl hNe]
    omega
  · apply HeaderAt.setOther _ (by omega)
    apply HeaderAt.setOther _ (by omega)
    apply HeaderAt.relinkOther _
      (fun hNe => by rw [hNext rfl hNe]; omega)
    exact headerAt_new (by omega) hLink (by omega)
  · apply seg_congr (seg_relink (hAfter (hAfter (hAfter (hAfter
      (hAfter hPost))))) (by omega) hFront)
    intro i hIn
    have hBounds := hIn.inside
    dsimp only
    rw [set_outside (by omega), set_outside (by omega)]
  · intro i hOut
    dsimp only
    rw [set_outside (by omega), set_outside (by omega),
      relink_outside (fun hNe => by
        rw [hNext rfl hNe]
        omega),
      set_outside (by omega), set_outside (by omega),
      set_outside (by omega), set_outside (by omega),
      set_outside (by omega)]

/- A block too short for a rest is handed out whole. -/
theorem split_short
    (hSize : get wide h.mem a .size = c.size)
    (hShort : c.size < n + sizeofBlock wide + 16)
    (hWord : n + sizeofBlock wide + 16 < 2 ^ wordBits wide) :
    split wide h a n = h := by
  unfold split
  rw [hSize, Nat.mod_eq_of_lt hWord, if_pos hShort]

/-
  A heap whose list from `start` on is the given blocks, with
  the memory they take accounted for.
-/
structure Lists
    (wide : Bool)
    (h : HeapState)
    (start : Nat)
    (cells : List Cell) : Prop where
  seg : Seg wide h.mem 0 start cells 0
  used : h.heapUsed = taken (sizeofBlock wide) cells
  above : 0 < start
  top : start + span (sizeofBlock wide) cells ≤ 2 ^ 32

/- What handing out a block among others leaves. -/
structure HandedOut
    (wide : Bool)
    (h h' : HeapState)
    (start n : Nat)
    (pre : List Cell)
    (c : Cell)
    (post : List Cell) : Prop where
  lists : Lists wide h' start
    (pre ++ carve (sizeofBlock wide) 16 n c ++ post)
  fields : h' = { h with
    mem := h'.mem
    heapUsed := h'.heapUsed }
  same : ∀ i, i < start + span (sizeofBlock wide) pre ∨
    start + span (sizeofBlock wide) pre +
      sizeofBlock wide + c.size + sizeofBlock wide ≤ i →
    h'.mem i = h.mem i

theorem handOut_spec
    {start : Nat}
    {pre : List Cell}
    (hLists : Lists wide h start (pre ++ c :: post))
    (hHolds : c.Holds n)
    (hWord : n + sizeofBlock wide + 16 < 2 ^ wordBits wide) :
    HandedOut wide h
      (handOut wide h
        (start + span (sizeofBlock wide) pre) n).1
      start n pre c post := by
  have hPos := sizeofBlock_pos wide
  rcases seg_append.mp hLists.seg with ⟨hPre, hHeader, hPost⟩
  have hTop := hLists.top
  have hUsed := hLists.used
  have hAbove := hLists.above
  have hSpan := span_carve (sizeofBlock wide) 16 hHolds
  have hTaken := taken_carve (sizeofBlock wide) 16 n c
  have hBounded := taken_le_span (h := sizeofBlock wide)
    (pre ++ carve (sizeofBlock wide) 16 n c ++ post)
  obtain ⟨k, used⟩ := c
  obtain ⟨hFree, hFits⟩ := hHolds
  subst hFree
  simp only [span_append, taken_append, span, taken,
    Bool.false_eq_true, if_false, Nat.add_zero]
    at hTop hUsed hSpan hTaken hBounded
  generalize ha : start + span (sizeofBlock wide) pre = a
    at hPre hHeader hPost ⊢
  unfold granted at hTaken
  dsimp only at hHeader hPost hFits hTaken
  have hPrefix : ∀ {m}, (∀ i, i < a → m i = h.mem i) →
      Seg wide m 0 start pre a := by
    intro m hSame
    apply seg_congr hPre
    intro i hIn
    have hBounds := hIn.inside
    exact hSame i (by omega)
  have hLink : ∀ ys, linkTo a 0 (carve (sizeofBlock wide) 16 n
      ⟨k, false⟩ ++ ys) = a := by
    intro ys
    unfold carve
    split <;> rfl
  by_cases hShort : k < n + sizeofBlock wide + 16
  · have hWhole := split_short (h := h) (c := ⟨k, false⟩)
      hHeader.size hShort hWord
    have hMark := hHeader.mark
    have hSame : ∀ i, i < a ∨ a + sizeofBlock wide ≤ i →
        set wide (set wide h.mem a .free 0) a .magic magicUsed
          i = h.mem i := by
      intro i hOut
      rw [set_outside hOut, set_outside hOut]
    unfold handOut
    rw [hWhole]
    dsimp only
    rw [hMark.size]
    refine ⟨⟨?_, ?_, hAbove, ?_⟩, rfl, ?_⟩
    · rw [List.append_assoc, seg_append, ha, hLink]
      refine ⟨hPrefix (fun i hi => hSame i (Or.inl hi)), ?_⟩
      unfold carve
      rw [if_pos hShort]
      refine ⟨hMark, seg_congr hPost ?_⟩
      intro i hIn
      have hBounds := hIn.inside
      exact hSame i (by omega)
    · rw [if_pos hShort, if_pos hShort] at hTaken
      simp only [taken_append, hTaken]
      rw [Nat.mod_eq_of_lt (by omega)]
      omega
    · simp only [span_append, hSpan]
      omega
    · intro i hOut
      exact hSame i (by omega)
  · have hSplit := split_spec (n := n) hHeader hPost rfl
      (by dsimp only; omega) (by dsimp only; omega)
    have hMark := hSplit.front.mark
    have hSame : ∀ i, i < a ∨ a + sizeofBlock wide ≤ i →
        set wide (set wide (split wide h a n).mem a .free 0) a
          .magic magicUsed i = (split wide h a n).mem i := by
      intro i hOut
      rw [set_outside hOut, set_outside hOut]
    unfold handOut
    dsimp only
    rw [hMark.size]
    refine ⟨⟨?_, ?_, hAbove, ?_⟩, ?_, ?_⟩
    · rw [List.append_assoc, seg_append, ha, hLink]
      refine ⟨hPrefix (fun i hi => ?_), ?_⟩
      · exact (hSame i (Or.inl hi)).trans
          (hSplit.same i (Or.inl hi))
      · unfold carve
        rw [if_neg hShort]
        refine ⟨hMark, ?_, ?_⟩
        · have hRest := hSplit.rest
          dsimp only at hRest ⊢
          have hEnd : a + sizeofBlock wide + n +
              sizeofBlock wide +
                (k - n - sizeofBlock wide) =
              a + sizeofBlock wide + k := by omega
          rw [hEnd]
          exact (hRest.setOther (by omega)).setOther
            (by omega)
        · have hAfter := hSplit.after
          dsimp only at hAfter ⊢
          have hEnd : a + sizeofBlock wide + n +
              sizeofBlock wide +
                (k - n - sizeofBlock wide) =
              a + sizeofBlock wide + k := by omega
          rw [hEnd]
          apply seg_congr hAfter
          intro i hIn
          have hBounds := hIn.inside
          exact hSame i (by omega)
    · rw [if_neg hShort, if_neg hShort] at hTaken
      rw [hSplit.fields]
      simp only [taken_append, hTaken]
      omega
    · simp only [span_append, hSpan]
      omega
    · rw [hSplit.fields]
    · intro i hOut
      dsimp only at hOut
      exact (hSame i (by omega)).trans
        (hSplit.same i (by dsimp only; omega))

end KvantOS.Heap
