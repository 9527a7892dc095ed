import KvantOS.Data.FirstFit
import Mathlib.Data.List.Chain
import Mathlib.Data.List.Perm.Basic

/-
  This file studies an arena cut into blocks, each behind a
  header: a request is carved out of the first free block
  that holds it, and a block given back takes in the free
  blocks next to it.

  Key definitions include:
    * `Cell`, `Cell.Holds`
    * `span`, `taken`, `payloads`
    * `Coalesced`
    * `carve`, `grow`, `giveBack`

  Key theorems include:
    * `cases_firstFree`, `payloads_disjoint`
    * `Coalesced.carve`, `Coalesced.giveBack`
    * `single_of_free`
-/

namespace KvantOS.Blocks

--
-- Blocks
--

/- A block: the bytes behind its header, and their state. -/
structure Cell where
  size : Nat
  used : Bool
  deriving DecidableEq

/- The block can serve a request. -/
def Cell.Holds
    (c : Cell)
    (n : Nat) : Prop :=
  c.used = false ∧ n ≤ c.size

instance
    (c : Cell)
    (n : Nat) :
    Decidable (c.Holds n) :=
  inferInstanceAs (Decidable (_ ∧ _))

/- The bytes of a run of blocks, headers included. -/
def span (h : Nat) : List Cell → Nat
  | [] => 0
  | c :: rest => h + c.size + span h rest

/- The bytes in headers and in used blocks. -/
def taken (h : Nat) : List Cell → Nat
  | [] => 0
  | c :: rest =>
      h + (if c.used then c.size else 0) + taken h rest

/- What the used blocks of a run from `b` offer. -/
def payloads (h : Nat) : Nat → List Cell → List Extent
  | _, [] => []
  | b, c :: rest =>
      if c.used then
        ⟨b + h, c.size⟩ :: payloads h (b + h + c.size) rest
      else
        payloads h (b + h + c.size) rest

/- No two neighbours are both free. -/
def Coalesced (cells : List Cell) : Prop :=
  cells.IsChain (fun c d => c.used = true ∨ d.used = true)

instance (cells : List Cell) : Decidable (Coalesced cells) :=
  inferInstanceAs (Decidable (List.IsChain _ cells))

variable {h : Nat}

@[simp]
theorem span_append
    (xs ys : List Cell) :
    span h (xs ++ ys) = span h xs + span h ys := by
  induction xs with
  | nil => simp [span]
  | cons c xs ih =>
      simp only [List.cons_append, span, ih]
      omega

@[simp]
theorem taken_append
    (xs ys : List Cell) :
    taken h (xs ++ ys) = taken h xs + taken h ys := by
  induction xs with
  | nil => simp [taken]
  | cons c xs ih =>
      simp only [List.cons_append, taken, ih]
      omega

theorem payloads_append
    (b : Nat)
    (xs ys : List Cell) :
    payloads h b (xs ++ ys) =
      payloads h b xs ++ payloads h (b + span h xs) ys := by
  induction xs generalizing b with
  | nil => simp [payloads, span]
  | cons c xs ih =>
      have hNext : b + h + c.size + span h xs =
          b + span h (c :: xs) := by
        simp only [span]
        omega
      simp only [List.cons_append, payloads, ih, hNext]
      cases c.used <;> simp

theorem taken_le_span (cells : List Cell) :
    taken h cells ≤ span h cells := by
  induction cells with
  | nil => simp [taken, span]
  | cons c cells ih =>
      simp only [taken, span]
      split <;> omega

/- Every block leaves room for its header. -/
theorem length_le_span
    (hHeader : 0 < h)
    (cells : List Cell) :
    cells.length ≤ span h cells := by
  induction cells with
  | nil => simp
  | cons c cells ih =>
      simp only [List.length_cons, span]
      omega

variable {b : Nat} {cells : List Cell}

/- The used blocks are where the payloads are. -/
theorem mem_payloads
    {e : Extent} :
    e ∈ payloads h b cells ↔
      ∃ pre c post, cells = pre ++ c :: post ∧
        c.used = true ∧ e = ⟨b + span h pre + h, c.size⟩ := by
  constructor
  · intro hMem
    induction cells generalizing b with
    | nil => simp [payloads] at hMem
    | cons d rest ih =>
        have hRest : e ∈ payloads h (b + h + d.size) rest →
            ∃ pre c post, d :: rest = pre ++ c :: post ∧
              c.used = true ∧
              e = ⟨b + span h pre + h, c.size⟩ := by
          intro hIn
          rcases ih hIn with ⟨pre, c, post, hCells, hUsed, he⟩
          refine ⟨d :: pre, c, post, by rw [hCells]; rfl,
            hUsed, ?_⟩
          rw [he, span]
          congr 1
          omega
        simp only [payloads] at hMem
        split at hMem
        · rename_i hUsed
          rcases List.mem_cons.mp hMem with hHere | hIn
          · exact ⟨[], d, rest, rfl, hUsed, by simpa [span]⟩
          · exact hRest hIn
        · exact hRest hMem
  · rintro ⟨pre, c, post, rfl, hUsed, rfl⟩
    rw [payloads_append, List.mem_append]
    exact Or.inr (by simp [payloads, hUsed])

/- A payload lies behind a header, inside the run. -/
theorem payloads_inside
    {e : Extent}
    (hMem : e ∈ payloads h b cells) :
    b + h ≤ e.start ∧ e.stop ≤ b + span h cells := by
  rcases mem_payloads.mp hMem with
    ⟨pre, c, post, rfl, _, rfl⟩
  simp only [Extent.stop, span_append, span]
  omega

theorem payloads_disjoint
    (b : Nat)
    (cells : List Cell) :
    (payloads h b cells).Pairwise Extent.Disjoint := by
  induction cells generalizing b with
  | nil => exact List.Pairwise.nil
  | cons c cells ih =>
      simp only [payloads]
      split
      · refine List.pairwise_cons.mpr ⟨?_, ih _⟩
        intro e he hMeets
        have hInside := payloads_inside he
        have hLt : e.start < (⟨b + h, c.size⟩ : Extent).stop :=
          hMeets.1
        simp only [Extent.stop] at hLt hInside
        omega
      · exact ih _

/- No two blocks offer the same place. -/
theorem payloads_nodup
    (hHeader : 0 < h)
    (b : Nat)
    (cells : List Cell) :
    ((payloads h b cells).map Extent.start).Nodup := by
  induction cells generalizing b with
  | nil => exact List.nodup_nil
  | cons c cells ih =>
      simp only [payloads]
      split
      · refine List.nodup_cons.mpr ⟨?_, ih _⟩
        intro hMem
        rcases List.mem_map.mp hMem with ⟨e, he, hStart⟩
        have hInside := payloads_inside he
        dsimp only at hStart
        omega
      · exact ih _

/- Places are multiples when all that precedes them is. -/
theorem dvd_payloads
    {k b : Nat}
    (hStart : k ∣ b)
    (hHeader : k ∣ h)
    (hSizes : ∀ c ∈ cells, k ∣ c.size) :
    ∀ e ∈ payloads h b cells, k ∣ e.start := by
  induction cells generalizing b with
  | nil => simp [payloads]
  | cons c cells ih =>
      have hFirst := Nat.dvd_add hStart hHeader
      have hRest := ih
        (Nat.dvd_add hFirst (hSizes c (by simp)))
        (fun d hd => hSizes d (by simp [hd]))
      intro e hMem
      simp only [payloads] at hMem
      split at hMem
      · rcases List.mem_cons.mp hMem with rfl | hTail
        · exact hFirst
        · exact hRest e hTail
      · exact hRest e hMem

variable {k : Nat}

theorem dvd_span
    (hHeader : k ∣ h)
    (hSizes : ∀ c ∈ cells, k ∣ c.size) :
    k ∣ span h cells := by
  induction cells with
  | nil => exact Nat.dvd_zero k
  | cons c cells ih =>
      exact Nat.dvd_add
        (Nat.dvd_add hHeader (hSizes c (by simp)))
        (ih (fun d hd => hSizes d (by simp [hd])))

/- Nothing is offered exactly when every block is free. -/
theorem payloads_eq_nil_iff
    {cells : List Cell} :
    payloads h b cells = [] ↔
      ∀ c ∈ cells, c.used = false := by
  induction cells generalizing b with
  | nil => simp [payloads]
  | cons c cells ih =>
      cases hUsed : c.used <;> simp [payloads, hUsed, ih]

/- A coalesced arena that is all free is one block. -/
theorem single_of_free
    (hCoalesced : Coalesced cells)
    (hNonempty : cells ≠ [])
    (hFree : ∀ c ∈ cells, c.used = false) :
    cells = [⟨span h cells - h, false⟩] := by
  match cells with
  | [] => exact absurd rfl hNonempty
  | [c] =>
      have hUsed := hFree c (by simp)
      cases c
      simp_all [span]
  | c :: d :: rest =>
      have hPair := (List.isChain_cons_cons.mp hCoalesced).1
      rw [hFree c (by simp), hFree d (by simp)] at hPair
      simp at hPair

--
-- Serving a Request
--

/- The first free block that holds a request, if any. -/
theorem cases_firstFree
    (n : Nat)
    (cells : List Cell) :
    (∀ c ∈ cells, ¬c.Holds n) ∨
      ∃ pre c post, cells = pre ++ c :: post ∧
        (∀ d ∈ pre, ¬d.Holds n) ∧ c.Holds n := by
  induction cells with
  | nil => simp
  | cons c cells ih =>
      by_cases hHolds : c.Holds n
      · exact Or.inr ⟨[], c, cells, rfl, by simp, hHolds⟩
      · rcases ih with hNone | ⟨pre, d, post, rfl, hPre, hd⟩
        · exact Or.inl (by simpa using ⟨hHolds, hNone⟩)
        · exact Or.inr ⟨c :: pre, d, post, rfl,
            by simpa using ⟨hHolds, hPre⟩, hd⟩

/-
  The blocks a free one becomes: a rest too short for a
  header and `slack` bytes stays with the request.
-/
def carve (h slack n : Nat) (c : Cell) : List Cell :=
  if c.size < n + h + slack then
    [⟨c.size, true⟩]
  else
    [⟨n, true⟩, ⟨c.size - n - h, false⟩]

/- The bytes the request gets. -/
def granted (h slack n : Nat) (c : Cell) : Nat :=
  if c.size < n + h + slack then c.size else n

variable {slack n : Nat} {c : Cell}

theorem span_carve
    (h slack : Nat)
    (hHolds : c.Holds n) :
    span h (carve h slack n c) = h + c.size := by
  have hFits := hHolds.2
  unfold carve
  split
  · rfl
  · simp only [span]
    omega

theorem taken_carve
    (h slack n : Nat)
    (c : Cell) :
    taken h (carve h slack n c) =
      h + granted h slack n c +
        (if c.size < n + h + slack then 0 else h) := by
  unfold carve granted
  split
  · simp [taken]
  · simp only [taken, if_true, Bool.false_eq_true, if_false]
    omega

theorem payloads_carve (b : Nat) :
    payloads h b (carve h slack n c) =
      [⟨b + h, granted h slack n c⟩] := by
  unfold carve granted
  split <;> simp [payloads]

theorem le_granted
    (h slack : Nat)
    (hHolds : c.Holds n) :
    n ≤ granted h slack n c := by
  unfold granted
  split
  · exact hHolds.2
  · exact Nat.le_refl n

/- What is offered grows by the request's extent. -/
theorem payloads_served
    (hHolds : c.Holds n)
    (b : Nat)
    (pre post : List Cell) :
    (payloads h b (pre ++ carve h slack n c ++ post)).Perm
      (⟨b + span h pre + h, granted h slack n c⟩ ::
        payloads h b (pre ++ c :: post)) := by
  have hFree := hHolds.1
  have hNext : b + span h (pre ++ carve h slack n c) =
      b + span h pre + h + c.size := by
    rw [span_append, span_carve h slack hHolds]
    omega
  rw [payloads_append, payloads_append, payloads_carve, hNext,
    payloads_append]
  simp only [payloads, hFree, List.append_assoc]
  exact List.perm_middle

variable {pre post : List Cell}

theorem Coalesced.carve
    (hCoalesced : Coalesced (pre ++ c :: post))
    (hHolds : c.Holds n) :
    Coalesced (pre ++ Blocks.carve h slack n c ++ post) := by
  unfold Coalesced at hCoalesced ⊢
  rw [List.isChain_append, List.isChain_cons] at hCoalesced
  rcases hCoalesced with ⟨hPre, ⟨hNext, hPost⟩, _⟩
  rw [hHolds.1] at hNext
  rw [List.append_assoc, List.isChain_append]
  refine ⟨hPre, ?_, ?_⟩
  · unfold Blocks.carve
    split
    · exact List.isChain_cons.mpr
        ⟨fun d _ => Or.inl rfl, hPost⟩
    · refine List.isChain_cons_cons.mpr ⟨Or.inl rfl, ?_⟩
      exact List.isChain_cons.mpr ⟨hNext, hPost⟩
  · intro d _ e he
    right
    unfold Blocks.carve at he
    split at he <;> simp at he <;> rw [← he]

/- Sizes stay multiples when the request is one. -/
theorem dvd_carve
    (hHeader : k ∣ h)
    (hRequest : k ∣ n)
    (hSize : k ∣ c.size) :
    ∀ d ∈ carve h slack n c, k ∣ d.size := by
  intro d hMem
  unfold carve at hMem
  split at hMem
  · simp only [List.mem_singleton] at hMem
    rw [hMem]
    exact hSize
  · simp only [List.mem_cons, List.not_mem_nil, or_false]
      at hMem
    rcases hMem with rfl | rfl
    · exact hRequest
    · exact Nat.dvd_sub (Nat.dvd_sub hSize hRequest) hHeader

--
-- Giving Back
--

/- A block takes in the free blocks that follow it. -/
def grow (h : Nat) : Cell → List Cell → Cell × List Cell
  | c, [] => (c, [])
  | c, d :: rest =>
      if d.used then
        (c, d :: rest)
      else
        grow h ⟨c.size + (d.size + h), c.used⟩ rest

/- The blocks after the one behind `pre` is given back. -/
def giveBack
    (h : Nat)
    (pre : List Cell)
    (c : Cell)
    (post : List Cell) : List Cell :=
  let next := grow h ⟨c.size, false⟩ post
  match pre.getLast? with
  | none => next.1 :: next.2
  | some q =>
      if q.used then
        pre ++ next.1 :: next.2
      else
        let all := grow h q (next.1 :: next.2)
        pre.dropLast ++ all.1 :: all.2

theorem giveBack_used
    {init post : List Cell}
    {q : Cell}
    (c : Cell)
    (hUsed : q.used = true) :
    giveBack h (init ++ [q]) c post =
      init ++ [q] ++ (grow h ⟨c.size, false⟩ post).1 ::
        (grow h ⟨c.size, false⟩ post).2 := by
  unfold giveBack
  rw [List.getLast?_concat]
  simp [hUsed]

theorem giveBack_free
    {init post : List Cell}
    {q : Cell}
    (c : Cell)
    (hFree : q.used = false) :
    giveBack h (init ++ [q]) c post =
      init ++
        (grow h q ((grow h ⟨c.size, false⟩ post).1 ::
          (grow h ⟨c.size, false⟩ post).2)).1 ::
        (grow h q ((grow h ⟨c.size, false⟩ post).1 ::
          (grow h ⟨c.size, false⟩ post).2)).2 := by
  unfold giveBack
  rw [List.getLast?_concat, List.dropLast_concat]
  simp [hFree]

theorem grow_used
    (c : Cell)
    (post : List Cell) :
    (grow h c post).1.used = c.used := by
  induction post generalizing c with
  | nil => rfl
  | cons d rest ih =>
      unfold grow
      split
      · rfl
      · exact ih _

theorem span_grow
    (c : Cell)
    (post : List Cell) :
    (grow h c post).1.size + span h (grow h c post).2 =
      c.size + span h post := by
  induction post generalizing c with
  | nil => rfl
  | cons d rest ih =>
      unfold grow
      split
      · rfl
      · rw [ih]
        simp only [span]
        omega

theorem size_le_grow
    (c : Cell)
    (post : List Cell) :
    c.size ≤ (grow h c post).1.size := by
  induction post generalizing c with
  | nil => exact Nat.le_refl _
  | cons d rest ih =>
      unfold grow
      split
      · exact Nat.le_refl _
      · have hStep := ih ⟨c.size + (d.size + h), c.used⟩
        simp only at hStep
        omega

/- Free blocks offer nothing, taken in or not. -/
theorem payloads_grow
    (hFree : c.used = false)
    (b : Nat)
    (post : List Cell) :
    payloads h b
        ((grow h c post).1 :: (grow h c post).2) =
      payloads h (b + h + c.size) post := by
  induction post generalizing c with
  | nil => simp [grow, payloads, hFree]
  | cons d rest ih =>
      unfold grow
      cases hUsed : d.used with
      | true => simp [payloads, hFree]
      | false =>
          have hStep := ih
            (c := ⟨c.size + (d.size + h), c.used⟩) hFree
          have hHere : b + h + c.size + h + d.size =
              b + h + (c.size + (d.size + h)) := by
            omega
          simp only [Bool.false_eq_true, if_false, payloads,
            hUsed, hHere]
          exact hStep

theorem payloads_join
    (hFree : c.used = false)
    (b : Nat)
    (pre post : List Cell) :
    payloads h b
        (pre ++ (grow h c post).1 :: (grow h c post).2) =
      payloads h b (pre ++ c :: post) := by
  rw [payloads_append, payloads_grow hFree, payloads_append]
  simp [payloads, hFree]

/- A grown block has no free neighbour behind it. -/
theorem grow_head
    (c : Cell)
    (post : List Cell) :
    ∀ d ∈ (grow h c post).2.head?, d.used = true := by
  induction post generalizing c with
  | nil => simp [grow]
  | cons d rest ih =>
      unfold grow
      split
      · rename_i hUsed
        simpa using hUsed
      · exact ih _

theorem grow_suffix
    (c : Cell)
    (post : List Cell) :
    (grow h c post).2 <:+ post := by
  induction post generalizing c with
  | nil => exact List.suffix_refl _
  | cons d rest ih =>
      unfold grow
      split
      · exact List.suffix_refl _
      · exact (ih _).trans (List.suffix_cons d rest)

theorem Coalesced.grow
    (hPost : Coalesced post) :
    Coalesced ((Blocks.grow h c post).1 ::
      (Blocks.grow h c post).2) := by
  refine List.isChain_cons.mpr ⟨?_, ?_⟩
  · intro d hd
    exact Or.inr (grow_head c post d hd)
  · exact hPost.suffix (grow_suffix c post)

/- A block is the last of a run, or the run is empty. -/
theorem span_giveBack
    (pre post : List Cell)
    (c : Cell) :
    span h (giveBack h pre c post) =
      span h (pre ++ c :: post) := by
  have hNext := span_grow (h := h) ⟨c.size, false⟩ post
  dsimp only at hNext
  rcases List.eq_nil_or_concat pre with rfl | ⟨init, q, rfl⟩
  · simp only [giveBack, List.getLast?_nil, List.nil_append,
      span]
    omega
  · rw [List.concat_eq_append]
    cases hq : q.used with
    | true =>
        rw [giveBack_used c hq]
        simp only [span_append, span]
        omega
    | false =>
        have hAll := span_grow (h := h) q
          ((grow h ⟨c.size, false⟩ post).1 ::
            (grow h ⟨c.size, false⟩ post).2)
        rw [giveBack_free c hq]
        simp only [span_append, span] at hAll ⊢
        omega

/- What is offered loses the block's extent. -/
theorem payloads_giveBack
    (hUsed : c.used = true)
    (b : Nat)
    (pre post : List Cell) :
    (payloads h b (pre ++ c :: post)).Perm
      (⟨b + span h pre + h, c.size⟩ ::
        payloads h b (giveBack h pre c post)) := by
  have hBack : payloads h b (giveBack h pre c post) =
      payloads h b pre ++
        payloads h (b + span h pre + h + c.size) post := by
    have hNext := payloads_grow (h := h)
      (c := ⟨c.size, false⟩) rfl (b + span h pre) post
    rcases List.eq_nil_or_concat pre with rfl | ⟨init, q, rfl⟩
    · simpa [giveBack, payloads, span] using hNext
    · rw [List.concat_eq_append] at hNext ⊢
      cases hq : q.used with
      | true =>
          rw [giveBack_used c hq, payloads_append, hNext]
      | false =>
          rw [giveBack_free c hq, payloads_join hq,
            ← List.singleton_append, ← List.append_assoc,
            payloads_append, hNext]
  rw [hBack, payloads_append]
  simp only [payloads, hUsed, if_true]
  exact List.perm_middle

theorem Coalesced.giveBack
    (hCoalesced : Coalesced (pre ++ c :: post)) :
    Coalesced (Blocks.giveBack h pre c post) := by
  unfold Coalesced at hCoalesced
  rw [List.isChain_append, List.isChain_cons] at hCoalesced
  rcases hCoalesced with ⟨hPre, ⟨_, hPost⟩, _⟩
  have hNext : Coalesced
      ((Blocks.grow h ⟨c.size, false⟩ post).1 ::
        (Blocks.grow h ⟨c.size, false⟩ post).2) :=
    Coalesced.grow hPost
  rcases List.eq_nil_or_concat pre with rfl | ⟨init, q, rfl⟩
  · exact hNext
  · rw [List.concat_eq_append] at hPre ⊢
    cases hq : q.used with
    | true =>
        rw [giveBack_used c hq]
        refine List.isChain_append.mpr ⟨hPre, hNext, ?_⟩
        intro d hd _ _
        rw [List.getLast?_concat, Option.mem_some_iff] at hd
        rw [← hd]
        exact Or.inl hq
    | false =>
        rw [giveBack_free c hq]
        rw [List.isChain_append] at hPre
        refine List.isChain_append.mpr
          ⟨hPre.1, Coalesced.grow hNext, ?_⟩
        intro d hd e he
        left
        have hPair := hPre.2.2 d hd q (by simp)
        rcases hPair with hd | hUsed
        · exact hd
        · rw [hq] at hUsed
          cases hUsed

/- Sizes stay multiples when blocks are joined. -/
theorem dvd_grow
    (hHeader : k ∣ h)
    (hSize : k ∣ c.size)
    (hPost : ∀ d ∈ post, k ∣ d.size) :
    k ∣ (grow h c post).1.size := by
  induction post generalizing c with
  | nil => exact hSize
  | cons d rest ih =>
      unfold grow
      split
      · exact hSize
      · apply ih
        · exact Nat.dvd_add hSize
            (Nat.dvd_add (hPost d (by simp)) hHeader)
        · exact fun e he => hPost e (by simp [he])

theorem dvd_giveBack
    (hHeader : k ∣ h)
    (hSizes : ∀ d ∈ pre ++ c :: post, k ∣ d.size) :
    ∀ d ∈ giveBack h pre c post, k ∣ d.size := by
  have hPost : ∀ d ∈ post, k ∣ d.size :=
    fun d hd => hSizes d (by simp [hd])
  have hSize : k ∣ c.size := hSizes c (by simp)
  have hNext : ∀ d ∈ (grow h ⟨c.size, false⟩ post).1 ::
      (grow h ⟨c.size, false⟩ post).2, k ∣ d.size := by
    intro d hd
    rcases List.mem_cons.mp hd with rfl | hd
    · exact dvd_grow hHeader hSize hPost
    · exact hPost d ((grow_suffix _ _).subset hd)
  rcases List.eq_nil_or_concat pre with rfl | ⟨init, q, rfl⟩
  · exact hNext
  · rw [List.concat_eq_append] at hSizes ⊢
    cases hq : q.used with
    | true =>
        rw [giveBack_used c hq]
        intro d hd
        rcases List.mem_append.mp hd with hd | hd
        · exact hSizes d (List.mem_append_left _ hd)
        · exact hNext d hd
    | false =>
        rw [giveBack_free c hq]
        intro d hd
        rcases List.mem_append.mp hd with hd | hd
        · exact hSizes d (by simp [hd])
        · rcases List.mem_cons.mp hd with rfl | hd
          · exact dvd_grow hHeader (hSizes q (by simp)) hNext
          · exact hNext d ((grow_suffix _ _).subset hd)

end KvantOS.Blocks
