import Mathlib

/-
  This file treats a listing that is read in pages: a reader
  that answers from a list, or fails, and what consecutive
  pages of it add up to.

  Key definitions include:
    * `Pages.page`, `Pages.Answers`
    * `Pages.readPages`, `Pages.readLoop`

  Key theorems include:
    * `Pages.page_append_page`, `Pages.readPages_eq`
    * `Pages.readLoop_answers`
-/

namespace KvantOS.Pages

variable {α W : Type}

--
-- Pages
--

/- The `count` elements of a list from a position on. -/
def page
    (full : List α)
    (first count : Nat) : List α :=
  (full.drop first).take count

theorem page_length
    (full : List α)
    (first count : Nat) :
    (page full first count).length =
      min count (full.length - first) := by
  unfold page
  rw [List.length_take, List.length_drop]

/- Two consecutive pages are one. -/
theorem page_append_page
    (full : List α)
    (first a b : Nat) :
    page full first a ++ page full (first + a) b =
      page full first (a + b) := by
  unfold page
  rw [List.take_add, List.drop_drop]

theorem page_zero
    (full : List α)
    (count : Nat) :
    page full 0 count = full.take count := by
  unfold page
  rw [List.drop_zero]

/- A page of a single element, before the end. -/
theorem page_one
    {full : List α}
    {first : Nat}
    {x : α}
    (hx : full[first]? = some x) :
    page full first 1 = [x] := by
  unfold page
  have hDrop : (full.drop first).head? = some x := by
    rw [List.head?_drop, hx]
  cases hRest : full.drop first with
  | nil =>
      rw [hRest] at hDrop
      cases hDrop
  | cons y rest =>
      rw [hRest] at hDrop
      cases hDrop
      rfl

theorem page_of_end
    {full : List α}
    {first : Nat}
    (hEnd : full.length ≤ first)
    (count : Nat) :
    page full first count = [] := by
  unfold page
  rw [List.drop_of_length_le hEnd, List.take_nil]

--
-- Readers
--

/- A reader of pages; it may change the world, or fail. -/
abbrev Reader (α W : Type) :=
  (first count : Nat) → W → Option (List α) × W

/-
  From the states in question a reader fails or answers with
  a page of the list, and the states stay in question.
-/
structure Answers
    (read : Reader α W)
    (state : W → Prop)
    (full : List α)
    (first count : Nat) : Prop where
  stays : ∀ w, state w → state (read first count w).2
  page : ∀ w, state w →
    (read first count w).1 = none ∨
      (read first count w).1 = some (page full first count)

/- A reader that may fail where another one answers. -/
theorem Answers.mono
    {read read' : Reader α W}
    {state : W → Prop}
    {full : List α}
    {first count : Nat}
    (hAnswers : Answers read state full first count)
    (hSame : ∀ w, (read' first count w).2 =
        (read first count w).2 ∧
      ((read' first count w).1 = none ∨
        (read' first count w).1 =
          (read first count w).1)) :
    Answers read' state full first count where
  stays w hState := by
    rw [(hSame w).1]
    exact hAnswers.stays w hState
  page w hState := by
    rcases (hSame w).2 with hNone | hEq
    · exact .inl hNone
    · rw [hEq]
      exact hAnswers.page w hState

/- Consecutive pages of the given sizes, all of them read. -/
def readPages
    (read : Reader α W) :
    (sizes : List Nat) → (first : Nat) → W →
      Option (List α)
  | [], _, _ => some []
  | count :: sizes, first, w =>
      match read first count w with
      | (none, _) => none
      | (some l, w) =>
          (readPages read sizes (first + count) w).map
            (l ++ ·)

/- Pages that are all read add up to one long page. -/
theorem readPages_eq
    {read : Reader α W}
    {state : W → Prop}
    {full : List α}
    (sizes : List Nat)
    (first : Nat)
    (w : W)
    (hState : state w)
    (hAnswers : ∀ k, k < sizes.length →
      Answers read state full
        (first + (sizes.take k).sum) (sizes.getD k 0)) :
    readPages read sizes first w = none ∨
      readPages read sizes first w =
        some (page full first sizes.sum) := by
  induction sizes generalizing first w with
  | nil =>
      refine .inr ?_
      unfold readPages page
      rw [List.sum_nil, List.take_zero]
  | cons count sizes ih =>
      have hFirst := hAnswers 0 (Nat.zero_lt_succ _)
      rw [List.take_zero, List.sum_nil, Nat.add_zero,
        List.getD_cons_zero] at hFirst
      have hStays := hFirst.stays w hState
      have hPage := hFirst.page w hState
      unfold readPages
      generalize read first count w = r at hStays hPage
      obtain ⟨answer, w'⟩ := r
      rcases hPage with hNone | hSome
      · dsimp only at hNone
        subst hNone
        exact .inl rfl
      · dsimp only at hSome hStays
        subst hSome
        have hRest := ih (first + count) w' hStays (by
          intro k hk
          have hNext := hAnswers (k + 1)
            (Nat.succ_lt_succ hk)
          rw [List.take_succ_cons, List.sum_cons,
            ← Nat.add_assoc, List.getD_cons_succ] at hNext
          exact hNext)
        dsimp only
        rcases hRest with hNone | hSome
        · rw [hNone]
          exact .inl rfl
        · rw [hSome, Option.map_some, page_append_page,
            List.sum_cons]
          exact .inr rfl

/-
  A page read through single elements: until one fails, the
  end is reached, or the page is full.
-/
def readLoop
    (one : Nat → W → Option (List α) × W) :
    (left first : Nat) → W → Option (List α) × W
  | 0, _, w => (some [], w)
  | left + 1, first, w =>
      match one first w with
      | (none, w) => (none, w)
      | (some [], w) => (some [], w)
      | (some (x :: _), w) =>
          let r := readLoop one left (first + 1) w
          (r.1.map (x :: ·), r.2)

theorem readLoop_answers
    {one : Nat → W → Option (List α) × W}
    {state : W → Prop}
    {full : List α}
    (left first : Nat)
    (hOne : ∀ i, first ≤ i → i < first + left →
      Answers (fun i _ => one i) state full i 1) :
    Answers (fun first left => readLoop one left first)
      state full first left := by
  have hRun : ∀ w, state w →
      state (readLoop one left first w).2 ∧
        ((readLoop one left first w).1 = none ∨
          (readLoop one left first w).1 =
            some (page full first left)) := by
    induction left generalizing first with
    | zero =>
        intro w hState
        refine ⟨hState, .inr ?_⟩
        unfold readLoop page
        rw [List.take_zero]
    | succ left ih =>
        intro w hState
        have hFirst := hOne first (Nat.le_refl _) (by omega)
        have hStays := hFirst.stays w hState
        have hPage := hFirst.page w hState
        have hRest := ih (first + 1)
          (fun i hLow hHigh => hOne i (by omega) (by omega))
        have hSplit : page full first (left + 1) =
            page full first 1 ++
              page full (first + 1) left := by
          rw [page_append_page, Nat.add_comm]
        unfold readLoop
        generalize one first w = r at hStays hPage
        obtain ⟨answer, w'⟩ := r
        rcases hPage with hNone | hSome
        · dsimp only at hNone
          subst hNone
          exact ⟨hStays, .inl rfl⟩
        · dsimp only at hSome hStays
          subst hSome
          cases hx : full[first]? with
          | none =>
              have hEnd : full.length ≤ first :=
                List.getElem?_eq_none_iff.mp hx
              rw [page_of_end hEnd, page_of_end hEnd]
              exact ⟨hStays, .inr rfl⟩
          | some x =>
              rw [hSplit, page_one hx]
              have ⟨hKept, hLater⟩ := hRest w' hStays
              refine ⟨hKept, ?_⟩
              rcases hLater with hNone | hSome
              · refine .inl ?_
                dsimp only
                rw [hNone]
                rfl
              · refine .inr ?_
                dsimp only
                rw [hSome]
                rfl
  exact ⟨fun w hState => (hRun w hState).1,
    fun w hState => (hRun w hState).2⟩

end KvantOS.Pages
