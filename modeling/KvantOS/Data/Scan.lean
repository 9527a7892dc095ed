import Mathlib.Order.Bounds.Basic

/-
  This file studies loops that look at one place after the
  other, upwards or downwards, until one is found, and keeps
  what each look reads.

  Key definitions include:
    * `Look`
    * `findUp`, `findDown`, `retry`
    * `FoundUp`, `FoundDown`, `Leftmost`

  Key theorems include:
    * `findUp_spec`, `findDown_spec`
    * `findUp_reads`, `findDown_reads`
    * `retry_up`, `retry_down`
-/

namespace Scan

/- What a look at a place finds, and what it reads. -/
abbrev Look :=
  Nat → Bool × List Nat

/- Look at `left` places upwards, from `i` on. -/
def findUp
    (look : Look) :
    (left i : Nat) → Option Nat × List Nat
  | 0, _ => (none, [])
  | left + 1, i =>
      if (look i).1 then
        (some i, (look i).2)
      else
        let rest := findUp look left (i + 1)
        (rest.1, (look i).2 ++ rest.2)

/- Look at `left` places downwards, from below `i` on. -/
def findDown
    (look : Look) :
    (left i : Nat) → Option Nat × List Nat
  | 0, _ => (none, [])
  | left + 1, i =>
      if (look (i - 1)).1 then
        (some (i - 1), (look (i - 1)).2)
      else
        let rest := findDown look left (i - 1)
        (rest.1, (look (i - 1)).2 ++ rest.2)

/- Look elsewhere when nothing was found and it is wanted. -/
def retry
    (wanted : Bool)
    (here again : Option Nat × List Nat) :
    Option Nat × List Nat :=
  if here.1.isSome || !wanted then here
  else (again.1, here.2 ++ again.2)

variable {look : Look} {left i : Nat}

/- The first place that is found, or none. -/
theorem findUp_spec
    (look : Look)
    (left i : Nat) :
    match (findUp look left i).1 with
    | some k =>
        IsLeast {j | i ≤ j ∧ j < i + left ∧
          (look j).1 = true} k
    | none => ∀ j, i ≤ j → j < i + left →
        (look j).1 = false := by
  induction left generalizing i with
  | zero =>
      intro j hFrom hTo
      omega
  | succ left ih =>
      rw [findUp]
      by_cases hFound : (look i).1 = true
      · rw [if_pos hFound]
        exact ⟨⟨Nat.le_refl i, by omega, hFound⟩,
          fun j hj => hj.1⟩
      · rw [if_neg hFound]
        rw [Bool.not_eq_true] at hFound
        have hRest := ih (i + 1)
        dsimp only
        cases hLater : (findUp look left (i + 1)).1 with
        | none =>
            rw [hLater] at hRest
            intro j hFrom hTo
            rcases Nat.eq_or_lt_of_le hFrom with rfl | hMore
            · exact hFound
            · exact hRest j hMore (by omega)
        | some k =>
            rw [hLater] at hRest
            obtain ⟨⟨hFrom, hTo, hLook⟩, hLeast⟩ := hRest
            refine ⟨⟨by omega, by omega, hLook⟩, ?_⟩
            rintro j ⟨hFrom', hTo', hLook'⟩
            rcases Nat.eq_or_lt_of_le hFrom' with rfl | hMore
            · rw [hFound] at hLook'
              cases hLook'
            · exact hLeast ⟨hMore, by omega, hLook'⟩

/- The last place that is found, or none. -/
theorem findDown_spec
    (look : Look)
    {left i : Nat}
    (hLeft : left ≤ i) :
    match (findDown look left i).1 with
    | some k =>
        IsGreatest {j | i - left ≤ j ∧ j < i ∧
          (look j).1 = true} k
    | none => ∀ j, i - left ≤ j → j < i →
        (look j).1 = false := by
  induction left generalizing i with
  | zero =>
      intro j hFrom hTo
      omega
  | succ left ih =>
      rw [findDown]
      by_cases hFound : (look (i - 1)).1 = true
      · rw [if_pos hFound]
        refine ⟨⟨by omega, by omega, hFound⟩, ?_⟩
        rintro j ⟨_, hTo, _⟩
        omega
      · rw [if_neg hFound]
        rw [Bool.not_eq_true] at hFound
        have hRest := @ih (i - 1) (by omega)
        dsimp only
        cases hLater : (findDown look left (i - 1)).1 with
        | none =>
            rw [hLater] at hRest
            intro j hFrom hTo
            by_cases hHere : j = i - 1
            · rw [hHere]
              exact hFound
            · exact hRest j (by omega) (by omega)
        | some k =>
            rw [hLater] at hRest
            obtain ⟨⟨hFrom, hTo, hLook⟩, hGreatest⟩ := hRest
            refine ⟨⟨by omega, by omega, hLook⟩, ?_⟩
            rintro j ⟨hFrom', hTo', hLook'⟩
            by_cases hHere : j = i - 1
            · rw [hHere, hFound] at hLook'
              cases hLook'
            · exact hGreatest
                ⟨by omega, by omega, hLook'⟩

/- Only what the looks read is read. -/
theorem findUp_reads
    {p : Nat → Prop}
    (hLook : ∀ j, ∀ x ∈ (look j).2, p x) :
    ∀ x ∈ (findUp look left i).2, p x := by
  induction left generalizing i with
  | zero => exact nofun
  | succ left ih =>
      rw [findUp]
      split
      · exact hLook i
      · intro x hMem
        rcases List.mem_append.mp hMem with hHere | hLater
        · exact hLook i x hHere
        · exact ih x hLater

theorem findDown_reads
    {p : Nat → Prop}
    (hLook : ∀ j, ∀ x ∈ (look j).2, p x) :
    ∀ x ∈ (findDown look left i).2, p x := by
  induction left generalizing i with
  | zero => exact nofun
  | succ left ih =>
      rw [findDown]
      split
      · exact hLook (i - 1)
      · intro x hMem
        rcases List.mem_append.mp hMem with hHere | hLater
        · exact hLook (i - 1) x hHere
        · exact ih x hLater

theorem retry_reads
    {p : Nat → Prop}
    {wanted : Bool}
    {here again : Option Nat × List Nat}
    (hHere : ∀ x ∈ here.2, p x)
    (hAgain : ∀ x ∈ again.2, p x) :
    ∀ x ∈ (retry wanted here again).2, p x := by
  unfold retry
  split
  · exact hHere
  · intro x hMem
    exact (List.mem_append.mp hMem).elim (hHere x) (hAgain x)

/- The first place from a start on, or else of all. -/
structure FoundUp
    (p : Nat → Prop)
    (start : Nat)
    (wrap : Bool)
    (r : Option Nat) : Prop where
  found : ∀ i, r = some i →
    IsLeast {j | p j ∧ start ≤ j} i ∨
      (wrap = true ∧ (∀ j, p j → j < start) ∧
        IsLeast {j | p j} i)
  none : r = none ↔
    (∀ j, p j → j < start) ∧ (wrap = true → ∀ j, ¬p j)

/- The last place up to a start, or else of all. -/
structure FoundDown
    (p : Nat → Prop)
    (start : Nat)
    (wrap : Bool)
    (r : Option Nat) : Prop where
  found : ∀ i, r = some i →
    IsGreatest {j | p j ∧ j ≤ start} i ∨
      (wrap = true ∧ (∀ j, p j → start < j) ∧
        IsGreatest {j | p j} i)
  none : r = none ↔
    (∀ j, p j → start < j) ∧ (wrap = true → ∀ j, ¬p j)

/-
  The first place from `i` on, the first one `n` behind it
  and so on, as long as there is one.
-/
inductive Leftmost
    (p : Nat → Prop)
    (n : Nat) :
    Nat → List Nat → Prop where
  | done
      {i : Nat}
      (hNone : ∀ j, i ≤ j → ¬p j) :
      Leftmost p n i []
  | next
      {i j : Nat}
      {rest : List Nat}
      (hLeast : IsLeast {k | p k ∧ i ≤ k} j)
      (hRest : Leftmost p n (j + n) rest) :
      Leftmost p n i (j :: rest)

variable {n : Nat} {places : List Nat}

/- A place that is not found is passed over. -/
theorem Leftmost.skip
    {p : Nat → Prop}
    (hNot : ¬p i)
    (hLater : Leftmost p n (i + 1) places) :
    Leftmost p n i places := by
  have hAfter {j : Nat} (hj : p j) (hFrom : i ≤ j) :
      i + 1 ≤ j := by
    rcases Nat.eq_or_lt_of_le hFrom with rfl | hMore
    · exact absurd hj hNot
    · exact hMore
  cases hLater with
  | done hNone =>
      exact .done fun j hFrom hj =>
        hNone j (hAfter hj hFrom) hj
  | next hLeast hRest =>
      refine .next ⟨⟨hLeast.1.1, ?_⟩, ?_⟩ hRest
      · have hFrom : i + 1 ≤ _ := hLeast.1.2
        omega
      · rintro j ⟨hj, hFrom⟩
        exact hLeast.2 ⟨hj, hAfter hj hFrom⟩

/- A place that is found comes first. -/
theorem Leftmost.here
    {p : Nat → Prop}
    (hFound : p i)
    (hLater : Leftmost p n (i + n) places) :
    Leftmost p n i (i :: places) :=
  .next ⟨⟨hFound, Nat.le_refl i⟩, fun _ hj => hj.2⟩ hLater

/- Where there are places below an end, they are listed. -/
theorem leftmost_exists
    {p : Nat → Prop}
    {n stop : Nat}
    (hSome : 0 < n)
    (hBelow : ∀ j, p j → j < stop)
    (i : Nat) :
    ∃ places, Leftmost p n i places := by
  obtain ⟨left, hLeft⟩ : ∃ left, stop - i ≤ left :=
    ⟨stop - i, Nat.le_refl _⟩
  induction left generalizing i with
  | zero =>
      refine ⟨[], .done fun j hFrom hj => ?_⟩
      have hLess := hBelow j hj
      omega
  | succ left ih =>
      by_cases hFound : p i
      · obtain ⟨places, hRest⟩ := ih (i + n) (by omega)
        exact ⟨i :: places, .here hFound hRest⟩
      · obtain ⟨places, hRest⟩ := ih (i + 1) (by omega)
        exact ⟨places, .skip hFound hRest⟩

/- A place that is found is the first of the list. -/
theorem Leftmost.of_here
    {p : Nat → Prop}
    (hFound : p i)
    (hPlaces : Leftmost p n i places) :
    ∃ rest, places = i :: rest ∧ Leftmost p n (i + n) rest := by
  cases hPlaces with
  | done hNone =>
      exact absurd hFound (hNone i (Nat.le_refl i))
  | next hLeast hRest =>
      have hEq := hLeast.unique
        ⟨⟨hFound, Nat.le_refl i⟩, fun _ hj => hj.2⟩
      subst hEq
      exact ⟨_, rfl, hRest⟩

/- The others are the ones from the next place on. -/
theorem Leftmost.of_skip
    {p : Nat → Prop}
    (hNot : ¬p i)
    (hPlaces : Leftmost p n i places) :
    Leftmost p n (i + 1) places := by
  cases hPlaces with
  | done hNone =>
      exact .done fun j hFrom => hNone j (by omega)
  | next hLeast hRest =>
      refine .next ⟨⟨hLeast.1.1, ?_⟩, ?_⟩ hRest
      · rcases Nat.eq_or_lt_of_le hLeast.1.2 with hEq | hMore
        · exact absurd (hEq ▸ hLeast.1.1) hNot
        · exact hMore
      · rintro j ⟨hj, hFrom⟩
        exact hLeast.2 ⟨hj, Nat.le_of_succ_le hFrom⟩

/- The places come from the start on. -/
theorem Leftmost.from_start
    {p : Nat → Prop}
    (hPlaces : Leftmost p n i places) :
    ∀ j ∈ places, i ≤ j := by
  induction hPlaces with
  | done _ => exact nofun
  | next hLeast _ ih =>
      rw [List.forall_mem_cons]
      have hFrom := hLeast.1.2
      exact ⟨hFrom, fun k hMem =>
        Nat.le_trans hFrom
          (Nat.le_trans (Nat.le_add_right _ _) (ih k hMem))⟩

/- There is only one such list. -/
theorem Leftmost.unique
    {p : Nat → Prop}
    {places places' : List Nat}
    (hPlaces : Leftmost p n i places)
    (hPlaces' : Leftmost p n i places') :
    places = places' := by
  induction hPlaces generalizing places' with
  | done hNone =>
      cases hPlaces' with
      | done _ => rfl
      | next hLeast _ =>
          exact absurd hLeast.1.1 (hNone _ hLeast.1.2)
  | next hLeast _ ih =>
      cases hPlaces' with
      | done hNone =>
          exact absurd hLeast.1.1 (hNone _ hLeast.1.2)
      | next hLeast' hRest' =>
          obtain rfl := hLeast.unique hLeast'
          rw [ih hRest']

section Retry

variable {p : Nat → Prop} {start stop low : Nat} {wrap : Bool}

/- The first of two results that there is. -/
theorem retry_fst
    {here again : Option Nat × List Nat} :
    (retry wrap here again).1 =
      match here.1 with
      | some i => some i
      | none => if wrap then again.1 else none := by
  obtain ⟨result, reads⟩ := here
  cases result with
  | some i => rfl
  | none =>
      cases wrap with
      | true => rfl
      | false => rfl

/-
  Upwards from `low` to below `stop`, and then the places
  before `low`.
-/
theorem retry_up
    (hLook : ∀ j, (look j).1 = true ↔ p j)
    (hBelow : ∀ j, p j → j < stop)
    (hLow : ∀ j, p j → (low ≤ j ↔ start ≤ j)) :
    FoundUp p start wrap
      (retry wrap (findUp look (stop - low) low)
        (findUp look (min low stop) 0)).1 := by
  have hHere := findUp_spec look (stop - low) low
  have hAgain := findUp_spec look (min low stop) 0
  rw [retry_fst]
  cases hFirst : (findUp look (stop - low) low).1 with
  | some k =>
      rw [hFirst] at hHere
      obtain ⟨⟨hFrom, -, hFound⟩, hLeast⟩ := hHere
      rw [hLook] at hFound
      have hStart := (hLow k hFound).mp hFrom
      refine ⟨?_, iff_of_false nofun ?_⟩
      · rintro i hSome
        obtain rfl := Option.some.inj hSome
        refine .inl ⟨⟨hFound, hStart⟩, ?_⟩
        rintro j ⟨hj, hAfter⟩
        have hStop := hBelow j hj
        have hFrom' := (hLow j hj).mpr hAfter
        exact hLeast ⟨hFrom', by omega, (hLook j).mpr hj⟩
      · rintro ⟨hNone, -⟩
        have hLess := hNone k hFound
        omega
  | none =>
      rw [hFirst] at hHere
      have hBefore : ∀ j, p j → j < start ∧ j < low := by
        intro j hj
        have hStop := hBelow j hj
        have hNot : ¬low ≤ j := by
          intro hFrom
          have hFalse := hHere j hFrom (by omega)
          rw [(hLook j).mpr hj] at hFalse
          cases hFalse
        have hNot' := mt (hLow j hj).mpr hNot
        omega
      dsimp only
      cases wrap with
      | false =>
          refine ⟨nofun, iff_of_true rfl ⟨?_, nofun⟩⟩
          exact fun j hj => (hBefore j hj).1
      | true =>
          rw [if_pos rfl]
          cases hSecond : (findUp look (min low stop) 0).1 with
          | some k =>
              rw [hSecond] at hAgain
              obtain ⟨⟨-, -, hFound⟩, hLeast⟩ := hAgain
              rw [hLook] at hFound
              refine ⟨?_, iff_of_false nofun ?_⟩
              · rintro i hSome
                obtain rfl := Option.some.inj hSome
                refine .inr ⟨rfl,
                  fun j hj => (hBefore j hj).1, hFound, ?_⟩
                intro j hj
                have hStop := hBelow j hj
                have hLess := (hBefore j hj).2
                exact hLeast ⟨Nat.zero_le j, by omega,
                  (hLook j).mpr hj⟩
              · rintro ⟨-, hNone⟩
                exact hNone rfl k hFound
          | none =>
              rw [hSecond] at hAgain
              refine ⟨nofun, iff_of_true rfl
                ⟨fun j hj => (hBefore j hj).1, ?_⟩⟩
              intro _ j hj
              have hStop := hBelow j hj
              have hLess := (hBefore j hj).2
              have hFalse := hAgain j (Nat.zero_le j)
                (by omega)
              rw [(hLook j).mpr hj] at hFalse
              cases hFalse

/-
  Downwards from `low`, and then the places between the end
  and `low`.
-/
theorem retry_down
    {last : Nat}
    (hLook : ∀ j, (look j).1 = true ↔ p j)
    (hBelow : ∀ j, p j → j ≤ last)
    (hLast : low ≤ last)
    (hLow : ∀ j, p j → (j ≤ low ↔ j ≤ start)) :
    FoundDown p start wrap
      (retry wrap (findDown look (low + 1) (low + 1))
        (findDown look (last - low) (last + 1))).1 := by
  have hHere := @findDown_spec look (low + 1) (low + 1)
    (Nat.le_refl _)
  have hAgain := @findDown_spec look (last - low) (last + 1)
    (by omega)
  rw [retry_fst]
  cases hFirst :
      (findDown look (low + 1) (low + 1)).1 with
  | some k =>
      rw [hFirst] at hHere
      obtain ⟨⟨-, hTo, hFound⟩, hGreatest⟩ := hHere
      rw [hLook] at hFound
      have hStart := (hLow k hFound).mp (by omega)
      refine ⟨?_, iff_of_false nofun ?_⟩
      · rintro i hSome
        obtain rfl := Option.some.inj hSome
        refine .inl ⟨⟨hFound, hStart⟩, ?_⟩
        rintro j ⟨hj, hBefore⟩
        have hTo' := (hLow j hj).mpr hBefore
        exact hGreatest ⟨by omega, by omega,
          (hLook j).mpr hj⟩
      · rintro ⟨hNone, -⟩
        have hMore := hNone k hFound
        omega
  | none =>
      rw [hFirst] at hHere
      have hAfter : ∀ j, p j → start < j ∧ low < j := by
        intro j hj
        have hNot : ¬j ≤ low := by
          intro hTo
          have hFalse := hHere j (by omega) (by omega)
          rw [(hLook j).mpr hj] at hFalse
          cases hFalse
        have hNot' := mt (hLow j hj).mpr hNot
        omega
      dsimp only
      cases wrap with
      | false =>
          refine ⟨nofun, iff_of_true rfl ⟨?_, nofun⟩⟩
          exact fun j hj => (hAfter j hj).1
      | true =>
          rw [if_pos rfl]
          cases hSecond :
              (findDown look (last - low) (last + 1)).1 with
          | some k =>
              rw [hSecond] at hAgain
              obtain ⟨⟨-, -, hFound⟩, hGreatest⟩ := hAgain
              rw [hLook] at hFound
              refine ⟨?_, iff_of_false nofun ?_⟩
              · rintro i hSome
                obtain rfl := Option.some.inj hSome
                refine .inr ⟨rfl,
                  fun j hj => (hAfter j hj).1, hFound, ?_⟩
                intro j hj
                have hStop := hBelow j hj
                have hMore := (hAfter j hj).2
                exact hGreatest ⟨by omega, by omega,
                  (hLook j).mpr hj⟩
              · rintro ⟨-, hNone⟩
                exact hNone rfl k hFound
          | none =>
              rw [hSecond] at hAgain
              refine ⟨nofun, iff_of_true rfl
                ⟨fun j hj => (hAfter j hj).1, ?_⟩⟩
              intro _ j hj
              have hStop := hBelow j hj
              have hMore := (hAfter j hj).2
              have hFalse := hAgain j (by omega) (by omega)
              rw [(hLook j).mpr hj] at hFalse
              cases hFalse

end Retry

end Scan
