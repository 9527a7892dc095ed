import KvantOS.PageTables.Pages

/-
  This file proves what the calls for ranges do: on success
  every page of the range is mapped to itself, on failure
  some of them are, and no other page changes.

  Key definitions include:
    * `Covers`, `direct`

  Key theorems include:
    * `mapFrom_spec`, `uncacheFrom_spec`
    * `pagingMapRange_spec`, `pagingMapMmio_spec`
-/

namespace KvantOS.PageTables

open Paging

--
-- Pages of a Range
--

/- The page of an address shares bytes with a range. -/
def Covers (base size va : Nat) : Prop :=
  va / 4096 * 4096 < base + size ∧
    base < va / 4096 * 4096 + 4096 ∧ 0 < size

instance (base size va : Nat) :
    Decidable (Covers base size va) :=
  inferInstanceAs (Decidable (_ ∧ _ ∧ _))

/- The address translates to itself. -/
def direct
    (rw uncached : Bool)
    (va : Nat) : Page where
  phys := va
  writable := rw
  uncached := uncached

/- What is below 2^32 of a range is whole pages. -/
theorem rangeStart_eq
    {base : Nat}
    (hBase : base < 2 ^ 32) :
    rangeStart base = base / 4096 * 4096 :=
  Word.and_high (w := 32) (k := 12) hBase (by decide)

theorem rangeEnd_eq (base size : Nat) :
    rangeEnd base size =
      (base + size + 0xFFF) % 2 ^ 32 / 4096 * 4096 :=
  Word.and_high (w := 32) (k := 12)
    (Nat.mod_lt _ (by decide)) (by decide)

section Bounds

variable {base size va : Nat}

/- A range whose end does not wrap is that of the loop. -/
theorem covers_iff
    (hFits : base + size + 0xFFF < 2 ^ 32)
    (hSize : 0 < size ∨ 4096 ∣ base) :
    Covers base size va ↔
      rangeStart base ≤ va ∧ va < rangeEnd base size := by
  rw [rangeStart_eq (by omega), rangeEnd_eq,
    Nat.mod_eq_of_lt hFits]
  unfold Covers
  omega

/- A range up to 2^32 whose end wraps has no loop. -/
theorem rangeEnd_wraps
    (hTop : base + size ≤ 2 ^ 32)
    (hWraps : 2 ^ 32 ≤ base + size + 0xFFF) :
    rangeEnd base size = 0 := by
  rw [rangeEnd_eq]
  omega

end Bounds

--
-- The Loops
--

section Loops

variable {wide : Bool} {img : Image} {s : PagingState}
variable {owner : Nat → Option (Nat × Nat)}

theorem mapped_self
    {a va : Nat}
    (rw : Bool)
    (hPage : va / 4096 = a / 4096) :
    mapped a rw va = direct rw false va := by
  unfold mapped direct
  rw [← hPage]
  simp only [Page.mk.injEq, and_true]
  omega

/- The pages from `a` on are mapped up to the first failure. -/
theorem mapFrom_spec
    {start stop : Nat}
    (rw : Bool)
    {fuel a : Nat}
    (hStop : stop ≤ 2 ^ 32 - 4096 ∧ 4096 ∣ stop)
    (hStart : start ≤ a ∧ 4096 ∣ a ∧ a < 2 ^ 32)
    (hFuel : stop < a + 4096 * fuel)
    (hSound : Sound wide img s owner) :
    ∃ owner',
      Sound wide img
          (mapFrom wide img start stop rw fuel a s).2 owner' ∧
        (((mapFrom wide img start stop rw fuel a s).1 = 0 ∧
          ∀ va, va < spaceBytes wide →
            look wide img
                (mapFrom wide img start stop rw fuel a s).2 va =
              if a ≤ va ∧ va < stop then
                some (direct rw false va)
              else look wide img s va) ∨
        ((mapFrom wide img start stop rw fuel a s).1 = -1 ∧
          ∀ va, va < spaceBytes wide →
            look wide img
                (mapFrom wide img start stop rw fuel a s).2 va =
              look wide img s va ∨
            (a ≤ va ∧ va < stop) ∧
              look wide img
                (mapFrom wide img start stop rw fuel a s).2
                va = some (direct rw false va))) := by
  induction fuel generalizing a s owner with
  | zero =>
      refine ⟨owner, hSound, Or.inl ⟨rfl, ?_⟩⟩
      intro va _
      rw [if_neg (by omega)]
      rfl
  | succ fuel ih =>
      unfold mapFrom
      by_cases hMore : a < stop
      · rw [if_pos ⟨hMore, hStart.1⟩]
        obtain ⟨owner₁, hSound₁, hCase⟩ :=
          pagingMap_spec rw hSound hStart.2.2 hStart.2.2
        dsimp only
        generalize pagingMap wide img a a rw s = r
          at hSound₁ hCase ⊢
        rcases hCase with ⟨hOk, hLook⟩ | ⟨hFail, hLook⟩
        · rw [if_neg (by rw [hOk]; decide),
            Nat.mod_eq_of_lt (by omega)]
          obtain ⟨owner₂, hSound₂, hRest⟩ :=
            ih (a := a + 0x1000) (by omega) (by omega) hSound₁
          refine ⟨owner₂, hSound₂, ?_⟩
          rcases hRest with ⟨hDone, hAll⟩ | ⟨hStopped, hSome⟩
          · refine Or.inl ⟨hDone, ?_⟩
            intro va hSpace
            rw [hAll va hSpace, hLook va hSpace]
            by_cases hPage : va / 4096 = a / 4096
            · rw [if_neg (by omega), if_pos hPage,
                if_pos (by omega), mapped_self rw hPage]
            · rw [if_neg hPage]
              by_cases hIn : a + 0x1000 ≤ va ∧ va < stop
              · rw [if_pos hIn, if_pos (by omega)]
              · rw [if_neg hIn, if_neg (by omega)]
          · refine Or.inr ⟨hStopped, ?_⟩
            intro va hSpace
            rcases hSome va hSpace with hOld | ⟨hIn, hNew⟩
            · rw [hOld, hLook va hSpace]
              by_cases hPage : va / 4096 = a / 4096
              · rw [if_pos hPage, mapped_self rw hPage]
                exact Or.inr ⟨by omega, rfl⟩
              · rw [if_neg hPage]
                exact Or.inl rfl
            · exact Or.inr ⟨by omega, hNew⟩
        · rw [if_pos (by rw [hFail]; decide)]
          exact ⟨owner₁, hSound₁, Or.inr ⟨rfl, fun va hSpace =>
            Or.inl (hLook va hSpace)⟩⟩
      · rw [if_neg (by omega)]
        refine ⟨owner, hSound, Or.inl ⟨rfl, ?_⟩⟩
        intro va _
        rw [if_neg (by omega)]

/- The pages from `a` on are kept out of the caches. -/
theorem uncacheFrom_spec
    {stop fuel a : Nat}
    (hStop : stop ≤ 2 ^ 32 - 4096 ∧ 4096 ∣ stop)
    (hStart : 4096 ∣ a ∧ a < 2 ^ 32)
    (hFuel : stop < a + 4096 * fuel)
    (hSound : Sound wide img s owner)
    (hLook : ∀ va, va < spaceBytes wide →
      a ≤ va → va < stop →
      look wide img s va = some (direct true false va)) :
    ∃ owner',
      Sound wide img
          (uncacheFrom wide img stop fuel a s).2 owner' ∧
        (((uncacheFrom wide img stop fuel a s).1 = 0 ∧
          ∀ va, va < spaceBytes wide →
            look wide img
                (uncacheFrom wide img stop fuel a s).2 va =
              if a ≤ va ∧ va < stop then
                some (direct true true va)
              else look wide img s va) ∨
        ((uncacheFrom wide img stop fuel a s).1 = -1 ∧
          ∀ va, va < spaceBytes wide →
            look wide img
                (uncacheFrom wide img stop fuel a s).2 va =
              look wide img s va ∨
            (a ≤ va ∧ va < stop) ∧
              look wide img
                (uncacheFrom wide img stop fuel a s).2 va =
                  some (direct true true va))) := by
  induction fuel generalizing a s owner with
  | zero =>
      refine ⟨owner, hSound, Or.inl ⟨rfl, ?_⟩⟩
      intro va _
      rw [if_neg (by omega)]
      rfl
  | succ fuel ih =>
      unfold uncacheFrom
      by_cases hMore : a < stop
      · rw [if_pos hMore]
        have hSpaceA : a < spaceBytes wide := by
          cases wide with
          | true => exact Nat.lt_trans hStart.2 (by decide)
          | false => exact hStart.2
        obtain ⟨owner₁, hSound₁, hCase⟩ := uncachePage_spec
          hSound hStart.2
          (hLook a hSpaceA (Nat.le_refl a) hMore)
        dsimp only
        generalize uncachePage wide img a s = r
          at hSound₁ hCase ⊢
        rcases hCase with ⟨hOk, hSet⟩ | ⟨hFail, hSame⟩
        · rw [if_neg (by rw [hOk]; decide),
            Nat.mod_eq_of_lt (by omega)]
          obtain ⟨owner₂, hSound₂, hRest⟩ :=
            ih (a := a + 4096) (by omega) (by omega) hSound₁ (by
              intro va hSpace hFrom hTo
              rw [hSet va hSpace, if_neg (by omega)]
              exact hLook va hSpace (by omega) hTo)
          -- The page of this round, and every other one.
          have hHere : ∀ va, va < spaceBytes wide →
              va / 4096 = a / 4096 →
              look wide img r.2 va =
                some (direct true true va) := by
            intro va hSpace hPage
            rw [hSet va hSpace, if_pos hPage,
              hLook va hSpace (by omega) (by omega)]
            rfl
          refine ⟨owner₂, hSound₂, ?_⟩
          rcases hRest with ⟨hDone, hAll⟩ | ⟨hStopped, hSome⟩
          · refine Or.inl ⟨hDone, ?_⟩
            intro va hSpace
            rw [hAll va hSpace]
            by_cases hPage : va / 4096 = a / 4096
            · rw [if_neg (by omega), if_pos (by omega),
                hHere va hSpace hPage]
            · rw [hSet va hSpace, if_neg hPage]
              by_cases hIn : a + 4096 ≤ va ∧ va < stop
              · rw [if_pos hIn, if_pos (by omega)]
              · rw [if_neg hIn, if_neg (by omega)]
          · refine Or.inr ⟨hStopped, ?_⟩
            intro va hSpace
            rcases hSome va hSpace with hOld | ⟨hIn, hNew⟩
            · rw [hOld]
              by_cases hPage : va / 4096 = a / 4096
              · exact Or.inr
                  ⟨by omega, hHere va hSpace hPage⟩
              · rw [hSet va hSpace, if_neg hPage]
                exact Or.inl rfl
            · exact Or.inr ⟨by omega, hNew⟩
        · rw [if_pos (by rw [hFail]; decide)]
          exact ⟨owner₁, hSound₁, Or.inr ⟨rfl, fun va hSpace =>
            Or.inl (hSame va hSpace)⟩⟩
      · rw [if_neg (by omega)]
        refine ⟨owner, hSound, Or.inl ⟨rfl, ?_⟩⟩
        intro va _
        rw [if_neg (by omega)]

end Loops

--
-- Calls for a Range
--

section Calls

variable {wide : Bool} {img : Image} {s : PagingState}
variable {owner : Nat → Option (Nat × Nat)} {base size : Nat}

/- The loop of the call, whatever its end is. -/
theorem pagingMapRange_loop
    (rw : Bool)
    (hBase : base < 2 ^ 32)
    (hSound : Sound wide img s owner) :
    ∃ owner',
      Sound wide img (pagingMapRange wide img base size rw s).2
          owner' ∧
        (((pagingMapRange wide img base size rw s).1 = 0 ∧
          ∀ va, va < spaceBytes wide →
            look wide img
                (pagingMapRange wide img base size rw s).2 va =
              if rangeStart base ≤ va ∧
                  va < rangeEnd base size then
                some (direct rw false va)
              else look wide img s va) ∨
        ((pagingMapRange wide img base size rw s).1 = -1 ∧
          ∀ va, va < spaceBytes wide →
            look wide img
                (pagingMapRange wide img base size rw s).2 va =
              look wide img s va ∨
            (rangeStart base ≤ va ∧ va < rangeEnd base size) ∧
              look wide img
                (pagingMapRange wide img base size rw s).2
                va = some (direct rw false va))) := by
  have hStart := rangeStart_eq hBase
  have hEnd := rangeEnd_eq base size
  have hRounds : pageRounds = 1048576 := rfl
  exact mapFrom_spec rw (by omega) (by omega) (by omega) hSound

/- The call on a range whose end does not wrap. -/
theorem pagingMapRange_spec
    (rw : Bool)
    (hFits : base + size + 0xFFF < 2 ^ 32)
    (hSize : 0 < size ∨ 4096 ∣ base)
    (hSound : Sound wide img s owner) :
    ∃ owner',
      Sound wide img (pagingMapRange wide img base size rw s).2
          owner' ∧
        (((pagingMapRange wide img base size rw s).1 = 0 ∧
          ∀ va, va < spaceBytes wide →
            look wide img
                (pagingMapRange wide img base size rw s).2 va =
              if Covers base size va then
                some (direct rw false va)
              else look wide img s va) ∨
        ((pagingMapRange wide img base size rw s).1 = -1 ∧
          ∀ va, va < spaceBytes wide →
            look wide img
                (pagingMapRange wide img base size rw s).2 va =
              look wide img s va ∨
            Covers base size va ∧
              look wide img
                (pagingMapRange wide img base size rw s).2
                va = some (direct rw false va))) := by
  simp only [covers_iff hFits hSize]
  exact pagingMapRange_loop rw (by omega) hSound

/-
  The call for device registers.  Its first test keeps the
  end of the range from wrapping.
-/
theorem pagingMapMmio_spec
    (hSound : Sound wide img s owner) :
    ∃ owner',
      Sound wide img (pagingMapMmio wide img base size s).2
          owner' ∧
        (((pagingMapMmio wide img base size s).1 = 0 ∧
          ∀ va, va < spaceBytes wide →
            look wide img
                (pagingMapMmio wide img base size s).2 va =
              if Covers base size va then
                some (direct true true va)
              else look wide img s va) ∨
        ((pagingMapMmio wide img base size s).1 = -1 ∧
          ∀ va, va < spaceBytes wide →
            look wide img
                (pagingMapMmio wide img base size s).2 va =
              look wide img s va ∨
            Covers base size va ∧ ∃ uncached,
              look wide img
                (pagingMapMmio wide img base size s).2 va =
                  some (direct true uncached va))) := by
  unfold pagingMapMmio
  by_cases hGuard : size = 0 ∨ 0xFFFFF000 ≤ base ∨
      0xFFFFF000 - base < size
  · rw [if_pos hGuard]
    exact ⟨owner, hSound,
      Or.inr ⟨rfl, fun _ _ => Or.inl rfl⟩⟩
  · rw [if_neg hGuard]
    have hFits : base + size + 0xFFF < 2 ^ 32 := by omega
    have hSize : 0 < size ∨ 4096 ∣ base := by omega
    have hCovers : ∀ va, Covers base size va ↔
        rangeStart base ≤ va ∧ va < rangeEnd base size :=
      fun va => covers_iff hFits hSize
    obtain ⟨owner₁, hSound₁, hCase⟩ :=
      pagingMapRange_spec true hFits hSize hSound
    dsimp only
    generalize pagingMapRange wide img base size true s = r
      at hSound₁ hCase ⊢
    rcases hCase with ⟨hOk, hLook⟩ | ⟨hFail, hLook⟩
    · rw [if_neg (by rw [hOk]; decide)]
      have hBase : base < 2 ^ 32 := by omega
      have hStart := rangeStart_eq hBase
      have hEnd := rangeEnd_eq base size
      have hRounds : pageRounds = 1048576 := rfl
      obtain ⟨owner₂, hSound₂, hRest⟩ := @uncacheFrom_spec
        wide img r.2 owner₁ (rangeEnd base size) pageRounds
        (rangeStart base) (by omega) (by omega) (by omega)
        hSound₁
        (by
          intro va hSpace hFrom hTo
          rw [hLook va hSpace,
            if_pos ((hCovers va).mpr ⟨hFrom, hTo⟩)])
      refine ⟨owner₂, hSound₂, ?_⟩
      rcases hRest with ⟨hDone, hAll⟩ | ⟨hStopped, hSome⟩
      · refine Or.inl ⟨hDone, ?_⟩
        intro va hSpace
        rw [hAll va hSpace, hLook va hSpace]
        by_cases hIn : Covers base size va
        · rw [if_pos ((hCovers va).mp hIn), if_pos hIn]
        · rw [if_neg (fun hLoop => hIn ((hCovers va).mpr hLoop)),
            if_neg hIn, if_neg hIn]
      · refine Or.inr ⟨hStopped, ?_⟩
        intro va hSpace
        rcases hSome va hSpace with hOld | ⟨hIn, hNew⟩
        · rw [hOld, hLook va hSpace]
          by_cases hIn : Covers base size va
          · rw [if_pos hIn]
            exact Or.inr ⟨hIn, false, rfl⟩
          · rw [if_neg hIn]
            exact Or.inl rfl
        · exact Or.inr ⟨(hCovers va).mpr hIn, true, hNew⟩
    · rw [if_pos (by rw [hFail]; decide)]
      refine ⟨owner₁, hSound₁, Or.inr ⟨rfl, ?_⟩⟩
      intro va hSpace
      rcases hLook va hSpace with hOld | ⟨hIn, hNew⟩
      · exact Or.inl hOld
      · exact Or.inr ⟨hIn, false, hNew⟩

end Calls

end KvantOS.PageTables
