import Mathlib.Logic.Function.Basic

/-
  This file is about write-back caches: slots in front of a
  backing store, which together stand for the contents that
  a store without a cache would have.

  It is generic in the slots, the keys and the values.

  Key definitions include:
    * `WriteBack.Slot`, `WriteBack.Mirrors`

  Key theorems include:
    * `WriteBack.Mirrors.clean`, `WriteBack.Mirrors.evict`
    * `WriteBack.Mirrors.load`, `WriteBack.Mirrors.put`
    * `WriteBack.Mirrors.flushed`
-/

namespace WriteBack

/- A slot of a cache; a dirty one is ahead of the store. -/
structure Slot (K V : Type) where
  key : K
  value : V
  valid : Bool
  dirty : Bool

variable {ι K V : Type}

/-
  The slots and the backing store stand for `view`, on the
  keys of a domain.
-/
structure Mirrors
    (domain : K → Prop)
    (slots : ι → Slot K V)
    (backing view : K → V) : Prop where
  valid : ∀ i, (slots i).dirty = true →
    (slots i).valid = true
  inside : ∀ i, (slots i).valid = true →
    domain (slots i).key
  distinct : ∀ i j, (slots i).valid = true →
    (slots j).valid = true →
    (slots i).key = (slots j).key → i = j
  held : ∀ i, (slots i).valid = true →
    (slots i).value = view (slots i).key
  rest : ∀ k, domain k →
    (∀ i, (slots i).dirty = true → (slots i).key ≠ k) →
    backing k = view k

namespace Mirrors

variable {domain : K → Prop} {slots : ι → Slot K V}
variable {backing backing' view : K → V}

/- An empty cache stands for the store itself. -/
theorem empty
    (hValid : ∀ i, (slots i).valid = false)
    (hDirty : ∀ i, (slots i).dirty = false)
    (hSame : ∀ k, domain k → backing k = view k) :
    Mirrors domain slots backing view where
  valid i h := by
    rw [hDirty i] at h
    cases h
  inside i h := by
    rw [hValid i] at h
    cases h
  distinct i j h := by
    rw [hValid i] at h
    cases h
  held i h := by
    rw [hValid i] at h
    cases h
  rest k hk _ := hSame k hk

/- Without a dirty slot the store is what it stands for. -/
theorem flushed
    (hMirrors : Mirrors domain slots backing view)
    (hDirty : ∀ i, (slots i).dirty = false)
    {k : K}
    (hk : domain k) :
    backing k = view k := by
  apply hMirrors.rest k hk
  intro i h
  rw [hDirty i] at h
  cases h

/- Changes of the store and of the view that agree. -/
theorem congr
    {view' : K → V}
    (hMirrors : Mirrors domain slots backing view)
    (hBacking : ∀ k, domain k → backing' k = backing k)
    (hView : ∀ k, domain k → view' k = view k) :
    Mirrors domain slots backing' view' where
  valid := hMirrors.valid
  inside := hMirrors.inside
  distinct := hMirrors.distinct
  held i h := by
    rw [hView _ (hMirrors.inside i h)]
    exact hMirrors.held i h
  rest k hk h := by
    rw [hBacking k hk, hView k hk]
    exact hMirrors.rest k hk h

variable [DecidableEq ι]

/- Writing a slot back makes it clean. -/
theorem clean
    (hMirrors : Mirrors domain slots backing view)
    {i : ι}
    (hDirty : (slots i).dirty = true)
    (hStored : backing' (slots i).key = (slots i).value)
    (hOthers : ∀ k, domain k → k ≠ (slots i).key →
      backing' k = backing k) :
    Mirrors domain
      (Function.update slots i
        { slots i with dirty := false })
      backing' view := by
  have hSelf : Function.update slots i
      { slots i with dirty := false } i =
        { slots i with dirty := false } :=
    Function.update_self ..
  have hKey : ∀ j, (Function.update slots i
      { slots i with dirty := false } j).key =
        (slots j).key := by
    intro j
    by_cases hEq : j = i
    · rw [hEq, hSelf]
    · rw [Function.update_of_ne hEq]
  have hValid : ∀ j, (Function.update slots i
      { slots i with dirty := false } j).valid =
        (slots j).valid := by
    intro j
    by_cases hEq : j = i
    · rw [hEq, hSelf]
    · rw [Function.update_of_ne hEq]
  have hValue : ∀ j, (Function.update slots i
      { slots i with dirty := false } j).value =
        (slots j).value := by
    intro j
    by_cases hEq : j = i
    · rw [hEq, hSelf]
    · rw [Function.update_of_ne hEq]
  refine
    { valid := ?_
      inside := ?_
      distinct := ?_
      held := ?_
      rest := ?_ }
  · intro j h
    rw [hValid]
    by_cases hEq : j = i
    · rw [hEq, hSelf] at h
      cases h
    · rw [Function.update_of_ne hEq] at h
      exact hMirrors.valid j h
  · intro j h
    rw [hValid] at h
    rw [hKey]
    exact hMirrors.inside j h
  · intro j k hj hk hEq
    rw [hValid] at hj hk
    rw [hKey, hKey] at hEq
    exact hMirrors.distinct j k hj hk hEq
  · intro j h
    rw [hValid] at h
    rw [hKey, hValue]
    exact hMirrors.held j h
  · intro k hk hClean
    by_cases hEq : k = (slots i).key
    · rw [hEq, hStored]
      exact hMirrors.held i (hMirrors.valid i hDirty)
    · rw [hOthers k hk hEq]
      apply hMirrors.rest k hk
      intro j h
      by_cases hSame : j = i
      · rw [hSame]
        exact Ne.symm hEq
      · have hNot := hClean j
        rw [Function.update_of_ne hSame] at hNot
        exact hNot h

/- A slot that is clean may be given up. -/
theorem evict
    (hMirrors : Mirrors domain slots backing view)
    {i : ι}
    (hClean : (slots i).dirty = false)
    {slot : Slot K V}
    (hValid : slot.valid = false)
    (hDirty : slot.dirty = false) :
    Mirrors domain (Function.update slots i slot)
      backing view := by
  have hOther : ∀ j,
      (Function.update slots i slot j).valid = true →
      j ≠ i := by
    rintro j h rfl
    rw [Function.update_self, hValid] at h
    cases h
  refine
    { valid := ?_
      inside := ?_
      distinct := ?_
      held := ?_
      rest := ?_ }
  · intro j h
    by_cases hEq : j = i
    · rw [hEq, Function.update_self, hDirty] at h
      cases h
    · rw [Function.update_of_ne hEq] at h ⊢
      exact hMirrors.valid j h
  · intro j h
    have hNe := hOther j h
    rw [Function.update_of_ne hNe] at h ⊢
    exact hMirrors.inside j h
  · intro j k hj hk hEq
    have hj' := hOther j hj
    have hk' := hOther k hk
    rw [Function.update_of_ne hj'] at hj hEq
    rw [Function.update_of_ne hk'] at hk hEq
    exact hMirrors.distinct j k hj hk hEq
  · intro j h
    have hNe := hOther j h
    rw [Function.update_of_ne hNe] at h ⊢
    exact hMirrors.held j h
  · intro k hk h
    apply hMirrors.rest k hk
    intro j hj
    have hNe : j ≠ i := by
      rintro rfl
      rw [hClean] at hj
      cases hj
    have hNot := h j
    rw [Function.update_of_ne hNe] at hNot
    exact hNot hj

/-
  A slot takes a key that no other slot has: with the value
  of the view, or with a new one that becomes the view's.
-/
theorem put
    [DecidableEq K]
    (hMirrors : Mirrors domain slots backing view)
    {i : ι}
    {k : K}
    (hk : domain k)
    (hOwn : (slots i).dirty = true → (slots i).key = k)
    (hNew : ∀ j, (slots j).valid = true →
      (slots j).key = k → j = i)
    (value : V)
    (dirty : Bool)
    (hValue : dirty = false →
      value = view k ∧ (slots i).dirty = false) :
    Mirrors domain
      (Function.update slots i ⟨k, value, true, dirty⟩)
      backing (Function.update view k value) := by
  have hSelf : Function.update slots i
      ⟨k, value, true, dirty⟩ i =
        ⟨k, value, true, dirty⟩ :=
    Function.update_self ..
  have hOther : ∀ {j}, j ≠ i →
      Function.update slots i ⟨k, value, true, dirty⟩ j =
        slots j :=
    fun hNe => Function.update_of_ne hNe ..
  have hKeys : ∀ j, j ≠ i → (slots j).valid = true →
      (slots j).key ≠ k :=
    fun j hNe hValid hKey => hNe (hNew j hValid hKey)
  refine
    { valid := ?_
      inside := ?_
      distinct := ?_
      held := ?_
      rest := ?_ }
  · intro j h
    by_cases hEq : j = i
    · rw [hEq, hSelf]
    · rw [hOther hEq] at h ⊢
      exact hMirrors.valid j h
  · intro j h
    by_cases hEq : j = i
    · rw [hEq, hSelf]
      exact hk
    · rw [hOther hEq] at h ⊢
      exact hMirrors.inside j h
  · intro j l hj hl hEq
    by_cases hji : j = i
    · by_cases hli : l = i
      · rw [hji, hli]
      · rw [hji, hSelf, hOther hli] at hEq
        rw [hOther hli] at hl
        exact absurd hEq.symm (hKeys l hli hl)
    · rw [hOther hji] at hj hEq
      by_cases hli : l = i
      · rw [hli, hSelf] at hEq
        exact absurd hEq (hKeys j hji hj)
      · rw [hOther hli] at hl hEq
        exact hMirrors.distinct j l hj hl hEq
  · intro j h
    by_cases hEq : j = i
    · rw [hEq, hSelf]
      exact (Function.update_self k value view).symm
    · rw [hOther hEq] at h ⊢
      rw [Function.update_of_ne (hKeys j hEq h)]
      exact hMirrors.held j h
  · intro l hl hClean
    by_cases hEq : l = k
    · have hDirty : dirty = false := by
        by_contra hNot
        have hSlot := hClean i
        rw [hSelf] at hSlot
        exact hSlot (by simpa using hNot) hEq.symm
      rcases hValue hDirty with ⟨hView, hOld⟩
      rw [hEq, Function.update_self, hView]
      apply hMirrors.rest k hk
      intro j hj hKey
      have hji := hNew j (hMirrors.valid j hj) hKey
      rw [hji, hOld] at hj
      cases hj
    · rw [Function.update_of_ne hEq]
      apply hMirrors.rest l hl
      intro j hj
      by_cases hji : j = i
      · rw [hji] at hj ⊢
        rw [hOwn hj]
        exact Ne.symm hEq
      · have hNot := hClean j
        rw [hOther hji] at hNot
        exact hNot hj

/- A slot takes a key with what the store has for it. -/
theorem load
    [DecidableEq K]
    (hMirrors : Mirrors domain slots backing view)
    {i : ι}
    {k : K}
    (hk : domain k)
    (hClean : (slots i).dirty = false)
    (hNew : ∀ j, (slots j).valid = true →
      (slots j).key ≠ k) :
    Mirrors domain
      (Function.update slots i ⟨k, backing k, true, false⟩)
      backing view := by
  have hView : backing k = view k := by
    apply hMirrors.rest k hk
    intro j hj
    exact hNew j (hMirrors.valid j hj)
  have hPut := hMirrors.put hk
    (fun h => by rw [hClean] at h; cases h)
    (fun j hj hKey => absurd hKey (hNew j hj))
    (backing k) false (fun _ => ⟨hView, hClean⟩)
  rwa [hView, Function.update_eq_self, ← hView] at hPut

end Mirrors

end WriteBack
