import Mathlib.Logic.Function.Basic

/-
  This file relates a table of slots to the partial map that
  it stores: every slot is empty or binds one key.

  It is generic in the slots, the keys and the values.

  Key definitions include:
    * `SlotMap.Distinct`, `SlotMap.Represents`

  Key theorems include:
    * `SlotMap.Represents.fill`, `SlotMap.Represents.clear`
    * `SlotMap.Represents.rebind`
-/

namespace SlotMap

variable {ι K V : Type}

--
-- Tables and Maps
--

/- No key is bound in two slots. -/
def Distinct (table : ι → Option (K × V)) : Prop :=
  ∀ slot slot' key value value',
    table slot = some (key, value) →
    table slot' = some (key, value') →
    slot = slot'

/- The map binds exactly what some slot binds. -/
def Represents
    (table : ι → Option (K × V))
    (map : K → Option V) : Prop :=
  ∀ key value,
    map key = some value ↔
      ∃ slot, table slot = some (key, value)

namespace Represents

variable {table : ι → Option (K × V)}
variable {map map' : K → Option V}

theorem unique
    (hMap : Represents table map)
    (hMap' : Represents table map') :
    map = map' := by
  funext key
  apply Option.ext
  intro value
  rw [hMap key value, hMap' key value]

/- A key that no slot binds is unbound. -/
theorem none_iff
    (hMap : Represents table map)
    {key : K} :
    map key = none ↔
      ∀ slot value, table slot ≠ some (key, value) := by
  constructor
  · intro hNone slot value hSlot
    have hSome := (hMap key value).mpr ⟨slot, hSlot⟩
    rw [hNone] at hSome
    cases hSome
  · intro hSlots
    cases hValue : map key with
    | none => rfl
    | some value =>
        rcases (hMap key value).mp hValue with ⟨slot, hSlot⟩
        exact absurd hSlot (hSlots slot value)

/- A table that stores a map binds a key once. -/
theorem value_eq
    (hMap : Represents table map)
    {slot : ι} {key : K} {value : V}
    (hSlot : table slot = some (key, value)) :
    map key = some value :=
  (hMap key value).mpr ⟨slot, hSlot⟩

end Represents

/- The empty table stores the empty map. -/
theorem represents_empty
    {table : ι → Option (K × V)}
    (hEmpty : ∀ slot, table slot = none) :
    Represents table (fun _ => none) := by
  intro key value
  constructor
  · intro hNone
    cases hNone
  · rintro ⟨slot, hSlot⟩
    rw [hEmpty slot] at hSlot
    cases hSlot

--
-- Updates
--

section Updates

variable [DecidableEq ι]
variable {table : ι → Option (K × V)} {map : K → Option V}
variable {slot : ι} {key key' : K} {value value' : V}

variable [DecidableEq K]

/- Emptying a slot unbinds its key. -/
theorem Represents.clear
    (hMap : Represents table map)
    (hDistinct : Distinct table)
    (hSlot : table slot = some (key, value)) :
    Represents (Function.update table slot none)
      (Function.update map key none) := by
  intro k v
  by_cases hKey : k = key
  · subst hKey
    rw [Function.update_self]
    constructor
    · intro hNone
      cases hNone
    · rintro ⟨other, hOther⟩
      by_cases hEq : other = slot
      · rw [hEq, Function.update_self] at hOther
        cases hOther
      · rw [Function.update_of_ne hEq] at hOther
        exact absurd
          (hDistinct other slot k v value hOther hSlot) hEq
  · rw [Function.update_of_ne hKey, hMap k v]
    constructor
    · rintro ⟨other, hOther⟩
      refine ⟨other, ?_⟩
      rw [Function.update_of_ne]
      · exact hOther
      · rintro rfl
        rw [hSlot] at hOther
        cases hOther
        exact hKey rfl
    · rintro ⟨other, hOther⟩
      by_cases hEq : other = slot
      · rw [hEq, Function.update_self] at hOther
        cases hOther
      · rw [Function.update_of_ne hEq] at hOther
        exact ⟨other, hOther⟩

/- Filling an empty slot binds its key. -/
theorem Represents.fill
    (hMap : Represents table map)
    (hSlot : table slot = none)
    (hFree : map key = none)
    (value : V) :
    Represents
      (Function.update table slot (some (key, value)))
      (Function.update map key (some value)) := by
  have hUnbound := hMap.none_iff.mp hFree
  intro k v
  by_cases hKey : k = key
  · subst hKey
    rw [Function.update_self]
    constructor
    · intro hSome
      cases hSome
      exact ⟨slot, Function.update_self ..⟩
    · rintro ⟨other, hOther⟩
      by_cases hEq : other = slot
      · rw [hEq, Function.update_self] at hOther
        cases hOther
        rfl
      · rw [Function.update_of_ne hEq] at hOther
        exact absurd hOther (hUnbound other v)
  · rw [Function.update_of_ne hKey, hMap k v]
    constructor
    · rintro ⟨other, hOther⟩
      refine ⟨other, ?_⟩
      rw [Function.update_of_ne]
      · exact hOther
      · rintro rfl
        rw [hSlot] at hOther
        cases hOther
    · rintro ⟨other, hOther⟩
      by_cases hEq : other = slot
      · rw [hEq, Function.update_self] at hOther
        cases hOther
        exact absurd rfl hKey
      · rw [Function.update_of_ne hEq] at hOther
        exact ⟨other, hOther⟩

/-
  Overwriting a slot unbinds its old key and binds its new
  one, in one step.
-/
theorem Represents.rebind
    (hMap : Represents table map)
    (hDistinct : Distinct table)
    (hSlot : table slot = some (key, value))
    (hFree : key' = key ∨ map key' = none)
    (value' : V) :
    Represents
      (Function.update table slot (some (key', value')))
      (Function.update (Function.update map key none)
        key' (some value')) := by
  have hCleared := hMap.clear hDistinct hSlot
  have hEmpty :
      Function.update table slot none slot = none :=
    Function.update_self ..
  have hUnbound :
      Function.update map key none key' = none := by
    by_cases hKey : key' = key
    · rw [hKey, Function.update_self]
    · rw [Function.update_of_ne hKey]
      exact hFree.resolve_left hKey
  have hFilled := hCleared.fill hEmpty hUnbound value'
  rwa [Function.update_idem] at hFilled

end Updates

end SlotMap
