import Mathlib

/-
  This file models how the direct loader copies the E820 map
  for the kernel and tracks its upper memory, register by
  register: the size is looked for in a register that holds
  the type of the entry by then.

  Key definitions include:
    * `copyEntry`, `trackUpper`, `mmapLoop`

  Key theorems include:
    * `trackUpper_copyEntry`, `direct_reports_iff`
-/

namespace KvantOS.Boot

/- An entry of the E820 buffer, in double words. -/
structure E820 where
  baseLow : UInt32
  baseHigh : UInt32
  lengthLow : UInt32
  lengthHigh : UInt32
  type : UInt32
  attributes : UInt32
  deriving DecidableEq

/- A row of the multiboot table, in double words. -/
structure MmapRow where
  size : UInt32
  baseLow : UInt32
  baseHigh : UInt32
  lengthLow : UInt32
  lengthHigh : UInt32
  type : UInt32
  deriving DecidableEq

/- The registers of the loop that its body changes. -/
structure Regs where
  eax : UInt32
  edx : UInt32
  ebp : UInt32
  stack : List UInt32
  deriving DecidableEq

def Regs.push (r : Regs) (v : UInt32) : Regs :=
  { r with stack := v :: r.stack }

def Regs.popEax (r : Regs) : Regs :=
  { r with eax := r.stack.headD 0, stack := r.stack.tail }

/- `.mmap_loop`, up to the row that is written. -/
def copyEntry
    (e : E820)
    (r : Regs) : MmapRow × Regs :=
  let r := ((r.push e.type).push e.lengthHigh).push e.lengthLow
  let r := { r with eax := e.baseLow, edx := e.baseHigh }
  let low := r.popEax
  let high := low.popEax
  let last := high.popEax
  (⟨20, r.eax, r.edx, low.eax, high.eax, last.eax⟩, last)

/- `.mmap_loop`, from the comparison of the type on. -/
def trackUpper
    (e : E820)
    (r : Regs) : Regs :=
  if e.type ≠ 1 then r
  else if r.edx ≠ 0 then r
  else if r.eax < 0x100000 then r
  else
    let eax := (r.eax + e.lengthLow - 0x100000) >>> 10
    if eax < r.ebp then { r with eax }
    else { r with eax, ebp := eax }

def mmapLoop : List E820 → Regs → List MmapRow × Regs
  | [], r => ([], r)
  | e :: es, r =>
      let (row, r) := copyEntry e r
      let (rows, r) := mmapLoop es (trackUpper e r)
      (row :: rows, r)

/- The table, and `mem_upper` with its fallback. -/
def direct
    (map : List E820)
    (r : Regs) : List MmapRow × UInt32 :=
  let (rows, r) := mmapLoop map { r with ebp := 0 }
  (rows, if r.ebp = 0 then 31744 else r.ebp)

def E820.base (e : E820) : Nat :=
  e.baseHigh.toNat * 2 ^ 32 + e.baseLow.toNat

def E820.stop (e : E820) : Nat :=
  e.base + (e.lengthHigh.toNat * 2 ^ 32 + e.lengthLow.toNat)

/- An entry that upper memory is about. -/
def E820.Upper (e : E820) : Prop :=
  e.type = 1 ∧ 0x100000 ≤ e.base ∧ e.base < 2 ^ 32 ∧
    e.stop < 2 ^ 32

/- The highest end, over the entries of upper memory. -/
def Highest
    (map : List E820)
    (top : Nat) : Prop :=
  (∃ e ∈ map, e.Upper ∧ e.stop = top) ∧
    ∀ e ∈ map, e.Upper → e.stop ≤ top

/- The value of `mem_upper` that the map asks for. -/
def Reports
    (map : List E820)
    (kb : UInt32) : Prop :=
  (∀ e ∈ map, ¬ e.Upper) ∧ kb = 31744 ∨
    ∃ top, Highest map top ∧
      kb.toNat = (top - 0x100000) / 1024

def row (e : E820) : MmapRow :=
  ⟨20, e.baseLow, e.baseHigh, e.lengthLow, e.lengthHigh,
    e.type⟩

/- The type is in `eax` when the base is looked for there. -/
theorem trackUpper_copyEntry
    (e : E820)
    (r : Regs) :
    (copyEntry e r).1 = row e ∧
      (trackUpper e (copyEntry e r).2).ebp = r.ebp := by
  refine ⟨rfl, ?_⟩
  unfold trackUpper
  split
  · rfl
  · rename_i hType
    have hEax : (copyEntry e r).2.eax = 1 := not_not.mp hType
    rw [hEax, if_pos (by decide : (1 : UInt32) < 0x100000)]
    split <;> rfl

theorem mmapLoop_eq
    (map : List E820)
    (r : Regs) :
    (mmapLoop map r).1 = map.map row ∧
      (mmapLoop map r).2.ebp = r.ebp := by
  induction map generalizing r with
  | nil => exact ⟨rfl, rfl⟩
  | cons e es ih =>
      obtain ⟨hRow, hEbp⟩ := trackUpper_copyEntry e r
      obtain ⟨hRows, hRest⟩ := ih (trackUpper e (copyEntry e r).2)
      constructor
      · exact congrArg₂ List.cons hRow hRows
      · exact hRest.trans hEbp

/-
  The table is the map, and `mem_upper` is right if and only
  if there is no upper memory, or just as much as the
  fallback says.
-/
theorem direct_reports_iff
    (map : List E820)
    (r : Regs) :
    (direct map r).1 = map.map row ∧
        Reports map (direct map r).2 ↔
      (∀ e ∈ map, ¬ e.Upper) ∨
        ∃ top, Highest map top ∧
          0x2000000 ≤ top ∧ top < 0x2000400 := by
  obtain ⟨hRows, hEbp⟩ := mmapLoop_eq map { r with ebp := 0 }
  have hUpper : (direct map r).2 = 31744 := if_pos hEbp
  rw [hUpper]
  constructor
  · rintro ⟨-, ⟨hNone, -⟩ | ⟨top, hTop, hKb⟩⟩
    · exact .inl hNone
    · have hKb : 31744 = (top - 0x100000) / 1024 := hKb
      exact .inr ⟨top, hTop, by omega, by omega⟩
  · rintro (hNone | ⟨top, hTop, hGe, hLt⟩)
    · exact ⟨hRows, .inl ⟨hNone, rfl⟩⟩
    · refine ⟨hRows, .inr ⟨top, hTop, ?_⟩⟩
      change 31744 = (top - 0x100000) / 1024
      omega

/- With 128 MiB, 31 MiB are reported. -/
theorem direct_halves :
    let map : List E820 := [⟨0, 0, 0x9FC00, 0, 1, 0⟩,
      ⟨0x100000, 0, 0x7F00000, 0, 1, 0⟩]
    (direct map ⟨0, 0, 0, []⟩).2 = 31744 ∧
      ¬ Reports map 31744 := by
  have hHigh : E820.Upper ⟨0x100000, 0, 0x7F00000, 0, 1, 0⟩ :=
    ⟨rfl, by decide, by decide, by decide⟩
  refine ⟨by decide, ?_⟩
  rintro (⟨hNone, -⟩ | ⟨top, ⟨-, hLe⟩, hKb⟩)
  · exact hNone _ (.tail _ (.head _)) hHigh
  · have hTop := hLe _ (.tail _ (.head _)) hHigh
    have hStop : E820.stop ⟨0x100000, 0, 0x7F00000, 0, 1, 0⟩ =
        0x8000000 := by decide
    rw [hStop] at hTop
    have hKb : 31744 = (top - 0x100000) / 1024 := hKb
    omega

end KvantOS.Boot
