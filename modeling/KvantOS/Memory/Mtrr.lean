import Mathlib.Data.Nat.Bitwise

/-
  This file models kernel/mtrr.c: the pairs of registers that
  make a framebuffer write-combining, which are released and
  armed again for every new mode.

  Key definitions include:
    * `pow2Floor`, `fitSize`
    * `mtrrProgram`, `armLoop`, `mtrrSetWc`
-/

namespace KvantOS.Mtrr

--
-- Registers
--

/- `IA32_MTRR_PHYSBASE` and `IA32_MTRR_PHYSMASK`. -/
structure Pair where
  physBase : Nat
  physMask : Nat

/- The default type, and the pairs by their numbers. -/
structure Msrs where
  defType : Nat
  pair : Nat → Pair

/- Bit 11 of the mask says that the pair is in use. -/
def Msrs.valid (m : Msrs) (i : Nat) : Bool :=
  (m.pair i).physMask.testBit 11

/- What `mtrr_program` writes once it has a slot. -/
def Msrs.program
    (m : Msrs)
    (slot base len : Nat) : Msrs where
  defType := m.defType ||| 1 <<< 11
  pair i :=
    if i = slot then
      ⟨base &&& 0xFFFFF000 ||| 1,
        (0xFFFFFFFF - (len - 1) &&& 0xFFFFF000 ||| 1 <<< 11)
          ||| 0xF <<< 32⟩
    else m.pair i

/- The processor: `cpuid`, and the low word of `MTRRCAP`. -/
structure Cpu where
  hasCpuid : Bool
  features : Nat
  cap : Nat

/- The number of variable registers. -/
def Cpu.vcnt (cpu : Cpu) : Nat :=
  cpu.cap &&& 0xFF

/- The checks of `mtrr_set_wc`. -/
def Cpu.supports (cpu : Cpu) : Bool :=
  cpu.hasCpuid && cpu.features.testBit 12 &&
    cpu.features.testBit 5 && cpu.cap.testBit 10 &&
    cpu.vcnt != 0

/- The registers, with the variables of the file. -/
structure Wc where
  msrs : Msrs
  ok : Bool
  slotUsed : Int
  owned : Nat

def Wc.boot (msrs : Msrs) : Wc :=
  ⟨msrs, false, -1, 0⟩

/- The pairs of the call before. -/
def Wc.releases (s : Wc) (vcnt : Nat) : List Nat :=
  (List.range (min vcnt 32)).filter s.owned.testBit

/- The loop that clears them. -/
def Wc.release (s : Wc) (vcnt : Nat) : Wc :=
  { s with
    msrs.pair := fun i =>
      if i ∈ s.releases vcnt then ⟨0, 0⟩ else s.msrs.pair i
    owned := 0 }

--
-- Sizes
--

/- The loop of `pow2_floor`; out of turns, no value. -/
def pow2Loop
    (v : Nat) : (turns : Nat) → (p : Nat) → Option Nat
  | 0, _ => none
  | turns + 1, p =>
      let q := (p <<< 1) % 2 ^ 32
      if q ≠ 0 ∧ q ≤ v then pow2Loop v turns q else some p

/- `pow2_floor`. -/
def pow2Floor (v : Nat) : Option Nat :=
  pow2Loop v 32 1

/- 1 MiB. -/
def mib : Nat := 0x100000

/- The loop of `fit_size`. -/
def fitLoop
    (base : Nat) : (turns : Nat) → (s : Nat) → Option Nat
  | 0, _ => none
  | turns + 1, s =>
      if mib ≤ s ∧ base &&& (s - 1) ≠ 0 then
        fitLoop base turns (s >>> 1)
      else some s

/- `fit_size`. -/
def fitSize (base size : Nat) : Option Nat :=
  (pow2Floor size).bind (fitLoop base 32)

--
-- Arming
--

/- `mtrr_program`, where no slot is -1. -/
def mtrrProgram
    (vcnt : Nat)
    (slot : Option Nat)
    (m : Msrs)
    (base len : Nat) : Option (Msrs × Nat) :=
  (slot.or ((List.range vcnt).find? fun i => !m.valid i)).map
    fun slot => (m.program slot base len, slot)

/- A block, and the pair that was programmed with it. -/
structure Block where
  slot : Nat
  addr : Nat
  len : Nat
  deriving DecidableEq

/-
  A pair is noted as ours. The processor takes a count of
  bits modulo 32.
-/
def Wc.own (s : Wc) (msrs : Msrs) (slot : Nat) : Wc :=
  { s with
    msrs
    slotUsed := slot
    owned := s.owned ||| 1 <<< (slot % 32) }

/- Where the loop of `mtrr_set_wc` ends, with its blocks. -/
structure Armed where
  state : Wc
  blocks : List Block
  addr : Nat
  left : Nat

def armLoop
    (vcnt : Nat) :
    (turns : Nat) → Wc → (addr left : Nat) → Option Armed
  | 0, _, _, _ => none
  | turns + 1, s, addr, left =>
      if mib ≤ left then
        (fitSize addr left).bind fun len =>
          if len < mib then some ⟨s, [], addr, left⟩
          else
            match mtrrProgram vcnt none s.msrs addr len with
            | none => some ⟨s, [], addr, left⟩
            | some (msrs, slot) =>
                (armLoop vcnt turns (s.own msrs slot)
                    ((addr + len) % 2 ^ 32)
                    ((left + 2 ^ 32 - len) % 2 ^ 32)).map
                  fun a => { a with
                    blocks := ⟨slot, addr, len⟩ :: a.blocks }
      else some ⟨s, [], addr, left⟩

/- A call: its result, what it did, and where it stopped. -/
structure Outcome where
  state : Wc
  result : Nat
  released : List Nat
  blocks : List Block
  stop : Option (Nat × Nat)

/- `mtrr_set_wc`. -/
def mtrrSetWc
    (cpu : Cpu)
    (s : Wc)
    (base size : UInt32) : Option Outcome :=
  if cpu.supports then
    (armLoop cpu.vcnt 4096 (s.release cpu.vcnt) base.toNat
      size.toNat).map fun a =>
      let used := !a.blocks.isEmpty
      ⟨{ a.state with ok := a.state.ok || used },
        if used then 1 else 0, s.releases cpu.vcnt, a.blocks,
        some (a.addr, a.left)⟩
  else some ⟨s, 0, [], [], none⟩

end KvantOS.Mtrr
