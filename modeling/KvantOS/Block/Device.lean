import KvantOS.Program.CrashLogic
import Mathlib.Data.Set.Insert

/-
  This file models a block device with a volatile write
  cache: reads see the latest value of a block, while a crash
  keeps, block by block, either the value of the last barrier
  or any value written since.

  Key definitions include:
    * `Device`, `Device.Crash`, `Device.Issued`
    * `BlockCmd`, `Device.faulty`, `Device.perfect`
-/

--
-- Devices
--

/-
  A device state: what a read returns now, the values that a
  crash may leave in each block, and the writes issued so
  far, latest first.
-/
@[ext]
structure Device (V : Type) where
  cur : Nat → V
  kept : Nat → Set V
  written : List (Nat × V)

namespace Device

variable {V : Type}

/- A device at rest: every block is durable. -/
def ofDisk (disk : Nat → V) : Device V where
  cur := disk
  kept := fun block => {disk block}
  written := []

/- A write that reached the device. -/
def put
    (d : Device V)
    (block : Nat)
    (value : V) : Device V where
  cur := Function.update d.cur block value
  kept := Function.update d.kept block
    (insert value (d.kept block))
  written := (block, value) :: d.written

/-
  A failed write that reads do not see; the value may still
  surface after a crash.
-/
def lose
    (d : Device V)
    (block : Nat)
    (value : V) : Device V where
  cur := d.cur
  kept := Function.update d.kept block
    (insert value (d.kept block))
  written := (block, value) :: d.written

/- A successful barrier. -/
def flush (d : Device V) : Device V where
  cur := d.cur
  kept := fun block => {d.cur block}
  written := d.written

/- The disks that a crash may leave. -/
def Crash
    (d : Device V)
    (disk : Nat → V) : Prop :=
  ∀ block, disk block ∈ d.kept block

/- The current value of a block is among its crash values. -/
def Coherent (d : Device V) : Prop :=
  ∀ block, d.cur block ∈ d.kept block

/- A crash would leave exactly what reads show. -/
def AtRest (d : Device V) : Prop :=
  ∀ block, d.kept block = {d.cur block}

theorem atRest_ofDisk (disk : Nat → V) :
    (ofDisk disk).AtRest :=
  fun _ => rfl

theorem atRest_flush (d : Device V) :
    d.flush.AtRest :=
  fun _ => rfl

theorem AtRest.coherent
    {d : Device V}
    (hRest : d.AtRest) :
    d.Coherent := by
  intro block
  rw [hRest block]
  rfl

theorem AtRest.crash_iff
    {d : Device V}
    (hRest : d.AtRest)
    {disk : Nat → V} :
    d.Crash disk ↔ disk = d.cur := by
  constructor
  · intro hCrash
    funext block
    have hMem := hCrash block
    rw [hRest block] at hMem
    exact hMem
  · rintro rfl
    exact hRest.coherent

@[simp]
theorem ofDisk_cur (disk : Nat → V) :
    (ofDisk disk).cur = disk :=
  rfl

theorem put_cur_same
    (d : Device V)
    (block : Nat)
    (value : V) :
    (d.put block value).cur block = value :=
  Function.update_self ..

theorem put_cur_ne
    {d : Device V}
    {block other : Nat}
    {value : V}
    (hNe : other ≠ block) :
    (d.put block value).cur other = d.cur other :=
  Function.update_of_ne hNe ..

theorem put_kept_same
    (d : Device V)
    (block : Nat)
    (value : V) :
    (d.put block value).kept block =
      insert value (d.kept block) :=
  Function.update_self ..

theorem put_kept_ne
    {d : Device V}
    {block other : Nat}
    {value : V}
    (hNe : other ≠ block) :
    (d.put block value).kept other = d.kept other :=
  Function.update_of_ne hNe ..

@[simp]
theorem lose_cur
    (d : Device V)
    (block : Nat)
    (value : V) :
    (d.lose block value).cur = d.cur :=
  rfl

@[simp]
theorem lose_kept
    (d : Device V)
    (block : Nat)
    (value : V) :
    (d.lose block value).kept =
      (d.put block value).kept :=
  rfl

@[simp]
theorem flush_cur (d : Device V) :
    d.flush.cur = d.cur :=
  rfl

@[simp]
theorem mem_flush_kept
    {d : Device V}
    {block : Nat}
    {value : V} :
    value ∈ d.flush.kept block ↔ value = d.cur block :=
  Iff.rfl

theorem crash_ofDisk
    {disk disk' : Nat → V} :
    (ofDisk disk).Crash disk' ↔ disk' = disk := by
  constructor
  · intro hCrash
    exact funext hCrash
  · rintro rfl block
    rfl

theorem coherent_ofDisk (disk : Nat → V) :
    (ofDisk disk).Coherent :=
  fun _ => rfl

theorem coherent_flush (d : Device V) :
    d.flush.Coherent :=
  fun _ => rfl

theorem Coherent.put
    {d : Device V}
    (hCoherent : d.Coherent)
    (block : Nat)
    (value : V) :
    (d.put block value).Coherent := by
  intro other
  by_cases hEq : other = block
  · subst hEq
    rw [put_cur_same, put_kept_same]
    exact Set.mem_insert ..
  · rw [put_cur_ne hEq, put_kept_ne hEq]
    exact hCoherent other

theorem Coherent.lose
    {d : Device V}
    (hCoherent : d.Coherent)
    (block : Nat)
    (value : V) :
    (d.lose block value).Coherent := by
  intro other
  by_cases hEq : other = block
  · subst hEq
    rw [lose_cur, lose_kept, put_kept_same]
    exact Set.mem_insert_of_mem _ (hCoherent other)
  · rw [lose_cur, lose_kept, put_kept_ne hEq]
    exact hCoherent other

/- A coherent device may crash into what reads show. -/
theorem Coherent.crash_cur
    {d : Device V}
    (hCoherent : d.Coherent) :
    d.Crash d.cur :=
  hCoherent

/-
  A bound on the values a crash may leave in one block is
  kept by a write of a value that meets it.
-/
theorem kept_put_of
    {d : Device V}
    {P : V → Prop}
    {block other : Nat}
    {value : V}
    (hKept : ∀ v ∈ d.kept other, P v)
    (hValue : other = block → P value) :
    ∀ v ∈ (d.put block value).kept other, P v := by
  intro v hv
  by_cases hEq : other = block
  · subst hEq
    rw [put_kept_same] at hv
    rcases hv with rfl | hv
    · exact hValue rfl
    · exact hKept v hv
  · rw [put_kept_ne hEq] at hv
    exact hKept v hv

end Device

--
-- Issued Writes
--

namespace Device

variable {V : Type}

/-
  A write was issued: it reached the device, or it was lost
  as far as reads can tell.
-/
def Issued
    (d : Device V)
    (block : Nat)
    (value : V)
    (d' : Device V) : Prop :=
  d' = d.put block value ∨ d' = d.lose block value

namespace Issued

variable {d d' : Device V} {block : Nat} {value : V}

theorem kept
    (hIssued : Issued d block value d') :
    d'.kept = (d.put block value).kept := by
  rcases hIssued with rfl | rfl <;> rfl

theorem written
    (hIssued : Issued d block value d') :
    d'.written = (block, value) :: d.written := by
  rcases hIssued with rfl | rfl <;> rfl

theorem coherent
    (hIssued : Issued d block value d')
    (hCoherent : d.Coherent) :
    d'.Coherent := by
  rcases hIssued with rfl | rfl
  · exact hCoherent.put block value
  · exact hCoherent.lose block value

/- Other blocks read as before. -/
theorem cur_ne
    (hIssued : Issued d block value d')
    {other : Nat}
    (hNe : other ≠ block) :
    d'.cur other = d.cur other := by
  rcases hIssued with rfl | rfl
  · exact put_cur_ne hNe
  · rfl

/- The block itself reads old or new. -/
theorem cur_same
    (hIssued : Issued d block value d') :
    d'.cur block = value ∨ d'.cur block = d.cur block := by
  rcases hIssued with rfl | rfl
  · exact .inl (put_cur_same ..)
  · exact .inr rfl

end Issued

end Device

--
-- Commands
--

/- The commands of a block device driver. -/
inductive BlockCmd (V : Type) where
  | read (block : Nat)
  | write (block : Nat) (value : V)
  | sync

namespace BlockCmd

variable {V : Type}

/- Reads may fail to deliver; the others report success. -/
@[reducible]
def Reply : BlockCmd V → Type
  | .read _ => Option V
  | .write _ _ => Bool
  | .sync => Bool

/- The command leaves every block alone. -/
def IsRead : BlockCmd V → Prop
  | .read _ => True
  | .write _ _ => False
  | .sync => False

end BlockCmd

/- Programs that drive a block device. -/
abbrev BlockProg (V : Type) :=
  Prog (BlockCmd V) BlockCmd.Reply

namespace BlockProg

variable {V : Type}

def read (block : Nat) : BlockProg V (Option V) :=
  .step (.read block) .ret

def write
    (block : Nat)
    (value : V) : BlockProg V Bool :=
  .step (.write block value) .ret

def sync : BlockProg V Bool :=
  .step .sync .ret

end BlockProg

--
-- Faulty and Perfect Devices
--

namespace Device

variable {V : Type}

/-
  Any command may fail. A failed write leaves its block old
  or new, and a failed barrier makes nothing durable.
-/
def faulty :
    Handler (BlockCmd V) BlockCmd.Reply (Device V)
  | .read block, d, reply, d' =>
      d' = d ∧ (reply = none ∨ reply = some (d.cur block))
  | .write block value, d, reply, d' =>
      (reply = true ∧ d' = d.put block value) ∨
        (reply = false ∧ d.Issued block value d')
  | .sync, d, reply, d' =>
      (reply = true ∧ d' = d.flush) ∨
        (reply = false ∧ d' = d)

/- Every command succeeds. -/
def perfect :
    (command : BlockCmd V) → Device V →
      command.Reply × Device V
  | .read block, d => (some (d.cur block), d)
  | .write block value, d => (true, d.put block value)
  | .sync, d => (true, d.flush)

theorem faulty_perfect
    (command : BlockCmd V)
    (d : Device V) :
    faulty command d (perfect command d).1
      (perfect command d).2 := by
  cases command with
  | read block => exact ⟨rfl, .inr rfl⟩
  | write block value => exact .inl ⟨rfl, rfl⟩
  | sync => exact .inl ⟨rfl, rfl⟩

/- A perfect run is one of the faulty ones. -/
theorem returns_perfect
    {α : Type}
    (program : BlockProg V α)
    (d : Device V) :
    Prog.Returns faulty program d
      (program.run perfect d).1
      (program.run perfect d).2 := by
  refine (Prog.returns_run perfect program d).mono ?_
  intro command d reply d' hAnswer
  have hFaulty := faulty_perfect command d
  rw [hAnswer] at hFaulty
  exact hFaulty

end Device

--
-- Command Rules
--

namespace BlockProg

variable {V α : Type} {crash : Device V → Prop}
variable {post : α → Device V → Prop} {d : Device V}

theorem spec_read
    {block : Nat}
    {next : Option V → BlockProg V α}
    (hCrash : crash d)
    (hFail : (next none).Spec Device.faulty crash post d)
    (hRead : (next (some (d.cur block))).Spec
      Device.faulty crash post d) :
    (read block >>= next).Spec
      Device.faulty crash post d := by
  refine Prog.spec_step.mpr ⟨hCrash, ?_⟩
  rintro reply d' ⟨rfl, rfl | rfl⟩
  · exact hFail
  · exact hRead

theorem spec_write
    {block : Nat}
    {value : V}
    {next : Bool → BlockProg V α}
    (hCrash : crash d)
    (hPut : (next true).Spec Device.faulty crash post
      (d.put block value))
    (hFail : ∀ d', d.Issued block value d' →
      (next false).Spec Device.faulty crash post d') :
    (write block value >>= next).Spec
      Device.faulty crash post d := by
  refine Prog.spec_step.mpr ⟨hCrash, ?_⟩
  rintro reply d' (⟨rfl, rfl⟩ | ⟨rfl, hIssued⟩)
  · exact hPut
  · exact hFail d' hIssued

theorem spec_sync
    {next : Bool → BlockProg V α}
    (hCrash : crash d)
    (hFlush : (next true).Spec Device.faulty crash post
      d.flush)
    (hFail : (next false).Spec Device.faulty crash post d) :
    (sync >>= next).Spec Device.faulty crash post d := by
  refine Prog.spec_step.mpr ⟨hCrash, ?_⟩
  rintro reply d' (⟨rfl, rfl⟩ | ⟨rfl, rfl⟩)
  · exact hFlush
  · exact hFail

section Only

variable {P : BlockCmd V → Prop}

theorem only_read
    {block : Nat}
    {next : Option V → BlockProg V α}
    (hRead : P (.read block))
    (hNext : ∀ reply, (next reply).Only P) :
    (read block >>= next).Only P :=
  ⟨hRead, hNext⟩

theorem only_write
    {block : Nat}
    {value : V}
    {next : Bool → BlockProg V α}
    (hWrite : P (.write block value))
    (hNext : ∀ reply, (next reply).Only P) :
    (write block value >>= next).Only P :=
  ⟨hWrite, hNext⟩

theorem only_sync
    {next : Bool → BlockProg V α}
    (hSync : P .sync)
    (hNext : ∀ reply, (next reply).Only P) :
    (sync >>= next).Only P :=
  ⟨hSync, hNext⟩

end Only

end BlockProg
