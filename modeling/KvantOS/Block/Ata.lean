import KvantOS.Program.CrashLogic
import KvantOS.Block.Bytes

/-
  This file models the ATA boot drive as the file system
  sees it: one sector a command, every write atomic, and
  durable once it reports success.

  Key definitions include:
    * `Ata`, `AtaCmd`
    * `Ata.perfect`, `Ata.answers`, `Ata.faulty`

  Key theorems include:
    * `Ata.answers_perfect`
    * `AtaProg.spec_read`, `AtaProg.spec_write`
-/

--
-- The Drive
--

/-
  The index and the size of the boot drive, its sectors, and
  the sectors whose write was reported as failed, latest
  first.
-/
structure Ata where
  drive : Int
  sectors : UInt32
  disk : Nat → Sector
  failed : List Nat

namespace Ata

/- The driver accepts the index and the sector. -/
def InRange
    (d : Ata)
    (dev : Int)
    (lba : UInt32) : Prop :=
  dev = d.drive ∧ 0 ≤ dev ∧ lba.toNat < d.sectors.toNat

instance
    (d : Ata)
    (dev : Int)
    (lba : UInt32) :
    Decidable (d.InRange dev lba) :=
  inferInstanceAs (Decidable (_ ∧ _ ∧ _))

/- A write that reached the sector. -/
def put
    (d : Ata)
    (lba : UInt32)
    (data : Sector) : Ata :=
  { d with disk := Function.update d.disk lba.toNat data }

/- A write was reported as failed. -/
def fail
    (d : Ata)
    (lba : UInt32) : Ata :=
  { d with failed := lba.toNat :: d.failed }

@[simp]
theorem put_disk
    (d : Ata)
    (lba : UInt32)
    (data : Sector) :
    (d.put lba data).disk =
      Function.update d.disk lba.toNat data :=
  rfl

@[simp]
theorem fail_failed
    (d : Ata)
    (lba : UInt32) :
    (d.fail lba).failed = lba.toNat :: d.failed :=
  rfl

end Ata

--
-- Commands
--

/- The calls into the ATA driver. -/
inductive AtaCmd where
  | bootDrive
  | sectors (dev : Int)
  | read (dev : Int) (lba : UInt32)
  | write (dev : Int) (lba : UInt32) (data : Sector)

@[reducible]
def AtaCmd.Reply : AtaCmd → Type
  | .bootDrive => Int
  | .sectors _ => UInt32
  | .read _ _ => Option Sector
  | .write _ _ _ => Bool

/- Programs that drive the disk. -/
abbrev AtaProg :=
  Prog AtaCmd AtaCmd.Reply

namespace AtaProg

/- `ata_boot_drive`. -/
def bootDrive : AtaProg Int :=
  .step .bootDrive .ret

/- `ata_sectors`. -/
def sectors (dev : Int) : AtaProg UInt32 :=
  .step (.sectors dev) .ret

/- `ata_read` of one sector. -/
def read
    (dev : Int)
    (lba : UInt32) : AtaProg (Option Sector) :=
  .step (.read dev lba) .ret

/- `ata_write` of one sector. -/
def write
    (dev : Int)
    (lba : UInt32)
    (data : Sector) : AtaProg Bool :=
  .step (.write dev lba data) .ret

end AtaProg

--
-- Perfect and Faulty Drives
--

namespace Ata

/- The size that the driver reports for an index. -/
def sectorsOf
    (d : Ata)
    (dev : Int) : UInt32 :=
  if dev = d.drive ∧ 0 ≤ dev then d.sectors else 0

/- Every command inside the disk succeeds. -/
def perfect :
    (command : AtaCmd) → Ata → command.Reply × Ata
  | .bootDrive, d => (d.drive, d)
  | .sectors dev, d => (d.sectorsOf dev, d)
  | .read dev lba, d =>
      if d.InRange dev lba then
        (some (d.disk lba.toNat), d)
      else
        (none, d)
  | .write dev lba data, d =>
      if d.InRange dev lba then
        (true, d.put lba data)
      else
        (false, d.fail lba)

/-
  Commands outside the disk fail. Inside it they succeed,
  unless the drive is lossy: then any read or write may
  fail, and a failed write may have reached its sector.
-/
def answers
    (lossy : Bool) : Handler AtaCmd AtaCmd.Reply Ata
  | .bootDrive, d, reply, d' => reply = d.drive ∧ d' = d
  | .sectors dev, d, reply, d' =>
      reply = d.sectorsOf dev ∧ d' = d
  | .read dev lba, d, reply, d' =>
      d' = d ∧
        (reply = none ∧
            (d.InRange dev lba → lossy = true) ∨
          reply = some (d.disk lba.toNat) ∧
            d.InRange dev lba)
  | .write dev lba data, d, reply, d' =>
      (reply = true ∧ d.InRange dev lba ∧
        d' = d.put lba data) ∨
      (reply = false ∧
        (d.InRange dev lba → lossy = true) ∧
        (d' = d.fail lba ∨
          d.InRange dev lba ∧
            d' = (d.put lba data).fail lba))

/- The drive on which any command may fail. -/
abbrev faulty : Handler AtaCmd AtaCmd.Reply Ata :=
  answers true

theorem answers_perfect
    (lossy : Bool)
    (command : AtaCmd)
    (d : Ata) :
    answers lossy command d (perfect command d).1
      (perfect command d).2 := by
  cases command with
  | bootDrive => exact ⟨rfl, rfl⟩
  | sectors dev => exact ⟨rfl, rfl⟩
  | read dev lba =>
      by_cases hRange : d.InRange dev lba
      · have hAnswer : perfect (.read dev lba) d =
            (some (d.disk lba.toNat), d) :=
          if_pos hRange
        rw [hAnswer]
        exact ⟨rfl, .inr ⟨rfl, hRange⟩⟩
      · have hAnswer : perfect (.read dev lba) d =
            (none, d) :=
          if_neg hRange
        rw [hAnswer]
        exact ⟨rfl, .inl ⟨rfl, fun h => absurd h hRange⟩⟩
  | write dev lba data =>
      by_cases hRange : d.InRange dev lba
      · have hAnswer : perfect (.write dev lba data) d =
            (true, d.put lba data) :=
          if_pos hRange
        rw [hAnswer]
        exact .inl ⟨rfl, hRange, rfl⟩
      · have hAnswer : perfect (.write dev lba data) d =
            (false, d.fail lba) :=
          if_neg hRange
        rw [hAnswer]
        exact .inr
          ⟨rfl, fun h => absurd h hRange, .inl rfl⟩

/- A perfect run is one of the faulty ones. -/
theorem returns_perfect
    {α : Type}
    (program : AtaProg α)
    (d : Ata) :
    Prog.Returns faulty program d
      (program.run perfect d).1
      (program.run perfect d).2 := by
  refine (Prog.returns_run perfect program d).mono ?_
  intro command d reply d' hAnswer
  have hFaulty := answers_perfect true command d
  rw [hAnswer] at hFaulty
  exact hFaulty

end Ata

--
-- Command Rules
--

namespace AtaProg

variable {α : Type} {d : Ata}

section Perfect

variable {dev : Int} {lba : UInt32} {data : Sector}

end Perfect

section Faulty

variable {lossy : Bool} {crash : Ata → Prop}
variable {post : α → Ata → Prop}

theorem spec_bootDrive
    {next : Int → AtaProg α}
    (hCrash : crash d)
    (hNext : (next d.drive).Spec
      (Ata.answers lossy) crash post d) :
    (bootDrive >>= next).Spec
      (Ata.answers lossy) crash post d := by
  refine Prog.spec_step.mpr ⟨hCrash, ?_⟩
  rintro reply d' ⟨rfl, rfl⟩
  exact hNext

theorem spec_sectors
    {dev : Int}
    {next : UInt32 → AtaProg α}
    (hCrash : crash d)
    (hNext : (next (d.sectorsOf dev)).Spec
      (Ata.answers lossy) crash post d) :
    (sectors dev >>= next).Spec
      (Ata.answers lossy) crash post d := by
  refine Prog.spec_step.mpr ⟨hCrash, ?_⟩
  rintro reply d' ⟨rfl, rfl⟩
  exact hNext

theorem spec_read
    {dev : Int}
    {lba : UInt32}
    {next : Option Sector → AtaProg α}
    (hCrash : crash d)
    (hFail : (d.InRange dev lba → lossy = true) →
      (next none).Spec (Ata.answers lossy) crash post d)
    (hRead : d.InRange dev lba →
      (next (some (d.disk lba.toNat))).Spec
        (Ata.answers lossy) crash post d) :
    (read dev lba >>= next).Spec
      (Ata.answers lossy) crash post d := by
  refine Prog.spec_step.mpr ⟨hCrash, ?_⟩
  rintro reply d' ⟨rfl, ⟨rfl, hLossy⟩ | ⟨rfl, hRange⟩⟩
  · exact hFail hLossy
  · exact hRead hRange

theorem spec_write
    {dev : Int}
    {lba : UInt32}
    {data : Sector}
    {next : Bool → AtaProg α}
    (hCrash : crash d)
    (hPut : d.InRange dev lba →
      (next true).Spec (Ata.answers lossy) crash post
        (d.put lba data))
    (hFail : (d.InRange dev lba → lossy = true) →
      (next false).Spec (Ata.answers lossy) crash post
        (d.fail lba))
    (hLate : d.InRange dev lba → lossy = true →
      (next false).Spec (Ata.answers lossy) crash post
        ((d.put lba data).fail lba)) :
    (write dev lba data >>= next).Spec
      (Ata.answers lossy) crash post d := by
  refine Prog.spec_step.mpr ⟨hCrash, ?_⟩
  rintro reply d' (⟨rfl, hRange, rfl⟩ |
    ⟨rfl, hLossy, rfl | ⟨hRange, rfl⟩⟩)
  · exact hPut hRange
  · exact hFail hLossy
  · exact hLate hRange (hLossy hRange)

end Faulty

end AtaProg
