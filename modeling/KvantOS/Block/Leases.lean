import KvantOS.Usb.Coherence
import KvantOS.Ahci.Calls

/-
  This file proves the discipline of write leases for both
  drivers: at every moment of every run, whatever was
  written lay inside a lease that was granted and had not
  ended.

  Key definitions include:
    * `Usb.Disciplined`, `Ahci.Disciplined`

  Key theorems include:
    * `device_writes_leased`
-/

namespace KvantOS

/-
  Any next call keeps to the leases of the disks, and grants
  one only for a part of the disk as it is now.
-/
structure Usb.Disciplined
    (s : UsbState)
    (b : Bus) : Prop where
  respected : ∀ (c : UsbCall) b',
    Prog.Passes Bus.answers (c.program s) b b' →
      Lease.Respected b'.log
  granted : ∀ disk start count generation s' b',
    Prog.Returns Bus.answers
      (usbFatAuthorize disk start count generation s) b
      (0, s') b' →
      Granted disk start count generation s' b'

structure Ahci.Disciplined
    (s : AhciState)
    (log : List (Lease.Entry Nat)) : Prop where
  respected : ∀ (c : AhciCall) log',
    Prog.Passes answers (c.program s) log log' →
      Lease.Respected log'
  granted : ∀ i start count generation s' log',
    Prog.Returns answers
      (ahciFatAuthorize i start count generation s) log
      (0, s') log' →
      ∃ p, Granted i start count generation s' log' p
  distinct : ∀ i j, i < s.driveCount → j < s.driveCount →
    s.drivePort i = s.drivePort j → i = j

theorem Usb.Inv.disciplined
    {s : UsbState}
    {b : Bus}
    (hInv : Inv none s b) :
    Disciplined s b where
  respected c _ hPasses :=
    ((UsbCall.spec hInv c).passes hPasses).respected
  granted disk start count generation _ _ hReturns :=
    ((usbFatAuthorize_spec hInv disk start count
      generation).returns hReturns).2.2 rfl

theorem Ahci.Inv.disciplined
    {s : AhciState}
    {log : List (Lease.Entry Nat)}
    (hInv : Inv s log) :
    Disciplined s log where
  respected c _ hPasses :=
    ((AhciCall.spec hInv c).passes hPasses).respected
  granted i start count generation _ _ hReturns :=
    ((ahciFatAuthorize_spec hInv i start count
      generation).returns hReturns).2 rfl
  distinct := hInv.distinct

--
-- A Working Controller
--

namespace Ahci

/-
  A controller with one port, on which every command is
  complete. Its disk has eight sectors and can flush.
-/
def working :
    (command : AhciCmd) → List (Lease.Entry Nat) →
      AhciCmd.Reply command × List (Lease.Entry Nat)
  | .find, log => ([true], log)
  | .read _ .ssts, log => ((3 : UInt32), log)
  | .read _ _, log => ((0 : UInt32), log)
  | .waitClear _ _ _, log => (true, log)
  | .dma _ _, log => (true, log)
  | .issue p opcode lba count _, log =>
      (⟨true, count.toUInt32 * 512, fun i =>
          if i = 99 then 2
          else if i = 167 then 0x64
          else if i = 200 then 8
          else 0⟩,
        issued log p opcode lba count true)
  | .note entry, log => ((), entry :: log)

/- A working controller is one of the possible ones. -/
theorem working_possible
    (c : AhciCmd)
    (log : List (Lease.Entry Nat)) :
    answers c log (working c log).1 (working c log).2 := by
  cases c with
  | find => rfl
  | read p reg => cases reg <;> rfl
  | waitClear p reg bits => rfl
  | dma p count => rfl
  | issue p opcode lba count data => rfl
  | note entry => rfl

/- The states before and after a call on it. -/
def after
    (c : AhciCall)
    (x : AhciState × List (Lease.Entry Nat)) :
    AhciState × List (Lease.Entry Nat) :=
  let out := (c.program x.1).run working x.2
  (out.1.2, out.2)

theorem reaches_after
    {c : AhciCall}
    {x : AhciState × List (Lease.Entry Nat)}
    (hReaches : Reaches x.1 x.2) :
    Reaches (after c x).1 (after c x).2 :=
  .call c hReaches
    (Prog.returns_possible working_possible _ _)

/- Sector 3 was written and flushed under a lease. -/
def flushed : AhciState × List (Lease.Entry Nat) :=
  after (.sync 0)
    (after (.write 0 3 1 (some .zero))
      (after (.authorize 0 2 4 1)
        (after .init (bootState, []))))

theorem reaches_flushed : Reaches flushed.1 flushed.2 :=
  reaches_after (reaches_after
    (reaches_after (reaches_after .boot)))

example :
    flushed.2 =
      [.touch 0, .use 0 ⟨3, 1⟩, .grant 0 ⟨2, 4⟩,
        .drop 0] := by
  rfl

end Ahci

/-
  Every state that any calls, answers and faults lead to is
  disciplined.
-/
theorem device_writes_leased :
    (∀ s b, Usb.Reaches s b → Usb.Disciplined s b) ∧
      ∀ s log, Ahci.Reaches s log →
        Ahci.Disciplined s log :=
  ⟨fun _ _ h => h.inv.disciplined,
    fun _ _ h => h.inv.disciplined⟩

theorem device_writes_leased_working :
    Usb.Disciplined Usb.written.1 Usb.written.2 ∧
      Ahci.Disciplined Ahci.flushed.1 Ahci.flushed.2 :=
  ⟨device_writes_leased.1 _ _ Usb.reaches_written,
    device_writes_leased.2 _ _ Ahci.reaches_flushed⟩

end KvantOS
