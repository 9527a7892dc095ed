import KvantOS.Program.Stateful
import KvantOS.Block.Bytes
import KvantOS.Data.Lease

/-
  This file models the SATA driver of kernel/ahci.c above
  the registers of a port: the lease that gates its writes,
  the commands it issues, and the faults that fence a port
  until reboot.

  The environment answers register reads, carries out the
  command in the one slot, and finds ports at start.

  Key definitions include:
    * `AhciState`, `AhciCmd`, `ahciCommand`
    * `ahciTransfer`, `ahciSync`
    * `ahciFatAuthorize`, `ahciFatRevoke`
    * `ahciRescan`, `ahciInit`
-/

namespace KvantOS.Ahci

/- The fields of `ahci_port_t` above its DMA memory. -/
structure AhciPort where
  sectors : UInt32
  generation : UInt32
  writeStart : UInt32
  writeCount : UInt32
  fenced : Bool
  busy : Bool
  flushExt : Bool
  writeAllowed : Bool

/- A port that was never attached. -/
def AhciPort.zero : AhciPort where
  sectors := 0
  generation := 0
  writeStart := 0
  writeCount := 0
  fenced := false
  busy := false
  flushExt := false
  writeAllowed := false

/- The variables of the driver. -/
structure AhciState where
  ports : Nat → AhciPort
  drivePort : Nat → Nat
  portCount : Nat
  driveCount : Nat
  initialized : Bool
  epoch : UInt32

/- `AHCI_PORTS`. -/
def ahciPorts : Nat := 8

/- Change one port. -/
def AhciState.setPort
    (s : AhciState)
    (p : Nat)
    (change : AhciPort → AhciPort) : AhciState :=
  { s with ports :=
      Function.update s.ports p (change (s.ports p)) }

--
-- The Controller
--

/- The registers of a port that the driver decides by. -/
inductive Reg where
  | is
  | tfd
  | ssts
  | sact
  | ci

/-
  How the command in the slot ended: whether its bit was
  seen to clear in time over a sound link, the count of
  bytes it left in the header, and the bytes that came in.
-/
structure IssueReply where
  complete : Bool
  bytes : UInt32
  data : Buf

/-
  What the driver asks of the controller. `find` answers,
  for each port with a disk, whether its engine and its DMA
  memory could be set up. `note` only adds to the history
  of leases.
-/
inductive AhciCmd where
  | find
  | read (p : Nat) (reg : Reg)
  | waitClear (p : Nat) (reg : Reg) (bits : UInt32)
  | dma (p : Nat) (count : Nat)
  | issue
      (p : Nat)
      (opcode : UInt8)
      (lba : UInt32)
      (count : UInt8)
      (data : Buf)
  | note (entry : Lease.Entry Nat)

@[reducible]
def AhciCmd.Reply : AhciCmd → Type
  | .find => List Bool
  | .read _ _ => UInt32
  | .waitClear _ _ _ => Bool
  | .dma _ _ => Bool
  | .issue _ _ _ _ _ => IssueReply
  | .note _ => Unit

/- Programs of the driver. -/
abbrev AhciM :=
  ProgM AhciCmd AhciCmd.Reply AhciState

namespace AhciM

def state : AhciM AhciState :=
  ProgM.state

def update (change : AhciState → AhciState) : AhciM Unit :=
  ProgM.update change

def perform (command : AhciCmd) :
    AhciM (AhciCmd.Reply command) :=
  ProgM.perform command

def read (p : Nat) (reg : Reg) : AhciM UInt32 :=
  perform (.read p reg)

def dma (p count : Nat) : AhciM Bool :=
  perform (.dma p count)

def issue
    (p : Nat)
    (opcode : UInt8)
    (lba : UInt32)
    (count : UInt8)
    (data : Buf) : AhciM IssueReply :=
  perform (.issue p opcode lba count data)

def find : AhciM (List Bool) :=
  perform .find

def note (entry : Lease.Entry Nat) : AhciM Unit :=
  perform (.note entry)

end AhciM

--
-- Commands
--

/- `IO_ERRORS`. -/
def ioErrors : UInt32 :=
  0x7D000000 ||| (0x40 ||| 0x400000)

/-
  `ahci_fail`. The port is fenced, whether or not its engine
  stops.
-/
def ahciFail (p : Nat) : AhciM Int := do
  AhciM.update fun s => s.setPort p fun d =>
    { d with
      fenced := true
      writeAllowed := false
      generation := 0 }
  AhciM.note (.drop p)
  return -1

/- The link is up and no error is latched. -/
def linked (p : Nat) : AhciM Bool := do
  if (← AhciM.read p .ssts) &&& 0xF ≠ 3 then
    return false
  else
    return (← AhciM.read p .is) &&& ioErrors = 0

/- The port is linked, and no command is in a slot. -/
def idle (p : Nat) : AhciM Bool := do
  if !(← linked p) then
    return false
  else
  if (← AhciM.read p .ci) ≠ 0 then
    return false
  else
  if (← AhciM.read p .sact) ≠ 0 then
    return false
  else
    AhciM.perform (.waitClear p .tfd 0x88)

/- A write leaves the extent of the lease. -/
def outside (d : AhciPort) (lba count : UInt32) : Bool :=
  lba < d.writeStart ∨ d.writeCount ≤ lba - d.writeStart ∨
    d.writeCount - (lba - d.writeStart) < count

/- What `ahci_command` refuses before it asks the port. -/
def refuses
    (d : AhciPort)
    (opcode : UInt8)
    (lba : UInt32)
    (count : UInt8) : Bool :=
  let flush := opcode = 0xEA
  let write := opcode = 0x35
  (d.fenced ∨
      (opcode ≠ 0xEC ∧ opcode ≠ 0x25 ∧ ¬write ∧ ¬flush) ∨
      (if flush then
        count ≠ 0 ∨ lba ≠ 0
      else
        count = 0 ∨ 64 < count)) ∨
    ((write ∨ flush) ∧ (!d.writeAllowed ∨ !d.flushExt)) ∨
    (write ∧ outside d lba count.toUInt32)

/- `ahci_command`. -/
def ahciCommand
    (p : Nat)
    (opcode : UInt8)
    (lba : UInt32)
    (count : UInt8)
    (data : Buf) : AhciM (Int × Buf) := do
  let s ← AhciM.state
  if refuses (s.ports p) opcode lba count then
    return (-1, data)
  else
  if !(← idle p) then
    return (← ahciFail p, data)
  else
  if !(← AhciM.dma p count.toNat) then
    return (← ahciFail p, data)
  else
  -- an error latched meanwhile is never erased
  if !(← linked p) then
    return (← ahciFail p, data)
  else do
  let reply ← AhciM.issue p opcode lba count data
  if !reply.complete then
    return (← ahciFail p, reply.data)
  else
  if (← AhciM.read p .is) &&& ioErrors ≠ 0 then
    return (← ahciFail p, reply.data)
  else
  if (← AhciM.read p .tfd) &&& 0xA1 ≠ 0 then
    return (← ahciFail p, reply.data)
  else
  if reply.bytes ≠ count.toUInt32 * 512 then
    return (← ahciFail p, reply.data)
  else
    return (0, reply.data)

--
-- Attaching Ports
--

/- The epoch after one, which is never 0. -/
def nextEpoch (epoch : UInt32) : UInt32 :=
  if epoch + 1 = 0 then epoch + 1 + 1 else epoch + 1

/- A word of the identify data. -/
def idWord (data : Buf) (i : Nat) : Nat :=
  data.get16 (2 * i)

/-
  The number of sectors in the identify data of a disk that
  the driver can address, or nothing.
-/
def identified (data : Buf) : Option UInt32 :=
  let id := idWord data
  if id 0 &&& 0x8000 ≠ 0 ∨ id 49 &&& (1 <<< 9) = 0 ∨
      id 83 &&& 0xC400 ≠ 0x4400 then
    none
  else if id 106 &&& 0xD000 = 0x5000 ∧
      id 117 ||| (id 118 <<< 16) ≠ 256 then
    none
  else
    let n := id 100 ||| (id 101 <<< 16) |||
      (id 102 <<< 32) ||| (id 103 <<< 48)
    if n = 0 ∨ 0xFFFFFFFF < n then none else some (.ofNat n)

/- `ahci_identify`. -/
def ahciIdentify (p : Nat) : AhciM Int := do
  let (result, data) ← ahciCommand p 0xEC 0 1 .zero
  if result < 0 then
    return -1
  else
  match identified data with
  | none => ahciFail p
  | some n => do
      AhciM.update fun s =>
        { s.setPort p fun d =>
            { d with
              sectors := n
              flushExt := idWord data 83 &&& (1 <<< 13) ≠ 0
              generation := nextEpoch s.epoch } with
          epoch := nextEpoch s.epoch }
      return 0

/- The rounds of `ahci_init` over the ports it finds. -/
def ahciAttach : List Bool → AhciM Unit
  | [] => return
  | ready :: rest => do
      let s ← AhciM.state
      if ahciPorts ≤ s.portCount then
        return
      else do
      let p := s.portCount
      AhciM.update fun s =>
        { s with portCount := s.portCount + 1 }
      if !ready then
        AhciM.update fun s => s.setPort p fun d =>
          { d with fenced := true }
        ahciAttach rest
      else
      if (← ahciIdentify p) ≠ 0 then
        ahciAttach rest
      else do
        AhciM.update fun s =>
          { s with
            drivePort :=
              Function.update s.drivePort s.driveCount p
            driveCount := s.driveCount + 1 }
        ahciAttach rest

/- `ahci_init`. -/
def ahciInit : AhciM Unit := do
  let s ← AhciM.state
  if s.initialized then
    return
  else do
    AhciM.update fun s => { s with initialized := true }
    let found ← AhciM.find
    ahciAttach found

--
-- The Write Lease
--

/- `ahci_drive`. -/
def ahciDrive (s : AhciState) (i : Int) : Option Nat :=
  if 0 ≤ i ∧ i < s.driveCount then
    some (s.drivePort i.toNat)
  else
    none

/- `ahci_sectors`. -/
def ahciSectors (i : Int) : AhciM UInt32 := do
  let s ← AhciM.state
  match ahciDrive s i with
  | none => return 0
  | some p =>
      if (s.ports p).fenced then
        return 0
      else
        return (s.ports p).sectors

/- `ahci_generation`. -/
def ahciGeneration (i : Int) : AhciM UInt32 := do
  let s ← AhciM.state
  match ahciDrive s i with
  | none => return 0
  | some p =>
      if (s.ports p).fenced then
        return 0
      else
      if !(← linked p) then
        let _ ← ahciFail p
        return 0
      else do
        let s ← AhciM.state
        return (s.ports p).generation

/- `ahci_fat_revoke`. -/
def ahciFatRevoke (i : Int) : AhciM Unit := do
  let s ← AhciM.state
  match ahciDrive s i with
  | none => return
  | some p => do
      AhciM.update fun s => s.setPort p fun d =>
        { d with writeAllowed := false }
      AhciM.note (.drop p)

/- The rounds of `ahci_rescan`. -/
def ahciRescanFrom : (left i : Nat) → AhciM Unit
  | 0, _ => return
  | left + 1, i => do
      ahciFatRevoke i
      if (← ahciGeneration i) ≠ 0 then
        AhciM.update fun s =>
          { s.setPort (s.drivePort i) fun d =>
              { d with generation := nextEpoch s.epoch } with
            epoch := nextEpoch s.epoch }
        ahciRescanFrom left (i + 1)
      else
        ahciRescanFrom left (i + 1)

/- `ahci_rescan`. -/
def ahciRescan : AhciM Unit := do
  let s ← AhciM.state
  ahciRescanFrom s.driveCount 0
  AhciM.note .dropAll

/- `ahci_fat_authorize`. -/
def ahciFatAuthorize
    (i : Int)
    (start count generation : UInt32) : AhciM Int := do
  ahciFatRevoke i
  let s ← AhciM.state
  match ahciDrive s i with
  | none => return -1
  | some p =>
      if (s.ports p).busy ∨ !(s.ports p).flushExt ∨
          generation = 0 then
        return -1
      else
      if generation ≠ (← ahciGeneration i) then
        return -1
      else do
      let s ← AhciM.state
      let sectors := (s.ports p).sectors
      if count = 0 ∨ sectors ≤ start ∨
          sectors - start < count then
        return -1
      else do
        AhciM.update fun s => s.setPort p fun d =>
          { d with
            writeStart := start
            writeCount := count
            writeAllowed := true }
        AhciM.note (.grant p ⟨start.toNat, count.toNat⟩)
        return 0

--
-- Transfers
--

/- `__sync_lock_test_and_set` of the lock of a port. -/
def lock (p : Nat) : AhciM Bool := do
  let s ← AhciM.state
  AhciM.update fun s => s.setPort p fun d =>
    { d with busy := true }
  return (s.ports p).busy

/- `__sync_lock_release`. -/
def unlock (p : Nat) : AhciM Unit :=
  AhciM.update fun s => s.setPort p fun d =>
    { d with busy := false }

/-
  The rounds of `ahci_transfer`: `off` is where the buffer
  pointer has got to.
-/
def ahciTransferFrom
    (p : Nat)
    (write : Bool) :
    (left : Nat) → (lba : UInt32) → (count off : Nat) →
      (buf : Buf) → AhciM (Int × Buf)
  | 0, _, _, _, buf => return (0, buf)
  | left + 1, lba, count, off, buf =>
      if count = 0 then return (0, buf) else do
      let n := if 64 < count then 64 else count
      let (result, data) ← ahciCommand p
        (if write then 0x35 else 0x25) lba (.ofNat n)
        (if write then buf.drop off else .zero)
      if result < 0 then
        return (-1, buf)
      else
        ahciTransferFrom p write left (lba + .ofNat n)
          (count - n) (off + n * 512)
          (if write then buf
            else buf.copy off data (n * 512))

/- `ahci_transfer`. -/
def ahciTransfer
    (i : Int)
    (lba : UInt32)
    (count : UInt8)
    (buf : Option Buf)
    (write : Bool) : AhciM (Int × Buf) := do
  let out := buf.getD .zero
  let s ← AhciM.state
  match ahciDrive s i with
  | none => return (-1, out)
  | some p =>
      if (← ahciGeneration i) = 0 then
        return (-1, out)
      else do
      let s ← AhciM.state
      let d := s.ports p
      if buf = none ∨ count = 0 ∨ d.sectors ≤ lba ∨
          d.sectors - lba < count.toUInt32 then
        return (-1, out)
      else
      if write ∧ (!d.writeAllowed ∨
          outside d lba count.toUInt32) then
        return (-1, out)
      else
      if ← lock p then
        return (-1, out)
      else do
        let result ← ahciTransferFrom p write count.toNat
          lba count.toNat 0 out
        unlock p
        return result

/- `ahci_read`. -/
def ahciRead
    (i : Int)
    (lba : UInt32)
    (count : UInt8)
    (buf : Option Buf) : AhciM (Int × Buf) :=
  ahciTransfer i lba count buf false

/- `ahci_write`. -/
def ahciWrite
    (i : Int)
    (lba : UInt32)
    (count : UInt8)
    (buf : Option Buf) : AhciM (Int × Buf) :=
  ahciTransfer i lba count buf true

/- `ahci_sync`. -/
def ahciSync (i : Int) : AhciM Int := do
  let s ← AhciM.state
  match ahciDrive s i with
  | none => return -1
  | some p =>
      if (← ahciGeneration i) = 0 then
        return -1
      else do
      let s ← AhciM.state
      if !(s.ports p).writeAllowed ∨
          !(s.ports p).flushExt then
        return -1
      else
      if ← lock p then
        return -1
      else do
        let (result, _) ← ahciCommand p 0xEA 0 0 .zero
        unlock p
        return result

/- The calls into the driver. -/
inductive AhciCall where
  | init
  | sectors (i : Int)
  | generation (i : Int)
  | read
      (i : Int)
      (lba : UInt32)
      (count : UInt8)
      (buf : Option Buf)
  | write
      (i : Int)
      (lba : UInt32)
      (count : UInt8)
      (buf : Option Buf)
  | sync (i : Int)
  | authorize (i : Int) (start count generation : UInt32)
  | revoke (i : Int)
  | rescan

/- A call, without what it returns. -/
def AhciCall.program : AhciCall → AhciM Unit
  | .init => ahciInit
  | .sectors i => do
      let _ ← ahciSectors i
      return
  | .generation i => do
      let _ ← ahciGeneration i
      return
  | .read i lba count buf => do
      let _ ← ahciRead i lba count buf
      return
  | .write i lba count buf => do
      let _ ← ahciWrite i lba count buf
      return
  | .sync i => do
      let _ ← ahciSync i
      return
  | .authorize i start count gen => do
      let _ ← ahciFatAuthorize i start count gen
      return
  | .revoke i => ahciFatRevoke i
  | .rescan => ahciRescan

end KvantOS.Ahci
