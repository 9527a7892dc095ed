import KvantOS.Program.Stateful
import KvantOS.Block.Bytes
import KvantOS.Data.Lease

/-
  This file models the USB storage driver above the transfer
  of single commands, kernel/usb.c and the route check of
  kernel/usb_hub.h: the sector cache, the write lease, and
  what losing the route to a disk does to both.

  The bus answers the queries of ports and hubs, carries out
  SCSI commands, and finds devices when it is enumerated.

  Key definitions include:
    * `UsbState`, `UsbCmd`, `usbRouteCheck`
    * `usbRead`, `usbWrite`, `usbSync`
    * `usbFatAuthorize`, `usbFatRevoke`, `usbRescan`
-/

namespace KvantOS.Usb

--
-- State of the Driver
--

/- The fields of `usb_disk_t` above the transport. -/
structure UsbDisk where
  hc : Nat
  sectors : UInt32
  writeStart : UInt32
  writeCount : UInt32
  generation : UInt32
  writeAllowed : Bool
  senseKey : UInt8
  asc : UInt8
  ascq : UInt8
  address : Nat
  port : Nat
  parent : Nat
  downport : Nat
  routeDead : Bool
  speed : Nat

/- A hub, with the ports whose edge has failed. -/
structure Hub where
  dev : UsbDisk
  blocked : Nat
  ports : Nat
  protocol : Nat

/- One sector of the cache. -/
structure CacheEntry where
  data : Sector
  lba : UInt32
  disk : Int
  valid : Bool

/- The variables of the driver. -/
structure UsbState where
  kind : Nat → Nat
  dead : Nat → Bool
  disks : Int → UsbDisk
  diskCount : Int
  hubs : Nat → Hub
  hubCount : Nat
  nextTag : UInt32
  enumerationGeneration : UInt32
  cache : Fin 32 → CacheEntry
  cacheNext : UInt32

namespace UsbState

/- Change one disk. -/
def setDisk
    (s : UsbState)
    (disk : Int)
    (change : UsbDisk → UsbDisk) : UsbState :=
  { s with disks :=
      Function.update s.disks disk (change (s.disks disk)) }

/- Change one hub. -/
def setHub
    (s : UsbState)
    (hub : Nat)
    (change : Hub → Hub) : UsbState :=
  { s with hubs :=
      Function.update s.hubs hub (change (s.hubs hub)) }

/- `usb_stop`: the controller is quarantined. -/
def fence
    (s : UsbState)
    (hc : Nat)
    (fenced : Bool) : UsbState :=
  { s with dead :=
      Function.update s.dead hc (s.dead hc || fenced) }

end UsbState

--
-- The Bus
--

/-
  The answer to a control transfer: the status it read, and
  whether the controller had to be fenced.
-/
structure ControlReply where
  status : Option UInt32
  fenced : Bool

/-
  The answer to a SCSI command: what `usb_bot_command`
  returns, the bytes that came in, and whether the
  controller had to be fenced.
-/
structure BotReply where
  result : Int
  data : Buf
  fenced : Bool

/- A storage device as enumeration leaves it. -/
structure FoundDisk where
  hc : Nat
  last : UInt32
  address : Nat
  port : Nat
  parent : Nat
  downport : Nat
  speed : Nat

/- A hub as enumeration leaves it. -/
structure FoundHub where
  hc : Nat
  address : Nat
  port : Nat
  parent : Nat
  downport : Nat
  speed : Nat
  routeDead : Bool
  blocked : Nat
  ports : Nat
  protocol : Nat

/- What walking the ports and the hubs comes upon. -/
structure Found where
  kind : Nat → Nat
  dead : Nat → Bool
  disks : List FoundDisk
  hubs : List FoundHub

/-
  What the driver asks of the bus. `note` asks nothing: it
  only adds to the history of leases.
-/
inductive UsbCmd where
  | portStatus (hc port : Nat)
  | hubState (hub : Nat)
  | hubPort (hub port : Nat)
  | bot
      (disk : Int)
      (tag : UInt32)
      (cdb : List UInt8)
      (input : Bool)
      (data : Buf)
      (size : Nat)
  | enumerate (generation : UInt32)
  | note (entry : Lease.Entry Int)

@[reducible]
def UsbCmd.Reply : UsbCmd → Type
  | .portStatus _ _ => UInt32
  | .hubState _ => ControlReply
  | .hubPort _ _ => ControlReply
  | .bot _ _ _ _ _ _ => BotReply
  | .enumerate _ => Found
  | .note _ => Unit

/- Programs of the driver. -/
abbrev UsbM :=
  ProgM UsbCmd UsbCmd.Reply UsbState

namespace UsbM

def state : UsbM UsbState :=
  ProgM.state

def update (change : UsbState → UsbState) : UsbM Unit :=
  ProgM.update change

def perform (command : UsbCmd) :
    UsbM (UsbCmd.Reply command) :=
  ProgM.perform command

def portStatus (hc port : Nat) : UsbM UInt32 :=
  perform (.portStatus hc port)

/- `hub_state`. -/
def hubState (hub : Nat) : UsbM (Option UInt32) := do
  let reply ← perform (.hubState hub)
  let s ← state
  update fun s' => s'.fence (s.hubs hub).dev.hc reply.fenced
  return reply.status

/- `hub_port`. -/
def hubPort (hub port : Nat) : UsbM (Option UInt32) := do
  let reply ← perform (.hubPort hub port)
  let s ← state
  update fun s' => s'.fence (s.hubs hub).dev.hc reply.fenced
  return reply.status

/- `usb_bot_command` over the endpoints of a disk. -/
def bot
    (disk : Int)
    (cdb : List UInt8)
    (input : Bool)
    (data : Buf)
    (size : Nat) : UsbM (Int × Buf) := do
  update fun s => { s with nextTag := s.nextTag + 1 }
  let s ← state
  let reply ← perform
    (.bot disk s.nextTag cdb input data size)
  update fun s' => s'.fence (s.disks disk).hc reply.fenced
  return (reply.result, reply.data)

def note (entry : Lease.Entry Int) : UsbM Unit :=
  perform (.note entry)

end UsbM

--
-- Routes
--

/- The deepest chain of hubs. -/
def usbHubDepth : Nat := 4

/-
  `usb_tt_route`: a full-speed disk behind a high-speed hub
  has a transaction translator to go through.
-/
def usbTtRoute
    (s : UsbState)
    (d : UsbDisk) : Bool :=
  if s.kind d.hc ≠ 1 ∨ d.speed ≠ 0 ∨ d.parent = 0 ∨
      s.hubCount < d.parent ∨ d.routeDead then
    false
  else
    let h := s.hubs (d.parent - 1)
    let p := h.dev
    !(p.hc ≠ d.hc ∨ p.speed ≠ 2 ∨ p.port ≠ d.port ∨
      p.routeDead ∨
      p.generation ≠ s.enumerationGeneration ∨
      p.address = 0 ∨ 127 < p.address ∨
      d.downport = 0 ∨ h.ports < d.downport ∨
      h.blocked &&& (1 <<< (d.downport - 1)) ≠ 0 ∨
      (h.protocol ≠ 1 ∧ h.protocol ≠ 2) ∨
      (d.generation ≠ 0 ∧
        d.generation ≠ s.enumerationGeneration))

/- One hub on the way to a disk. -/
structure Hop where
  hub : Nat
  port : Nat
  speed : Nat

/-
  The hubs from the root to a disk, collected from the disk
  up, or nothing when a link of the chain is not sound.
-/
def chainFrom
    (s : UsbState)
    (d : UsbDisk) :
    (room parent port speed : Nat) →
      List Hop → Option (List Hop)
  | _, 0, _, _, hops => some hops
  | 0, _ + 1, _, _, _ => none
  | room + 1, parent + 1, port, speed, hops =>
      if s.hubCount < parent + 1 then
        none
      else
        let p := (s.hubs parent).dev
        if p.hc ≠ d.hc ∨ p.port ≠ d.port ∨
            p.generation ≠ s.enumerationGeneration ∨
            p.routeDead then
          none
        else
          chainFrom s d room p.parent p.downport p.speed
            (⟨parent, port, speed⟩ :: hops)

/- `hub_ready`. -/
def hubReady
    (speed : Nat)
    (status : UInt32) : Bool :=
  (speed = 0 ∨ speed = 2) ∧
    status &&& 0x103 = 0x103 ∧ status &&& 0x1C = 0 ∧
    status &&& 0x1F0000 = 0 ∧
    status &&& 0x600 = (if speed = 2 then 0x400 else 0)

/- The hubs of a chain, from the root to the disk. -/
def checkHops
    (poll : Bool) : List Hop → UsbM Bool
  | [] => return true
  | hop :: rest => do
      let s ← UsbM.state
      let h := s.hubs hop.hub
      if hop.port = 0 ∨ h.ports < hop.port then
        return false
      else
      if h.blocked &&& (1 <<< (hop.port - 1)) ≠ 0 then
        return false
      else
      if !poll then checkHops poll rest else do
      let state ← UsbM.hubState hop.hub
      if state.all fun status => status &&& 0x30003 ≠ 0 then
        UsbM.update fun s => s.setHub hop.hub fun h =>
          { h with dev := { h.dev with routeDead := true } }
        return false
      else do
      let port ← UsbM.hubPort hop.hub hop.port
      if port.all fun status =>
          !hubReady hop.speed status then
        UsbM.update fun s => s.setHub hop.hub fun h =>
          { h with blocked :=
              h.blocked ||| (1 <<< (hop.port - 1)) }
        return false
      else
        checkHops poll rest

/- The label `bad` of `usb_route_check`. -/
def routeLost (disk : Int) : UsbM Bool := do
  UsbM.update fun s => s.setDisk disk fun d =>
    { d with
      routeDead := true
      writeAllowed := false
      generation := 0 }
  UsbM.note (.drop disk)
  return false

/- `usb_route_check`. -/
def usbRouteCheck
    (disk : Int)
    (poll : Bool) : UsbM Bool := do
  let s ← UsbM.state
  let d := s.disks disk
  if d.routeDead ∨ s.dead d.hc then
    UsbM.note (.drop disk)
    return false
  else do
  let status ← UsbM.portStatus d.hc d.port
  let change := if s.kind d.hc ≠ 0 then 0x2A else 0xA
  if status &&& 5 ≠ 5 ∨ status &&& change ≠ 0 then
    routeLost disk
  else
  if s.kind d.hc = 1 ∧ d.speed = 0 ∧
      !usbTtRoute s d then
    routeLost disk
  else
  match chainFrom s d usbHubDepth d.parent d.downport
      d.speed [] with
  | none => routeLost disk
  | some hops => do
      if !(← checkHops poll hops) then
        routeLost disk
      else
        return true

/- `usb_route_live`. -/
def usbRouteLive (disk : Int) : UsbM Bool :=
  usbRouteCheck disk true

--
-- Commands
--

/- The ten bytes of a command on a run of sectors. -/
def cdb10
    (opcode : UInt8)
    (lba : UInt32)
    (count : UInt8) : List UInt8 :=
  [opcode, 0, (lba >>> 24).toUInt8, (lba >>> 16).toUInt8,
    (lba >>> 8).toUInt8, lba.toUInt8, 0, 0, count, 0]

/-
  `command_dir`: a command between two checks of the route,
  the second of which may take its success back.
-/
def commandDir
    (disk : Int)
    (cdb : List UInt8)
    (input : Bool)
    (data : Buf)
    (size : Nat) : UsbM (Int × Buf) := do
  if !(← usbRouteLive disk) then
    return (-1, data)
  else do
    let (n, data) ← UsbM.bot disk cdb input data size
    if ← usbRouteLive disk then
      return (n, data)
    else
      return (-1, data)

/- `command`. -/
def command
    (disk : Int)
    (cdb : List UInt8)
    (data : Buf)
    (size : Nat) : UsbM (Int × Buf) :=
  commandDir disk cdb true data size

/- The cache without the sectors of a disk. -/
def dropCached
    (cache : Fin 32 → CacheEntry)
    (disk : Int) : Fin 32 → CacheEntry :=
  fun i =>
    { cache i with
      valid := (cache i).valid && (cache i).disk ≠ disk }

/- `invalidate`. -/
def invalidate (disk : Int) : UsbM Unit :=
  UsbM.update fun s =>
    { s with cache := dropCached s.cache disk }

/- The write permission of a disk is taken back. -/
def forbid (disk : Int) : UsbM Unit :=
  UsbM.update fun s => s.setDisk disk fun d =>
    { d with writeAllowed := false }

/- The sense data of fixed or of descriptor format. -/
def senseOf
    (n : Int)
    (sense : Buf)
    (d : UsbDisk) : UsbDisk :=
  let code := sense 0 &&& 0x7F
  if 14 ≤ n ∧ (code = 0x70 ∨ code = 0x71) then
    { d with
      senseKey := sense 2 &&& 15
      asc := sense 12
      ascq := sense 13 }
  else if 8 ≤ n ∧ (code = 0x72 ∨ code = 0x73) then
    { d with
      senseKey := sense 1 &&& 15
      asc := sense 2
      ascq := sense 3 }
  else
    d

/- `write_failed`. -/
def writeFailed (disk : Int) : UsbM Int := do
  forbid disk
  invalidate disk
  UsbM.update fun s => s.setDisk disk fun d =>
    { d with
      senseKey := 0
      asc := 0
      ascq := 0 }
  let (n, sense) ← command disk [3, 0, 0, 0, 18, 0] .zero 18
  UsbM.update fun s => s.setDisk disk (senseOf n sense)
  return -1

--
-- Enumeration
--

/- `memset` of a disk. -/
def UsbDisk.zero : UsbDisk where
  hc := 0
  sectors := 0
  writeStart := 0
  writeCount := 0
  generation := 0
  writeAllowed := false
  senseKey := 0
  asc := 0
  ascq := 0
  address := 0
  port := 0
  parent := 0
  downport := 0
  routeDead := false
  speed := 0

/- The end of `enumerate_device` for a storage device. -/
def registered
    (generation : UInt32)
    (d : FoundDisk) : UsbDisk :=
  { UsbDisk.zero with
    hc := d.hc
    sectors := d.last + 1
    generation := generation
    address := d.address
    port := d.port
    parent := d.parent
    downport := d.downport
    speed := d.speed }

/- A hub as `enumerate_hub` registers it. -/
def registeredHub
    (generation : UInt32)
    (h : FoundHub) : Hub where
  dev :=
    { UsbDisk.zero with
      hc := h.hc
      generation := generation
      address := h.address
      port := h.port
      parent := h.parent
      downport := h.downport
      routeDead := h.routeDead
      speed := h.speed }
  blocked := h.blocked
  ports := h.ports
  protocol := h.protocol

/- `memset` of a cache entry. -/
def CacheEntry.zero : CacheEntry where
  data := Buf.zero.toSector
  lba := 0
  disk := 0
  valid := false

/- The generation after one, which is never 0. -/
def nextGeneration (generation : UInt32) : UInt32 :=
  if generation + 1 = 0 then
    generation + 1 + 1
  else
    generation + 1

/-
  `usb_rescan`. Devices are found by walking the ports, with
  commands that never write.
-/
def usbRescan : UsbM Unit := do
  UsbM.update fun s =>
    { s with enumerationGeneration :=
        nextGeneration s.enumerationGeneration }
  UsbM.update fun s =>
    { s with
      diskCount := 0
      disks := fun _ => .zero
      cache := fun _ => .zero
      cacheNext := 0
      hubs := fun _ => ⟨.zero, 0, 0, 0⟩
      hubCount := 0 }
  UsbM.note .dropAll
  let s ← UsbM.state
  let found ← UsbM.perform
    (.enumerate s.enumerationGeneration)
  UsbM.update fun s =>
    { s with
      kind := found.kind
      dead := found.dead
      disks := fun disk =>
        (found.disks[disk.toNat]?).elim .zero
          (registered s.enumerationGeneration)
      diskCount := found.disks.length
      hubs := fun hub =>
        (found.hubs[hub]?).elim ⟨.zero, 0, 0, 0⟩
          (registeredHub s.enumerationGeneration)
      hubCount := found.hubs.length }

/- `usb_sectors`. -/
def usbSectors (disk : Int) : UsbM UInt32 := do
  let s ← UsbM.state
  if disk < 0 ∨ s.diskCount ≤ disk then
    return 0
  else do
  let current :=
    (s.disks disk).generation = s.enumerationGeneration
  let live ← if current then
      usbRouteCheck disk false
    else
      pure false
  if live then
    let s ← UsbM.state
    return (s.disks disk).sectors
  else do
    forbid disk
    invalidate disk
    return 0

/- `usb_generation`. -/
def usbGeneration (disk : Int) : UsbM UInt32 := do
  if (← usbSectors disk) ≠ 0 then
    let s ← UsbM.state
    return (s.disks disk).generation
  else
    return 0

--
-- Reading
--

/- The first valid cache entry of a sector. -/
def cacheHit
    (s : UsbState)
    (disk : Int)
    (lba : UInt32) : Option (Fin 32) :=
  (List.finRange 32).find? fun i =>
    (s.cache i).valid && (s.cache i).disk = disk &&
      (s.cache i).lba = lba

/- The slot that the cache replaces next. -/
def cacheSlot (next : UInt32) : Fin 32 :=
  ⟨(next % 32).toNat, by
    rw [UInt32.toNat_mod]
    exact Nat.mod_lt _ (by decide)⟩

/- The rounds that put what was read into the cache. -/
def cacheFill
    (disk : Int)
    (lba : UInt32)
    (data : Buf) :
    (left i : Nat) → UsbM Unit
  | 0, _ => return
  | left + 1, i => do
      UsbM.update fun s =>
        { s with
          cacheNext := s.cacheNext + 1
          cache := Function.update s.cache
            (cacheSlot s.cacheNext)
            { data := (data.drop (i * 512)).toSector
              lba := lba + .ofNat i
              disk := disk
              valid := true } }
      cacheFill disk lba data left (i + 1)

/- The route is polled, unless it was already. -/
def liveUnless
    (checked : Bool)
    (disk : Int) : UsbM Bool :=
  if checked then
    return true
  else
    usbRouteLive disk

/-
  The rounds of `usb_read`: `off` is where the buffer
  pointer has got to, and `cached` whether the route was
  checked for the entries of the cache in use.
-/
def usbReadFrom
    (disk : Int) :
    (left : Nat) → (lba : UInt32) → (count : Nat) →
      (off : Nat) → (buf : Buf) → (cached : Bool) →
      UsbM (Int × Buf)
  | 0, _, _, _, buf, cached => finish buf cached
  | left + 1, lba, count, off, buf, cached =>
      if count = 0 then finish buf cached else do
      let s ← UsbM.state
      match cacheHit s disk lba with
      | some hit => do
          if !(← liveUnless cached disk) then
            invalidate disk
            return (-1, buf)
          else do
            let s ← UsbM.state
            usbReadFrom disk left (lba + 1) (count - 1)
              (off + 512)
              (buf.copy off (s.cache hit).data.toBuf 512)
              true
      | none => do
          let n := if 8 < count then 8 else count
          let (result, data) ← command disk
            (cdb10 0x28 lba (.ofNat n)) .zero (n * 512)
          let buf := buf.copy off data (n * 512)
          if result ≠ (n * 512 : Nat) then
            forbid disk
            invalidate disk
            return (-1, buf)
          else do
            cacheFill disk lba data n 0
            usbReadFrom disk left (lba + .ofNat n)
              (count - n) (off + n * 512) buf false
where
  finish (buf : Buf) (cached : Bool) :
      UsbM (Int × Buf) := do
    if !(← liveUnless (!cached) disk) then
      invalidate disk
      return (-1, buf)
    else
      return (0, buf)

/- `usb_read`. -/
def usbRead
    (disk : Int)
    (lba : UInt32)
    (count : UInt8)
    (buf : Option Buf) : UsbM (Int × Buf) := do
  let sectors ← usbSectors disk
  let out := buf.getD .zero
  if buf = none ∨ count = 0 ∨ sectors ≤ lba ∨
      sectors - lba < count.toUInt32 then
    return (-1, out)
  else
    usbReadFrom disk count.toNat lba count.toNat 0 out false

/- `usb_fat_revoke`. -/
def usbFatRevoke (disk : Int) : UsbM Unit := do
  let s ← UsbM.state
  if 0 ≤ disk ∧ disk < s.diskCount then
    forbid disk
    UsbM.note (.drop disk)
  else
    return

/- `usb_fat_authorize`. -/
def usbFatAuthorize
    (disk : Int)
    (start count generation : UInt32) : UsbM Int := do
  usbFatRevoke disk
  let sectors ← usbSectors disk
  if generation = 0 then return -1 else do
  if generation ≠ (← usbGeneration disk) then
    return -1
  else do
  if !(← usbRouteLive disk) then return -1 else do
  if count = 0 ∨ sectors ≤ start ∨
      sectors - start < count then
    return -1
  else do
    UsbM.update fun s => s.setDisk disk fun d =>
      { d with
        writeStart := start
        writeCount := count
        writeAllowed := true }
    UsbM.note (.grant disk ⟨start.toNat, count.toNat⟩)
    return 0

--
-- Writing
--

/- `in_range`. -/
def inRange (lba count start n : UInt32) : Bool :=
  start ≤ lba ∧ lba - start < n ∧
    count ≤ n - (lba - start)

/- The rounds of `usb_write`. -/
def usbWriteFrom
    (disk : Int) :
    (left : Nat) → (lba : UInt32) → (count : Nat) →
      (buf : Buf) → UsbM Int
  | 0, _, _, _ => return 0
  | left + 1, lba, count, buf =>
      if count = 0 then return 0 else do
      let n := if 8 < count then 8 else count
      let (result, _) ← commandDir disk
        (cdb10 0x2A lba (.ofNat n)) false buf (n * 512)
      if result ≠ (n * 512 : Nat) then
        writeFailed disk
      else
        usbWriteFrom disk left (lba + .ofNat n) (count - n)
          (buf.drop (n * 512))

/- `usb_write`. -/
def usbWrite
    (disk : Int)
    (lba : UInt32)
    (count : UInt8)
    (buf : Option Buf) : UsbM Int := do
  let sectors ← usbSectors disk
  match buf with
  | none => return -1
  | some buf =>
      if count = 0 ∨ sectors ≤ lba ∨
          sectors - lba < count.toUInt32 then
        return -1
      else do
      let s ← UsbM.state
      let d := s.disks disk
      let allowed := inRange lba count.toUInt32
        d.writeStart d.writeCount
      if !d.writeAllowed ∨ !allowed then
        return -1
      else do
        invalidate disk
        usbWriteFrom disk count.toNat lba count.toNat buf

/- `usb_sync`. -/
def usbSync (disk : Int) : UsbM Int := do
  let sectors ← usbSectors disk
  let s ← UsbM.state
  if sectors = 0 ∨ !(s.disks disk).writeAllowed then
    return -1
  else do
    let (result, _) ← commandDir disk
      [0x35, 0, 0, 0, 0, 0, 0, 0, 0, 0] false .zero 0
    if result ≠ 0 then
      writeFailed disk
    else
      return 0

/- The calls into the driver. -/
inductive UsbCall where
  | sectors (disk : Int)
  | generation (disk : Int)
  | read
      (disk : Int)
      (lba : UInt32)
      (count : UInt8)
      (buf : Option Buf)
  | write
      (disk : Int)
      (lba : UInt32)
      (count : UInt8)
      (buf : Option Buf)
  | sync (disk : Int)
  | authorize
      (disk : Int)
      (start count generation : UInt32)
  | revoke (disk : Int)
  | rescan

namespace UsbCall

/- A call, without what it returns. -/
def program : UsbCall → UsbM Unit
  | .sectors disk => do
      let _ ← usbSectors disk
      return
  | .generation disk => do
      let _ ← usbGeneration disk
      return
  | .read disk lba count buf => do
      let _ ← usbRead disk lba count buf
      return
  | .write disk lba count buf => do
      let _ ← usbWrite disk lba count buf
      return
  | .sync disk => do
      let _ ← usbSync disk
      return
  | .authorize disk start count gen => do
      let _ ← usbFatAuthorize disk start count gen
      return
  | .revoke disk => usbFatRevoke disk
  | .rescan => usbRescan

end UsbCall

end KvantOS.Usb
