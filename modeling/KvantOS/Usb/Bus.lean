import KvantOS.Usb.Model

/-
  This file gives the bus a meaning: the contents of every
  disk, which change by completed or failed writes only, and
  the history of write leases.

  Key definitions include:
    * `Bus`, `Bus.answers`, `Wrote`

  Key theorems include:
    * `cdbLba_cdb10`, `spec_bot`, `spec_note`
-/

namespace KvantOS.Usb

--
-- Commands on the Wire
--

/- The sector that a command names, big-endian. -/
def cdbLba (cdb : List UInt8) : Nat :=
  (cdb.getD 2 0).toNat * 2 ^ 24 +
    (cdb.getD 3 0).toNat * 2 ^ 16 +
    (cdb.getD 4 0).toNat * 2 ^ 8 + (cdb.getD 5 0).toNat

/- The number of sectors that a command names. -/
def cdbCount (cdb : List UInt8) : Nat :=
  (cdb.getD 7 0).toNat * 2 ^ 8 + (cdb.getD 8 0).toNat

/- The sectors that a command names. -/
def cdbExtent (cdb : List UInt8) : Extent where
  start := cdbLba cdb
  length := cdbCount cdb

/- The command is READ(10). -/
def isRead (cdb : List UInt8) : Bool :=
  cdb.getD 0 0 = 0x28

/- The command is WRITE(10). -/
def isWrite (cdb : List UInt8) : Bool :=
  cdb.getD 0 0 = 0x2A

theorem cdbLba_cdb10
    (opcode count : UInt8)
    (lba : UInt32) :
    cdbLba (cdb10 opcode lba count) = lba.toNat := by
  have hByte : ∀ k : UInt32, k.toNat < 32 →
      (lba >>> k).toUInt8.toNat =
        lba.toNat / 2 ^ k.toNat % 256 := by
    intro k hk
    rw [UInt32.toNat_toUInt8, UInt32.toNat_shiftRight,
      Nat.mod_eq_of_lt hk, Nat.shiftRight_eq_div_pow]
  have hLt := lba.toNat_lt
  have h3 := hByte 24 (by decide)
  have h2 := hByte 16 (by decide)
  have h1 := hByte 8 (by decide)
  have h0 : lba.toUInt8.toNat = lba.toNat % 256 :=
    UInt32.toNat_toUInt8 lba
  change (lba >>> 24).toUInt8.toNat * 2 ^ 24 +
    (lba >>> 16).toUInt8.toNat * 2 ^ 16 +
    (lba >>> 8).toUInt8.toNat * 2 ^ 8 +
    lba.toUInt8.toNat = lba.toNat
  rw [h3, h2, h1, h0]
  change lba.toNat / 2 ^ 24 % 256 * 2 ^ 24 +
    lba.toNat / 2 ^ 16 % 256 * 2 ^ 16 +
    lba.toNat / 2 ^ 8 % 256 * 2 ^ 8 + lba.toNat % 256 = _
  omega

theorem cdbCount_cdb10
    (opcode count : UInt8)
    (lba : UInt32) :
    cdbCount (cdb10 opcode lba count) = count.toNat := by
  change (0 : UInt8).toNat * 2 ^ 8 + count.toNat = _
  simp

--
-- The Environment
--

/- The sectors of every disk, and the history of leases. -/
structure Bus where
  media : Int → Nat → Sector
  log : List (Lease.Entry Int)

/- Sector `i` of the bytes of a transfer. -/
def dataSector
    (data : Buf)
    (i : Nat) : Sector :=
  (data.drop (i * 512)).toSector

/-
  What a write leaves on a disk: its data, where it failed
  in some of its sectors only.
-/
structure Wrote
    (before after : Nat → Sector)
    (e : Extent)
    (data : Buf)
    (complete : Bool) : Prop where
  outside : ∀ lba, lba < e.start ∨ e.stop ≤ lba →
    after lba = before lba
  inside : ∀ lba, e.start ≤ lba → lba < e.stop →
    after lba = dataSector data (lba - e.start) ∨
      complete = false ∧ after lba = before lba

namespace Bus

/- The history once a command was carried out. -/
def logged
    (b : Bus)
    (disk : Int)
    (cdb : List UInt8)
    (complete : Bool) : List (Lease.Entry Int) :=
  let log :=
    if isWrite cdb then
      .use disk (cdbExtent cdb) :: b.log
    else
      b.log
  if complete then log else .drop disk :: log

/-
  How a command on a disk may go. It is complete when it
  moved every byte; a command that is complete leaves its
  controller alone.
-/
structure Carries
    (b : Bus)
    (disk : Int)
    (cdb : List UInt8)
    (data : Buf)
    (size : Nat)
    (reply : BotReply)
    (b' : Bus) : Prop where
  fenced : reply.result = size → reply.fenced = false
  log : b'.log =
    b.logged disk cdb (decide (reply.result = size))
  others : ∀ k, k ≠ disk → b'.media k = b.media k
  kept : isWrite cdb = false →
    b'.media disk = b.media disk
  wrote : isWrite cdb = true →
    Wrote (b.media disk) (b'.media disk) (cdbExtent cdb)
      data (decide (reply.result = size))
  delivered : isRead cdb = true → reply.result = size →
    ∀ i, i < cdbCount cdb →
      dataSector reply.data i =
        b.media disk (cdbLba cdb + i)

/-
  The bus: any port, hub or command may fail at any time.
  Enumeration may find other disks under the old numbers.
-/
def answers : Handler UsbCmd UsbCmd.Reply Bus
  | .portStatus _ _, b, _, b' => b' = b
  | .hubState _, b, reply, b' =>
      b' = b ∧ (reply.status.isSome → reply.fenced = false)
  | .hubPort _ _, b, reply, b' =>
      b' = b ∧ (reply.status.isSome → reply.fenced = false)
  | .bot disk _ cdb _ data size, b, reply, b' =>
      b.Carries disk cdb data size reply b'
  | .enumerate _, b, _, b' => b'.log = b.log
  | .note entry, b, _, b' =>
      b' = { b with log := entry :: b.log }

end Bus

--
-- Rules
--

/- The history is lawful at every moment of a run. -/
def Safe (b : Bus) : Prop :=
  Lease.Lawful b.log

/- A specification over the bus. -/
abbrev UsbSpec
    {α : Type}
    (m : UsbM α)
    (post : α → UsbState → Bus → Prop)
    (s : UsbState)
    (b : Bus) : Prop :=
  ProgM.Spec Bus.answers Safe m post s b

section Rules

variable {α : Type} {s : UsbState} {b : Bus}
variable {post : α → UsbState → Bus → Prop}

theorem spec_state
    {f : UsbState → UsbM α}
    (hNext : UsbSpec (f s) post s b) :
    UsbSpec (UsbM.state >>= f) post s b :=
  hNext

theorem spec_update
    {change : UsbState → UsbState}
    {f : Unit → UsbM α}
    (hNext : UsbSpec (f ()) post (change s) b) :
    UsbSpec (UsbM.update change >>= f) post s b :=
  hNext

theorem spec_portStatus
    {hc port : Nat}
    {f : UInt32 → UsbM α}
    (hSafe : Safe b)
    (hNext : ∀ status, UsbSpec (f status) post s b) :
    UsbSpec (UsbM.portStatus hc port >>= f) post s b := by
  apply ProgM.spec_perform hSafe
  rintro status b' rfl
  exact hNext status

theorem spec_note
    {entry : Lease.Entry Int}
    {f : Unit → UsbM α}
    (hSafe : Safe b)
    (hNext : UsbSpec (f ()) post s
      { b with log := entry :: b.log }) :
    UsbSpec (UsbM.note entry >>= f) post s b := by
  apply ProgM.spec_perform hSafe
  rintro reply b' rfl
  exact hNext

/- Fencing nothing changes nothing. -/
theorem fence_false
    (s : UsbState)
    (hc : Nat) :
    s.fence hc false = s := by
  unfold UsbState.fence
  rw [Bool.or_false, Function.update_eq_self]

/-
  A hub answers and nothing changed, or it does not answer
  and its controller may be fenced.
-/
theorem spec_hubState
    {hub : Nat}
    {f : Option UInt32 → UsbM α}
    (hSafe : Safe b)
    (hAnswer : ∀ status, UsbSpec (f (some status)) post s b)
    (hFail : ∀ fenced, UsbSpec (f none) post
      (s.fence (s.hubs hub).dev.hc fenced) b) :
    UsbSpec (UsbM.hubState hub >>= f) post s b := by
  refine And.intro hSafe ?_
  rintro ⟨status, fenced⟩ b' ⟨rfl, hFenced⟩
  cases status with
  | none => exact hFail fenced
  | some status =>
      have hNo : fenced = false := hFenced rfl
      subst hNo
      have hNext := hAnswer status
      rw [← fence_false s (s.hubs hub).dev.hc] at hNext
      exact hNext

theorem spec_hubPort
    {hub port : Nat}
    {f : Option UInt32 → UsbM α}
    (hSafe : Safe b)
    (hAnswer : ∀ status, UsbSpec (f (some status)) post s b)
    (hFail : ∀ fenced, UsbSpec (f none) post
      (s.fence (s.hubs hub).dev.hc fenced) b) :
    UsbSpec (UsbM.hubPort hub port >>= f) post s b := by
  refine And.intro hSafe ?_
  rintro ⟨status, fenced⟩ b' ⟨rfl, hFenced⟩
  cases status with
  | none => exact hFail fenced
  | some status =>
      have hNo : fenced = false := hFenced rfl
      subst hNo
      have hNext := hAnswer status
      rw [← fence_false s (s.hubs hub).dev.hc] at hNext
      exact hNext

/- A command is carried out in some way that it may go. -/
theorem spec_bot
    {disk : Int}
    {cdb : List UInt8}
    {input : Bool}
    {data : Buf}
    {size : Nat}
    {f : Int × Buf → UsbM α}
    (hSafe : Safe b)
    (hNext : ∀ reply b',
      b.Carries disk cdb data size reply b' →
      UsbSpec (f (reply.result, reply.data)) post
        ({ s with nextTag := s.nextTag + 1 }.fence
          (s.disks disk).hc reply.fenced) b') :
    UsbSpec (UsbM.bot disk cdb input data size >>= f)
      post s b := by
  refine And.intro hSafe ?_
  intro reply b' hCarries
  exact hNext reply b' hCarries

end Rules

end KvantOS.Usb
