import KvantOS.Usb.Calls

/-
  This file proves the cache of the USB driver coherent: a
  read that succeeds delivers the contents of the disk,
  whatever happened before.

  It also defines a bus on which nothing fails, and runs of
  the driver on it.

  Key definitions include:
    * `working`, `after`

  Key theorems include:
    * `working_possible`, `usbRead_coherent`
-/

namespace KvantOS.Usb

--
-- A Working Bus
--

/- The bytes of a disk from a sector on. -/
def diskBytes
    (sectors : Nat → Sector)
    (lba : Nat) : Buf :=
  fun i => (sectors (lba + i / 512)).toBuf (i % 512)

theorem dataSector_diskBytes
    (sectors : Nat → Sector)
    (lba i : Nat) :
    dataSector (diskBytes sectors lba) i =
      sectors (lba + i) := by
  funext k
  have hDiv : (i * 512 + k) / 512 = i := by omega
  have hMod : (i * 512 + k) % 512 = k := by omega
  change (sectors (lba + (i * 512 + k) / 512)).toBuf
    ((i * 512 + k) % 512) = _
  rw [hDiv, hMod]
  exact dif_pos k.isLt

/- The sectors of a disk once a command was complete. -/
def stored
    (sectors : Nat → Sector)
    (cdb : List UInt8)
    (data : Buf) : Nat → Sector :=
  let e := cdbExtent cdb
  if isWrite cdb then
    fun lba =>
      if e.start ≤ lba ∧ lba < e.stop then
        dataSector data (lba - e.start)
      else
        sectors lba
  else
    sectors

variable {cdb : List UInt8} {data : Buf}
variable {sectors : Nat → Sector}

theorem stored_write
    (hWrite : isWrite cdb = true) :
    stored sectors cdb data = fun lba =>
      if (cdbExtent cdb).start ≤ lba ∧
          lba < (cdbExtent cdb).stop then
        dataSector data (lba - (cdbExtent cdb).start)
      else
        sectors lba :=
  if_pos hWrite

theorem stored_other
    (hOther : isWrite cdb = false) :
    stored sectors cdb data = sectors :=
  if_neg (by rw [hOther]; exact Bool.false_ne_true)

/-
  A bus on which every port and every hub is sound, every
  command is complete, and the same devices are found.
-/
def working (found : Found) :
    (command : UsbCmd) → Bus → UsbCmd.Reply command × Bus
  | .portStatus _ _, b => ((5 : UInt32), b)
  | .hubState _, b => (⟨some 0, false⟩, b)
  | .hubPort _ _, b => (⟨some 0x103, false⟩, b)
  | .bot disk _ cdb _ data size, b =>
      (⟨size, diskBytes (b.media disk) (cdbLba cdb), false⟩,
        ⟨Function.update b.media disk
          (stored (b.media disk) cdb data),
          b.logged disk cdb true⟩)
  | .enumerate _, b => (found, b)
  | .note entry, b => ((), ⟨b.media, entry :: b.log⟩)

theorem carries_working
    (b : Bus)
    (disk : Int)
    (cdb : List UInt8)
    (data : Buf)
    (size : Nat) :
    b.Carries disk cdb data size
      ⟨size, diskBytes (b.media disk) (cdbLba cdb), false⟩
      ⟨Function.update b.media disk
        (stored (b.media disk) cdb data),
        b.logged disk cdb true⟩ where
  fenced _ := rfl
  log := by rw [decide_eq_true rfl]
  others k hNe := Function.update_of_ne hNe ..
  kept hRead :=
    (Function.update_self ..).trans (stored_other hRead)
  wrote hWrite := by
    have hStored : ∀ lba,
        Function.update b.media disk
          (stored (b.media disk) cdb data) disk lba =
        if (cdbExtent cdb).start ≤ lba ∧
            lba < (cdbExtent cdb).stop then
          dataSector data (lba - (cdbExtent cdb).start)
        else
          b.media disk lba := by
      intro lba
      rw [Function.update_self]
      exact congrFun (stored_write hWrite) lba
    refine ⟨?_, ?_⟩
    · intro lba hOut
      exact (hStored lba).trans (if_neg (by omega))
    · intro lba hLow hHigh
      exact .inl ((hStored lba).trans
        (if_pos ⟨hLow, hHigh⟩))
  delivered _ _ i _ := dataSector_diskBytes ..

/- A working bus is one of the possible ones. -/
theorem working_possible
    (found : Found)
    (c : UsbCmd)
    (b : Bus) :
    Bus.answers c b (working found c b).1
      (working found c b).2 := by
  cases c with
  | portStatus hc port => rfl
  | hubState hub => exact ⟨rfl, fun _ => rfl⟩
  | hubPort hub port => exact ⟨rfl, fun _ => rfl⟩
  | bot disk tag cdb input data size =>
      exact carries_working b disk cdb data size
  | enumerate generation => rfl
  | note entry => rfl

/- The states before and after a call on a working bus. -/
def after
    (found : Found)
    (c : UsbCall)
    (x : UsbState × Bus) : UsbState × Bus :=
  let out := (c.program x.1).run (working found) x.2
  (out.1.2, out.2)

theorem reaches_after
    {found : Found}
    {c : UsbCall}
    {x : UsbState × Bus}
    (hReaches : Reaches x.1 x.2) :
    Reaches (after found c x).1 (after found c x).2 :=
  .call c hReaches
    (Prog.returns_possible (working_possible found) _ _)

/- One disk of eight sectors on a root port. -/
def oneDisk : Found where
  kind := fun _ => 0
  dead := fun _ => false
  disks := [⟨0, 7, 1, 1, 0, 0, 0⟩]
  hubs := []

/-
  One disk was found, and its sector 3 was written under a
  lease of its sectors 2 to 5.
-/
def written : UsbState × Bus :=
  after oneDisk (.write 0 3 1 (some fun _ => 7))
    (after oneDisk (.authorize 0 2 4 1)
      (after oneDisk .rescan
        (bootState (fun _ => 0) (fun _ => false),
          ⟨fun _ _ _ => 0, []⟩)))

theorem reaches_written : Reaches written.1 written.2 :=
  reaches_after (reaches_after (reaches_after (.boot ..)))

--
-- Coherence
--

/-
  A read that returns 0 delivers what its sectors contain,
  and leaves every disk as it is.
-/
theorem usbRead_coherent
    {s s' : UsbState}
    {b b' : Bus}
    (hReaches : Reaches s b)
    {disk : Int}
    {lba : UInt32}
    {count : UInt8}
    {buf : Option Buf}
    {out : Int × Buf}
    (hReturns : Prog.Returns Bus.answers
      (usbRead disk lba count buf s) b (out, s') b')
    (hDone : out.1 = 0) :
    b'.media = b.media ∧ ∀ i, i < count.toNat →
      dataSector out.2 i =
        b'.media disk (lba.toNat + i) := by
  have hSpec := usbRead_spec hReaches.inv disk lba count buf
  have hDelivered := hSpec.returns hReturns
  rw [hDelivered.media]
  exact ⟨rfl, hDelivered.data hDone⟩

/- Sectors 2 to 4 after sector 3 was written. -/
def readBack : ((Int × Buf) × UsbState) × Bus :=
  (usbRead 0 2 3 (some .zero) written.1).run
    (working oneDisk) written.2

theorem readBack_done : readBack.1.1.1 = 0 := by
  decide +kernel

theorem returns_readBack :
    Prog.Returns Bus.answers
      (usbRead 0 2 3 (some .zero) written.1) written.2
      readBack.1 readBack.2 :=
  Prog.returns_possible (working_possible oneDisk) _ _

theorem usbRead_coherent_readBack :
    readBack.2.media = written.2.media ∧
      ∀ i, i < (3 : UInt8).toNat →
        dataSector readBack.1.1.2 i =
          readBack.2.media 0 ((2 : UInt32).toNat + i) := by
  have hReturns := returns_readBack
  have hDone := readBack_done
  generalize readBack = r at hReturns hDone ⊢
  rcases r with ⟨⟨out, s'⟩, b'⟩
  exact usbRead_coherent reaches_written hReturns hDone

end KvantOS.Usb
