import KvantOS.Block.Bytes

/-
  This file models the part of `kernel/partition.c` that
  scans a disk with a GUID partition table.

  The drivers that `try_mount` asks are parameters that may
  change the disk inside the partition they are given. The
  status line and the read-only flag of a mounted volume are
  left out. What the scan sees in each slot is written down
  as it goes.

  Key definitions include:
    * `BlkDisk`, `Media`, `Drivers`
    * `gptCrc`, `gptTable`, `tryMount`
    * `scanGpt`
-/

namespace KvantOS.Partition

/-
  A disk of the block layer: its number, how many blocks it
  has, and which of the reads asked of it fail.
-/
structure BlkDisk where
  disk : Nat
  sectors : Nat
  fails : Nat → Bool
  fits : sectors < 2 ^ 32

/- What the blocks hold, and how many reads were asked. -/
structure Media where
  block : Nat → Buf
  reads : Nat

/- The bytes of the blocks from a block on. -/
def Media.byte
    (m : Media)
    (lba : Nat) : Buf :=
  fun i => m.block (lba + i / 512) (i % 512)

/- `disk_read`, with the checks of `blk_read`. -/
def diskRead
    (dev : BlkDisk)
    (lba count : Nat)
    (m : Media) : Option Buf × Media :=
  let after := { m with reads := m.reads + 1 }
  if count == 0 || lba ≥ dev.sectors ||
      count > dev.sectors - lba || dev.fails m.reads then
    (none, after)
  else
    (some (m.byte lba), after)

--
-- Table
--

/- `gpt_table_t`. -/
structure GptTable where
  first : Nat
  last : Nat
  entries : Nat
  count : Nat
  size : Nat
  deriving DecidableEq

/- A sum of 64 bits. -/
def u64 (n : Nat) : Nat :=
  n % 2 ^ 64

/- A value narrowed to 32 bits. -/
def u32 (n : Nat) : Nat :=
  n % 2 ^ 32

/- One round of the inner loop of `gpt_crc`. -/
def gptCrcBit (crc : UInt32) : UInt32 :=
  (crc >>> 1) ^^^
    (if crc &&& 1 != 0 then 0xEDB88320 else 0)

/- One round of the outer loop of `gpt_crc`. -/
def gptCrcByte
    (crc : UInt32)
    (byte : UInt8) : UInt32 :=
  gptCrcBit^[8] (crc ^^^ byte.toUInt32)

/- `gpt_crc`. -/
def gptCrc
    (crc : UInt32)
    (p : Buf)
    (size : Nat) : UInt32 :=
  (List.range size).foldl
    (fun c i => gptCrcByte c (p i)) crc

/- `"EFI PART"`. -/
def efiPart : Buf :=
  Buf.ofList [0x45, 0x46, 0x49, 0x20, 0x50, 0x41, 0x52, 0x54]

/- The checks of `gpt_table` before the geometry. -/
def gptHeaderOk
    (total loc : Nat)
    (raw : Buf) : Bool :=
  let size := raw.get32 12
  let expected := raw.get32 16
  if !Buf.same raw efiPart 8 then
    false
  else if raw.get32 8 != 0x10000 || size < 92 ||
      size > 512 || raw.get32 20 != 0 then
    false
  else
    let h := raw.fill 16 0 4
    if (gptCrc 0xFFFFFFFF h size ^^^ 0xFFFFFFFF).toNat !=
        expected then
      false
    else
      !(h.get64 24 != loc ||
        h.get64 32 != (if loc == 1 then total - 1 else 1))

/- `bytes` and `sectors`, of an array of slots. -/
def gptBytes
    (count stride : Nat) : Nat :=
  u32 (count * stride)

def gptSectors
    (count stride : Nat) : Nat :=
  (gptBytes count stride + 511) / 512

/- The checks of `gpt_table` on the geometry. -/
def gptGeometryOk
    (total loc first last entries count stride : Nat) :
    Bool :=
  if first < 2 || first > last || last ≥ total - 1 ||
      entries < 2 || entries ≥ total - 1 then
    false
  else if count == 0 || count > 1024 || stride < 128 ||
      stride > 4096 || stride &&& (stride - 1) != 0 then
    false
  else
    let sectors := gptSectors count stride
    if gptBytes count stride > 128 * 1024 then
      false
    else if first < u64 (2 + sectors) ||
        u64 (last + sectors + 2) > total then
      false
    else if sectors > total - 1 - entries then
      false
    else
      !(if loc == 1 then
          decide (u64 (entries + sectors) > first)
        else
          decide (entries ≤ last))

/-
  The loop that takes the CRC of the array, one piece of at
  most 4096 bytes after the other.
-/
def crcLoop
    (dev : BlkDisk)
    (entries bytes : Nat) :
    (pieces done : Nat) → UInt32 → Media →
      Option UInt32 × Media
  | 0, _, crc, m => (some crc, m)
  | pieces + 1, done, crc, m =>
      if done < bytes then
        let n := min (bytes - done) 4096
        match diskRead dev (u32 (u32 entries + done / 512))
            ((n + 511) / 512) m with
        | (none, m) => (none, m)
        | (some sector, m) =>
            crcLoop dev entries bytes pieces (done + n)
              (gptCrc crc sector n) m
      else
        (some crc, m)

/- `gpt_table`. -/
def gptTable
    (dev : BlkDisk)
    (loc : Nat)
    (m : Media) : Option GptTable × Media :=
  let total := dev.sectors
  if total < 68 then (none, m)
  else
    match diskRead dev loc 1 m with
    | (none, m) => (none, m)
    | (some raw, m) =>
        if !gptHeaderOk total loc raw then (none, m)
        else
          let h := raw.fill 16 0 4
          let first := h.get64 40
          let last := h.get64 48
          let entries := h.get64 72
          let count := h.get32 80
          let stride := h.get32 84
          if !gptGeometryOk total loc first last entries
              count stride then
            (none, m)
          else
            let bytes := gptBytes count stride
            match crcLoop dev entries bytes
                ((bytes + 4095) / 4096) 0 0xFFFFFFFF m with
            | (none, m) => (none, m)
            | (some crc, m) =>
                if (crc ^^^ 0xFFFFFFFF).toNat !=
                    h.get32 88 then
                  (none, m)
                else
                  (some ⟨u32 first, u32 last, u32 entries,
                    count, stride⟩, m)

--
-- Mounting
--

/- A driver writes no block outside of its partition. -/
def Inside
    (f : Nat → Nat → Media → Bool × Media) : Prop :=
  ∀ lba count m b, b < lba ∨ lba + count ≤ b →
    (f lba count m).2.block b = m.block b

/- The probes and mounts of the two drivers. -/
structure Drivers where
  fatProbe : Nat → Nat → Media → Bool × Media
  fatMount : String → Nat → Nat → Media → Bool × Media
  ntfsProbe : Nat → Nat → Media → Bool × Media
  ntfsMount : String → Nat → Nat → Media → Bool × Media
  fatProbe_inside : Inside fatProbe
  fatMount_inside : ∀ name, Inside (fatMount name)
  ntfsProbe_inside : Inside ntfsProbe
  ntfsMount_inside : ∀ name, Inside (ntfsMount name)

/- `try_mount`. -/
def tryMount
    (dev : BlkDisk)
    (drv : Drivers)
    (name : String)
    (lba count : Nat)
    (m : Media) : Bool × Media :=
  if count == 0 || lba ≥ dev.sectors ||
      count > dev.sectors - lba then
    (false, m)
  else
    match drv.fatProbe lba count m with
    | (true, m) => drv.fatMount name lba count m
    | (false, m) =>
        match drv.ntfsProbe lba count m with
        | (true, m) => drv.ntfsMount name lba count m
        | (false, m) => (false, m)

/- `volume_name`. -/
def volumeName (disk seq : Nat) : String :=
  let part := if seq == 0 then "" else "p" ++ toString seq
  if 12 ≤ disk && disk < 20 then
    "sata" ++ toString (disk - 12) ++ part
  else if 4 ≤ disk && disk < 12 then
    "usb" ++ toString (disk - 4) ++ part
  else
    "hd" ++ (Char.ofNat (97 + disk)).toString ++
      (if seq == 0 then "" else toString seq)

--
-- Scanning
--

/- A call of `try_mount`. -/
structure MountCall where
  name : String
  lba : Nat
  count : Nat
  deriving DecidableEq

/- A slot as the scan saw it, and the call it led to. -/
structure SlotSeen where
  slot : Nat
  entry : Buf
  call : Option MountCall

/- The variables of the loop of `scan_gpt`. -/
structure ScanState where
  media : Media
  sector : Buf
  loaded : Nat
  mounted : Nat
  seen : List SlotSeen

/- Whether the type of a slot is not zero. -/
def slotUsed (p : Buf) : Bool :=
  (List.range 16).foldl (fun t n => t ||| p n) 0 != 0

/- What a slot makes the loop call. -/
def slotCall
    (dev : BlkDisk)
    (t : GptTable)
    (i : Nat)
    (p : Buf) : Option MountCall :=
  if !slotUsed p then none
  else
    let start := p.get64 32
    let stop := p.get64 40
    if start < t.first || start > stop || stop > t.last then
      none
    else
      some ⟨volumeName dev.disk (i + 1), u32 start,
        u32 (u64 (stop - start + 1))⟩

/- The part of the loop that fills the sector buffer. -/
def loadSlot
    (dev : BlkDisk)
    (t : GptTable)
    (off : Nat)
    (s : ScanState) : Option ScanState × Media :=
  let block := off / 4096
  let lba := u32 (t.entries + block * 8)
  if s.loaded != lba then
    let n := min (gptSectors t.count t.size - block * 8) 8
    match diskRead dev lba n s.media with
    | (none, m) => (none, m)
    | (some p, m) =>
        (some
          { s with
            media := m
            sector := s.sector.copy 0 p (n * 512)
            loaded := lba }, m)
  else
    (some s, s.media)

/- The part of the loop that looks at a loaded slot. -/
def useSlot
    (dev : BlkDisk)
    (drv : Drivers)
    (t : GptTable)
    (i off : Nat)
    (s : ScanState) : ScanState :=
  let p := s.sector.drop (off % 4096)
  let call := slotCall dev t i p
  let seen := s.seen ++ [⟨i, p.take t.size, call⟩]
  match call with
  | none => { s with seen }
  | some c =>
      let r := tryMount dev drv c.name c.lba c.count s.media
      { s with
        media := r.2
        mounted := s.mounted + (if r.1 then 1 else 0)
        seen }

/- The loop of `scan_gpt`, `left` slots before its end. -/
def scanLoop
    (dev : BlkDisk)
    (drv : Drivers)
    (t : GptTable) :
    (left i : Nat) → ScanState → ScanState
  | 0, _, s => s
  | left + 1, i, s =>
      let off := u32 (i * t.size)
      match loadSlot dev t off s with
      | (none, m) => { s with media := m }
      | (some s, _) =>
          scanLoop dev drv t left (i + 1)
            (useSlot dev drv t i off s)

/- The table of a disk: the first copy, or else the last. -/
def findTable
    (dev : BlkDisk)
    (m : Media) : Option GptTable × Media :=
  match gptTable dev 1 m with
  | (some t, m) => (some t, m)
  | (none, m) => gptTable dev (dev.sectors - 1) m

/- `scan_gpt`, from what its static buffer last held. -/
def scanGpt
    (dev : BlkDisk)
    (drv : Drivers)
    (held : Buf)
    (m : Media) : ScanState :=
  let idle (m : Media) : ScanState :=
    ⟨m, held, 0xFFFFFFFF, 0, []⟩
  if dev.sectors < 68 then idle m
  else
    match findTable dev m with
    | (none, m) => idle m
    | (some t, m) => scanLoop dev drv t t.count 0 (idle m)

end KvantOS.Partition
