import KvantOS.Data.PageTree

/-
  This file models the kernel's page tables: the tables of
  the start, the walk that grows and splits them, and the
  calls that map pages, ranges and device registers, on both
  builds.  `wide` stands for the 64-bit build.

  Tables are aligned to 4096 bytes and do not overlap, so
  memory is held by table.  The code reads and writes a table
  as the array at its address.  The bits that the processor
  sets when it uses an entry are left out.

  Key definitions include:
    * `Image`, `PagingState`, `pagingInit`
    * `walk`, `pagingMap`, `pagingPhys`
    * `pagingMapRange`, `pagingMapMmio`
-/

namespace KvantOS.PageTables

open Paging

--
-- The State
--

/- The address of row `t` of `page_tables`. -/
def rowAt (pageTables t : Nat) : Nat :=
  pageTables + 4096 * t

/- Where the linker put the static tables of a build. -/
structure Image where
  pml4 : Nat
  pdpt : Nat
  pd : Nat
  pt0 : Nat
  pageDirectory : Nat
  pageTables : Nat
  aligned64 : ∀ t ∈ [pml4, pdpt, pd, pt0],
    4096 ∣ t ∧ t < 2 ^ 32
  apart64 : [pml4, pdpt, pd, pt0].Nodup
  aligned32 : 4096 ∣ pageDirectory ∧ 4096 ∣ pageTables
  below32 : pageDirectory < 2 ^ 32 ∧
    pageTables + 4096 * 32 ≤ 2 ^ 32
  apart32 : ∀ t, t < 32 → pageDirectory ≠ rowAt pageTables t

/- The first table. -/
def Image.root (img : Image) (wide : Bool) : Nat :=
  if wide then img.pml4 else img.pageDirectory

/- The static tables of a build. -/
def Image.tables (img : Image) (wide : Bool) : List Nat :=
  if wide then
    [img.pml4, img.pdpt, img.pd, img.pt0]
  else
    img.pageDirectory ::
      (List.range 32).map (rowAt img.pageTables)

/-
  The tables in memory, and what the frame allocator will
  return.  It returns 0 when there is no frame.
-/
structure PagingState where
  mem : Nat → Buf
  supply : List Nat

def pmmAllocFrame (s : PagingState) : Nat × PagingState :=
  match s.supply with
  | [] => (0, s)
  | frame :: rest => (frame, { s with supply := rest })

/- `~0xFFF` in 64 and in 32 bits. -/
def frameMask (wide : Bool) : Nat :=
  if wide then 2 ^ 64 - 2 ^ 12 else 2 ^ 32 - 2 ^ 12

--
-- The Start
--

/- Static arrays start as zeros. -/
def bss
    (mem : Nat → Buf)
    (tables : List Nat) : Nat → Buf :=
  fun t => if t ∈ tables then Buf.zero else mem t

/-
  Pages of 4096 bytes for the first 2 MiB but page zero, and
  pages of 2 MiB up to 128 MiB.
-/
def pagingInit64
    (img : Image)
    (mem : Nat → Buf) : Nat → Buf :=
  let mem := storeAll true mem img.pt0 (List.range' 1 511)
    (fun i => (i <<< 12) ||| present ||| writable)
  let mem := store true mem img.pt0 0 0
  let mem := storeAll true mem img.pd (List.range' 1 63)
    (fun i => (i <<< 21) ||| present ||| writable ||| large)
  let mem := store true mem img.pd 0
    (img.pt0 ||| present ||| writable)
  let mem := store true mem img.pdpt 0
    (img.pd ||| present ||| writable)
  store true mem img.pml4 0
    (img.pdpt ||| present ||| writable)

/- One row of `page_tables`, from an address on. -/
def fillRow
    (img : Image)
    (t : Nat)
    (r : (Nat → Buf) × Nat) : (Nat → Buf) × Nat :=
  (List.range 1024).foldl
    (fun r i =>
      (store false r.1 (rowAt img.pageTables t) i
        (r.2 ||| present ||| writable),
        (r.2 + 0x1000) % 2 ^ 32)) r

/- The entry of the directory for a row. -/
def linkRow
    (img : Image)
    (t : Nat)
    (r : (Nat → Buf) × Nat) : (Nat → Buf) × Nat :=
  (store false r.1 img.pageDirectory t
    (rowAt img.pageTables t ||| present ||| writable), r.2)

/- The first `n` rows, and the address that comes next. -/
def fillRows
    (img : Image)
    (mem : Nat → Buf)
    (n : Nat) : (Nat → Buf) × Nat :=
  (List.range n).foldl
    (fun r t => linkRow img t (fillRow img t r)) (mem, 0)

/- Pages of 4096 bytes for 128 MiB but page zero. -/
def pagingInit32
    (img : Image)
    (mem : Nat → Buf) : Nat → Buf :=
  let mem := storeAll false mem img.pageDirectory
    (List.range 1024) (fun _ => writable)
  let mem := (fillRows img mem 32).1
  store false mem (rowAt img.pageTables 0) 0 0

/- `paging_init`, over memory with whatever it holds. -/
def pagingInit
    (wide : Bool)
    (img : Image)
    (mem : Nat → Buf)
    (supply : List Nat) : PagingState where
  mem :=
    if wide then
      pagingInit64 img (bss mem (img.tables true))
    else
      pagingInit32 img (bss mem (img.tables false))
  supply := supply

--
-- The Walk
--

/- The entry is present, or a zeroed table is put there. -/
def growEntry
    (wide alloc : Bool)
    (lvl idx : Nat)
    (s : PagingState) : Bool × PagingState :=
  if has (entry wide (s.mem lvl) idx) present then
    (true, s)
  else if !alloc then
    (false, s)
  else
    let r := pmmAllocFrame s
    if r.1 = 0 then
      (false, r.2)
    else
      let mem := Function.update r.2.mem r.1 Buf.zero
      (true,
        { r.2 with
          mem := store wide mem lvl idx
            (r.1 ||| present ||| writable) })

/- A page of 2 MiB in the way is split into 4 KiB. -/
def splitEntry
    (l lvl idx : Nat)
    (s : PagingState) : Bool × PagingState :=
  let e := entry true (s.mem lvl) idx
  if l == 1 && has e large then
    let r := pmmAllocFrame s
    if r.1 = 0 then
      (false, r.2)
    else
      let base := e &&& (2 ^ 64 - 2 ^ 21)
      let mem := storeAll true r.2.mem r.1 (List.range 512)
        (fun i =>
          (base + (i <<< 12)) ||| present ||| writable)
      (true,
        { r.2 with
          mem := store true mem lvl idx
            (r.1 ||| present ||| writable) })
  else
    (true, s)

/- One level of the walk: the table that comes next. -/
def walkLevel
    (virt : Nat)
    (alloc : Bool)
    (l lvl : Nat)
    (s : PagingState) : Option Nat × PagingState :=
  let idx := (virt >>> (12 + 9 * l)) &&& 0x1FF
  let grown := growEntry true alloc lvl idx s
  if !grown.1 then
    (none, grown.2)
  else
    let split := splitEntry l lvl idx grown.2
    if !split.1 then
      (none, split.2)
    else
      (some (entry true (split.2.mem lvl) idx &&&
        frameMask true), split.2)

def walkFrom
    (virt : Nat)
    (alloc : Bool) :
    (l lvl : Nat) → PagingState →
      Option (Nat × Nat) × PagingState
  | 0, lvl, s => (some (lvl, (virt >>> 12) &&& 0x1FF), s)
  | l + 1, lvl, s =>
      let r := walkLevel virt alloc (l + 1) lvl s
      match r.1 with
      | none => (none, r.2)
      | some next => walkFrom virt alloc l next r.2

/- The entry of a page, by its table and its place there. -/
def walk
    (img : Image)
    (virt : Nat)
    (alloc : Bool)
    (s : PagingState) : Option (Nat × Nat) × PagingState :=
  walkFrom virt alloc 3 img.pml4 s

--
-- Pages
--

/- `rw ? PAGE_RW : 0` -/
def rights (rw : Bool) : Nat :=
  if rw then writable else 0

def pagingMap64
    (img : Image)
    (virt phys : Nat)
    (rw : Bool)
    (s : PagingState) : Int × PagingState :=
  let r := walk img virt true s
  match r.1 with
  | none => (-1, r.2)
  | some (table, i) =>
      (0,
        { r.2 with
          mem := store true r.2.mem table i
            ((phys &&& frameMask false) ||| present |||
              rights rw) })

def pagingMap32
    (img : Image)
    (virt phys : Nat)
    (rw : Bool)
    (s : PagingState) : Int × PagingState :=
  let pdi := virt >>> 22
  let pti := (virt >>> 12) &&& 0x3FF
  let grown := growEntry false true img.pageDirectory pdi s
  if !grown.1 then
    (-1, grown.2)
  else
    let pt :=
      entry false (grown.2.mem img.pageDirectory) pdi &&&
        frameMask false
    (0,
      { grown.2 with
        mem := store false grown.2.mem pt pti
          ((phys &&& frameMask false) ||| present |||
            rights rw) })

def pagingMap
    (wide : Bool)
    (img : Image) :
    (virt phys : Nat) → (rw : Bool) → PagingState →
      Int × PagingState :=
  if wide then pagingMap64 img else pagingMap32 img

def pagingPhys64
    (img : Image)
    (virt : Nat)
    (s : PagingState) : Nat × PagingState :=
  let r := walk img virt false s
  match r.1 with
  | none => (0, r.2)
  | some (table, i) =>
      let e := entry true (r.2.mem table) i
      if !has e present then
        (0, r.2)
      else
        (((e &&& frameMask true) ||| (virt &&& 0xFFF)) %
          2 ^ 32, r.2)

def pagingPhys32
    (img : Image)
    (virt : Nat)
    (s : PagingState) : Nat × PagingState :=
  let pdi := virt >>> 22
  let pti := (virt >>> 12) &&& 0x3FF
  let d := entry false (s.mem img.pageDirectory) pdi
  if !has d present then
    (0, s)
  else
    let e := entry false (s.mem (d &&& frameMask false)) pti
    if !has e present then
      (0, s)
    else
      ((e &&& frameMask false) ||| (virt &&& 0xFFF), s)

def pagingPhys
    (wide : Bool)
    (img : Image) :
    (virt : Nat) → PagingState → Nat × PagingState :=
  if wide then pagingPhys64 img else pagingPhys32 img

--
-- Ranges
--

/- `base & ~0xFFF` and `(base + size + 0xFFF) & ~0xFFF` -/
def rangeStart (base : Nat) : Nat :=
  base &&& frameMask false

def rangeEnd (base size : Nat) : Nat :=
  (base + size + 0xFFF) % 2 ^ 32 &&& frameMask false

/- The loop over the pages; `fuel` bounds its rounds. -/
def mapFrom
    (wide : Bool)
    (img : Image)
    (start stop : Nat)
    (rw : Bool) :
    (fuel a : Nat) → PagingState → Int × PagingState
  | 0, _, s => (0, s)
  | fuel + 1, a, s =>
      if a < stop ∧ start ≤ a then
        let r := pagingMap wide img a a rw s
        if r.1 < 0 then
          (-1, r.2)
        else
          mapFrom wide img start stop rw fuel
            ((a + 0x1000) % 2 ^ 32) r.2
      else
        (0, s)

/- There are 2^20 pages. -/
def pageRounds : Nat :=
  2 ^ 20

def pagingMapRange
    (wide : Bool)
    (img : Image)
    (base size : Nat)
    (rw : Bool)
    (s : PagingState) : Int × PagingState :=
  mapFrom wide img (rangeStart base) (rangeEnd base size) rw
    pageRounds (rangeStart base) s

/- Caching of a page is turned off: PCD and PWT. -/
def uncachePage64
    (img : Image)
    (a : Nat)
    (s : PagingState) : Int × PagingState :=
  let r := walk img a false s
  match r.1 with
  | none => (-1, r.2)
  | some (table, i) =>
      (0,
        { r.2 with
          mem := store true r.2.mem table i
            (entry true (r.2.mem table) i ||| 0x18) })

def uncachePage32
    (img : Image)
    (a : Nat)
    (s : PagingState) : Int × PagingState :=
  let pt :=
    entry false (s.mem img.pageDirectory) (a >>> 22) &&&
      frameMask false
  let i := (a >>> 12) &&& 1023
  (0,
    { s with
      mem := store false s.mem pt i
        (entry false (s.mem pt) i ||| 0x18) })

def uncachePage
    (wide : Bool)
    (img : Image) :
    (a : Nat) → PagingState → Int × PagingState :=
  if wide then uncachePage64 img else uncachePage32 img

def uncacheFrom
    (wide : Bool)
    (img : Image)
    (stop : Nat) :
    (fuel a : Nat) → PagingState → Int × PagingState
  | 0, _, s => (0, s)
  | fuel + 1, a, s =>
      if a < stop then
        let r := uncachePage wide img a s
        if r.1 < 0 then
          (-1, r.2)
        else
          uncacheFrom wide img stop fuel
            ((a + 4096) % 2 ^ 32) r.2
      else
        (0, s)

def pagingMapMmio
    (wide : Bool)
    (img : Image)
    (base size : Nat)
    (s : PagingState) : Int × PagingState :=
  if size = 0 ∨ 0xFFFFF000 ≤ base ∨
      0xFFFFF000 - base < size then
    (-1, s)
  else
    let r := pagingMapRange wide img base size true s
    if r.1 < 0 then
      (-1, r.2)
    else
      uncacheFrom wide img (rangeEnd base size) pageRounds
        (rangeStart base) r.2

end KvantOS.PageTables
