import KvantOS.Program.Stateful
import KvantOS.Data.Paging

/-
  This file models the private address spaces of
  kernel/user_space.c: the tables cloned from the kernel's,
  the frames mapped into the arena of a program, and the
  copies in and out of it.

  Frames come from an allocator and go back to it. The
  history of frames also says when one is taken for a table
  or a page, and what lies in it then.

  Key definitions include:
    * `KuSpace`, `KuWorld`, `KuM`
    * `newFrame`
    * `kuCreate`, `kuRefresh`, `kuDestroy`
    * `kuMap`, `kuPin`, `kuUnpin`
    * `kuCheck`
    * `kuCopyin`, `kuCopyout`, `kuLoad`
-/

namespace KvantOS.User

open Paging

--
-- Spaces
--

/- `KU_BASE`, `KU_SIZE`, `KU_PAGE` and `KU_PAGES`. -/
def kuBase : Nat := 0x00E00000
def kuSize : Nat := 0x00200000
def kuPage : Nat := 4096
def kuPages : Nat := 512

/- `KU_DIRECT_LIMIT`. -/
def kuDirectLimit : Nat := 0x08000000

/- `KU_R`, `KU_W` and `KU_X`. -/
def kuR : Nat := 1
def kuW : Nat := 2
def kuX : Nat := 4

/- What lies in physical memory, by the frame's address. -/
abbrev PhysMem :=
  Nat → Buf

/-
  `ku_space`. The counts of tables and of borrowed frames
  are the lengths of the lists.
-/
structure KuSpace where
  root : Nat
  tables : List Nat
  borrowed : List Nat
  frames : Nat → Nat
  rights : Nat → Nat
  pins : Nat
  live : Bool
  arch64 : Bool
  nx : Bool

/- A zeroed space. -/
def KuSpace.zero : KuSpace where
  root := 0
  tables := []
  borrowed := []
  frames := fun _ => 0
  rights := fun _ => 0
  pins := 0
  live := false
  arch64 := false
  nx := false

/- Table `l`, and borrowed frame `l`. -/
def KuSpace.table
    (s : KuSpace)
    (l : Nat) : Nat :=
  s.tables.getD l 0

def KuSpace.lent
    (s : KuSpace)
    (l : Nat) : Nat :=
  s.borrowed.getD l 0

/- The space and the physical memory. -/
structure KuWorld where
  space : KuSpace
  mem : PhysMem

--
-- The Allocator
--

/- The history of frames. -/
inductive KuEvent where
  | alloc (frame : Nat)
  | take (frame : Nat) (content : Buf)
  | release (frame : Nat) (content : Buf)

/-
  What is asked of the allocator. `take` only adds to the
  history, and a frame goes back with what lies in it.
-/
inductive KuCmd where
  | alloc
  | take (frame : Nat) (content : Buf)
  | release (frame : Nat) (content : Buf)

@[reducible]
def KuCmd.Reply : KuCmd → Type
  | .alloc => Nat
  | .take _ _ => Unit
  | .release _ _ => Unit

/- Programs over the allocator. -/
abbrev KuM :=
  ProgM KuCmd KuCmd.Reply KuWorld

namespace KuM

/- `ops.alloc`. -/
def alloc : KuM Nat :=
  ProgM.perform KuCmd.alloc

/- `ops.release` of a frame as it is. -/
def release (p : Nat) : KuM Unit := do
  let x ← ProgM.state
  ProgM.perform (KuCmd.release p (x.mem p))

/- The frame becomes a table or a page as it is. -/
def take (p : Nat) : KuM Unit := do
  let x ← ProgM.state
  ProgM.perform (KuCmd.take p (x.mem p))

/- Change the space. -/
def setSpace (change : KuSpace → KuSpace) : KuM Unit :=
  ProgM.update (fun x => { x with space := change x.space })

/- Store in a frame. -/
def store
    (p : Nat)
    (change : Buf → Buf) : KuM Unit :=
  ProgM.update (fun x =>
    { x with
      mem := Function.update x.mem p (change (x.mem p)) })

end KuM

open KuM

--
-- Frames
--

/- `valid_frame`. -/
def validFrame (p : Nat) : Bool :=
  p != 0 && p % 4096 == 0 && p < kuDirectLimit

/-
  `direct` finds the frame; `mapped` are the frames for
  which the callback has an address.
-/
def direct
    (mapped : Nat → Bool)
    (p : Nat) : Bool :=
  validFrame p && mapped p

/- `address`. -/
def address (e : Nat) : Nat :=
  let p := frameOf e
  if p < kuDirectLimit then p else 0

/- One of the pages is in the frame. -/
def KuSpace.holds
    (s : KuSpace)
    (p : Nat) : Bool :=
  (List.range kuPages).any (fun i => s.frames i == p)

section Model

variable (mapped : Nat → Bool)

/- `new_frame`; 0 when it fails. -/
def newFrame : KuM Nat := do
  let p ← alloc
  if !validFrame p then
    if p != 0 then
      release p
      pure 0
    else
      pure 0
  else do
    let x ← ProgM.state
    if x.space.borrowed.contains p ||
        x.space.tables.contains p || x.space.holds p then
      pure 0
    else if !direct mapped p then
      release p
      pure 0
    else
      store p (fun _ => Buf.zero)
      pure p

/- `borrow`. -/
def borrow (p : Nat) : KuM Bool := do
  let x ← ProgM.state
  if !direct mapped p || x.space.borrowed.length == 3 ||
      x.space.borrowed.contains p then
    pure false
  else
    setSpace (fun s =>
      { s with borrowed := s.borrowed ++ [p] })
    pure true

/- `table`. -/
def addTable : KuM Bool := do
  let p ← newFrame mapped
  if p == 0 then
    pure false
  else
    take p
    setSpace (fun s => { s with tables := s.tables ++ [p] })
    pure true

/- The loop over `table` in `ku_create`. -/
def addTables : (remaining : Nat) → KuM Bool
  | 0 => pure true
  | remaining + 1 => do
      if ← addTable mapped then
        addTables remaining
      else
        pure false

--
-- Teardown
--

/- A frame is zeroed and goes back. -/
def scrub (p : Nat) : KuM Unit := do
  store p (fun _ => Buf.zero)
  release p

/- The loop of `ku_destroy` over the pages from `i` on. -/
def scrubPages
    (i : Nat) :
    (remaining : Nat) → KuM Unit
  | 0 => pure ()
  | remaining + 1 => do
      let x ← ProgM.state
      if x.space.frames i != 0 then
        scrub (x.space.frames i)
        scrubPages (i + 1) remaining
      else
        scrubPages (i + 1) remaining

/- The loop of `ku_destroy` over the tables. -/
def scrubTables : List Nat → KuM Unit
  | [] => pure ()
  | p :: rest => do
      scrub p
      scrubTables rest

/- `ku_destroy`. -/
def kuDestroy : KuM Int := do
  let x ← ProgM.state
  if x.space.pins != 0 then
    pure (-1)
  else if !x.space.live then
    pure 0
  else do
    scrubPages 0 kuPages
    scrubTables x.space.tables
    setSpace (fun _ => .zero)
    pure 0

--
-- Creating
--

/- The flags of an entry of the private spine. -/
def spineFlags : Nat :=
  present ||| writable ||| user

/- An entry that leads to the next borrowed table. -/
def leadsDown (e : Nat) : Bool :=
  has e present && !has e large

/-
  Borrow the table that an entry of a borrowed table leads
  to.
-/
def borrowNext
    (wide : Bool)
    (p i : Nat) : KuM Bool := do
  let x ← ProgM.state
  let e := entry wide (x.mem p) i
  if !leadsDown e then
    pure false
  else
    borrow mapped (address e)

/- Clone borrowed table `l`, but for some entries. -/
def cloneTable
    (wide : Bool)
    (l : Nat)
    (takes : Nat → Bool) : KuM Unit := do
  let x ← ProgM.state
  store (x.space.table l) (fun dst =>
    cloneEntries wide (x.mem (x.space.lent l)) dst takes)

/- Table `l` leads to table `l + 1` by entry `i`. -/
def link
    (wide : Bool)
    (l i : Nat) : KuM Unit := do
  let x ← ProgM.state
  store (x.space.table l) (fun b =>
    putEntry wide b i
      (mapping (x.space.table (l + 1)) spineFlags))

/- The entry of the arena in the tables of level 1. -/
def arenaIndex (wide : Bool) : Nat :=
  if wide then kuBase / 2 ^ 21 else kuBase / 2 ^ 22

/- The first entry of the arena in its last table. -/
def arenaStart (wide : Bool) : Nat :=
  if wide then 0 else kuBase / 2 ^ 12 % 1024

def allEntries : Nat → Bool :=
  fun _ => true

/- `ku_create` with four levels, after the root. -/
def build64 (kernelRoot : Nat) : KuM Bool := do
  if !(← borrowNext mapped true kernelRoot 0) then
    pure false
  else
    let x ← ProgM.state
    if !(← borrowNext mapped true (x.space.lent 1) 0) then
      pure false
    else if !(← addTables mapped 4) then
      pure false
    else
      cloneTable true 0 allEntries
      cloneTable true 1 allEntries
      cloneTable true 2 allEntries
      link true 0 0
      link true 1 0
      link true 2 (arenaIndex true)
      pure true

/- The end of the cloned table is the arena, still empty. -/
def clearArena : KuM Unit := do
  let x ← ProgM.state
  store (x.space.table 1) (fun b =>
    b.fill (4 * arenaStart false) 0
      (4 * (1024 - arenaStart false)))

/- `ku_create` with two levels, after the root. -/
def build32 (kernelRoot : Nat) : KuM Bool := do
  if !(← borrowNext mapped false kernelRoot
      (arenaIndex false)) then
    pure false
  else if !(← addTables mapped 2) then
    pure false
  else
    cloneTable false 0 allEntries
    cloneTable false 1 allEntries
    clearArena
    link false 0 (arenaIndex false)
    pure true

/- `ku_create`. -/
def kuCreate
    (kernelRoot : Nat)
    (arch64 nx : Int) : KuM Int := do
  let x ← ProgM.state
  if x.space.live || (arch64 != 0 && arch64 != 1) ||
      (nx != 0 && nx != 1) || (nx != 0 && arch64 == 0) then
    pure (-1)
  else
    setSpace (fun _ =>
      { KuSpace.zero with
        live := true
        arch64 := arch64 == 1
        nx := nx == 1 })
    let built ←
      if !(← borrow mapped kernelRoot) then pure false
      else if arch64 == 1 then build64 mapped kernelRoot
      else build32 mapped kernelRoot
    if built then
      setSpace (fun s => { s with root := s.table 0 })
      pure 0
    else
      let _ ← kuDestroy
      pure (-1)

--
-- Refreshing
--

/- Entries of table `l` that are not those of the spine. -/
def besideSpine
    (wide : Bool)
    (l : Nat) : Nat → Bool :=
  if wide then
    fun i => i != (if l == 2 then arenaIndex true else 0)
  else if l == 0 then
    fun i => i != arenaIndex false
  else
    fun i => i < arenaStart false

/- Entry `i` of borrowed table `l` leads to the next one. -/
def spineKept
    (x : KuWorld)
    (wide : Bool)
    (l i : Nat) : Bool :=
  let e := entry wide (x.mem (x.space.lent l)) i
  leadsDown e && address e == x.space.lent (l + 1)

/- The tables that a refresh touches can be accessed. -/
def tablesDirect
    (s : KuSpace)
    (count : Nat) : Bool :=
  (List.range count).all (fun l =>
    direct mapped (s.lent l) && direct mapped (s.table l))

/- `ku_refresh`. -/
def kuRefresh (kernelRoot : Nat) : KuM Int := do
  let x ← ProgM.state
  if !x.space.live || kernelRoot != x.space.lent 0 then
    pure (-1)
  else if x.space.arch64 then
    if x.space.borrowed.length != 3 ||
        x.space.tables.length != 4 ||
        !tablesDirect mapped x.space 3 ||
        !spineKept x true 0 0 || !spineKept x true 1 0 then
      pure (-1)
    else
      cloneTable true 0 (besideSpine true 0)
      cloneTable true 1 (besideSpine true 1)
      cloneTable true 2 (besideSpine true 2)
      pure 0
  else
    if x.space.borrowed.length != 2 ||
        x.space.tables.length != 2 ||
        !tablesDirect mapped x.space 2 ||
        !spineKept x false 0 (arenaIndex false) then
      pure (-1)
    else
      cloneTable false 0 (besideSpine false 0)
      cloneTable false 1 (besideSpine false 1)
      pure 0

--
-- Pins and Pages
--

/- `ku_pin`. -/
def kuPin : KuM Int := do
  let x ← ProgM.state
  if !x.space.live || x.space.pins == 0xFFFFFFFF then
    pure (-1)
  else
    setSpace (fun s => { s with pins := s.pins + 1 })
    pure 0

/- `ku_unpin`. -/
def kuUnpin : KuM Int := do
  let x ← ProgM.state
  if !x.space.live || x.space.pins == 0 then
    pure (-1)
  else
    setSpace (fun s => { s with pins := s.pins - 1 })
    pure 0

/- The flags of a page with some rights. -/
def pageFlags
    (wide nx : Bool)
    (rights : Nat) : Nat :=
  present ||| user ||| (if has rights kuW then writable else 0) |||
    (if wide && nx && !has rights kuX then noExec else 0)

/- The rights of a page: readable, not both W and X. -/
def rightsOk (rights : Nat) : Bool :=
  has rights kuR && rights &&& 0xFFFFFFF8 == 0 &&
    rights &&& (kuW ||| kuX) != kuW ||| kuX

/- The last table of the arena. -/
def KuSpace.arenaTable (s : KuSpace) : Nat :=
  s.table (if s.arch64 then 3 else 1)

/- `ku_map`. -/
def kuMap
    (off rights : Nat) : KuM Int := do
  let x ← ProgM.state
  if !x.space.live || x.space.pins != 0 || off ≥ kuSize ||
      off % 4096 != 0 || !rightsOk rights then
    pure (-1)
  else
    let i := off / 4096
    if x.space.frames i != 0 then
      pure (-1)
    else
      let p ← newFrame mapped
      if p == 0 then
        pure (-1)
      else
        take p
        setSpace (fun s =>
          { s with
            frames := Function.update s.frames i p
            rights := Function.update s.rights i rights })
        store x.space.arenaTable (fun b =>
          putEntry x.space.arch64 b
            (arenaStart x.space.arch64 + i)
            (mapping p
              (pageFlags x.space.arch64 x.space.nx rights)))
        pure 0

--
-- Checks and Copies
--

/-
  One level of `translate`: the frame that the entry leads
  to, or 0. Level 0 is the last one.
-/
def translateStep
    (s : KuSpace)
    (mem : PhysMem)
    (virt rights level frame : Nat) : Nat :=
  if !direct mapped frame then
    0
  else
    let e := entry s.arch64 (mem frame)
      (index s.arch64 level virt)
    if !has e present || !has e user ||
        (has rights kuW && !has e writable) ||
        (s.arch64 && has e noExec &&
          (!s.nx || has rights kuX)) ||
        (level != 0 && has e large) then
      0
    else
      address e

/- The loop of `translate`, from a level down. -/
def translateFrom
    (s : KuSpace)
    (mem : PhysMem)
    (virt rights : Nat) :
    (level frame : Nat) → Nat
  | 0, frame =>
      translateStep mapped s mem virt rights 0 frame
  | level + 1, frame =>
      let next := translateStep mapped s mem virt rights
        (level + 1) frame
      if next == 0 then 0
      else translateFrom s mem virt rights level next

/- `translate`. -/
def translate
    (s : KuSpace)
    (mem : PhysMem)
    (off rights : Nat) : Nat :=
  let frame := translateFrom mapped s mem (kuBase + off)
    rights (topLevel s.arch64) s.root
  if frame == s.frames (off / 4096) &&
      direct mapped frame then frame
  else 0

/- `ku_check`, true for 0. -/
def kuCheck
    (s : KuSpace)
    (mem : PhysMem)
    (off length rights : Nat) : Bool :=
  if !s.live || rights == 0 || rights &&& 0xFFFFFFF8 != 0 ||
      off > kuSize || length > kuSize - off then
    false
  else if length == 0 then
    true
  else
    let first := off / 4096
    let last := (off + length - 1) / 4096
    (List.range (last + 1 - first)).all (fun k =>
      s.rights (first + k) &&& rights == rights &&
        translate mapped s mem ((first + k) * 4096) rights !=
          0)

end Model

/-
  The loop of `copy` from the arena to byte `k` of a buffer,
  at most `fuel` rounds.
-/
def copyFrom
    (s : KuSpace)
    (mem : PhysMem) :
    (fuel off length k : Nat) → Buf → Buf
  | 0, _, _, _, dst => dst
  | fuel + 1, off, length, k, dst =>
      if length == 0 then
        dst
      else
        let inside := off % 4096
        let n := min (kuPage - inside) length
        let user := (mem (s.frames (off / 4096))).drop inside
        copyFrom s mem fuel (off + n) (length - n) (k + n)
          (dst.copy k user n)

/- The loop of `copy` to the arena, at most `fuel` rounds. -/
def copyTo
    (s : KuSpace) :
    (fuel off length : Nat) → Buf → PhysMem → PhysMem
  | 0, _, _, _, mem => mem
  | fuel + 1, off, length, src, mem =>
      if length == 0 then
        mem
      else
        let inside := off % 4096
        let n := min (kuPage - inside) length
        let frame := s.frames (off / 4096)
        copyTo s fuel (off + n) (length - n) (src.drop n)
          (Function.update mem frame
            ((mem frame).copy inside src n))

section Model

variable (mapped : Nat → Bool)

/- `ku_copyin` over a buffer, which is absent for -1. -/
def kuCopyin
    (s : KuSpace)
    (mem : PhysMem)
    (dst : Buf)
    (off length : Nat) : Option Buf :=
  if kuCheck mapped s mem off length kuR then
    some (copyFrom s mem length off length 0 dst)
  else
    none

/- `ku_copyout`: the memory after it, absent for -1. -/
def kuCopyout
    (s : KuSpace)
    (mem : PhysMem)
    (off : Nat)
    (src : Buf)
    (length : Nat) : Option PhysMem :=
  if kuCheck mapped s mem off length (kuR ||| kuW) then
    some (copyTo s length off length src mem)
  else
    none

/- `ku_load`. -/
def kuLoad
    (off : Nat)
    (src : Buf)
    (length : Nat) : KuM Int := do
  let x ← ProgM.state
  if x.space.pins != 0 ||
      !kuCheck mapped x.space x.mem off length kuR then
    pure (-1)
  else
    ProgM.update (fun x =>
      { x with
        mem := copyTo x.space length off length src x.mem })
    pure 0

end Model

end KvantOS.User
