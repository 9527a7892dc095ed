import KvantOS.Block.Bytes
import KvantOS.Data.Word

/-
  This file models the kernel heap of the source file
  `heap.c`: a list of blocks, each behind a header kept in
  the arena itself.

  Key definitions include:
    * `Field`, `sizeofBlock`
    * `get`, `set`
    * `HeapState`, `heapInit`
    * `split`, `kmalloc`, `kcalloc`, `kstrdup`
    * `merge`, `kfree`, `heapStats`
-/

namespace KvantOS.Heap

/- The build: 64-bit words when `wide`, else 32-bit ones. -/
variable (wide : Bool)

--
-- Headers
--

/- `MAGIC_USED` and `MAGIC_FREE`. -/
def magicUsed : Nat := 0xC0FFEE01
def magicFree : Nat := 0xC0FFEE02

/- Bits of a pointer or a `size_t`. -/
def wordBits : Nat :=
  if wide then 64 else 32

/- The fields of `block_t`. -/
inductive Field where
  | magic
  | size
  | next
  | prev
  | free
  deriving DecidableEq

/- Where a field stands in a header. -/
def Field.offset : Field → Nat
  | magic => 0
  | size => 4
  | next => 8
  | prev => 8 + wordBits wide / 8
  | free => 8 + 2 * (wordBits wide / 8)

/- The links are pointers, the other fields 32-bit. -/
def Field.link : Field → Bool
  | next | prev => true
  | _ => false

/-
  `sizeof(block_t)`: on the 64-bit build four bytes pad the
  header to the alignment of its links.
-/
def sizeofBlock : Nat :=
  if wide then 32 else 20

/- `b->f`. -/
def get
    (m : Buf)
    (b : Nat)
    (f : Field) : Nat :=
  if wide && f.link then
    m.get64 (b + f.offset wide)
  else
    m.get32 (b + f.offset wide)

/- `b->f = value`. -/
def set
    (m : Buf)
    (b : Nat)
    (f : Field)
    (value : Nat) : Buf :=
  if wide && f.link then
    m.put64 (b + f.offset wide) value
  else
    m.put32 (b + f.offset wide) value

--
-- The Heap
--

/- The memory and the variables of the allocator. -/
structure HeapState where
  mem : Buf
  head : Nat
  heapTotal : Nat
  heapUsed : Nat
  heapStart : Nat
  heapEnd : Nat

def heapInit
    (m : Buf)
    (start size : Nat) : HeapState where
  mem :=
    let m := set wide m start .magic magicFree
    let m := set wide m start .size
      (Word.sub (wordBits wide) size (sizeofBlock wide))
    let m := set wide m start .next 0
    let m := set wide m start .prev 0
    set wide m start .free 1
  head := start
  heapTotal := size
  heapUsed := sizeofBlock wide
  heapStart := start
  heapEnd := (start + size) % 2 ^ 32

/- `if (n) n->prev = p;` -/
def relink
    (m : Buf)
    (n p : Nat) : Buf :=
  if n = 0 then m else set wide m n .prev p

/- The rest of a block gets a header of its own. -/
def split
    (h : HeapState)
    (b size : Nat) : HeapState :=
  if get wide h.mem b .size <
      (size + sizeofBlock wide + 16) % 2 ^ wordBits wide then
    h
  else
    let n := b + sizeofBlock wide + size
    let m := set wide h.mem n .magic magicFree
    let m := set wide m n .size
      (Word.sub (wordBits wide)
        (Word.sub 32 (get wide m b .size) size)
        (sizeofBlock wide))
    let m := set wide m n .free 1
    let m := set wide m n .next (get wide m b .next)
    let m := set wide m n .prev b
    let m := relink wide m (get wide m b .next) n
    let m := set wide m b .next n
    let m := set wide m b .size size
    { h with
      mem := m
      heapUsed := (h.heapUsed + sizeofBlock wide) % 2 ^ 32 }

/- `ALIGN8` of a request that cannot overflow. -/
def align8 (x : Nat) : Nat :=
  (x + 7) &&& 0xFFFFFFF8

/- The block is handed out, and its pointer returned. -/
def handOut
    (h : HeapState)
    (b size : Nat) : HeapState × Nat :=
  let h := split wide h b size
  let m := set wide h.mem b .free 0
  let m := set wide m b .magic magicUsed
  ({ h with
      mem := m
      heapUsed := (h.heapUsed + get wide m b .size) % 2 ^ 32 },
    b + sizeofBlock wide)

/-
  The search of `kmalloc` from a block on; `none` when the
  list does not end within `fuel` blocks.
-/
def search : Nat → HeapState → Nat → Nat → Option (HeapState × Nat)
  | 0, _, _, _ => none
  | fuel + 1, h, b, size =>
      if b = 0 then
        some (h, 0)
      else if get wide h.mem b .free ≠ 0 ∧
          size ≤ get wide h.mem b .size then
        some (handOut wide h b size)
      else
        search fuel h (get wide h.mem b .next) size

/- Blocks that the arena has room for, and one more. -/
def HeapState.fuel (h : HeapState) : Nat :=
  h.heapTotal + 1

/- The pointer is null when the request is refused. -/
def kmalloc
    (h : HeapState)
    (size : Nat) : Option (HeapState × Nat) :=
  if size = 0 ∨ 0xFFFFFFF0 < size then
    some (h, 0)
  else if h.heapTotal < align8 size then
    some (h, 0)
  else
    search wide h.fuel h h.head (align8 size)

def kcalloc
    (h : HeapState)
    (n size : Nat) : Option (HeapState × Nat) :=
  if n ≠ 0 ∧ size ≠ 0 ∧ 0xFFFFFFFF / size < n then
    some (h, 0)
  else do
    let total := n * size % 2 ^ wordBits wide
    let (h, p) ← kmalloc wide h total
    if p = 0 then
      some (h, 0)
    else
      some ({ h with mem := h.mem.fill p 0 total }, p)

/- The length of the string at `s`, within `fuel` bytes. -/
def strlen : Nat → Buf → Nat → Option Nat
  | 0, _, _ => none
  | fuel + 1, m, s =>
      if m s = 0 then
        some 0
      else
        (strlen fuel m (s + 1)).map (· + 1)

def kstrdup
    (h : HeapState)
    (s : Nat) : Option (HeapState × Nat) := do
  let length ← strlen (2 ^ 32) h.mem s
  let n := (length + 1) % 2 ^ wordBits wide
  let (h, d) ← kmalloc wide h n
  if d = 0 then
    some (h, 0)
  else
    some ({ h with mem := h.mem.copy d (h.mem.drop s) n }, d)

/- The free blocks after `b` become part of it. -/
def merge : Nat → HeapState → Nat → Option HeapState
  | 0, _, _ => none
  | fuel + 1, h, b =>
      let n := get wide h.mem b .next
      if n ≠ 0 ∧ get wide h.mem n .free ≠ 0 then
        let m := set wide h.mem b .size
          (get wide h.mem b .size +
            (get wide h.mem n .size + sizeofBlock wide))
        let m := set wide m b .next (get wide m n .next)
        let m := relink wide m (get wide m n .next) b
        merge fuel
          { h with
            mem := m
            heapUsed :=
              Word.sub 32 h.heapUsed (sizeofBlock wide) } b
      else
        some h

/- A block without `MAGIC_USED` is reported and kept. -/
def kfree
    (h : HeapState)
    (p : Nat) : Option HeapState :=
  let b := p - sizeofBlock wide
  if p = 0 ∨ get wide h.mem b .magic ≠ magicUsed then
    some h
  else do
    let m := set wide h.mem b .free 1
    let m := set wide m b .magic magicFree
    let h ← merge wide h.fuel
      { h with
        mem := m
        heapUsed := Word.sub 32 h.heapUsed
          (get wide m b .size) } b
    let q := get wide h.mem b .prev
    if q ≠ 0 ∧ get wide h.mem q .free ≠ 0 then
      merge wide h.fuel h q
    else
      some h

--
-- The Self-Check
--

/- `heap_stats` finds nothing wrong with a block. -/
def goodBlock
    (h : HeapState)
    (b : Nat) : Bool :=
  let a := b % 2 ^ 32
  !(a < h.heapStart ||
    h.heapEnd < (a + sizeofBlock wide) % 2 ^ wordBits wide ||
    a &&& 7 != 0 ||
    (get wide h.mem b .magic != magicUsed &&
      get wide h.mem b .magic != magicFree))

/- Nor with its link. -/
def goodLink
    (h : HeapState)
    (b : Nat) : Bool :=
  let a := b % 2 ^ 32
  let nx := get wide h.mem b .next % 2 ^ 32
  get wide h.mem b .next = 0 ||
    !(nx ≤ a ||
      Word.sub (wordBits wide) h.heapEnd (sizeofBlock wide) <
        nx ||
      nx &&& 7 != 0)

/-
  The walk of `heap_stats` from a block on: the blocks it
  counts, and whether it ended without a report.
-/
def heapStats : Nat → HeapState → Nat → Option (Nat × Bool)
  | 0, _, _ => none
  | fuel + 1, h, b =>
      if b = 0 then
        some (0, true)
      else if !goodBlock wide h b then
        some (0, false)
      else if !goodLink wide h b then
        some (1, false)
      else
        (heapStats fuel h (get wide h.mem b .next)).map
          (fun r => (r.1 + 1, r.2))

end KvantOS.Heap
