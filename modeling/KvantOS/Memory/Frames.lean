import KvantOS.Block.Bytes
import KvantOS.Data.Bitmap
import KvantOS.Data.Word

/-
  This file models the allocator of physical frames of the
  source file `pmm.c`: a bitmap that is filled in from the
  memory map of the boot loader.

  Key definitions include:
    * `Pmm`, `Mmap`, `mmapAt`
    * `clearFrames`, `setFrames`, `pmmInit`
    * `pmmAllocFrame`, `pmmFreeFrame`, `pmmReserveRange`
-/

namespace KvantOS.Memory

--
-- The Bitmap
--

/- `FRAME_SIZE` and `MAX_FRAMES`. -/
def frameSize : Nat := 4096
def maxFrames : Nat := 1024 * 1024

/- The variables of the allocator. -/
structure Pmm where
  frameBitmap : Bitmap
  totalFrames : Nat
  usedFrames : Nat

/- `x & ~(FRAME_SIZE - 1)`. -/
def roundDown (x : Nat) : Nat :=
  x &&& 0xFFFFF000

/- `(x + FRAME_SIZE - 1) & ~(FRAME_SIZE - 1)`. -/
def roundUp (x : Nat) : Nat :=
  roundDown ((x + 4095) % 2 ^ 32)

/- `if (idx < total_frames && bm_test(idx)) ...`. -/
def markFree
    (s : Pmm)
    (i : Nat) : Pmm :=
  if i < s.totalFrames ∧ s.frameBitmap.test i = true then
    { s with
      frameBitmap := s.frameBitmap.clear i
      usedFrames := Word.sub 32 s.usedFrames 1 }
  else
    s

/- `if (idx < total_frames && !bm_test(idx)) ...`. -/
def markUsed
    (s : Pmm)
    (i : Nat) : Pmm :=
  if i < s.totalFrames ∧ s.frameBitmap.test i = false then
    { s with
      frameBitmap := s.frameBitmap.set i
      usedFrames := (s.usedFrames + 1) % 2 ^ 32 }
  else
    s

/-
  Rounds after which a loop over frame addresses has seen an
  address twice and never ends.
-/
def rounds : Nat := maxFrames + 1

/-
  `for (; a + FRAME_SIZE <= end; a += FRAME_SIZE)`: the
  frames from `a` on are freed; `none` when it never ends.
-/
def clearFrames : Nat → Pmm → Nat → Nat → Option Pmm
  | 0, _, _, _ => none
  | fuel + 1, s, a, stop =>
      if (a + frameSize) % 2 ^ 32 ≤ stop then
        clearFrames fuel (markFree s (a / frameSize))
          ((a + frameSize) % 2 ^ 32) stop
      else
        some s

/- `for (; a < end; a += FRAME_SIZE)`. -/
def setFrames : Nat → Pmm → Nat → Nat → Option Pmm
  | 0, _, _, _ => none
  | fuel + 1, s, a, stop =>
      if a < stop then
        setFrames fuel (markUsed s (a / frameSize))
          ((a + frameSize) % 2 ^ 32) stop
      else
        some s

--
-- The Memory Map
--

/- An entry of the memory map, a packed `struct mb_mmap`. -/
structure Mmap where
  size : Nat
  addr : Nat
  len : Nat
  type : Nat
  deriving DecidableEq

/- The entry at an address. -/
def mmapAt
    (m : Buf)
    (p : Nat) : Mmap where
  size := m.get32 p
  addr := m.get64 (p + 4)
  len := m.get64 (p + 12)
  type := m.get32 (p + 20)

/- Free the frames of an entry that is available memory. -/
def freeEntry
    (s : Pmm)
    (e : Mmap) : Option Pmm :=
  if e.type = 1 then
    clearFrames rounds s (roundUp (e.addr % 2 ^ 32))
      ((e.addr + e.len) % 2 ^ 64 % 2 ^ 32)
  else
    some s

/- The loop over the entries, in addresses of 32 bits. -/
def freeEntries
    (m : Buf)
    (stop : Nat) : Nat → Pmm → Nat → Option Pmm
  | 0, _, _ => none
  | fuel + 1, s, p =>
      if p < stop then do
        let s ← freeEntry s (mmapAt m p)
        freeEntries m stop fuel s
          ((p + (mmapAt m p).size + 4) % 2 ^ 32)
      else
        some s

/-
  `pmm_init` on the memory that holds the map, with the end
  of the kernel's image; `none` when it never ends.
-/
def pmmInit
    (m : Buf)
    (kernelEnd memUpperKb mmapAddr mmapLen : Nat) :
    Option Pmm := do
  let memBytes := (memUpperKb + 1024) * 1024 % 2 ^ 32
  let total := min (memBytes / frameSize) maxFrames
  let s : Pmm := ⟨Bitmap.full, total, total⟩
  let s ←
    if mmapAddr ≠ 0 ∧ mmapLen ≠ 0 then
      freeEntries m ((mmapAddr + mmapLen) % 2 ^ 32) (2 ^ 32) s
        mmapAddr
    else
      clearFrames rounds s 0x100000 memBytes
  setFrames rounds s 0 (roundUp kernelEnd)

--
-- Calls
--

/- The address is zero when no frame is free. -/
def pmmAllocFrame (s : Pmm) : Pmm × Nat :=
  match (List.range s.totalFrames).find?
      (fun i => !s.frameBitmap.test i) with
  | some i =>
      ({ s with
        frameBitmap := s.frameBitmap.set i
        usedFrames := (s.usedFrames + 1) % 2 ^ 32 },
        i * frameSize)
  | none => (s, 0)

def pmmFreeFrame
    (s : Pmm)
    (addr : Nat) : Pmm :=
  markFree s (addr / frameSize)

def pmmReserveRange
    (s : Pmm)
    (base size : Nat) : Option Pmm :=
  setFrames rounds s (roundDown base)
    (roundUp ((base + size) % 2 ^ 32))

end KvantOS.Memory
