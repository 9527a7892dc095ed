import KvantOS.User.Space

/-
  This file models the loader of kernel/user_image.c for
  isolated programs: the check of an image, and its pages in
  a new address space.

  A byte of the image is read only inside of it; a read
  outside is the result `fault`.

  Key definitions include:
    * `KiPlan`, `kiValidate`, `kiLoad`
-/

namespace KvantOS.User

/- `KI_HEADER`, `KI_PAYLOAD_MAX` and `KI_BOOT_OFF`. -/
def kiHeader : Nat := 96
def kiPayloadMax : Nat := 65536
def kiBootOff : Nat := kuSize - 0x20000

/- `ki_plan`. -/
structure KiPlan where
  entry : Nat
  textBytes : Nat
  dataVa : Nat
  dataFile : Nat
  dataBytes : Nat
  bssBytes : Nat
  stackBytes : Nat
  title : List UInt8
  deriving DecidableEq

/- Some bytes of the image, absent if one is outside. -/
def readAt
    (image : List UInt8)
    (off n : Nat) : Option Buf :=
  if off + n ≤ image.length then
    some ((Buf.ofList image).drop off)
  else
    none

/- `u32at` and `u16at`. -/
def u32at
    (image : List UInt8)
    (off : Nat) : Option Nat :=
  (readAt image off 4).map (fun b => b.get32 0)

def u16at
    (image : List UInt8)
    (off : Nat) : Option Nat :=
  (readAt image off 2).map (fun b => b.get16 0)

/- The loop over the bytes between the text and the data. -/
def paddingZero
    (image : List UInt8)
    (off : Nat) : (remaining : Nat) → Option Bool
  | 0 => some true
  | remaining + 1 => do
      let b ← readAt image off 1
      if b 0 != 0 then
        some false
      else
        paddingZero image (off + 1) remaining

--
-- Checking
--

/- The fields that every image has in common. -/
def headerOk
    (image : List UInt8)
    (arch64 : Int) : Option Bool := do
  let tag ← readAt image 0 4
  let version ← u16at image 4
  let header ← u16at image 6
  let abi ← u32at image 8
  let flags ← u32at image 12
  let base ← u32at image 16
  let payload ← u32at image 24
  let protocol ← u32at image 88
  let reserved ← u32at image 92
  some (tag.toList 4 == [0x4B, 0x41, 0x50, 0x50] &&
    version == 2 && header == kiHeader && abi == 4 &&
    flags == (1 ||| (if arch64 != 0 then 256 else 0)) &&
    base == kuBase &&
    payload == image.length - kiHeader && protocol == 1 &&
    reserved == 0)

/- The plan in the header. -/
def readPlan (image : List UInt8) : Option KiPlan := do
  let entry ← u32at image 20
  let textBytes ← u32at image 64
  let dataVa ← u32at image 68
  let dataFile ← u32at image 72
  let dataBytes ← u32at image 76
  let bssBytes ← u32at image 80
  let stackBytes ← u32at image 84
  let title ← readAt image 32 32
  some
    { entry, textBytes, dataVa, dataFile, dataBytes,
      bssBytes, stackBytes
      title := title.toList 32 }

/- `n` up to a whole number of pages. -/
def wholePages (n : Nat) : Nat :=
  (n + 4095) / 4096 * 4096

/- The bounds of the regions in memory and in the image. -/
def planOk
    (p : KiPlan)
    (payload bss : Nat) : Bool :=
  p.textBytes != 0 && p.textBytes ≤ payload &&
    p.entry ≥ kuBase && p.entry - kuBase < p.textBytes &&
    p.dataVa % 4096 == 0 &&
    p.dataVa ≥ wholePages p.textBytes &&
    p.dataVa ≤ kiBootOff &&
    p.dataBytes ≤ kiBootOff - p.dataVa &&
    p.bssBytes ≤ kiBootOff - p.dataVa - p.dataBytes &&
    p.bssBytes == bss && p.dataFile ≥ p.textBytes &&
    p.dataFile % 16 == 0 && p.dataFile ≤ payload &&
    p.dataBytes == payload - p.dataFile &&
    p.stackBytes ≥ 4096 && p.stackBytes ≤ 65536 &&
    p.stackBytes % 4096 == 0

/- What a check or a load returns. -/
inductive KiResult where
  | fault
  | failed
  | ok (plan : KiPlan)
  deriving DecidableEq

/- A failed read is a fault. -/
def KiResult.ofRead : Option KiResult → KiResult
  | none => .fault
  | some r => r

/- `ki_validate`. -/
def kiValidate
    (image : List UInt8)
    (arch64 : Int) : KiResult :=
  if (arch64 != 0 && arch64 != 1) ||
      image.length < kiHeader ||
      image.length > kiHeader + kiPayloadMax then
    .failed
  else
    .ofRead do
      if !(← headerOk image arch64) then
        some .failed
      else
        let p ← readPlan image
        let bss ← u32at image 28
        if !planOk p (image.length - kiHeader) bss then
          some .failed
        else if !p.title.contains 0 then
          some .failed
        else if !(← paddingZero image
            (kiHeader + p.textBytes)
            (p.dataFile - p.textBytes)) then
          some .failed
        else
          some (.ok p)

--
-- Loading
--

section Model

variable (mapped : Nat → Bool)

/- The pages of `n` bytes. -/
def pagesIn (n : Nat) : Nat :=
  (n + 4095) / 4096

/- A loop over `ku_map`, one page after the other. -/
def mapPages
    (rights off : Nat) : (count : Nat) → KuM Bool
  | 0 => pure true
  | count + 1 => do
      if (← kuMap mapped off rights) != 0 then
        pure false
      else
        mapPages rights (off + 4096) count

/- The pages of all regions. -/
def mapPlan (p : KiPlan) : KuM Bool := do
  if !(← mapPages mapped (kuR ||| kuX) 0
      (pagesIn p.textBytes)) then
    pure false
  else if !(← mapPages mapped (kuR ||| kuW) p.dataVa
      (pagesIn (p.dataBytes + p.bssBytes))) then
    pure false
  else if !(← mapPages mapped (kuR ||| kuW)
      (kuSize - p.stackBytes) (pagesIn p.stackBytes)) then
    pure false
  else
    pure ((← kuMap mapped kiBootOff kuR) == 0)

/- The text and the data; absent for a read outside. -/
def loadPlan
    (image : List UInt8)
    (p : KiPlan) : KuM (Option Bool) :=
  match readAt image kiHeader p.textBytes with
  | none => pure none
  | some text => do
      if (← kuLoad mapped 0 text p.textBytes) != 0 then
        pure (some false)
      else
        match readAt image (kiHeader + p.dataFile)
            p.dataBytes with
        | none => pure none
        | some data =>
            pure (some ((← kuLoad mapped p.dataVa data
              p.dataBytes) == 0))

/- The end of a load that failed. -/
def kiFail : KuM KiResult := do
  let _ ← kuDestroy
  pure .failed

/- `ki_load`. -/
def kiLoad
    (root : Nat)
    (image : List UInt8)
    (arch64 nx : Int) : KuM KiResult :=
  match kiValidate image arch64 with
  | .fault => pure .fault
  | .failed => pure .failed
  | .ok p => do
      if (← kuCreate mapped root arch64 nx) != 0 then
        pure .failed
      else if !(← mapPlan mapped p) then
        kiFail
      else
        match ← loadPlan mapped image p with
        | none => pure .fault
        | some false => kiFail
        | some true => pure (.ok p)

end Model

end KvantOS.User
