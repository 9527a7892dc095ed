import KvantOS.Boot.MemoryMap

/-
  This file models how the EFI stub loads the ELF file of the
  kernel, and proves that it loads what the file says into
  memory that it has claimed.

  A read outside of the file is modelled as no value. The
  firmware gives out free pages only, so the pages of the
  file itself are not written.

  Key definitions include:
    * `KernelFile`, `loadKernel`, `IsImage`

  Key theorems include:
    * `loadKernel_spec`
-/

namespace KvantOS.Boot

--
-- The File
--

/- A file whose size is a 64-bit number. -/
structure KernelFile where
  bytes : List UInt8
  size_lt : bytes.length < 2 ^ 64

namespace KernelFile

def size (f : KernelFile) : UInt64 :=
  UInt64.ofNat f.bytes.length

theorem size_toNat (f : KernelFile) :
    f.size.toNat = f.bytes.length :=
  UInt64.toNat_ofNat_of_lt f.size_lt

def read
    (f : KernelFile)
    (off n : Nat) : Option (List UInt8) :=
  if off + n ≤ f.bytes.length then
    some ((f.bytes.drop off).take n)
  else none

/- A little-endian number. -/
def number
    (f : KernelFile)
    (off n : Nat) : Option Nat :=
  (f.read off n).map
    (List.foldr (fun b v => b.toNat + 256 * v) 0)

variable {off n : Nat}

theorem read_eq
    (f : KernelFile)
    (h : off + n ≤ f.bytes.length) :
    f.read off n = some ((f.bytes.drop off).take n) :=
  if_pos h

theorem number_isSome
    (f : KernelFile)
    (h : off + n ≤ f.bytes.length) :
    ∃ v, f.number off n = some v :=
  ⟨_, by rw [number, f.read_eq h, Option.map_some]⟩

end KernelFile

/- The fields of `elf64_ehdr_t` that are looked at. -/
structure Ehdr where
  ident : List UInt8
  machine : UInt16
  entry : UInt64
  phoff : UInt64
  phentsize : UInt16
  phnum : UInt16

def readEhdr (f : KernelFile) : Option Ehdr := do
  return {
    ident := ← f.read 0 5
    machine := .ofNat (← f.number 18 2)
    entry := .ofNat (← f.number 24 8)
    phoff := .ofNat (← f.number 32 8)
    phentsize := .ofNat (← f.number 54 2)
    phnum := .ofNat (← f.number 56 2) }

/- The fields of `elf64_phdr_t` that are looked at. -/
structure Phdr where
  type : UInt32
  flags : UInt32
  offset : UInt64
  vaddr : UInt64
  paddr : UInt64
  filesz : UInt64
  memsz : UInt64

def readPhdr
    (f : KernelFile)
    (off : Nat) : Option Phdr := do
  return {
    type := .ofNat (← f.number off 4)
    flags := .ofNat (← f.number (off + 4) 4)
    offset := .ofNat (← f.number (off + 8) 8)
    vaddr := .ofNat (← f.number (off + 16) 8)
    paddr := .ofNat (← f.number (off + 24) 8)
    filesz := .ofNat (← f.number (off + 32) 8)
    memsz := .ofNat (← f.number (off + 40) 8) }

def phdrAt
    (f : KernelFile)
    (eh : Ehdr)
    (i : Nat) : Option Phdr :=
  readPhdr f
    (eh.phoff + .ofNat i * eh.phentsize.toUInt64).toNat

/- A segment with memory: the others are skipped. -/
def Phdr.loads (ph : Phdr) : Bool :=
  ph.type == 1 && ph.memsz != 0

--
-- Loading
--

def kernelBase : UInt64 := 0x100000

/- The first loop: `max_end` and `entry_ok`. -/
def scanSegment
    (size entry : UInt64)
    (s : UInt64 × Bool)
    (ph : Phdr) : Option (UInt64 × Bool) :=
  if ph.loads = false then some s
  else if ph.paddr ≠ ph.vaddr ∨ ph.vaddr < kernelBase ∨
      0x1000000 ≤ ph.vaddr ∨
      0x1000000 - ph.vaddr < ph.memsz ∨
      ph.memsz < ph.filesz ∨ size < ph.offset ∨
      size - ph.offset < ph.filesz then none
  else
    let stop := (ph.vaddr + ph.memsz + 4095) &&& ~~~4095
    some (if s.1 < stop then stop else s.1,
      s.2 || (ph.flags &&& 1 != 0 && ph.vaddr ≤ entry &&
        entry - ph.vaddr < ph.filesz))

def scanAll
    (f : KernelFile)
    (eh : Ehdr) :
    List Nat → UInt64 × Bool → Option (Option (UInt64 × Bool))
  | [], s => some (some s)
  | i :: is, s => do
    let ph ← phdrAt f eh i
    match scanSegment f.size eh.entry s ph with
    | none => return none
    | some s' => scanAll f eh is s'

/- What is done to memory. -/
inductive BootEvent where
  | claim (base pages : UInt64)
  | store (addr : Nat) (data : List UInt8)

/- The second loop, on a segment. -/
def loadSegment
    (f : KernelFile)
    (ph : Phdr) : Option (List BootEvent) :=
  if ph.loads = false then some []
  else
    (f.read ph.offset.toNat ph.filesz.toNat).map fun data =>
      [.store ph.vaddr.toNat data,
        .store (ph.vaddr + ph.filesz).toNat
          (.replicate (ph.memsz - ph.filesz).toNat 0)]

def loadAll
    (f : KernelFile)
    (eh : Ehdr) : List Nat → Option (List BootEvent)
  | [] => some []
  | i :: is => do
    let ph ← phdrAt f eh i
    let events ← loadSegment f ph
    return events ++ (← loadAll f eh is)

structure Loaded where
  entry : UInt64
  events : List BootEvent
  reserved : List Range

/- The checks of the header. -/
def ehdrBad
    (size : UInt64)
    (eh : Ehdr) : Prop :=
  eh.ident ≠ [0x7f, 0x45, 0x4c, 0x46, 2] ∨
    eh.machine ≠ 62 ∨ eh.phentsize ≠ 56 ∨ size < eh.phoff ∨
      (size - eh.phoff) / 56 < eh.phnum.toUInt64

instance (size : UInt64) (eh : Ehdr) :
    Decidable (ehdrBad size eh) := by
  unfold ehdrBad
  infer_instance

/- `load_kernel`: a firmware that may refuse, and what has
  been reserved before. -/
def loadKernel
    (f : KernelFile)
    (allocatePages : UInt64 → UInt64 → Bool)
    (reserved : List Range) : Option Loaded := do
  if f.size < 64 then return ⟨0, [], reserved⟩
  let eh ← readEhdr f
  if ehdrBad f.size eh then return ⟨0, [], reserved⟩
  let indices := List.range eh.phnum.toNat
  let some (maxEnd, entryOk) ← scanAll f eh indices (0, false)
    | return ⟨0, [], reserved⟩
  if maxEnd = 0 ∨ entryOk = false then
    return ⟨0, [], reserved⟩
  let pages := (maxEnd - kernelBase) >>> 12
  if allocatePages kernelBase pages = false then
    return ⟨0, [], reserved⟩
  let stores ← loadAll f eh indices
  return ⟨eh.entry, .claim kernelBase pages :: stores,
    reserve reserved ⟨kernelBase.toNat, maxEnd.toNat⟩⟩

--
-- Reads of Headers
--

variable {f : KernelFile}

theorem readEhdr_isSome
    (h : 64 ≤ f.bytes.length) :
    ∃ eh, readEhdr f = some eh := by
  obtain ⟨a, ha⟩ := f.number_isSome
    (show 18 + 2 ≤ f.bytes.length by omega)
  obtain ⟨b, hb⟩ := f.number_isSome
    (show 24 + 8 ≤ f.bytes.length by omega)
  obtain ⟨c, hc⟩ := f.number_isSome
    (show 32 + 8 ≤ f.bytes.length by omega)
  obtain ⟨d, hd⟩ := f.number_isSome
    (show 54 + 2 ≤ f.bytes.length by omega)
  obtain ⟨e, he⟩ := f.number_isSome
    (show 56 + 2 ≤ f.bytes.length by omega)
  have hIdent := f.read_eq
    (show 0 + 5 ≤ f.bytes.length by omega)
  simp [readEhdr, hIdent, ha, hb, hc, hd, he]

theorem readPhdr_isSome
    {off : Nat}
    (h : off + 56 ≤ f.bytes.length) :
    ∃ ph, readPhdr f off = some ph := by
  have hNumber (k n : Nat) (hk : k + n ≤ 56) :=
    f.number_isSome (show off + k + n ≤ f.bytes.length by omega)
  obtain ⟨a, ha⟩ := hNumber 0 4 (by omega)
  obtain ⟨b, hb⟩ := hNumber 4 4 (by omega)
  obtain ⟨c, hc⟩ := hNumber 8 8 (by omega)
  obtain ⟨d, hd⟩ := hNumber 16 8 (by omega)
  obtain ⟨e, he⟩ := hNumber 24 8 (by omega)
  obtain ⟨g, hg⟩ := hNumber 32 8 (by omega)
  obtain ⟨m, hm⟩ := hNumber 40 8 (by omega)
  rw [Nat.add_zero] at ha
  simp [readPhdr, ha, hb, hc, hd, he, hg, hm]

variable {eh : Ehdr}

/- The program headers lie in the file, and the product and
  the sum that find them do not wrap. -/
theorem phdrAt_isSome
    (hGood : ¬ ehdrBad f.size eh)
    {i : Nat}
    (hi : i < eh.phnum.toNat) :
    ∃ ph, phdrAt f eh i = some ph := by
  simp only [ehdrBad, not_or, not_not, UInt64.not_lt]
    at hGood
  obtain ⟨-, -, hSize, hOff, hCount⟩ := hGood
  have hOff' : eh.phoff.toNat ≤ f.bytes.length := by
    rw [← f.size_toNat]
    exact UInt64.le_iff_toNat_le.mp hOff
  have hCount' : eh.phnum.toNat ≤
      (f.bytes.length - eh.phoff.toNat) / 56 := by
    have h := UInt64.le_iff_toNat_le.mp hCount
    rwa [UInt64.toNat_div, UInt64.toNat_sub_of_le _ _ hOff,
      f.size_toNat, UInt16.toNat_toUInt64] at h
  have hLt := f.size_lt
  have hMul : i * 56 + 56 ≤
      f.bytes.length - eh.phoff.toNat := by
    have := Nat.mul_le_mul_right 56
      ((Nat.succ_le_of_lt hi).trans hCount')
    have := Nat.div_mul_le_self
      (f.bytes.length - eh.phoff.toNat) 56
    omega
  have hAt : (eh.phoff +
      UInt64.ofNat i * eh.phentsize.toUInt64).toNat =
        eh.phoff.toNat + i * 56 := by
    have hi' : (UInt64.ofNat i).toNat = i :=
      UInt64.toNat_ofNat_of_lt' (show i < 2 ^ 64 by omega)
    rw [hSize, UInt64.toNat_add, UInt64.toNat_mul, hi']
    change (eh.phoff.toNat + i * 56 % 2 ^ 64) % 2 ^ 64 = _
    rw [Nat.mod_eq_of_lt (by omega : i * 56 < 2 ^ 64),
      Nat.mod_eq_of_lt (by omega)]
  rw [phdrAt, hAt]
  exact readPhdr_isSome (by omega)

/- All program headers of the file. -/
def phdrs
    (f : KernelFile)
    (eh : Ehdr)
    (is : List Nat) : List Phdr :=
  is.filterMap (phdrAt f eh)

variable {is : List Nat}

theorem scanAll_eq
    (h : ∀ i ∈ is, ∃ ph, phdrAt f eh i = some ph)
    (s : UInt64 × Bool) :
    scanAll f eh is s =
      some ((phdrs f eh is).foldlM
        (scanSegment f.size eh.entry) s) := by
  induction is generalizing s with
  | nil => rfl
  | cons i is ih =>
    rw [List.forall_mem_cons] at h
    obtain ⟨ph, hPh⟩ := h.1
    rw [scanAll, phdrs, List.filterMap_cons_some hPh, hPh,
      List.foldlM_cons]
    cases hScan : scanSegment f.size eh.entry s ph with
    | none => simp [hScan]
    | some s' => simpa [hScan, phdrs] using ih h.2 s'

--
-- Bounds of a Segment
--

/- The bytes of a segment lie in the file, and its memory in
  the first 16 MiB. -/
structure Phdr.Fits
    (ph : Phdr)
    (size : Nat) : Prop where
  low : 0x100000 ≤ ph.vaddr.toNat
  high : ph.vaddr.toNat + ph.memsz.toNat ≤ 0x1000000
  filesz : ph.filesz.toNat ≤ ph.memsz.toNat
  source : ph.offset.toNat + ph.filesz.toNat ≤ size

theorem and_not_4095
    {y : Nat}
    (hy : y < 2 ^ 64) :
    y &&& (2 ^ 64 - 4096) = y / 4096 * 4096 := by
  have hMask : 2 ^ 64 - 4096 = (2 ^ 52 - 1) <<< 12 := by
    decide
  have hShift : y / 4096 * 4096 = (y >>> 12) <<< 12 := by
    rw [Nat.shiftLeft_eq, Nat.shiftRight_eq_div_pow]
  rw [hMask, hShift]
  apply Nat.eq_of_testBit_eq
  intro i
  rw [Nat.testBit_and, Nat.testBit_shiftLeft,
    Nat.testBit_shiftLeft, Nat.testBit_shiftRight,
    Nat.testBit_two_pow_sub_one]
  by_cases hLow : 12 ≤ i
  · by_cases hHigh : i < 64
    · simp [hLow, show i - 12 < 52 by omega]
    · have hZero : y.testBit i = false :=
        Nat.testBit_lt_two_pow (hy.trans_le
          (Nat.pow_le_pow_right (by omega) (by omega)))
      simp [hLow, hZero]
  · simp [hLow]

theorem stop_toNat
    {x : UInt64}
    (hx : x.toNat ≤ 0x1000000) :
    ((x + 4095) &&& ~~~4095).toNat =
      (x.toNat + 4095) / 4096 * 4096 := by
  have hMask : (~~~4095 : UInt64).toNat = 2 ^ 64 - 4096 := by
    decide
  rw [UInt64.toNat_and, hMask, UInt64.toNat_add]
  change (x.toNat + 4095) % 2 ^ 64 &&& _ = _
  rw [Nat.mod_eq_of_lt (by omega), and_not_4095 (by omega)]

/- The entry point lies in the bytes of a segment. -/
def Phdr.IsEntry
    (ph : Phdr)
    (entry : UInt64) : Prop :=
  ph.flags &&& 1 ≠ 0 ∧ ph.vaddr.toNat ≤ entry.toNat ∧
    entry.toNat < ph.vaddr.toNat + ph.filesz.toNat

variable {ph : Phdr}

theorem scanSegment_spec
    {size entry : UInt64}
    {s s' : UInt64 × Bool}
    (hScan : scanSegment size entry s ph = some s')
    (hLoads : ph.loads = true) :
    ph.Fits size.toNat ∧
      s'.1.toNat = max s.1.toNat
        ((ph.vaddr.toNat + ph.memsz.toNat + 4095) /
          4096 * 4096) ∧
      (s'.2 = true → s.2 = true ∨ ph.IsEntry entry) := by
  rw [scanSegment, if_neg (by simp [hLoads]),
    Option.ite_none_left_eq_some] at hScan
  obtain ⟨hChecks, hScan⟩ := hScan
  obtain rfl := Option.some.inj hScan
  simp only [not_or, UInt64.not_lt, UInt64.not_le] at hChecks
  obtain ⟨-, hLow, hHigh, hMem, hFile, hOff, hSrc⟩ := hChecks
  have hHigh' := UInt64.lt_iff_toNat_lt.mp hHigh
  have hMem' := UInt64.le_iff_toNat_le.mp hMem
  have hSrc' := UInt64.le_iff_toNat_le.mp hSrc
  have hOff' := UInt64.le_iff_toNat_le.mp hOff
  rw [UInt64.toNat_sub_of_le _ _ (UInt64.le_of_lt hHigh)]
    at hMem'
  rw [UInt64.toNat_sub_of_le _ _ hOff] at hSrc'
  change ph.vaddr.toNat < 0x1000000 at hHigh'
  change _ ≤ 0x1000000 - ph.vaddr.toNat at hMem'
  have hSum : (ph.vaddr + ph.memsz).toNat =
      ph.vaddr.toNat + ph.memsz.toNat := by
    rw [UInt64.toNat_add, Nat.mod_eq_of_lt (by omega)]
  have hStop := stop_toNat (x := ph.vaddr + ph.memsz)
    (by rw [hSum]; omega)
  rw [hSum] at hStop
  refine ⟨⟨UInt64.le_iff_toNat_le.mp hLow, by omega,
    UInt64.le_iff_toNat_le.mp hFile, by omega⟩, ?_, ?_⟩
  · rw [← hStop]
    split
    case isTrue hLt =>
      exact (max_eq_right
        (UInt64.lt_iff_toNat_lt.mp hLt).le).symm
    case isFalse hLt =>
      exact (max_eq_left (UInt64.le_iff_toNat_le.mp
        (UInt64.not_lt.mp hLt))).symm
  · intro hEntry
    simp only [Bool.or_eq_true, Bool.and_eq_true, bne_iff_ne,
      decide_eq_true_eq] at hEntry
    refine hEntry.imp_right fun hThis => ?_
    obtain ⟨⟨hFlag, hFrom⟩, hTo⟩ := hThis
    have hFrom' := UInt64.le_iff_toNat_le.mp hFrom
    have hTo' := UInt64.lt_iff_toNat_lt.mp hTo
    rw [UInt64.toNat_sub_of_le _ _ hFrom] at hTo'
    exact ⟨hFlag, hFrom', by omega⟩

/- What the first loop knows of the segments it has seen. -/
structure ScanInv
    (size entry : UInt64)
    (seen : List Phdr)
    (s : UInt64 × Bool) : Prop where
  fits : ∀ ph ∈ seen, ph.loads = true →
    ph.Fits size.toNat ∧
      ph.vaddr.toNat + ph.memsz.toNat ≤ s.1.toNat
  le : s.1.toNat ≤ 0x1000000
  aligned : 4096 ∣ s.1.toNat
  entry : s.2 = true →
    ∃ ph ∈ seen, ph.loads = true ∧ ph.IsEntry entry

theorem ScanInv.step
    {size entry : UInt64}
    {seen : List Phdr}
    {s s' : UInt64 × Bool}
    (h : ScanInv size entry seen s)
    {ph : Phdr}
    (hScan : scanSegment size entry s ph = some s') :
    ScanInv size entry (seen ++ [ph]) s' := by
  cases hLoads : ph.loads with
  | false =>
    rw [scanSegment, if_pos hLoads] at hScan
    obtain rfl := Option.some.inj hScan
    refine ⟨fun k hk hLoads' => ?_, h.le, h.aligned,
      fun hEntry => ?_⟩
    · rcases List.mem_append.mp hk with hk | hk
      · exact h.fits k hk hLoads'
      · rw [List.mem_singleton.mp hk, hLoads] at hLoads'
        contradiction
    · obtain ⟨k, hk, hRest⟩ := h.entry hEntry
      exact ⟨k, List.mem_append_left _ hk, hRest⟩
  | true =>
    obtain ⟨hFits, hMax, hEntry⟩ :=
      scanSegment_spec hScan hLoads
    have hHigh := hFits.high
    refine ⟨fun k hk hLoads' => ?_, ?_, ?_, fun hYes => ?_⟩
    · rcases List.mem_append.mp hk with hk | hk
      · obtain ⟨hFitsK, hLe⟩ := h.fits k hk hLoads'
        exact ⟨hFitsK, hLe.trans (hMax ▸ le_max_left _ _)⟩
      · obtain rfl := List.mem_singleton.mp hk
        exact ⟨hFits, by omega⟩
    · have := h.le
      omega
    · rw [hMax]
      rcases max_choice s.1.toNat
        ((ph.vaddr.toNat + ph.memsz.toNat + 4095) /
          4096 * 4096) with hEq | hEq
      · rw [hEq]
        exact h.aligned
      · rw [hEq]
        exact Nat.dvd_mul_left _ _
    · rcases hEntry hYes with hOld | hNew
      · obtain ⟨k, hk, hRest⟩ := h.entry hOld
        exact ⟨k, List.mem_append_left _ hk, hRest⟩
      · exact ⟨ph, List.mem_append_right _ (.head _), hLoads,
          hNew⟩

theorem ScanInv.run
    {size entry : UInt64}
    {seen phs : List Phdr}
    {s s' : UInt64 × Bool}
    (h : ScanInv size entry seen s)
    (hScan :
      phs.foldlM (scanSegment size entry) s = some s') :
    ScanInv size entry (seen ++ phs) s' := by
  induction phs generalizing seen s with
  | nil =>
    obtain rfl := Option.some.inj hScan
    rwa [List.append_nil]
  | cons ph phs ih =>
    rw [List.foldlM_cons] at hScan
    obtain ⟨next, hStep, hRest⟩ :=
      Option.bind_eq_some_iff.mp hScan
    rw [List.append_cons]
    exact ih (h.step hStep) hRest

--
-- Memory
--

/- A store changes the bytes it is given. -/
def BootEvent.apply
    (m : Nat → UInt8) : BootEvent → Nat → UInt8
  | .claim _ _ => m
  | .store addr data => fun x =>
    if addr ≤ x ∧ x < addr + data.length then
      data.getD (x - addr) 0
    else m x

/- The stores of a segment that fits. -/
def storesOf
    (f : KernelFile)
    (ph : Phdr) : List BootEvent :=
  let offset := ph.offset.toNat
  let filesz := ph.filesz.toNat
  [.store ph.vaddr.toNat ((f.bytes.drop offset).take filesz),
    .store (ph.vaddr.toNat + filesz)
      (.replicate (ph.memsz.toNat - filesz) 0)]

theorem loadAll_eq
    (h : ∀ i ∈ is, ∃ ph, phdrAt f eh i = some ph)
    (hFits : ∀ ph ∈ phdrs f eh is, ph.loads = true →
      ph.Fits f.bytes.length) :
    loadAll f eh is =
      some (((phdrs f eh is).filter (·.loads)).flatMap
        (storesOf f)) := by
  induction is with
  | nil => rfl
  | cons i is ih =>
    rw [List.forall_mem_cons] at h
    obtain ⟨ph, hPh⟩ := h.1
    have hCons : phdrs f eh (i :: is) =
        ph :: phdrs f eh is :=
      List.filterMap_cons_some hPh
    rw [hCons, List.forall_mem_cons] at hFits
    have hRest := ih h.2 hFits.2
    rw [hCons]
    cases hLoads : ph.loads with
    | false => simp [loadAll, hPh, loadSegment, hLoads, hRest]
    | true =>
      have hFit := hFits.1 hLoads
      have hHigh := hFit.high
      have hFile := hFit.filesz
      have hAddr : (ph.vaddr + ph.filesz).toNat =
          ph.vaddr.toNat + ph.filesz.toNat := by
        rw [UInt64.toNat_add, Nat.mod_eq_of_lt (by omega)]
      have hCount := UInt64.toNat_sub_of_le ph.memsz ph.filesz
        (UInt64.le_iff_toNat_le.mpr hFile)
      have hSegment : loadSegment f ph =
          some (storesOf f ph) := by
        rw [loadSegment, if_neg (by simp [hLoads]),
          f.read_eq hFit.source, Option.map_some, hAddr,
          hCount]
        rfl
      simp [loadAll, hPh, hSegment, hRest, hLoads]

/- The byte of a segment at an offset. -/
def Phdr.byte
    (f : KernelFile)
    (ph : Phdr)
    (k : Nat) : UInt8 :=
  if k < ph.filesz.toNat then
    f.bytes.getD (ph.offset.toNat + k) 0
  else 0

/- A segment is stored as the file says, and nothing else is
  changed. -/
theorem storesOf_apply
    (hFits : ph.Fits f.bytes.length)
    (m : Nat → UInt8)
    (x : Nat) :
    (storesOf f ph).foldl BootEvent.apply m x =
      if ph.vaddr.toNat ≤ x ∧
          x < ph.vaddr.toNat + ph.memsz.toNat then
        ph.byte f (x - ph.vaddr.toNat)
      else m x := by
  have hFile := hFits.filesz
  have hSource := hFits.source
  have hLength : ((f.bytes.drop ph.offset.toNat).take
      ph.filesz.toNat).length = ph.filesz.toNat := by
    rw [List.length_take, List.length_drop]
    omega
  simp only [storesOf, List.foldl_cons, List.foldl_nil,
    BootEvent.apply, hLength, List.length_replicate]
  split
  case isTrue hTail =>
    rw [if_pos (by omega), Phdr.byte, if_neg (by omega)]
    simp
  case isFalse hTail =>
    split
    case isTrue hHead =>
      have hk : x - ph.vaddr.toNat < ph.filesz.toNat := by
        omega
      rw [if_pos (by omega), Phdr.byte, if_pos hk]
      simp [List.getD_eq_getElem?_getD, hk]
    case isFalse hHead => rw [if_neg (by omega)]

/- Two segments without a common address. -/
def Phdr.Apart (a b : Phdr) : Prop :=
  a.vaddr.toNat + a.memsz.toNat ≤ b.vaddr.toNat ∨
    b.vaddr.toNat + b.memsz.toNat ≤ a.vaddr.toNat

variable {phs : List Phdr}

theorem stores_outside
    (hFits : ∀ ph ∈ phs, ph.Fits f.bytes.length)
    {x : Nat}
    (hOut : ∀ ph ∈ phs, ¬ (ph.vaddr.toNat ≤ x ∧
      x < ph.vaddr.toNat + ph.memsz.toNat))
    (m : Nat → UInt8) :
    (phs.flatMap (storesOf f)).foldl BootEvent.apply m x =
      m x := by
  induction phs generalizing m with
  | nil => rfl
  | cons ph phs ih =>
    rw [List.forall_mem_cons] at hFits hOut
    rw [List.flatMap_cons, List.foldl_append,
      ih hFits.2 hOut.2, storesOf_apply hFits.1,
      if_neg hOut.1]

/- Segments that are apart keep what they were given. -/
theorem stores_inside
    (hFits : ∀ ph ∈ phs, ph.Fits f.bytes.length)
    (hApart : phs.Pairwise Phdr.Apart)
    (hPh : ph ∈ phs)
    {k : Nat}
    (hk : k < ph.memsz.toNat)
    (m : Nat → UInt8) :
    (phs.flatMap (storesOf f)).foldl BootEvent.apply m
        (ph.vaddr.toNat + k) = ph.byte f k := by
  induction phs generalizing m with
  | nil => contradiction
  | cons first phs ih =>
    rw [List.forall_mem_cons] at hFits
    rw [List.pairwise_cons] at hApart
    rw [List.flatMap_cons, List.foldl_append]
    rcases List.mem_cons.mp hPh with rfl | hRest
    · rw [stores_outside hFits.2, storesOf_apply hFits.1,
        if_pos (by omega), Nat.add_sub_cancel_left]
      intro other hOther hIn
      have hThis := hApart.1 other hOther
      rw [Phdr.Apart] at hThis
      omega
    · exact ih hFits.2 hApart.2 hRest _

--
-- The Whole Image
--

/- The segments of the file that are loaded. -/
def segments
    (f : KernelFile)
    (eh : Ehdr) : List Phdr :=
  (phdrs f eh (List.range eh.phnum.toNat)).filter (·.loads)

def BootEvent.Within
    (stop : Nat) : BootEvent → Prop
  | .claim _ _ => False
  | .store addr data =>
    0x100000 ≤ addr ∧ addr + data.length ≤ stop

/- What a successful load has done. -/
structure IsImage
    (f : KernelFile)
    (allocatePages : UInt64 → UInt64 → Bool)
    (eh : Ehdr)
    (r : Loaded) : Prop where
  entry : r.entry = eh.entry ∧
    ∃ ph ∈ segments f eh, ph.IsEntry eh.entry
  claimed : ∃ pages stores stop,
    r.events = .claim 0x100000 pages :: stores ∧
      allocatePages 0x100000 pages = true ∧
      0x100000 + 4096 * pages.toNat = stop ∧
      stop ≤ 0x1000000 ∧
      (∀ e ∈ stores, e.Within stop) ∧
      r.reserved = [⟨0x100000, stop⟩]
  content : (segments f eh).Pairwise Phdr.Apart →
    ∀ ph ∈ segments f eh, ∀ k < ph.memsz.toNat, ∀ m,
      r.events.foldl BootEvent.apply m
        (ph.vaddr.toNat + k) = ph.byte f k

theorem isImage_of_scan
    {allocatePages : UInt64 → UInt64 → Bool}
    {maxEnd : UInt64}
    (hInv : ScanInv f.size eh.entry
      (phdrs f eh (List.range eh.phnum.toNat))
      (maxEnd, true))
    (hAllocate : allocatePages kernelBase
      ((maxEnd - kernelBase) >>> 12) = true) :
    IsImage f allocatePages eh ⟨eh.entry,
      .claim kernelBase ((maxEnd - kernelBase) >>> 12) ::
        (segments f eh).flatMap (storesOf f),
      reserve [] ⟨kernelBase.toNat, maxEnd.toNat⟩⟩ := by
  have hFits : ∀ ph ∈ segments f eh,
      ph.Fits f.bytes.length ∧
        ph.vaddr.toNat + ph.memsz.toNat ≤ maxEnd.toNat := by
    intro ph hPh
    obtain ⟨hMem, hLoads⟩ := List.mem_filter.mp hPh
    have h := hInv.fits ph hMem hLoads
    rwa [f.size_toNat] at h
  obtain ⟨ph, hMem, hLoads, hEntry⟩ := hInv.entry rfl
  have hPh : ph ∈ segments f eh :=
    List.mem_filter.mpr ⟨hMem, hLoads⟩
  have hLow := (hFits ph hPh).1.low
  have hEnd := (hFits ph hPh).2
  have hSize : 0 < ph.memsz.toNat := by
    have := (hFits ph hPh).1.filesz
    have := hEntry.2
    omega
  have hBase : kernelBase ≤ maxEnd :=
    UInt64.le_iff_toNat_le.mpr (by
      change 0x100000 ≤ maxEnd.toNat
      omega)
  have hPages : 0x100000 + 4096 *
      ((maxEnd - kernelBase) >>> 12).toNat =
        maxEnd.toNat := by
    have hAligned : 4096 ∣ maxEnd.toNat := hInv.aligned
    rw [UInt64.toNat_shiftRight,
      UInt64.toNat_sub_of_le _ _ hBase,
      Nat.shiftRight_eq_div_pow]
    change 0x100000 + 4096 *
      ((maxEnd.toNat - 0x100000) / 4096) = _
    omega
  refine ⟨⟨rfl, ph, hPh, hEntry⟩,
    ⟨_, _, maxEnd.toNat, rfl, hAllocate, hPages, hInv.le,
      ?_, ?_⟩, ?_⟩
  · intro e he
    obtain ⟨k, hk, he⟩ := List.mem_flatMap.mp he
    obtain ⟨hFit, hStop⟩ := hFits k hk
    have hK := hFit.low
    have hFile := hFit.filesz
    simp only [storesOf, List.mem_cons, List.not_mem_nil,
      or_false] at he
    rcases he with rfl | rfl
    · refine ⟨hK, ?_⟩
      have := List.length_take_le k.filesz.toNat
        (f.bytes.drop k.offset.toNat)
      omega
    · refine ⟨by omega, ?_⟩
      rw [List.length_replicate]
      omega
  · have hLt : 0x100000 < maxEnd.toNat := by omega
    exact if_pos ⟨by decide, hLt⟩
  · intro hApart k hk n hn m
    exact stores_inside (fun j hj => (hFits j hj).1) hApart
      hk hn m

/-
  Loading reads only bytes of the file. It returns 0 and has
  done nothing, or it has loaded an image.
-/
theorem loadKernel_spec
    (f : KernelFile)
    (allocatePages : UInt64 → UInt64 → Bool) :
    ∃ r, loadKernel f allocatePages [] = some r ∧
      (r = ⟨0, [], []⟩ ∨
        ∃ eh, readEhdr f = some eh ∧
          IsImage f allocatePages eh r) := by
  by_cases hShort : f.size < 64
  · exact ⟨_, if_pos hShort, .inl rfl⟩
  have hSize : 64 ≤ f.bytes.length := by
    rw [← f.size_toNat]
    exact UInt64.le_iff_toNat_le.mp (UInt64.not_lt.mp hShort)
  obtain ⟨eh, hEh⟩ := readEhdr_isSome hSize
  simp only [loadKernel, if_neg hShort, hEh,
    Option.bind_eq_bind, Option.bind_some]
  split
  case isTrue => exact ⟨_, rfl, .inl rfl⟩
  case isFalse hGood =>
    have hRead (i : Nat)
        (hi : i ∈ List.range eh.phnum.toNat) :=
      phdrAt_isSome hGood (List.mem_range.mp hi)
    rw [scanAll_eq hRead]
    cases hScan :
        (phdrs f eh (List.range eh.phnum.toNat)).foldlM
          (scanSegment f.size eh.entry) (0, false) with
    | none => exact ⟨_, rfl, .inl rfl⟩
    | some s =>
      obtain ⟨maxEnd, entryOk⟩ := s
      have hStart :
          ScanInv f.size eh.entry [] (0, false) :=
        ⟨by simp, by decide, by decide, by simp⟩
      have hInv := hStart.run hScan
      simp only [Option.bind_some]
      split
      case isTrue => exact ⟨_, rfl, .inl rfl⟩
      case isFalse hSome =>
        split
        case isTrue => exact ⟨_, rfl, .inl rfl⟩
        case isFalse hAllocate =>
          obtain rfl : entryOk = true := by
            simpa using (not_or.mp hSome).2
          rw [loadAll_eq hRead fun ph hPh hLoads => by
            have h := (hInv.fits ph hPh hLoads).1
            rwa [f.size_toNat] at h]
          refine ⟨_, rfl, .inr ⟨eh, rfl, ?_⟩⟩
          exact isImage_of_scan hInv
            (Bool.eq_true_of_not_eq_false hAllocate)

end KvantOS.Boot
