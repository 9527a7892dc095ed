import Mathlib.Data.Fintype.Pi
import Mathlib.Data.Fintype.Basic
import Mathlib.Logic.Function.Basic

/-
  This file defines byte buffers with the little-endian
  accesses that on-disk formats use, and 512-byte sectors.

  Key definitions include:
    * `Buf`, `Buf.copy`
    * `Buf.get16`, `Buf.put16`
    * `Buf.get32`, `Buf.put32`
    * `Buf.get64`, `Buf.put64`, `Sector`
    * `Buf.toSector`, `Sector.toBuf`
-/

--
-- Buffers
--

/- A byte buffer, indexed by offset. -/
abbrev Buf :=
  Nat → UInt8

namespace Buf

/- The zeroed buffer. -/
def zero : Buf :=
  fun _ => 0

/- `memcpy(dst + at, src, count)`. -/
def copy
    (dst : Buf)
    (start : Nat)
    (src : Buf)
    (count : Nat) : Buf :=
  fun i =>
    if start ≤ i ∧ i < start + count then
      src (i - start)
    else
      dst i

/- `memset(dst + at, value, count)`. -/
def fill
    (dst : Buf)
    (start : Nat)
    (value : UInt8)
    (count : Nat) : Buf :=
  fun i =>
    if start ≤ i ∧ i < start + count then value else dst i

/- The buffer that starts at offset `start`. -/
def drop
    (src : Buf)
    (start : Nat) : Buf :=
  fun i => src (start + i)

/- The first `count` bytes, zeroes after them. -/
def take
    (src : Buf)
    (count : Nat) : Buf :=
  fun i => if i < count then src i else 0

/- `count` bytes from offset `start`. -/
def slice
    (src : Buf)
    (start count : Nat) : Buf :=
  (src.drop start).take count

/- The bytes of a string or of a table. -/
def ofList (bytes : List UInt8) : Buf :=
  fun i => bytes.getD i 0

/- The first `count` bytes as a list. -/
def toList
    (src : Buf)
    (count : Nat) : List UInt8 :=
  (List.range count).map src

/- `memcmp(a, b, count) == 0`. -/
def same
    (a b : Buf)
    (count : Nat) : Bool :=
  (List.range count).all (fun i => a i == b i)

theorem same_iff
    {a b : Buf}
    {count : Nat} :
    same a b count = true ↔ ∀ i, i < count → a i = b i := by
  simp [same]

variable {start count i : Nat}

theorem copy_inside
    {dst src : Buf}
    (hStart : start ≤ i)
    (hEnd : i < start + count) :
    dst.copy start src count i = src (i - start) :=
  if_pos ⟨hStart, hEnd⟩

theorem copy_outside
    {dst src : Buf}
    (hOut : i < start ∨ start + count ≤ i) :
    dst.copy start src count i = dst i := by
  apply if_neg
  omega

theorem take_inside
    {src : Buf}
    (hi : i < count) :
    src.take count i = src i :=
  if_pos hi

theorem slice_inside
    {src : Buf}
    (hi : i < count) :
    src.slice start count i = src (start + i) :=
  if_pos hi

end Buf

--
-- Little-Endian Integers
--

namespace Buf

/- The 16-bit value at an offset. -/
def get16
    (b : Buf)
    (off : Nat) : Nat :=
  (b off).toNat ||| (b (off + 1)).toNat <<< 8

/- The 32-bit value at an offset. -/
def get32
    (b : Buf)
    (off : Nat) : Nat :=
  (b off).toNat ||| (b (off + 1)).toNat <<< 8 |||
    (b (off + 2)).toNat <<< 16 |||
    (b (off + 3)).toNat <<< 24

/- Store the low 16 bits of a value. -/
def put16
    (b : Buf)
    (off value : Nat) : Buf :=
  fun i =>
    if off ≤ i ∧ i < off + 2 then
      UInt8.ofNat (value >>> (8 * (i - off)))
    else
      b i

/- Store the low 32 bits of a value. -/
def put32
    (b : Buf)
    (off value : Nat) : Buf :=
  fun i =>
    if off ≤ i ∧ i < off + 4 then
      UInt8.ofNat (value >>> (8 * (i - off)))
    else
      b i

/- Disjoint bit ranges are combined by addition. -/
theorem or_shiftLeft_eq_add
    {low : Nat}
    (high width : Nat)
    (hLow : low < 2 ^ width) :
    low ||| high <<< width = low + 2 ^ width * high := by
  rw [Nat.shiftLeft_eq, Nat.mul_comm, Nat.or_comm,
    ← Nat.two_pow_add_eq_or_of_lt hLow, Nat.add_comm]

theorem get16_eq
    (b : Buf)
    (off : Nat) :
    b.get16 off =
      (b off).toNat + 2 ^ 8 * (b (off + 1)).toNat :=
  or_shiftLeft_eq_add _ 8 (b off).toNat_lt

theorem get32_eq
    (b : Buf)
    (off : Nat) :
    b.get32 off =
      (b off).toNat + 2 ^ 8 * (b (off + 1)).toNat +
        2 ^ 16 * (b (off + 2)).toNat +
        2 ^ 24 * (b (off + 3)).toNat := by
  have h0 := (b off).toNat_lt
  have h1 := (b (off + 1)).toNat_lt
  have h2 := (b (off + 2)).toNat_lt
  unfold get32
  rw [or_shiftLeft_eq_add _ 8 h0,
    or_shiftLeft_eq_add _ 16 (by omega),
    or_shiftLeft_eq_add _ 24 (by omega)]

theorem get16_lt
    (b : Buf)
    (off : Nat) :
    b.get16 off < 2 ^ 16 := by
  have h0 := (b off).toNat_lt
  have h1 := (b (off + 1)).toNat_lt
  rw [get16_eq]
  omega

theorem get32_lt
    (b : Buf)
    (off : Nat) :
    b.get32 off < 2 ^ 32 := by
  have h0 := (b off).toNat_lt
  have h1 := (b (off + 1)).toNat_lt
  have h2 := (b (off + 2)).toNat_lt
  have h3 := (b (off + 3)).toNat_lt
  rw [get32_eq]
  omega

/- A byte of a stored value. -/
theorem put32_byte
    (b : Buf)
    (off value : Nat)
    {i : Nat}
    (hi : i < 4) :
    (b.put32 off value (off + i)).toNat =
      value / 2 ^ (8 * i) % 2 ^ 8 := by
  have hInside : off ≤ off + i ∧ off + i < off + 4 := by
    omega
  simp [put32, hInside, Nat.shiftRight_eq_div_pow]

theorem put16_byte
    (b : Buf)
    (off value : Nat)
    {i : Nat}
    (hi : i < 2) :
    (b.put16 off value (off + i)).toNat =
      value / 2 ^ (8 * i) % 2 ^ 8 := by
  have hInside : off ≤ off + i ∧ off + i < off + 2 := by
    omega
  simp [put16, hInside, Nat.shiftRight_eq_div_pow]

/- A stored 32-bit value is read back modulo `2 ^ 32`. -/
@[simp]
theorem get32_put32_same
    (b : Buf)
    (off value : Nat) :
    (b.put32 off value).get32 off = value % 2 ^ 32 := by
  have h0 := put32_byte b off value (i := 0) (by omega)
  have h1 := put32_byte b off value (i := 1) (by omega)
  have h2 := put32_byte b off value (i := 2) (by omega)
  have h3 := put32_byte b off value (i := 3) (by omega)
  simp only [Nat.add_zero] at h0
  rw [get32_eq, h0, h1, h2, h3]
  omega

@[simp]
theorem get16_put16_same
    (b : Buf)
    (off value : Nat) :
    (b.put16 off value).get16 off = value % 2 ^ 16 := by
  have h0 := put16_byte b off value (i := 0) (by omega)
  have h1 := put16_byte b off value (i := 1) (by omega)
  simp only [Nat.add_zero] at h0
  rw [get16_eq, h0, h1]
  omega

variable {b : Buf}

theorem put32_outside
    {off value i : Nat}
    (hOut : i < off ∨ off + 4 ≤ i) :
    b.put32 off value i = b i := by
  apply if_neg
  omega

theorem put16_outside
    {off value i : Nat}
    (hOut : i < off ∨ off + 2 ≤ i) :
    b.put16 off value i = b i := by
  apply if_neg
  omega

variable {off off' : Nat}

/- Reads depend on the bytes they cover only. -/
theorem get32_congr
    {a b : Buf}
    (hSame : ∀ i, i < 4 → a (off + i) = b (off' + i)) :
    a.get32 off = b.get32 off' := by
  have h0 := hSame 0 (by omega)
  have h1 := hSame 1 (by omega)
  have h2 := hSame 2 (by omega)
  have h3 := hSame 3 (by omega)
  simp only [Nat.add_zero] at h0
  simp only [get32, h0, h1, h2, h3]

theorem get16_congr
    {a b : Buf}
    (hSame : ∀ i, i < 2 → a (off + i) = b (off' + i)) :
    a.get16 off = b.get16 off' := by
  have h0 := hSame 0 (by omega)
  have h1 := hSame 1 (by omega)
  simp only [Nat.add_zero] at h0
  simp only [get16, h0, h1]

/- Storing one field leaves the disjoint ones alone. -/
theorem get32_put32_ne
    {off off' value : Nat}
    (hOut : off' + 4 ≤ off ∨ off + 4 ≤ off') :
    (b.put32 off value).get32 off' = b.get32 off' := by
  apply get32_congr
  intro i hi
  apply put32_outside
  omega

/- The 32-bit value whose bytes are given. -/
theorem get32_of_bytes
    {off value : Nat}
    (hBytes : ∀ k, k < 4 →
      b (off + k) = UInt8.ofNat (value >>> (8 * k)))
    (hBound : value < 2 ^ 32) :
    b.get32 off = value := by
  have hSame : b.get32 off =
      (zero.put32 0 value).get32 0 := by
    apply get32_congr
    intro i hi
    rw [hBytes i hi]
    unfold put32
    rw [if_pos (by omega), Nat.zero_add, Nat.sub_zero]
  rw [hSame, get32_put32_same, Nat.mod_eq_of_lt hBound]

/- The 64-bit value at an offset. -/
def get64
    (b : Buf)
    (off : Nat) : Nat :=
  b.get32 off ||| b.get32 (off + 4) <<< 32

/- Store the low 64 bits of a value. -/
def put64
    (b : Buf)
    (off value : Nat) : Buf :=
  (b.put32 off value).put32 (off + 4) (value >>> 32)

theorem get64_eq
    (b : Buf)
    (off : Nat) :
    b.get64 off =
      b.get32 off + 2 ^ 32 * b.get32 (off + 4) :=
  or_shiftLeft_eq_add _ 32 (b.get32_lt off)

theorem get64_lt
    (b : Buf)
    (off : Nat) :
    b.get64 off < 2 ^ 64 := by
  have hLow := b.get32_lt off
  have hHigh := b.get32_lt (off + 4)
  rw [get64_eq]
  omega

theorem get64_congr
    {a b : Buf}
    (hSame : ∀ i, i < 8 → a (off + i) = b (off' + i)) :
    a.get64 off = b.get64 off' := by
  have hLow : a.get32 off = b.get32 off' :=
    get32_congr (fun i hi => hSame i (by omega))
  have hHigh : a.get32 (off + 4) = b.get32 (off' + 4) := by
    apply get32_congr
    intro i hi
    rw [Nat.add_assoc, Nat.add_assoc]
    exact hSame (4 + i) (by omega)
  rw [get64_eq, get64_eq, hLow, hHigh]

theorem get64_put64_same
    (b : Buf)
    (off value : Nat) :
    (b.put64 off value).get64 off = value % 2 ^ 64 := by
  unfold put64
  rw [get64_eq, get32_put32_same,
    get32_put32_ne (.inl (Nat.le_refl _)), get32_put32_same,
    Nat.shiftRight_eq_div_pow]
  omega

theorem get64_put64_ne
    {off off' value : Nat}
    (hOut : off' + 8 ≤ off ∨ off + 8 ≤ off') :
    (b.put64 off value).get64 off' = b.get64 off' := by
  unfold put64
  rw [get64_eq, get64_eq, get32_put32_ne (by omega),
    get32_put32_ne (by omega), get32_put32_ne (by omega),
    get32_put32_ne (by omega)]

/- The 64-bit value whose bytes are given. -/
theorem get64_of_bytes
    {off value : Nat}
    (hBytes : ∀ k, k < 8 →
      b (off + k) = UInt8.ofNat (value >>> (8 * k)))
    (hBound : value < 2 ^ 64) :
    b.get64 off = value := by
  have hLow : b.get32 off = value % 2 ^ 32 := by
    apply get32_of_bytes _ (Nat.mod_lt _ (by decide))
    intro k hk
    rw [hBytes k (by omega)]
    apply UInt8.toNat_inj.mp
    rw [UInt8.toNat_ofNat', UInt8.toNat_ofNat',
      Nat.shiftRight_eq_div_pow, Nat.shiftRight_eq_div_pow]
    match k, hk with
    | 0, _ => omega
    | 1, _ => omega
    | 2, _ => omega
    | 3, _ => omega
  have hHigh : b.get32 (off + 4) = value / 2 ^ 32 := by
    apply get32_of_bytes _ (by omega)
    intro k hk
    rw [Nat.add_assoc, hBytes (4 + k) (by omega),
      Nat.shiftRight_eq_div_pow, Nat.shiftRight_eq_div_pow,
      Nat.div_div_eq_div_mul, ← Nat.pow_add]
    congr 3
    omega
  rw [get64_eq, hLow, hHigh]
  omega

end Buf

--
-- Sectors
--

/- The unit of device input and output: 512 bytes. -/
abbrev Sector :=
  Fin 512 → UInt8

namespace Sector

/- The bytes of a sector as a buffer. -/
def toBuf (s : Sector) : Buf :=
  fun i => if h : i < 512 then s ⟨i, h⟩ else 0

end Sector

namespace Buf

/- The first 512 bytes of a buffer. -/
def toSector (b : Buf) : Sector :=
  fun i => b i

theorem toBuf_toSector
    {b : Buf}
    {i : Nat}
    (hi : i < 512) :
    b.toSector.toBuf i = b i :=
  dif_pos hi

@[simp]
theorem toSector_toBuf (s : Sector) :
    s.toBuf.toSector = s := by
  funext i
  exact dif_pos i.isLt

theorem toSector_eq_iff
    {a b : Buf} :
    a.toSector = b.toSector ↔ ∀ i, i < 512 → a i = b i := by
  constructor
  · intro hEq i hi
    exact congrFun hEq ⟨i, hi⟩
  · intro hSame
    funext i
    exact hSame i i.isLt

theorem get32_toSector
    {b : Buf}
    {off : Nat}
    (hOff : off + 4 ≤ 512) :
    b.toSector.toBuf.get32 off = b.get32 off := by
  apply get32_congr
  intro i hi
  exact toBuf_toSector (by omega)

end Buf
