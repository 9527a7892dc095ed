import KvantOS.Fat.Volume

/-
  This file models the name conversions of `kernel/fat.c`:
  UTF-8, 8.3 names, the checksum that ties a long name to
  its entry, and the comparison of names.

  A C string is the list of its bytes before the zero.

  Key definitions include:
    * `utf8Put`, `utf8Get`, `name83ToStr`
    * `lfnChecksum`, `streqCi`
-/

namespace KvantOS

/- `utf8_put`: one code point below `0x10000`. -/
def utf8Put (cp : Nat) : List UInt8 :=
  if cp < 0x80 then
    [UInt8.ofNat cp]
  else if cp < 0x800 then
    [UInt8.ofNat (0xC0 + cp / 2 ^ 6),
      UInt8.ofNat (0x80 + cp % 2 ^ 6)]
  else
    [UInt8.ofNat (0xE0 + cp / 2 ^ 12),
      UInt8.ofNat (0x80 + cp / 2 ^ 6 % 2 ^ 6),
      UInt8.ofNat (0x80 + cp % 2 ^ 6)]

/- A continuation byte, never the end of the string. -/
def isContinuation (b : UInt8) : Bool :=
  0x80 ≤ b && b < 0xC0

/- `utf8_get` after the first byte `c`. -/
def utf8Rest
    (c : UInt8) :
    List UInt8 → Nat × List UInt8
  | p0 :: p1 :: rest =>
      if 0xC2 ≤ c && c ≤ 0xDF && isContinuation p0 then
        (c.toNat % 32 * 2 ^ 6 + p0.toNat % 64, p1 :: rest)
      else if 0xE0 ≤ c && c ≤ 0xEF && isContinuation p0 &&
          isContinuation p1 && !(c == 0xE0 && p0 < 0xA0) &&
          !(c == 0xED && p0 ≥ 0xA0) then
        (c.toNat % 16 * 2 ^ 12 + p0.toNat % 64 * 2 ^ 6 +
          p1.toNat % 64, rest)
      else
        (c.toNat, p0 :: p1 :: rest)
  | [p0] =>
      if 0xC2 ≤ c && c ≤ 0xDF && isContinuation p0 then
        (c.toNat % 32 * 2 ^ 6 + p0.toNat % 64, [])
      else
        (c.toNat, [p0])
  | [] => (c.toNat, [])

/-
  `utf8_get`: one character and the rest of the string. A
  malformed byte stands for itself.
-/
def utf8Get : List UInt8 → Nat × List UInt8
  | [] => (0, [])
  | c :: rest =>
      if c < 0x80 then (c.toNat, rest) else utf8Rest c rest

--
-- Short Names
--

/- The characters of a padded field before the first blank. -/
def paddedField
    (raw : Buf)
    (start count : Nat) : List UInt8 :=
  ((raw.drop start).toList count).takeWhile (· != 0x20)

/-
  `name83_to_str`, as far as the string that it makes goes:
  a zero byte in the entry ends it.
-/
def name83ToStr (raw : Buf) : List UInt8 :=
  let ext :=
    if raw 8 != 0x20 then 0x2E :: paddedField raw 8 3 else []
  (paddedField raw 0 8 ++ ext).takeWhile (· != 0)

/- One round of the loop of `lfn_checksum`. -/
def checksumStep (sum byte : UInt8) : UInt8 :=
  (if sum &&& 1 != 0 then (0x80 : UInt8) else 0) +
    (sum >>> 1) + byte

/- `lfn_checksum`. -/
def lfnChecksum (name83 : Buf) : UInt8 :=
  (name83.toList 11).foldl checksumStep 0

--
-- Comparison
--

/- `fold`: ASCII and Russian letters in upper case. -/
def fold (c : Nat) : Nat :=
  if (0x61 ≤ c && c ≤ 0x7A) || (0x430 ≤ c && c ≤ 0x44F) then
    c - 32
  else if c == 0x451 then
    0x401
  else
    c

/- The loop of `streq_ci`, with a bound on its rounds. -/
def streqCiLoop :
    (fuel : Nat) → List UInt8 → List UInt8 → Bool
  | _, [], b => b.isEmpty
  | _, _ :: _, [] => false
  | 0, _ :: _, _ :: _ => false
  | fuel + 1, x :: a, y :: b =>
      let left := utf8Get (x :: a)
      let right := utf8Get (y :: b)
      fold left.1 == fold right.1 &&
        streqCiLoop fuel left.2 right.2

/- `streq_ci`: every round takes a byte of the first name. -/
def streqCi (a b : List UInt8) : Bool :=
  streqCiLoop a.length a b

--
-- Directory Entries
--

/- `fat_dirent_t`: the 32 bytes of an entry. -/
abbrev Dirent :=
  Buf

/- `sizeof(fat_dirent_t)`. -/
def direntSize : Nat :=
  32

def Dirent.clusterHi (de : Dirent) : Nat := de.get16 20
def Dirent.mtime (de : Dirent) : Nat := de.get16 22
def Dirent.mdate (de : Dirent) : Nat := de.get16 24
def Dirent.clusterLo (de : Dirent) : Nat := de.get16 26
def Dirent.size (de : Dirent) : Nat := de.get32 28

/- A bit of the attribute byte. -/
def Dirent.is
    (de : Dirent)
    (bit : UInt8) : Bool :=
  de 11 &&& bit != 0

/- The entry is a fragment of a long name. -/
def Dirent.isLfn (de : Dirent) : Bool :=
  de 11 &&& fatAttrLfn == fatAttrLfn

/- `entry_cluster`. -/
def entryCluster
    (v : FatVol)
    (de : Dirent) : Nat :=
  if v.isFat32 then
    (Dirent.clusterLo de + Dirent.clusterHi de * 2 ^ 16) %
      2 ^ 28
  else
    Dirent.clusterLo de

/- `fat_lfn_t`: the units of a fragment in their order. -/
def lfnUnits (l : Buf) : List Nat :=
  (List.range 5).map (fun i => l.get16 (1 + 2 * i)) ++
    (List.range 6).map (fun i => l.get16 (14 + 2 * i)) ++
    (List.range 2).map (fun i => l.get16 (28 + 2 * i))

/-
  The long-name state of `walk_dir`: `units` is indexed by
  position in the name.
-/
structure LfnState where
  present : Bool
  expected : Nat
  max : Nat
  checksum : UInt8
  units : Nat → Nat

/- No long name has been seen. -/
def LfnState.init : LfnState where
  present := false
  expected := 0
  max := 0
  checksum := 0
  units := fun _ => 0

/- The branch of `walk_dir` for a long-name fragment. -/
def LfnState.fragment
    (s : LfnState)
    (l : Buf) : LfnState :=
  let ord := (l 0 &&& 0x1F).toNat
  let s :=
    if l 0 &&& 0x40 != 0 then
      { s with
        expected := ord, max := ord, checksum := l 13,
        present := true }
    else
      s
  if !s.present || ord < 1 || ord > 20 || ord != s.expected ||
      l 12 != 0 || l.get16 26 != 0 || l 13 != s.checksum ||
      l 0 &&& 0xA0 != 0 then
    { s with present := false, expected := 0 }
  else
    let start := (ord - 1) * 13
    { s with
      units := fun i =>
        if start ≤ i ∧ i < start + 13 then
          (lfnUnits l).getD (i - start) 0
        else
          s.units i
      expected := s.expected - 1 }

/-
  The loop of `walk_dir` that turns the units into a name:
  absent when they make none that is supported.
-/
def lfnName
    (units : Nat → Nat)
    (i : Nat)
    (name : List UInt8) :
    (remaining : Nat) → List UInt8
  | 0 => name
  | remaining + 1 =>
      let u := units i
      if u == 0 || u == 0xFFFF then
        name
      else
        let bytes :=
          if u < 0x80 then 1 else if u < 0x800 then 2 else 3
        if name.length + bytes ≥ vfsMaxName ||
            (u ≥ 0xD800 && u ≤ 0xDFFF) then
          []
        else
          lfnName units (i + 1) (name ++ utf8Put u) remaining

/- The name that `walk_dir` presents for an entry. -/
def LfnState.name
    (s : LfnState)
    (de : Dirent) : List UInt8 :=
  if s.present && s.expected == 0 && s.max != 0 &&
      s.checksum == lfnChecksum de then
    let long := lfnName s.units 0 [] (s.max * 13)
    if long.isEmpty then name83ToStr de else long
  else
    name83ToStr de

end KvantOS
