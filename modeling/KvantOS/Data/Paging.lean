import KvantOS.Block.Bytes

/-
  This file describes the page tables of an x86 processor,
  with four levels of 64-bit entries or two levels of 32-bit
  entries, and how the processor walks them.

  Key definitions include:
    * `Paging.entry`, `Paging.putEntry`
    * `Paging.supervisor`, `Paging.cloneEntries`
    * `Paging.walk`, `Paging.walkDown`, `Paging.Keeps`

  Key theorems include:
    * `Paging.entry_putEntry`, `Paging.entry_cloneEntries`
    * `Paging.frameOf_supervisor`, `Paging.frameOf_mapping`
    * `Paging.walk_link`
    * `Paging.keeps_beside`, `Paging.keeps_link`
-/

namespace KvantOS.Paging

--
-- Flags
--

/- The bits of an entry, and those of its address. -/
def present : Nat := 1
def writable : Nat := 2
def user : Nat := 4
def large : Nat := 128
def noExec : Nat := 0x8000000000000000
def addressMask : Nat := 0x000FFFFFFFFFF000

/- The entry has a flag. -/
def has (e flag : Nat) : Bool :=
  e &&& flag != 0

/- The address in an entry. -/
def frameOf (e : Nat) : Nat :=
  e &&& addressMask

/- Bytes of an entry, and entries of a table. -/
def entryBytes (wide : Bool) : Nat :=
  if wide then 8 else 4

def tableEntries (wide : Bool) : Nat :=
  if wide then 512 else 1024

/- All bits of an entry but the user bit. -/
def notUser (wide : Bool) : Nat :=
  if wide then 0xFFFFFFFFFFFFFFFB else 0xFFFFFFFB

/- The entry without access for user code. -/
def supervisor
    (wide : Bool)
    (e : Nat) : Nat :=
  e &&& notUser wide

theorem has_two_pow
    (e k : Nat) :
    has e (2 ^ k) = e.testBit k := by
  unfold has
  cases hBit : e.testBit k with
  | true =>
      rw [bne_iff_ne]
      intro hZero
      have hNone : (e &&& 2 ^ k).testBit k = false := by
        rw [hZero, Nat.zero_testBit]
      rw [Nat.testBit_and, hBit, Nat.testBit_two_pow_self]
        at hNone
      cases hNone
  | false =>
      rw [bne_eq_false_iff_eq]
      apply Nat.eq_of_testBit_eq
      intro i
      rw [Nat.testBit_and, Nat.zero_testBit]
      by_cases hi : k = i
      · rw [← hi, hBit, Bool.false_and]
      · rw [Nat.testBit_two_pow_of_ne hi, Bool.and_false]

theorem has_present (e : Nat) :
    has e present = e.testBit 0 :=
  has_two_pow e 0

theorem has_writable (e : Nat) :
    has e writable = e.testBit 1 :=
  has_two_pow e 1

theorem has_user (e : Nat) :
    has e user = e.testBit 2 :=
  has_two_pow e 2

theorem has_large (e : Nat) :
    has e large = e.testBit 7 :=
  has_two_pow e 7

theorem has_noExec (e : Nat) :
    has e noExec = e.testBit 63 :=
  has_two_pow e 63

/- The bits of the masks. -/
theorem testBit_addressMask (k : Nat) :
    addressMask.testBit k =
      (decide (12 ≤ k) && decide (k < 52)) := by
  have hMask : addressMask = (2 ^ 40 - 1) <<< 12 := by decide
  rw [hMask, Nat.testBit_shiftLeft, Nat.testBit_two_pow_sub_one]
  by_cases hLow : 12 ≤ k
  · simp only [hLow, decide_true, Bool.true_and]
    congr 1
    exact propext (by omega)
  · simp [hLow]

variable {k : Nat}

theorem testBit_notUser
    (wide : Bool)
    (hk : k < 8 * entryBytes wide) :
    (notUser wide).testBit k = decide (k ≠ 2) := by
  cases wide with
  | true =>
      have hLt : k < 64 := hk
      have hAll : ∀ j : Fin 64,
          (notUser true).testBit j = decide (j.val ≠ 2) := by
        decide
      exact hAll ⟨k, hLt⟩
  | false =>
      have hLt : k < 32 := hk
      have hAll : ∀ j : Fin 32,
          (notUser false).testBit j = decide (j.val ≠ 2) := by
        decide
      exact hAll ⟨k, hLt⟩

theorem testBit_notUser_two (wide : Bool) :
    (notUser wide).testBit 2 = false := by
  cases wide <;> decide

/- Taking the user bit away changes no other bit. -/
theorem testBit_supervisor
    {wide : Bool}
    {e k : Nat}
    (hBound : e < 2 ^ (8 * entryBytes wide)) :
    (supervisor wide e).testBit k =
      (e.testBit k && decide (k ≠ 2)) := by
  unfold supervisor
  rw [Nat.testBit_and]
  by_cases hk : k < 8 * entryBytes wide
  · rw [testBit_notUser wide hk]
  · have hHigh : e.testBit k = false :=
      Nat.testBit_lt_two_pow (Nat.lt_of_lt_of_le hBound
        (Nat.pow_le_pow_right (by decide) (by omega)))
    rw [hHigh, Bool.false_and, Bool.false_and]

theorem has_user_supervisor
    (wide : Bool)
    (e : Nat) :
    has (supervisor wide e) user = false := by
  rw [has_user]
  unfold supervisor
  rw [Nat.testBit_and, testBit_notUser_two, Bool.and_false]

section Supervisor

variable {wide : Bool} {e : Nat}

theorem has_present_supervisor
    (hBound : e < 2 ^ (8 * entryBytes wide)) :
    has (supervisor wide e) present = has e present := by
  rw [has_present, has_present, testBit_supervisor hBound]
  simp

theorem has_large_supervisor
    (hBound : e < 2 ^ (8 * entryBytes wide)) :
    has (supervisor wide e) large = has e large := by
  rw [has_large, has_large, testBit_supervisor hBound]
  simp

theorem frameOf_supervisor
    (hBound : e < 2 ^ (8 * entryBytes wide)) :
    frameOf (supervisor wide e) = frameOf e := by
  apply Nat.eq_of_testBit_eq
  intro k
  unfold frameOf
  rw [Nat.testBit_and, Nat.testBit_and,
    testBit_supervisor hBound, testBit_addressMask]
  by_cases hk : k = 2
  · subst hk
    simp
  · simp [hk]

end Supervisor

--
-- New Entries
--

/- An entry for a frame of 4096 bytes, with some flags. -/
def mapping (p flags : Nat) : Nat :=
  p ||| flags

section Mapping

variable {p flags : Nat}

/- The low bits of a frame's address are zero. -/
theorem testBit_frame
    (hAligned : 4096 ∣ p)
    (hk : k < 12) :
    p.testBit k = false := by
  rcases hAligned with ⟨q, rfl⟩
  have hShift : 4096 * q = q <<< 12 := by
    rw [Nat.shiftLeft_eq, Nat.mul_comm]
  rw [hShift, Nat.testBit_shiftLeft]
  simp [Nat.not_le_of_lt hk]

theorem testBit_mapping_low
    (hAligned : 4096 ∣ p)
    (hk : k < 12) :
    (mapping p flags).testBit k = flags.testBit k := by
  unfold mapping
  rw [Nat.testBit_or, testBit_frame hAligned hk,
    Bool.false_or]

/- The address is that of the frame. -/
theorem frameOf_mapping
    (hAligned : 4096 ∣ p)
    (hBound : p < 2 ^ 52)
    (hFlags : ∀ k, 12 ≤ k → k < 52 →
      flags.testBit k = false) :
    frameOf (mapping p flags) = p := by
  apply Nat.eq_of_testBit_eq
  intro k
  unfold frameOf mapping
  rw [Nat.testBit_and, Nat.testBit_or, testBit_addressMask]
  by_cases hLow : 12 ≤ k
  · by_cases hHigh : k < 52
    · rw [hFlags k hLow hHigh]
      simp [hLow, hHigh]
    · have hNone : p.testBit k = false :=
        Nat.testBit_lt_two_pow (Nat.lt_of_lt_of_le hBound
          (Nat.pow_le_pow_right (by decide) (by omega)))
      rw [hNone]
      simp [hHigh]
  · rw [testBit_frame hAligned (by omega)]
    simp [hLow]

end Mapping

--
-- Tables
--

/- Entry `i` of a table. -/
def entry
    (wide : Bool)
    (b : Buf)
    (i : Nat) : Nat :=
  if wide then b.get64 (8 * i) else b.get32 (4 * i)

/- The table with one entry stored. -/
def putEntry
    (wide : Bool)
    (b : Buf)
    (i value : Nat) : Buf :=
  if wide then b.put64 (8 * i) value
  else b.put32 (4 * i) value

/- Byte `k` of a value. -/
def byteOf (value k : Nat) : UInt8 :=
  UInt8.ofNat (value >>> (8 * k))

/-
  The entries of `src` that `takes` selects, without access
  for user code, over those of `dst`.
-/
def cloneEntries
    (wide : Bool)
    (src dst : Buf)
    (takes : Nat → Bool) : Buf :=
  fun off =>
    let i := off / entryBytes wide
    if i < tableEntries wide && takes i then
      byteOf (supervisor wide (entry wide src i))
        (off % entryBytes wide)
    else
      dst off

theorem entry_lt
    (wide : Bool)
    (b : Buf)
    (i : Nat) :
    entry wide b i < 2 ^ (8 * entryBytes wide) := by
  unfold entry entryBytes
  cases wide with
  | true => exact b.get64_lt _
  | false => exact b.get32_lt _

variable {b : Buf}

/- An entry is what its bytes say. -/
theorem entry_of_bytes
    {wide : Bool}
    {i value : Nat}
    (hBytes : ∀ k, k < entryBytes wide →
      b (entryBytes wide * i + k) = byteOf value k)
    (hBound : value < 2 ^ (8 * entryBytes wide)) :
    entry wide b i = value := by
  unfold entry
  cases wide with
  | true => exact Buf.get64_of_bytes hBytes hBound
  | false => exact Buf.get32_of_bytes hBytes hBound

theorem entry_congr
    {wide : Bool}
    {a b : Buf}
    {i : Nat}
    (hSame : ∀ k, k < entryBytes wide →
      a (entryBytes wide * i + k) =
        b (entryBytes wide * i + k)) :
    entry wide a i = entry wide b i := by
  unfold entry
  cases wide with
  | true => exact Buf.get64_congr hSame
  | false => exact Buf.get32_congr hSame

theorem entryBytes_pos (wide : Bool) :
    0 < entryBytes wide := by
  cases wide <;> decide

theorem entry_cloneEntries
    {wide : Bool}
    {src dst : Buf}
    {takes : Nat → Bool}
    {i : Nat}
    (hi : i < tableEntries wide) :
    entry wide (cloneEntries wide src dst takes) i =
      if takes i then supervisor wide (entry wide src i)
      else entry wide dst i := by
  have hPlace : ∀ k, k < entryBytes wide →
      (entryBytes wide * i + k) / entryBytes wide = i ∧
        (entryBytes wide * i + k) % entryBytes wide = k := by
    intro k hk
    rw [Nat.mul_add_div (entryBytes_pos wide),
      Nat.mul_add_mod, Nat.div_eq_of_lt hk,
      Nat.mod_eq_of_lt hk]
    exact ⟨Nat.add_zero i, rfl⟩
  by_cases hTake : takes i = true
  · rw [if_pos hTake]
    apply entry_of_bytes
    · intro k hk
      unfold cloneEntries
      simp only [(hPlace k hk).1, (hPlace k hk).2, hi, hTake,
        decide_true, Bool.and_self, if_true]
    · exact Nat.lt_of_le_of_lt (Nat.and_le_left)
        (entry_lt wide src i)
  · rw [if_neg hTake]
    apply entry_congr
    intro k hk
    unfold cloneEntries
    simp only [(hPlace k hk).1, hTake, Bool.and_false,
      Bool.false_eq_true, if_false]

theorem entry_putEntry
    {wide : Bool}
    {i value : Nat}
    (hBound : value < 2 ^ (8 * entryBytes wide))
    (j : Nat) :
    entry wide (putEntry wide b i value) j =
      if j = i then value else entry wide b j := by
  unfold entry putEntry
  cases wide with
  | true =>
      simp only [if_true]
      by_cases hEq : j = i
      · rw [if_pos hEq, hEq]
        exact (b.get64_put64_same _ _).trans
          (Nat.mod_eq_of_lt hBound)
      · rw [if_neg hEq]
        exact Buf.get64_put64_ne (by omega)
  | false =>
      simp only [Bool.false_eq_true, if_false]
      by_cases hEq : j = i
      · rw [if_pos hEq, hEq]
        exact (b.get32_put32_same _ _).trans
          (Nat.mod_eq_of_lt hBound)
      · rw [if_neg hEq]
        exact Buf.get32_put32_ne (by omega)

theorem entry_zero
    (wide : Bool)
    (i : Nat) :
    entry wide Buf.zero i = 0 := by
  apply entry_of_bytes _ (Nat.two_pow_pos _)
  intro k _
  unfold byteOf Buf.zero
  rw [Nat.zero_shiftRight]
  rfl

--
-- Walks
--

/- The place of an address in the tables of a level. -/
def index
    (wide : Bool)
    (level va : Nat) : Nat :=
  if wide then va / 2 ^ (12 + 9 * level) % 512
  else va / 2 ^ (12 + 10 * level) % 1024

/- Bytes that one entry of a level covers. -/
def reach
    (wide : Bool)
    (level : Nat) : Nat :=
  if wide then 2 ^ (12 + 9 * level)
  else 2 ^ (12 + 10 * level)

/- Where an address leads, and who may use it for what. -/
structure Leaf where
  phys : Nat
  user : Bool
  writable : Bool
  noExec : Bool
  deriving DecidableEq

/- What an entry on the way takes from the access. -/
def Leaf.under
    (e : Nat)
    (leaf : Leaf) : Leaf where
  phys := leaf.phys
  user := has e Paging.user && leaf.user
  writable := has e Paging.writable && leaf.writable
  noExec := has e Paging.noExec || leaf.noExec

/- The leaf at an entry that maps `size` bytes. -/
def leafAt
    (e size va : Nat) : Leaf where
  phys := frameOf e / size * size + va % size
  user := has e user
  writable := has e writable
  noExec := has e noExec

/-
  The walk of the processor from a table of some level. An
  entry of the top level with four levels maps no page.
-/
def walk
    (wide : Bool)
    (mem : Nat → Buf) :
    (level table va : Nat) → Option Leaf
  | 0, table, va =>
      let e := entry wide (mem table) (index wide 0 va)
      if has e present then some (leafAt e 4096 va) else none
  | level + 1, table, va =>
      let e := entry wide (mem table)
        (index wide (level + 1) va)
      if !has e present then
        none
      else if has e large then
        if level = 2 then none
        else some (leafAt e (reach wide (level + 1)) va)
      else
        (walk wide mem level (frameOf e) va).map
          (Leaf.under e)

/- The number of the top level. -/
def topLevel (wide : Bool) : Nat :=
  if wide then 3 else 1

/- Bytes of the address space. -/
def spaceBytes (wide : Bool) : Nat :=
  if wide then 2 ^ 48 else 2 ^ 32

--
-- Links
--

/- The flags of an entry that leads on and grants all. -/
def linkFlags : Nat :=
  present ||| writable ||| user

theorem testBit_linkFlags_high
    (hk : 3 ≤ k) :
    linkFlags.testBit k = false := by
  apply Nat.testBit_lt_two_pow
  calc linkFlags < 2 ^ 3 := by decide
    _ ≤ 2 ^ k := Nat.pow_le_pow_right (by decide) hk

section Links

variable {wide : Bool} {mem : Nat → Buf}
variable {table next e va level : Nat}

theorem frameOf_link
    (hAligned : 4096 ∣ next)
    (hBound : next < 2 ^ 52) :
    frameOf (mapping next linkFlags) = next :=
  frameOf_mapping hAligned hBound
    (fun _ hLow _ => testBit_linkFlags_high (by omega))

theorem has_present_link
    (hAligned : 4096 ∣ next) :
    has (mapping next linkFlags) present = true := by
  rw [has_present, testBit_mapping_low hAligned (by decide)]
  decide

theorem has_large_link
    (hAligned : 4096 ∣ next) :
    has (mapping next linkFlags) large = false := by
  rw [has_large, testBit_mapping_low hAligned (by decide)]
  decide

theorem has_user_link
    (hAligned : 4096 ∣ next) :
    has (mapping next linkFlags) user = true := by
  rw [has_user, testBit_mapping_low hAligned (by decide)]
  decide

theorem has_writable_link
    (hAligned : 4096 ∣ next) :
    has (mapping next linkFlags) writable = true := by
  rw [has_writable, testBit_mapping_low hAligned (by decide)]
  decide

theorem has_noExec_link
    (hBound : next < 2 ^ 52) :
    has (mapping next linkFlags) noExec = false := by
  rw [has_noExec, mapping, Nat.testBit_or,
    testBit_linkFlags_high (by decide), Bool.or_false]
  exact Nat.testBit_lt_two_pow
    (Nat.lt_trans hBound (by decide))

theorem under_link
    (hAligned : 4096 ∣ next)
    (hBound : next < 2 ^ 52)
    (leaf : Leaf) :
    Leaf.under (mapping next linkFlags) leaf = leaf := by
  simp only [Leaf.under, has_user_link hAligned,
    has_writable_link hAligned, has_noExec_link hBound,
    Bool.true_and, Bool.false_or]

/- A walk goes through such an entry as if it led here. -/
theorem walk_link
    (hEntry :
      entry wide (mem table) (index wide (level + 1) va) =
        mapping next linkFlags)
    (hAligned : 4096 ∣ next)
    (hBound : next < 2 ^ 52) :
    walk wide mem (level + 1) table va =
      walk wide mem level next va := by
  simp only [walk, hEntry, has_present_link hAligned,
    has_large_link hAligned, frameOf_link hAligned hBound]
  cases walk wide mem level next va with
  | none => rfl
  | some leaf =>
      simp [under_link hAligned hBound]

end Links

--
-- Borrowed Tables
--

/-
  A walk whose first tables are given by what is in them,
  each with the place of the entry that leads to the next
  one. Where it leaves them, it goes on in the memory.
-/
def walkDown
    (wide : Bool)
    (mem : Nat → Buf) :
    (level : Nat) → (spine : List (Buf × Nat)) →
      (va : Nat) → Option Leaf
  | _, [], _ => none
  | 0, (b, _) :: _, va =>
      let e := entry wide b (index wide 0 va)
      if has e present then some (leafAt e 4096 va) else none
  | level + 1, (b, i) :: rest, va =>
      let k := index wide (level + 1) va
      let e := entry wide b k
      if !has e present then
        none
      else if has e large then
        if level = 2 then none
        else some (leafAt e (reach wide (level + 1)) va)
      else if k = i then
        (walkDown wide mem level rest va).map (Leaf.under e)
      else
        (walk wide mem level (frameOf e) va).map
          (Leaf.under e)

/-
  Nothing is mapped in either, or the same address in both,
  in the second one not for user code, and for no less of
  what the kernel may do in the first one.
-/
inductive Keeps : Option Leaf → Option Leaf → Prop
  | none : Keeps none none
  | some {kernel own : Leaf}
      (hPhys : own.phys = kernel.phys)
      (hUser : own.user = false)
      (hWritable :
        kernel.writable = true → own.writable = true)
      (hNoExec : own.noExec = true → kernel.noExec = true) :
      Keeps (some kernel) (some own)

section Borrowed

variable {wide : Bool} {mem : Nat → Buf} {e va : Nat}

theorem has_supervisor
    (hBound : e < 2 ^ (8 * entryBytes wide))
    (hk : k ≠ 2) :
    has (supervisor wide e) (2 ^ k) = has e (2 ^ k) := by
  rw [has_two_pow, has_two_pow, testBit_supervisor hBound]
  simp [hk]

theorem keeps_leafAt
    (hBound : e < 2 ^ (8 * entryBytes wide))
    (size : Nat) :
    Keeps (some (leafAt e size va))
      (some (leafAt (supervisor wide e) size va)) := by
  refine .some ?_ (has_user_supervisor wide e) ?_ ?_
  · simp only [leafAt, frameOf_supervisor hBound]
  · intro hWritable
    exact (has_supervisor (k := 1) hBound (by decide)).trans
      hWritable
  · intro hNoExec
    exact (has_supervisor (k := 63) hBound
      (by decide)).symm.trans hNoExec

theorem keeps_under
    (hBound : e < 2 ^ (8 * entryBytes wide))
    (found : Option Leaf) :
    Keeps (found.map (Leaf.under e))
      (found.map (Leaf.under (supervisor wide e))) := by
  cases found with
  | none => exact .none
  | some leaf =>
      refine .some rfl ?_ ?_ ?_
      · simp only [Leaf.under, has_user_supervisor,
          Bool.false_and]
      · intro hWritable
        have hSame : has (supervisor wide e) writable =
            has e writable :=
          has_supervisor (k := 1) hBound (by decide)
        simp only [Leaf.under, hSame]
        exact hWritable
      · intro hNoExec
        have hSame : has (supervisor wide e) noExec =
            has e noExec :=
          has_supervisor (k := 63) hBound (by decide)
        simp only [Leaf.under, hSame] at hNoExec
        exact hNoExec

/- What the kernel's entry takes away is not asked for. -/
theorem Keeps.under
    {kernel own : Option Leaf}
    (hKeeps : Keeps kernel own)
    (e : Nat) :
    Keeps (kernel.map (Leaf.under e)) own := by
  cases hKeeps with
  | none => exact .none
  | some hPhys hUser hWritable hNoExec =>
      refine .some hPhys hUser ?_ ?_
      · intro hBoth
        exact hWritable
          ((Bool.and_eq_true_iff.mp hBoth).2)
      · intro hOwn
        simp only [Leaf.under, hNoExec hOwn, Bool.or_true]

variable {rest : List (Buf × Nat)}

/- A table of pages that was cloned at the entry. -/
theorem keeps_page
    {table i : Nat}
    (hEntry :
      entry wide (mem table) (index wide 0 va) =
        supervisor wide (entry wide b (index wide 0 va))) :
    Keeps (walkDown wide mem 0 ((b, i) :: rest) va)
      (walk wide mem 0 table va) := by
  have hBound := entry_lt wide b (index wide 0 va)
  simp only [walkDown, walk, hEntry,
    has_present_supervisor hBound]
  split
  · exact keeps_leafAt hBound 4096
  · exact .none

/- A table that was cloned at the entry, off the spine. -/
theorem keeps_beside
    {level table i : Nat}
    (hBeside : index wide (level + 1) va ≠ i)
    (hEntry :
      entry wide (mem table) (index wide (level + 1) va) =
        supervisor wide
          (entry wide b (index wide (level + 1) va))) :
    Keeps (walkDown wide mem (level + 1) ((b, i) :: rest) va)
      (walk wide mem (level + 1) table va) := by
  have hBound := entry_lt wide b (index wide (level + 1) va)
  simp only [walkDown, walk, hEntry, if_neg hBeside,
    has_present_supervisor hBound,
    has_large_supervisor hBound, frameOf_supervisor hBound]
  split
  · exact .none
  · split
    · split
      · exact .none
      · exact keeps_leafAt hBound _
    · exact keeps_under hBound _

/- The spine leads to the next cloned table. -/
theorem keeps_link
    {level table next i : Nat}
    (hIndex : index wide (level + 1) va = i)
    (hPresent : has (entry wide b i) present = true)
    (hLarge : has (entry wide b i) large = false)
    (hEntry :
      entry wide (mem table) i = mapping next linkFlags)
    (hAligned : 4096 ∣ next)
    (hBound : next < 2 ^ 52)
    (hRest : Keeps (walkDown wide mem level rest va)
      (walk wide mem level next va)) :
    Keeps (walkDown wide mem (level + 1) ((b, i) :: rest) va)
      (walk wide mem (level + 1) table va) := by
  rw [walk_link (hIndex ▸ hEntry) hAligned hBound]
  simp only [walkDown, hIndex, hPresent, hLarge, if_true,
    Bool.not_true, Bool.false_eq_true, if_false]
  exact hRest.under _

theorem Keeps.user_false
    {kernel : Option Leaf}
    {own : Leaf}
    (hKeeps : Keeps kernel (Option.some own)) :
    own.user = false := by
  cases hKeeps with
  | some _ hUser => exact hUser

/-
  As long as the tables are what they are in the memory, a
  walk down them is the walk from the first one.
-/
theorem walkDown_step
    {level table next i : Nat}
    (hSame : mem table = b)
    (hNext : frameOf (entry wide b i) = next)
    (hRest : index wide (level + 1) va = i →
      walkDown wide mem level rest va =
        walk wide mem level next va) :
    walkDown wide mem (level + 1) ((b, i) :: rest) va =
      walk wide mem (level + 1) table va := by
  simp only [walkDown, walk, hSame]
  by_cases hIndex : index wide (level + 1) va = i
  · rw [if_pos hIndex, hRest hIndex, hIndex, hNext]
  · rw [if_neg hIndex]

theorem walkDown_page
    {table i : Nat}
    (hSame : mem table = b) :
    walkDown wide mem 0 ((b, i) :: rest) va =
      walk wide mem 0 table va := by
  simp only [walkDown, walk, hSame]

end Borrowed

end KvantOS.Paging
