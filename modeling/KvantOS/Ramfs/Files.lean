import KvantOS.Heap.Model
import KvantOS.Kvfs.Refinement

/-
  This file models the RAM file system of `ramfs.c`, a table
  of names whose contents are blocks of the kernel heap, and
  its adapters in `vfs_native.c`. It proves that the table is
  a finite map and owns its blocks: none is lost, freed twice
  or used after it was freed.

  A call that frees a block that is not there, or writes
  outside of one, has no value. What `kmalloc` answers is a
  part of each call.

  Key definitions include:
    * `RFile`, `Ram`
    * `ramfsCreate`, `ramfsWrite`
    * `ramfsDelete`, `ramfsRename`
    * `rfsRead`, `rfsWrite`, `Sound`

  Key theorems include:
    * `Change.sound`, `Change.map_eq`
    * `ramfs_implements_map`, `rfs_round_trip`
-/

namespace KvantOS.Ramfs

open Kvfs (nativeNameLength nativeNameLength_spec strip
  slice_eq)

--
-- The Table and the Heap
--

/- What `kmalloc` has handed out. -/
structure Block where
  bytes : Nat
  mem : Buf

/- `rfile_t`. -/
structure RFile where
  name : Fin 24 → UInt8
  data : Nat
  size : UInt32
  used : Bool

def RFile.nameOf (f : RFile) : CStr :=
  CStr.ofBuffer f.name

/- The table, and the blocks by their addresses. -/
structure Ram where
  files : Fin 32 → RFile
  heap : Nat → Option Block

def Ram.edit
    (r : Ram)
    (i : Fin 32)
    (f : RFile → RFile) : Ram :=
  { r with files := Function.update r.files i (f (r.files i)) }

def Ram.setBlock
    (r : Ram)
    (p : Nat)
    (b : Option Block) : Ram :=
  { r with heap := Function.update r.heap p b }

/- An address or 0, and what is in the memory there. -/
structure Answer where
  address : Nat
  old : Buf

/- `kmalloc`, which refuses an empty request. -/
def kmalloc
    (a : Answer)
    (n : UInt32)
    (r : Ram) : Nat × Ram :=
  if n = 0 ∨ a.address = 0 then
    (0, r)
  else
    (a.address, r.setBlock a.address (some ⟨n.toNat, a.old⟩))

def kfree
    (p : Nat)
    (r : Ram) : Option Ram :=
  (r.heap p).map fun _ => r.setBlock p none

/- The bytes of a file, and the terminator behind them. -/
def store
    (p : Nat)
    (size : UInt32)
    (bytes : Buf → Buf)
    (r : Ram) : Option Ram :=
  (r.heap p).bind fun b =>
    if size.toNat < b.bytes then
      let mem := Function.update (bytes b.mem) size.toNat 0
      some (r.setBlock p (some { b with mem }))
    else
      none

--
-- Calls
--

def ramfsFind
    (r : Ram)
    (name : CStr) : Option (Fin 32) :=
  (List.finRange 32).find? fun i =>
    (r.files i).used && (r.files i).nameOf = name

/- The first entry that is not in use. -/
def findFree (r : Ram) : Option (Fin 32) :=
  (List.finRange 32).find? fun i => !(r.files i).used

/- `strncpy`, which leaves what is behind the terminator. -/
def strncpy
    (old : Fin 24 → UInt8)
    (s : CStr) : Fin 24 → UInt8 :=
  fun i =>
    if i.val < min s.length 23 then s.bytes.getD i 0
    else if i.val = min s.length 23 then 0
    else old i

/- A size of 0 stands for the length of the string. -/
def sizeGiven
    (data : Option Buf)
    (size : UInt32) : Option UInt32 :=
  match data with
  | none => some size
  | some src =>
      if size = 0 then
        (Heap.strlen (2 ^ 32) src 0).map .ofNat
      else
        some size

def ramfsCreate
    (a : Answer)
    (r : Ram)
    (name : Option CStr)
    (data : Option Buf)
    (size : UInt32) : Option (Int × Ram) :=
  match name with
  | none => some (-4, r)
  | some name =>
      if name.bytes = [] then some (-4, r)
      else if 24 ≤ name.length then some (-5, r)
      else if (ramfsFind r name).isSome then some (-2, r)
      else
        (sizeGiven data size).bind fun size =>
          match findFree r with
          | none => some (-1, r)
          | some i =>
              let r := r.edit i fun f =>
                { f with name := strncpy f.name name }
              let (p, r) := kmalloc a (size + 1) r
              let r := r.edit i fun f => { f with data := p }
              if p = 0 then some (-3, r)
              else
                (store p size (fun m => data.elim m
                  fun src => m.copy 0 src size.toNat) r).map
                  fun r => (0, r.edit i fun f =>
                    { f with size, used := true })

def ramfsWrite
    (a : Answer)
    (r : Ram)
    (name : Option CStr)
    (data : Option Buf)
    (size : UInt32) : Option (Int × Ram) :=
  match name with
  | none => some (-4, r)
  | some name =>
      if name.bytes = [] then some (-4, r)
      else if 24 ≤ name.length then some (-5, r)
      else
        (sizeGiven data size).bind fun size =>
          if size = 0xFFFFFFFF then some (-3, r)
          else
            match ramfsFind r name with
            | none => ramfsCreate a r (some name) data size
            | some i =>
                let (p, r) := kmalloc a (size + 1) r
                if p = 0 then some (-3, r)
                else
                  (store p size (fun m => data.elim
                    (m.fill 0 0 size.toNat) fun src =>
                      m.copy 0 src size.toNat) r).bind
                    fun r =>
                      let old := (r.files i).data
                      (kfree old (r.edit i fun f =>
                        { f with data := p, size })).map
                        fun r => (0, r)

/- A slot of the table after `memset`. -/
def RFile.zero : RFile where
  name := fun _ => 0
  data := 0
  size := 0
  used := false

def ramfsDelete
    (r : Ram)
    (name : CStr) : Option (Int × Ram) :=
  match ramfsFind r name with
  | none => some (-1, r)
  | some i =>
      let p := (r.files i).data
      (if p ≠ 0 then kfree p r else some r).map fun r =>
        (0, r.edit i fun _ => .zero)

def ramfsRename
    (r : Ram)
    (src dst : Option CStr) : Int × Ram :=
  if nativeNameLength dst 24 < 0 ∨
      nativeNameLength src 24 < 0 then
    (-4, r)
  else
    match src, dst with
    | some src, some dst =>
        match ramfsFind r src with
        | none => (-3, r)
        | some i =>
            if src = dst then (0, r)
            else if (ramfsFind r dst).isSome then (-5, r)
            else (0, r.edit i fun f =>
              { f with name := CStr.toBuffer 24 dst })
    -- both names passed the check, so neither is null
    | _, _ => (-4, r)

inductive Call where
  | create
      (name : Option CStr)
      (data : Option Buf)
      (size : UInt32)
  | write
      (name : Option CStr)
      (data : Option Buf)
      (size : UInt32)
  | delete (name : CStr)
  | rename (src dst : Option CStr)

def Call.run
    (a : Answer)
    (r : Ram) : Call → Option (Int × Ram)
  | .create name data size => ramfsCreate a r name data size
  | .write name data size => ramfsWrite a r name data size
  | .delete name => ramfsDelete r name
  | .rename src dst => some (ramfsRename r src dst)

--
-- The Map of Files
--

/- The bytes that an entry leads to. -/
def content
    (heap : Nat → Option Block)
    (f : RFile) : List UInt8 :=
  (heap f.data).elim [] fun b =>
    (List.range f.size.toNat).map b.mem

/- What an entry binds. -/
def slot
    (heap : Nat → Option Block)
    (f : RFile) : Option (CStr × List UInt8) :=
  if f.used then some (f.nameOf, content heap f) else none

/- The files, by lookup in the table. -/
def Ram.map (r : Ram) : CStr → Option (List UInt8) :=
  fun name => (ramfsFind r name).map fun i =>
    content r.heap (r.files i)

/- An entry has a name, and a block that ends in a zero. -/
structure Good
    (heap : Nat → Option Block)
    (f : RFile) : Prop where
  terminated : CStr.Terminated f.name
  named : f.nameOf.bytes ≠ []
  block : ∃ b, heap f.data = some b ∧
    b.bytes = f.size.toNat + 1 ∧ b.mem f.size.toNat = 0

/- No two entries in use have the same value. -/
def Unique
    {α : Type}
    (files : Fin 32 → RFile)
    (value : RFile → α) : Prop :=
  ∀ i j, (files i).used = true → (files j).used = true →
    value (files i) = value (files j) → i = j

/-
  Names and blocks belong to one entry each, and there is no
  block without an entry.
-/
structure Sound (r : Ram) : Prop where
  good : ∀ i, (r.files i).used = true →
    Good r.heap (r.files i)
  names : Unique r.files RFile.nameOf
  apart : Unique r.files RFile.data
  owned : ∀ p b, r.heap p = some b →
    ∃ i, (r.files i).used = true ∧ (r.files i).data = p
  null : r.heap 0 = none

section Tables

variable {r : Ram} {i j : Fin 32} {name : CStr}
variable {f : RFile} {heap : Nat → Option Block}

theorem slot_eq_some
    {l : List UInt8}
    (hSlot : slot heap f = some (name, l)) :
    f.used = true ∧ f.nameOf = name ∧ content heap f = l := by
  unfold slot at hSlot
  split at hSlot
  · rw [Option.some.injEq, Prod.mk.injEq] at hSlot
    exact ⟨‹_›, hSlot⟩
  · cases hSlot

theorem ramfsFind_some
    (hFind : ramfsFind r name = some i) :
    (r.files i).used = true ∧ (r.files i).nameOf = name := by
  simpa using List.find?_some hFind

theorem ramfsFind_none
    (hFind : ramfsFind r name = none)
    (hUsed : (r.files i).used = true) :
    (r.files i).nameOf ≠ name := by
  have hTest := List.find?_eq_none.mp hFind i
    (List.mem_finRange i)
  simpa [hUsed] using hTest

theorem Sound.represents
    (hSound : Sound r) :
    SlotMap.Represents (fun i => slot r.heap (r.files i))
      r.map := by
  intro name l
  unfold Ram.map
  cases hFind : ramfsFind r name with
  | none =>
      refine iff_of_false (by simp) ?_
      rintro ⟨i, hSlot⟩
      rcases slot_eq_some hSlot with ⟨hUsed, hName, -⟩
      exact ramfsFind_none hFind hUsed hName
  | some i =>
      rcases ramfsFind_some hFind with ⟨hUsed, rfl⟩
      rw [Option.map_some, Option.some.injEq]
      constructor
      · rintro rfl
        exact ⟨i, if_pos hUsed⟩
      · rintro ⟨j, hSlot⟩
        rcases slot_eq_some hSlot with ⟨hOther, hName, hIs⟩
        rw [← hIs, hSound.names j i hOther hUsed hName]

theorem slot_of_find
    (hFind : ramfsFind r name = some i) :
    slot r.heap (r.files i) =
      some (name, content r.heap (r.files i)) := by
  rcases ramfsFind_some hFind with ⟨hUsed, rfl⟩
  exact if_pos hUsed

theorem Sound.distinct
    (hSound : Sound r) :
    SlotMap.Distinct fun i => slot r.heap (r.files i) := by
  intro i j name l l' hI hJ
  rcases slot_eq_some hI with ⟨hUsed, hName, -⟩
  rcases slot_eq_some hJ with ⟨hUsed', hName', -⟩
  exact hSound.names i j hUsed hUsed' (hName.trans hName'.symm)

theorem Unique.update
    {α : Type}
    {files : Fin 32 → RFile}
    {value : RFile → α}
    (hUnique : Unique files value)
    (hNew : f.used = true → ∀ j, j ≠ i →
      (files j).used = true → value (files j) ≠ value f) :
    Unique (Function.update files i f) value := by
  intro j k hJ hK hValue
  rw [Function.update_apply] at hJ hK hValue
  rw [Function.update_apply] at hValue
  by_cases hEq : j = i <;> by_cases hEq' : k = i
  · exact hEq.trans hEq'.symm
  · rw [if_pos hEq] at hJ hValue
    rw [if_neg hEq'] at hK hValue
    exact absurd hValue.symm (hNew hJ k hEq' hK)
  · rw [if_neg hEq] at hJ hValue
    rw [if_pos hEq'] at hK hValue
    exact absurd hValue (hNew hK j hEq hJ)
  · rw [if_neg hEq] at hJ hValue
    rw [if_neg hEq'] at hK hValue
    exact hUnique j k hJ hK hValue

/- One entry changes, and only its own blocks. -/
structure Change
    (r : Ram)
    (i : Fin 32)
    (f : RFile)
    (heap : Nat → Option Block) : Prop where
  kept : ∀ j, j ≠ i → (r.files j).used = true →
    heap (r.files j).data = r.heap (r.files j).data
  good : f.used = true → Good heap f
  names : f.used = true → ∀ j, j ≠ i →
    (r.files j).used = true → (r.files j).nameOf ≠ f.nameOf
  apart : f.used = true → ∀ j, j ≠ i →
    (r.files j).used = true → (r.files j).data ≠ f.data
  owned : ∀ p b, heap p = some b →
    f.used = true ∧ f.data = p ∨ ∃ j, j ≠ i ∧
      (r.files j).used = true ∧ (r.files j).data = p
  null : heap 0 = none

theorem Change.sound
    (hChange : Change r i f heap)
    (hSound : Sound r) :
    Sound ⟨Function.update r.files i f, heap⟩ := by
  have hSelf : Function.update r.files i f i = f :=
    Function.update_self ..
  have hOther : ∀ {j}, j ≠ i →
      Function.update r.files i f j = r.files j :=
    fun hNe => Function.update_of_ne hNe ..
  refine ⟨?_, hSound.names.update hChange.names,
    hSound.apart.update hChange.apart, ?_, hChange.null⟩
  · intro j hUsed
    dsimp only at hUsed ⊢
    by_cases hEq : j = i
    · rw [hEq, hSelf] at hUsed ⊢
      exact hChange.good hUsed
    · rw [hOther hEq] at hUsed ⊢
      rcases hSound.good j hUsed with ⟨hTerm, hNamed, hBlock⟩
      exact ⟨hTerm, hNamed, (hChange.kept j hEq hUsed) ▸ hBlock⟩
  · intro p b hBlock
    rcases hChange.owned p b hBlock with
      ⟨hUsed, hData⟩ | ⟨j, hNe, hUsed, hData⟩
    · refine ⟨i, ?_⟩
      dsimp only
      rw [hSelf]
      exact ⟨hUsed, hData⟩
    · refine ⟨j, ?_⟩
      dsimp only
      rw [hOther hNe]
      exact ⟨hUsed, hData⟩

/- The new map is the one that the changed table stores. -/
theorem Change.map_eq
    (hChange : Change r i f heap)
    (hSound : Sound r)
    {m : CStr → Option (List UInt8)}
    (hMap : SlotMap.Represents (Function.update
      (fun j => slot r.heap (r.files j)) i (slot heap f)) m) :
    Ram.map ⟨Function.update r.files i f, heap⟩ = m := by
  refine (hChange.sound hSound).represents.unique ?_
  have hSlots : (fun j => slot heap
      (Function.update r.files i f j)) = Function.update
        (fun j => slot r.heap (r.files j)) i (slot heap f) := by
    funext j
    by_cases hEq : j = i
    · rw [hEq, Function.update_self, Function.update_self]
    · rw [Function.update_of_ne hEq, Function.update_of_ne hEq]
      unfold slot
      split
      · unfold content
        rw [hChange.kept j hEq ‹_›]
      · rfl
  dsimp only
  rw [hSlots]
  exact hMap

end Tables

--
-- The Meaning of Calls
--

def BadName (name : Option CStr) : Prop :=
  ∀ key, name = some key → key.bytes = [] ∨ 24 ≤ key.length

/- No memory, or none that a size with its end can name. -/
def NoRoom
    (a : Answer)
    (data : Option Buf)
    (size : UInt32) : Prop :=
  a.address = 0 ∨
    ∃ n, sizeGiven data size = some n ∧ n + 1 = 0

def Full (r : Ram) : Prop :=
  ∀ i, (r.files i).used = true

/- A file as long as the size, with the bytes of the data. -/
def Holds
    (data : Option Buf)
    (size : UInt32)
    (l : List UInt8) : Prop :=
  ∃ n, sizeGiven data size = some n ∧ l.length = n.toNat ∧
    ∀ src, data = some src →
      l = (List.range n.toNat).map src

namespace Call

/- The reasons for a call to fail. -/
def Fails
    (a : Answer)
    (r : Ram) : Call → Prop
  | .create name data size =>
      BadName name ∨ NoRoom a data size ∨ Full r ∨
        ∃ key, name = some key ∧ r.map key ≠ none
  | .write name data size =>
      BadName name ∨ NoRoom a data size ∨
        Full r ∧ ∃ key, name = some key ∧ r.map key = none
  | .delete name => r.map name = none
  | .rename src dst =>
      nativeNameLength src 24 < 0 ∨
        nativeNameLength dst 24 < 0 ∨
        (∃ s, src = some s ∧ r.map s = none) ∨
        ∃ d, dst = some d ∧ src ≠ dst ∧ r.map d ≠ none

/- What a call does to the files when it succeeds. -/
def Effect
    (files files' : CStr → Option (List UInt8)) :
    Call → Prop
  | .create name data size =>
      ∃ key l, name = some key ∧ files key = none ∧
        Holds data size l ∧
        files' = Function.update files key (some l)
  | .write name data size =>
      ∃ key l, name = some key ∧ Holds data size l ∧
        (data = none → files key ≠ none →
          l = List.replicate l.length 0) ∧
        files' = Function.update files key (some l)
  | .delete name =>
      files name ≠ none ∧
        files' = Function.update files name none
  | .rename src dst =>
      ∃ s d l, src = some s ∧ dst = some d ∧
        files s = some l ∧ (d = s ∨ files d = none) ∧
        files' = Function.update
          (Function.update files s none) d (some l)

/- A call ends, and has its effect or a reason to fail. -/
def Meets
    (a : Answer)
    (r : Ram)
    (c : Call)
    (out : Option (Int × Ram)) : Prop :=
  ∃ code r', out = some (code, r') ∧ Sound r' ∧
    if code = 0 then c.Effect r.map r'.map
    else r'.map = r.map ∧ c.Fails a r

/-
  `kmalloc` gives no block that is in use, and data without a
  size is a string.
-/
def Allowed
    (a : Answer)
    (r : Ram)
    (c : Call) : Prop :=
  (a.address ≠ 0 → r.heap a.address = none) ∧
    match c with
    | .create _ data size | .write _ data size =>
        (sizeGiven data size).isSome = true
    | _ => True

end Call

section Calls

variable {a : Answer} {r : Ram} {c : Call} {i j : Fin 32}
variable {data : Option Buf} {size n : UInt32}
variable {p : Nat} {mem : Buf} {f : RFile}

theorem Call.Meets.refused
    {code : Int}
    (hSound : Sound r)
    (hCode : code ≠ 0)
    (hFails : c.Fails a r) :
    c.Meets a r (some (code, r)) :=
  ⟨code, r, rfl, hSound, by
    rw [if_neg hCode]
    exact ⟨rfl, hFails⟩⟩

theorem strncpy_spec
    {s : CStr}
    (old : Fin 24 → UInt8)
    (hLength : s.length < 24) :
    CStr.ofBuffer (strncpy old s) = s ∧
      CStr.Terminated (strncpy old s) := by
  have hMin : min s.length 23 = s.length := by omega
  have hEnd : ∀ k : Fin 24, k.val ≤ s.length →
      strncpy old s k = s.bytes.getD k 0 := by
    intro k hk
    unfold strncpy
    rw [hMin]
    split
    · rfl
    · rw [if_pos (by omega), List.getD_eq_default]
      unfold CStr.length at *
      omega
  refine ⟨CStr.ofBuffer_eq hLength hEnd,
    ⟨s.length, hLength⟩, ?_⟩
  rw [hEnd _ (Nat.le_refl _)]
  exact List.getD_eq_default _ _ (Nat.le_refl _)

theorem sizeGiven_again
    (hSize : sizeGiven data size = some n) :
    sizeGiven data n = some n := by
  cases data with
  | none => rfl
  | some src =>
      unfold sizeGiven at hSize ⊢
      dsimp only at hSize ⊢
      split
      · rename_i hZero
        split at hSize
        · rw [hSize, hZero]
        · cases hSize
          exact absurd hZero ‹_›
      · rfl

/- No memory, or a block for the size and its terminator. -/
theorem kmalloc_cases
    (a : Answer)
    (n : UInt32)
    (r : Ram) :
    (n + 1 = 0 ∨ a.address = 0) ∧
        kmalloc a (n + 1) r = (0, r) ∨
      a.address ≠ 0 ∧ kmalloc a (n + 1) r = (a.address,
        r.setBlock a.address (some ⟨n.toNat + 1, a.old⟩)) := by
  unfold kmalloc
  split
  · exact .inl ⟨‹_›, rfl⟩
  · rename_i hRoom
    rw [not_or] at hRoom
    refine .inr ⟨hRoom.2, ?_⟩
    have hNe : (n + 1).toNat ≠ 0 := fun hZero =>
      hRoom.1 (UInt32.toNat_inj.mp hZero)
    have hLt := n.toNat_lt
    rw [UInt32.toNat_add, UInt32.toNat_one] at hNe
    have hNat : (n + 1).toNat = n.toNat + 1 := by
      rw [UInt32.toNat_add, UInt32.toNat_one]
      omega
    rw [hNat]

variable {heap : Nat → Option Block}

/- What such a block holds, and the entry that gets it. -/
def newBlock
    (n : UInt32)
    (mem : Buf) : Block where
  bytes := n.toNat + 1
  mem := Function.update mem n.toNat 0

theorem map_copy
    (old src : Buf)
    (n : Nat) :
    (List.range n).map (old.copy 0 src n) =
      (List.range n).map src := by
  refine List.map_congr_left fun k hk => ?_
  rw [Buf.copy, Nat.zero_add]
  exact if_pos ⟨Nat.zero_le k, List.mem_range.mp hk⟩

theorem map_fill
    (old : Buf)
    (n : Nat) :
    (List.range n).map (old.fill 0 0 n) =
      List.replicate n 0 := by
  refine List.eq_replicate_iff.mpr ⟨by simp, fun b hb => ?_⟩
  rcases List.mem_map.mp hb with ⟨k, hk, rfl⟩
  rw [Buf.fill, Nat.zero_add]
  exact if_pos ⟨Nat.zero_le k, List.mem_range.mp hk⟩

theorem Sound.fresh
    (hSound : Sound r)
    (hNone : r.heap p = none)
    (hUsed : (r.files j).used = true) :
    (r.files j).data ≠ p := by
  rintro rfl
  rcases (hSound.good j hUsed).block with ⟨b, hSome, -⟩
  rw [hNone] at hSome
  cases hSome

variable {name : Option CStr} {key : CStr}

/- An entry gets such a block, and gives up the one it had. -/
theorem Sound.takes
    {buffer : Fin 24 → UInt8}
    (hSound : Sound r)
    (hNone : r.heap p = none)
    (hPos : p ≠ 0)
    (hName : CStr.ofBuffer buffer = key)
    (hTerm : CStr.Terminated buffer)
    (hNamed : key.bytes ≠ [])
    (hOther : ∀ j, j ≠ i → (r.files j).used = true →
      (r.files j).nameOf ≠ key)
    (hNew : heap p = some (newBlock n mem))
    (hHeap : ∀ q, q ≠ p → heap q =
      if (r.files i).used ∧ (r.files i).data = q then none
      else r.heap q) :
    Sound ⟨Function.update r.files i ⟨buffer, p, n, true⟩,
        heap⟩ ∧
      ∀ m, SlotMap.Represents (Function.update
        (fun j => slot r.heap (r.files j)) i
          (some (key, (List.range n.toNat).map mem))) m →
        Ram.map ⟨Function.update r.files i
          ⟨buffer, p, n, true⟩, heap⟩ = m := by
  subst hName
  have hContent : slot heap ⟨buffer, p, n, true⟩ =
      some (CStr.ofBuffer buffer,
        (List.range n.toNat).map mem) := by
    refine (if_pos rfl).trans (congrArg some (Prod.ext rfl ?_))
    unfold content
    dsimp only
    rw [hNew]
    refine List.map_congr_left fun k hk => ?_
    exact Function.update_of_ne
      (Nat.ne_of_lt (List.mem_range.mp hk)) ..
  rw [← hContent]
  suffices hChange : Change r i ⟨buffer, p, n, true⟩ heap from
    ⟨hChange.sound hSound, fun m => hChange.map_eq hSound⟩
  refine ⟨?_, fun _ => ⟨hTerm, hNamed, _, hNew, rfl,
      Function.update_self ..⟩, fun _ => hOther,
    fun _ j _ hUsed => hSound.fresh hNone hUsed, ?_, ?_⟩
  · intro j hNe hUsed
    rw [hHeap _ (hSound.fresh hNone hUsed)]
    refine if_neg ?_
    rintro ⟨hOwn, hData⟩
    exact hNe (hSound.apart i j hOwn hUsed hData).symm
  · intro q b hIn
    by_cases hEq : q = p
    · exact .inl ⟨rfl, hEq.symm⟩
    · rw [hHeap q hEq] at hIn
      split at hIn
      · cases hIn
      · rename_i hNot
        rcases hSound.owned q b hIn with ⟨j, hUsed, hData⟩
        refine .inr ⟨j, ?_, hUsed, hData⟩
        rintro rfl
        exact hNot ⟨hUsed, hData⟩
  · rw [hHeap 0 hPos.symm]
    split
    · rfl
    · exact hSound.null

theorem findFree_none
    (hFree : findFree r = none) :
    Full r := by
  intro i
  simpa using List.find?_eq_none.mp hFree i
    (List.mem_finRange i)

theorem ramfsCreate_meets
    (hSound : Sound r)
    (hAllowed : (Call.create name data size).Allowed a r) :
    (Call.create name data size).Meets a r
      (ramfsCreate a r name data size) := by
  have hRefuse : ∀ {code : Int}, code ≠ 0 →
      (Call.create name data size).Fails a r → _ :=
    fun hCode => Call.Meets.refused hSound hCode
  rcases Option.isSome_iff_exists.mp hAllowed.2 with
    ⟨n, hSize⟩
  unfold ramfsCreate
  simp only [hSize, Option.bind_some]
  cases name with
  | none => exact hRefuse (by decide) (.inl nofun)
  | some key =>
  dsimp only
  split
  · refine hRefuse (by decide) (.inl ?_)
    rintro _ ⟨⟩
    exact .inl ‹_›
  rename_i hNamed
  split
  · refine hRefuse (by decide) (.inl ?_)
    rintro _ ⟨⟩
    exact .inr ‹_›
  rename_i hShort
  cases hFind : ramfsFind r key with
  | some i =>
      refine hRefuse (by decide) (.inr (.inr (.inr
        ⟨key, rfl, ?_⟩)))
      simp [Ram.map, hFind]
  | none =>
  cases hFree : findFree r with
  | none =>
      exact hRefuse (by decide)
        (.inr (.inr (.inl (findFree_none hFree))))
  | some i =>
  have hUnused : (r.files i).used = false := by
    simpa using List.find?_some hFree
  have hOther : ∀ {j}, (r.files j).used = true → j ≠ i := by
    rintro j hUsed rfl
    rw [hUnused] at hUsed
    cases hUsed
  have hSlot : slot r.heap (r.files i) = none := by
    simp [slot, hUnused]
  rcases @strncpy_spec key (r.files i).name (by omega) with
    ⟨hName, hTerm⟩
  have hOwned : ∀ p b, r.heap p = some b → ∃ j, j ≠ i ∧
      (r.files j).used = true ∧ (r.files j).data = p := by
    intro p b hIn
    rcases hSound.owned p b hIn with ⟨j, hUsed, hData⟩
    exact ⟨j, hOther hUsed, hUsed, hData⟩
  rw [Option.isSome_none, if_neg Bool.false_ne_true]
  dsimp only
  rcases kmalloc_cases a n (r.edit i fun f =>
    { f with name := strncpy f.name key }) with
    ⟨hNo, hNull⟩ | ⟨hSome, hBlock⟩
  · have hChange : Change r i { r.files i with
        name := strncpy (r.files i).name key
        data := 0 } r.heap :=
      ⟨fun _ _ _ => rfl, fun hUsed => absurd rfl (hOther hUsed),
        fun hUsed => absurd rfl (hOther hUsed),
        fun hUsed => absurd rfl (hOther hUsed),
        fun p b hIn => .inr (hOwned p b hIn), hSound.null⟩
    rw [hNull]
    refine ⟨-3, ⟨_, _⟩, by simp [Ram.edit],
      hChange.sound hSound, ?_⟩
    rw [if_neg (by decide)]
    refine ⟨hChange.map_eq hSound ?_, .inr (.inl
      (hNo.symm.imp_right fun hZero => ⟨n, hSize, hZero⟩))⟩
    have hSame : slot r.heap { r.files i with
        name := strncpy (r.files i).name key
        data := 0 } = slot r.heap (r.files i) := by
      simp [slot, hUnused]
    rw [hSame, Function.update_eq_self i
      (fun j => slot r.heap (r.files j))]
    exact hSound.represents
  · rcases hSound.takes (hAllowed.1 hSome) hSome hName hTerm
      hNamed (fun j _ => ramfsFind_none hFind)
      (Function.update_self (f := r.heap) a.address
        (some (newBlock n (data.elim a.old fun src =>
          a.old.copy 0 src n.toNat)))) (i := i) fun q hNe => by
          rw [Function.update_of_ne hNe, hUnused]
          exact (if_neg nofun).symm with ⟨hSound', hFiles⟩
    have hMap : r.map key = none := by simp [Ram.map, hFind]
    rw [hBlock]
    refine ⟨0, ⟨_, _⟩, by
      simp [hSome, store, Ram.edit, Ram.setBlock, newBlock],
      hSound', ?_⟩
    rw [if_pos rfl]
    refine ⟨key, _, rfl, hMap, ⟨n, hSize, ?_, ?_⟩,
      hFiles _ (hSound.represents.fill hSlot hMap _)⟩
    · rw [List.length_map, List.length_range]
    · rintro src rfl
      exact map_copy a.old src n.toNat

theorem ramfsWrite_meets
    (hSound : Sound r)
    (hAllowed : (Call.write name data size).Allowed a r) :
    (Call.write name data size).Meets a r
      (ramfsWrite a r name data size) := by
  have hRefuse : ∀ {code : Int}, code ≠ 0 →
      (Call.write name data size).Fails a r → _ :=
    fun hCode => Call.Meets.refused hSound hCode
  rcases Option.isSome_iff_exists.mp hAllowed.2 with
    ⟨n, hSize⟩
  unfold ramfsWrite
  simp only [hSize, Option.bind_some]
  cases name with
  | none => exact hRefuse (by decide) (.inl nofun)
  | some key =>
  dsimp only
  split
  · refine hRefuse (by decide) (.inl ?_)
    rintro _ ⟨⟩
    exact .inl ‹_›
  rename_i hNamed
  split
  · refine hRefuse (by decide) (.inl ?_)
    rintro _ ⟨⟩
    exact .inr ‹_›
  split
  · rename_i hMost
    exact hRefuse (by decide)
      (.inr (.inl (.inr ⟨n, hSize, hMost ▸ rfl⟩)))
  cases hFind : ramfsFind r key with
  | none =>
      have hMap : r.map key = none := by simp [Ram.map, hFind]
      have hAgain := sizeGiven_again hSize
      rcases @ramfsCreate_meets a r data n (some key) hSound
        ⟨hAllowed.1, Option.isSome_iff_exists.mpr
          ⟨n, hAgain⟩⟩ with
        ⟨code, r', hRun, hSound', hDoes⟩
      refine ⟨code, r', hRun, hSound', ?_⟩
      split
      · rw [if_pos ‹_›] at hDoes
        rcases hDoes with ⟨_, l, ⟨⟩, -, ⟨m, hM, hHolds⟩, hNew⟩
        rw [hAgain, ← hSize] at hM
        exact ⟨key, l, rfl, ⟨m, hM, hHolds⟩,
          fun _ hBound => absurd hMap hBound, hNew⟩
      · rw [if_neg ‹_›] at hDoes
        refine ⟨hDoes.1, ?_⟩
        rcases hDoes.2 with hBad | hRoom | hFull | hBound
        · exact .inl hBad
        · rw [NoRoom, hAgain, ← hSize] at hRoom
          exact .inr (.inl hRoom)
        · exact .inr (.inr ⟨hFull, key, rfl, hMap⟩)
        · rcases hBound with ⟨_, ⟨⟩, hBound⟩
          exact absurd hMap hBound
  | some i =>
  rcases ramfsFind_some hFind with ⟨hUsed, hName⟩
  rcases (hSound.good i hUsed).block with ⟨b, hOld, -⟩
  dsimp only
  rcases kmalloc_cases a n r with
    ⟨hNo, hNull⟩ | ⟨hSome, hBlock⟩
  · rw [hNull]
    exact hRefuse (by decide) (.inr (.inl
      (hNo.symm.imp_right fun hZero => ⟨n, hSize, hZero⟩)))
  · have hNone := hAllowed.1 hSome
    have hNe := hSound.fresh hNone hUsed
    have hNew : ∀ mem, Function.update (Function.update r.heap
        a.address (some (newBlock n mem))) (r.files i).data none
          a.address = some (newBlock n mem) :=
      fun mem => (Function.update_of_ne hNe.symm ..).trans
        (Function.update_self ..)
    rcases hSound.takes (i := i) hNone hSome hName
      (hSound.good i hUsed).terminated hNamed
      (fun j hOther hIn hSame => hOther
        (hSound.names j i hIn hUsed (hSame.trans hName.symm)))
      (hNew (data.elim (a.old.fill 0 0 n.toNat) fun src =>
        a.old.copy 0 src n.toNat)) fun q hQ => by
          rw [Function.update_apply, Function.update_of_ne hQ]
          simp [hUsed, eq_comm] with ⟨hSound', hFiles⟩
    have hSlot := slot_of_find hFind
    have hMap := fun l => hSound.represents.rebind
      hSound.distinct hSlot (.inl rfl : key = key ∨ _) l
    simp only [Function.update_idem] at hMap
    rw [hBlock]
    refine ⟨0, ⟨_, _⟩, by
      simp [hSome, store, kfree, Ram.edit, Ram.setBlock,
        newBlock, Function.update_of_ne hNe, hOld, hUsed],
      hSound', ?_⟩
    rw [if_pos rfl]
    refine ⟨key, _, rfl, ⟨n, hSize, ?_, ?_⟩, ?_,
      hFiles _ (hMap _)⟩
    · rw [List.length_map, List.length_range]
    · rintro src rfl
      exact map_copy a.old src n.toNat
    · rintro rfl -
      rw [List.length_map, List.length_range]
      exact map_fill a.old n.toNat

/- A file is taken out with its block. -/
theorem ramfsDelete_meets
    (hSound : Sound r) :
    (Call.delete key).Meets a r (ramfsDelete r key) := by
  unfold ramfsDelete
  cases hFind : ramfsFind r key with
  | none =>
      exact Call.Meets.refused hSound (by decide)
        (by simp [Call.Fails, Ram.map, hFind])
  | some i =>
      rcases ramfsFind_some hFind with ⟨hUsed, hName⟩
      rcases (hSound.good i hUsed).block with ⟨b, hOld, -⟩
      have hPos : (r.files i).data ≠ 0 := by
        intro hZero
        rw [hZero, hSound.null] at hOld
        cases hOld
      have hChange : Change r i .zero (Function.update r.heap
          (r.files i).data none) := by
        refine ⟨fun j hNe hIn => Function.update_of_ne
          (fun hData => hNe (hSound.apart j i hIn hUsed hData))
          .., nofun, nofun, nofun, ?_, ?_⟩
        · intro p b hIn
          rw [Function.update_apply] at hIn
          split at hIn
          · cases hIn
          · rcases hSound.owned p b hIn with ⟨j, hIs, hData⟩
            refine .inr ⟨j, ?_, hIs, hData⟩
            rintro rfl
            exact absurd hData.symm ‹_›
        · rw [Function.update_of_ne hPos.symm]
          exact hSound.null
      refine ⟨0, ⟨_, _⟩, by
        simp [hPos, kfree, hOld, Ram.edit, Ram.setBlock],
        hChange.sound hSound, ?_⟩
      rw [if_pos rfl]
      refine ⟨by simp [Ram.map, hFind],
        hChange.map_eq hSound ?_⟩
      exact hSound.represents.clear hSound.distinct
        (slot_of_find hFind)

/- A file gets another name that no file has. -/
theorem ramfsRename_meets
    {src dst : Option CStr}
    (hSound : Sound r) :
    (Call.rename src dst).Meets a r
      (some (ramfsRename r src dst)) := by
  have hRefuse : ∀ {code : Int}, code ≠ 0 →
      (Call.rename src dst).Fails a r → _ :=
    fun hCode => Call.Meets.refused hSound hCode
  unfold ramfsRename
  split
  · rename_i hBad
    exact hRefuse (by decide) (hBad.symm.imp_right .inl)
  rename_i hNames
  rw [not_or] at hNames
  rcases nativeNameLength_spec hNames.1 with
    ⟨d, rfl, hShort, hNamed, -⟩
  rcases nativeNameLength_spec hNames.2 with ⟨s, rfl, -⟩
  dsimp only
  cases hFind : ramfsFind r s with
  | none =>
      exact hRefuse (by decide) (.inr (.inr (.inl
        ⟨s, rfl, by simp [Ram.map, hFind]⟩)))
  | some i =>
  rcases ramfsFind_some hFind with ⟨hUsed, hName⟩
  have hSlot := slot_of_find hFind
  have hBound : r.map s = some (content r.heap (r.files i)) :=
    hSound.represents.value_eq hSlot
  dsimp only
  split
  · rename_i hSame
    refine ⟨0, r, rfl, hSound, ?_⟩
    rw [if_pos rfl]
    refine ⟨s, d, _, rfl, rfl, hBound, .inl hSame.symm, ?_⟩
    rw [hSame, Function.update_idem, ← hSame, ← hBound,
      Function.update_eq_self]
  rename_i hNe
  cases hFind' : ramfsFind r d with
  | some j =>
      refine hRefuse (by decide) (.inr (.inr (.inr
        ⟨d, rfl, fun hEq => hNe (Option.some.inj hEq), ?_⟩)))
      simp [Ram.map, hFind']
  | none =>
      have hFree : r.map d = none := by simp [Ram.map, hFind']
      have hGood := hSound.good i hUsed
      have hBuffer := CStr.ofBuffer_toBuffer hShort
      have hChange : Change r i { r.files i with
          name := CStr.toBuffer 24 d } r.heap := by
        refine ⟨fun _ _ _ => rfl, fun _ => ⟨
          CStr.terminated_toBuffer hShort, ?_, hGood.block⟩,
          fun _ j _ hIn => ?_, fun _ j hOther hIn hData =>
            hOther (hSound.apart j i hIn hUsed hData), ?_,
          hSound.null⟩
        · rw [RFile.nameOf, hBuffer]
          exact fun hNil => hNamed (congrArg List.length hNil)
        · rw [RFile.nameOf, RFile.nameOf, hBuffer]
          exact ramfsFind_none hFind' hIn
        · intro p b hIn
          rcases hSound.owned p b hIn with ⟨j, hIs, hData⟩
          by_cases hEq : j = i
          · exact .inl ⟨hUsed, hEq ▸ hData⟩
          · exact .inr ⟨j, hEq, hIs, hData⟩
      refine ⟨0, ⟨_, _⟩, rfl, hChange.sound hSound, ?_⟩
      rw [if_pos rfl]
      refine ⟨s, d, _, rfl, rfl, hBound, .inr hFree,
        hChange.map_eq hSound ?_⟩
      have hNew : slot r.heap { r.files i with
          name := CStr.toBuffer 24 d } =
            some (d, content r.heap (r.files i)) := by
        simp [slot, hUsed, RFile.nameOf, hBuffer, content]
      rw [hNew]
      exact hSound.represents.rebind hSound.distinct hSlot
        (.inr hFree) _

end Calls

--
-- Runs
--

/- The table that `ramfs_init` has cleared. -/
def Ram.empty : Ram where
  files := fun _ => .zero
  heap := fun _ => none

/- The states that calls lead to. -/
inductive Reach : Ram → Prop
  | empty :
      Reach .empty
  | call
      {a : Answer}
      {r r' : Ram}
      {c : Call}
      {code : Int}
      (hReach : Reach r)
      (hAllowed : c.Allowed a r)
      (hRun : c.run a r = some (code, r')) :
      Reach r'

section Runs

variable {a : Answer} {r : Ram} {c : Call}

theorem Call.meets
    (hSound : Sound r)
    (hAllowed : c.Allowed a r) :
    c.Meets a r (c.run a r) := by
  cases c with
  | create name data size =>
      exact ramfsCreate_meets hSound hAllowed
  | write name data size =>
      exact ramfsWrite_meets hSound hAllowed
  | delete name => exact ramfsDelete_meets hSound
  | rename src dst => exact ramfsRename_meets hSound

theorem Reach.sound
    (hReach : Reach r) :
    Sound r := by
  induction hReach with
  | empty => exact ⟨nofun, nofun, nofun, nofun, rfl⟩
  | call _ hAllowed hRun ih =>
      rcases Call.meets ih hAllowed with
        ⟨code, r', hSome, hSound, -⟩
      rw [hRun] at hSome
      cases hSome
      exact hSound

/-
  After any run the table owns its blocks, and the next call
  ends, with its effect on the map of files or, for one of
  the reasons of its own, without any.
-/
theorem ramfs_implements_map
    (hReach : Reach r)
    (hAllowed : c.Allowed a r) :
    Sound r ∧ c.Meets a r (c.run a r) :=
  ⟨hReach.sound, Call.meets hReach.sound hAllowed⟩

/- The first file, of one byte. -/
theorem ramfs_implements_map_first :
    let a : Answer := ⟨8, Buf.zero⟩
    let c : Call := .create (some ⟨[65], by decide⟩)
      (some fun _ => 66) 1
    c.Meets a .empty (c.run a .empty) :=
  (ramfs_implements_map .empty ⟨fun _ => rfl, rfl⟩).2

--
-- The Virtual File System
--

/- `rfs_read`: the bytes read, or nothing for -1. -/
def rfsRead
    (r : Ram)
    (path : CStr)
    (off max : UInt32) : Option (List UInt8) :=
  (ramfsFind r (strip path)).bind fun i =>
    let f := r.files i
    if f.size ≤ off then some []
    else
      let n := f.size - off
      let n := if max < n then max else n
      (r.heap f.data).map fun b =>
        (List.range n.toNat).map fun k => b.mem (off.toNat + k)

def rfsWrite
    (a : Answer)
    (r : Ram)
    (path : CStr)
    (data : Buf)
    (size : UInt32) : Option (Int × Ram) :=
  (ramfsWrite a r (some (strip path))
    (if size = 0 then none else some data) size).map
    fun out => (if out.1 = 0 then
      (size.toNat : Int).bmod (2 ^ 32) else -1, out.2)

theorem rfsRead_eq
    (hSound : Sound r)
    (path : CStr)
    (off max : UInt32) :
    rfsRead r path off max = (r.map (strip path)).map fun l =>
      (l.drop off.toNat).take max.toNat := by
  unfold rfsRead Ram.map
  cases hFind : ramfsFind r (strip path) with
  | none => rfl
  | some i =>
      have hUsed := (ramfsFind_some hFind).1
      rcases (hSound.good i hUsed).block with ⟨b, hBlock, -⟩
      rw [Option.bind_some, Option.map_some, Option.map_some,
        content]
      dsimp only
      rw [hBlock, Option.elim_some, Option.map_some]
      split
      · rename_i hPast
        rw [UInt32.le_iff_toNat_le] at hPast
        simp [List.drop_eq_nil_of_le, hPast]
      · rename_i hInside
        exact congrArg some (slice_eq hInside b.mem)

/-
  What is written under a path is read back, under all paths
  of its name, and no other file reads differently.
-/
theorem rfs_round_trip
    {path : CStr}
    {data : Buf}
    {size : UInt32}
    (hReach : Reach r)
    (hFresh : a.address ≠ 0 → r.heap a.address = none) :
    ∃ code r', rfsWrite a r path data size = some (code, r') ∧
      ∀ other off max,
        rfsRead r' other off max = rfsRead r other off max ∧
            code = -1 ∨
          code = (size.toNat : Int).bmod (2 ^ 32) ∧
            rfsRead r' other off max =
              if strip other = strip path then
                some ((((List.range size.toNat).map data).drop
                  off.toNat).take max.toNat)
              else rfsRead r other off max := by
  have hSound := hReach.sound
  have hSize : sizeGiven (if size = 0 then none
      else some data) size = some size := by
    unfold sizeGiven
    split <;> simp_all
  have hMeets : (Call.write (some (strip path)) _ size).Meets
      a r _ := ramfsWrite_meets hSound
    ⟨hFresh, Option.isSome_iff_exists.mpr ⟨_, hSize⟩⟩
  rcases hMeets with ⟨code, r', hRun, hSound', hDoes⟩
  unfold rfsWrite
  rw [hRun]
  refine ⟨_, r', rfl, fun other off max => ?_⟩
  rw [rfsRead_eq hSound, rfsRead_eq hSound']
  dsimp only
  split
  · rw [if_pos ‹_›] at hDoes
    rcases hDoes with ⟨_, l, ⟨⟩, ⟨n, hN, hLength, hBytes⟩, -, hNew⟩
    cases hSize.symm.trans hN
    have hIs : l = (List.range size.toNat).map data := by
      by_cases hZero : size = 0
      · subst hZero
        exact List.eq_nil_of_length_eq_zero hLength
      · exact hBytes data (if_neg hZero)
    refine .inr ⟨rfl, ?_⟩
    rw [hNew, Function.update_apply, ← hIs]
    split <;> rfl
  · rw [if_neg ‹_›] at hDoes
    rw [hDoes.1]
    exact .inl ⟨rfl, rfl⟩

/- A file that is written with a slash and read without. -/
theorem rfs_round_trip_first :
    ∃ r', rfsWrite ⟨8, Buf.zero⟩ .empty ⟨[0x2F, 65], by decide⟩
        (fun _ => 66) 1 = some (1, r') ∧
      rfsRead r' ⟨[65], by decide⟩ 0 9 = some [66] := by
  have hCode : (rfsWrite ⟨8, Buf.zero⟩ .empty
      ⟨[0x2F, 65], by decide⟩ (fun _ => 66) 1).map (·.1) =
        some 1 := by decide
  rcases @rfs_round_trip ⟨8, Buf.zero⟩ .empty
    ⟨[0x2F, 65], by decide⟩ (fun _ => 66) 1 .empty
    (fun _ => rfl) with ⟨code, r', hRun, hReads⟩
  rw [hRun, Option.map_some, Option.some.injEq] at hCode
  dsimp only at hCode
  subst hCode
  refine ⟨r', hRun, ?_⟩
  rcases hReads ⟨[65], by decide⟩ 0 9 with
    ⟨-, hBad⟩ | ⟨-, hRead⟩
  · cases hBad
  · exact hRead.trans (by decide)

/- `rfs_readdir`: the entry, or nothing at the end. -/
def rfsReaddir
    (r : Ram)
    (index : Nat) : Option (CStr × UInt32) :=
  ((List.finRange 32).filter fun i =>
    (r.files i).used)[index]?.map fun i =>
      ((r.files i).nameOf, (r.files i).size)

/- A listing shows each file once, with its size. -/
theorem rfs_lists
    (hReach : Reach r)
    (name : CStr) :
    (∀ size, (∃ k, rfsReaddir r k = some (name, size)) ↔
        ∃ l, r.map name = some l ∧ l.length = size.toNat) ∧
      ∀ k k' size size',
        rfsReaddir r k = some (name, size) →
        rfsReaddir r k' = some (name, size') → k = k' := by
  have hSound := hReach.sound
  have hEntry : ∀ k size, rfsReaddir r k = some (name, size) →
      ∃ i, ((List.finRange 32).filter fun i =>
          (r.files i).used)[k]? = some i ∧
        (r.files i).used = true ∧
        (r.files i).nameOf = name ∧ (r.files i).size = size := by
    intro k size hRead
    rcases Option.map_eq_some_iff.mp hRead with ⟨i, hAt, hIs⟩
    cases hIs
    exact ⟨i, hAt, (List.mem_filter.mp
      (List.mem_of_getElem? hAt)).2, rfl, rfl⟩
  have hLength : ∀ i, (r.files i).used = true →
      (content r.heap (r.files i)).length =
        (r.files i).size.toNat := by
    intro i hUsed
    rcases (hSound.good i hUsed).block with ⟨b, hBlock, -⟩
    simp [content, hBlock]
  refine ⟨fun size => ⟨?_, ?_⟩, ?_⟩
  · rintro ⟨k, hRead⟩
    rcases hEntry k size hRead with ⟨i, -, hUsed, rfl, rfl⟩
    exact ⟨_, hSound.represents.value_eq (if_pos hUsed),
      hLength i hUsed⟩
  · rintro ⟨l, hMap, hSize⟩
    rcases (hSound.represents name l).mp hMap with ⟨i, hSlot⟩
    rcases slot_eq_some hSlot with ⟨hUsed, rfl, rfl⟩
    rw [hLength i hUsed, UInt32.toNat_inj] at hSize
    have hIn : i ∈ (List.finRange 32).filter fun i =>
        (r.files i).used :=
      List.mem_filter.mpr ⟨List.mem_finRange i, hUsed⟩
    rcases List.getElem?_of_mem hIn with ⟨k, hAt⟩
    refine ⟨k, Option.map_eq_some_iff.mpr ⟨i, hAt, ?_⟩⟩
    rw [hSize]
  · intro k k' size size' hRead hRead'
    rcases hEntry k size hRead with ⟨i, hAt, hUsed, hName, -⟩
    rcases hEntry k' size' hRead' with
      ⟨i', hAt', hUsed', hName', -⟩
    rcases hSound.names i i' hUsed hUsed'
      (hName.trans hName'.symm) with rfl
    rcases List.getElem?_eq_some_iff.mp hAt with ⟨hLess, -⟩
    exact (List.getElem?_inj hLess
      ((List.nodup_finRange 32).filter _)).mp
        (hAt.trans hAt'.symm)

/- The empty table lists no file. -/
theorem rfs_lists_empty :
    ¬ ∃ k, rfsReaddir .empty k =
      some (⟨[65], by decide⟩, 0) := by
  intro hRead
  rcases ((rfs_lists .empty ⟨[65], by decide⟩).1 0).mp
    hRead with ⟨l, hMap, -⟩
  have hNone : Ram.empty.map ⟨[65], by decide⟩ = none := by
    decide
  cases hNone.symm.trans hMap

end Runs

end KvantOS.Ramfs
