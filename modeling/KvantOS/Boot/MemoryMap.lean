import Mathlib

/-
  This file models the memory map that the EFI stub gives to
  the kernel, and proves what it says: the free memory, less
  what is reserved. It also says when the table is too small.

  Key definitions include:
    * `reserve`, `pieces`, `buildMbMmap`

  Key theorems include:
    * `mem_pieces`, `buildMbMmap_exact`
    * `buildMbMmap_length_le_iff`
-/

namespace KvantOS.Boot

/- The bytes from `base` up to `stop`. -/
structure Range where
  base : Nat
  stop : Nat
  deriving DecidableEq

def Range.Has (r : Range) (x : Nat) : Prop :=
  r.base ≤ x ∧ x < r.stop

/- A new entry sinks, past those with a higher base. -/
def sink : List Range → Range → List Range
  | [], r => [r]
  | p :: ps, r =>
      if r.base < p.base then p :: sink ps r else r :: p :: ps

/- `reserve`. -/
def reserve
    (reserved : List Range)
    (r : Range) : List Range :=
  if reserved.length < 24 ∧ r.base < r.stop then
    (sink reserved.reverse r).reverse
  else reserved

def reserveAll (calls : List Range) : List Range :=
  calls.foldl reserve []

--
-- Conversion
--

/- `efi_memory_descriptor_t`. -/
structure Descriptor where
  type : UInt32
  physStart : UInt64
  pages : UInt64
  deriving DecidableEq

/- `mb_mmap_t`. -/
structure MbMmap where
  size : Nat
  addr : Nat
  len : Nat
  type : Nat
  deriving DecidableEq

def mbEntry (base stop type : Nat) : MbMmap :=
  ⟨20, base, stop - base, type⟩

/- `mb_type_for`. -/
def mbTypeFor (efiType : UInt32) : Nat :=
  if efiType ∈ [1, 2, 3, 4, 7] then 1
  else if efiType = 9 then 3
  else if efiType = 10 then 4
  else 2

/- An available region from `cur` on, cut at what is reserved. -/
def pieces (cur stop : Nat) : List Range → List MbMmap
  | [] => if cur < stop then [mbEntry cur stop 1] else []
  | r :: rs =>
      if stop ≤ cur then []
      else if r.stop ≤ cur ∨ stop ≤ r.base then
        pieces cur stop rs
      else
        let seg := min r.stop stop
        (if cur < r.base then [mbEntry cur r.base 1] else []) ++
          (if r.base < seg then [mbEntry r.base seg 2]
            else []) ++ pieces seg stop rs

def fourGiB : Nat := 0x100000000

/- Where a descriptor ends, in 64 bits. -/
def Descriptor.stop (d : Descriptor) : Nat :=
  (d.physStart + (d.pages <<< 12)).toNat

/- The entries of a descriptor. -/
def entriesOf
    (reserved : List Range)
    (d : Descriptor) : List MbMmap :=
  let base := d.physStart.toNat
  if fourGiB ≤ base ∨ d.stop ≤ base then []
  else
    let stop := min d.stop fourGiB
    let t := mbTypeFor d.type
    if t ≠ 1 then [mbEntry base stop t]
    else pieces base stop reserved

/- The loop: what is written, `out[0]` first. -/
def buildLoop
    (maxEntries : Nat)
    (reserved : List Range) :
    List MbMmap → List Descriptor → List MbMmap
  | out, [] => out
  | out, d :: ds =>
      if out.length + 3 < maxEntries then
        buildLoop maxEntries reserved
          (out ++ entriesOf reserved d) ds
      else out

/- The end of the highest available entry. -/
def topOf (out : List MbMmap) : Nat :=
  out.foldl
    (fun top e =>
      if e.type = 1 ∧ top < e.addr + e.len then e.addr + e.len
      else top) 0

/- `mem_upper_kb`. -/
def memUpperKb (out : List MbMmap) : Nat :=
  if 0x100000 < topOf out then
    (topOf out - 0x100000) / 1024 % 2 ^ 32
  else 0

/- `build_mb_mmap`: the table, and `mem_upper_kb`. -/
def buildMbMmap
    (maxEntries : Nat)
    (reserved : List Range)
    (map : List Descriptor) : List MbMmap × Nat :=
  let out := buildLoop maxEntries reserved [] map
  (out, memUpperKb out)

--
-- Sorted Reservations
--

def Below (p q : Range) : Prop :=
  p.base ≤ q.base

theorem sink_perm
    (ps : List Range)
    (r : Range) :
    (sink ps r).Perm (r :: ps) := by
  induction ps with
  | nil => exact .refl _
  | cons p ps ih =>
      unfold sink
      split
      · exact (ih.cons p).trans (.swap r p ps)
      · exact .refl _

variable {r : Range}

theorem sink_sorted
    {ps : List Range}
    (hSorted : ps.Pairwise fun p q => Below q p) :
    (sink ps r).Pairwise fun p q => Below q p := by
  induction ps with
  | nil => exact List.pairwise_singleton _ _
  | cons p ps ih =>
      obtain ⟨hFirst, hRest⟩ := List.pairwise_cons.mp hSorted
      unfold sink
      split
      · rename_i hLt
        refine List.pairwise_cons.mpr ⟨fun q hMem => ?_, ih hRest⟩
        rcases List.mem_cons.mp ((sink_perm ps r).mem_iff.mp hMem)
          with rfl | hMem
        · exact hLt.le
        · exact hFirst q hMem
      · rename_i hGe
        refine List.pairwise_cons.mpr ⟨fun q hMem => ?_, hSorted⟩
        rcases List.mem_cons.mp hMem with rfl | hMem
        · exact not_lt.mp hGe
        · exact (hFirst q hMem).trans (not_lt.mp hGe)

variable {reserved : List Range}

theorem reserve_sorted
    (r : Range)
    (hSorted : reserved.Pairwise Below) :
    (reserve reserved r).Pairwise Below := by
  unfold reserve
  split
  · rw [List.pairwise_reverse]
    exact sink_sorted (List.pairwise_reverse.mpr hSorted)
  · exact hSorted

/- With room, exactly the range of the call is added. -/
theorem reserve_has
    (r : Range)
    (hRoom : reserved.length < 24)
    (x : Nat) :
    (∃ q ∈ reserve reserved r, q.Has x) ↔
      r.Has x ∨ ∃ q ∈ reserved, q.Has x := by
  unfold reserve
  split
  · have hMem : ∀ q, q ∈ (sink reserved.reverse r).reverse ↔
        q = r ∨ q ∈ reserved := by
      intro q
      rw [List.mem_reverse, (sink_perm _ r).mem_iff,
        List.mem_cons, List.mem_reverse]
    simp only [hMem]
    constructor
    · rintro ⟨q, rfl | hQ, hHas⟩
      · exact .inl hHas
      · exact .inr ⟨q, hQ, hHas⟩
    · rintro (hHas | ⟨q, hQ, hHas⟩)
      · exact ⟨r, .inl rfl, hHas⟩
      · exact ⟨q, .inr hQ, hHas⟩
  · rename_i hNot
    refine ⟨.inr, fun hOr => hOr.resolve_left fun hHas => ?_⟩
    exact hNot ⟨hRoom, hHas.1.trans_lt hHas.2⟩

theorem reserve_length_le
    (reserved : List Range)
    (r : Range) :
    (reserve reserved r).length ≤ reserved.length + 1 := by
  unfold reserve
  split
  · rw [List.length_reverse, (sink_perm _ r).length_eq,
      List.length_cons, List.length_reverse]
  · exact Nat.le_succ _

theorem foldl_reserve
    (calls : List Range)
    (hRoom : reserved.length + calls.length ≤ 24)
    (hSorted : reserved.Pairwise Below) :
    (calls.foldl reserve reserved).Pairwise Below ∧
      ∀ x, (∃ q ∈ calls.foldl reserve reserved, q.Has x) ↔
        (∃ q ∈ reserved, q.Has x) ∨ ∃ q ∈ calls, q.Has x := by
  induction calls generalizing reserved with
  | nil => exact ⟨hSorted, fun x => by simp⟩
  | cons r calls ih =>
      rw [List.length_cons] at hRoom
      have hLength := reserve_length_le reserved r
      obtain ⟨hSorted', hHas⟩ :=
        ih (by omega) (reserve_sorted r hSorted)
      refine ⟨hSorted', fun x => (hHas x).trans ?_⟩
      rw [reserve_has r (by omega)]
      simp only [List.mem_cons, exists_eq_or_imp]
      rw [or_assoc, or_left_comm]

variable {calls : List Range}

theorem reserveAll_sorted
    (hCalls : calls.length ≤ 24) :
    (reserveAll calls).Pairwise Below :=
  (foldl_reserve calls (by simpa using hCalls) .nil).1

theorem reserveAll_some
    (calls : List Range) :
    ∀ r ∈ reserveAll calls, r.base < r.stop := by
  have hStep :
      ∀ reserved : List Range,
        (∀ r ∈ reserved, r.base < r.stop) →
          ∀ r ∈ calls.foldl reserve reserved,
            r.base < r.stop := by
    induction calls with
    | nil => exact fun _ hSome => hSome
    | cons c calls ih =>
        intro reserved hSome
        refine ih _ fun r hMem => ?_
        unfold reserve at hMem
        split at hMem
        · rw [List.mem_reverse, (sink_perm _ c).mem_iff,
            List.mem_cons, List.mem_reverse] at hMem
          rcases hMem with rfl | hMem
          · exact ‹_ ∧ _›.2
          · exact hSome r hMem
        · exact hSome r hMem
  exact hStep [] nofun

theorem reserveAll_has
    (hCalls : calls.length ≤ 24)
    (x : Nat) :
    (∃ q ∈ reserveAll calls, q.Has x) ↔
      ∃ q ∈ calls, q.Has x := by
  refine ((foldl_reserve calls (by simpa using hCalls)
    .nil).2 x).trans ?_
  simp

--
-- Available Memory
--

def MbMmap.Has (e : MbMmap) (x : Nat) : Prop :=
  e.addr ≤ x ∧ x < e.addr + e.len

/- The available entries. -/
def free (out : List MbMmap) : List MbMmap :=
  out.filter (fun e => e.type == 1)

variable {out : List MbMmap}

theorem mem_free
    {e : MbMmap} :
    e ∈ free out ↔ e ∈ out ∧ e.type = 1 := by
  rw [free, List.mem_filter, beq_iff_eq]

theorem free_append
    (out more : List MbMmap) :
    free (out ++ more) = free out ++ free more :=
  List.filter_append _ _

theorem mbEntry_has
    {base stop type x : Nat}
    (hLe : base ≤ stop) :
    (mbEntry base stop type).Has x ↔ base ≤ x ∧ x < stop := by
  simp only [MbMmap.Has, mbEntry]
  omega

def Apart (p q : MbMmap) : Prop :=
  p.addr + p.len ≤ q.addr ∨ q.addr + q.len ≤ p.addr

variable {cur stop : Nat}

/- The gap in front of a reservation, and what is behind. -/
theorem free_pieces_cut
    {rs : List Range}
    (hLt : cur < stop)
    (hMeets : ¬ (r.stop ≤ cur ∨ stop ≤ r.base)) :
    free (pieces cur stop (r :: rs)) =
      (if cur < r.base then [mbEntry cur r.base 1] else []) ++
        free (pieces (min r.stop stop) stop rs) := by
  rw [pieces, if_neg (not_le.mpr hLt), if_neg hMeets,
    free_append, free_append]
  congr 1
  have hKept : free (if r.base < min r.stop stop then
      [mbEntry r.base (min r.stop stop) 2] else []) = [] := by
    split <;> rfl
  rw [hKept, List.append_nil]
  split <;> rfl

/- The pieces lie in the region, and one behind the other. -/
theorem free_pieces_within
    (hSome : ∀ r ∈ reserved, r.base < r.stop) :
    (∀ e ∈ free (pieces cur stop reserved),
        cur ≤ e.addr ∧ 0 < e.len ∧ e.addr + e.len ≤ stop) ∧
      (free (pieces cur stop reserved)).Pairwise Apart := by
  induction reserved generalizing cur with
  | nil =>
      unfold pieces
      split
      · refine ⟨fun e hMem => ?_, List.pairwise_singleton _ _⟩
        obtain rfl := List.mem_singleton.mp hMem
        simp only [mbEntry]
        omega
      · exact ⟨nofun, .nil⟩
  | cons r rs ih =>
      obtain ⟨hR, hRest⟩ := List.forall_mem_cons.mp hSome
      rcases le_or_gt stop cur with hLe | hLt
      · rw [pieces, if_pos hLe]
        exact ⟨nofun, .nil⟩
      · by_cases hMeets : r.stop ≤ cur ∨ stop ≤ r.base
        · rw [pieces, if_neg (not_le.mpr hLt), if_pos hMeets]
          exact ih hRest
        · rw [free_pieces_cut hLt hMeets]
          obtain ⟨hWithin, hApart⟩ := @ih (min r.stop stop) hRest
          split
          · refine ⟨fun e hMem => ?_, List.pairwise_cons.mpr
              ⟨fun e hMem => .inl ?_, hApart⟩⟩
            · rcases List.mem_cons.mp hMem with rfl | hMem
              · simp only [mbEntry]
                omega
              · have hE := hWithin e hMem
                omega
            · have hE := hWithin e hMem
              simp only [mbEntry]
              omega
          · refine ⟨fun e hMem => ?_, hApart⟩
            have hE := hWithin e hMem
            omega

/- They are the region, less all that is reserved. -/
theorem mem_pieces
    {cur stop x : Nat}
    (hSorted : reserved.Pairwise Below) :
    (∃ e ∈ free (pieces cur stop reserved), e.Has x) ↔
      cur ≤ x ∧ x < stop ∧ ∀ r ∈ reserved, ¬ r.Has x := by
  induction reserved generalizing cur with
  | nil =>
      unfold pieces
      split
      · simp only [free, mbEntry, List.filter_cons, beq_self_eq_true,
          if_true, List.filter_nil, List.mem_singleton,
          exists_eq_left, MbMmap.Has]
        simp
        omega
      · simp [free]
        omega
  | cons r rs ih =>
      obtain ⟨hFirst, hRest⟩ := List.pairwise_cons.mp hSorted
      rw [List.forall_mem_cons]
      rcases le_or_gt stop cur with hLe | hLt
      · rw [pieces, if_pos hLe]
        simp [free]
        omega
      · by_cases hMeets : r.stop ≤ cur ∨ stop ≤ r.base
        · rw [pieces, if_neg (not_le.mpr hLt), if_pos hMeets,
            ih hRest]
          simp only [Range.Has]
          constructor
          · rintro ⟨hCur, hStop, hNone⟩
            exact ⟨hCur, hStop, by omega, hNone⟩
          · rintro ⟨hCur, hStop, -, hNone⟩
            exact ⟨hCur, hStop, hNone⟩
        · rw [free_pieces_cut hLt hMeets]
          -- nothing that follows reaches into the gap
          have hGap : x < r.base → ∀ q ∈ rs, ¬ q.Has x :=
            fun hX q hQ hHas =>
              absurd (hFirst q hQ) (not_le.mpr
                (hHas.1.trans_lt hX))
          have hSplit :
              (∃ e ∈ (if cur < r.base then
                    [mbEntry cur r.base 1] else []) ++
                  free (pieces (min r.stop stop) stop rs),
                e.Has x) ↔
                cur ≤ x ∧ x < r.base ∨
                  min r.stop stop ≤ x ∧ x < stop ∧
                    ∀ q ∈ rs, ¬ q.Has x := by
            rw [← ih hRest]
            split
            · rename_i hBefore
              simp only [List.cons_append, List.nil_append,
                List.mem_cons, exists_eq_or_imp,
                mbEntry_has hBefore.le]
            · rename_i hNot
              rw [List.nil_append]
              refine ⟨.inr, fun hOr =>
                hOr.resolve_left (by omega)⟩
          rw [hSplit]
          simp only [Range.Has]
          constructor
          · rintro (⟨hCur, hBase⟩ | ⟨hSeg, hStop, hNone⟩)
            · exact ⟨hCur, by omega, by omega, hGap hBase⟩
            · exact ⟨by omega, hStop, by omega, hNone⟩
          · rintro ⟨hCur, hStop, hNot, hNone⟩
            rcases lt_or_ge x r.base with hBase | hBase
            · exact .inl ⟨hCur, hBase⟩
            · exact .inr ⟨by omega, hStop, hNone⟩

--
-- The Map
--

/- The bytes of a descriptor, which the firmware means. -/
def Descriptor.Has (d : Descriptor) (x : Nat) : Prop :=
  d.physStart.toNat ≤ x ∧
    x < d.physStart.toNat + 4096 * d.pages.toNat

def Descriptor.Available (d : Descriptor) : Prop :=
  mbTypeFor d.type = 1

def Disjoint (p q : Descriptor) : Prop :=
  ∀ x, ¬ (p.Has x ∧ q.Has x)

/- A descriptor whose end is a 64-bit number. -/
def Descriptor.Ends (d : Descriptor) : Prop :=
  d.physStart.toNat + 4096 * d.pages.toNat < 2 ^ 64

variable {d : Descriptor}

theorem Descriptor.stop_eq
    (hEnds : d.Ends) :
    d.stop = d.physStart.toNat + 4096 * d.pages.toNat := by
  unfold Descriptor.Ends at hEnds
  have hPages : d.pages.toNat < 2 ^ 52 := by omega
  have hShift : 2 ^ (UInt64.toNat 12 % 64) = 4096 := rfl
  rw [Descriptor.stop, UInt64.toNat_add,
    UInt64.toNat_shiftLeft, Nat.shiftLeft_eq, hShift]
  omega

/- The available entries of a descriptor. -/
theorem free_entriesOf
    (hEnds : d.Ends)
    (hSome : ∀ r ∈ reserved, r.base < r.stop)
    (hSorted : reserved.Pairwise Below) :
    (∀ e ∈ free (entriesOf reserved d),
        d.physStart.toNat ≤ e.addr ∧ 0 < e.len ∧
          e.addr + e.len ≤ min d.stop fourGiB) ∧
      (free (entriesOf reserved d)).Pairwise Apart ∧
        ∀ x, (∃ e ∈ free (entriesOf reserved d), e.Has x) ↔
          x < fourGiB ∧ d.Available ∧ d.Has x ∧
            ∀ r ∈ reserved, ¬ r.Has x := by
  have hStop := Descriptor.stop_eq hEnds
  unfold entriesOf
  dsimp only
  split
  · refine ⟨nofun, .nil, fun x => ?_⟩
    simp only [free, List.filter_nil, List.not_mem_nil, false_and,
      exists_false, false_iff, Descriptor.Has]
    omega
  · split
    · rename_i hType
      have hNone : free [mbEntry d.physStart.toNat
          (min d.stop fourGiB) (mbTypeFor d.type)] = [] := by
        simp [free, mbEntry, hType]
      rw [hNone]
      refine ⟨nofun, .nil, fun x => ?_⟩
      simp [Descriptor.Available, hType]
    · rename_i hType
      obtain ⟨hWithin, hApart⟩ := free_pieces_within hSome
      refine ⟨hWithin, hApart, fun x => ?_⟩
      rw [mem_pieces hSorted]
      simp only [Descriptor.Available, not_not.mp hType,
        Descriptor.Has]
      constructor
      · rintro ⟨hBase, hX, hNone⟩
        exact ⟨by omega, trivial, ⟨hBase, by omega⟩, hNone⟩
      · rintro ⟨hX, -, ⟨hBase, hEnd⟩, hNone⟩
        exact ⟨hBase, by omega, hNone⟩

/- The conversion of the whole map, as if there were room. -/
def convert
    (reserved : List Range)
    (map : List Descriptor) : List MbMmap :=
  map.flatMap (entriesOf reserved)

/- What is in front of each descriptor leaves it room. -/
def Fits
    (maxEntries : Nat)
    (reserved : List Range)
    (map : List Descriptor) : Prop :=
  (convert reserved map).length ≤ maxEntries ∧
    ∀ pre d post, map = pre ++ d :: post →
      (convert reserved pre).length + 3 < maxEntries

variable {maxEntries : Nat}

theorem buildLoop_eq
    (out : List MbMmap)
    (map : List Descriptor)
    (hRoom : ∀ pre d post, map = pre ++ d :: post →
      out.length + (convert reserved pre).length + 3 <
        maxEntries) :
    buildLoop maxEntries reserved out map =
      out ++ convert reserved map := by
  induction map generalizing out with
  | nil => exact (List.append_nil out).symm
  | cons d ds ih =>
      have hHere := hRoom [] d ds rfl
      rw [buildLoop, if_pos (by simpa [convert] using hHere), ih,
        List.append_assoc]
      · rfl
      · intro pre d' post hEq
        have hNext := hRoom (d :: pre) d' post (by rw [hEq]; rfl)
        simp only [convert, List.flatMap_cons,
          List.length_append] at hNext ⊢
        omega

variable {map : List Descriptor}

theorem mem_free_convert
    {e : MbMmap} :
    e ∈ free (convert reserved map) ↔
      ∃ d ∈ map, e ∈ free (entriesOf reserved d) := by
  simp only [mem_free, convert, List.mem_flatMap]
  constructor
  · rintro ⟨⟨d, hD, hE⟩, hType⟩
    exact ⟨d, hD, hE, hType⟩
  · rintro ⟨d, hD, hE, hType⟩
    exact ⟨⟨d, hD, hE⟩, hType⟩

/- Entries of disjoint descriptors are apart. -/
theorem free_convert_apart
    (hEnds : ∀ d ∈ map, d.Ends)
    (hApart : map.Pairwise Disjoint)
    (hSome : ∀ r ∈ reserved, r.base < r.stop)
    (hSorted : reserved.Pairwise Below) :
    (free (convert reserved map)).Pairwise Apart := by
  induction map with
  | nil => exact .nil
  | cons d ds ih =>
      obtain ⟨hD, hDs⟩ := List.forall_mem_cons.mp hEnds
      obtain ⟨hFirst, hRest⟩ := List.pairwise_cons.mp hApart
      obtain ⟨hWithin, hHere, -⟩ :=
        free_entriesOf hD hSome hSorted
      rw [convert, List.flatMap_cons, free_append,
        List.pairwise_append]
      refine ⟨hHere, ih hDs hRest, fun e hE q hQ => ?_⟩
      obtain ⟨d', hD', hQ⟩ := mem_free_convert.mp hQ
      obtain ⟨hWithin', -, -⟩ :=
        free_entriesOf (hDs d' hD') hSome hSorted
      have hE' := hWithin e hE
      have hQ' := hWithin' q hQ
      rw [Descriptor.stop_eq hD] at hE'
      rw [Descriptor.stop_eq (hDs d' hD')] at hQ'
      by_contra hMeet
      refine hFirst d' hD' (max e.addr q.addr) ?_
      unfold Apart at hMeet
      unfold Descriptor.Has
      omega

/- The highest end among the available entries, or 0. -/
structure IsTop
    (seen : List MbMmap)
    (top : Nat) : Prop where
  le : ∀ e ∈ free seen, e.addr + e.len ≤ top
  attained : top = 0 ∨ ∃ e ∈ free seen, e.addr + e.len = top

/- One more entry raises the top, or it does not. -/
theorem IsTop.step
    {seen : List MbMmap}
    {top : Nat}
    (h : IsTop seen top)
    (e : MbMmap) :
    IsTop (seen ++ [e])
      (if e.type = 1 ∧ top < e.addr + e.len then e.addr + e.len
      else top) := by
  constructor
  · intro q hQ
    rw [mem_free, List.mem_append, List.mem_singleton] at hQ
    obtain ⟨hQ | rfl, hType⟩ := hQ
    · have hTop := h.le q (mem_free.mpr ⟨hQ, hType⟩)
      split <;> omega
    · split
      · exact le_rfl
      · rename_i hNot
        exact not_lt.mp fun hLt => hNot ⟨hType, hLt⟩
  · split
    · rename_i hHigher
      refine .inr ⟨e, ?_, rfl⟩
      rw [mem_free, List.mem_append]
      exact ⟨.inr (List.mem_singleton_self e), hHigher.1⟩
    · refine h.attained.imp_right ?_
      rintro ⟨q, hQ, hEq⟩
      rw [free_append]
      exact ⟨q, List.mem_append_left _ hQ, hEq⟩

theorem IsTop.run
    {seen : List MbMmap}
    {top : Nat}
    (h : IsTop seen top)
    (todo : List MbMmap) :
    IsTop (seen ++ todo)
      (todo.foldl (fun top e =>
        if e.type = 1 ∧ top < e.addr + e.len then e.addr + e.len
        else top) top) := by
  induction todo generalizing seen top with
  | nil => rwa [List.append_nil]
  | cons e todo ih =>
    rw [List.foldl_cons, List.append_cons]
    exact ih (h.step e)

theorem topOf_spec (out : List MbMmap) :
    IsTop out (topOf out) := by
  have hStart : IsTop [] 0 := ⟨nofun, .inl rfl⟩
  exact hStart.run out

/- `mem_upper_kb` is about the highest available entry. -/
def UpperIs
    (out : List MbMmap)
    (kb : Nat) : Prop :=
  (∀ e ∈ free out, e.addr + e.len ≤ 0x100000) ∧ kb = 0 ∨
    ∃ e ∈ free out, 0x100000 < e.addr + e.len ∧
      (∀ q ∈ free out, q.addr + q.len ≤ e.addr + e.len) ∧
        kb = (e.addr + e.len - 0x100000) / 1024

theorem memUpperKb_spec
    (hBelow : ∀ e ∈ free out, e.addr + e.len ≤ fourGiB) :
    UpperIs out (memUpperKb out) := by
  obtain ⟨hLe, hMax⟩ := topOf_spec out
  unfold memUpperKb
  split
  · rename_i hHigh
    obtain hZero | ⟨e, hE, hEq⟩ := hMax
    · omega
    · have hE' := hBelow e hE
      rw [hEq] at hE'
      refine .inr ⟨e, hE, by omega, fun q hQ => ?_, ?_⟩
      · exact (hLe q hQ).trans hEq.ge
      · rw [hEq]
        unfold fourGiB at hE'
        exact Nat.mod_eq_of_lt (by omega)
  · exact .inl ⟨fun e hE => by have := hLe e hE; omega, rfl⟩

/-
  For a map of disjoint descriptors that fits, the available
  entries are what is available below 4 GiB, less what was
  reserved; they are disjoint, and `mem_upper_kb` is right.
-/
theorem buildMbMmap_exact
    {maxEntries : Nat}
    {calls : List Range}
    {map : List Descriptor}
    (hCalls : calls.length ≤ 24)
    (hEnds : ∀ d ∈ map, d.Ends)
    (hApart : map.Pairwise Disjoint)
    (hFits : Fits maxEntries (reserveAll calls) map) :
    let out := buildMbMmap maxEntries (reserveAll calls) map
    (∀ x, (∃ e ∈ free out.1, e.Has x) ↔
        x < fourGiB ∧ (∃ d ∈ map, d.Available ∧ d.Has x) ∧
          ∀ c ∈ calls, ¬ c.Has x) ∧
      (free out.1).Pairwise Apart ∧ UpperIs out.1 out.2 := by
  have hSome := reserveAll_some calls
  have hSorted := reserveAll_sorted hCalls
  have hOut : (buildMbMmap maxEntries (reserveAll calls) map).1 =
      convert (reserveAll calls) map :=
    buildLoop_eq [] map (by simpa using hFits.2)
  have hUpper : (buildMbMmap maxEntries (reserveAll calls) map).2 =
      memUpperKb (convert (reserveAll calls) map) :=
    congrArg memUpperKb hOut
  dsimp only
  rw [hOut, hUpper]
  refine ⟨fun x => ?_,
    free_convert_apart hEnds hApart hSome hSorted,
    memUpperKb_spec fun e hE => ?_⟩
  · have hReserved :
        (∀ r ∈ reserveAll calls, ¬ r.Has x) ↔
          ∀ c ∈ calls, ¬ c.Has x := by
      have hHas := reserveAll_has hCalls x
      simpa using not_congr hHas
    constructor
    · rintro ⟨e, hE, hHas⟩
      obtain ⟨d, hD, hE⟩ := mem_free_convert.mp hE
      obtain ⟨hX, hType, hIn, hNone⟩ :=
        ((free_entriesOf (hEnds d hD) hSome hSorted).2.2 x).mp
          ⟨e, hE, hHas⟩
      exact ⟨hX, ⟨d, hD, hType, hIn⟩, hReserved.mp hNone⟩
    · rintro ⟨hX, ⟨d, hD, hType, hIn⟩, hNone⟩
      obtain ⟨e, hE, hHas⟩ :=
        ((free_entriesOf (hEnds d hD) hSome hSorted).2.2 x).mpr
          ⟨hX, hType, hIn, hReserved.mpr hNone⟩
      exact ⟨e, mem_free_convert.mpr ⟨d, hD, hE⟩, hHas⟩
  · obtain ⟨d, hD, hE⟩ := mem_free_convert.mp hE
    have hWithin :=
      (free_entriesOf (hEnds d hD) hSome hSorted).1 e hE
    exact hWithin.2.2.trans (Nat.min_le_right _ _)

/- Two descriptors with a reservation across their border. -/
theorem buildMbMmap_exact_two :
    UpperIs
      (buildMbMmap 512 (reserveAll [⟨0x180000, 0x280000⟩])
        [⟨7, 0x100000, 256⟩, ⟨4, 0x200000, 512⟩]).1
      (buildMbMmap 512 (reserveAll [⟨0x180000, 0x280000⟩])
        [⟨7, 0x100000, 256⟩, ⟨4, 0x200000, 512⟩]).2 := by
  refine (buildMbMmap_exact (by decide) ?_ ?_ ?_).2.2
  · simp [Descriptor.Ends]
  · simp [Disjoint, Descriptor.Has]
    omega
  · refine ⟨by decide, fun pre d post hEq => ?_⟩
    match pre, hEq with
    | [], _ => decide
    | [_], hEq =>
        obtain ⟨rfl, -⟩ := List.cons.inj hEq
        decide
    | _ :: _ :: _, hEq => simp at hEq

/- A descriptor that ends at 2^64 is left out. -/
theorem build_wraps :
    let d : Descriptor := ⟨7, 0x100000, 0xFFFFFFFFFFF00⟩
    d.Available ∧ d.Has 0x100000 ∧ [d].Pairwise Disjoint ∧
      Fits 512 (reserveAll []) [d] ∧
        ¬ ∃ e ∈ free (buildMbMmap 512 (reserveAll []) [d]).1,
          e.Has 0x100000 := by
  dsimp only
  have hNone : convert [] [⟨7, 0x100000, 0xFFFFFFFFFFF00⟩] = [] := by
    decide
  refine ⟨rfl, by simp [Descriptor.Has],
    List.pairwise_singleton _ _, ⟨?_, ?_⟩, ?_⟩
  · exact hNone ▸ Nat.zero_le _
  · intro pre d post hEq
    match pre, hEq with
    | [], _ => decide
    | _ :: _, hEq => simp at hEq
  · rintro ⟨e, hE, -⟩
    exact absurd hE (by decide +revert)

--
-- The Table
--

/- Into how many entries a region is cut. -/
def cuts (cur stop : Nat) : List Range → Nat
  | [] => if cur < stop then 1 else 0
  | r :: rs =>
      if stop ≤ cur then 0
      else if r.stop ≤ cur ∨ stop ≤ r.base then
        cuts cur stop rs
      else
        (if cur < r.base then 1 else 0) +
          (if r.base < min r.stop stop then 1 else 0) +
            cuts (min r.stop stop) stop rs

def entryCount
    (reserved : List Range)
    (d : Descriptor) : Nat :=
  let base := d.physStart.toNat
  if fourGiB ≤ base ∨ d.stop ≤ base then 0
  else if mbTypeFor d.type = 1 then
    cuts base (min d.stop fourGiB) reserved
  else 1

def totalCount
    (reserved : List Range)
    (map : List Descriptor) : Nat :=
  (map.map (entryCount reserved)).sum

theorem pieces_length
    (cur stop : Nat)
    (reserved : List Range) :
    (pieces cur stop reserved).length =
      cuts cur stop reserved := by
  induction reserved generalizing cur with
  | nil =>
      unfold pieces cuts
      split <;> rfl
  | cons r rs ih =>
      unfold pieces cuts
      split
      · rfl
      · split
        · exact ih cur
        · dsimp only
          rw [List.length_append, List.length_append, ih]
          congr 2 <;> split <;> rfl

theorem entriesOf_length
    (reserved : List Range)
    (d : Descriptor) :
    (entriesOf reserved d).length = entryCount reserved d := by
  unfold entriesOf entryCount
  dsimp only
  split
  · rfl
  · by_cases hType : mbTypeFor d.type = 1
    · rw [if_neg (not_not.mpr hType), if_pos hType]
      exact pieces_length _ _ _
    · rw [if_pos hType, if_neg hType]
      rfl

theorem buildLoop_length_ge
    (maxEntries : Nat)
    (reserved : List Range)
    (out : List MbMmap)
    (map : List Descriptor) :
    out.length ≤
      (buildLoop maxEntries reserved out map).length := by
  induction map generalizing out with
  | nil => exact le_rfl
  | cons d ds ih =>
      unfold buildLoop
      split
      · exact (List.length_append ▸ Nat.le_add_right _ _).trans
          (ih _)
      · exact le_rfl

theorem buildLoop_length_le
    (map : List Descriptor)
    (hOut : out.length ≤ maxEntries) :
    (buildLoop maxEntries reserved out map).length ≤
        maxEntries ↔
      ∀ pre d post, map = pre ++ d :: post →
        out.length + totalCount reserved pre + 3 < maxEntries →
          out.length + totalCount reserved pre +
            entryCount reserved d ≤ maxEntries := by
  induction map generalizing out with
  | nil => simp [buildLoop, hOut]
  | cons d ds ih =>
      have hLength : (out ++ entriesOf reserved d).length =
          out.length + entryCount reserved d := by
        rw [List.length_append, entriesOf_length]
      unfold buildLoop
      split
      · rename_i hRoom
        constructor
        · intro hLe pre d' post hEq hFree
          have hHere := (buildLoop_length_ge _ _ _ _).trans hLe
          rw [hLength] at hHere
          rcases List.cons_eq_append_iff.mp hEq with
            ⟨rfl, hEq⟩ | ⟨pre', rfl, hTail⟩
          · obtain ⟨rfl, -⟩ := List.cons.inj hEq
            simpa [totalCount] using hHere
          · have hRest := (ih (hLength ▸ hHere)).mp hLe pre' d'
              post hTail
            simp only [totalCount, List.map_cons,
              List.sum_cons] at hFree ⊢
            rw [hLength] at hRest
            unfold totalCount at hRest
            omega
        · intro hAll
          have hHere := hAll [] d ds rfl
            (by simpa [totalCount] using hRoom)
          simp only [totalCount, List.map_nil,
            List.sum_nil] at hHere
          refine (ih (by omega)).mpr fun pre d' post hEq hFree => ?_
          have hRest := hAll (d :: pre) d' post (by rw [hEq]; rfl)
          simp only [totalCount, List.map_cons,
            List.sum_cons] at hRest
          rw [hLength] at hFree ⊢
          unfold totalCount at hFree ⊢
          omega
      · refine ⟨fun _ pre d' post _ hFree => ?_, fun _ => hOut⟩
        omega

/-
  The conversion stays in its table if and only if no
  descriptor that it comes to is cut into more entries than
  are left.
-/
theorem buildMbMmap_length_le_iff
    (maxEntries : Nat)
    (reserved : List Range)
    (map : List Descriptor) :
    (buildMbMmap maxEntries reserved map).1.length ≤
        maxEntries ↔
      ∀ pre d post, map = pre ++ d :: post →
        totalCount reserved pre + 3 < maxEntries →
          totalCount reserved pre + entryCount reserved d ≤
            maxEntries := by
  refine (buildLoop_length_le map (Nat.zero_le _)).trans ?_
  simp

/- 508 ranges of hardware, and memory with three modules. -/
theorem buildMbMmap_overflows :
    let modules : List Range := [⟨0x200000, 0x201000⟩,
      ⟨0x300000, 0x301000⟩, ⟨0x400000, 0x401000⟩]
    let map : List Descriptor :=
      List.replicate 508 ⟨11, 0xF0000000, 1⟩ ++
        [⟨7, 0x100000, 0x1000⟩]
    ¬ (buildMbMmap 512 (reserveAll modules) map).1.length ≤
      512 := by
  decide +kernel

end KvantOS.Boot
