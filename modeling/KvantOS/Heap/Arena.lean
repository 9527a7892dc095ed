import Mathlib.Data.List.Basic
import Mathlib.Order.Lattice

/-
  This file models the heap of the isolated runtime, where a
  block starts with its size only, and proves it sound over
  any sequence of calls: the blocks tile the heap, and the
  live allocations are apart.

  Key definitions include:
    * `allocate`, `release`
    * `Tiles`, `used`, `Sound`

  Key theorems include:
    * `allocLoop_spec`, `findLoop_spec`, `mergeLoop_spec`
    * `heap_sound`, `heap_reclaimed`
-/

namespace KvantOS.Runtime

--
-- The Heap
--

/- `block`. -/
structure Block where
  bytes : Nat
  free : Bool
  deriving DecidableEq

def heapBytes : Nat := 32768

/- `heap_ready`, and the headers at their offsets. -/
structure Arena where
  ready : Bool
  header : Nat → Block

def put
    (header : Nat → Block)
    (off : Nat)
    (b : Block) : Nat → Block :=
  fun x => if x = off then b else header x

/- The loop of `allocate`; out of turns, there is no value. -/
def allocLoop
    (n : Nat) :
    (turns : Nat) → (Nat → Block) → Nat →
      Option ((Nat → Block) × Option Nat)
  | 0, _, _ => none
  | turns + 1, header, off =>
      if off < heapBytes then
        let b := header off
        if b.free = false ∨ b.bytes < n then
          allocLoop n turns header (off + 8 + b.bytes)
        else if 16 ≤ b.bytes - n then
          let rest : Block := ⟨b.bytes - n - 8, true⟩
          some (put (put header (off + 8 + n) rest) off
            ⟨n, false⟩, some (off + 8))
        else
          some (put header off ⟨b.bytes, false⟩, some (off + 8))
      else some (header, none)

def turnsMax : Nat := 8192

/- The start of a heap that is not in use yet. -/
def Arena.start (a : Arena) : Nat → Block :=
  if a.ready then a.header
  else put a.header 0 ⟨heapBytes - 8, true⟩

/- `allocate`, with what it returns as an offset. -/
def allocate
    (a : Arena)
    (n : Nat) : Option (Arena × Option Nat) :=
  if n = 0 ∨ heapBytes - 8 < n then some (a, none)
  else
    (allocLoop ((n + 7) / 8 * 8) turnsMax a.start 0).map
      fun out => (⟨true, out.1⟩, out.2)

/- The first loop of `release`. -/
def findLoop
    (p : Int) :
    (turns : Nat) → (Nat → Block) → Nat →
      Option (Nat → Block)
  | 0, _, _ => none
  | turns + 1, header, off =>
      if off < heapBytes then
        let b := header off
        if (off + 8 : Int) = p then
          some (put header off ⟨b.bytes, true⟩)
        else findLoop p turns header (off + 8 + b.bytes)
      else some header

/- The second loop of `release`. -/
def mergeLoop :
    (turns : Nat) → (Nat → Block) → Nat →
      Option (Nat → Block)
  | 0, _, _ => none
  | turns + 1, header, off =>
      if off < heapBytes then
        let b := header off
        let next := off + 8 + b.bytes
        if heapBytes ≤ next then some header
        else if b.free ∧ (header next).free then
          mergeLoop turns
            (put header off
              ⟨b.bytes + 8 + (header next).bytes, b.free⟩) off
        else mergeLoop turns header next
      else some header

/- `release`: a pointer is an offset, or `NULL`. -/
def release
    (a : Arena)
    (p : Option Int) : Option Arena :=
  match p with
  | none => some a
  | some p =>
      if a.ready then
        (findLoop p turnsMax a.header 0).bind fun header =>
          (mergeLoop turnsMax header 0).map (⟨true, ·⟩)
      else some a

--
-- Blocks
--

/- The blocks from an offset on, up to the end of the heap. -/
def Tiles
    (header : Nat → Block) :
    Nat → List Block → Prop
  | off, [] => off = heapBytes
  | off, b :: bs =>
      off < heapBytes ∧ header off = b ∧
        Tiles header (off + 8 + b.bytes) bs

/- The live allocations: where they are, and their bytes. -/
def used : Nat → List Block → List (Nat × Nat)
  | _, [] => []
  | off, b :: bs =>
      (if b.free then [] else [(off + 8, b.bytes)]) ++
        used (off + 8 + b.bytes) bs

/- No two blocks side by side are free, nor with `before`. -/
def Separate (before : Bool) : List Block → Prop
  | [] => True
  | b :: bs =>
      ¬ (before = true ∧ b.free = true) ∧ Separate b.free bs

def Proper (bs : List Block) : Prop :=
  ∀ b ∈ bs, 8 ∣ b.bytes ∧ 8 ≤ b.bytes

/- The first block that has room is taken. -/
def place (n : Nat) : List Block → Option (Nat × List Block)
  | [] => none
  | b :: bs =>
      if b.free = false ∨ b.bytes < n then
        (place n bs).map
          fun out => (8 + b.bytes + out.1, b :: out.2)
      else if 16 ≤ b.bytes - n then
        some (8, ⟨n, false⟩ :: ⟨b.bytes - n - 8, true⟩ :: bs)
      else some (8, ⟨b.bytes, false⟩ :: bs)

/- The block of a pointer is set free. -/
def mark (p : Int) : Nat → List Block → List Block
  | _, [] => []
  | off, b :: bs =>
      if (off + 8 : Int) = p then ⟨b.bytes, true⟩ :: bs
      else b :: mark p (off + 8 + b.bytes) bs

/- Free blocks side by side become one. -/
def mergeFrom : Block → List Block → List Block
  | b, [] => [b]
  | b, c :: bs =>
      if b.free ∧ c.free then
        mergeFrom ⟨b.bytes + 8 + c.bytes, b.free⟩ bs
      else b :: mergeFrom c bs

def merge : List Block → List Block
  | [] => []
  | b :: bs => mergeFrom b bs

--
-- Loops
--

theorem put_same
    (header : Nat → Block)
    (off : Nat)
    (b : Block) :
    put header off b off = b :=
  if_pos rfl

theorem put_other
    (header : Nat → Block)
    {off x : Nat}
    (b : Block)
    (hNe : x ≠ off) :
    put header off b x = header x :=
  if_neg hNe

variable {header : Nat → Block} {off turns n : Nat}
variable {bs : List Block}

theorem Tiles.off_le
    (hTiles : Tiles header off bs) :
    off + 8 * bs.length ≤ heapBytes := by
  induction bs generalizing off with
  | nil => exact hTiles.le
  | cons b bs ih =>
      have hRest := ih hTiles.2.2
      rw [List.length_cons]
      omega

/- A header in front of the blocks does not matter to them. -/
theorem Tiles.put_before
    {x : Nat}
    (hTiles : Tiles header off bs)
    (hLt : x < off)
    (b : Block) :
    Tiles (put header x b) off bs := by
  induction bs generalizing off with
  | nil => exact hTiles
  | cons c bs ih =>
      refine ⟨hTiles.1, ?_, ih hTiles.2.2 (by omega)⟩
      rw [put_other header b (by omega)]
      exact hTiles.2.1

/- The loop of `allocate` places a block, within its turns. -/
theorem allocLoop_spec
    (hTiles : Tiles header off bs)
    (hTurns : bs.length < turns) :
    match place n bs with
    | none => allocLoop n turns header off = some (header, none)
    | some (o, bs') =>
        ∃ header', allocLoop n turns header off =
            some (header', some (off + o)) ∧
          Tiles header' off bs' ∧
            ∀ x < off, header' x = header x := by
  induction bs generalizing off turns with
  | nil =>
      obtain ⟨turns, rfl⟩ := Nat.exists_eq_add_of_lt hTurns
      obtain rfl : off = heapBytes := hTiles
      exact if_neg (lt_irrefl _)
  | cons b bs ih =>
      obtain ⟨turns, rfl⟩ := Nat.exists_eq_succ_of_ne_zero
        (Nat.ne_zero_of_lt hTurns)
      obtain ⟨hLt, hHeader, hRest⟩ := hTiles
      have hEnd := hRest.off_le
      rw [place, allocLoop, if_pos hLt]
      dsimp only
      rw [hHeader]
      by_cases hSkip : b.free = false ∨ b.bytes < n
      · rw [if_pos hSkip, if_pos hSkip]
        have hLoop := ih hRest (Nat.lt_of_succ_lt_succ hTurns)
        cases hPlace : place n bs with
        | none =>
            rw [hPlace] at hLoop
            exact hLoop
        | some out =>
            rw [hPlace] at hLoop
            obtain ⟨header', hRun, hTiles', hSame⟩ := hLoop
            refine ⟨header', ?_, ⟨hLt, ?_, hTiles'⟩,
              fun x hX => hSame x (by omega)⟩
            · rw [hRun]
              congr 3
              omega
            · exact (hSame off (by omega)).trans hHeader
      · rw [if_neg hSkip, if_neg hSkip]
        push Not at hSkip
        by_cases hSplit : 16 ≤ b.bytes - n
        · rw [if_pos hSplit, if_pos hSplit]
          refine ⟨_, rfl,
            ⟨hLt, put_same _ _ _, by dsimp only; omega, ?_, ?_⟩,
            fun x hX => ?_⟩
          · rw [put_other _ _ (by omega), put_same]
          · have hEq : off + 8 + n + 8 + (b.bytes - n - 8) =
                off + 8 + b.bytes := by omega
            rw [hEq]
            exact (hRest.put_before (by omega) _).put_before
              (by omega) _
          · rw [put_other _ _ (by omega), put_other _ _ (by omega)]
        · rw [if_neg hSplit, if_neg hSplit]
          refine ⟨_, rfl, ⟨hLt, put_same _ _ _, ?_⟩,
            fun x hX => put_other _ _ (by omega)⟩
          exact hRest.put_before (by omega) _

theorem findLoop_spec
    (p : Int)
    (hTiles : Tiles header off bs)
    (hTurns : bs.length < turns) :
    ∃ header', findLoop p turns header off = some header' ∧
      Tiles header' off (mark p off bs) ∧
        ∀ x < off, header' x = header x := by
  induction bs generalizing off turns with
  | nil =>
      obtain ⟨turns, rfl⟩ := Nat.exists_eq_add_of_lt hTurns
      obtain rfl : off = heapBytes := hTiles
      exact ⟨header, if_neg (lt_irrefl _), rfl, fun _ _ => rfl⟩
  | cons b bs ih =>
      obtain ⟨turns, rfl⟩ := Nat.exists_eq_succ_of_ne_zero
        (Nat.ne_zero_of_lt hTurns)
      obtain ⟨hLt, hHeader, hRest⟩ := hTiles
      rw [mark, findLoop, if_pos hLt]
      dsimp only
      rw [hHeader]
      split
      · refine ⟨_, rfl, ⟨hLt, put_same _ _ _, ?_⟩,
          fun x hX => put_other _ _ (by omega)⟩
        exact hRest.put_before (by omega) _
      · obtain ⟨header', hRun, hTiles', hSame⟩ :=
          ih hRest (Nat.lt_of_succ_lt_succ hTurns)
        refine ⟨header', hRun, ⟨hLt, ?_, hTiles'⟩,
          fun x hX => hSame x (by omega)⟩
        exact (hSame off (by omega)).trans hHeader

theorem mergeLoop_spec
    (hTiles : Tiles header off bs)
    (hTurns : bs.length < turns) :
    ∃ header', mergeLoop turns header off = some header' ∧
      Tiles header' off (merge bs) ∧
        ∀ x < off, header' x = header x := by
  induction turns generalizing header off bs with
  | zero => exact absurd hTurns (Nat.not_lt_zero _)
  | succ turns ih =>
      rw [mergeLoop]
      match bs, hTiles with
      | [], hTiles =>
          obtain rfl : off = heapBytes := hTiles
          exact ⟨header, if_neg (lt_irrefl _), rfl,
            fun _ _ => rfl⟩
      | [b], ⟨hLt, hHeader, hEnd⟩ =>
          rw [if_pos hLt]
          dsimp only
          rw [hHeader, if_pos hEnd.ge]
          exact ⟨header, rfl, ⟨hLt, hHeader, hEnd⟩,
            fun _ _ => rfl⟩
      | b :: c :: bs, ⟨hLt, hHeader, hNext, hThis, hRest⟩ =>
          rw [if_pos hLt]
          dsimp only
          rw [hHeader, if_neg (not_le.mpr hNext), hThis]
          rw [merge, mergeFrom]
          rw [List.length_cons, List.length_cons] at hTurns
          split
          · have hTiles' : Tiles
                (put header off ⟨b.bytes + 8 + c.bytes, b.free⟩)
                off (⟨b.bytes + 8 + c.bytes, b.free⟩ :: bs) := by
              refine ⟨hLt, put_same _ _ _, ?_⟩
              have hEq : off + 8 + (b.bytes + 8 + c.bytes) =
                  off + 8 + b.bytes + 8 + c.bytes := by omega
              rw [hEq]
              exact hRest.put_before (by omega) _
            obtain ⟨header', hRun, hMerged, hSame⟩ := ih hTiles'
              (by rw [List.length_cons]; omega)
            refine ⟨header', hRun, hMerged, fun x hX => ?_⟩
            rw [hSame x hX, put_other _ _ (by omega)]
          · obtain ⟨header', hRun, hMerged, hSame⟩ := @ih
              header (off + 8 + b.bytes) (c :: bs)
              ⟨hNext, hThis, hRest⟩
              (by rw [List.length_cons]; omega)
            refine ⟨header', hRun, ⟨hLt, ?_, hMerged⟩,
              fun x hX => hSame x (by omega)⟩
            exact (hSame off (by omega)).trans hHeader

--
-- Live Allocations
--

/- They lie one behind the other, inside the heap. -/
theorem used_within
    (hTiles : Tiles header off bs)
    (hProper : Proper bs)
    (hOff : 8 ∣ off) :
    (used off bs).Pairwise (fun u v => u.1 + u.2 ≤ v.1) ∧
      ∀ u ∈ used off bs, off + 8 ≤ u.1 ∧ 8 ∣ u.1 ∧
        u.1 + u.2 ≤ heapBytes := by
  induction bs generalizing off with
  | nil => exact ⟨.nil, nofun⟩
  | cons b bs ih =>
      obtain ⟨hB, hBs⟩ := List.forall_mem_cons.mp hProper
      obtain ⟨hApart, hWithin⟩ :=
        ih hTiles.2.2 hBs (by omega)
      have hEnd := hTiles.2.2.off_le
      rw [used]
      split
      · exact ⟨hApart, fun u hU => by
          have hRest := hWithin u hU
          omega⟩
      · refine ⟨List.pairwise_cons.mpr ⟨fun u hU => ?_, hApart⟩,
          fun u hU => ?_⟩
        · have hRest := hWithin u hU
          dsimp only
          omega
        · rcases List.mem_cons.mp hU with rfl | hU
          · dsimp only
            omega
          · have hRest := hWithin u hU
            omega

theorem used_gt
    {u : Nat × Nat}
    (hU : u ∈ used off bs) :
    off + 8 ≤ u.1 := by
  induction bs generalizing off with
  | nil => cases hU
  | cons b bs ih =>
      rw [used, List.mem_append] at hU
      rcases hU with hU | hU
      · split at hU
        · cases hU
        · rw [List.mem_singleton.mp hU]
      · have hRest := ih hU
        omega

theorem used_mark
    (p : Int)
    (off : Nat)
    (bs : List Block) :
    used off (mark p off bs) =
      (used off bs).filter (fun u => (u.1 : Int) != p) := by
  induction bs generalizing off with
  | nil => rfl
  | cons b bs ih =>
      rw [mark]
      split
      · rename_i hP
        have hRest : (used (off + 8 + b.bytes) bs).filter
            (fun u => (u.1 : Int) != p) =
              used (off + 8 + b.bytes) bs := by
          refine List.filter_eq_self.mpr fun u hU => ?_
          have hGt := used_gt hU
          rw [bne_iff_ne]
          omega
        rw [used, used, if_pos rfl, List.nil_append,
          List.filter_append, hRest]
        split
        · rfl
        · simp [hP]
      · rename_i hP
        rw [used, used, ih, List.filter_append]
        split
        · rfl
        · simp [hP]

theorem used_mergeFrom
    (b : Block)
    (off : Nat)
    (bs : List Block) :
    used off (mergeFrom b bs) = used off (b :: bs) := by
  induction bs generalizing b off with
  | nil => rfl
  | cons c bs ih =>
      rw [mergeFrom]
      split
      · rename_i hFree
        have hEq : off + 8 + (b.bytes + 8 + c.bytes) =
            off + 8 + b.bytes + 8 + c.bytes := by omega
        rw [ih, used, used, used, if_pos hFree.1,
          if_pos hFree.1, if_pos hFree.2]
        dsimp only
        rw [hEq]
        rfl
      · rw [used, ih]
        rfl

variable {b : Block} {before : Bool}

theorem separate_mergeFrom
    (bs : List Block)
    (hFirst : ¬ (before = true ∧ b.free = true)) :
    Separate before (mergeFrom b bs) := by
  induction bs generalizing before b with
  | nil => exact ⟨hFirst, trivial⟩
  | cons c bs ih =>
      rw [mergeFrom]
      split
      · exact ih hFirst
      · exact ⟨hFirst, ih ‹_›⟩

theorem proper_mergeFrom
    (hProper : Proper (b :: bs)) :
    Proper (mergeFrom b bs) := by
  induction bs generalizing b with
  | nil => exact hProper
  | cons c bs ih =>
      obtain ⟨hB, hRest⟩ := List.forall_mem_cons.mp hProper
      obtain ⟨hC, hBs⟩ := List.forall_mem_cons.mp hRest
      rw [mergeFrom]
      split
      · refine ih (List.forall_mem_cons.mpr ⟨?_, hBs⟩)
        dsimp only
        omega
      · exact List.forall_mem_cons.mpr ⟨hB, ih hRest⟩

theorem proper_mark
    {p : Int}
    (hProper : Proper bs) :
    Proper (mark p off bs) := by
  induction bs generalizing off with
  | nil => exact hProper
  | cons b bs ih =>
      obtain ⟨hB, hBs⟩ := List.forall_mem_cons.mp hProper
      rw [mark]
      split
      · exact List.forall_mem_cons.mpr ⟨hB, hBs⟩
      · exact List.forall_mem_cons.mpr ⟨hB, ih hBs⟩

/- What was marked is merged, and nothing else is changed. -/
theorem merge_mark
    (p : Int)
    (off : Nat)
    (hProper : Proper bs) :
    Separate false (merge (mark p off bs)) ∧
      Proper (merge (mark p off bs)) ∧
        used off (merge (mark p off bs)) =
          (used off bs).filter (fun u => (u.1 : Int) != p) := by
  have hMarked : Proper (mark p off bs) := proper_mark hProper
  rw [← used_mark]
  generalize mark p off bs = marked at hMarked ⊢
  cases marked with
  | nil => exact ⟨trivial, hMarked, rfl⟩
  | cons b rest =>
      exact ⟨separate_mergeFrom rest nofun,
        proper_mergeFrom hMarked, used_mergeFrom b off rest⟩

theorem Separate.weaken
    (hSeparate : Separate before bs) :
    Separate false bs := by
  cases bs with
  | nil => trivial
  | cons b bs => exact ⟨nofun, hSeparate.2⟩

/- A block that is placed is new, and large enough. -/
theorem place_some
    {o : Nat}
    {bs' : List Block}
    (hSize : 8 ∣ n ∧ 8 ≤ n)
    (hSeparate : Separate before bs)
    (hProper : Proper bs)
    (hPlace : place n bs = some (o, bs')) :
    Separate before bs' ∧ Proper bs' ∧
      ∀ off, ∃ m, n ≤ m ∧
        (used off bs').Perm ((off + o, m) :: used off bs) := by
  induction bs generalizing before o bs' with
  | nil => cases hPlace
  | cons b bs ih =>
      obtain ⟨hB, hBs⟩ := List.forall_mem_cons.mp hProper
      obtain ⟨hFirst, hRest⟩ := hSeparate
      rw [place] at hPlace
      split at hPlace
      · obtain ⟨⟨o', rest⟩, hIn, hEq⟩ :=
          Option.map_eq_some_iff.mp hPlace
        cases hEq
        obtain ⟨hSeparate', hProper', hUsed⟩ := ih hRest hBs hIn
        refine ⟨⟨hFirst, hSeparate'⟩,
          List.forall_mem_cons.mpr ⟨hB, hProper'⟩, fun off => ?_⟩
        obtain ⟨m, hM, hPerm⟩ := hUsed (off + 8 + b.bytes)
        refine ⟨m, hM, ?_⟩
        have hEq : off + (8 + b.bytes + o') =
            off + 8 + b.bytes + o' := by omega
        rw [used, used, hEq]
        exact (hPerm.append_left _).trans List.perm_middle
      · rename_i hFits
        push Not at hFits
        have hFree : b.free = true := by
          simpa using hFits.1
        rw [hFree] at hRest
        split at hPlace
        · cases hPlace
          refine ⟨⟨by simp, by simp, hRest⟩, ?_, fun off =>
            ⟨n, le_rfl, ?_⟩⟩
          · refine List.forall_mem_cons.mpr ⟨hSize,
              List.forall_mem_cons.mpr ⟨?_, hBs⟩⟩
            dsimp only
            omega
          · have hEq : off + 8 + n + 8 + (b.bytes - n - 8) =
                off + 8 + b.bytes := by omega
            rw [used, used, used, hFree, if_pos rfl, if_pos rfl]
            dsimp only
            rw [hEq]
            rfl
        · cases hPlace
          refine ⟨⟨by simp, hRest.weaken⟩,
            List.forall_mem_cons.mpr ⟨hB, hBs⟩, fun off =>
              ⟨b.bytes, hFits.2, ?_⟩⟩
          rw [used, used, hFree, if_pos rfl]
          rfl

theorem place_none
    (hPlace : place n bs = none) :
    ∀ b ∈ bs, b.free = true → b.bytes < n := by
  induction bs with
  | nil => nofun
  | cons b bs ih =>
      rw [place] at hPlace
      split at hPlace
      · rename_i hSkip
        refine List.forall_mem_cons.mpr ⟨fun hFree => ?_,
          ih (Option.map_eq_none_iff.mp hPlace)⟩
        rw [hFree] at hSkip
        exact hSkip.resolve_left nofun
      · split at hPlace <;> cases hPlace

--
-- Calls
--

inductive Call where
  | allocate (n : Nat)
  | release (p : Option Int)

def step (a : Arena) : Call → Option Arena
  | .allocate n => (allocate a n).map Prod.fst
  | .release p => release a p

def run : Arena → List Call → Option Arena
  | a, [] => some a
  | a, c :: cs => (step a c).bind (run · cs)

/- The blocks tile the heap, and free ones have been merged. -/
structure Sound
    (a : Arena)
    (bs : List Block) : Prop where
  tiles : Tiles a.start 0 bs
  separate : Separate false bs
  proper : Proper bs

def Allocates
    (a : Arena)
    (bs : List Block)
    (n : Nat) : Prop :=
  ∃ a' r bs', allocate a n = some (a', r) ∧ Sound a' bs' ∧
    match r with
    | none =>
        used 0 bs' = used 0 bs ∧
          (n = 0 ∨ heapBytes - 8 < n ∨
            ∀ b ∈ bs, b.free = true →
              b.bytes < (n + 7) / 8 * 8)
    | some p =>
        ∃ m, n ≤ m ∧ (used 0 bs').Perm ((p, m) :: used 0 bs)

def Releases
    (a : Arena)
    (bs : List Block)
    (p : Option Int) : Prop :=
  ∃ a' bs', release a p = some a' ∧ Sound a' bs' ∧
    used 0 bs' =
      (used 0 bs).filter (fun u => some (u.1 : Int) != p)

variable {a : Arena}

theorem Sound.few
    (hSound : Sound a bs) :
    bs.length < turnsMax := by
  have hEnd := hSound.tiles.off_le
  unfold heapBytes at hEnd
  unfold turnsMax
  omega

theorem sound_start
    (header : Nat → Block) :
    Sound ⟨false, header⟩ [⟨heapBytes - 8, true⟩] where
  tiles :=
    ⟨by decide, put_same header 0 ⟨heapBytes - 8, true⟩, rfl⟩
  separate := ⟨nofun, trivial⟩
  proper := by
    rw [Proper, List.forall_mem_singleton]
    decide

theorem allocates_of_sound
    (hSound : Sound a bs)
    (n : Nat) :
    Allocates a bs n := by
  unfold Allocates allocate
  by_cases hSize : n = 0 ∨ heapBytes - 8 < n
  · rw [if_pos hSize]
    refine ⟨a, none, bs, rfl, hSound, rfl, ?_⟩
    exact hSize.imp_right .inl
  · rw [if_neg hSize]
    push Not at hSize
    have hLoop := @allocLoop_spec a.start 0 turnsMax
      ((n + 7) / 8 * 8) bs hSound.tiles hSound.few
    cases hPlace : place ((n + 7) / 8 * 8) bs with
    | none =>
        rw [hPlace] at hLoop
        rw [hLoop]
        exact ⟨⟨true, a.start⟩, none, bs, rfl,
          ⟨hSound.tiles, hSound.separate, hSound.proper⟩, rfl,
          .inr (.inr (place_none hPlace))⟩
    | some out =>
        obtain ⟨o, bs'⟩ := out
        rw [hPlace] at hLoop
        obtain ⟨header', hRun, hTiles, -⟩ := hLoop
        obtain ⟨hSeparate, hProper, hUsed⟩ := place_some
          (by omega) hSound.separate hSound.proper hPlace
        obtain ⟨m, hM, hPerm⟩ := hUsed 0
        rw [hRun]
        refine ⟨⟨true, header'⟩, some (0 + o), bs', rfl,
          ⟨hTiles, hSeparate, hProper⟩, m, by omega, hPerm⟩

theorem releases_of_sound
    (hSound : Sound a bs)
    (p : Option Int) :
    Releases a bs p := by
  cases p with
  | none =>
      refine ⟨a, bs, rfl, hSound, ?_⟩
      exact (List.filter_eq_self.mpr fun _ _ => rfl).symm
  | some p =>
      unfold Releases release
      dsimp only
      split
      · rename_i hReady
        have hTiles := hSound.tiles
        rw [Arena.start, if_pos hReady] at hTiles
        obtain ⟨header', hFind, hMarked, -⟩ :=
          findLoop_spec p hTiles hSound.few
        have hTurns : (mark p 0 bs).length < turnsMax := by
          have hEnd := hMarked.off_le
          unfold heapBytes at hEnd
          unfold turnsMax
          omega
        obtain ⟨header'', hMerge, hMerged, -⟩ :=
          mergeLoop_spec hMarked hTurns
        obtain ⟨hSeparate, hProper, hUsed⟩ :=
          merge_mark p 0 hSound.proper
        rw [hFind, Option.bind_some, hMerge]
        exact ⟨⟨true, header''⟩, _, rfl,
          ⟨hMerged, hSeparate, hProper⟩, hUsed⟩
      · rename_i hReady
        refine ⟨a, bs, rfl, hSound, ?_⟩
        -- nothing has been allocated yet
        have hTiles := hSound.tiles
        rw [Arena.start, if_neg hReady] at hTiles
        match bs, hTiles with
        | [], _ => rfl
        | [b], ⟨_, hHeader, _⟩ =>
            rw [put_same] at hHeader
            subst hHeader
            rfl
        | b :: c :: _, ⟨_, hHeader, hLt, _⟩ =>
            rw [put_same] at hHeader
            subst hHeader
            exact absurd hLt (by decide)

/-
  After any sequence of calls the blocks tile the heap, the
  live allocations are apart, and the next call does what it
  should.
-/
theorem heap_sound
    (header : Nat → Block)
    (calls : List Call) :
    ∃ a bs, run ⟨false, header⟩ calls = some a ∧ Sound a bs ∧
      ((used 0 bs).Pairwise (fun u v => u.1 + u.2 ≤ v.1) ∧
        ∀ u ∈ used 0 bs, 8 ∣ u.1 ∧ u.1 + u.2 ≤ heapBytes) ∧
      (∀ n, Allocates a bs n) ∧ ∀ p, Releases a bs p := by
  have hRuns :
      ∀ (a : Arena) (bs : List Block), Sound a bs →
        ∃ a' bs', run a calls = some a' ∧ Sound a' bs' := by
    induction calls with
    | nil => exact fun a bs hSound => ⟨a, bs, rfl, hSound⟩
    | cons c cs ih =>
        intro a bs hSound
        cases c with
        | allocate n =>
            obtain ⟨a', r, bs', hCall, hSound', -⟩ :=
              allocates_of_sound hSound n
            rw [run, step, hCall]
            exact ih a' bs' hSound'
        | release p =>
            obtain ⟨a', bs', hCall, hSound', -⟩ :=
              releases_of_sound hSound p
            rw [run, step, hCall]
            exact ih a' bs' hSound'
  obtain ⟨a, bs, hRun, hSound⟩ := hRuns _ _ (sound_start header)
  obtain ⟨hApart, hWithin⟩ :=
    used_within hSound.tiles hSound.proper (Nat.dvd_zero 8)
  exact ⟨a, bs, hRun, hSound,
    ⟨hApart, fun u hU => (hWithin u hU).2⟩,
    allocates_of_sound hSound, releases_of_sound hSound⟩

--
-- Giving Everything Back
--

theorem run_sound
    (calls : List Call)
    (hSound : Sound a bs) :
    ∃ a' bs', run a calls = some a' ∧ Sound a' bs' := by
  induction calls generalizing a bs with
  | nil => exact ⟨a, bs, rfl, hSound⟩
  | cons c cs ih =>
      cases c with
      | allocate n =>
          rcases allocates_of_sound hSound n with
            ⟨a', r, bs', hCall, hSound', -⟩
          rw [run, step, hCall]
          exact ih hSound'
      | release p =>
          rcases releases_of_sound hSound p with
            ⟨a', bs', hCall, hSound', -⟩
          rw [run, step, hCall]
          exact ih hSound'

theorem run_release
    (ps : List Int)
    (hSound : Sound a bs) :
    ∃ a' bs', run a (ps.map (.release ∘ some)) = some a' ∧
      Sound a' bs' ∧ ∀ u ∈ used 0 bs',
        u ∈ used 0 bs ∧ (u.1 : Int) ∉ ps := by
  induction ps generalizing a bs with
  | nil => exact ⟨a, bs, rfl, hSound, fun _ hU => ⟨hU, nofun⟩⟩
  | cons p ps ih =>
      rcases releases_of_sound hSound (some p) with
        ⟨a', bs', hCall, hSound', hUsed⟩
      rcases ih hSound' with ⟨a'', bs'', hRun, hSound'', hLeft⟩
      rw [List.map_cons, run, Function.comp_apply, step, hCall]
      refine ⟨a'', bs'', hRun, hSound'', fun u hU => ?_⟩
      rcases hLeft u hU with ⟨hIn, hNot⟩
      rw [hUsed, List.mem_filter] at hIn
      refine ⟨hIn.1, ?_⟩
      rw [List.mem_cons, not_or]
      exact ⟨by simpa using hIn.2, hNot⟩

/- Without a live allocation there is a single block. -/
theorem Sound.whole
    (hSound : Sound a bs)
    (hNone : ∀ u, u ∉ used 0 bs) :
    bs = [⟨heapBytes - 8, true⟩] := by
  have hTiles := hSound.tiles
  have hSeparate := hSound.separate
  have hFirst : ∀ b rest, bs = b :: rest → b.free = true := by
    rintro b rest rfl
    by_contra hUsed
    rw [used, if_neg hUsed] at hNone
    exact hNone _ List.mem_cons_self
  cases bs with
  | nil =>
      have hEnd : 0 = heapBytes := hTiles
      exact absurd hEnd (by decide)
  | cons b bs =>
      have hFree := hFirst b bs rfl
      cases bs with
      | nil =>
          have hEnd : 0 + 8 + b.bytes = heapBytes := hTiles.2.2
          have hBytes : b.bytes = heapBytes - 8 := by omega
          rw [← hBytes, ← hFree]
      | cons c rest =>
          rw [used, if_pos hFree, List.nil_append, used] at hNone
          split at hNone
          · exact absurd ⟨hFree, ‹_›⟩ hSeparate.2.1
          · exact absurd List.mem_cons_self (hNone _)

/-
  After any sequence of calls, once all live allocations are
  given back, in any order and among other pointers, the heap
  is one block again and serves every request it ever could.
-/
theorem heap_reclaimed
    (header : Nat → Block)
    (calls : List Call) :
    ∃ a bs, run ⟨false, header⟩ calls = some a ∧ Sound a bs ∧
      ∀ ps : List Int, (∀ u ∈ used 0 bs, (u.1 : Int) ∈ ps) →
        ∃ a', run a (ps.map (.release ∘ some)) = some a' ∧
          Sound a' [⟨heapBytes - 8, true⟩] ∧
          ∀ n, 0 < n → n ≤ heapBytes - 8 →
            ∃ a'' p, allocate a' n = some (a'', some p) := by
  rcases run_sound calls (sound_start header) with
    ⟨a, bs, hRun, hSound⟩
  refine ⟨a, bs, hRun, hSound, fun ps hAll => ?_⟩
  rcases run_release ps hSound with
    ⟨a', bs', hRun', hSound', hLeft⟩
  cases hSound'.whole fun u hU =>
    (hLeft u hU).2 (hAll u (hLeft u hU).1)
  refine ⟨a', hRun', hSound', fun n hPos hLe => ?_⟩
  rcases allocates_of_sound hSound' n with
    ⟨a'', r, bs'', hCall, -, hResult⟩
  cases r with
  | some p => exact ⟨a'', p, hCall⟩
  | none =>
      rcases hResult.2 with hZero | hMore | hFew
      · omega
      · omega
      · have hLess := hFew _ List.mem_cons_self rfl
        unfold heapBytes at hLess hLe
        dsimp only at hLess
        omega

end KvantOS.Runtime
