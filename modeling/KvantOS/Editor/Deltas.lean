import KvantOS.Data.Timeline
import KvantOS.Editor.History
import Mathlib

/-
  This file states which edits the packed buffer of a history
  records, and that they stay recorded while changes are
  discarded, dropped and added.

  Key definitions include:
    * `Snapshot`
    * `Packed`, `Records`, `Stored`

  Key theorems include:
    * `dropUndone_stored`, `makeRoom_spec`, `Stored.push`
-/

namespace KvantOS.Editor

--
-- Recorded Edits
--

/- What an edit changes; the revision is left out. -/
structure Snapshot where
  text : List UInt8
  mark : TextMark

def TextMark.plain (m : TextMark) : TextMark :=
  { m with revision := 0 }

/- The bytes of a change in the buffer. -/
def TextChange.size (c : TextChange) : Nat :=
  c.removed + c.inserted

/- The bytes of several changes. -/
def bytesOf (changes : List TextChange) : Nat :=
  (changes.map TextChange.size).sum

/- The changes follow each other in the buffer. -/
def Packed : Nat → List TextChange → Nat → Prop
  | a, [], b => a = b
  | a, c :: rest, b =>
      c.data = a ∧ Packed (a + c.size) rest b

/-
  The change records the edit: both texts, by the bytes of
  the buffer, and both marks, whose revisions name the texts
  by `texts`.
-/
structure Records
    (data : Buf)
    (texts : Nat → List UInt8)
    (serial : Nat)
    (c : TextChange)
    (e : Edit Snapshot) : Prop where
  delta : ∃ pre post,
    e.before.text =
      pre ++ (data.drop c.data).toList c.removed ++ post ∧
    e.after.text =
      pre ++ (data.drop (c.data + c.removed)).toList
        c.inserted ++ post ∧
    pre.length = c.pos
  filled : 0 < c.size
  before : c.before.plain = e.before.mark
  after : c.after.plain = e.after.mark
  beforeText : texts c.before.revision = e.before.text
  afterText : texts c.after.revision = e.after.text
  beforeLe : c.before.revision ≤ serial
  afterLe : c.after.revision ≤ serial

/- The history records the edits, within its limits. -/
structure Stored
    (texts : Nat → List UInt8)
    (u : TextUndo)
    (edits : List (Edit Snapshot)) : Prop where
  packed : Packed 0 u.changes u.used
  bytes : u.used ≤ edHistoryBytes
  steps : u.count ≤ edHistorySteps
  each : List.Forall₂ (Records u.data texts u.serial)
    u.changes edits

variable {a b : Nat} {changes : List TextChange}
variable {texts texts' : Nat → List UInt8}
variable {edits : List (Edit Snapshot)} {e : Edit Snapshot}
variable {c : TextChange} {u u' : TextUndo}

theorem Packed.eq
    (hPacked : Packed a changes b) :
    b = a + bytesOf changes := by
  induction changes generalizing a with
  | nil => exact hPacked.symm
  | cons c rest ih =>
      have hRest := ih hPacked.2
      unfold bytesOf at hRest ⊢
      rw [List.map_cons, List.sum_cons]
      omega

theorem packed_append
    (x y : List TextChange) :
    Packed a (x ++ y) b ↔
      ∃ m, Packed a x m ∧ Packed m y b := by
  induction x generalizing a with
  | nil => simp [Packed]
  | cons c rest ih =>
      simp only [List.cons_append, Packed, ih]
      constructor
      · rintro ⟨hHere, m, hFirst, hSecond⟩
        exact ⟨m, ⟨hHere, hFirst⟩, hSecond⟩
      · rintro ⟨m, ⟨hHere, hFirst⟩, hSecond⟩
        exact ⟨hHere, m, hFirst, hSecond⟩

theorem Packed.bounds
    (hPacked : Packed a changes b)
    (hMem : c ∈ changes) :
    a ≤ c.data ∧ c.data + c.size ≤ b := by
  induction changes generalizing a with
  | nil => cases hMem
  | cons d rest ih =>
      obtain ⟨hHere, hRest⟩ := hPacked
      have hTop := hRest.eq
      rcases List.mem_cons.mp hMem with rfl | hIn
      · omega
      · have hBounds := ih hRest hIn
        omega

/- Moving the buffer down moves the changes down. -/
theorem Packed.shift
    {cut : Nat}
    (hCut : cut ≤ a)
    (hPacked : Packed a changes b) :
    Packed (a - cut)
      (changes.map (fun c =>
        { c with data := c.data - cut }))
      (b - cut) := by
  induction changes generalizing a with
  | nil =>
      rw [show a = b from hPacked]
      rfl
  | cons c rest ih =>
      obtain ⟨hHere, hRest⟩ := hPacked
      have hNext := ih (a := a + c.size) (by omega) hRest
      rw [Nat.sub_add_comm hCut] at hNext
      exact ⟨by dsimp only; rw [hHere], hNext⟩

theorem Buf.toList_congr
    {x y : Buf}
    {n : Nat}
    (hSame : ∀ i, i < n → x i = y i) :
    x.toList n = y.toList n :=
  List.map_congr_left
    (fun i hMem => hSame i (List.mem_range.mp hMem))

theorem forall₂_imp_mem
    {α β : Type}
    {r r' : α → β → Prop}
    {l : List α}
    {m : List β}
    (hEach : List.Forall₂ r l m)
    (hImp : ∀ x y, x ∈ l → r x y → r' x y) :
    List.Forall₂ r' l m := by
  induction hEach with
  | nil => exact List.Forall₂.nil
  | cons hHere _ ih =>
      refine List.Forall₂.cons (hImp _ _ (by simp) hHere)
        (ih ?_)
      intro x y hMem
      exact hImp x y (List.mem_cons_of_mem _ hMem)

/- The record only depends on the bytes of the change. -/
theorem Records.move
    {data : Buf}
    {serial : Nat}
    (data' : Buf)
    (place : Nat)
    (hRecords : Records data texts serial c e)
    (hSame : ∀ i, i < c.size →
      data' (place + i) = data (c.data + i)) :
    Records data' texts serial { c with data := place }
      e := by
  obtain ⟨pre, post, hBefore, hAfter, hLength⟩ :=
    hRecords.delta
  unfold TextChange.size at hSame
  have hOld : (data'.drop place).toList c.removed =
      (data.drop c.data).toList c.removed :=
    Buf.toList_congr (fun i hi => hSame i (by omega))
  have hNew :
      (data'.drop (place + c.removed)).toList c.inserted =
        (data.drop (c.data + c.removed)).toList
          c.inserted := by
    refine Buf.toList_congr (fun i hi => ?_)
    have hByte := hSame (c.removed + i) (by omega)
    unfold Buf.drop
    rw [Nat.add_assoc, hByte, Nat.add_assoc]
  exact
    { delta := ⟨pre, post, by dsimp only; rw [hOld, hBefore],
        by dsimp only; rw [hNew, hAfter], hLength⟩
      filled := hRecords.filled
      before := hRecords.before
      after := hRecords.after
      beforeText := hRecords.beforeText
      afterText := hRecords.afterText
      beforeLe := hRecords.beforeLe
      afterLe := hRecords.afterLe }

/- New revisions do not rename old texts. -/
theorem Records.later
    {data : Buf}
    {serial serial' : Nat}
    (hRecords : Records data texts serial c e)
    (hLe : serial ≤ serial')
    (hSame : ∀ n, n ≤ serial → texts' n = texts n) :
    Records data texts' serial' c e :=
  { hRecords with
    beforeText := by
      rw [hSame _ hRecords.beforeLe]
      exact hRecords.beforeText
    afterText := by
      rw [hSame _ hRecords.afterLe]
      exact hRecords.afterText
    beforeLe := Nat.le_trans hRecords.beforeLe hLe
    afterLe := Nat.le_trans hRecords.afterLe hLe }

--
-- Discarding and Dropping
--

theorem Stored.count_eq
    (hStored : Stored texts u edits) :
    u.count = edits.length :=
  hStored.each.length_eq

/- The undone changes are the last ones in the buffer. -/
theorem dropUndone_stored
    (kept : List (Edit Snapshot))
    {undone : List (Edit Snapshot)}
    (hStored : Stored texts u (kept ++ undone))
    (hCursor : u.cursor = kept.length) :
    Stored texts (dropUndone u) kept := by
  have hPacked := hStored.packed
  rw [← List.take_append_drop u.cursor u.changes,
    packed_append] at hPacked
  obtain ⟨m, hFirst, hSecond⟩ := hPacked
  have hUsed : (dropUndone u).used = m := by
    unfold dropUndone
    dsimp only
    cases hAt : u.changes[u.cursor]? with
    | none =>
        rw [List.getElem?_eq_none_iff] at hAt
        rw [List.drop_eq_nil_of_le hAt] at hSecond
        exact hSecond.symm
    | some c =>
        obtain ⟨hIn, hHere⟩ := List.getElem?_eq_some_iff.mp hAt
        rw [List.drop_eq_getElem_cons hIn, hHere] at hSecond
        exact hSecond.1
  have hBytes := hStored.bytes
  have hTop := hSecond.eq
  have hSteps := hStored.steps
  refine ⟨?_, ?_, ?_, ?_⟩
  · rw [hUsed]
    exact hFirst
  · rw [hUsed]
    omega
  · unfold TextUndo.count at hSteps ⊢
    unfold dropUndone
    rw [List.length_take]
    omega
  · have hEach := List.forall₂_take_append _ kept undone
      hStored.each
    rw [← hCursor] at hEach
    exact hEach

theorem dropOldest_stored
    (hStored : Stored texts u (e :: edits)) :
    Stored texts (dropOldest u) edits := by
  have hEach := hStored.each
  have hPacked := hStored.packed
  have hBytes := hStored.bytes
  have hSteps := hStored.steps
  unfold TextUndo.count at hSteps
  cases hChanges : u.changes with
  | nil =>
      rw [hChanges] at hEach
      cases hEach
  | cons c rest =>
      rw [hChanges] at hEach hPacked hSteps
      obtain ⟨_, hPacked⟩ := hPacked
      rw [Nat.zero_add] at hPacked
      have hShift := hPacked.shift (Nat.le_refl _)
      rw [Nat.sub_self] at hShift
      unfold dropOldest
      rw [hChanges]
      refine ⟨hShift, ?_, ?_, ?_⟩
      · dsimp only
        omega
      · simp only [TextUndo.count, List.length_map]
        simp only [List.length_cons] at hSteps
        omega
      · dsimp only
        rw [List.forall₂_map_left_iff]
        rw [List.forall₂_cons] at hEach
        refine forall₂_imp_mem hEach.2 ?_
        intro d x hMem hRecords
        have hBounds := hPacked.bounds hMem
        unfold TextChange.size at hBounds
        refine hRecords.move _ _ ?_
        intro i hi
        unfold TextChange.size at hi
        unfold Buf.copy
        rw [if_pos (by omega)]
        unfold Buf.drop
        congr 1
        omega

/- What dropping changes does not touch. -/
theorem dropOldest_frame (u : TextUndo) :
    (dropOldest u).serial = u.serial ∧
      (dropOldest u).current = u.current ∧
      (dropOldest u).saved = u.saved := by
  unfold dropOldest
  split
  · exact ⟨rfl, rfl, rfl⟩
  · exact ⟨rfl, rfl, rfl⟩

theorem dropOldest_cons
    {rest : List TextChange}
    (hChanges : u.changes = c :: rest) :
    (dropOldest u).count = rest.length ∧
      (dropOldest u).cursor = u.cursor - 1 ∧
      ∀ k, bytesOf ((dropOldest u).changes.drop k) =
        bytesOf (rest.drop k) := by
  unfold dropOldest
  rw [hChanges]
  refine ⟨?_, rfl, ?_⟩
  · unfold TextUndo.count
    dsimp only
    rw [List.length_map]
  · intro k
    unfold bytesOf
    dsimp only
    rw [← List.map_drop, List.map_map]
    rfl

/-
  Room is made by dropping as many of the oldest changes as
  it takes, and no more.
-/
structure Roomy
    (bytes : Nat)
    (u u' : TextUndo)
    (n : Nat) : Prop where
  dropped : n ≤ u.count
  count : u'.count = u.count - n
  cursor : u'.cursor = u'.count
  serial : u'.serial = u.serial
  current : u'.current = u.current
  saved : u'.saved = u.saved
  room : u'.count = 0 ∨ (u'.count ≠ edHistorySteps ∧
    u'.used + bytes ≤ edHistoryBytes)
  needed : n = 0 ∨ u.count - (n - 1) = edHistorySteps ∨
    edHistoryBytes < bytesOf (u.changes.drop (n - 1)) + bytes

theorem makeRoom_spec
    (bytes fuel : Nat)
    (hStored : Stored texts u edits)
    (hCursor : u.cursor = u.count)
    (hFuel : u.count ≤ fuel) :
    ∃ n, Stored texts (makeRoom bytes fuel u)
        (edits.drop n) ∧
      Roomy bytes u (makeRoom bytes fuel u) n := by
  have hDone (hRoom : u.count = 0 ∨
      (u.count ≠ edHistorySteps ∧
        u.used + bytes ≤ edHistoryBytes)) :
      Roomy bytes u u 0 :=
    ⟨Nat.zero_le _, rfl, hCursor, rfl, rfl, rfl, hRoom,
      Or.inl rfl⟩
  induction fuel generalizing u edits with
  | zero => exact ⟨0, hStored, hDone (Or.inl (by omega))⟩
  | succ fuel ih =>
      unfold makeRoom
      by_cases hMore : u.count ≠ 0 ∧
          (u.count = edHistorySteps ∨
            edHistoryBytes < u.used + bytes)
      · rw [if_pos hMore]
        have hCount := hStored.count_eq
        have hUsed := hStored.packed.eq
        obtain ⟨c, rest, hChanges⟩ :
            ∃ c rest, u.changes = c :: rest :=
          List.exists_cons_of_length_pos
            (Nat.pos_of_ne_zero hMore.1)
        obtain ⟨e, later, rfl⟩ : ∃ e later,
            edits = e :: later :=
          List.exists_cons_of_length_pos (by omega)
        have hLength : u.count = rest.length + 1 := by
          unfold TextUndo.count
          rw [hChanges, List.length_cons]
        obtain ⟨hLess, hMoved, hSizes⟩ :=
          dropOldest_cons hChanges
        obtain ⟨hSerial, hCurrent, hSaved⟩ :=
          dropOldest_frame u
        obtain ⟨n, hRest, hRoomy⟩ :=
          ih (dropOldest_stored hStored) (by omega) (by omega)
            (fun hRoom => ⟨Nat.zero_le _, rfl, by omega, rfl,
              rfl, rfl, hRoom, Or.inl rfl⟩)
        have hDropped := hRoomy.dropped
        have hLeft := hRoomy.count
        refine ⟨n + 1, hRest, by omega, by omega,
          hRoomy.cursor, hRoomy.serial.trans hSerial,
          hRoomy.current.trans hCurrent,
          hRoomy.saved.trans hSaved, hRoomy.room,
          Or.inr ?_⟩
        by_cases hZero : n = 0
        · subst hZero
          rw [Nat.zero_add] at hUsed
          rw [Nat.zero_add, Nat.sub_self, List.drop_zero,
            Nat.sub_zero, ← hUsed]
          exact hMore.2
        · rcases hRoomy.needed with hNone | hSteps | hBytes
          · exact absurd hNone hZero
          · exact Or.inl (by omega)
          · refine Or.inr ?_
            rw [hSizes] at hBytes
            rw [hChanges, Nat.add_sub_cancel]
            obtain ⟨k, rfl⟩ : ∃ k, n = k + 1 :=
              ⟨n - 1, by omega⟩
            rw [List.drop_succ_cons]
            exact hBytes
      · rw [if_neg hMore]
        refine ⟨0, hStored, hDone ?_⟩
        by_cases hZero : u.count = 0
        · exact Or.inl hZero
        · refine Or.inr ⟨?_, ?_⟩
          · intro hSteps
            exact hMore ⟨hZero, Or.inl hSteps⟩
          · by_contra hBytes
            exact hMore ⟨hZero, Or.inr (by omega)⟩

theorem Stored.push
    (hStored : Stored texts u edits)
    (hChanges : u'.changes = u.changes ++ [c])
    (hData : ∀ i, i < u.used → u'.data i = u.data i)
    (hPlace : c.data = u.used)
    (hUsed : u'.used = u.used + c.size)
    (hBytes : u'.used ≤ edHistoryBytes)
    (hSteps : u'.count ≤ edHistorySteps)
    (hSerial : u.serial ≤ u'.serial)
    (hTexts : ∀ n, n ≤ u.serial → texts' n = texts n)
    (hNew : Records u'.data texts' u'.serial c e) :
    Stored texts' u' (edits ++ [e]) := by
  refine ⟨?_, hBytes, hSteps, ?_⟩
  · rw [hChanges, packed_append]
    exact ⟨u.used, hStored.packed, hPlace, hUsed.symm⟩
  · rw [hChanges]
    refine List.rel_append ?_
      (List.Forall₂.cons hNew List.Forall₂.nil)
    refine forall₂_imp_mem hStored.each ?_
    intro d x hMem hRecords
    have hBounds := hStored.packed.bounds hMem
    have hMoved := (hRecords.later hSerial hTexts).move
      u'.data d.data (fun i hi => hData _ (by omega))
    exact hMoved

end KvantOS.Editor
