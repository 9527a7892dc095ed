import KvantOS.Editor.Deltas
import KvantOS.Editor.Layout

/-
  This file states what is true of a document and its history
  between calls, and that replacing text keeps it so.

  Key definitions include:
    * `Snapshot.Valid`, `Synced`
    * `Ready`, `Leaves`, `Discards`
    * `editedDoc`, `editedUndo`

  Key theorems include:
    * `historyPush_spec`, `replaceCommit_synced`
    * `textReplace_synced`
-/

namespace KvantOS.Editor

variable {s t saved : List UInt8} {d : TextDoc}
variable {u u' v : TextUndo} {texts texts' : Nat → List UInt8}
variable {edits kept undone : List (Edit Snapshot)}
variable {e : Edit Snapshot}

theorem insertedLength_eq (x : List UInt8) :
    insertedLength x = (x.flatMap expand).length := by
  induction x with
  | nil => rfl
  | cons c rest ih =>
      rw [insertedLength, ih, List.flatMap_cons,
        List.length_append]
      unfold expand
      split
      · rfl
      · split
        · rfl
        · rfl

/- A byte of the document is that of the text. -/
theorem shown_eq
    (hHolds : Holds d s)
    (hClean : Clean s)
    {c : UInt8}
    (hAt : s[i]? = some c) :
    shown (d.data i) = c := by
  have hPlain := hClean.plain c (List.mem_of_getElem? hAt)
  rw [hHolds.data i c hAt]
  unfold shown
  by_cases hNew : c = 10
  · rw [if_pos hNew, if_pos rfl, hNew]
  · rw [if_neg hNew, if_neg hPlain.1]

/- The removed bytes are those of the text. -/
theorem toList_removed
    {a n : Nat}
    (hHolds : Holds d s)
    (hClean : Clean s)
    (hEnd : a + n ≤ s.length) :
    Buf.toList (fun i => shown (d.data (a + i))) n =
      (s.drop a).take n := by
  apply List.ext_getElem?
  intro i
  unfold Buf.toList
  rw [List.getElem?_map, List.getElem?_take]
  by_cases hIn : i < n
  · have hText : s[a + i]? = some s[a + i] :=
      List.getElem?_eq_getElem (by omega)
    rw [List.getElem?_range hIn, if_pos hIn,
      List.getElem?_drop, hText, Option.map_some,
      shown_eq hHolds hClean hText]
  · rw [List.getElem?_eq_none (by simpa using hIn),
      if_neg hIn]
    rfl

variable {x : List UInt8}

theorem toList_ofList
    {n : Nat}
    (hLength : n ≤ x.length) :
    (Buf.ofList x).toList n = x.take n := by
  apply List.ext_getElem?
  intro i
  unfold Buf.toList Buf.ofList
  rw [List.getElem?_map, List.getElem?_take]
  by_cases hIn : i < n
  · rw [List.getElem?_range hIn, if_pos hIn,
      List.getElem?_eq_getElem (by omega)]
    simp [List.getD, show i < x.length by omega]
  · rw [List.getElem?_eq_none (by simpa using hIn),
      if_neg hIn]
    rfl

theorem modify_last
    {α : Type}
    (rest : List α)
    (c : α)
    (f : α → α) :
    (rest ++ [c]).modify rest.length f = rest ++ [f c] := by
  induction rest with
  | nil => rfl
  | cons x rest ih =>
      rw [List.cons_append, List.length_cons,
        List.modify_succ_cons, ih]
      rfl

--
-- Between Calls
--

/- A state that an edit leads from or to. -/
structure Snapshot.Valid (x : Snapshot) : Prop where
  clean : Clean x.text
  place : MarkOk x.text x.mark

/-
  The document holds a text, and the history records the
  edits next to it in the timeline: all that were undone, and
  as many of the others as the cursor says. The revisions
  name texts, and the text that was last saved is `saved`.
-/
structure Synced
    (texts : Nat → List UInt8)
    (saved s : List UInt8)
    (d : TextDoc)
    (u : TextUndo)
    (t : Timeline Snapshot) : Prop where
  holds : Holds d s
  clean : Clean s
  place : MarkOk s (mark d 0)
  depth : u.cursor ≤ t.past.length
  stored : Stored texts u
    ((t.past.take u.cursor).reverse ++ t.future)
  joined : t.Joined Snapshot.text s
  valid : ∀ e ∈ t.past ++ t.future,
    e.before.Valid ∧ e.after.Valid
  serial : u.serial < noRevision
  currentLe : u.current ≤ u.serial
  current : texts u.current = s
  named : u.saved = noRevision ∨
    (u.saved ≤ u.serial ∧ texts u.saved = saved)
  dirty : d.dirty = false → s = saved

variable {timeline : Timeline Snapshot}

theorem Synced.cursor_eq
    (hSynced : Synced texts saved s d u timeline) :
    u.cursor =
      (timeline.past.take u.cursor).reverse.length := by
  have hDepth := hSynced.depth
  rw [List.length_reverse, List.length_take]
  omega

theorem Synced.export
    (hSynced : Synced texts saved s d u timeline) :
    textExport d = s :=
  textExport_eq hSynced.holds hSynced.clean

/- The history is ready to record an edit of `bytes` bytes. -/
structure Ready
    (texts : Nat → List UInt8)
    (saved s : List UInt8)
    (v : TextUndo)
    (bytes : Nat)
    (edits : List (Edit Snapshot)) : Prop where
  stored : Stored texts v edits
  steps : v.count < edHistorySteps
  room : v.used + bytes ≤ edHistoryBytes
  serial : v.serial < noRevision - 1
  currentLe : v.current ≤ v.serial
  current : texts v.current = s
  named : v.saved = noRevision ∨
    (v.saved ≤ v.serial ∧ texts v.saved = saved)

/- The change that `history_push` adds. -/
def pushed
    (d : TextDoc)
    (v : TextUndo)
    (bytes : Nat) : TextUndo :=
  { v with
    changes := v.changes ++ [
      { pos := 0
        removed := 0
        inserted := 0
        data := v.used
        before := mark d v.current
        after := mark d v.current }]
    used := v.used + bytes
    cursor := v.count + 1 }

/-
  What an edit leaves of the changes before the cursor: all
  of them, unless there is no room for one more or revisions
  run out.
-/
structure Leaves
    (bytes : Nat)
    (u v : TextUndo) : Prop where
  kept : v.count ≤ u.cursor
  needed : u.serial < noRevision - 1 →
    v.count = u.cursor ∨ v.count + 1 = edHistorySteps ∨
      edHistoryBytes < bytesOf ((u.changes.take u.cursor).drop
        (u.cursor - (v.count + 1))) + bytes
  guard : noRevision - 1 ≤ u.serial → v.count = 0
  serial : u.serial < noRevision - 1 → v.serial = u.serial

theorem stored_reset
    (texts : Nat → List UInt8)
    (d : TextDoc)
    (u : TextUndo) :
    Stored texts (textHistoryReset d u) [] where
  packed := rfl
  bytes := Nat.zero_le _
  steps := Nat.zero_le _
  each := List.Forall₂.nil

theorem historyPush_spec
    {bytes : Nat}
    (hSynced : Synced texts saved s d u timeline)
    (hBytes : bytes ≤ edHistoryBytes) :
    ∃ v texts₀,
      historyPush d u bytes = pushed d v bytes ∧
      Ready texts₀ saved s v bytes
        (timeline.past.take v.count).reverse ∧
      Leaves bytes u v := by
  have hCursor := hSynced.cursor_eq
  by_cases hGuard : noRevision - 1 ≤ u.serial
  · refine ⟨dropUndone (textHistoryReset d u), fun _ => s, ?_,
      ?_, ?_⟩
    · unfold historyPush
      rw [if_pos hGuard]
      rfl
    · refine ⟨dropUndone_stored []
        (stored_reset _ d u) rfl, ?_, ?_, ?_,
        Nat.le_refl _, rfl, ?_⟩
      · exact Nat.succ_pos 63
      · exact (Nat.zero_add bytes).symm ▸ hBytes
      · exact Nat.succ_pos _
      · show (if d.dirty then noRevision else 0) = noRevision ∨
          ((if d.dirty then noRevision else 0) ≤ 0 ∧ s = saved)
        cases hDirty : d.dirty with
        | true => exact Or.inl rfl
        | false => exact Or.inr ⟨Nat.le_refl _,
            hSynced.dirty hDirty⟩
    · exact ⟨Nat.zero_le _,
        fun hLess => absurd hGuard (by omega), fun _ => rfl,
        fun hLess => absurd hGuard (by omega)⟩
  · have hKept := dropUndone_stored _ hSynced.stored hCursor
    have hCount := hKept.count_eq
    rw [← hCursor] at hCount
    have hAll : (dropUndone u).cursor = (dropUndone u).count :=
      hCount.symm
    obtain ⟨n, hStored, hRoomy⟩ := makeRoom_spec bytes
      (dropUndone u).count hKept hAll (Nat.le_refl _)
    generalize hResult : makeRoom bytes (dropUndone u).count
      (dropUndone u) = v at hStored hRoomy
    have hDropped := hRoomy.dropped
    have hLeft := hRoomy.count
    have hDepth := hSynced.depth
    have hSerial : v.serial = u.serial := hRoomy.serial
    have hCurrent : v.current = u.current := hRoomy.current
    have hSaved : v.saved = u.saved := hRoomy.saved
    rw [hCount] at hDropped hLeft
    have hEdits : (timeline.past.take u.cursor).reverse.drop n =
        (timeline.past.take v.count).reverse := by
      rw [List.drop_reverse, List.length_take,
        List.take_take]
      congr 2
      omega
    rw [hEdits] at hStored
    have hRoom : v.count < edHistorySteps ∧
        v.used + bytes ≤ edHistoryBytes := by
      have hSteps := hStored.steps
      rcases hRoomy.room with hZero | ⟨hFew, hFits⟩
      · have hNone := List.eq_nil_of_length_eq_zero hZero
        have hPacked := hStored.packed
        rw [hNone] at hPacked
        rw [hZero, ← show 0 = v.used from hPacked,
          Nat.zero_add]
        exact ⟨by decide, hBytes⟩
      · exact ⟨by omega, hFits⟩
    refine ⟨v, texts, ?_, ⟨hStored, hRoom.1, hRoom.2, ?_, ?_,
      ?_, ?_⟩, ⟨by omega, ?_, fun hLe => absurd hLe hGuard,
        fun _ => hSerial⟩⟩
    · unfold historyPush
      rw [if_neg hGuard]
      dsimp only
      rw [hResult]
      rfl
    · omega
    · rw [hCurrent, hSerial]
      exact hSynced.currentLe
    · rw [hCurrent]
      exact hSynced.current
    · rw [hSaved, hSerial]
      exact hSynced.named
    · intro _
      rcases hRoomy.needed with hZero | hSteps | hFull
      · exact Or.inl (by omega)
      · rw [hCount] at hSteps
        by_cases hZero : n = 0
        · exact Or.inl (by omega)
        · exact Or.inr (Or.inl (by omega))
      · by_cases hZero : n = 0
        · exact Or.inl (by omega)
        · refine Or.inr (Or.inr ?_)
          rw [show u.cursor - (v.count + 1) = n - 1 by omega]
          exact hFull

--
-- Replacing
--

variable {a b inserted : Nat}

/- The document after an edit that led to the text. -/
def editedDoc
    (d : TextDoc)
    (t : List UInt8)
    (place : Nat) : TextDoc :=
  { textPosition (textImport d t) place with
    selecting := false
    dirty := true }

/- The history after an edit was recorded in it. -/
def editedUndo
    (d : TextDoc)
    (v : TextUndo)
    (a b inserted : Nat)
    (t : List UInt8) : TextUndo :=
  { data := (v.data.copy v.used
      (fun i => shown (d.data (a + i))) (b - a)).copy
        (v.used + (b - a)) (Buf.ofList (t.drop a)) inserted
    changes := v.changes ++ [
      { pos := a
        removed := b - a
        inserted := inserted
        data := v.used
        before := mark d v.current
        after := mark (editedDoc d t (a + inserted))
          (v.serial + 1) }]
    used := v.used + (b - a + inserted)
    cursor := v.count + 1
    serial := v.serial + 1
    current := v.serial + 1
    saved := v.saved }

theorem replaceCommit_eq
    (hPush : historyPush d u (b - a + inserted) =
      pushed d v (b - a + inserted))
    (hSerial : v.serial < noRevision - 1) :
    replaceCommit d u a b inserted t =
      (editedDoc d t (a + inserted),
        editedUndo d v a b inserted t) := by
  have hLast : (pushed d v (b - a + inserted)).count - 1 =
      v.changes.length := by
    unfold TextUndo.count pushed
    simp
  have hWrap : (v.serial + 1) % 2 ^ 32 = v.serial + 1 := by
    unfold noRevision at hSerial
    exact Nat.mod_eq_of_lt (by omega)
  unfold replaceCommit
  rw [hPush]
  dsimp only
  rw [hLast]
  unfold TextUndo.edit pushed
  dsimp only
  rw [modify_last, modify_last, Nat.add_sub_cancel, hWrap]
  rfl

/- Bytes that an edit puts behind the others. -/
theorem editedUndo_data
    (hHolds : Holds d s)
    (hClean : Clean s)
    (hOrder : a ≤ b)
    (hEnd : b ≤ s.length)
    (hRest : inserted ≤ (t.drop a).length) :
    (∀ i, i < v.used →
        (editedUndo d v a b inserted t).data i = v.data i) ∧
      ((editedUndo d v a b inserted t).data.drop
        v.used).toList (b - a) = (s.drop a).take (b - a) ∧
      ((editedUndo d v a b inserted t).data.drop
        (v.used + (b - a))).toList inserted =
          (t.drop a).take inserted := by
  refine ⟨?_, ?_, ?_⟩
  · intro i hi
    unfold editedUndo Buf.copy
    dsimp only
    rw [if_neg (by omega), if_neg (by omega)]
  · rw [← toList_removed hHolds hClean (by omega)]
    refine Buf.toList_congr (fun i hi => ?_)
    unfold editedUndo Buf.copy Buf.drop
    dsimp only
    rw [if_neg (by omega), if_pos (by omega),
      Nat.add_sub_cancel_left]
  · rw [← toList_ofList hRest]
    refine Buf.toList_congr (fun i hi => ?_)
    unfold editedUndo Buf.copy Buf.drop
    dsimp only
    rw [if_pos (by omega), Nat.add_sub_cancel_left]

/- The names of texts, with the name of a new one. -/
def naming
    (texts : Nat → List UInt8)
    (serial : Nat)
    (t : List UInt8) : Nat → List UInt8 :=
  fun n => if n = serial + 1 then t else texts n

theorem naming_old
    {serial n : Nat}
    (hOld : n ≤ serial) :
    naming texts serial t n = texts n := by
  unfold naming
  rw [if_neg (by omega)]

theorem naming_new
    {serial : Nat} :
    naming texts serial t (serial + 1) = t :=
  if_pos rfl

/- The insertion as it is in the text. -/
theorem edited_text
    (hEnd : a ≤ s.length) :
    ((s.take a ++ x ++ s.drop b).drop a).take x.length =
      x := by
  have hLength : (s.take a).length = a := by
    rw [List.length_take]
    omega
  rw [List.append_assoc, List.drop_append_of_le_length
      (by omega), List.drop_of_length_le (by omega),
    List.nil_append, List.take_left]

theorem editedUndo_stored
    (hReady : Ready texts saved s v (b - a + x.length) edits)
    (hHolds : Holds d s)
    (hClean : Clean s)
    (hOrder : a ≤ b)
    (hEnd : b ≤ s.length)
    (hSome : a ≠ b ∨ x.length ≠ 0)
    (hText : t = s.take a ++ x ++ s.drop b) :
    Stored (naming texts v.serial t)
      (editedUndo d v a b x.length t)
      (edits ++ [⟨⟨s, mark d 0⟩, ⟨t,
        mark (editedDoc d t (a + x.length)) 0⟩⟩]) := by
  have hStored := hReady.stored
  have hLength : (s.take a).length = a := by
    rw [List.length_take]
    omega
  have hPart : (t.drop a).take x.length = x := by
    rw [hText]
    exact edited_text (by omega)
  have hFits : x.length ≤ (t.drop a).length := by
    have hLe := List.length_take_le x.length (t.drop a)
    rw [hPart] at hLe
    have hTake := congrArg List.length hPart
    rw [List.length_take] at hTake
    omega
  obtain ⟨hOld, hRemoved, hInserted⟩ :=
    editedUndo_data (v := v) hHolds hClean hOrder hEnd hFits
  refine hStored.push rfl hOld rfl rfl hReady.room ?_
    (Nat.le_succ _) (fun n hn => naming_old hn) ?_
  · have hSteps := hReady.steps
    unfold editedUndo
    unfold TextUndo.count at hSteps ⊢
    rw [List.length_append, List.length_singleton]
    omega
  · refine ⟨⟨s.take a, s.drop b, ?_, ?_, hLength⟩, ?_, rfl,
      rfl, ?_, ?_, ?_, Nat.le_refl _⟩
    · dsimp only
      rw [hRemoved, List.append_assoc]
      have hSplit : s.drop a =
          (s.drop a).take (b - a) ++ s.drop b := by
        conv_lhs => rw [← List.take_append_drop (b - a)
          (s.drop a), List.drop_drop,
          show a + (b - a) = b by omega]
      rw [← hSplit, List.take_append_drop]
    · dsimp only
      rw [hInserted, hPart]
      exact hText
    · unfold TextChange.size
      dsimp only
      omega
    · dsimp only [mark]
      rw [naming_old hReady.currentLe]
      exact hReady.current
    · exact naming_new
    · exact Nat.le_succ_of_le hReady.currentLe

/-
  The history after an edit: the undone changes are gone, the
  new one is the last, and those before the cursor are left
  as far as there is room.
-/
structure Discards (u u' : TextUndo) : Prop where
  undone : u'.count = u'.cursor
  added : 0 < u'.cursor
  kept : u'.cursor ≤ u.cursor + 1
  needed : u.serial < noRevision - 1 →
    u'.cursor = u.cursor + 1 ∨ u'.cursor = edHistorySteps ∨
      edHistoryBytes <
        bytesOf ((u.changes.take u.cursor).drop
          (u.cursor - u'.cursor)) +
        bytesOf (u'.changes.drop (u'.cursor - 1))
  guard : noRevision - 1 ≤ u.serial → u'.cursor = 1
  serial : u.serial < noRevision - 1 →
    u'.serial = u.serial + 1

theorem editedUndo_discards
    (hLeaves : Leaves (b - a + inserted) u v) :
    Discards u (editedUndo d v a b inserted t) where
  undone := by
    unfold TextUndo.count editedUndo
    dsimp only
    rw [List.length_append]
    rfl
  added := Nat.succ_pos _
  kept := Nat.succ_le_succ hLeaves.kept
  needed := by
    intro hLess
    have hNew : bytesOf
        ((editedUndo d v a b inserted t).changes.drop
          v.count) = b - a + inserted := by
      unfold editedUndo TextUndo.count
      dsimp only
      rw [List.drop_left]
      rfl
    unfold editedUndo at hNew ⊢
    dsimp only at hNew ⊢
    rw [Nat.add_sub_cancel, hNew]
    rcases hLeaves.needed hLess with hAll | hMany
    · exact Or.inl (by omega)
    · exact Or.inr hMany
  guard := by
    intro hLe
    unfold editedUndo
    rw [hLeaves.guard hLe]
  serial := by
    intro hLess
    unfold editedUndo
    rw [hLeaves.serial hLess]

theorem Holds.congr
    {d' : TextDoc}
    (hHolds : Holds d s)
    (hData : d'.data = d.data)
    (hStart : d'.start = d.start)
    (hLines : d'.lines = d.lines)
    (hUsed : d'.used = d.used) :
    Holds d' s where
  used := hUsed.trans hHolds.used
  data := by
    rw [hData]
    exact hHolds.data
  stop := by
    rw [hData]
    exact hHolds.stop
  lines := hLines.trans hHolds.lines
  start := by
    rw [hStart]
    exact hHolds.start

theorem editedDoc_holds
    (d : TextDoc)
    (place : Nat)
    (hClean : Clean t) :
    Holds (editedDoc d t place) t ∧
      MarkOk t (mark (editedDoc d t place) 0) := by
  have hHolds := textImport_holds d hClean
  refine ⟨hHolds.congr rfl rfl rfl rfl, ?_, ?_⟩
  · exact textPosition_spec hHolds place
  · intro hSelecting
    cases hSelecting

theorem Synced.snapshot
    (hSynced : Synced texts saved s d u timeline) :
    Snapshot.Valid ⟨s, mark d 0⟩ :=
  ⟨hSynced.clean, hSynced.place⟩

/- The bytes of an edit fit into an empty history. -/
theorem edit_bytes
    (hClean : Clean s)
    (hClean' : Clean t)
    (hEnd : b ≤ s.length)
    (hText : t = s.take a ++ x ++ s.drop b) :
    b - a + x.length ≤ edHistoryBytes := by
  have hRoom := hClean.room
  have hRoom' := hClean'.room
  rw [hText, List.length_append, List.length_append] at hRoom'
  unfold edHistoryBytes
  omega

theorem replaceCommit_synced
    (hSynced : Synced texts saved s d u timeline)
    (hOrder : a ≤ b)
    (hEnd : b ≤ s.length)
    (hSome : a ≠ b ∨ x.length ≠ 0)
    (hText : t = s.take a ++ x ++ s.drop b)
    (hClean : Clean t) :
    ∃ texts' d' u',
      replaceCommit d u a b x.length t = (d', u') ∧
      d'.selecting = false ∧
      Synced texts' saved t d' u' (timeline.record
        ⟨⟨s, mark d 0⟩, ⟨t, mark d' 0⟩⟩) ∧
      Discards u u' := by
  obtain ⟨v, texts₀, hPush, hReady, hLeaves⟩ :=
    historyPush_spec hSynced
      (edit_bytes hSynced.clean hClean hEnd hText)
  obtain ⟨hHolds, hPlace⟩ :=
    editedDoc_holds d (a + x.length) hClean
  have hStored := editedUndo_stored hReady hSynced.holds
    hSynced.clean hOrder hEnd hSome hText
  have hDepth := hSynced.depth
  have hKept := hLeaves.kept
  have hSerial := hReady.serial
  refine ⟨naming texts₀ v.serial t, _, _,
    replaceCommit_eq hPush hSerial, rfl, ?_,
    editedUndo_discards hLeaves⟩
  exact
    { holds := hHolds
      clean := hClean
      place := hPlace
      depth := by
        show v.count + 1 ≤ timeline.past.length + 1
        omega
      stored := by
        show Stored _ _
          ((_ :: timeline.past.take v.count).reverse ++ [])
        rw [List.reverse_cons, List.append_nil]
        exact hStored
      joined := hSynced.joined.record
      valid := by
        intro e hMem
        rcases List.mem_append.mp hMem with hPast | hNone
        · rcases List.mem_cons.mp hPast with rfl | hOld
          · exact ⟨hSynced.snapshot, hClean, hPlace⟩
          · exact hSynced.valid e
              (List.mem_append_left _ hOld)
        · cases hNone
      serial := by
        show v.serial + 1 < noRevision
        omega
      currentLe := Nat.le_refl _
      current := naming_new
      named := by
        rcases hReady.named with hNone | ⟨hLe, hName⟩
        · exact Or.inl hNone
        · refine Or.inr ⟨Nat.le_succ_of_le hLe, ?_⟩
          show naming texts₀ v.serial t v.saved = saved
          rw [naming_old hLe]
          exact hName
      dirty := by
        intro hDirty
        cases hDirty }

/-
  A replacement is refused, changes nothing as there is
  nothing to change, or is recorded.
-/
theorem textReplace_synced
    (hSynced : Synced texts saved s d u timeline)
    (x : List UInt8) :
    textReplace d u x = (false, d, u) ∨
      (textReplace d u x = (true, d, u) ∧
        (textRange d).1 = (textRange d).2 ∧
        insertedLength x = 0) ∨
      ∃ texts' t d' u', textReplace d u x = (true, d', u') ∧
        ((textRange d).1 ≠ (textRange d).2 ∨
          insertedLength x ≠ 0) ∧
        t = s.take (textRange d).1 ++ x.flatMap expand ++
          s.drop (textRange d).2 ∧
        d'.selecting = false ∧
        Synced texts' saved t d' u' (timeline.record
          ⟨⟨s, mark d 0⟩, ⟨t, mark d' 0⟩⟩) ∧
        Discards u u' := by
  obtain ⟨hOrder, hEnd⟩ :=
    textRange_spec hSynced.holds hSynced.place
  unfold textReplace
  dsimp only
  rw [hSynced.export]
  split
  · exact Or.inl rfl
  · cases hNormal : normalize
        (s.take (textRange d).1 ++ x ++
          s.drop (textRange d).2) with
    | none => exact Or.inl rfl
    | some t =>
        obtain ⟨hText, hClean⟩ := normalize_spec hNormal
        have hPlain := hSynced.clean.plain
        rw [List.flatMap_append, List.flatMap_append,
          flatMap_expand (fun c hMem =>
            (hPlain c (List.mem_of_mem_take hMem)).2),
          flatMap_expand (fun c hMem =>
            (hPlain c (List.mem_of_mem_drop hMem)).2)] at hText
        dsimp only
        split
        · rename_i hNothing
          exact Or.inr (Or.inl ⟨rfl, hNothing⟩)
        · rename_i hSome
          rw [not_and_or] at hSome
          rw [insertedLength_eq] at hSome ⊢
          obtain ⟨texts', d', u', hCommit, hOff, hNext,
            hDiscards⟩ :=
            replaceCommit_synced hSynced hOrder hEnd hSome
              hText hClean
          refine Or.inr (Or.inr ⟨texts', t, d', u', ?_, hSome,
            hText, hOff, hNext, hDiscards⟩)
          rw [hCommit]

end KvantOS.Editor
