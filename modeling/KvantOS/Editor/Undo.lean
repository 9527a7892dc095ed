import KvantOS.Editor.Edits

/-
  This file follows a document and its history through every
  sequence of calls; a document that is not dirty has the
  text that was last saved.

  Key definitions include:
    * `TextCall`, `Editing`, `step`, `Reach`
    * `Described`

  Key theorems include:
    * `textUndo_synced`, `textRedo_synced`, `step_synced`
    * `clean_saved`
-/

namespace KvantOS.Editor

variable {s t saved : List UInt8} {d : TextDoc}
variable {u u' : TextUndo} {texts texts' : Nat → List UInt8}
variable {e : Edit Snapshot} {timeline : Timeline Snapshot}

--
-- Undo and Redo
--

theorem Buf.length_toList
    (b : Buf)
    (n : Nat) :
    (b.toList n).length = n := by
  unfold Buf.toList
  rw [List.length_map, List.length_range]

theorem splice_text
    {pre old new post : List UInt8}
    {place n : Nat}
    (hPlace : pre.length = place)
    (hOld : old.length = n) :
    (pre ++ old ++ post).take place ++ new ++
        (pre ++ old ++ post).drop (place + n) =
      pre ++ new ++ post := by
  subst hPlace
  subst hOld
  rw [← List.length_append, List.drop_left,
    List.append_assoc pre old, List.take_left]

variable {c : TextChange} {data : Buf} {serial : Nat}

/- Taking a delta back. -/
theorem Records.undo_text
    (hRecords : Records data texts serial c e) :
    e.after.text.take c.pos ++
        (data.drop c.data).toList c.removed ++
        e.after.text.drop (c.pos + c.inserted) =
      e.before.text := by
  obtain ⟨pre, post, hBefore, hAfter, hLength⟩ :=
    hRecords.delta
  rw [hBefore, hAfter]
  exact splice_text hLength (Buf.length_toList _ _)

/- Making it again. -/
theorem Records.redo_text
    (hRecords : Records data texts serial c e) :
    e.before.text.take c.pos ++
        (data.drop (c.data + c.removed)).toList c.inserted ++
        e.before.text.drop (c.pos + c.removed) =
      e.after.text := by
  obtain ⟨pre, post, hBefore, hAfter, hLength⟩ :=
    hRecords.delta
  rw [hBefore, hAfter]
  exact splice_text hLength (Buf.length_toList _ _)

theorem forall₂_at
    {α β : Type}
    {r : α → β → Prop}
    {l : List α}
    {first rest : List β}
    {y : β}
    (hEach : List.Forall₂ r l (first ++ y :: rest)) :
    ∃ x, l[first.length]? = some x ∧ r x y := by
  induction first generalizing l with
  | nil =>
      cases hEach with
      | cons hHere _ => exact ⟨_, rfl, hHere⟩
  | cons z first ih =>
      cases hEach with
      | cons _ hRest =>
          obtain ⟨x, hAt, hHere⟩ := ih hRest
          exact ⟨x, by simpa using hAt, hHere⟩

/- The document goes to a text that the history names. -/
theorem Synced.travel
    (cursor : Nat)
    {m : TextMark}
    {x : Snapshot}
    {next : Timeline Snapshot}
    (hSynced : Synced texts saved s d u timeline)
    (hValid : x.Valid)
    (hMark : m.plain = x.mark)
    (hText : texts m.revision = x.text)
    (hLe : m.revision ≤ u.serial)
    (hDepth : cursor ≤ next.past.length)
    (hSame : (next.past.take cursor).reverse ++ next.future =
      (timeline.past.take u.cursor).reverse ++
        timeline.future)
    (hJoined : next.Joined Snapshot.text x.text)
    (hAll : ∀ e ∈ next.past ++ next.future,
      e.before.Valid ∧ e.after.Valid) :
    Synced texts saved x.text
      { restore (textImport d x.text) m with
        dirty := m.revision != u.saved }
      { u with current := m.revision, cursor := cursor }
      next where
  holds :=
    (textImport_holds d hValid.clean).congr rfl rfl rfl rfl
  clean := hValid.clean
  place := by
    have hPlace := hValid.place
    rw [← hMark] at hPlace
    exact ⟨hPlace.caret, hPlace.anchor⟩
  depth := hDepth
  stored := by
    dsimp only
    rw [hSame]
    have hStored := hSynced.stored
    exact ⟨hStored.packed, hStored.bytes, hStored.steps,
      hStored.each⟩
  joined := hJoined
  valid := hAll
  serial := hSynced.serial
  currentLe := hLe
  current := hText
  named := hSynced.named
  dirty := by
    intro hDirty
    have hSaved : m.revision = u.saved := by
      simpa using hDirty
    rcases hSynced.named with hNone | ⟨_, hName⟩
    · have hSerial := hSynced.serial
      omega
    · rw [← hName, ← hSaved, hText]

theorem textUndo_synced
    (hSynced : Synced texts saved s d u timeline) :
    (u.cursor = 0 ∧ textUndo d u = (false, d, u)) ∨
      ∃ e past d' u', timeline.past = e :: past ∧
        textUndo d u = (true, d', u') ∧
        u.cursor = u'.cursor + 1 ∧
        mark d' 0 = e.before.mark ∧
        Synced texts saved e.before.text d' u'
          timeline.undo := by
  by_cases hZero : u.cursor = 0
  · refine Or.inl ⟨hZero, ?_⟩
    unfold textUndo historyApply
    rw [if_pos (by simp [hZero])]
  · obtain ⟨k, hCursor⟩ : ∃ k, u.cursor = k + 1 :=
      ⟨u.cursor - 1, by omega⟩
    have hDepth := hSynced.depth
    obtain ⟨e, past, hPast⟩ : ∃ e past,
        timeline.past = e :: past :=
      List.exists_cons_of_length_pos (by omega)
    have hUndo : timeline.undo =
        ⟨past, e :: timeline.future⟩ := by
      unfold Timeline.undo
      rw [hPast]
    have hEdits : (timeline.past.take u.cursor).reverse ++
        timeline.future =
        (past.take k).reverse ++ e :: timeline.future := by
      rw [hPast, hCursor, List.take_succ_cons,
        List.reverse_cons, List.append_assoc]
      rfl
    have hEach := hSynced.stored.each
    rw [hEdits] at hEach
    rw [hPast, hCursor, List.length_cons] at hDepth
    obtain ⟨c, hAt, hRecords⟩ := forall₂_at hEach
    rw [List.length_reverse, List.length_take,
      Nat.min_eq_left (by omega)] at hAt
    have hAfter : e.after.text = s := by
      have hBehind := hSynced.joined.behind
      rw [hPast] at hBehind
      exact hBehind.1
    have hValid := hSynced.valid e (by rw [hPast]; simp)
    refine Or.inr ⟨e, past, _, _, hPast, ?_, ?_, ?_,
      hSynced.travel k hValid.1 hRecords.before
        hRecords.beforeText hRecords.beforeLe
        ?_ ?_ (hSynced.joined.undo hPast) ?_⟩
    · unfold textUndo historyApply
      rw [if_neg (by simp [hCursor])]
      simp only [Bool.false_eq_true, if_false, hCursor,
        Nat.add_sub_cancel, hAt, Nat.add_zero,
        hSynced.export]
      rw [← hAfter, hRecords.undo_text]
    · exact hCursor
    · exact hRecords.before
    · rw [hUndo]
      dsimp only
      omega
    · rw [hUndo, hEdits]
    · rw [hUndo]
      intro x hMem
      refine hSynced.valid x ?_
      rw [hPast]
      simp only [List.mem_append, List.mem_cons] at hMem ⊢
      tauto

theorem textRedo_synced
    (hSynced : Synced texts saved s d u timeline) :
    (timeline.future = [] ∧
        textRedo d u = (false, d, u)) ∨
      ∃ e future d' u', timeline.future = e :: future ∧
        textRedo d u = (true, d', u') ∧
        u'.cursor = u.cursor + 1 ∧
        mark d' 0 = e.after.mark ∧
        Synced texts saved e.after.text d' u'
          timeline.redo := by
  have hCount := hSynced.stored.count_eq
  have hDepth := hSynced.depth
  rw [List.length_append, ← hSynced.cursor_eq] at hCount
  cases hFuture : timeline.future with
  | nil =>
      rw [hFuture] at hCount
      refine Or.inl ⟨rfl, ?_⟩
      unfold textRedo historyApply
      rw [if_pos (by simpa using hCount.symm)]
  | cons e future =>
      rw [hFuture, List.length_cons] at hCount
      have hRedo : timeline.redo =
          ⟨e :: timeline.past, future⟩ := by
        unfold Timeline.redo
        rw [hFuture]
      have hEach := hSynced.stored.each
      rw [hFuture] at hEach
      obtain ⟨c, hAt, hRecords⟩ := forall₂_at hEach
      rw [← hSynced.cursor_eq] at hAt
      have hBefore : e.before.text = s := by
        have hAhead := hSynced.joined.ahead
        rw [hFuture] at hAhead
        exact hAhead.1
      have hValid := hSynced.valid e (by rw [hFuture]; simp)
      refine Or.inr ⟨e, future, _, _, rfl, ?_, ?_, ?_,
        hSynced.travel (u.cursor + 1) hValid.2
          hRecords.after hRecords.afterText
          hRecords.afterLe
          ?_ ?_ (hSynced.joined.redo hFuture) ?_⟩
      · unfold textRedo historyApply
        rw [if_neg (by
          simp only [if_true, beq_iff_eq]
          omega)]
        simp only [if_true, hAt, hSynced.export]
        rw [← hBefore, hRecords.redo_text]
      · rfl
      · exact hRecords.after
      · rw [hRedo]
        exact Nat.succ_le_succ hDepth
      · rw [hRedo, hFuture]
        dsimp only
        rw [List.take_succ_cons, List.reverse_cons,
          List.append_assoc]
        rfl
      · rw [hRedo]
        intro x hMem
        refine hSynced.valid x ?_
        rw [hFuture]
        simp only [List.mem_append, List.mem_cons] at hMem ⊢
        tauto

--
-- Calls
--

/- The calls, and moves of the caret and the selection. -/
inductive TextCall where
  | replace (x : List UInt8)
  | delete (backwards : Bool)
  | replaceAll (q x : List UInt8)
  | undo
  | redo
  | saved
  | reset
  | move (m : TextMark)

def call
    (d : TextDoc)
    (u : TextUndo) : TextCall → Bool × TextDoc × TextUndo
  | .replace x => textReplace d u x
  | .delete backwards => textDelete d u backwards
  | .replaceAll q x =>
      ((textReplaceAll d u q x).1, (textReplaceAll d u q x).2.2)
  | .undo => textUndo d u
  | .redo => textRedo d u
  | .saved => (true, textSaved d u)
  | .reset => (true, d, textHistoryReset d u)
  | .move m => (true, restore d m, u)

/- The call makes an edit, unless it is refused. -/
def makes (d : TextDoc) : TextCall → Bool
  | .replace x =>
      (textRange d).1 != (textRange d).2 ||
        insertedLength x != 0
  | .delete backwards => deletes d backwards
  | .replaceAll q x => replaces d q x
  | _ => false

def snapshot (d : TextDoc) : Snapshot where
  text := textExport d
  mark := mark d 0

/-
  A document and its history, with what was observed: the
  edits, with the document before and after each, and the
  text that was last saved.
-/
structure Editing where
  doc : TextDoc
  undo : TextUndo
  timeline : Timeline Snapshot
  saved : List UInt8

/- What is observed of a call. -/
def observe
    (r : Editing)
    (success : Bool)
    (d : TextDoc) : TextCall → Timeline Snapshot
  | .undo =>
      if success then r.timeline.undo else r.timeline
  | .redo =>
      if success then r.timeline.redo else r.timeline
  | .reset => ⟨[], []⟩
  | c =>
      if success && makes r.doc c then
        r.timeline.record ⟨snapshot r.doc, snapshot d⟩
      else
        r.timeline

def step
    (r : Editing)
    (c : TextCall) : Editing :=
  let result := call r.doc r.undo c
  { doc := result.2.1
    undo := result.2.2
    timeline := observe r result.1 result.2.1 c
    saved :=
      match c with
      | .saved => textExport r.doc
      | _ => r.saved }

/- Moves are to places in the text. -/
def Allowed (r : Editing) : TextCall → Prop
  | .move m => MarkOk (textExport r.doc) m
  | _ => True

/- The state after a document was loaded. -/
def opened
    (d : TextDoc)
    (u : TextUndo) : Editing where
  doc := d
  undo := textHistoryReset d u
  timeline := ⟨[], []⟩
  saved := textExport d

/- Everything that calls lead to. -/
inductive Reach : Editing → Prop where
  | empty
      (d : TextDoc)
      (u : TextUndo) :
      Reach (opened (textReset d) u)
  | load
      (d d' : TextDoc)
      (u : TextUndo)
      (x : List UInt8)
      (hSet : textSet d x = (true, d')) :
      Reach (opened d' u)
  | step
      {r : Editing}
      {c : TextCall}
      (hReach : Reach r)
      (hAllowed : Allowed r c) :
      Reach (step r c)

/- The state is one that the history describes. -/
def Described (r : Editing) : Prop :=
  ∃ texts, Synced texts r.saved (textExport r.doc) r.doc
    r.undo r.timeline

--
-- Runs
--

variable {r : Editing}

theorem opened_described
    (u : TextUndo)
    (hHolds : Holds d s)
    (hClean : Clean s)
    (hPlace : MarkOk s (mark d 0)) :
    Described (opened d u) := by
  have hText := textExport_eq hHolds hClean
  refine ⟨fun _ => s, ?_⟩
  unfold opened
  dsimp only
  rw [hText]
  exact
    { holds := hHolds
      clean := hClean
      place := hPlace
      depth := Nat.le_refl _
      stored := stored_reset _ d u
      joined := ⟨trivial, trivial⟩
      valid := by simp
      serial := Nat.succ_pos _
      currentLe := Nat.le_refl _
      current := rfl
      named := by
        show (if d.dirty then noRevision else 0) =
          noRevision ∨ (if d.dirty then noRevision else 0) ≤
            0 ∧ s = s
        cases d.dirty with
        | true => exact Or.inl rfl
        | false => exact Or.inr ⟨Nat.le_refl _, rfl⟩
      dirty := fun _ => rfl }

theorem textReset_holds (d : TextDoc) :
    Holds (textReset d) [] where
  used := rfl
  data := by simp
  stop := rfl
  lines := rfl
  start := by
    intro r x hAt
    cases r with
    | zero =>
        rw [show x = 0 by simpa [textStarts] using hAt.symm]
        rfl
    | succ r => simp [textStarts, startsFrom] at hAt

theorem textSet_holds
    {d' : TextDoc}
    {x : List UInt8}
    (hSet : textSet d x = (true, d')) :
    ∃ s, Clean s ∧ Holds d' s ∧ MarkOk s (mark d' 0) := by
  unfold textSet at hSet
  split at hSet
  · cases hSet
  · cases hNormal : normalize x with
    | none =>
        rw [hNormal] at hSet
        cases hSet
    | some t =>
        rw [hNormal] at hSet
        dsimp only at hSet
        rw [Prod.mk.injEq] at hSet
        rw [← hSet.2]
        have hClean := (normalize_spec hNormal).2
        refine ⟨t, hClean, textImport_holds _ hClean,
          ⟨0, rfl, Nat.zero_le _⟩, ?_⟩
        intro hSelecting
        cases hSelecting

/- A recorded edit is what is observed of the call. -/
theorem outcome_described
    {c : TextCall}
    (hSynced : Synced texts r.saved (textExport r.doc) r.doc
      r.undo r.timeline)
    (hOutcome : Outcome r.saved (textExport r.doc) r.doc
      r.undo r.timeline (makes r.doc c) (call r.doc r.undo c))
    (hObserve : ∀ success d, observe r success d c =
      if success && makes r.doc c then
        r.timeline.record ⟨snapshot r.doc, snapshot d⟩
      else
        r.timeline)
    (hSaved : (step r c).saved = r.saved) :
    Described (step r c) ∧
      ((call r.doc r.undo c).1 = true → makes r.doc c = true →
        Discards r.undo (step r c).undo) := by
  unfold Described
  rw [hSaved]
  unfold step
  dsimp only
  rw [hObserve]
  rcases hOutcome with hFail | ⟨hNothing, hNot⟩ |
    ⟨texts', t, d', u', hEdit, hMakes, hNext, hDiscards⟩
  · rw [hFail]
    refine ⟨⟨texts, hSynced⟩, ?_⟩
    intro hTrue
    cases hTrue
  · rw [hNothing, hNot]
    refine ⟨⟨texts, hSynced⟩, ?_⟩
    intro _ hTrue
    cases hTrue
  · rw [hEdit, hMakes]
    refine ⟨⟨texts', ?_⟩, fun _ _ => hDiscards⟩
    unfold snapshot
    dsimp only
    rw [hNext.export]
    exact hNext

theorem textReplace_outcome
    (hSynced : Synced texts saved s d u timeline)
    (x : List UInt8) :
    Outcome saved s d u timeline (makes d (.replace x))
      (textReplace d u x) := by
  unfold makes
  rcases textReplace_synced hSynced x with
    hFail | ⟨hNothing, hSame, hNone⟩ |
    ⟨texts', t, d', u', hEdit, hSome, _, _, hNext,
      hDiscards⟩
  · exact Or.inl hFail
  · exact Or.inr (Or.inl ⟨hNothing, by simp [hSame, hNone]⟩)
  · refine Or.inr (Or.inr ⟨texts', t, d', u', hEdit, ?_,
      hNext, hDiscards⟩)
    simpa using hSome

/- What a call keeps, and what an edit discards. -/
theorem step_synced
    {c : TextCall}
    (hDescribed : Described r)
    (hAllowed : Allowed r c) :
    Described (step r c) ∧
      ((call r.doc r.undo c).1 = true → makes r.doc c = true →
        Discards r.undo (step r c).undo) := by
  obtain ⟨texts, hSynced⟩ := hDescribed
  cases c with
  | replace x =>
      exact outcome_described hSynced
        (textReplace_outcome hSynced x) (fun _ _ => rfl) rfl
  | delete backwards =>
      exact outcome_described hSynced
        (textDelete_synced hSynced backwards)
        (fun _ _ => rfl) rfl
  | replaceAll q x =>
      exact outcome_described hSynced
        (textReplaceAll_synced hSynced q x)
        (fun _ _ => rfl) rfl
  | undo =>
      refine ⟨?_, fun _ hMakes => by cases hMakes⟩
      unfold Described step call observe
      dsimp only
      rcases textUndo_synced hSynced with ⟨_, hFail⟩ |
        ⟨e, past, d', u', _, hUndo, _, _, hNext⟩
      · rw [hFail]
        exact ⟨texts, hSynced⟩
      · rw [hUndo]
        refine ⟨texts, ?_⟩
        dsimp only
        rw [hNext.export]
        exact hNext
  | redo =>
      refine ⟨?_, fun _ hMakes => by cases hMakes⟩
      unfold Described step call observe
      dsimp only
      rcases textRedo_synced hSynced with ⟨_, hFail⟩ |
        ⟨e, past, d', u', _, hRedo, _, _, hNext⟩
      · rw [hFail]
        exact ⟨texts, hSynced⟩
      · rw [hRedo]
        refine ⟨texts, ?_⟩
        dsimp only
        rw [hNext.export]
        exact hNext
  | saved =>
      refine ⟨⟨texts, ?_⟩, fun _ hMakes => by cases hMakes⟩
      exact
        { hSynced with
          holds := hSynced.holds.congr rfl rfl rfl rfl
          stored := ⟨hSynced.stored.packed,
            hSynced.stored.bytes, hSynced.stored.steps,
            hSynced.stored.each⟩
          named := Or.inr
            ⟨hSynced.currentLe, hSynced.current⟩
          dirty := fun _ => rfl }
  | reset =>
      refine ⟨⟨fun _ => textExport r.doc, ?_⟩,
        fun _ hMakes => by cases hMakes⟩
      exact
        { hSynced with
          depth := Nat.le_refl _
          stored := stored_reset _ r.doc r.undo
          joined := ⟨trivial, trivial⟩
          valid := by simp [step, observe]
          serial := Nat.succ_pos _
          currentLe := Nat.le_refl _
          current := rfl
          named := by
            show (if r.doc.dirty then noRevision else 0) =
              noRevision ∨
              (if r.doc.dirty then noRevision else 0) ≤ 0 ∧
                textExport r.doc = r.saved
            cases hDirty : r.doc.dirty with
            | true => exact Or.inl rfl
            | false => exact Or.inr ⟨Nat.le_refl _,
                hSynced.dirty hDirty⟩ }
  | move m =>
      exact ⟨⟨texts, hSynced.move hAllowed⟩,
        fun _ hMakes => by cases hMakes⟩

theorem reach_described
    (hReach : Reach r) :
    Described r := by
  induction hReach with
  | empty d u =>
      refine opened_described u (textReset_holds d)
        ⟨by decide, by simp⟩ ⟨⟨0, rfl, Nat.zero_le _⟩, ?_⟩
      intro hSelecting
      cases hSelecting
  | load d d' u x hSet =>
      obtain ⟨s, hClean, hHolds, hPlace⟩ := textSet_holds hSet
      exact opened_described u hHolds hClean hPlace
  | step _ hAllowed ih => exact (step_synced ih hAllowed).1

/- A document that is not dirty has the text last saved. -/
theorem clean_saved
    (hReach : Reach r)
    (hClean : r.doc.dirty = false) :
    textExport r.doc = r.saved := by
  obtain ⟨texts, hSynced⟩ := reach_described hReach
  exact hSynced.dirty hClean

/- A document and a history before anything was loaded. -/
def blankDoc : TextDoc :=
  ⟨Buf.zero, fun _ => 0, 0, 0, 0, 0, 0, false, 0, 0, false, 0,
    0⟩

def blankUndo : TextUndo :=
  ⟨Buf.zero, [], 0, 0, 0, 0, 0⟩

/- After typing one letter and saving. -/
theorem clean_saved_letter :
    textExport (step (step (opened (textReset blankDoc)
      blankUndo) (.replace [97])) .saved).doc =
      (step (step (opened (textReset blankDoc) blankUndo)
        (.replace [97])) .saved).saved :=
  clean_saved
    (.step (.step (.empty blankDoc blankUndo) trivial) trivial)
    rfl

end KvantOS.Editor
