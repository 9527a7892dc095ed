import KvantOS.User.Runs

/-
  This file proves the protocol of event tokens: whatever
  the kernel posts and the program requests, an event is
  waited for, drawn for and completed in that order, within
  its budget.

  Key definitions include:
    * `postedIds`, `completedIds`, `lastPosted`
    * `Lawful`, `TokenProtocol`

  Key theorems include:
    * `tokenState_of_runs`, `ksRuns_tokens`
-/

namespace KvantOS.User

--
-- Reading the Log
--

/- The events that were posted, the newest first. -/
def postedIds : List KsEntry → List Nat
  | [] => []
  | .posted id _ :: older => id :: postedIds older
  | _ :: older => postedIds older

/- The newest event, with its type. -/
def lastPosted : List KsEntry → Option (Nat × Nat)
  | [] => none
  | .posted id type :: _ => some (id, type)
  | _ :: older => lastPosted older

/- The events that the program has waited for. -/
def deliveredIds : List KsEntry → List Nat
  | [] => []
  | .delivered id :: older => id :: deliveredIds older
  | _ :: older => deliveredIds older

/- The events that were completed. -/
def completedIds : List KsEntry → List Nat
  | [] => []
  | .completed id :: older => id :: completedIds older
  | _ :: older => completedIds older

/- The commands, and the bytes of text, for an event. -/
def commandsFor (id : Nat) : List KsEntry → Nat
  | [] => 0
  | .drew id' commands _ :: older =>
      (if id' = id then commands else 0) +
        commandsFor id older
  | _ :: older => commandsFor id older

def bytesFor (id : Nat) : List KsEntry → Nat
  | [] => 0
  | .drew id' _ bytes :: older =>
      (if id' = id then bytes else 0) + bytesFor id older
  | _ :: older => bytesFor id older

variable {log : List KsEntry}

theorem mem_postedIds
    {id type : Nat}
    (hLast : lastPosted log = some (id, type)) :
    id ∈ postedIds log := by
  induction log with
  | nil => cases hLast
  | cons e older ih =>
      cases e with
      | posted =>
          cases hLast
          exact List.mem_cons_self
      | _ => exact ih hLast

/- An event that was posted last and is not completed. -/
def Awaited
    (log : List KsEntry)
    (id type : Nat) : Prop :=
  lastPosted log = some (id, type) ∧ id ∉ completedIds log

/- What must have happened before an entry. -/
def EntryLawful
    (older : List KsEntry) : KsEntry → Prop
  | .posted id _ =>
      (∀ old ∈ postedIds older, old < id) ∧
        ∀ old ∈ postedIds older, old ∈ completedIds older
  | .delivered id => ∃ type, Awaited older id type
  | .drew id _ _ =>
      Awaited older id ksEventDraw ∧
        id ∈ deliveredIds older
  | .completed id =>
      (∃ type, Awaited older id type) ∧
        id ∈ deliveredIds older
  | .opened .. => True
  | .wrote .. => True

/- Each entry had what it needs before it. -/
def Lawful : List KsEntry → Prop
  | [] => True
  | e :: older => EntryLawful older e ∧ Lawful older

variable {e : KsEntry}

theorem lawful_split
    {newer older : List KsEntry}
    (hLawful : Lawful (newer ++ e :: older)) :
    EntryLawful older e := by
  induction newer with
  | nil => exact hLawful.1
  | cons _ _ ih => exact ih hLawful.2

theorem postedIds_decreasing
    (hLawful : Lawful log) :
    (postedIds log).Pairwise (· > ·) := by
  induction log with
  | nil => exact List.Pairwise.nil
  | cons e older ih =>
      have hOlder := ih hLawful.2
      cases e with
      | posted id type =>
          exact List.pairwise_cons.mpr
            ⟨hLawful.1.1, hOlder⟩
      | _ => exact hOlder

--
-- The Invariant
--

/- What a pending event has in the log. -/
structure PendingState
    (s : KsService)
    (log : List KsEntry) : Prop where
  awaited : Awaited log s.event.id s.event.type
  newest : s.event.id = s.nextEvent
  delivered :
    s.delivered = true → s.event.id ∈ deliveredIds log
  others : ∀ id ∈ postedIds log,
    id ≠ s.event.id → id ∈ completedIds log
  commands :
    commandsFor s.event.id log + s.drawLeft = 64
  bytes :
    bytesFor s.event.id log + s.textLeft = ksTextBudget

/- What the service and the log of a run agree on. -/
structure TokenState
    (s : KsService)
    (log : List KsEntry) : Prop where
  lawful : Lawful log
  posted : ∀ id ∈ postedIds log, id ≤ s.nextEvent
  completed : ∀ id ∈ completedIds log, id ≤ s.nextEvent
  unused : ∀ id > s.nextEvent,
    commandsFor id log = 0 ∧ bytesFor id log = 0
  within : ∀ id,
    commandsFor id log ≤ 64 ∧ bytesFor id log ≤ ksTextBudget
  idle : s.pending = false →
    ∀ id ∈ postedIds log, id ∈ completedIds log
  pending : s.pending = true → PendingState s log

/- A service that agrees on what is pending. -/
structure KsService.SameEvents
    (s s' : KsService) : Prop where
  nextEvent : s'.nextEvent = s.nextEvent
  event : s'.event = s.event
  pending : s'.pending = s.pending
  delivered : s'.delivered = s.delivered
  drawLeft : s'.drawLeft = s.drawLeft
  textLeft : s'.textLeft = s.textLeft

theorem TokenState.sameEvents
    {s s' : KsService}
    (hState : TokenState s log)
    (hSame : s.SameEvents s') :
    TokenState s' log where
  lawful := hState.lawful
  posted := hSame.nextEvent ▸ hState.posted
  completed := hSame.nextEvent ▸ hState.completed
  unused := hSame.nextEvent ▸ hState.unused
  within := hState.within
  idle := hSame.pending ▸ hState.idle
  pending := by
    intro hPending
    have hOld :=
      hState.pending (hSame.pending ▸ hPending)
    constructor
    · rw [hSame.event]
      exact hOld.awaited
    · rw [hSame.event, hSame.nextEvent]
      exact hOld.newest
    · rw [hSame.event, hSame.delivered]
      exact hOld.delivered
    · rw [hSame.event]
      exact hOld.others
    · rw [hSame.event, hSame.drawLeft]
      exact hOld.commands
    · rw [hSame.event, hSame.textLeft]
      exact hOld.bytes

/- Entries about files tell nothing about events. -/
def KsEntry.aboutFiles : KsEntry → Prop
  | .opened .. => True
  | .wrote .. => True
  | _ => False

variable {s : KsService}

theorem TokenState.aboutFiles
    (hState : TokenState s log)
    (hFiles : e.aboutFiles) :
    TokenState s (e :: log) := by
  cases e with
  | opened =>
      exact ⟨⟨trivial, hState.lawful⟩, hState.posted,
        hState.completed, hState.unused, hState.within,
        hState.idle, fun hPending =>
          let hOld := hState.pending hPending
          ⟨hOld.awaited, hOld.newest, hOld.delivered,
            hOld.others, hOld.commands, hOld.bytes⟩⟩
  | wrote =>
      exact ⟨⟨trivial, hState.lawful⟩, hState.posted,
        hState.completed, hState.unused, hState.within,
        hState.idle, fun hPending =>
          let hOld := hState.pending hPending
          ⟨hOld.awaited, hOld.newest, hOld.delivered,
            hOld.others, hOld.commands, hOld.bytes⟩⟩
  | _ => cases hFiles

--
-- Steps
--

theorem tokenState_fresh
    (hFresh : s.Fresh) :
    TokenState s [] where
  lawful := trivial
  posted := by
    intro id hMem
    cases hMem
  completed := by
    intro id hMem
    cases hMem
  unused := fun _ _ => ⟨rfl, rfl⟩
  within := fun _ => ⟨Nat.zero_le _, Nat.zero_le _⟩
  idle := by
    intro _ id hMem
    cases hMem
  pending := by
    intro hPending
    rw [hFresh.idle] at hPending
    cases hPending

theorem TokenState.post
    {s : KsService}
    {log : List KsEntry}
    (hState : TokenState s log)
    (hIdle : s.pending = false)
    (type delta x y key button : Nat) :
    TokenState (postedEvent s type delta x y key button)
      (.posted (s.nextEvent + 1) type :: log) where
  lawful := by
    refine ⟨⟨?_, hState.idle hIdle⟩, hState.lawful⟩
    intro old hOld
    have hLe := hState.posted old hOld
    omega
  posted := by
    intro id hMem
    rcases List.mem_cons.mp hMem with rfl | hOld
    · exact Nat.le_refl _
    · exact Nat.le_succ_of_le (hState.posted id hOld)
  completed := fun id hMem =>
    Nat.le_succ_of_le (hState.completed id hMem)
  unused := fun id hId =>
    hState.unused id (Nat.lt_of_succ_lt hId)
  within := hState.within
  idle := by
    intro hPending
    cases hPending
  pending := by
    intro _
    have hUnused := hState.unused (s.nextEvent + 1)
      (Nat.lt_succ_self _)
    have hNew : s.nextEvent + 1 ∉ completedIds log :=
      fun hMem => absurd (hState.completed _ hMem)
        (Nat.not_succ_le_self _)
    refine ⟨⟨rfl, hNew⟩, rfl, ?_, ?_, ?_, ?_⟩
    · intro hDelivered
      cases hDelivered
    · intro id hMem hNe
      rcases List.mem_cons.mp hMem with rfl | hOld
      · exact absurd rfl hNe
      · exact hState.idle hIdle id hOld
    · change commandsFor (s.nextEvent + 1) log + 64 = 64
      rw [hUnused.1]
    · change bytesFor (s.nextEvent + 1) log + ksTextBudget =
        ksTextBudget
      rw [hUnused.2, Nat.zero_add]

theorem TokenState.deliver
    (hState : TokenState s log)
    (hPending : s.pending = true) :
    TokenState { s with delivered := true }
      (.delivered s.event.id :: log) where
  lawful :=
    ⟨⟨_, (hState.pending hPending).awaited⟩, hState.lawful⟩
  posted := hState.posted
  completed := hState.completed
  unused := hState.unused
  within := hState.within
  idle := hState.idle
  pending := by
    intro _
    have hOld := hState.pending hPending
    exact ⟨hOld.awaited, hOld.newest,
      fun _ => List.mem_cons_self, hOld.others,
      hOld.commands, hOld.bytes⟩

theorem TokenState.complete
    (hState : TokenState s log)
    (hPending : s.pending = true)
    (hDelivered : s.delivered = true) :
    TokenState
      { s with pending := false, delivered := false }
      (.completed s.event.id :: log) := by
  have hOld := hState.pending hPending
  constructor
  · exact ⟨⟨⟨_, hOld.awaited⟩, hOld.delivered hDelivered⟩,
      hState.lawful⟩
  · exact hState.posted
  · intro id hMem
    rcases List.mem_cons.mp hMem with rfl | hMem
    · exact Nat.le_of_eq hOld.newest
    · exact hState.completed id hMem
  · exact hState.unused
  · exact hState.within
  · intro _ id hMem
    by_cases hSame : id = s.event.id
    · exact hSame ▸ List.mem_cons_self
    · exact List.mem_cons_of_mem _
        (hOld.others id hMem hSame)
  · intro hNone
    cases hNone

theorem TokenState.draw
    {commands bytes : Nat}
    (hState : TokenState s log)
    (hPending : s.pending = true)
    (hDelivered : s.delivered = true)
    (hDraw : s.event.type = ksEventDraw)
    (hCommands : commands ≤ s.drawLeft)
    (hBytes : bytes ≤ s.textLeft) :
    TokenState
      { s with
        drawLeft := s.drawLeft - commands
        textLeft := s.textLeft - bytes }
      (.drew s.event.id commands bytes :: log) := by
  have hOld := hState.pending hPending
  constructor
  · exact ⟨⟨hDraw ▸ hOld.awaited,
      hOld.delivered hDelivered⟩, hState.lawful⟩
  · exact hState.posted
  · exact hState.completed
  · intro id hId
    have hNe : s.event.id ≠ id := by
      have hNewest := hOld.newest
      change s.nextEvent < id at hId
      omega
    simp only [commandsFor, bytesFor, if_neg hNe,
      Nat.zero_add]
    exact hState.unused id hId
  · intro id
    simp only [commandsFor, bytesFor]
    by_cases hSame : s.event.id = id
    · rw [if_pos hSame, if_pos hSame, ← hSame]
      have hFirst := hOld.commands
      have hSecond := hOld.bytes
      omega
    · rw [if_neg hSame, if_neg hSame, Nat.zero_add,
        Nat.zero_add]
      exact hState.within id
  · intro hNone
    change s.pending = false at hNone
    rw [hPending] at hNone
    cases hNone
  · intro _
    refine ⟨hOld.awaited, hOld.newest, hOld.delivered,
      hOld.others, ?_, ?_⟩
    · have hFirst := hOld.commands
      simp only [commandsFor, if_true]
      omega
    · have hSecond := hOld.bytes
      simp only [bytesFor, if_true]
      omega

theorem TokenState.effect
    {s s' : KsService}
    {entry : Option KsEntry}
    (hState : TokenState s log)
    (hEffect : KsEffect s entry s') :
    TokenState s' (entry.toList ++ log) := by
  cases hEffect with
  | nothing => exact hState
  | status =>
      exact hState.sameEvents ⟨rfl, rfl, rfl, rfl, rfl, rfl⟩
  | delivered hPending => exact hState.deliver hPending
  | completed hPending hDelivered =>
      exact hState.complete hPending hDelivered
  | drew hPending hDelivered hDraw hCommands hBytes =>
      exact hState.draw hPending hDelivered hDraw
        hCommands hBytes
  | opened =>
      refine TokenState.aboutFiles ?_ ?_
      · exact hState.sameEvents
          ⟨rfl, rfl, rfl, rfl, rfl, rfl⟩
      · exact trivial
  | wrote =>
      refine TokenState.aboutFiles ?_ ?_
      · exact hState.sameEvents
          ⟨rfl, rfl, rfl, rfl, rfl, rfl⟩
      · exact trivial
  | closed =>
      exact hState.sameEvents ⟨rfl, rfl, rfl, rfl, rfl, rfl⟩
  | deleted =>
      exact hState.sameEvents ⟨rfl, rfl, rfl, rfl, rfl, rfl⟩

theorem tokenState_of_runs
    (hRun : KsRuns s log) :
    TokenState s log :=
  hRun.keeps
    (fun _ hFresh => tokenState_fresh hFresh)
    (fun _ _ type delta x y key button hState hIdle =>
      hState.post hIdle type delta x y key button)
    (fun _ _ _ _ hState hEffect => hState.effect hEffect)
    (fun _ _ _ hState => hState.sameEvents
      ⟨rfl, rfl, rfl, rfl, rfl, rfl⟩)

--
-- The Protocol
--

/- The requests that draw. -/
def drawsOp (op : Nat) : Prop :=
  op = ksDraw ∨ op = ksText ∨ op = ksLine

/- What the tokens of events guarantee. -/
structure TokenProtocol
    (s : KsService)
    (log : List KsEntry) : Prop where
  increasing : (postedIds log).Pairwise (· > ·)
  onePending :
    ∀ id ∈ postedIds log, ∀ id' ∈ postedIds log,
      id ∉ completedIds log → id' ∉ completedIds log →
        id = id'
  pending : s.pending = true ↔
    ∃ id ∈ postedIds log, id ∉ completedIds log
  draws : ∀ newer older id commands bytes,
    log = newer ++ .drew id commands bytes :: older →
      Awaited older id ksEventDraw ∧
        id ∈ deliveredIds older
  completions : ∀ newer older id,
    log = newer ++ .completed id :: older →
      id ∈ deliveredIds older ∧ id ∉ completedIds older
  drawing : ∀ mapped space mem off size b,
    kuCopyin mapped space mem Buf.zero off requestBytes =
      some b →
    drawsOp (KsRequest.ofBuf b).op →
    0 ≤ (ksDispatch mapped space ⟨s, mem⟩ off size).result →
      s.Drawing (KsRequest.ofBuf b)
  busy : s.pending = true →
    ∀ type delta x y key button,
      (ksPost s type delta x y key button).1 < 0 ∧
        (ksPost s type delta x y key button).2 = s
  budget : ∀ id,
    commandsFor id log ≤ 64 ∧ bytesFor id log ≤ 1024

variable {mapped : Nat → Bool} {space : KuSpace} {x : KsState}

theorem drawing_of_perform
    {r : KsRequest}
    (hOp : drawsOp r.op)
    (hResult : 0 ≤ (perform mapped space x r).result) :
    x.service.Drawing r := by
  have hNot : ¬x.Refused (perform mapped space x r) := by
    rintro ⟨code, hCode, hOut⟩
    rw [hOut] at hResult
    exact absurd hCode (not_lt.mpr hResult)
  rcases hOp with hOp | hOp | hOp
  · have hPerform : perform mapped space x r =
        draw mapped space x r := by
      rw [perform, hOp]
      rfl
    rw [hPerform] at hNot
    exact ((draw_cases x r).resolve_left hNot).1
  · have hPerform : perform mapped space x r =
        text mapped space x r := by
      rw [perform, hOp]
      rfl
    rw [hPerform] at hNot
    exact ((text_cases x r).resolve_left hNot).1
  · have hPerform : perform mapped space x r =
        line mapped space x r := by
      rw [perform, hOp]
      rfl
    rw [hPerform] at hNot
    exact ((line_cases x r).resolve_left hNot).1

theorem drawing_of_ksDispatch
    {off size : Nat}
    {b : Buf}
    (hCopy : kuCopyin mapped space x.mem Buf.zero off
      requestBytes = some b)
    (hOp : drawsOp (KsRequest.ofBuf b).op)
    (hResult :
      0 ≤ (ksDispatch mapped space x off size).result) :
    x.service.Drawing (KsRequest.ofBuf b) := by
  rcases ksDispatch_cases mapped space x off size with
    ⟨code, hCode, hOut⟩ | ⟨b', hCopy', hOut⟩
  · rw [hOut] at hResult
    exact absurd hCode (not_lt.mpr hResult)
  · rw [hCopy] at hCopy'
    cases hCopy'
    rw [hOut] at hResult
    exact drawing_of_perform hOp hResult

/- Every run keeps to the protocol. -/
theorem ksRuns_tokens
    {s : KsService}
    {log : List KsEntry}
    (hRun : KsRuns s log) :
    TokenProtocol s log := by
  have hState := tokenState_of_runs hRun
  have hOnly : ∀ id ∈ postedIds log,
      id ∉ completedIds log →
        s.pending = true ∧ id = s.event.id := by
    intro id hMem hOpen
    cases hPending : s.pending with
    | false => exact absurd (hState.idle hPending id hMem) hOpen
    | true =>
        refine ⟨rfl, ?_⟩
        by_contra hNe
        exact hOpen
          ((hState.pending hPending).others id hMem hNe)
  constructor
  · exact postedIds_decreasing hState.lawful
  · intro id hMem id' hMem' hOpen hOpen'
    rw [(hOnly id hMem hOpen).2, (hOnly id' hMem' hOpen').2]
  · constructor
    · intro hPending
      have hAwaited := (hState.pending hPending).awaited
      exact ⟨s.event.id, mem_postedIds hAwaited.1,
        hAwaited.2⟩
    · rintro ⟨id, hMem, hOpen⟩
      exact (hOnly id hMem hOpen).1
  · intro newer older id commands bytes hLog
    have hLawful := hState.lawful
    rw [hLog] at hLawful
    exact lawful_split hLawful
  · intro newer older id hLog
    have hLawful := hState.lawful
    rw [hLog] at hLawful
    rcases lawful_split hLawful with
      ⟨⟨_, _, hOpen⟩, hDelivered⟩
    exact ⟨hDelivered, hOpen⟩
  · intro mapped space mem off size b hCopy hOp hResult
    exact drawing_of_ksDispatch (x := ⟨s, mem⟩) hCopy hOp
      hResult
  · exact ksPost_busy
  · exact hState.within

theorem ksRuns_tokens_drawn :
    TokenProtocol
      (postedEvent loadedService ksEventDraw 0 0 0 0 0)
      [.posted 1 ksEventDraw] :=
  ksRuns_tokens
    (.post ksRuns_loadedService ksEventDraw 0 0 0 0 0)

end KvantOS.User
