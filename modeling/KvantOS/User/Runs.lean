import KvantOS.User.Requests

/-
  This file follows the service of a user program over whole
  runs: the kernel posts events and the program makes
  requests, in any order and with any memory.

  A run has a log of what was done, the newest entry first.
  What a request adds to it is read off the request and its
  result.

  Key definitions include:
    * `KsEntry`, `dispatchEntry`, `KsRuns`
    * `KsEffect`

  Key theorems include:
    * `ksDispatch_effect`, `KsRuns.keeps`
-/

namespace KvantOS.User

--
-- The Log
--

/- What is done in a run. -/
inductive KsEntry where
  | posted (id type : Nat)
  | delivered (id : Nat)
  | drew (id commands bytes : Nat)
  | completed (id : Nat)
  | opened (cookie : Nat) (name : CStr)
      (fresh truncated : Bool)
  | wrote (name : CStr) (off : Nat) (src : Buf) (n : Nat)

/- The name that an open handle stands for. -/
def KsService.nameOf
    (s : KsService)
    (h : Nat) : CStr :=
  CStr.ofBuffer (s.fileOf h).name

section Log

variable (mapped : Nat → Bool) (space : KuSpace)

/- What a request of some kind did, if it succeeded. -/
def requestEntry
    (x : KsState)
    (r : KsRequest)
    (result : Int) : Option KsEntry :=
  let s := x.service
  if r.op == ksWait then
    some (.delivered s.event.id)
  else if r.op == ksComplete then
    some (.completed r.token)
  else if r.op == ksDraw then
    some (.drew r.token r.b 0)
  else if r.op == ksText then
    (kuCopyin mapped space x.mem Buf.zero r.a textBytes).map
      (fun w => .drew r.token 1 (w.get32 20))
  else if r.op == ksLine then
    some (.drew r.token 1 0)
  else if r.op == ksOpen then
    match filename mapped space x.mem r.a r.b with
    | .error _ => none
    | .ok name =>
        some (.opened result.toNat name (node s name).isNone
          (Paging.has r.c ksOpenTrunc))
  else if r.op == ksWrite && r.c != 0 then
    match handle s r.a ksOpenW,
        kuCopyin mapped space x.mem Buf.zero r.b r.c with
    | .ok h, some src =>
        some (.wrote (s.nameOf h) r.d src r.c)
    | _, _ => none
  else
    none

/- What a call of `ks_dispatch` adds to the log. -/
def dispatchEntry
    (x : KsState)
    (off size : Nat) : Option KsEntry :=
  let out := ksDispatch mapped space x off size
  if out.result < 0 then
    none
  else
    match kuCopyin mapped space x.mem Buf.zero off
        requestBytes with
    | none => none
    | some b =>
        requestEntry mapped space x (KsRequest.ofBuf b)
          out.result

end Log

/- What a call of `ks_post` adds to the log. -/
def postEntry
    (s : KsService)
    (type delta x y key button : Nat) : Option KsEntry :=
  let out := ksPost s type delta x y key button
  if out.1 = 0 then
    some (.posted out.2.event.id type)
  else
    none

/- What the kernel sets beside the calls. -/
structure KsSettings where
  width : Nat
  height : Nat
  hz : Nat
  language : Nat
  textSink : Bool
  lineSink : Bool
  clock : Nat × Nat × Nat
  clockValid : Bool

def KsService.configure
    (s : KsService)
    (c : KsSettings) : KsService :=
  { s with
    width := c.width
    height := c.height
    hz := c.hz
    language := c.language
    textSink := c.textSink
    lineSink := c.lineSink
    clock := c.clock
    clockValid := c.clockValid }

/-
  The services that are reached from `ks_init`, with the log
  of the run. The program may change its memory at any time,
  so each request finds a memory of its own.
-/
inductive KsRuns : KsService → List KsEntry → Prop
  | init
      {old s : KsService}
      {space : KuSpace}
      {generation width height : Nat}
      {sink : Bool}
      (hInit : ksInit old space generation width height
        sink = some s) :
      KsRuns s []
  | post
      {s : KsService}
      {log : List KsEntry}
      (hRun : KsRuns s log)
      (type delta x y key button : Nat) :
      KsRuns (ksPost s type delta x y key button).2
        ((postEntry s type delta x y key button).toList ++
          log)
  | dispatch
      {s : KsService}
      {log : List KsEntry}
      (hRun : KsRuns s log)
      (mapped : Nat → Bool)
      (space : KuSpace)
      (mem : PhysMem)
      (off size : Nat) :
      KsRuns
        (ksDispatch mapped space ⟨s, mem⟩ off size).service
        ((dispatchEntry mapped space ⟨s, mem⟩ off
          size).toList ++ log)
  | configure
      {s : KsService}
      {log : List KsEntry}
      (hRun : KsRuns s log)
      (settings : KsSettings) :
      KsRuns (s.configure settings) log

/- The service of a program that was just loaded. -/
def loadedService : KsService :=
  { KsService.zero with
    generation := 1
    width := 420
    height := 300
    live := true }

theorem ksRuns_loadedService :
    KsRuns loadedService [] :=
  @KsRuns.init .zero _ { KuSpace.zero with live := true }
    1 420 300 false rfl

--
-- Effects
--

/-
  What a request may do to the service, with its guards and
  what it adds to the log.
-/
inductive KsEffect
    (s : KsService) : Option KsEntry → KsService → Prop
  | nothing :
      KsEffect s none s
  | status (status : Buf) :
      KsEffect s none { s with status }
  | delivered
      (hPending : s.pending = true) :
      KsEffect s (some (.delivered s.event.id))
        { s with delivered := true }
  | completed
      (hPending : s.pending = true)
      (hDelivered : s.delivered = true) :
      KsEffect s (some (.completed s.event.id))
        { s with pending := false, delivered := false }
  | drew
      {commands bytes : Nat}
      (hPending : s.pending = true)
      (hDelivered : s.delivered = true)
      (hDraw : s.event.type = ksEventDraw)
      (hCommands : commands ≤ s.drawLeft)
      (hBytes : bytes ≤ s.textLeft) :
      KsEffect s (some (.drew s.event.id commands bytes))
        { s with
          drawLeft := s.drawLeft - commands
          textLeft := s.textLeft - bytes }
  | opened
      {name : CStr}
      {f h flags : Nat}
      {fresh : Bool}
      (hName : GoodName name)
      (hFlags : flags &&& 3 ≠ 0)
      (hOpens : s.Opens name f fresh)
      (hFree : freeHandle s = some h) :
      KsEffect s
        (some (.opened (s.nextHandle + 1) name fresh
          (Paging.has flags ksOpenTrunc)))
        (issue s name f h fresh flags)
  | wrote
      {h off n : Nat}
      {src : Buf}
      (hHandle : h < ksHandles)
      (hOpen : (s.handles h).cookie ≠ 0)
      (hRange : off + n ≤ ksFileBytes) :
      KsEffect s (some (.wrote (s.nameOf h) off src n))
        (s.setFile (s.handles h).file
          (fun file => writtenFile file off src n))
  | closed
      {h : Nat}
      (hHandle : h < ksHandles)
      (hOpen : (s.handles h).cookie ≠ 0) :
      KsEffect s none (closedHandle s h)
  | deleted
      {name : CStr}
      {f : Nat}
      (hNode : node s name = some f)
      (hRefs : (s.files f).refs = 0) :
      KsEffect s none (s.setFile f (fun _ => .zero))

section Effects

variable {mapped : Nat → Bool} {space : KuSpace}

/-
  The effect of a request that was read: either it returns
  a negative number and leaves the service, or it has the
  effect that its entry tells.
-/
def performs
    (mapped : Nat → Bool)
    (space : KuSpace)
    (x : KsState)
    (r : KsRequest)
    (out : KsOut) : Prop :=
  (out.result < 0 ∧ out.service = x.service) ∨
    (0 ≤ out.result ∧
      KsEffect x.service
        (requestEntry mapped space x r out.result)
        out.service)

variable {out : KsOut} {r : KsRequest} {x : KsState}

theorem performs_of_refused
    (hRefused : x.Refused out) :
    performs mapped space x r out := by
  rcases hRefused with ⟨code, hCode, rfl⟩
  exact .inl ⟨hCode, rfl⟩

theorem performs_waitEvent
    (x : KsState)
    (hOp : r.op = ksWait) :
    performs mapped space x r
      (waitEvent mapped space x r) := by
  rcases waitEvent_cases x r with
    hRefused | ⟨hPending, mem, -, hOut⟩
  · exact performs_of_refused hRefused
  · rw [hOut]
    refine .inr ⟨Int.natCast_nonneg _, ?_⟩
    rw [requestEntry, hOp]
    exact .delivered hPending

theorem performs_complete
    (x : KsState)
    (hOp : r.op = ksComplete) :
    performs mapped space x r (complete x r) := by
  rcases complete_cases x r with
    hRefused | ⟨hPending, hDelivered, hToken, hOut⟩
  · exact performs_of_refused hRefused
  · rw [hOut]
    refine .inr ⟨Int.le_refl 0, ?_⟩
    rw [requestEntry, hOp, hToken]
    exact .completed hPending hDelivered

theorem performs_draw
    (x : KsState)
    (hOp : r.op = ksDraw) :
    performs mapped space x r (draw mapped space x r) := by
  rcases draw_cases x r with
    hRefused | ⟨hDrawing, -, hLeft, count, sinks, hOut⟩
  · exact performs_of_refused hRefused
  · rw [hOut]
    refine .inr ⟨Int.natCast_nonneg _, ?_⟩
    rw [requestEntry, hOp, hDrawing.token]
    exact .drew hDrawing.pending hDrawing.delivered
      hDrawing.draw hLeft (Nat.zero_le _)

theorem performs_text
    (x : KsState)
    (hOp : r.op = ksText) :
    performs mapped space x r (text mapped space x r) := by
  rcases text_cases x r with hRefused |
    ⟨hDrawing, w, hCopy, hLeft, hBytes, count, sinks, hOut⟩
  · exact performs_of_refused hRefused
  · rw [hOut]
    refine .inr ⟨Int.natCast_nonneg _, ?_⟩
    rw [requestEntry, hOp, hCopy, hDrawing.token]
    exact .drew hDrawing.pending hDrawing.delivered
      hDrawing.draw hLeft hBytes

theorem performs_line
    (x : KsState)
    (hOp : r.op = ksLine) :
    performs mapped space x r (line mapped space x r) := by
  rcases line_cases x r with
    hRefused | ⟨hDrawing, hLeft, count, sinks, hOut⟩
  · exact performs_of_refused hRefused
  · rw [hOut]
    refine .inr ⟨Int.natCast_nonneg _, ?_⟩
    rw [requestEntry, hOp, hDrawing.token]
    exact .drew hDrawing.pending hDrawing.delivered
      hDrawing.draw hLeft (Nat.zero_le _)

theorem performs_openFile
    (x : KsState)
    (hOp : r.op = ksOpen) :
    performs mapped space x r
      (openFile mapped space x r) := by
  rcases openFile_cases x r with hRefused |
    ⟨name, f, h, hName, hFlags, hOpens, hFree, hOut⟩
  · exact performs_of_refused hRefused
  · rw [hOut]
    refine .inr ⟨Int.natCast_nonneg (_ + 1), ?_⟩
    rw [requestEntry, hOp, hName]
    exact .opened (filename_ok hName) hFlags hOpens hFree

theorem performs_read
    (x : KsState)
    (hOp : r.op = ksRead) :
    performs mapped space x r
      (fileIo mapped space x r) := by
  rcases fileIo_read_cases x hOp with
    hRefused | ⟨h, mem, -, -, -, hOut⟩
  · exact performs_of_refused hRefused
  · rw [hOut]
    refine .inr ⟨Int.natCast_nonneg _, ?_⟩
    rw [requestEntry, hOp]
    exact .nothing

theorem performs_write
    (x : KsState)
    (hOp : r.op = ksWrite) :
    performs mapped space x r
      (fileIo mapped space x r) := by
  rcases fileIo_write_cases x hOp with
    hRefused | ⟨h, src, hHandle, hRange, hCopy, hOut⟩
  · exact performs_of_refused hRefused
  · rw [hOut]
    refine .inr ⟨Int.natCast_nonneg _, ?_⟩
    rcases handle_ok hHandle with ⟨hLow, hNe, hCookie⟩
    by_cases hLength : r.c = 0
    · rw [requestEntry, hOp, hLength]
      exact .nothing
    · have hWritten : (r.c != 0) = true := by
        simpa using hLength
      rw [requestEntry, hOp, hHandle, hCopy, hWritten]
      exact .wrote hLow (hCookie ▸ hNe) hRange

theorem performs_closeFile
    (x : KsState)
    (hOp : r.op = ksClose) :
    performs mapped space x r (closeFile x r) := by
  rcases closeFile_cases x r with
    hRefused | ⟨h, hHandle, hOut⟩
  · exact performs_of_refused hRefused
  · rw [hOut]
    refine .inr ⟨Int.le_refl 0, ?_⟩
    rcases handle_ok hHandle with ⟨hLow, hNe, hCookie⟩
    rw [requestEntry, hOp]
    exact .closed hLow (hCookie ▸ hNe)

theorem performs_deleteFile
    (x : KsState)
    (hOp : r.op = ksDelete) :
    performs mapped space x r
      (deleteFile mapped space x r) := by
  rcases deleteFile_cases x r with
    hRefused | ⟨name, f, hNode, hRefs, hOut⟩
  · exact performs_of_refused hRefused
  · rw [hOut]
    refine .inr ⟨Int.le_refl 0, ?_⟩
    rw [requestEntry, hOp]
    exact .deleted hNode hRefs

theorem performs_setStatus
    (x : KsState)
    (hOp : r.op = ksStatus) :
    performs mapped space x r
      (setStatus mapped space x r) := by
  rcases setStatus_cases x r with
    hRefused | ⟨status, hOut⟩
  · exact performs_of_refused hRefused
  · rw [hOut]
    refine .inr ⟨Int.le_refl 0, ?_⟩
    rw [requestEntry, hOp]
    exact .status status

/- A request that leaves the service. -/
theorem performs_keeping
    (hEntry : requestEntry mapped space x r out.result = none)
    (hKept : out.service = x.service) :
    performs mapped space x r out := by
  rcases lt_or_ge out.result 0 with hNeg | hPos
  · exact .inl ⟨hNeg, hKept⟩
  · refine .inr ⟨hPos, ?_⟩
    rw [hEntry, hKept]
    exact .nothing

theorem performs_delivers
    {off length : Nat}
    (hOp : r.op = ksInfo ∨ r.op = ksClock)
    (hCases : x.Refused out ∨
      delivers mapped space x off length out) :
    performs mapped space x r out := by
  rcases hCases with hRefused | ⟨src, mem, -, rfl⟩
  · exact performs_of_refused hRefused
  · apply performs_keeping _ rfl
    rcases hOp with hOp | hOp
    · rw [requestEntry, hOp]
      rfl
    · rw [requestEntry, hOp]
      rfl

theorem performs_query
    (x : KsState)
    (hOp : r.op = ksQuery) :
    performs mapped space x r (query x r) := by
  rcases query_cases x r with hRefused | ⟨caps, hOut⟩
  · exact performs_of_refused hRefused
  · rw [hOut]
    apply performs_keeping _ rfl
    rw [requestEntry, hOp]
    rfl

theorem performs_list
    (x : KsState)
    (hOp : r.op = ksList) :
    performs mapped space x r (list mapped space x r) := by
  rcases list_cases x r with
    hRefused | ⟨f, mem, -, -, -, -, hOut⟩
  · exact performs_of_refused hRefused
  · apply performs_keeping
    · rw [requestEntry, hOp]
      rfl
    · rw [hOut]
      split
      · rfl
      · rfl

/- Each kind of request has the effect of its entry. -/
theorem performs_perform
    (x : KsState)
    (r : KsRequest) :
    performs mapped space x r
      (perform mapped space x r) := by
  unfold perform
  refine iteInduction (motive := performs mapped space x r)
    (fun hOp => performs_waitEvent x (eq_of_beq hOp)) fun _ => ?_
  refine iteInduction (motive := performs mapped space x r)
    (fun hOp => performs_complete x (eq_of_beq hOp)) fun _ => ?_
  refine iteInduction (motive := performs mapped space x r)
    (fun hOp => performs_draw x (eq_of_beq hOp)) fun _ => ?_
  refine iteInduction (motive := performs mapped space x r)
    (fun hOp => performs_text x (eq_of_beq hOp)) fun _ => ?_
  refine iteInduction (motive := performs mapped space x r)
    (fun hOp => performs_line x (eq_of_beq hOp)) fun _ => ?_
  refine iteInduction (motive := performs mapped space x r)
    (fun hOp => performs_list x (eq_of_beq hOp)) fun _ => ?_
  refine iteInduction (motive := performs mapped space x r)
    (fun hOp => performs_query x (eq_of_beq hOp)) fun _ => ?_
  refine iteInduction (motive := performs mapped space x r)
    (fun hOp => performs_setStatus x (eq_of_beq hOp)) fun _ => ?_
  refine iteInduction (motive := performs mapped space x r)
    (fun hOp => performs_delivers (.inl (eq_of_beq hOp))
      (info_cases x r)) fun _ => ?_
  refine iteInduction (motive := performs mapped space x r)
    (fun hOp => performs_delivers (.inr (eq_of_beq hOp))
      (readClock_cases x r)) fun _ => ?_
  refine iteInduction (motive := performs mapped space x r)
    (fun hOp => performs_openFile x (eq_of_beq hOp)) fun _ => ?_
  refine iteInduction (motive := performs mapped space x r)
    (fun hOp => ?_) fun _ => ?_
  · rcases Bool.or_eq_true_iff.mp hOp with hOp | hOp
    · exact performs_read x (eq_of_beq hOp)
    · exact performs_write x (eq_of_beq hOp)
  refine iteInduction (motive := performs mapped space x r)
    (fun hOp => performs_closeFile x (eq_of_beq hOp)) fun _ => ?_
  refine iteInduction (motive := performs mapped space x r)
    (fun hOp => performs_deleteFile x (eq_of_beq hOp)) fun _ => ?_
  exact performs_of_refused (x.refused ksUnknown_neg)

/-
  What a call of `ks_dispatch` does to the service is the
  effect of what it adds to the log.
-/
theorem ksDispatch_effect
    (x : KsState)
    (off size : Nat) :
    KsEffect x.service
      (dispatchEntry mapped space x off size)
      (ksDispatch mapped space x off size).service := by
  rcases ksDispatch_cases mapped space x off size with
    ⟨code, hCode, hOut⟩ | ⟨b, hCopy, hOut⟩
  · simp only [dispatchEntry, hOut]
    rw [if_pos (show (x.refuse code).result < 0 from hCode)]
    exact .nothing
  · simp only [dispatchEntry, hOut]
    have hPerforms : performs mapped space x _ _ :=
      performs_perform x (KsRequest.ofBuf b)
    rcases hPerforms with
      ⟨hNeg, hKept⟩ | ⟨hPos, hEffect⟩
    · rw [if_pos hNeg, hKept]
      exact .nothing
    · rw [if_neg (not_lt.mpr hPos), hCopy]
      exact hEffect

end Effects

--
-- Posting
--

/- The service after an event was posted. -/
def postedEvent
    (s : KsService)
    (type delta x y key button : Nat) : KsService :=
  { s with
    nextEvent := s.nextEvent + 1
    event :=
      { version := ksVersion
        bytes := eventBytes
        generation := s.generation
        id := s.nextEvent + 1
        type
        deltaMs := if delta > 250 then 250 else delta
        width := s.width
        height := s.height
        x, y, key, button }
    pending := true
    delivered := false
    drawLeft := 64
    textLeft := ksTextBudget }

/- An event is posted if none is pending, or not at all. -/
theorem ksPost_cases
    (s : KsService)
    (type delta x y key button : Nat) :
    (∃ code < 0,
      ksPost s type delta x y key button = (code, s)) ∨
      (s.pending = false ∧
        ksPost s type delta x y key button =
          (0, postedEvent s type delta x y key button)) := by
  unfold ksPost
  split
  · exact .inl ⟨_, ksInvalid_neg, rfl⟩
  · split
    · exact .inl ⟨_, ksBusy_neg, rfl⟩
    · rename_i hPending
      split
      · exact .inl ⟨_, ksQuota_neg, rfl⟩
      · exact .inr ⟨by simpa using hPending, rfl⟩

theorem ksPost_busy
    {s : KsService}
    (hPending : s.pending = true)
    (type delta x y key button : Nat) :
    (ksPost s type delta x y key button).1 < 0 ∧
      (ksPost s type delta x y key button).2 = s := by
  rcases ksPost_cases s type delta x y key button with
    ⟨code, hCode, hPost⟩ | ⟨hIdle, -⟩
  · rw [hPost]
    exact ⟨hCode, rfl⟩
  · rw [hPending] at hIdle
    cases hIdle

--
-- Induction
--

/- A service as `ks_init` makes it. -/
structure KsService.Fresh (s : KsService) : Prop where
  files : s.files = fun _ => .zero
  handles : s.handles = fun _ => .zero
  idle : s.pending = false

theorem fresh_of_ksInit
    {old s : KsService}
    {space : KuSpace}
    {generation width height : Nat}
    {sink : Bool}
    (hInit :
      ksInit old space generation width height sink =
        some s) :
    s.Fresh := by
  unfold ksInit at hInit
  split at hInit
  · cases hInit
  · cases hInit
    exact ⟨rfl, rfl, rfl⟩

/-
  What holds of a fresh service, and is kept by posting, by
  the effects of requests and by the settings, holds in
  every run.
-/
theorem KsRuns.keeps
    {P : KsService → List KsEntry → Prop}
    (hFresh : ∀ s, s.Fresh → P s [])
    (hPosted : ∀ s log type delta x y key button,
      P s log → s.pending = false →
      P (postedEvent s type delta x y key button)
        (.posted (s.nextEvent + 1) type :: log))
    (hEffect : ∀ s log entry s',
      P s log → KsEffect s entry s' →
      P s' (entry.toList ++ log))
    (hConfigured : ∀ s log settings,
      P s log → P (s.configure settings) log)
    {s : KsService}
    {log : List KsEntry}
    (hRun : KsRuns s log) :
    P s log := by
  induction hRun with
  | init hInit => exact hFresh _ (fresh_of_ksInit hInit)
  | @post s log _ type delta x y key button ih =>
      unfold postEntry
      rcases ksPost_cases s type delta x y key button with
        ⟨code, hCode, hPost⟩ | ⟨hIdle, hPost⟩
      · simp only [hPost]
        rw [if_neg (ne_of_lt hCode)]
        exact ih
      · simp only [hPost]
        rw [if_pos trivial]
        exact hPosted s log type delta x y key button ih
          hIdle
  | dispatch _ mapped space mem off size ih =>
      exact hEffect _ _ _ _ ih
        (ksDispatch_effect ⟨_, mem⟩ off size)
  | configure _ settings ih =>
      exact hConfigured _ _ settings ih

end KvantOS.User
