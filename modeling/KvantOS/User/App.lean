import KvantOS.User.Service

/-
  This file models the app of kernel/user_mode.c that runs
  in a private space: it is loaded, is called with one event
  after the other, and is unloaded.

  What the program does when it runs is free: it makes any
  requests, with any memory, until it stops. `active` is
  only set while it runs, so it is not part of the state.

  Key definitions include:
    * `KuApp`, `kuAppLoad`, `kuAppUnload`
    * `kuAppEnter`, `AppRun`, `kuAppLeave`
    * `KuAppEvent`, `AppReach`
-/

namespace KvantOS.User

--
-- State
--

/- The entries of `app_events`. -/
structure AppEvent where
  type : Nat
  delta : Nat
  x : Nat
  y : Nat
  key : Nat
  button : Nat
  deriving DecidableEq

def AppEvent.zero : AppEvent :=
  ⟨0, 0, 0, 0, 0, 0⟩

/- The static variables of the app. -/
structure KuApp where
  resident : Bool
  busy : Bool
  process : KuSpace
  services : KsService
  generation : Nat
  events : Nat → AppEvent
  count : Nat
  slices : Nat
  totalYields : Nat
  error : String

def KuApp.boot : KuApp where
  resident := false
  busy := false
  process := .zero
  services := .zero
  generation := 0
  events := fun _ => .zero
  count := 0
  slices := 0
  totalYields := 0
  error := ""

/- What `ku_app_event` is called with. -/
structure AppCall where
  event : AppEvent
  width : Nat
  height : Nat

/- What the kernel tells the program then. -/
structure AppTimes where
  hz : Nat
  language : Nat
  clock : Nat × Nat × Nat
  clockValid : Bool

/- `ku_app_unload`. -/
def kuAppUnload (app : KuApp) : KuApp :=
  if !app.resident || app.busy then
    app
  else
    { app with
      services := .zero
      process := .zero
      events := fun _ => .zero
      count := 0
      resident := false }

/-
  `ku_app_load`. The space is the one that `ki_load` and the
  calls of `ku_load` have made and that is pinned, absent
  when one of them failed.
-/
def kuAppLoad
    (app : KuApp)
    (made : Option KuSpace)
    (sink textSink lineSink : Bool) : Int × KuApp :=
  if app.busy || app.resident ||
      app.generation == 0xFFFFFFFF then
    (-1, app)
  else
    let loaded := do
      let space ← made
      let s ← ksInit app.services space (app.generation + 1)
        420 300 sink
      some (space, s)
    match loaded with
    | none =>
        (-1, { app with
          generation := app.generation + 1
          services := .zero
          process := .zero
          error := "invalid isolated image or memory limit" })
    | some (space, s) =>
        (0, { app with
          generation := app.generation + 1
          services := { s with textSink, lineSink }
          process := space
          error := ""
          resident := true
          count := 0
          slices := 0
          totalYields := 0 })

--
-- Queueing an Event
--

/- The app ends with a text for the error. -/
def kuAppFail
    (app : KuApp)
    (error : String) : KuApp :=
  kuAppUnload { app with busy := false, error }

/- The entry for an event of some type. -/
def slotFor
    (app : KuApp)
    (type : Nat) : Nat :=
  if type == ksEventDraw || type == ksEventTick then
    ((List.range app.count).find?
      (fun i => (app.events i).type == type)).getD app.count
  else
    app.count

/- The time that passed, at most 250. -/
def capped (delta : Nat) : Nat :=
  if delta > 250 then 250 else delta

/- The time of an event that goes to entry `i`. -/
def elapsedAt
    (app : KuApp)
    (i : Nat)
    (e : AppEvent) : Nat :=
  if e.type == ksEventTick &&
      (app.events i).type == e.type then
    capped (capped e.delta + (app.events i).delta)
  else
    capped e.delta

/- The event is stored in entry `i`. -/
def storeEvent
    (app : KuApp)
    (i : Nat)
    (e : AppEvent) : KuApp :=
  { app with
    count :=
      if i == app.count then app.count + 1 else app.count
    events := Function.update app.events i
      { e with delta := elapsedAt app i e } }

/- The first event leaves the queue. -/
def shiftEvents (app : KuApp) : KuApp :=
  { app with
    count := app.count - 1
    events := fun i =>
      if i + 1 < app.count then app.events (i + 1)
      else if i + 1 == app.count then .zero
      else app.events i }

/- The first event is posted when none is pending. -/
def postFirst (app : KuApp) : Except KuApp KuApp :=
  if app.services.pending then
    .ok app
  else
    let e := app.events 0
    let out := ksPost app.services e.type e.delta e.x e.y
      e.key e.button
    if out.1 != 0 then
      .error (kuAppFail app "isolated event token limit")
    else
      .ok (shiftEvents { app with services := out.2 })

/- The checks of the canvas and of the type. -/
def AppCall.valid (c : AppCall) : Bool :=
  !(c.width == 0 || c.height == 0 || c.width > 4096 ||
    c.height > 4096 || c.event.type < 1 || c.event.type > 5)

/- What the service learns from a call. -/
def setTimes
    (s : KsService)
    (c : AppCall)
    (t : AppTimes) : KsService :=
  { s with
    width := c.width
    height := c.height
    hz := t.hz
    language := t.language
    clock := t.clock
    clockValid := t.clockValid }

/-
  `ku_app_event` before the program runs. An error is the
  app after a call that returned -1.
-/
def kuAppEnter
    (app : KuApp)
    (t : AppTimes)
    (c : AppCall) : Except KuApp KuApp :=
  if !app.resident || app.busy then
    .error app
  else if !c.valid then
    .error (kuAppUnload
      { app with error := "invalid isolated canvas/event" })
  else
    let app :=
      { app with
        busy := true
        services := setTimes app.services c t }
    let i := slotFor app c.event.type
    if i == 8 then
      .error (kuAppFail app "isolated input queue limit")
    else
      postFirst (storeEvent app i c.event)

--
-- Running the Program
--

/- Why the program stopped. -/
inductive AppStop where
  | ended (value : Nat)
  | faulted (vector : Nat)
  | timedOut
  | yielded
  | killed
  | waiting
  deriving DecidableEq

/- `reason`, `vector` and `exit_value` as they are shown. -/
def AppStop.reason : AppStop → Nat
  | .ended _ => 1
  | .faulted _ => 2
  | .timedOut => 3
  | .yielded => 4
  | .killed => 5
  | .waiting => 6

def AppStop.vector : AppStop → Nat
  | .faulted vector => vector
  | _ => 0

def AppStop.value : AppStop → Nat
  | .ended value => value
  | _ => 0

/- `service_wait`: the app stops after such a request. -/
def serviceWait
    (s : KsService)
    (out : KsOut) : Bool :=
  (s.pending && !out.service.pending && out.result == 0) ||
    out.result == ksAgain

/-
  What the program may do with the service until it stops.
  One that cannot be resumed is one that faults at once.
-/
inductive AppRun
    (mapped : Nat → Bool)
    (space : KuSpace) :
    KsService → AppStop → KsService → Prop
  | ended
      (s : KsService)
      {value : Nat}
      (hValue : value < 2 ^ 32) :
      AppRun mapped space s (.ended value) s
  | faulted
      (s : KsService)
      {vector : Nat}
      (hVector : vector < 32) :
      AppRun mapped space s (.faulted vector) s
  | timedOut (s : KsService) :
      AppRun mapped space s .timedOut s
  | yielded (s : KsService) :
      AppRun mapped space s .yielded s
  | waiting
      {s : KsService}
      (mem : PhysMem)
      (off size : Nat)
      (hWait : serviceWait s
        (ksDispatch mapped space ⟨s, mem⟩ off size) =
          true) :
      AppRun mapped space s .waiting
        (ksDispatch mapped space ⟨s, mem⟩ off size).service
  | request
      {s s' : KsService}
      {stop : AppStop}
      (mem : PhysMem)
      (off size : Nat)
      (hGoesOn : serviceWait s
        (ksDispatch mapped space ⟨s, mem⟩ off size) =
          false)
      (hRest : AppRun mapped space
        (ksDispatch mapped space ⟨s, mem⟩ off size).service
        stop s') :
      AppRun mapped space s stop s'

/- The text for a program that stopped. -/
def stopText (stop : AppStop) : String :=
  let reason := toString stop.reason
  let vector := toString stop.vector
  let value := toString stop.value
  "isolated stop: reason " ++ reason ++ ", vector " ++
    vector ++ ", value " ++ value

/- The program stopped for good. -/
def appEnd
    (app : KuApp)
    (stop : AppStop) : Int × KuApp :=
  if stop = .ended 0 then
    (0, kuAppUnload app)
  else
    (-1, kuAppUnload { app with error := stopText stop })

/- `ku_app_event` after the program ran. -/
def kuAppLeave
    (app : KuApp)
    (stop : AppStop) : Int × KuApp :=
  let app := { app with busy := false }
  match stop with
  | .yielded =>
      let app :=
        { app with
          totalYields := (app.totalYields + 1) % 2 ^ 32
          slices := app.slices + 1 }
      if app.slices ≥ 25 then appEnd app .killed
      else (1, app)
  | .waiting => (1, { app with slices := 0 })
  | stop => appEnd app stop

--
-- Calls
--

/- The event that is pending in the service. -/
def KuApp.pendingEvent (app : KuApp) : AppEvent :=
  let e := app.services.event
  { type := e.type
    delta := e.deltaMs
    x := e.x
    y := e.y
    key := e.key
    button := e.button }

/- What a call posts, from the app before and after. -/
def postedBy (before after : KuApp) : Option AppEvent :=
  if before.services.pending then none
  else some after.pendingEvent

/- `ku_app_event`, with its result and what it posts. -/
inductive KuAppEvent
    (mapped : Nat → Bool)
    (app : KuApp)
    (c : AppCall) :
    Int → Option AppEvent → KuApp → Prop
  | refused
      {app' : KuApp}
      (t : AppTimes)
      (hEnter : kuAppEnter app t c = .error app') :
      KuAppEvent mapped app c (-1) none app'
  | ran
      {a : KuApp}
      {stop : AppStop}
      {s : KsService}
      (t : AppTimes)
      (hEnter : kuAppEnter app t c = .ok a)
      (hRun : AppRun mapped a.process a.services stop s) :
      KuAppEvent mapped app c
        (kuAppLeave { a with services := s } stop).1
        (postedBy app a)
        (kuAppLeave { a with services := s } stop).2

/-
  The states of the app, with the events that it was called
  with and that were posted since the last load.
-/
inductive AppReach
    (mapped : Nat → Bool) :
    KuApp → List AppEvent → List AppEvent → Prop
  | boot :
      AppReach mapped .boot [] []
  | load
      {app app' : KuApp}
      {submitted posted : List AppEvent}
      (hReach : AppReach mapped app submitted posted)
      (made : Option KuSpace)
      (sink textSink lineSink : Bool)
      (hLoad : kuAppLoad app made sink textSink lineSink =
        (0, app')) :
      AppReach mapped app' [] []
  | loadFails
      {app app' : KuApp}
      {submitted posted : List AppEvent}
      (hReach : AppReach mapped app submitted posted)
      (made : Option KuSpace)
      (sink textSink lineSink : Bool)
      (hLoad : kuAppLoad app made sink textSink lineSink =
        (-1, app')) :
      AppReach mapped app' submitted posted
  | event
      {app app' : KuApp}
      {submitted posted : List AppEvent}
      {result : Int}
      {p : Option AppEvent}
      (hReach : AppReach mapped app submitted posted)
      (c : AppCall)
      (hLive : app.resident = true)
      (hEvent : KuAppEvent mapped app c result p app') :
      AppReach mapped app' (submitted ++ [c.event])
        (posted ++ p.toList)
  | eventUnloaded
      {app app' : KuApp}
      {submitted posted : List AppEvent}
      {result : Int}
      {p : Option AppEvent}
      (hReach : AppReach mapped app submitted posted)
      (c : AppCall)
      (hUnloaded : app.resident = false)
      (hEvent : KuAppEvent mapped app c result p app') :
      AppReach mapped app' submitted posted
  | unload
      {app : KuApp}
      {submitted posted : List AppEvent}
      (hReach : AppReach mapped app submitted posted) :
      AppReach mapped (kuAppUnload app) submitted posted

end KvantOS.User
