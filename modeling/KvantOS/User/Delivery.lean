import KvantOS.User.App
import KvantOS.User.Runs
import KvantOS.Data.Coalesce
import Mathlib

/-
  This file shows that the input of the app reaches its
  program: the queue of the app joins the events that draw
  and the ticks, and posts all others once and in order.

  The array of the app is read as a list, and a call works
  on the list as `Coalesce.push` does.

  Key definitions include:
    * `KuApp.queue`, `eventSlot`, `joinEvents`
    * `Tidy`, `Delivered`, `CallDelivers`

  Key theorems include:
    * `queue_storeEvent`, `kuAppEnter_cases`
    * `appReach_history`, `appReach_delivers`
-/

namespace KvantOS.User

open Coalesce

--
-- The Queue as a List
--

/- The queued events, the first one first. -/
def KuApp.queue (app : KuApp) : List AppEvent :=
  (List.range app.count).map app.events

/- Events that draw are joined, and ticks are. -/
def eventSlot (e : AppEvent) : Option Nat :=
  if e.type = ksEventDraw ∨ e.type = ksEventTick then
    some e.type
  else
    none

/- A later event takes over, and ticks add their times. -/
def joinEvents (a e : AppEvent) : AppEvent :=
  if e.type = ksEventTick then
    { e with delta := capped (e.delta + a.delta) }
  else
    e

/- The event as it is queued alone. -/
def AppEvent.atMost (e : AppEvent) : AppEvent :=
  { e with delta := capped e.delta }

/- What holds of the array between any two steps. -/
structure Tidy (app : KuApp) : Prop where
  count : app.count ≤ 8
  empty : ∀ i, app.count ≤ i → app.events i = .zero
  deltas : ∀ i, (app.events i).delta ≤ 250
  types : ∀ i, i < app.count →
    1 ≤ (app.events i).type ∧ (app.events i).type ≤ 5

theorem eventSlot_joinEvents
    (a e : AppEvent)
    (hSame : eventSlot e = eventSlot a) :
    eventSlot (joinEvents a e) = eventSlot a := by
  rw [← hSame]
  unfold joinEvents
  split <;> rfl

theorem capped_le (n : Nat) : capped n ≤ 250 := by
  unfold capped
  split <;> omega

theorem capped_of_le
    {n : Nat}
    (hLe : n ≤ 250) :
    capped n = n := by
  unfold capped
  split <;> omega

theorem capped_eq_min (n : Nat) :
    capped n = min 250 n := by
  unfold capped
  split <;> omega

theorem length_queue (app : KuApp) :
    app.queue.length = app.count := by
  simp [KuApp.queue]

variable {i : Nat}

theorem queue_getElem
    (app : KuApp)
    (hI : i < app.queue.length) :
    app.queue[i] = app.events i := by
  simp [KuApp.queue]

/- Events join the queued one of their type. -/
theorem joins_iff (a e : AppEvent) :
    Joins eventSlot a e ↔
      (e.type = ksEventDraw ∨ e.type = ksEventTick) ∧
        a.type = e.type := by
  unfold Joins eventSlot
  by_cases hE : e.type = ksEventDraw ∨ e.type = ksEventTick
  · rw [if_pos hE]
    by_cases hA : a.type = ksEventDraw ∨
        a.type = ksEventTick
    · simp [if_pos hA, hE]
    · rw [if_neg hA]
      constructor
      · rintro ⟨-, hBad⟩
        cases hBad
      · rintro ⟨-, hSame⟩
        rw [hSame] at hA
        exact absurd hE hA
  · simp [hE]

--
-- Entries
--

/- The entry for an event is the one that it joins. -/
theorem slotFor_eq
    (app : KuApp)
    (e : AppEvent) :
    slotFor app e.type =
      app.queue.findIdx
        (fun a => decide (Joins eventSlot a e)) := by
  unfold slotFor
  split
  · rename_i hKind
    have hE : e.type = ksEventDraw ∨
        e.type = ksEventTick := by
      simpa using hKind
    have hPred : (fun a => decide (Joins eventSlot a e)) =
        fun a => a.type == e.type := by
      funext a
      simp [joins_iff, hE, beq_eq_decide]
    rw [hPred, KuApp.queue]
    cases hFind : (List.range app.count).find?
        (fun i => (app.events i).type == e.type) with
    | none =>
        rw [List.findIdx_eq_length_of_false]
        · simp
        · intro a hMem
          rcases List.mem_map.mp hMem with ⟨i, hI, rfl⟩
          have hNot := List.find?_eq_none.mp hFind i hI
          simpa using hNot
    | some i =>
        rcases List.find?_range_eq_some.mp hFind with
          ⟨hType, hMem, hBefore⟩
        have hI : i < app.count := List.mem_range.mp hMem
        refine ((List.findIdx_eq (by simpa using hI)).mpr
          ⟨by simpa using hType, ?_⟩).symm
        intro j hJ
        simpa using hBefore j hJ
  · rename_i hKind
    have hE : ¬(e.type = ksEventDraw ∨
        e.type = ksEventTick) := by
      simpa using hKind
    rw [List.findIdx_eq_length_of_false, length_queue]
    intro a _
    simp [joins_iff, hE]

/- The value that goes to an entry. -/
theorem stored_eq_join
    {app : KuApp}
    {e : AppEvent}
    (hJoins : Joins eventSlot (app.events i) e) :
    { e with delta := elapsedAt app i e } =
      joinEvents (app.events i) e.atMost := by
  have hType := ((joins_iff _ _).mp hJoins).2
  unfold elapsedAt joinEvents
  by_cases hTick : e.type = ksEventTick
  · have hOld : (app.events i).type = ksEventTick :=
      hType.trans hTick
    simp [hTick, hOld, AppEvent.atMost]
  · simp [hTick, AppEvent.atMost]

theorem stored_eq_atMost
    {app : KuApp}
    (e : AppEvent)
    (hEmpty : app.events i = .zero) :
    { e with delta := elapsedAt app i e } = e.atMost := by
  unfold elapsedAt
  rw [hEmpty]
  by_cases hTick : e.type = ksEventTick
  · have hNot : (0 == ksEventTick) = false := rfl
    simp [hTick, hNot, AppEvent.zero, AppEvent.atMost]
  · simp [hTick, AppEvent.atMost]

/- A stored event is pushed to the list. -/
theorem queue_storeEvent
    {app : KuApp}
    (hTidy : Tidy app)
    (e : AppEvent) :
    (storeEvent app (slotFor app e.type) e).queue =
      push eventSlot joinEvents app.queue e.atMost := by
  have hSlot : slotFor app e.type = app.queue.findIdx
      (fun a => decide (Joins eventSlot a e.atMost)) :=
    slotFor_eq app e.atMost
  by_cases hIn : slotFor app e.type < app.queue.length
  · have hCount := hIn
    rw [length_queue] at hCount
    have hJoins : Joins eventSlot
        (app.events (slotFor app e.type)) e := by
      have hFound := List.findIdx_getElem
        (w := hSlot ▸ hIn)
      rw [queue_getElem, ← hSlot] at hFound
      exact of_decide_eq_true hFound
    rw [push_eq_set hIn hSlot.symm, queue_getElem,
      ← stored_eq_join hJoins]
    have hNe : (slotFor app e.type == app.count) = false :=
      beq_false_of_ne (Nat.ne_of_lt hCount)
    refine List.ext_getElem ?_ ?_
    · simp [KuApp.queue, storeEvent, hNe]
    · intro j hJ _
      rw [queue_getElem, List.getElem_set, queue_getElem]
      simp only [storeEvent, Function.update_apply, eq_comm]
  · have hLast : slotFor app e.type = app.queue.length :=
      Nat.le_antisymm (hSlot ▸ List.findIdx_le_length)
        (Nat.le_of_not_lt hIn)
    rw [push_eq_append (hSlot ▸ hLast)]
    rw [length_queue] at hLast
    rw [hLast, ← stored_eq_atMost e
      (hTidy.empty app.count (Nat.le_refl _))]
    simp only [KuApp.queue, storeEvent, beq_self_eq_true,
      if_true, List.range_succ, List.map_append,
      List.map_cons, List.map_nil, Function.update_self]
    congr 1
    apply List.map_congr_left
    intro i hI
    rw [Function.update_of_ne
      (Nat.ne_of_lt (List.mem_range.mp hI))]

/- The list without its first event. -/
theorem queue_shiftEvents
    {app : KuApp}
    (hSome : app.count ≠ 0) :
    app.queue =
      app.events 0 :: (shiftEvents app).queue := by
  rcases Nat.exists_eq_succ_of_ne_zero hSome with ⟨n, hN⟩
  simp only [KuApp.queue, shiftEvents, hN,
    Nat.succ_sub_one, List.range_succ_eq_map, List.map_cons,
    List.map_map]
  congr 1
  apply List.map_congr_left
  intro i hI
  have hLt : i + 1 < n + 1 :=
    Nat.succ_lt_succ (List.mem_range.mp hI)
  simp [hLt]

theorem Tidy.storeEvent
    {app : KuApp}
    (hTidy : Tidy app)
    {c : AppCall}
    (hValid : c.valid = true)
    (hRoom : slotFor app c.event.type ≠ 8) :
    Tidy (User.storeEvent app (slotFor app c.event.type)
      c.event) := by
  have hLe : slotFor app c.event.type ≤ app.count := by
    rw [slotFor_eq, ← length_queue]
    exact List.findIdx_le_length
  have hType : 1 ≤ c.event.type ∧ c.event.type ≤ 5 := by
    simp only [AppCall.valid, Bool.not_eq_true',
      Bool.or_eq_false_iff, decide_eq_false_iff_not]
      at hValid
    omega
  have hDelta : ∀ i, elapsedAt app i c.event ≤ 250 := by
    intro i
    unfold elapsedAt
    split <;> exact capped_le _
  have hCount := hTidy.count
  constructor
  · simp only [User.storeEvent]
    split
    · rename_i hLast
      rw [beq_iff_eq] at hLast
      omega
    · exact hCount
  · intro i hI
    simp only [User.storeEvent] at hI ⊢
    split at hI
    · rename_i hLast
      rw [beq_iff_eq] at hLast
      rw [Function.update_of_ne (by omega)]
      exact hTidy.empty i (by omega)
    · rename_i hLast
      rw [beq_iff_eq] at hLast
      rw [Function.update_of_ne (by omega)]
      exact hTidy.empty i hI
  · intro i
    simp only [User.storeEvent, Function.update_apply]
    split
    · exact hDelta _
    · exact hTidy.deltas i
  · intro i hI
    simp only [User.storeEvent, Function.update_apply]
      at hI ⊢
    split
    · exact hType
    · rename_i hOther
      apply hTidy.types
      split at hI
      · rename_i hLast
        rw [beq_iff_eq] at hLast
        omega
      · exact hI

theorem Tidy.shiftEvents
    {app : KuApp}
    (hTidy : Tidy app) :
    Tidy (User.shiftEvents app) := by
  have hCount := hTidy.count
  constructor
  · simp only [User.shiftEvents]
    omega
  · intro i hI
    simp only [User.shiftEvents] at hI ⊢
    rw [if_neg (by omega)]
    split
    · rfl
    · rename_i hLast
      rw [beq_iff_eq] at hLast
      exact hTidy.empty i (by omega)
  · intro i
    simp only [User.shiftEvents]
    split
    · exact hTidy.deltas _
    · split
      · exact Nat.zero_le _
      · exact hTidy.deltas i
  · intro i hI
    simp only [User.shiftEvents] at hI ⊢
    have hNext : i + 1 < app.count := by omega
    rw [if_pos hNext]
    exact hTidy.types _ hNext

--
-- One Call
--

/- The event has an entry, and its token can be issued. -/
structure KuApp.Fits
    (app : KuApp)
    (c : AppCall) : Prop where
  valid : c.valid = true
  room : app.count < 8 ∨
    ∃ a ∈ app.queue, Joins eventSlot a c.event
  token : app.services.pending = true ∨
    app.services.nextEvent ≠ 0xFFFFFFFF

/- The app after it was unloaded. -/
structure Unloaded (app : KuApp) : Prop where
  resident : app.resident = false
  busy : app.busy = false
  count : app.count = 0
  events : ∀ i, app.events i = .zero

theorem unloaded_of_resident
    {app : KuApp}
    (hLive : app.resident = true)
    (hIdle : app.busy = false) :
    Unloaded (kuAppUnload app) := by
  have hGo : (!app.resident || app.busy) = false := by
    rw [hLive, hIdle]
    rfl
  unfold kuAppUnload
  rw [hGo]
  exact ⟨rfl, hIdle, rfl, fun _ => rfl⟩

theorem Unloaded.tidy
    {app : KuApp}
    (hUnloaded : Unloaded app) :
    Tidy app where
  count := hUnloaded.count ▸ Nat.zero_le 8
  empty := fun i _ => hUnloaded.events i
  deltas := by
    intro i
    rw [hUnloaded.events i]
    exact Nat.zero_le _
  types := by
    intro i hI
    rw [hUnloaded.count] at hI
    exact absurd hI (Nat.not_lt_zero i)

/- There is an entry for an event that joins or has room. -/
theorem slotFor_ne_iff
    {app : KuApp}
    (hTidy : Tidy app)
    (e : AppEvent) :
    slotFor app e.type ≠ 8 ↔
      app.count < 8 ∨ ∃ a ∈ app.queue, Joins eventSlot a e := by
  have hCount := hTidy.count
  rw [slotFor_eq]
  by_cases hJoins : ∃ a ∈ app.queue, Joins eventSlot a e
  · have hLt : app.queue.findIdx
        (fun a => decide (Joins eventSlot a e)) <
          app.queue.length :=
      List.findIdx_lt_length.mpr (by simpa using hJoins)
    rw [length_queue] at hLt
    simp only [hJoins, or_true, iff_true]
    omega
  · have hLast : app.queue.findIdx
        (fun a => decide (Joins eventSlot a e)) =
          app.queue.length := by
      apply List.findIdx_eq_length_of_false
      intro a hMem
      simpa using fun hJ => hJoins ⟨a, hMem, hJ⟩
    rw [hLast, length_queue]
    simp only [hJoins, or_false]
    omega

/- The app when the program can run after a call began. -/
structure Entered
    (app : KuApp)
    (c : AppCall)
    (a : KuApp) : Prop where
  fits : app.Fits c
  tidy : Tidy a
  resident : a.resident = true
  live : a.services.live = true
  conserved : (postedBy app a).toList ++ a.queue =
    push eventSlot joinEvents app.queue c.event.atMost

/- A call that is refused unloads the app. -/
structure Refused
    (app : KuApp)
    (c : AppCall)
    (app' : KuApp) : Prop where
  misfits : ¬app.Fits c
  unloaded : Unloaded app'

variable {s : KsService} {type : Nat}

/- A post when no event is pending. -/
theorem ksPost_limit
    (delta x y key button : Nat)
    (hLive : s.live = true)
    (hType : 1 ≤ type ∧ type ≤ 5)
    (hPending : s.pending = false)
    (hLimit : s.nextEvent = 0xFFFFFFFF) :
    (ksPost s type delta x y key button).1 ≠ 0 := by
  have hGood : (!s.live || decide (type < 1) ||
      decide (type > 5)) = false := by
    simp [hLive]
    omega
  have hCode : ksQuota ≠ 0 := by decide
  simp only [ksPost, hGood, hPending, hLimit]
  exact hCode

theorem ksPost_posts
    (delta x y key button : Nat)
    (hLive : s.live = true)
    (hType : 1 ≤ type ∧ type ≤ 5)
    (hPending : s.pending = false)
    (hLimit : s.nextEvent ≠ 0xFFFFFFFF) :
    ∃ s' : KsService,
      ksPost s type delta x y key button = (0, s') ∧
        s'.live = true ∧ s'.event.type = type ∧
        s'.event.deltaMs = capped delta ∧
        s'.event.x = x ∧ s'.event.y = y ∧
        s'.event.key = key ∧ s'.event.button = button := by
  have hGood : (!s.live || decide (type < 1) ||
      decide (type > 5)) = false := by
    simp [hLive]
    omega
  have hToken : (s.nextEvent == 0xFFFFFFFF) = false :=
    beq_false_of_ne hLimit
  simp only [ksPost, hGood, hPending, hToken]
  exact ⟨_, rfl, hLive, rfl, rfl, rfl, rfl, rfl, rfl⟩

/- What `ku_app_event` does before the program runs. -/
theorem postFirst_cases
    {app : KuApp}
    (hTidy : Tidy app)
    (hSome : app.count ≠ 0)
    (hLive : app.resident = true)
    (hService : app.services.live = true) :
    (∃ app', postFirst app = .error app' ∧
        app.services.pending = false ∧
        app.services.nextEvent = 0xFFFFFFFF ∧
        Unloaded app') ∨
      ∃ a, postFirst app = .ok a ∧
        (app.services.pending = true ∨
          app.services.nextEvent ≠ 0xFFFFFFFF) ∧
        Tidy a ∧ a.resident = true ∧
        a.services.live = true ∧
        (postedBy app a).toList ++ a.queue = app.queue := by
  have hType := hTidy.types 0 (Nat.pos_of_ne_zero hSome)
  have hDelta := hTidy.deltas 0
  unfold postFirst
  cases hPending : app.services.pending with
  | true =>
      refine .inr ⟨app, rfl, .inl rfl, hTidy, hLive,
        hService, ?_⟩
      simp [postedBy, hPending]
  | false =>
      by_cases hLimit : app.services.nextEvent = 0xFFFFFFFF
      · have hFails := ksPost_limit (app.events 0).delta
          (app.events 0).x (app.events 0).y
          (app.events 0).key (app.events 0).button hService
          hType hPending hLimit
        refine .inl ⟨kuAppFail app
          "isolated event token limit", ?_, rfl, hLimit,
          unloaded_of_resident hLive rfl⟩
        simp [hFails]
      · rcases ksPost_posts (app.events 0).delta
          (app.events 0).x (app.events 0).y
          (app.events 0).key (app.events 0).button hService
          hType hPending hLimit with
          ⟨s, hPost, hLiveAfter, hT, hD, hX, hY, hK, hB⟩
        have hTidyPosted :
            Tidy { app with services := s } :=
          ⟨hTidy.count, hTidy.empty, hTidy.deltas,
            hTidy.types⟩
        refine .inr ⟨shiftEvents { app with services := s },
          ?_, .inr hLimit, hTidyPosted.shiftEvents, hLive,
          hLiveAfter, ?_⟩
        · simp [hPost]
        · rw [queue_shiftEvents hSome]
          have hFirst : KuApp.pendingEvent
              (shiftEvents { app with services := s }) =
                app.events 0 := by
            simp only [KuApp.pendingEvent, shiftEvents, hT,
              hD, hX, hY, hK, hB, capped_of_le hDelta]
          simp only [postedBy, hPending, hFirst]
          rfl

/- A call while the app is there and idle. -/
theorem kuAppEnter_cases
    {app : KuApp}
    (hTidy : Tidy app)
    (hLive : app.resident = true)
    (hIdle : app.busy = false)
    (hService : app.services.live = true)
    (t : AppTimes)
    (c : AppCall) :
    (∃ app', kuAppEnter app t c = .error app' ∧
        Refused app c app') ∨
      ∃ a, kuAppEnter app t c = .ok a ∧ Entered app c a := by
  unfold kuAppEnter
  have hGo : (!app.resident || app.busy) = false := by
    rw [hLive, hIdle]
    rfl
  rw [hGo]
  by_cases hValid : c.valid = true
  · let x : KuApp := { app with
      busy := true
      services := setTimes app.services c t }
    have hX : Tidy x :=
      ⟨hTidy.count, hTidy.empty, hTidy.deltas, hTidy.types⟩
    have hSame : slotFor app c.event.type =
        slotFor x c.event.type := rfl
    simp only [hValid, Bool.not_true, Bool.false_eq_true,
      if_false]
    by_cases hRoom : slotFor x c.event.type = 8
    · refine .inl ⟨kuAppFail x "isolated input queue limit",
        by simp [x, hRoom], ⟨?_,
          unloaded_of_resident hLive rfl⟩⟩
      intro hFits
      exact (slotFor_ne_iff hTidy c.event).mpr hFits.room
        (hSame.trans hRoom)
    · have hStored := hX.storeEvent hValid hRoom
      have hQueue := queue_storeEvent hX c.event
      have hSome : (storeEvent x (slotFor x c.event.type)
          c.event).count ≠ 0 := by
        rw [← length_queue, hQueue]
        exact mt List.length_eq_zero_iff.mp push_ne_nil
      have hRoomApp := (slotFor_ne_iff hTidy c.event).mp
        (hSame ▸ hRoom)
      rw [if_neg (by simpa [x] using hRoom)]
      rcases postFirst_cases hStored hSome hLive hService with
        ⟨app', hPost, hPending, hLimit, hUnloaded⟩ |
        ⟨a, hPost, hToken, hTidyA, hLiveA, hServiceA,
          hConserved⟩
      · refine .inl ⟨app', hPost, ⟨?_, hUnloaded⟩⟩
        intro hFits
        rcases hFits.token with hSet | hLeft
        · exact Bool.false_ne_true (hPending.symm.trans hSet)
        · exact hLeft hLimit
      · exact .inr ⟨a, hPost, ⟨⟨hValid, hRoomApp, hToken⟩,
          hTidyA, hLiveA, hServiceA,
          hConserved.trans hQueue⟩⟩
  · have hBad : c.valid = false := Bool.eq_false_iff.mpr hValid
    refine .inl ⟨kuAppUnload { app with
      error := "invalid isolated canvas/event" },
      by simp [hBad], ⟨?_, unloaded_of_resident hLive hIdle⟩⟩
    exact fun hFits => hValid hFits.valid

--
-- Runs of the Program
--

theorem KsEffect.live
    {s s' : KsService}
    {entry : Option KsEntry}
    (hEffect : KsEffect s entry s') :
    s'.live = s.live := by
  cases hEffect <;> rfl

/- A run leaves the service there. -/
theorem AppRun.live
    {mapped : Nat → Bool}
    {space : KuSpace}
    {s s' : KsService}
    {stop : AppStop}
    (hRun : AppRun mapped space s stop s') :
    s'.live = s.live := by
  induction hRun with
  | ended s hValue => rfl
  | faulted s hVector => rfl
  | timedOut s => rfl
  | yielded s => rfl
  | waiting mem off size hWait =>
      exact (ksDispatch_effect _ off size).live
  | request mem off size hGoesOn hRest ih =>
      exact ih.trans
        (ksDispatch_effect _ off size).live

/- After a run the app goes on with its queue, or is gone. -/
theorem kuAppLeave_cases
    {app : KuApp}
    (hLive : app.resident = true)
    (stop : AppStop) :
    let after := (kuAppLeave app stop).2
    Unloaded after ∨
      (after.resident = true ∧ after.busy = false ∧
        after.services = app.services ∧
        after.count = app.count ∧
        after.events = app.events) := by
  have hEnd : ∀ (a : KuApp) (stop : AppStop),
      a.resident = true → a.busy = false →
      Unloaded (appEnd a stop).2 := by
    intro a stop hA hIdle
    unfold appEnd
    split <;> exact unloaded_of_resident hA hIdle
  cases stop with
  | waiting => exact .inr ⟨hLive, rfl, rfl, rfl, rfl⟩
  | yielded =>
      simp only [kuAppLeave]
      split
      · exact .inl (hEnd _ _ hLive rfl)
      · exact .inr ⟨hLive, rfl, rfl, rfl, rfl⟩
  | ended value => exact .inl (hEnd _ _ hLive rfl)
  | faulted vector => exact .inl (hEnd _ _ hLive rfl)
  | timedOut => exact .inl (hEnd _ _ hLive rfl)
  | killed => exact .inl (hEnd _ _ hLive rfl)

--
-- All Calls
--

/- What holds of the app between the calls. -/
structure AppState (app : KuApp) : Prop where
  tidy : Tidy app
  idle : app.busy = false
  live : app.resident = true → app.services.live = true
  unloaded : app.resident = false → Unloaded app

theorem Unloaded.state
    {app : KuApp}
    (hUnloaded : Unloaded app) :
    AppState app where
  tidy := hUnloaded.tidy
  idle := hUnloaded.busy
  live := by
    intro hLive
    rw [hUnloaded.resident] at hLive
    cases hLive
  unloaded := fun _ => hUnloaded

/- What a call does with its event. -/
structure CallDelivers
    (app : KuApp)
    (c : AppCall)
    (result : Int)
    (p : Option AppEvent)
    (app' : KuApp) : Prop where
  delivers : app.Fits c → ∃ rest,
    p.toList ++ rest = push eventSlot joinEvents app.queue
      c.event.atMost ∧
    (app'.resident = true → app'.queue = rest)
  posts : app.Fits c →
    (p = none ↔ app.services.pending = true)
  unloads : ¬app.Fits c →
    result = -1 ∧ p = none ∧ app'.resident = false

section Calls

variable {mapped : Nat → Bool} {app app' : KuApp}
variable {c : AppCall} {result : Int} {p : Option AppEvent}

theorem postedBy_eq_none_iff (before after : KuApp) :
    postedBy before after = none ↔
      before.services.pending = true := by
  unfold postedBy
  split <;> simp_all

theorem kuAppEvent_delivers
    (hState : AppState app)
    (hLive : app.resident = true)
    (hEvent : KuAppEvent mapped app c result p app') :
    AppState app' ∧ CallDelivers app c result p app' := by
  cases hEvent with
  | refused t hEnter =>
      rcases kuAppEnter_cases hState.tidy hLive hState.idle
        (hState.live hLive) t c with
        ⟨_, hError, hRefused⟩ | ⟨_, hOk, -⟩
      · rw [hEnter] at hError
        cases hError
        exact ⟨hRefused.unloaded.state,
          fun hFits => absurd hFits hRefused.misfits,
          fun hFits => absurd hFits hRefused.misfits,
          fun _ => ⟨rfl, rfl, hRefused.unloaded.resident⟩⟩
      · rw [hEnter] at hOk
        cases hOk
  | @ran a stop s t hEnter hRun =>
      rcases kuAppEnter_cases hState.tidy hLive hState.idle
        (hState.live hLive) t c with
        ⟨_, hError, -⟩ | ⟨_, hOk, hEntered⟩
      · rw [hEnter] at hError
        cases hError
      · rw [hEnter] at hOk
        cases hOk
        have hFits := hEntered.fits
        have hLeave := @kuAppLeave_cases
          { a with services := s } hEntered.resident stop
        refine ⟨?_, fun _ => ⟨a.queue, hEntered.conserved, ?_⟩,
          fun _ => postedBy_eq_none_iff app a,
          fun hNot => absurd hFits hNot⟩
        · rcases hLeave with hGone |
            ⟨hStays, hIdle, hServices, hCount, hEvents⟩
          · exact hGone.state
          · have hTidy := hEntered.tidy
            refine ⟨⟨?_, ?_, ?_, ?_⟩, hIdle, ?_, ?_⟩
            · rw [hCount]
              exact hTidy.count
            · rw [hCount, hEvents]
              exact hTidy.empty
            · rw [hEvents]
              exact hTidy.deltas
            · rw [hCount, hEvents]
              exact hTidy.types
            · intro _
              rw [hServices]
              exact hRun.live.trans hEntered.live
            · intro hNot
              rw [hStays] at hNot
              cases hNot
        · intro hStays
          rcases hLeave with hGone | ⟨-, -, -, hCount, hEvents⟩
          · rw [hGone.resident] at hStays
            cases hStays
          · rw [KuApp.queue, hCount, hEvents]
            rfl

end Calls

--
-- Whole Histories
--

theorem kuAppUnload_state
    {app : KuApp}
    (hState : AppState app) :
    Unloaded (kuAppUnload app) := by
  cases hLive : app.resident with
  | true => exact unloaded_of_resident hLive hState.idle
  | false =>
      have hSame : kuAppUnload app = app := by
        simp [kuAppUnload, hLive]
      rw [hSame]
      exact hState.unloaded hLive

variable {made : Option KuSpace}
variable {sink textSink lineSink : Bool}

/- An app that could be loaded has an empty queue. -/
theorem kuAppLoad_loaded
    {app app' : KuApp}
    (hState : AppState app)
    (hLoad : kuAppLoad app made sink textSink lineSink =
      (0, app')) :
    AppState app' ∧ app'.count = 0 := by
  unfold kuAppLoad at hLoad
  split at hLoad
  · cases hLoad
  · rename_i hGo
    have hGone : app.resident = false := by
      simp only [Bool.or_eq_true, not_or] at hGo
      simpa using hGo.1.2
    have hEvents := (hState.unloaded hGone).events
    cases made with
    | none => cases hLoad
    | some space =>
        cases hInit : ksInit app.services space
            (app.generation + 1) 420 300 sink with
        | none =>
            simp only [Option.bind_eq_bind, Option.bind_some,
              hInit] at hLoad
            cases hLoad
        | some s =>
            have hServices : s.live = true := by
              unfold ksInit at hInit
              split at hInit
              · cases hInit
              · cases hInit
                rfl
            simp only [Option.bind_eq_bind, Option.bind_some,
              hInit] at hLoad
            cases hLoad
            refine ⟨⟨⟨Nat.zero_le 8, fun i _ => hEvents i,
              ?_, ?_⟩, hState.idle, fun _ => hServices,
              fun hNot => by cases hNot⟩, rfl⟩
            · intro i
              change (app.events i).delta ≤ 250
              rw [hEvents i]
              exact Nat.zero_le _
            · exact fun i hI => absurd hI (Nat.not_lt_zero i)

/- A failed load leaves an app as it was. -/
theorem kuAppLoad_failed
    {app app' : KuApp}
    (hState : AppState app)
    (hLoad : kuAppLoad app made sink textSink lineSink =
      (-1, app')) :
    app' = app ∨ Unloaded app' := by
  unfold kuAppLoad at hLoad
  split at hLoad
  · cases hLoad
    exact .inl rfl
  · rename_i hGo
    have hGone : app.resident = false := by
      simp only [Bool.or_eq_true, not_or] at hGo
      simpa using hGo.1.2
    have hUnloaded := hState.unloaded hGone
    dsimp only at hLoad
    split at hLoad
    · cases hLoad
      exact .inr ⟨hUnloaded.resident, hUnloaded.busy,
        hUnloaded.count, hUnloaded.events⟩
    · cases hLoad

/- Calls of an app that is not there do nothing. -/
theorem kuAppEvent_unloaded
    {mapped : Nat → Bool}
    {app app' : KuApp}
    {c : AppCall}
    {result : Int}
    {p : Option AppEvent}
    (hGone : app.resident = false)
    (hEvent : KuAppEvent mapped app c result p app') :
    result = -1 ∧ p = none ∧ app' = app := by
  have hEnter : ∀ t, kuAppEnter app t c = .error app := by
    intro t
    simp [kuAppEnter, hGone]
  cases hEvent with
  | refused t hError =>
      rw [hEnter t] at hError
      cases hError
      exact ⟨rfl, rfl, rfl⟩
  | ran t hOk hRun =>
      rw [hEnter t] at hOk
      cases hOk

section Reach

variable {mapped : Nat → Bool} {app : KuApp}
variable {submitted posted : List AppEvent}

theorem AppReach.state
    (hReach : AppReach mapped app submitted posted) :
    AppState app := by
  induction hReach with
  | boot =>
      exact Unloaded.state ⟨rfl, rfl, rfl, fun _ => rfl⟩
  | load _ made sink textSink lineSink hLoad ih =>
      exact (kuAppLoad_loaded ih hLoad).1
  | loadFails _ made sink textSink lineSink hLoad ih =>
      rcases kuAppLoad_failed ih hLoad with rfl | hUnloaded
      · exact ih
      · exact hUnloaded.state
  | event _ c hLive hEvent ih =>
      exact (kuAppEvent_delivers ih hLive hEvent).1
  | eventUnloaded _ c hUnloaded hEvent ih =>
      rw [(kuAppEvent_unloaded hUnloaded hEvent).2.2]
      exact ih
  | unload _ ih => exact (kuAppUnload_state ih).state

/- What was posted, and the queue, as joined events. -/
structure AppHistory
    (app : KuApp)
    (submitted posted : List AppEvent)
    (taken queued : List (Coalesce.Group AppEvent)) :
    Prop where
  history : History eventSlot
    (submitted.map AppEvent.atMost) taken queued
  posted : taken.map (Coalesce.Group.fused joinEvents) = posted
  queued : app.resident = true →
    queued.map (Coalesce.Group.fused joinEvents) = app.queue

/- A call submits its event, and may take the first one. -/
theorem AppHistory.call
    {app' : KuApp}
    {c : AppCall}
    {result : Int}
    {p : Option AppEvent}
    {taken queued : List (Coalesce.Group AppEvent)}
    (hHistory : AppHistory app submitted posted taken queued)
    (hLive : app.resident = true)
    (hCall : CallDelivers app c result p app') :
    ∃ taken' queued', AppHistory app'
      (submitted ++ [c.event]) (posted ++ p.toList)
      taken' queued' := by
  have hSubmit := hHistory.history.submit c.event.atMost
  have hFused := push_fused eventSlot_joinEvents
    (fun g hMem => hHistory.history.uniform g
      (List.mem_append_right _ hMem)) c.event.atMost
  rw [hHistory.queued hLive] at hFused
  have hMap : (submitted ++ [c.event]).map AppEvent.atMost =
      submitted.map AppEvent.atMost ++ [c.event.atMost] := by
    simp
  by_cases hFits : app.Fits c
  · rcases hCall.delivers hFits with
      ⟨rest, hConserved, hRest⟩
    rw [hFused] at hConserved
    cases p with
    | none =>
        refine ⟨taken, _, hMap ▸ hSubmit, ?_, ?_⟩
        · rw [hHistory.posted, Option.toList_none,
            List.append_nil]
        · intro hStays
          rw [hRest hStays, ← hConserved]
          rfl
    | some first =>
        rw [Option.toList_some,
          List.singleton_append] at hConserved
        rcases List.map_eq_cons_iff.mp hConserved.symm with
          ⟨g, gs, hJoin, hFirst, hGs⟩
        rw [hJoin] at hSubmit
        refine ⟨_, gs, hMap ▸ hSubmit.take, ?_, ?_⟩
        · rw [List.map_append, hHistory.posted,
            List.map_singleton, hFirst, Option.toList_some]
        · intro hStays
          rw [hRest hStays, hGs]
  · rcases hCall.unloads hFits with ⟨-, hNone, hGone⟩
    refine ⟨taken, _, hMap ▸ hSubmit, ?_, ?_⟩
    · rw [hHistory.posted, hNone, Option.toList_none,
        List.append_nil]
    · intro hStays
      rw [hGone] at hStays
      cases hStays

theorem appReach_history
    (hReach : AppReach mapped app submitted posted) :
    ∃ taken queued,
      AppHistory app submitted posted taken queued := by
  induction hReach with
  | boot =>
      exact ⟨[], [], .empty, rfl, fun hLive => by cases hLive⟩
  | load hBefore made sink textSink lineSink hLoad ih =>
      refine ⟨[], [], .empty, rfl, fun _ => ?_⟩
      rw [KuApp.queue,
        (kuAppLoad_loaded hBefore.state hLoad).2]
      rfl
  | loadFails hBefore made sink textSink lineSink hLoad ih =>
      rcases ih with ⟨taken, queued, hHistory⟩
      rcases kuAppLoad_failed hBefore.state hLoad with
        rfl | hUnloaded
      · exact ⟨taken, queued, hHistory⟩
      · refine ⟨taken, queued, hHistory.history,
          hHistory.posted, ?_⟩
        intro hStays
        rw [hUnloaded.resident] at hStays
        cases hStays
  | event hBefore c hLive hEvent ih =>
      rcases ih with ⟨taken, queued, hHistory⟩
      exact hHistory.call hLive
        (kuAppEvent_delivers hBefore.state hLive hEvent).2
  | eventUnloaded hBefore c hUnloaded hEvent ih =>
      rw [(kuAppEvent_unloaded hUnloaded hEvent).2.2]
      exact ih
  | unload hBefore ih =>
      rcases ih with ⟨taken, queued, hHistory⟩
      refine ⟨taken, queued, hHistory.history,
        hHistory.posted, ?_⟩
      intro hStays
      rw [(kuAppUnload_state hBefore.state).resident]
        at hStays
      cases hStays

end Reach

--
-- Delivery
--

/- The keys, clicks and the close, among some events. -/
def AppEvent.isInput (e : AppEvent) : Bool :=
  e.type == ksEventKey || e.type == ksEventClick ||
    e.type == ksEventClose

def inputs (es : List AppEvent) : List AppEvent :=
  es.filter AppEvent.isInput

/- The times of the ticks. -/
def tickTimes (es : List AppEvent) : List Nat :=
  (es.filter (fun e => e.type == ksEventTick)).map
    AppEvent.delta

/- What was submitted so far reaches the program so. -/
structure Delivered
    (app : KuApp)
    (submitted posted : List AppEvent) : Prop where
  inputs : inputs posted <+:
    (inputs submitted).map AppEvent.atMost
  waiting : app.resident = true →
    User.inputs posted ++ User.inputs app.queue =
      (User.inputs submitted).map AppEvent.atMost
  size : app.queue.length ≤ 8
  draws : (app.queue.filter
    (fun e => e.type == ksEventDraw)).length ≤ 1
  ticks : (app.queue.filter
    (fun e => e.type == ksEventTick)).length ≤ 1
  times : ∃ groups : List (List Nat),
    (∀ times ∈ groups, times ≠ []) ∧
      groups.flatten <+:
        (tickTimes submitted).map capped ∧
      tickTimes posted =
        groups.map (fun times => capped times.sum)

theorem inputs_eq_plains (es : List AppEvent) :
    inputs es = inputs (plains eventSlot es) := by
  unfold inputs plains
  rw [List.filter_filter]
  apply List.filter_congr
  intro e _
  have hPlain : e.isInput = true → eventSlot e = none := by
    intro hInput
    unfold AppEvent.isInput at hInput
    unfold eventSlot
    rw [if_neg]
    rintro (hDraw | hTick)
    · rw [hDraw] at hInput
      cases hInput
    · rw [hTick] at hInput
      cases hInput
  cases hInput : e.isInput with
  | true => simp [hPlain hInput]
  | false => rfl

theorem inputs_atMost (es : List AppEvent) :
    inputs (es.map AppEvent.atMost) =
      (inputs es).map AppEvent.atMost := by
  unfold inputs
  rw [List.filter_map]
  rfl

theorem eventSlot_draw
    (e : AppEvent)
    (hDraw : (e.type == ksEventDraw) = true) :
    eventSlot e = some ksEventDraw := by
  rw [beq_iff_eq] at hDraw
  simp [eventSlot, hDraw]

theorem eventSlot_tick_iff (e : AppEvent) :
    eventSlot e = some ksEventTick ↔
      e.type = ksEventTick := by
  unfold eventSlot
  constructor
  · intro hSlot
    split at hSlot
    · exact Option.some.inj hSlot
    · cases hSlot
  · intro hTick
    simp [hTick]

/- Ticks that were joined have the sum of their times. -/
theorem fused_ticks
    {g : Coalesce.Group AppEvent}
    (hTicks : ∀ e ∈ g.members, e.type = ksEventTick)
    (hTimes : ∀ e ∈ g.members, e.delta ≤ 250) :
    (g.fused joinEvents).delta =
      capped (g.members.map AppEvent.delta).sum := by
  rcases g with ⟨first, rest⟩
  have hAll : ∀ (rest : List AppEvent) (a : AppEvent),
      a.delta ≤ 250 →
      (∀ e ∈ rest, e.type = ksEventTick) →
      (rest.foldl joinEvents a).delta =
        capped (a.delta + (rest.map AppEvent.delta).sum) := by
    intro rest
    induction rest with
    | nil =>
        intro a hA _
        exact (capped_of_le hA).symm
    | cons e rest ih =>
        intro a hA hRest
        have hTick := hRest e List.mem_cons_self
        have hJoin : (joinEvents a e).delta =
            capped (e.delta + a.delta) := by
          simp [joinEvents, hTick]
        rw [List.foldl_cons, ih _ (hJoin ▸ capped_le _)
          fun b hB => hRest b (List.mem_cons_of_mem _ hB),
          hJoin, List.map_cons, List.sum_cons]
        simp only [capped_eq_min]
        omega
  rw [Coalesce.Group.fused, Coalesce.Group.members,
    List.map_cons, List.sum_cons]
  exact hAll rest first (hTimes first List.mem_cons_self)
    fun e hE => hTicks e (List.mem_cons_of_mem _ hE)

/- The ticks among some events, by their slot. -/
theorem filter_ticks (es : List AppEvent) :
    es.filter (fun e => e.type == ksEventTick) =
      es.filter (eventSlot · = some ksEventTick) := by
  apply List.filter_congr
  intro e _
  rw [Bool.eq_iff_iff, beq_iff_eq, decide_eq_true_iff,
    eventSlot_tick_iff]

theorem tickTimes_atMost (es : List AppEvent) :
    tickTimes (es.map AppEvent.atMost) =
      (tickTimes es).map capped := by
  unfold tickTimes
  rw [List.filter_map, List.map_map, List.map_map]
  rfl

section Reach

variable {mapped : Nat → Bool} {app : KuApp}
variable {submitted posted : List AppEvent}
variable {taken queued : List (Coalesce.Group AppEvent)}

/- The groups of the ticks that were posted. -/
theorem AppHistory.times
    (hHistory : AppHistory app submitted posted taken
      queued) :
    ∃ groups : List (List Nat),
      (∀ times ∈ groups, times ≠ []) ∧
        groups.flatten <+:
          (tickTimes submitted).map capped ∧
        tickTimes posted =
          groups.map (fun times => capped times.sum) := by
  let ticks := taken.filter
    (eventSlot ·.first = some ksEventTick)
  have hPrefix := hHistory.history.taken_prefix ksEventTick
  have hMembers : ∀ g ∈ ticks, ∀ e ∈ g.members,
      e.type = ksEventTick ∧ e.delta ≤ 250 := by
    intro g hG e hE
    have hMem := hPrefix.subset
      (List.mem_flatMap.mpr ⟨g, hG, hE⟩)
    rcases List.mem_filter.mp hMem with ⟨hIn, hSlot⟩
    rcases List.mem_map.mp hIn with ⟨raw, -, rfl⟩
    exact ⟨(eventSlot_tick_iff _).mp
      (of_decide_eq_true hSlot), capped_le _⟩
  refine ⟨ticks.map (fun g =>
    g.members.map AppEvent.delta), ?_, ?_, ?_⟩
  · intro times hMem
    rcases List.mem_map.mp hMem with ⟨g, -, rfl⟩
    exact List.cons_ne_nil _ _
  · rw [← tickTimes_atMost, tickTimes, filter_ticks]
    have hFlat : (ticks.map (fun g =>
        g.members.map AppEvent.delta)).flatten =
          (Coalesce.members ticks).map AppEvent.delta := by
      rw [Coalesce.members, List.map_flatMap,
        List.flatMap_def]
    rw [hFlat]
    exact hPrefix.map AppEvent.delta
  · rw [← hHistory.posted, tickTimes, filter_ticks,
      filter_fused eventSlot_joinEvents (fun g hMem =>
        hHistory.history.uniform g
          (List.mem_append_left _ hMem)),
      List.map_map, List.map_map]
    apply List.map_congr_left
    intro g hG
    exact fused_ticks (fun e hE => (hMembers g hG e hE).1)
      fun e hE => (hMembers g hG e hE).2

theorem AppHistory.delivered
    (hHistory : AppHistory app submitted posted taken queued)
    (hState : AppState app) :
    Delivered app submitted posted := by
  have hPlain := hHistory.history.plain eventSlot_joinEvents
  rw [hHistory.posted] at hPlain
  have hInputs : inputs posted ++
      inputs (queued.map
        (Coalesce.Group.fused joinEvents)) =
        (inputs submitted).map AppEvent.atMost := by
    rw [inputs_eq_plains posted,
      inputs_eq_plains (queued.map _), inputs, inputs,
      ← List.filter_append, hPlain, ← inputs_atMost,
      inputs_eq_plains (submitted.map _)]
    rfl
  have hApart : app.queue.Pairwise (fun a b =>
      eventSlot a ≠ none → eventSlot b ≠ eventSlot a) := by
    cases hLive : app.resident with
    | true =>
        rw [← hHistory.queued hLive]
        exact hHistory.history.queued_apart
          eventSlot_joinEvents
    | false =>
        rw [KuApp.queue, (hState.unloaded hLive).count]
        exact .nil
  constructor
  · exact ⟨_, hInputs⟩
  · intro hLive
    rw [← hHistory.queued hLive]
    exact hInputs
  · rw [length_queue]
    exact hState.tidy.count
  · exact length_slot_le_one hApart eventSlot_draw
  · exact length_slot_le_one hApart fun e hTick =>
      (eventSlot_tick_iff e).mpr (beq_iff_eq.mp hTick)
  · exact hHistory.times

/- Every history delivers its input, and every call does. -/
theorem appReach_delivers
    (hReach : AppReach mapped app submitted posted) :
    Delivered app submitted posted ∧
      ∀ c result p app',
        app.resident = true →
        KuAppEvent mapped app c result p app' →
        CallDelivers app c result p app' := by
  rcases appReach_history hReach with
    ⟨taken, queued, hHistory⟩
  refine ⟨hHistory.delivered hReach.state, ?_⟩
  intro c result p app' hLive hEvent
  exact (kuAppEvent_delivers hReach.state hLive hEvent).2

/- A call of a program that uses up its time. -/
theorem AppReach.yields
    (hReach : AppReach mapped app submitted posted)
    (hLive : app.resident = true)
    (t : AppTimes)
    (c : AppCall)
    {a : KuApp}
    (hEnter : kuAppEnter app t c = .ok a) :
    AppReach mapped (kuAppLeave a .yielded).2
      (submitted ++ [c.event])
      (posted ++ (postedBy app a).toList) :=
  hReach.event c hLive (.ran t hEnter (.yielded a.services))

end Reach

/- A call on a small canvas. -/
def smallCall
    (type delta key : Nat) : AppCall :=
  ⟨⟨type, delta, 0, 0, key, 0⟩, 420, 300⟩

def smallTimes : AppTimes :=
  ⟨100, 0, (0, 0, 0), true⟩

/- The first event is posted, and the two ticks are joined. -/
theorem appReach_delivers_ticks :
    ∃ app : KuApp,
      app.queue =
        [⟨ksEventTick, 250, 0, 0, 0, 0⟩,
          ⟨ksEventKey, 7, 0, 0, 66, 0⟩] ∧
        Delivered app
          [⟨ksEventKey, 300, 0, 0, 65, 0⟩,
            ⟨ksEventTick, 200, 0, 0, 0, 0⟩,
            ⟨ksEventKey, 7, 0, 0, 66, 0⟩,
            ⟨ksEventTick, 100, 0, 0, 0, 0⟩]
          [⟨ksEventKey, 250, 0, 0, 65, 0⟩] := by
  have hLoad := @AppReach.load (fun _ => true) .boot _ _ _
    .boot (some { KuSpace.zero with live := true })
    true true true rfl
  have hFirst := hLoad.yields rfl smallTimes
    (smallCall ksEventKey 300 65) rfl
  have hSecond := hFirst.yields rfl smallTimes
    (smallCall ksEventTick 200 0) rfl
  have hThird := hSecond.yields rfl smallTimes
    (smallCall ksEventKey 7 66) rfl
  have hFourth := hThird.yields rfl smallTimes
    (smallCall ksEventTick 100 0) rfl
  exact ⟨_, rfl, (appReach_delivers hFourth).1⟩

end KvantOS.User
