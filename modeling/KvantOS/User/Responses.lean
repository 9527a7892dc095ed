import KvantOS.User.Requests
import KvantOS.User.Guarantees

/-
  This file says what a request of a user program leaves in
  the memory: nothing when it is refused, and else no byte
  outside of the ranges that it names.

  Key definitions include:
    * `destinations`, `OnlyWrites`

  Key theorems include:
    * `onlyWrites_copyout`, `perform_answers`
    * `ksDispatch_allOrNothing`
-/

namespace KvantOS.User

/- The ranges that a request asks to be written. -/
def destinations (r : KsRequest) : List (Nat × Nat) :=
  if r.op == ksWait then [(r.a, eventBytes)]
  else if r.op == ksRead then [(r.b, r.c)]
  else if r.op == ksInfo then [(r.a, 16)]
  else if r.op == ksClock then [(r.a, 20)]
  else if r.op == ksList then [(r.b, 40), (r.c, 4)]
  else []

/- An offset is in none of some ranges. -/
def Beside
    (ranges : List (Nat × Nat))
    (o : Nat) : Prop :=
  ∀ d ∈ ranges, ¬(d.1 ≤ o ∧ o < d.1 + d.2)

/-
  Only bytes of the program in some ranges differ, and no
  frame that is not a page of the program.
-/
structure OnlyWrites
    (s : KuSpace)
    (mem mem' : PhysMem)
    (ranges : List (Nat × Nat)) : Prop where
  user : ∀ o < kuSize, Beside ranges o →
    userByte s mem' o = userByte s mem o
  other : ∀ p, (∀ i < kuPages,
    s.frames i ≠ 0 → p ≠ s.frames i) → mem' p = mem p

section Responses

variable {mapped : Nat → Bool} {s : KuSpace} {e : KuEnv}
variable {mem mem' : PhysMem} {seen : Nat → Buf}

theorem OnlyWrites.refl
    (s : KuSpace)
    (mem : PhysMem)
    (ranges : List (Nat × Nat)) :
    OnlyWrites s mem mem ranges :=
  ⟨fun _ _ _ => rfl, fun _ _ => rfl⟩

theorem OnlyWrites.trans
    {mem'' : PhysMem}
    {first rest : List (Nat × Nat)}
    (hFirst : OnlyWrites s mem mem' first)
    (hRest : OnlyWrites s mem' mem'' rest) :
    OnlyWrites s mem mem'' (first ++ rest) where
  user := by
    intro o hOffset hBeside
    have hLate : Beside rest o :=
      fun d hMem => hBeside d (List.mem_append_right _ hMem)
    have hEarly : Beside first o :=
      fun d hMem => hBeside d (List.mem_append_left _ hMem)
    rw [hRest.user o hOffset hLate,
      hFirst.user o hOffset hEarly]
  other := by
    intro p hForeign
    rw [hRest.other p hForeign, hFirst.other p hForeign]

/- A shorter range is enough. -/
theorem OnlyWrites.widen
    {off length length' : Nat}
    (hWrites : OnlyWrites s mem mem' [(off, length)])
    (hLength : length ≤ length') :
    OnlyWrites s mem mem' [(off, length')] where
  user := by
    intro o hOffset hBeside
    apply hWrites.user o hOffset
    intro d hMem
    rw [List.mem_singleton.mp hMem]
    have hOut := hBeside (off, length') List.mem_cons_self
    change ¬(off ≤ o ∧ o < off + length') at hOut
    change ¬(off ≤ o ∧ o < off + length)
    omega
  other := hWrites.other

/- A copy to the program changes the bytes of its range. -/
theorem onlyWrites_copyout
    {off length : Nat}
    {src : Buf}
    (hSound : Sound mapped s e)
    (hSpine : s.live = true → Spine s mem seen)
    (hCopy : kuCopyout mapped s mem off src length =
      some mem') :
    OnlyWrites s mem mem' [(off, length)] := by
  unfold kuCopyout at hCopy
  split at hCopy
  · rename_i hCheck
    cases hCopy
    have hLive := kuCheck_live hCheck
    have hSpine := hSpine hLive
    refine ⟨?_, fun p hForeign => kuCheck_copyTo hSpine
      hSound (by decide) (by decide) hCheck hForeign⟩
    intro o hOffset hBeside
    rcases Nat.eq_zero_or_pos length with rfl | hPos
    · rfl
    · have hIff := (kuCheck_iff hSpine hSound hLive
        (by decide) (by decide)).mp hCheck
      have hPaged := hSpine.paged (by decide) hIff.1
        (hIff.2 hPos)
      rw [userByte_copyTo hSound.pages (Nat.le_refl _)
        hIff.1 hPaged hOffset]
      exact if_neg (hBeside _ List.mem_cons_self)
  · cases hCopy

/- What may be copied does not depend on what was. -/
theorem kuCheck_kept
    {ranges : List (Nat × Nat)}
    {off length rights : Nat}
    (hSound : Sound mapped s e)
    (hSpine : s.live = true → Spine s mem seen)
    (hWrites : OnlyWrites s mem mem' ranges)
    (hRights : rights ≠ 0)
    (hMask : rights &&& 0xFFFFFFF8 = 0)
    (hCheck :
      kuCheck mapped s mem off length rights = true) :
    kuCheck mapped s mem' off length rights = true := by
  have hLive := kuCheck_live hCheck
  have hSpine := hSpine hLive
  have hSpine' := hSpine.userWrite hSound hWrites.other
  rw [kuCheck_iff hSpine hSound hLive hRights hMask] at hCheck
  rw [kuCheck_iff hSpine' hSound hLive hRights hMask]
  exact hCheck

end Responses

--
-- Requests
--

section Answers

variable {mapped : Nat → Bool}
variable {s : KuSpace} {e : KuEnv} {seen : Nat → Buf}
variable {x : KsState} {r : KsRequest} {out : KsOut}

/-
  A request is refused, or it succeeds and writes to its
  destinations only.
-/
def Answers
    (s : KuSpace)
    (x : KsState)
    (r : KsRequest)
    (out : KsOut) : Prop :=
  x.Refused out ∨
    (0 ≤ out.result ∧
      OnlyWrites s x.mem out.mem (destinations r))

/- A request that leaves the memory. -/
theorem Answers.keeping
    (s : KuSpace)
    (r : KsRequest)
    (hResult : 0 ≤ out.result)
    (hMem : out.mem = x.mem) :
    Answers s x r out := by
  refine .inr ⟨hResult, ?_⟩
  rw [hMem]
  exact .refl s x.mem _

/- A request that copies to one range. -/
theorem Answers.copied
    {off length : Nat}
    {src : Buf}
    {mem : PhysMem}
    (hSound : Sound mapped s e)
    (hSpine : s.live = true → Spine s x.mem seen)
    (hResult : 0 ≤ out.result)
    (hRange : destinations r = [(off, length)])
    (hCopy : kuCopyout mapped s x.mem off src length =
      some mem)
    (hMem : out.mem = mem) :
    Answers s x r out := by
  refine .inr ⟨hResult, ?_⟩
  rw [hRange, hMem]
  exact onlyWrites_copyout hSound hSpine hCopy

theorem waitEvent_answers
    (hSound : Sound mapped s e)
    (hSpine : s.live = true → Spine s x.mem seen)
    (hOp : r.op = ksWait) :
    Answers s x r (waitEvent mapped s x r) := by
  rcases waitEvent_cases x r with
    hRefused | ⟨-, mem, hCopy, hOut⟩
  · exact .inl hRefused
  · have hRange : destinations r = [(r.a, eventBytes)] := by
      simp [destinations, hOp]
    rw [hOut]
    exact .copied hSound hSpine (Int.natCast_nonneg _) hRange
      hCopy rfl

theorem fileIo_read_answers
    (hSound : Sound mapped s e)
    (hSpine : s.live = true → Spine s x.mem seen)
    (hOp : r.op = ksRead) :
    Answers s x r (fileIo mapped s x r) := by
  rcases fileIo_read_cases x hOp with
    hRefused | ⟨h, mem, -, -, hCopy, hOut⟩
  · exact .inl hRefused
  · have hRange : destinations r = [(r.b, r.c)] := by
      simp [destinations, hOp, ksWait, ksRead]
    have hCount : readCount (x.service.fileOf h) r.d r.c ≤
        r.c := by
      unfold readCount
      split
      · exact Nat.zero_le _
      · split <;> omega
    rw [hOut]
    refine .inr ⟨Int.natCast_nonneg _, ?_⟩
    rw [hRange]
    exact (onlyWrites_copyout hSound hSpine hCopy).widen
      hCount

theorem delivers_answers
    {off length : Nat}
    (hSound : Sound mapped s e)
    (hSpine : s.live = true → Spine s x.mem seen)
    (hRange : destinations r = [(off, length)])
    (hCases : x.Refused out ∨
      delivers mapped s x off length out) :
    Answers s x r out := by
  rcases hCases with hRefused | ⟨src, mem, hCopy, rfl⟩
  · exact .inl hRefused
  · exact .copied hSound hSpine (Int.natCast_nonneg _) hRange
      hCopy rfl

/- Both ranges of a listing are checked before the copies. -/
theorem list_answers
    (hSound : Sound mapped s e)
    (hSpine : s.live = true → Spine s x.mem seen)
    (hOp : r.op = ksList) :
    Answers s x r (list mapped s x r) := by
  rcases list_cases x r with
    hRefused | ⟨f, mem, -, hCheck, -, hCopy, hOut⟩
  · exact .inl hRefused
  · have hRange : destinations r =
        [(r.b, 40)] ++ [(r.c, 4)] := by
      simp [destinations, hOp, ksWait, ksRead, ksInfo,
        ksClock, ksList]
    have hFirst := onlyWrites_copyout hSound hSpine hCopy
    have hSpine' : s.live = true → Spine s mem seen :=
      fun hLive =>
        (hSpine hLive).userWrite hSound hFirst.other
    have hCheck' := kuCheck_kept hSound hSpine hFirst
      (by decide) (by decide) hCheck
    have hCopy' : kuCopyout mapped s mem r.c
        (words [(x.service.files f).size]) 4 = some _ :=
      if_pos hCheck'
    rw [hOut, hCopy']
    refine .inr ⟨Int.le_refl 0, ?_⟩
    rw [hRange]
    exact hFirst.trans
      (onlyWrites_copyout hSound hSpine' hCopy')

/- The requests that draw leave the memory. -/
theorem draws_answers
    (s : KuSpace)
    (r : KsRequest)
    (hCases : x.Refused out ∨
      ∃ (count : Nat) (service : KsService)
        (sinks : List KsSink),
        out = x.drawn count service sinks) :
    Answers s x r out := by
  rcases hCases with
    hRefused | ⟨count, service, sinks, rfl⟩
  · exact .inl hRefused
  · exact .keeping s r (Int.natCast_nonneg _) rfl

/- So do those that only change the service. -/
theorem accepts_answers
    (s : KuSpace)
    (r : KsRequest)
    (hCases : x.Refused out ∨
      ∃ (result : Nat) (service : KsService),
        out = x.accept result service) :
    Answers s x r out := by
  rcases hCases with hRefused | ⟨result, service, rfl⟩
  · exact .inl hRefused
  · exact .keeping s r (Int.natCast_nonneg _) rfl

theorem fileIo_answers
    (hSound : Sound mapped s e)
    (hSpine : s.live = true → Spine s x.mem seen)
    (hOp : r.op = ksRead ∨ r.op = ksWrite) :
    Answers s x r (fileIo mapped s x r) := by
  rcases hOp with hRead | hWrite
  · exact fileIo_read_answers hSound hSpine hRead
  · refine accepts_answers s r
      ((fileIo_write_cases x hWrite).imp id ?_)
    rintro ⟨h, src, -, -, -, hOut⟩
    exact ⟨_, _, hOut⟩

theorem openFile_answers :
    Answers s x r (openFile mapped s x r) := by
  refine accepts_answers s r
    ((openFile_cases x r).imp id ?_)
  rintro ⟨name, f, h, -, -, -, -, hOut⟩
  exact ⟨x.service.nextHandle + 1, _, hOut⟩

/- Every kind of request writes to its destinations only. -/
theorem perform_answers
    (hSound : Sound mapped s e)
    (hSpine : s.live = true → Spine s x.mem seen) :
    Answers s x r (perform mapped s x r) := by
  have hInfo : r.op = ksInfo →
      destinations r = [(r.a, 16)] := by
    intro hOp
    simp [destinations, hOp, ksWait, ksRead, ksInfo]
  have hClock : r.op = ksClock →
      destinations r = [(r.a, 20)] := by
    intro hOp
    simp [destinations, hOp, ksWait, ksRead, ksInfo, ksClock]
  unfold perform
  refine iteInduction (motive := Answers s x r)
    (fun hOp => waitEvent_answers hSound hSpine
      (eq_of_beq hOp)) fun _ => ?_
  refine iteInduction (motive := Answers s x r)
    (fun _ => accepts_answers s r
      ((complete_cases x r).imp id fun h =>
        ⟨0, _, h.2.2.2⟩)) fun _ => ?_
  refine iteInduction (motive := Answers s x r)
    (fun _ => draws_answers s r
      ((draw_cases x r).imp id fun h => ?_)) fun _ => ?_
  · rcases h with ⟨-, -, -, count, sinks, hOut⟩
    exact ⟨count, _, sinks, hOut⟩
  refine iteInduction (motive := Answers s x r)
    (fun _ => draws_answers s r
      ((text_cases x r).imp id fun h => ?_)) fun _ => ?_
  · rcases h with ⟨-, w, -, -, -, count, sinks, hOut⟩
    exact ⟨count, _, sinks, hOut⟩
  refine iteInduction (motive := Answers s x r)
    (fun _ => draws_answers s r
      ((line_cases x r).imp id fun h => ?_)) fun _ => ?_
  · rcases h with ⟨-, -, count, sinks, hOut⟩
    exact ⟨count, _, sinks, hOut⟩
  refine iteInduction (motive := Answers s x r)
    (fun hOp => list_answers hSound hSpine (eq_of_beq hOp))
    fun _ => ?_
  refine iteInduction (motive := Answers s x r)
    (fun _ => accepts_answers s r
      ((query_cases x r).imp id fun h =>
        ⟨h.choose, _, h.choose_spec⟩)) fun _ => ?_
  refine iteInduction (motive := Answers s x r)
    (fun _ => accepts_answers s r
      ((setStatus_cases x r).imp id fun h =>
        ⟨0, _, h.choose_spec⟩)) fun _ => ?_
  refine iteInduction (motive := Answers s x r)
    (fun hOp => delivers_answers hSound hSpine
      (hInfo (eq_of_beq hOp)) (info_cases x r)) fun _ => ?_
  refine iteInduction (motive := Answers s x r)
    (fun hOp => delivers_answers hSound hSpine
      (hClock (eq_of_beq hOp)) (readClock_cases x r))
    fun _ => ?_
  refine iteInduction (motive := Answers s x r)
    (fun _ => openFile_answers) fun _ => ?_
  refine iteInduction (motive := Answers s x r)
    (fun hOp => fileIo_answers hSound hSpine
      ((Bool.or_eq_true_iff.mp hOp).imp eq_of_beq eq_of_beq))
    fun _ => ?_
  refine iteInduction (motive := Answers s x r)
    (fun _ => accepts_answers s r
      ((closeFile_cases x r).imp id fun h =>
        ⟨0, _, h.choose_spec.2⟩)) fun _ => ?_
  refine iteInduction (motive := Answers s x r)
    (fun _ => accepts_answers s r
      ((deleteFile_cases x r).imp id fun h => ?_))
    fun _ => ?_
  · rcases h with ⟨name, f, -, -, hOut⟩
    exact ⟨0, _, hOut⟩
  exact .inl (x.refused ksUnknown_neg)

end Answers

/-
  Over every space that is reached, and for every service and
  every request, a negative result means that nothing was
  done, and any other that only bytes in the destinations of
  the request were.
-/
theorem ksDispatch_allOrNothing
    {mapped : Nat → Bool}
    {w : KuWorld} {e : KuEnv}
    {past : PhysMem}
    (hReach : KuReach mapped w e past)
    (service : KsService)
    (off size : Nat) :
    ((ksDispatch mapped w.space ⟨service, w.mem⟩ off
        size).result < 0 →
      (ksDispatch mapped w.space ⟨service, w.mem⟩ off
          size).service = service ∧
        (ksDispatch mapped w.space ⟨service, w.mem⟩ off
          size).mem = w.mem ∧
        (ksDispatch mapped w.space ⟨service, w.mem⟩ off
          size).sinks = []) ∧
    (0 ≤ (ksDispatch mapped w.space ⟨service, w.mem⟩ off
        size).result →
      ∃ b, kuCopyin mapped w.space w.mem Buf.zero off
          requestBytes = some b ∧
        OnlyWrites w.space w.mem
          (ksDispatch mapped w.space ⟨service, w.mem⟩ off
            size).mem
          (destinations (KsRequest.ofBuf b))) := by
  have hKept := hReach.keeps
  have hRefused : ∀ out : KsOut,
      KsState.Refused ⟨service, w.mem⟩ out →
        out.result < 0 ∧ out.service = service ∧
          out.mem = w.mem ∧ out.sinks = [] := by
    rintro out ⟨code, hCode, rfl⟩
    exact ⟨hCode, rfl, rfl, rfl⟩
  rcases ksDispatch_cases mapped w.space ⟨service, w.mem⟩ off
    size with hNone | ⟨b, hCopy, hOut⟩
  · have hDone := hRefused _ hNone
    exact ⟨fun _ => hDone.2,
      fun hPos => absurd hDone.1 (not_lt.mpr hPos)⟩
  · rw [hOut]
    rcases @perform_answers mapped w.space e _
      ⟨service, w.mem⟩ (KsRequest.ofBuf b) hKept.sound
      hKept.spine with hNone | ⟨hPos, hWrites⟩
    · have hDone := hRefused _ hNone
      exact ⟨fun _ => hDone.2,
        fun hPos => absurd hDone.1 (not_lt.mpr hPos)⟩
    · exact ⟨fun hNeg => absurd hNeg (not_lt.mpr hPos),
        fun _ => ⟨b, hCopy, hWrites⟩⟩

/- A space that is not pinned serves no request. -/
theorem ksDispatch_allOrNothing_boot :
    ∃ w e, Booted w e ∧
      (ksDispatch allMapped w.space ⟨.zero, w.mem⟩ 0
        requestBytes).mem = w.mem := by
  rcases booted_exists with ⟨w, e, hBooted⟩
  have hDone := ksDispatch_allOrNothing hBooted.reach .zero 0
    requestBytes
  exact ⟨w, e, hBooted, (hDone.1 ksInvalid_neg).2.1⟩

end KvantOS.User
