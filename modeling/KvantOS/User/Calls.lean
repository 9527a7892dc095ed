import KvantOS.User.Loading

/-
  This file puts the calls on an address space in a row:
  between them the kernel changes its own memory, and the
  program the pages that it may write.

  Key definitions include:
    * `KuCall`, `KuReach`, `CallDone`
    * `counting`

  Key theorems include:
    * `KuCall.spec`, `KuReach.keeps`, `KuReach.done`
-/

namespace KvantOS.User

open Paging

--
-- Calls
--

/- The calls on a space, and the loader's. -/
inductive KuCall where
  | create (root : Nat) (arch64 nx : Int)
  | refresh (root : Nat)
  | destroy
  | pin
  | unpin
  | map (off rights : Nat)
  | load (off : Nat) (src : Buf) (length : Nat)
  | copyin (dst : Buf) (off length : Nat)
  | copyout (off : Nat) (src : Buf) (length : Nat)
  | image (root : Nat) (bytes : List UInt8) (arch64 nx : Int)

/- A call makes a space. -/
def KuCall.makes : KuCall → Bool
  | .create .. => true
  | .image .. => true
  | _ => false

/- A call clones the kernel's tables when it succeeds. -/
def KuCall.clones : KuCall → Bool
  | .refresh _ => true
  | c => c.makes

section Model

variable (mapped : Nat → Bool)

/- What is returned for the plan of an image. -/
def KiResult.code : KiResult → Int
  | .ok _ => 0
  | _ => -1

def KuCall.run : KuCall → KuM Int
  | .create root arch64 nx => kuCreate mapped root arch64 nx
  | .refresh root => kuRefresh mapped root
  | .destroy => kuDestroy
  | .pin => kuPin
  | .unpin => kuUnpin
  | .map off rights => kuMap mapped off rights
  | .load off src length => kuLoad mapped off src length
  | .copyin dst off length => do
      let x ← ProgM.state
      if (kuCopyin mapped x.space x.mem dst off
          length).isSome then
        pure 0
      else
        pure (-1)
  | .copyout off src length => do
      let x ← ProgM.state
      match kuCopyout mapped x.space x.mem off src length with
      | none => pure (-1)
      | some mem => do
          ProgM.update (fun x => { x with mem })
          pure 0
  | .image root bytes arch64 nx => do
      let r ← kiLoad mapped root bytes arch64 nx
      pure r.code

end Model

/- The root that a call is given is one of the kernel's. -/
def KuCall.Ready
    (c : KuCall)
    (x : KuWorld)
    (e : KuEnv) : Prop :=
  match c with
  | .create root arch64 _ =>
      KernelRoot (arch64 == 1) x.mem e root
  | .image root _ arch64 _ =>
      KernelRoot (arch64 == 1) x.mem e root
  | _ => True

/-
  The memory when the kernel's tables were cloned last, after
  a call that started in `x`.
-/
def KuCall.past
    (c : KuCall)
    (r : Int)
    (x : KuWorld)
    (past : PhysMem) : PhysMem :=
  if c.clones && r == 0 then x.mem else past

/-
  The states that are reached from a zeroed space, with the
  memory as it was at the last create or refresh.
-/
inductive KuReach
    (mapped : Nat → Bool) :
    KuWorld → KuEnv → PhysMem → Prop
  | start
      (mem : PhysMem)
      (kernel : Nat → Prop) :
      KuReach mapped ⟨.zero, mem⟩ ⟨[], kernel⟩ mem
  | call
      {x x' : KuWorld} {e e' : KuEnv}
      {past : PhysMem}
      {c : KuCall}
      {r : Int}
      (hReach : KuReach mapped x e past)
      (hReady : c.Ready x e)
      (hRun : Prog.Returns kuHandler (c.run mapped x) e
        (r, x') e') :
      KuReach mapped x' e' (c.past r x past)
  | kernel
      {x : KuWorld} {e : KuEnv}
      {past : PhysMem}
      {mem : PhysMem}
      {kernel : Nat → Prop}
      (hReach : KuReach mapped x e past)
      (hOwned : ∀ p, outstanding e.log p →
        mem p = x.mem p ∧ ¬kernel p)
      (hBorrowed : ∀ p ∈ x.space.borrowed, kernel p) :
      KuReach mapped ⟨x.space, mem⟩ ⟨e.log, kernel⟩ past
  | program
      {x : KuWorld} {e : KuEnv}
      {past : PhysMem}
      {mem : PhysMem}
      (hReach : KuReach mapped x e past)
      (hPages : ∀ p, (∀ i < kuPages,
        has (x.space.rights i) kuW = true →
          p ≠ x.space.frames i) → mem p = x.mem p) :
      KuReach mapped ⟨x.space, mem⟩ e past

--
-- What a Call Does
--

/- What every state that is reached satisfies. -/
structure Kept
    (mapped : Nat → Bool)
    (x : KuWorld)
    (e : KuEnv)
    (past : PhysMem) : Prop where
  sound : Sound mapped x.space e
  spine : x.space.live = true → Spine x.space x.mem
    (fun l => past (x.space.lent l))

/- What a call does from a state that is reached. -/
structure CallDone
    (mapped : Nat → Bool)
    (c : KuCall)
    (x : KuWorld)
    (e : KuEnv)
    (past : PhysMem)
    (r : Int)
    (x' : KuWorld)
    (e' : KuEnv) : Prop where
  kept : Kept mapped x' e' (c.past r x past)
  kernel : ∀ p, e.kernel p → x'.mem p = x.mem p
  pinned : x.space.pins ≠ 0 → e' = e
  safe : c ≠ .destroy → ∀ events,
    e'.log = events ++ e.log → ∀ p content,
      .release p content ∈ events → ¬x.space.Owns p
  refused : c.makes = true → x.space.live = true →
    r ≠ 0 ∧ x' = x ∧ e' = e
  failed : c.makes = true → x.space.live = false →
    r ≠ 0 → x'.space = .zero
  ended : c = .destroy → x.space.pins = 0 →
    r = 0 ∧ x'.space = .zero

section Calls

variable {mapped : Nat → Bool} {x x' : KuWorld} {e e' : KuEnv}
variable {past : PhysMem} {c : KuCall} {r : Int}

/- Without events there is no release. -/
theorem safe_refl
    (e : KuEnv)
    (owns : Nat → Prop) :
    ∀ events, e.log = events ++ e.log →
      ∀ p content, .release p content ∈ events → ¬owns p := by
  intro events hLog p content hMem
  rw [List.self_eq_append_left.mp hLog] at hMem
  cases hMem

/- A call that changed neither the space nor the memory. -/
theorem CallDone.unchanged
    (hKept : Kept mapped x e past)
    (hSound : Sound mapped x.space e')
    (hEnv : x.space.pins ≠ 0 → e' = e)
    (hSafe : ∀ events, e'.log = events ++ e.log →
      ∀ p content, .release p content ∈ events →
        ¬x.space.Owns p)
    (hMakes : c.makes = true →
      x.space.live = true ∧ r ≠ 0 ∧ e' = e ∨
        x.space.live = false)
    (hClones : c.clones = true → r ≠ 0)
    (hNot : c ≠ .destroy ∨ x.space.pins ≠ 0) :
    CallDone mapped c x e past r x e' where
  kept := by
    have hPast : c.past r x past = past := by
      unfold KuCall.past
      cases hCase : c.clones with
      | false => rfl
      | true => simp [hClones hCase]
    rw [hPast]
    exact ⟨hSound, hKept.spine⟩
  kernel := fun _ _ => rfl
  pinned := hEnv
  safe := fun _ => hSafe
  refused := by
    intro hCase hLive
    rcases hMakes hCase with ⟨-, hNe, hSame⟩ | hDead
    · exact ⟨hNe, rfl, hSame⟩
    · rw [hLive] at hDead
      cases hDead
  failed := fun _ hDead _ => hKept.sound.dead hDead
  ended := by
    rintro rfl hPins
    exact (hNot.elim (absurd rfl) (absurd hPins))

/- A live space was changed by a call that makes none. -/
theorem CallDone.changed
    (hKept : Kept mapped x' e' (c.past r x past))
    (hMakes : c.makes = false)
    (hNot : c ≠ .destroy)
    (hKernel : ∀ p, e.kernel p → x'.mem p = x.mem p)
    (hPinned : x.space.pins ≠ 0 → e' = e)
    (hSafe : ∀ events, e'.log = events ++ e.log →
      ∀ p content, .release p content ∈ events →
        ¬x.space.Owns p) :
    CallDone mapped c x e past r x' e' where
  kept := hKept
  kernel := hKernel
  pinned := hPinned
  safe := fun _ => hSafe
  refused := by
    rw [hMakes]
    intro hCase
    cases hCase
  failed := by
    rw [hMakes]
    intro hCase
    cases hCase
  ended := fun hCase => absurd hCase hNot

theorem KuCall.makes_false
    (hClones : c.clones = false) :
    c.makes = false := by
  cases c with
  | create => cases hClones
  | image => cases hClones
  | _ => rfl

variable {mem : PhysMem}

/- A call that only wrote to pages of the space. -/
theorem CallDone.wrote
    (hKept : Kept mapped x e past)
    (hLive : x.space.live = true)
    (hCall : c.clones = false ∧ c ≠ .destroy)
    (hSame : ∀ p, (∀ i < kuPages,
      x.space.frames i ≠ 0 → p ≠ x.space.frames i) →
        mem p = x.mem p) :
    CallDone mapped c x e past r ⟨x.space, mem⟩ e := by
  have hMakes := KuCall.makes_false hCall.1
  have hPast : c.past r x past = past := by
    simp [KuCall.past, hCall.1]
  refine .changed ?_ hMakes hCall.2 ?_ (fun _ => rfl)
    (safe_refl e _)
  · rw [hPast]
    exact ⟨hKept.sound, fun _ =>
      (hKept.spine hLive).userWrite hKept.sound hSame⟩
  · intro p hKernel
    apply hSame
    rintro i hi hUsed rfl
    exact hKept.sound.kernel _ (.inr ⟨i, hi, rfl, hUsed⟩)
      hKernel

/- A space with another count of pins is the same space. -/
theorem CallDone.repinned
    {n : Nat}
    (hKept : Kept mapped x e past)
    (hLive : x.space.live = true)
    (hCall : c.clones = false ∧ c ≠ .destroy) :
    CallDone mapped c x e past r
      ⟨{ x.space with pins := n }, x.mem⟩ e := by
  have hMakes := KuCall.makes_false hCall.1
  have hPast : c.past r x past = past := by
    simp [KuCall.past, hCall.1]
  refine .changed ?_ hMakes hCall.2 (fun _ _ => rfl)
    (fun _ => rfl) (safe_refl e _)
  rw [hPast]
  refine ⟨{ hKept.sound with dead := ?_ },
    fun _ => { hKept.spine hLive with }⟩
  intro hDead
  rw [hLive] at hDead
  cases hDead

--
-- One Lemma a Call
--

/- A call on a space that is zero leaves it or makes one. -/
theorem CallDone.made
    (hKept : Kept mapped x e past)
    (hMakes : c.makes = true)
    (hDead : x.space.live = false)
    (hDone : Kept mapped x' e' (c.past r x past))
    (hKernel : ∀ p, e.kernel p → x'.mem p = x.mem p)
    (hFailed : r ≠ 0 → x'.space = .zero) :
    CallDone mapped c x e past r x' e' where
  kept := hDone
  kernel := hKernel
  pinned := by
    intro hPins
    rw [hKept.sound.dead hDead] at hPins
    exact absurd rfl hPins
  safe := by
    intro _ events _ p _ _
    rw [hKept.sound.dead hDead]
    exact not_owns_zero p
  refused := by
    intro _ hLive
    rw [hLive] at hDead
    cases hDead
  failed := fun _ _ => hFailed
  ended := by
    rintro rfl
    cases hMakes

variable {root : Nat}

variable {arch64 nx : Int}

theorem spec_create
    (hKept : Kept mapped x e past)
    (hReady : KernelRoot (arch64 == 1) x.mem e root) :
    (kuCreate mapped root arch64 nx).Spec
      (CallDone mapped (.create root arch64 nx) x e past)
      x e := by
  cases hLive : x.space.live with
  | true =>
      refine (spec_kuCreate_refused (.inl hLive)).weaken ?_
      rintro r _ _ ⟨rfl, rfl, rfl⟩
      refine .unchanged hKept hKept.sound (fun _ => rfl)
        (safe_refl _ _)
        (fun _ => .inl ⟨hLive, by decide, rfl⟩)
        (fun _ => by decide) (.inl KuCall.noConfusion)
  | false =>
      by_cases hArgs : createArgs arch64 nx
      · refine (spec_kuCreate hKept.sound hLive hArgs
          hReady).weaken ?_
        intro r x' e' hCreated
        refine .made hKept rfl hLive
          ⟨hCreated.sound, ?_⟩ hCreated.kept
          fun hNe => hCreated.failed
            (hCreated.result.resolve_left hNe)
        intro hAlive
        rcases hCreated.result with rfl | hFailed
        · rcases hCreated.done rfl with ⟨ps, -, hSpine⟩
          exact hSpine
        · rw [hCreated.failed hFailed] at hAlive
          cases hAlive
      · refine (spec_kuCreate_refused (.inr hArgs)).weaken ?_
        rintro r _ _ ⟨rfl, rfl, rfl⟩
        refine .unchanged hKept hKept.sound (fun _ => rfl)
          (safe_refl _ _)
          (fun _ => .inr hLive) (fun _ => by decide)
          (.inl KuCall.noConfusion)

theorem spec_image
    {bytes : List UInt8}
    (hKept : Kept mapped x e past)
    (hReady : KernelRoot (arch64 == 1) x.mem e root) :
    ((KuCall.image root bytes arch64 nx).run mapped).Spec
      (CallDone mapped (.image root bytes arch64 nx) x e past)
      x e := by
  unfold KuCall.run
  cases hLive : x.space.live with
  | true =>
      refine KuM.Spec.seq (spec_kiLoad_live hLive) ?_
      rintro _ _ _ ⟨rfl, rfl, rfl⟩
      refine spec_pure (.unchanged hKept hKept.sound
        (fun _ => rfl) (safe_refl _ _)
        (fun _ => .inl ⟨hLive, by decide, rfl⟩)
        (fun _ => by decide) (.inl KuCall.noConfusion))
  | false =>
      refine KuM.Spec.seq
        (spec_kiLoad hKept.sound hLive hReady) ?_
      intro r x' e' hLoaded
      refine spec_pure (.made hKept rfl hLive
        ⟨hLoaded.sound, ?_⟩ hLoaded.kept ?_)
      · intro hAlive
        cases r with
        | fault => exact absurd rfl hLoaded.inside
        | failed =>
            rw [hLoaded.failed rfl] at hAlive
            cases hAlive
        | ok p => exact (hLoaded.done p rfl).2.spine
      · intro hNe
        cases r with
        | fault => exact absurd rfl hLoaded.inside
        | failed => exact hLoaded.failed rfl
        | ok p => exact absurd rfl hNe

theorem spec_destroy
    (hKept : Kept mapped x e past) :
    kuDestroy.Spec
      (CallDone mapped .destroy x e past) x e := by
  by_cases hPins : x.space.pins = 0
  · cases hLive : x.space.live with
    | true =>
        refine (spec_kuDestroy hKept.sound hPins
          hLive).weaken ?_
        rintro r x' e' ⟨rfl, hSpace, hZero, -, hMem⟩
        refine ⟨⟨?_, ?_⟩, ?_, absurd hPins, absurd rfl,
          ?_, ?_, fun _ _ => ⟨rfl, hSpace⟩⟩
        · rw [hSpace]
          exact hZero
        · intro hAlive
          rw [hSpace] at hAlive
          cases hAlive
        · intro p hKernel
          exact hMem p fun hOwns =>
            hKept.sound.kernel p hOwns hKernel
        · intro hCase
          cases hCase
        · intro hCase
          cases hCase
    | false =>
        have hZero := hKept.sound.dead hLive
        unfold kuDestroy
        refine spec_state (spec_ite ?_ fun _ =>
          spec_ite (fun _ => spec_pure ?_) ?_)
        · intro hPinned
          rw [hPins] at hPinned
          cases hPinned
        · refine ⟨hKept, fun _ _ => rfl, fun _ => rfl,
            absurd rfl, ?_, ?_, fun _ _ => ⟨rfl, hZero⟩⟩
          · intro hCase
            cases hCase
          · intro hCase
            cases hCase
        · intro hAlive
          rw [hLive] at hAlive
          exact absurd rfl hAlive
  · unfold kuDestroy
    refine spec_state (spec_ite (fun _ => spec_pure ?_) ?_)
    · exact .unchanged hKept hKept.sound (fun _ => rfl)
        (safe_refl _ _)
        (fun hCase => by cases hCase)
        (fun hCase => by cases hCase) (.inr hPins)
    · intro hNot
      exact absurd (by simpa using hNot) hPins

/- Nothing was done, by a call that makes no space. -/
theorem CallDone.nothing
    (hKept : Kept mapped x e past)
    (hMakes : c.makes = false)
    (hClones : c.clones = true → r ≠ 0)
    (hNot : c ≠ .destroy) :
    CallDone mapped c x e past r x e := by
  refine .unchanged hKept hKept.sound (fun _ => rfl)
    (safe_refl _ _) ?_ hClones (.inl hNot)
  intro hCase
  rw [hMakes] at hCase
  cases hCase

theorem spec_refresh
    (hKept : Kept mapped x e past) :
    (kuRefresh mapped root).Spec
      (CallDone mapped (.refresh root) x e past) x e := by
  cases hLive : x.space.live with
  | true =>
      refine (spec_kuRefresh hKept.sound
        (hKept.spine hLive)).weaken ?_
      rintro r x' e' ⟨rfl, ⟨rfl, rfl⟩ | ⟨rfl, hDone⟩⟩
      · exact .nothing hKept rfl (fun _ => by decide)
          KuCall.noConfusion
      · have hSpace : x'.space = x.space := hDone.space
        refine .changed ⟨?_, fun _ => ?_⟩ rfl
          KuCall.noConfusion ?_ (fun _ => rfl) ?_
        · rw [hSpace]
          exact hKept.sound
        · have hSpine := hDone.spine
          rw [← hSpace] at hSpine
          exact hSpine
        · intro p hKernel
          apply hDone.kept
          intro hMem
          exact hKept.sound.kernel p (.inl hMem) hKernel
        · exact safe_refl _ _
  | false =>
      unfold kuRefresh
      refine spec_state (spec_ite (fun _ => spec_pure ?_) ?_)
      · exact .nothing hKept rfl (fun _ => by decide)
          KuCall.noConfusion
      · intro hAlive
        simp [hLive] at hAlive

theorem spec_pin
    (hKept : Kept mapped x e past) :
    kuPin.Spec (CallDone mapped .pin x e past) x e := by
  unfold kuPin
  refine spec_state (spec_ite (fun _ => spec_pure ?_) ?_)
  · exact .nothing hKept rfl (fun hCase => by cases hCase)
      KuCall.noConfusion
  · intro hLive
    have hLive : x.space.live = true := by
      by_contra hDead
      simp [hDead] at hLive
    exact spec_setSpace (spec_pure
      (.repinned hKept hLive ⟨rfl, KuCall.noConfusion⟩))

theorem spec_unpin
    (hKept : Kept mapped x e past) :
    kuUnpin.Spec (CallDone mapped .unpin x e past) x e := by
  unfold kuUnpin
  refine spec_state (spec_ite (fun _ => spec_pure ?_) ?_)
  · exact .nothing hKept rfl (fun hCase => by cases hCase)
      KuCall.noConfusion
  · intro hLive
    have hLive : x.space.live = true := by
      by_contra hDead
      simp [hDead] at hLive
    exact spec_setSpace (spec_pure
      (.repinned hKept hLive ⟨rfl, KuCall.noConfusion⟩))

/- A frame that went back was none of the space's. -/
theorem Sound.denied_safe
    {s : KuSpace}
    (hSound : Sound mapped s e)
    (hDenied : Denied mapped e e') :
    ∀ events, e'.log = events ++ e.log →
      ∀ p content, .release p content ∈ events →
        ¬s.Owns p := by
  intro events hLog p content hMem
  cases hDenied with
  | none =>
      have hLog : [.alloc 0] ++ e.log = events ++ e.log :=
        hLog
      rw [← List.append_cancel_right hLog] at hMem
      simp at hMem
  | @useless q content' hFresh hNe hUseless =>
      have hLog : [.release q content', .alloc q] ++ e.log =
          events ++ e.log :=
        hLog
      rw [← List.append_cancel_right hLog] at hMem
      simp only [List.mem_cons, KuEvent.release.injEq,
        reduceCtorEq, List.not_mem_nil, or_false] at hMem
      rw [hMem.1]
      exact fun hOwns => hFresh.1 ((hSound.owned q).mpr hOwns)

theorem spec_map
    {off rights : Nat}
    (hKept : Kept mapped x e past) :
    (kuMap mapped off rights).Spec
      (CallDone mapped (.map off rights) x e past) x e := by
  refine (spec_kuMap hKept.sound ?_).weaken ?_
  · intro hLive
    rw [(hKept.spine hLive).tables]
    omega
  · rintro r x' e' (⟨rfl, rfl, ⟨-, rfl⟩ | ⟨hArgs, hDenied⟩⟩ |
      ⟨rfl, hArgs, p, hMapped⟩)
    · exact .nothing hKept rfl (fun hCase => by cases hCase)
        KuCall.noConfusion
    · exact .unchanged hKept (hKept.sound.denied hDenied)
        (absurd hArgs.2.1) (hKept.sound.denied_safe hDenied)
        (fun hCase => by cases hCase)
        (fun hCase => by cases hCase)
        (.inl KuCall.noConfusion)
    · have hSpine :=
        hMapped.spine _ (hKept.spine hArgs.1)
      have hLent : x'.space.lent = x.space.lent := by
        rw [hMapped.space]
        rfl
      rw [← hLent] at hSpine
      refine .changed ⟨hMapped.sound, fun _ => hSpine⟩ rfl
        KuCall.noConfusion ?_ (absurd hArgs.2.1) ?_
      · intro q hKernel
        apply hMapped.kept
        · rintro rfl
          exact hMapped.granted.foreign hKernel
        · intro hMem
          exact hKept.sound.kernel q (.inl hMem) hKernel
      · intro events hLog q content hMem
        rw [hMapped.env] at hLog
        have hLog : [.take p Buf.zero, .alloc p] ++ e.log =
            events ++ e.log :=
          hLog
        rw [← List.append_cancel_right hLog] at hMem
        simp at hMem

variable {src : Buf}

/- What is checked with the rights to read is written. -/
theorem CallDone.copied
    {off length rights : Nat}
    (hKept : Kept mapped x e past)
    (hRights : rights ≠ 0)
    (hMask : rights &&& 0xFFFFFFF8 = 0)
    (hCheck : kuCheck mapped x.space x.mem off length
      rights = true)
    (hCall : c.clones = false ∧ c ≠ .destroy) :
    CallDone mapped c x e past r
      ⟨x.space, copyTo x.space length off length src x.mem⟩
      e := by
  have hLive := kuCheck_live hCheck
  refine .wrote hKept hLive hCall ?_
  intro p hForeign
  exact kuCheck_copyTo (hKept.spine hLive) hKept.sound
    hRights hMask hCheck hForeign

variable {off length : Nat}

theorem spec_loadCall
    (hKept : Kept mapped x e past) :
    (kuLoad mapped off src length).Spec
      (CallDone mapped (.load off src length) x e past)
      x e := by
  unfold kuLoad
  refine spec_state (spec_ite (fun _ => spec_pure ?_) ?_)
  · exact .nothing hKept rfl (fun hCase => by cases hCase)
      KuCall.noConfusion
  · intro hCheck
    simp only [Bool.or_eq_true, Bool.not_eq_true', not_or,
      Bool.not_eq_false] at hCheck
    exact ⟨trivial, .copied hKept (by decide) (by decide)
      hCheck.2 ⟨rfl, KuCall.noConfusion⟩⟩

theorem spec_copyin
    {dst : Buf}
    (hKept : Kept mapped x e past) :
    ((KuCall.copyin dst off length).run mapped).Spec
      (CallDone mapped (.copyin dst off length) x e past)
      x e := by
  have hNothing : ∀ r, CallDone mapped
      (.copyin dst off length) x e past r x e :=
    fun _ => .nothing hKept rfl (fun hCase => by cases hCase)
      KuCall.noConfusion
  unfold KuCall.run
  exact spec_state (spec_ite
    (fun _ => spec_pure (hNothing 0))
    (fun _ => spec_pure (hNothing (-1))))

theorem spec_copyout
    (hKept : Kept mapped x e past) :
    ((KuCall.copyout off src length).run mapped).Spec
      (CallDone mapped (.copyout off src length) x e past)
      x e := by
  unfold KuCall.run
  refine spec_state ?_
  by_cases hCheck : kuCheck mapped x.space x.mem off length
      (kuR ||| kuW) = true
  · rw [kuCopyout, if_pos hCheck]
    exact ⟨trivial, .copied hKept (by decide) (by decide)
      hCheck ⟨rfl, KuCall.noConfusion⟩⟩
  · rw [kuCopyout, if_neg hCheck]
    exact spec_pure (.nothing hKept rfl
      (fun hCase => by cases hCase) KuCall.noConfusion)

/- Every call keeps what the states before it satisfied. -/
theorem KuCall.spec
    (c : KuCall)
    (hKept : Kept mapped x e past)
    (hReady : c.Ready x e) :
    (c.run mapped).Spec (CallDone mapped c x e past) x e := by
  cases c with
  | create root arch64 nx => exact spec_create hKept hReady
  | refresh root => exact spec_refresh hKept
  | destroy => exact spec_destroy hKept
  | pin => exact spec_pin hKept
  | unpin => exact spec_unpin hKept
  | map off rights => exact spec_map hKept
  | load off src length => exact spec_loadCall hKept
  | copyin dst off length => exact spec_copyin hKept
  | copyout off src length => exact spec_copyout hKept
  | image root bytes arch64 nx =>
      exact spec_image hKept hReady

--
-- Runs
--

/- The kernel changes nothing of a space. -/
theorem Kept.kernel
    {mem : PhysMem}
    {kernel : Nat → Prop}
    (hKept : Kept mapped x e past)
    (hOwned : ∀ p, outstanding e.log p →
      mem p = x.mem p ∧ ¬kernel p)
    (hBorrowed : ∀ p ∈ x.space.borrowed, kernel p) :
    Kept mapped ⟨x.space, mem⟩ ⟨e.log, kernel⟩ past where
  sound :=
    { hKept.sound with
      borrowed := hBorrowed
      kernel := fun p hOwns =>
        (hOwned p ((hKept.sound.owned p).mpr hOwns)).2 }
  spine := by
    intro hLive
    refine (hKept.spine hLive).tablesKept ?_
    intro p hMem
    exact (hOwned p ((hKept.sound.owned p).mpr (.inl hMem))).1

/- A program changes none of its tables. -/
theorem Kept.program
    (hKept : Kept mapped x e past)
    (hPages : ∀ p, (∀ i < kuPages,
      has (x.space.rights i) kuW = true →
        p ≠ x.space.frames i) → mem p = x.mem p) :
    Kept mapped ⟨x.space, mem⟩ e past where
  sound := hKept.sound
  spine := by
    intro hLive
    refine (hKept.spine hLive).tablesKept ?_
    intro p hMem
    apply hPages
    rintro i hi - rfl
    exact hKept.sound.apart i hi hMem

theorem KuReach.keeps
    (hReach : KuReach mapped x e past) :
    Kept mapped x e past := by
  induction hReach with
  | start mem kernel =>
      refine ⟨sound_zero ⟨trivial, fun _ => Iff.rfl⟩, ?_⟩
      intro hLive
      cases hLive
  | call hReach hReady hRun ih =>
      exact (ProgM.Spec.returns (KuCall.spec _ ih hReady)
        hRun).kept
  | kernel hReach hOwned hBorrowed ih =>
      exact ih.kernel hOwned hBorrowed
  | program hReach hPages ih => exact ih.program hPages

/- The kernel may change all but the frames of the space. -/
theorem KuReach.changed
    (hReach : KuReach mapped x e past)
    (hOwned : ∀ p, ¬e.kernel p → mem p = x.mem p) :
    KuReach mapped ⟨x.space, mem⟩ e past := by
  have hSound := hReach.keeps.sound
  refine .kernel hReach ?_ hSound.borrowed
  intro p hOut
  have hForeign :=
    hSound.kernel p ((hSound.owned p).mp hOut)
  exact ⟨hOwned p hForeign, hForeign⟩

/- What a call does in any state that is reached. -/
theorem KuReach.done
    (hReach : KuReach mapped x e past)
    (hReady : c.Ready x e)
    (hRun : Prog.Returns kuHandler (c.run mapped x) e
      (r, x') e') :
    CallDone mapped c x e past r x' e' :=
  ProgM.Spec.returns (c.spec hReach.keeps hReady) hRun

end Calls

--
-- What Runs Add to the History
--

/- Some events were added, with no frame of the kernel's. -/
structure Grew
    (events : List KuEvent)
    (e e' : KuEnv) : Prop where
  kernel : e'.kernel = e.kernel
  log : e'.log = events ++ e.log
  foreign : ∀ p, .alloc p ∈ events → p = 0 ∨ ¬e.kernel p

section Histories

variable {e e' : KuEnv}

theorem grew_step
    {command : KuCmd}
    {reply : command.Reply}
    (hStep : kuHandler command e reply e') :
    ∃ event, Grew [event] e e' := by
  cases command with
  | alloc =>
      rcases hStep with ⟨hFresh, rfl⟩
      refine ⟨.alloc reply, rfl, rfl, ?_⟩
      intro p hMem
      cases List.mem_singleton.mp hMem
      exact hFresh.imp id And.right
  | take q content =>
      cases hStep
      refine ⟨.take q content, rfl, rfl, ?_⟩
      intro p hMem
      cases List.mem_singleton.mp hMem
  | release q content =>
      cases hStep
      refine ⟨.release q content, rfl, rfl, ?_⟩
      intro p hMem
      cases List.mem_singleton.mp hMem

theorem Grew.trans
    {first rest : List KuEvent}
    {e'' : KuEnv}
    (hFirst : Grew first e e')
    (hRest : Grew rest e' e'') :
    Grew (rest ++ first) e e'' where
  kernel := hRest.kernel.trans hFirst.kernel
  log := by
    rw [hRest.log, hFirst.log, List.append_assoc]
  foreign := by
    intro p hMem
    rcases List.mem_append.mp hMem with hLate | hEarly
    · rw [← hFirst.kernel]
      exact hRest.foreign p hLate
    · exact hFirst.foreign p hEarly

theorem grew_steps
    {α : Type}
    {program rest : Prog KuCmd KuCmd.Reply α}
    (hSteps : Prog.Steps kuHandler program e rest e') :
    ∃ events, Grew events e e' := by
  induction hSteps with
  | refl =>
      exact ⟨[], rfl, rfl, fun _ hMem => by cases hMem⟩
  | step hCommand hNext ih =>
      rcases grew_step hCommand with ⟨event, hFirst⟩
      rcases ih with ⟨events, hRest⟩
      exact ⟨_, hFirst.trans hRest⟩

variable {events log : List KuEvent} {kernel : Nat → Prop}
variable {p : Nat}

/- What is outstanding is never one of the kernel's. -/
theorem outstanding_foreign
    (hEvents : ∀ p, .alloc p ∈ events → p = 0 ∨ ¬kernel p)
    (hLog : ∀ p, outstanding log p → ¬kernel p)
    (hOut : outstanding (events ++ log) p) :
    ¬kernel p := by
  induction events with
  | nil => exact hLog p hOut
  | cons event events ih =>
      have hRest := ih fun q hMem =>
        hEvents q (List.mem_cons_of_mem _ hMem)
      cases event with
      | alloc q =>
          rcases hOut with ⟨rfl, hNe⟩ | hOld
          · exact (hEvents q List.mem_cons_self).resolve_left
              hNe
          · exact hRest hOld
      | take q content => exact hRest hOut
      | release q content => exact hRest hOut.2

/- So what goes back is never one of the kernel's. -/
theorem released_foreign
    (hLawful : LogLawful (events ++ log))
    (hEvents : ∀ p, .alloc p ∈ events → p = 0 ∨ ¬kernel p)
    (hLog : ∀ p, outstanding log p → ¬kernel p)
    {content : Buf}
    (hMem : .release p content ∈ events) :
    ¬kernel p := by
  induction events with
  | nil => cases hMem
  | cons event events ih =>
      have hEvents' : ∀ q, .alloc q ∈ events →
          q = 0 ∨ ¬kernel q :=
        fun q hIn => hEvents q (List.mem_cons_of_mem _ hIn)
      have hRest : LogLawful (events ++ log) := by
        cases event with
        | alloc q => exact hLawful.2
        | take q content => exact hLawful.2.2.2
        | release q content => exact hLawful.2.2
      rcases List.mem_cons.mp hMem with rfl | hIn
      · exact outstanding_foreign hEvents' hLog hLawful.1
      · exact ih hRest hEvents' hIn

end Histories

--
-- An Allocator
--

/- The frame after all that the history is long. -/
def nextFrame (log : List KuEvent) : Nat :=
  0x10000 + 4096 * log.length

/- An allocator that never hands out a frame again. -/
def counting :
    (command : KuCmd) → KuEnv → command.Reply × KuEnv
  | .alloc, e =>
      (nextFrame e.log, e.push (.alloc (nextFrame e.log)))
  | .take p content, e => ((), e.push (.take p content))
  | .release p content, e =>
      ((), e.push (.release p content))

/- What is in use lies below the next frame. -/
def BelowNext (e : KuEnv) : Prop :=
  ∀ p, outstanding e.log p ∨ e.kernel p →
    p < nextFrame e.log

theorem nextFrame_push
    (e : KuEnv)
    (event : KuEvent) :
    nextFrame (e.push event).log =
      nextFrame e.log + 4096 := by
  simp only [nextFrame, KuEnv.push, List.length_cons]
  omega

theorem belowNext_push
    {e : KuEnv}
    {event : KuEvent}
    (hBelow : BelowNext e)
    (hEvent : ∀ p, outstanding (event :: e.log) p →
      outstanding e.log p ∨ p = nextFrame e.log) :
    BelowNext (e.push event) := by
  intro p hUsed
  rw [nextFrame_push]
  rcases hUsed with hOut | hKernel
  · rcases hEvent p hOut with hOld | rfl
    · have hLt := hBelow p (.inl hOld)
      omega
    · omega
  · have hLt := hBelow p (.inr hKernel)
    omega

/- The counting allocator is one that the calls expect. -/
theorem counting_step
    (command : KuCmd)
    {e : KuEnv}
    (hBelow : BelowNext e) :
    kuHandler command e (counting command e).1
        (counting command e).2 ∧
      BelowNext (counting command e).2 := by
  cases command with
  | alloc =>
      refine ⟨⟨.inr ⟨?_, ?_⟩, rfl⟩,
        belowNext_push hBelow ?_⟩
      · exact fun hOut =>
          Nat.lt_irrefl _ (hBelow _ (.inl hOut))
      · exact fun hKernel =>
          Nat.lt_irrefl _ (hBelow _ (.inr hKernel))
      · rintro p (⟨hSame, -⟩ | hOut)
        · exact .inr hSame.symm
        · exact .inl hOut
  | take q content =>
      exact ⟨rfl, belowNext_push hBelow fun _ => .inl⟩
  | release q content =>
      exact ⟨rfl, belowNext_push hBelow
        fun _ hOut => .inl hOut.2⟩

theorem returns_counting
    {α : Type}
    (program : Prog KuCmd KuCmd.Reply α)
    {e : KuEnv}
    (hBelow : BelowNext e) :
    Prog.Returns kuHandler program e
        (program.run counting e).1
        (program.run counting e).2 ∧
      BelowNext (program.run counting e).2 := by
  induction program generalizing e with
  | ret value => exact ⟨.refl _ _, hBelow⟩
  | step command next ih =>
      rcases counting_step command hBelow with
        ⟨hStep, hNext⟩
      rcases ih _ hNext with ⟨hRest, hEnd⟩
      exact ⟨.step hStep hRest, hEnd⟩

/- A call with the counting allocator. -/
def counted
    {α : Type}
    (m : KuM α)
    (x : KuWorld)
    (e : KuEnv) : (α × KuWorld) × KuEnv :=
  (m x).run counting e

theorem returns_counted
    {α : Type}
    (m : KuM α)
    (x : KuWorld)
    {e : KuEnv}
    (hBelow : BelowNext e) :
    Prog.Returns kuHandler (m x) e
        ((counted m x e).1.1, (counted m x e).1.2)
        (counted m x e).2 ∧
      BelowNext (counted m x e).2 :=
  returns_counting _ hBelow

end KvantOS.User
