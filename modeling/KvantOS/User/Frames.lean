import KvantOS.User.Space

/-
  This file follows the frames of an address space through
  their history: the allocator hands them out, the space
  takes them for tables and pages, and they go back.

  Key definitions include:
    * `outstanding`, `taken`, `LogLawful`
    * `KuEnv`, `kuHandler`, `KuM.Spec`
    * `Sound`, `Ran`

  Key theorems include:
    * `spec_newFrame`, `spec_addTables`, `spec_kuDestroy`
-/

namespace KvantOS.User

open Paging

--
-- Histories
--

/- The frames that were handed out and not given back. -/
def outstanding : List KuEvent → Nat → Prop
  | [], _ => False
  | .alloc q :: log, p => (q = p ∧ p ≠ 0) ∨ outstanding log p
  | .take _ _ :: log, p => outstanding log p
  | .release q _ :: log, p => q ≠ p ∧ outstanding log p

/- The frames that were taken since they were handed out. -/
def taken : List KuEvent → Nat → Prop
  | [], _ => False
  | .alloc q :: log, p => q ≠ p ∧ taken log p
  | .take q _ :: log, p => q = p ∨ taken log p
  | .release q _ :: log, p => q ≠ p ∧ taken log p

/-
  No frame is handed out twice, a frame is zero when it is
  taken, and each goes back once, zero again if it was
  taken.
-/
def LogLawful : List KuEvent → Prop
  | [] => True
  | .alloc p :: log =>
      ¬outstanding log p ∧ LogLawful log
  | .take p content :: log =>
      outstanding log p ∧ ¬taken log p ∧
        content = Buf.zero ∧ LogLawful log
  | .release p content :: log =>
      outstanding log p ∧
        (taken log p → content = Buf.zero) ∧ LogLawful log

/- What the calls on a space work with. -/
structure KuEnv where
  log : List KuEvent
  kernel : Nat → Prop

def KuEnv.push
    (e : KuEnv)
    (event : KuEvent) : KuEnv :=
  { e with log := event :: e.log }

/-
  The allocator fails, or finds a frame that it has not
  handed out and that is not one of the kernel's own.
-/
def KuEnv.fresh
    (e : KuEnv)
    (p : Nat) : Prop :=
  p = 0 ∨ (¬outstanding e.log p ∧ ¬e.kernel p)

def kuHandler : Handler KuCmd KuCmd.Reply KuEnv
  | .alloc, e, (p : Nat), e' =>
      e.fresh p ∧ e' = e.push (.alloc p)
  | .take p content, e, _, e' =>
      e' = e.push (.take p content)
  | .release p content, e, _, e' =>
      e' = e.push (.release p content)

/- What every completed run of a call ends in. -/
def KuM.Spec
    {α : Type}
    (m : KuM α)
    (post : α → KuWorld → KuEnv → Prop)
    (x : KuWorld)
    (e : KuEnv) : Prop :=
  ProgM.Spec kuHandler (fun _ => True) m post x e

section Rules

variable {α β : Type} {post : β → KuWorld → KuEnv → Prop}
variable {x : KuWorld} {e : KuEnv}

theorem KuM.Spec.seq
    {m : KuM α}
    {f : α → KuM β}
    {mid : α → KuWorld → KuEnv → Prop}
    (hFirst : m.Spec mid x e)
    (hSecond : ∀ a x e, mid a x e → (f a).Spec post x e) :
    KuM.Spec (m >>= f) post x e :=
  ProgM.Spec.seq hFirst hSecond

theorem KuM.Spec.weaken
    {m : KuM β}
    {post' : β → KuWorld → KuEnv → Prop}
    (hSpec : m.Spec post' x e)
    (hPost : ∀ a x e, post' a x e → post a x e) :
    m.Spec post x e :=
  ProgM.Spec.consequence hSpec (fun _ _ => trivial)
    (fun a x e _ h => hPost a x e h)

theorem spec_pure
    {value : β}
    (hPost : post value x e) :
    KuM.Spec (pure value) post x e :=
  ProgM.spec_pure trivial hPost

theorem spec_state
    {f : KuWorld → KuM β}
    (hNext : (f x).Spec post x e) :
    KuM.Spec (ProgM.state >>= f) post x e :=
  hNext

theorem spec_ite
    {c : Prop} [Decidable c]
    {m m' : KuM β}
    (hThen : c → m.Spec post x e)
    (hElse : ¬c → m'.Spec post x e) :
    KuM.Spec (if c then m else m') post x e :=
  ProgM.spec_ite hThen hElse

theorem spec_alloc
    {f : Nat → KuM β}
    (hNext : ∀ p, e.fresh p →
      (f p).Spec post x (e.push (.alloc p))) :
    KuM.Spec (KuM.alloc >>= f) post x e := by
  refine ProgM.spec_perform trivial ?_
  rintro p e' ⟨hFresh, rfl⟩
  exact hNext p hFresh

variable {p : Nat}

theorem spec_release
    {f : Unit → KuM β}
    (hNext : (f ()).Spec post x
      (e.push (.release p (x.mem p)))) :
    KuM.Spec (KuM.release p >>= f) post x e := by
  refine ⟨trivial, ?_⟩
  rintro reply e' rfl
  exact hNext

theorem spec_take
    {f : Unit → KuM β}
    (hNext : (f ()).Spec post x
      (e.push (.take p (x.mem p)))) :
    KuM.Spec (KuM.take p >>= f) post x e := by
  refine ⟨trivial, ?_⟩
  rintro reply e' rfl
  exact hNext

theorem spec_setSpace
    {change : KuSpace → KuSpace}
    {f : Unit → KuM β}
    (hNext : (f ()).Spec post
      { x with space := change x.space } e) :
    KuM.Spec (KuM.setSpace change >>= f) post x e :=
  hNext

/- Memory with one frame changed. -/
def storeIn
    (mem : PhysMem)
    (p : Nat)
    (change : Buf → Buf) : PhysMem :=
  Function.update mem p (change (mem p))

theorem spec_store
    {change : Buf → Buf}
    {f : Unit → KuM β}
    (hNext : (f ()).Spec post
      { x with mem := storeIn x.mem p change } e) :
    KuM.Spec (KuM.store p change >>= f) post x e :=
  hNext

end Rules

--
-- Sound Spaces
--

/- The frame is a table or a page of the space. -/
def KuSpace.Owns
    (s : KuSpace)
    (p : Nat) : Prop :=
  p ∈ s.tables ∨ ∃ i < kuPages, s.frames i = p ∧ p ≠ 0

theorem KuSpace.holds_iff
    (s : KuSpace)
    (p : Nat) :
    s.holds p = true ↔ ∃ i < kuPages, s.frames i = p := by
  unfold KuSpace.holds
  rw [List.any_eq_true]
  constructor
  · rintro ⟨i, hIn, hSame⟩
    exact ⟨i, List.mem_range.mp hIn, eq_of_beq hSame⟩
  · rintro ⟨i, hIn, hSame⟩
    exact ⟨i, List.mem_range.mpr hIn, beq_iff_eq.mpr hSame⟩

/-
  The space agrees with the history of frames: it owns what
  is outstanding, each frame for one purpose, and nothing of
  the kernel's. A space that is not live is zero.
-/
structure Sound
    (mapped : Nat → Bool)
    (s : KuSpace)
    (e : KuEnv) : Prop where
  lawful : LogLawful e.log
  owned : ∀ p, outstanding e.log p ↔ s.Owns p
  used : ∀ p, s.Owns p → taken e.log p
  usable : ∀ p, s.Owns p → direct mapped p = true
  tables : s.tables.Nodup
  pages : ∀ i < kuPages, ∀ j < kuPages,
    s.frames i ≠ 0 → s.frames i = s.frames j → i = j
  apart : ∀ i < kuPages, s.frames i ∉ s.tables
  borrowed : ∀ p ∈ s.borrowed, e.kernel p
  kernel : ∀ p, s.Owns p → ¬e.kernel p
  dead : s.live = false → s = .zero

theorem direct_ne_zero
    {mapped : Nat → Bool}
    {p : Nat}
    (hDirect : direct mapped p = true) :
    p ≠ 0 := by
  rintro rfl
  simp [direct, validFrame] at hDirect

theorem direct_aligned
    {mapped : Nat → Bool}
    {p : Nat}
    (hDirect : direct mapped p = true) :
    4096 ∣ p ∧ p < kuDirectLimit := by
  simp only [direct, validFrame, Bool.and_eq_true,
    beq_iff_eq, decide_eq_true_eq] at hDirect
  exact ⟨Nat.dvd_of_mod_eq_zero hDirect.1.1.2,
    hDirect.1.2⟩

section Frames

variable {mapped : Nat → Bool}
variable {x : KuWorld} {s : KuSpace} {e : KuEnv}

theorem Sound.not_outstanding_zero
    (hSound : Sound mapped s e) :
    ¬outstanding e.log 0 := by
  intro hZero
  exact direct_ne_zero
    (hSound.usable 0 ((hSound.owned 0).mp hZero)) rfl

--
-- New Frames
--

/-
  The allocator had no frame of use, and one that it found
  went back.
-/
inductive Denied
    (mapped : Nat → Bool)
    (e : KuEnv) : KuEnv → Prop
  | none :
      Denied mapped e (e.push (.alloc 0))
  | useless
      {p : Nat}
      {content : Buf}
      (hFresh : ¬outstanding e.log p ∧ ¬e.kernel p)
      (hNe : p ≠ 0)
      (hUseless : direct mapped p = false) :
      Denied mapped e
        ((e.push (.alloc p)).push (.release p content))

/- A new frame is one that can be used. -/
structure Granted
    (mapped : Nat → Bool)
    (e : KuEnv)
    (p : Nat) : Prop where
  usable : direct mapped p = true
  fresh : ¬outstanding e.log p
  foreign : ¬e.kernel p

variable {p : Nat}

theorem Sound.not_holds
    (hSound : Sound mapped s e)
    (hNe : p ≠ 0)
    (hFresh : ¬outstanding e.log p) :
    s.tables.contains p = false ∧ s.holds p = false := by
  have hNot : ¬s.Owns p :=
    fun hOwns => hFresh ((hSound.owned p).mpr hOwns)
  constructor
  · rw [List.contains_eq_mem, decide_eq_false_iff_not]
    exact fun hMem => hNot (.inl hMem)
  · rw [← Bool.not_eq_true, s.holds_iff]
    rintro ⟨i, hIn, hSame⟩
    exact hNot (.inr ⟨i, hIn, hSame, hNe⟩)

theorem Sound.not_borrowed
    (hSound : Sound mapped s e)
    (hForeign : ¬e.kernel p) :
    s.borrowed.contains p = false := by
  rw [List.contains_eq_mem, decide_eq_false_iff_not]
  exact fun hMem => hForeign (hSound.borrowed p hMem)

theorem spec_newFrame
    (hSound : Sound mapped x.space e) :
    (newFrame mapped).Spec (fun p x' e' =>
      (p = 0 ∧ x' = x ∧ Denied mapped e e') ∨
        (Granted mapped e p ∧
          x' = { x with
            mem := Function.update x.mem p Buf.zero } ∧
          e' = e.push (.alloc p))) x e := by
  unfold newFrame
  refine spec_alloc ?_
  intro p hFresh
  refine spec_ite ?_ ?_
  · intro hInvalid
    have hUseless : direct mapped p = false := by
      rw [Bool.not_eq_true'] at hInvalid
      rw [direct, hInvalid, Bool.false_and]
    refine spec_ite ?_ ?_
    · intro hNe
      have hNe : p ≠ 0 := bne_iff_ne.mp hNe
      refine spec_release (spec_pure (.inl ⟨rfl, rfl, ?_⟩))
      exact .useless (hFresh.resolve_left hNe) hNe hUseless
    · intro hZero
      have hZero : p = 0 := by simpa using hZero
      subst hZero
      exact spec_pure (.inl ⟨rfl, rfl, .none⟩)
  · intro hValid
    have hNe : p ≠ 0 := by
      rintro rfl
      exact hValid rfl
    have hUnused := hFresh.resolve_left hNe
    have hHolds := hSound.not_holds hNe hUnused.1
    have hLent := hSound.not_borrowed hUnused.2
    refine spec_state (spec_ite ?_ ?_)
    · intro hKnown
      rw [hLent, hHolds.1, hHolds.2] at hKnown
      cases hKnown
    · intro _
      refine spec_ite ?_ ?_
      · intro hUseless
        rw [Bool.not_eq_true'] at hUseless
        refine spec_release
          (spec_pure (.inl ⟨rfl, rfl, ?_⟩))
        exact .useless hUnused hNe hUseless
      · intro hDirect
        rw [Bool.not_eq_true', Bool.not_eq_false] at hDirect
        refine spec_store (spec_pure (.inr ?_))
        exact ⟨⟨hDirect, hUnused.1, hUnused.2⟩, rfl, rfl⟩

variable {e' : KuEnv}

/- A frame that went back leaves no trace but the log. -/
theorem Sound.denied
    (hSound : Sound mapped s e)
    (hDenied : Denied mapped e e') :
    Sound mapped s e' := by
  cases hDenied with
  | none =>
      have hNone := hSound.not_outstanding_zero
      refine { hSound with
        lawful := ⟨hNone, hSound.lawful⟩
        owned := ?_
        used := ?_ }
      · intro p
        change (0 = p ∧ p ≠ 0) ∨ outstanding e.log p ↔ _
        rw [← hSound.owned p]
        constructor
        · rintro (⟨rfl, hNe⟩ | hOld)
          · exact absurd rfl hNe
          · exact hOld
        · exact .inr
      · intro p hOwns
        exact ⟨(direct_ne_zero (hSound.usable p hOwns)).symm,
          hSound.used p hOwns⟩
  | @useless q content hFresh hNe hUseless =>
      have hOther : ∀ p, s.Owns p → q ≠ p := by
        rintro p hOwns rfl
        exact hFresh.1 ((hSound.owned q).mpr hOwns)
      refine { hSound with
        lawful := ?_
        owned := ?_
        used := ?_ }
      · refine ⟨.inl ⟨rfl, hNe⟩, ?_, hFresh.1,
          hSound.lawful⟩
        intro hTaken
        exact absurd rfl hTaken.1
      · intro p
        change q ≠ p ∧ ((q = p ∧ p ≠ 0) ∨
          outstanding e.log p) ↔ _
        rw [← hSound.owned p]
        constructor
        · rintro ⟨hNe', ⟨hSame, -⟩ | hOld⟩
          · exact absurd hSame hNe'
          · exact hOld
        · intro hOld
          exact ⟨hOther p ((hSound.owned p).mp hOld),
            .inr hOld⟩
      · intro p hOwns
        exact ⟨hOther p hOwns, hOther p hOwns,
          hSound.used p hOwns⟩

--
-- What a Call Asked For
--

/- Every frame that was asked for could be used. -/
def enough
    (mapped : Nat → Bool)
    (events : List KuEvent) : Prop :=
  ∀ p, .alloc p ∈ events → direct mapped p = true

/-
  The history went on, and `ok` tells whether every frame
  that was asked for could be used.
-/
structure Ran
    (mapped : Nat → Bool)
    (e e' : KuEnv)
    (ok : Prop) : Prop where
  kernel : e'.kernel = e.kernel
  log : ∃ events, e'.log = events ++ e.log ∧
    (ok ↔ enough mapped events)

theorem Ran.refl
    (mapped : Nat → Bool)
    (e : KuEnv) :
    Ran mapped e e True :=
  ⟨rfl, [], rfl,
    fun _ _ hMem => (List.not_mem_nil hMem).elim,
    fun _ => trivial⟩

variable {ok ok' : Prop}

theorem Ran.trans
    {e' e'' : KuEnv}
    (hFirst : Ran mapped e e' ok)
    (hSecond : Ran mapped e' e'' ok') :
    Ran mapped e e'' (ok ∧ ok') := by
  rcases hFirst.log with ⟨events, hLog, hOk⟩
  rcases hSecond.log with ⟨events', hLog', hOk'⟩
  refine ⟨hSecond.kernel.trans hFirst.kernel,
    events' ++ events, ?_, ?_⟩
  · rw [hLog', hLog, List.append_assoc]
  · rw [hOk, hOk']
    constructor
    · rintro ⟨hOld, hNew⟩ p hMem
      rcases List.mem_append.mp hMem with hIn | hIn
      · exact hNew p hIn
      · exact hOld p hIn
    · intro hAll
      exact ⟨fun p hMem =>
          hAll p (List.mem_append_right _ hMem),
        fun p hMem => hAll p (List.mem_append_left _ hMem)⟩

theorem Ran.iff
    (hRan : Ran mapped e e' ok)
    (hSame : ok' ↔ ok) :
    Ran mapped e e' ok' := by
  rcases hRan.log with ⟨events, hLog, hOk⟩
  exact ⟨hRan.kernel, events, hLog, hSame.trans hOk⟩

theorem Ran.denied
    (hDenied : Denied mapped e e') :
    Ran mapped e e' False := by
  cases hDenied with
  | none =>
      refine ⟨rfl, [.alloc 0], rfl, False.elim, ?_⟩
      intro hEnough
      exact direct_ne_zero
        (hEnough 0 List.mem_cons_self) rfl
  | @useless p content hFresh hNe hUseless =>
      refine ⟨rfl, [.release p content, .alloc p], rfl,
        False.elim, ?_⟩
      intro hEnough
      have hDirect := hEnough p
        (List.mem_cons_of_mem _ List.mem_cons_self)
      rw [hUseless] at hDirect
      cases hDirect

theorem Ran.granted
    (hGranted : Granted mapped e p)
    (content : Buf) :
    Ran mapped e
      ((e.push (.alloc p)).push (.take p content)) True := by
  refine ⟨rfl, [.take p content, .alloc p], rfl, ?_,
    fun _ => trivial⟩
  intro _ q hMem
  rcases List.mem_cons.mp hMem with hEq | hMem
  · cases hEq
  · rcases List.mem_cons.mp hMem with hEq | hNone
    · cases hEq
      exact hGranted.usable
    · cases hNone

theorem Ran.release
    (mapped : Nat → Bool)
    (e : KuEnv)
    (p : Nat)
    (content : Buf) :
    Ran mapped e (e.push (.release p content)) True := by
  refine ⟨rfl, [.release p content], rfl, ?_,
    fun _ => trivial⟩
  intro _ q hMem
  rcases List.mem_cons.mp hMem with hEq | hNone
  · cases hEq
  · cases hNone

--
-- Taking Frames
--

/- The space with one more frame, taken for one purpose. -/
theorem Sound.grant
    {s' : KuSpace}
    (hSound : Sound mapped s e)
    (hGranted : Granted mapped e p)
    (hOwns : ∀ q, s'.Owns q ↔ s.Owns q ∨ q = p)
    (hBorrowed : s'.borrowed = s.borrowed)
    (hTables : s'.tables.Nodup)
    (hPages : ∀ i < kuPages, ∀ j < kuPages,
      s'.frames i ≠ 0 → s'.frames i = s'.frames j → i = j)
    (hApart : ∀ i < kuPages, s'.frames i ∉ s'.tables)
    (hLive : s'.live = true) :
    Sound mapped s'
      ((e.push (.alloc p)).push (.take p Buf.zero)) where
  lawful := by
    refine ⟨.inl ⟨rfl, direct_ne_zero hGranted.usable⟩, ?_,
      rfl, hGranted.fresh, hSound.lawful⟩
    intro hTaken
    exact absurd rfl hTaken.1
  owned := by
    intro q
    change (p = q ∧ q ≠ 0) ∨ outstanding e.log q ↔ _
    rw [hSound.owned, hOwns]
    constructor
    · rintro (⟨rfl, -⟩ | hOld)
      · exact .inr rfl
      · exact .inl hOld
    · rintro (hOld | rfl)
      · exact .inr hOld
      · exact .inl ⟨rfl, direct_ne_zero hGranted.usable⟩
  used := by
    intro q hQ
    rcases (hOwns q).mp hQ with hOld | rfl
    · refine .inr ⟨?_, hSound.used q hOld⟩
      rintro rfl
      exact hGranted.fresh ((hSound.owned p).mpr hOld)
    · exact .inl rfl
  usable := by
    intro q hQ
    rcases (hOwns q).mp hQ with hOld | rfl
    · exact hSound.usable q hOld
    · exact hGranted.usable
  tables := hTables
  pages := hPages
  apart := hApart
  borrowed := by
    rw [hBorrowed]
    exact hSound.borrowed
  kernel := by
    intro q hQ
    rcases (hOwns q).mp hQ with hOld | rfl
    · exact hSound.kernel q hOld
    · exact hGranted.foreign
  dead := by
    intro hDead
    rw [hLive] at hDead
    cases hDead

/- A frame that is granted is none of the space's. -/
theorem Granted.not_owned
    (hGranted : Granted mapped e p)
    (hSound : Sound mapped s e) :
    ¬s.Owns p :=
  fun hOwns => hGranted.fresh ((hSound.owned p).mpr hOwns)

theorem Granted.not_frame
    {p i : Nat}
    (hGranted : Granted mapped e p)
    (hSound : Sound mapped s e)
    (hIndex : i < kuPages) :
    s.frames i ≠ p := by
  intro hSame
  exact hGranted.not_owned hSound
    (.inr ⟨i, hIndex, hSame,
      direct_ne_zero hGranted.usable⟩)

/- The space with another table. -/
def KuSpace.withTables
    (s : KuSpace)
    (ps : List Nat) : KuSpace :=
  { s with tables := s.tables ++ ps }

theorem Sound.withTable
    (hSound : Sound mapped s e)
    (hGranted : Granted mapped e p)
    (hLive : s.live = true) :
    Sound mapped (s.withTables [p])
      ((e.push (.alloc p)).push (.take p Buf.zero)) := by
  have hNew : p ∉ s.tables :=
    fun hMem => hGranted.not_owned hSound (.inl hMem)
  refine hSound.grant hGranted ?_ rfl ?_ hSound.pages ?_ hLive
  · intro q
    simp only [KuSpace.Owns, KuSpace.withTables,
      List.mem_append, List.mem_singleton]
    exact or_right_comm
  · refine List.nodup_append.mpr
      ⟨hSound.tables, List.nodup_singleton p, ?_⟩
    rintro a hIn b hLast rfl
    rw [List.mem_singleton] at hLast
    exact hNew (hLast ▸ hIn)
  · intro i hIndex hMem
    rcases List.mem_append.mp hMem with hOld | hLast
    · exact hSound.apart i hIndex hOld
    · exact hGranted.not_frame hSound hIndex
        (List.mem_singleton.mp hLast)

/- The space with another page. -/
def KuSpace.withPage
    (s : KuSpace)
    (i p rights : Nat) : KuSpace :=
  { s with
    frames := Function.update s.frames i p
    rights := Function.update s.rights i rights }

theorem Sound.withPage
    {i p : Nat}
    (hSound : Sound mapped s e)
    (hGranted : Granted mapped e p)
    (hIndex : i < kuPages)
    (hEmpty : s.frames i = 0)
    (hLive : s.live = true)
    (rights : Nat) :
    Sound mapped (s.withPage i p rights)
      ((e.push (.alloc p)).push (.take p Buf.zero)) := by
  have hThis : (s.withPage i p rights).frames i = p :=
    Function.update_self ..
  have hElse : ∀ j, j ≠ i →
      (s.withPage i p rights).frames j = s.frames j :=
    fun j hNe => Function.update_of_ne hNe ..
  have hNe := direct_ne_zero hGranted.usable
  refine hSound.grant hGranted ?_ rfl hSound.tables ?_ ?_
    hLive
  · intro q
    constructor
    · rintro (hTable | ⟨j, hJ, hSame, hQ⟩)
      · exact .inl (.inl hTable)
      · by_cases hEq : j = i
        · rw [hEq, hThis] at hSame
          exact .inr hSame.symm
        · rw [hElse j hEq] at hSame
          exact .inl (.inr ⟨j, hJ, hSame, hQ⟩)
    · rintro ((hTable | ⟨j, hJ, hSame, hQ⟩) | rfl)
      · exact .inl hTable
      · refine .inr ⟨j, hJ, ?_, hQ⟩
        rw [hElse j]
        · exact hSame
        · rintro rfl
          exact hQ (hSame.symm.trans hEmpty)
      · exact .inr ⟨i, hIndex, hThis, hNe⟩
  · intro a hA b hB hZero hSame
    by_cases hFirst : a = i
    · by_cases hSecond : b = i
      · exact hFirst.trans hSecond.symm
      · rw [hFirst, hThis, hElse b hSecond] at hSame
        exact absurd hSame.symm
          (hGranted.not_frame hSound hB)
    · rw [hElse a hFirst] at hZero hSame
      by_cases hSecond : b = i
      · rw [hSecond, hThis] at hSame
        exact absurd hSame (hGranted.not_frame hSound hA)
      · rw [hElse b hSecond] at hSame
        exact hSound.pages a hA b hB hZero hSame
  · intro j hJ hMem
    by_cases hEq : j = i
    · rw [hEq, hThis] at hMem
      exact hGranted.not_owned hSound (.inl hMem)
    · rw [hElse j hEq] at hMem
      exact hSound.apart j hJ hMem

--
-- Tables
--

/- Some frames were taken for tables, and are zero. -/
structure TablesAdded
    (mapped : Nat → Bool)
    (x : KuWorld)
    (ps : List Nat)
    (x' : KuWorld)
    (e' : KuEnv) : Prop where
  space : x'.space = x.space.withTables ps
  sound : Sound mapped x'.space e'
  zero : ∀ p ∈ ps, x'.mem p = Buf.zero
  kept : ∀ p ∉ ps, x'.mem p = x.mem p
  fresh : ∀ p ∈ ps, ¬x.space.Owns p

theorem KuSpace.withTables_nil (s : KuSpace) :
    s.withTables [] = s := by
  unfold KuSpace.withTables
  rw [List.append_nil]

theorem KuSpace.withTables_append
    (s : KuSpace)
    (ps qs : List Nat) :
    (s.withTables ps).withTables qs =
      s.withTables (ps ++ qs) := by
  unfold KuSpace.withTables
  rw [List.append_assoc]

theorem spec_addTable
    (hSound : Sound mapped x.space e)
    (hLive : x.space.live = true) :
    (addTable mapped).Spec (fun added x' e' =>
      Ran mapped e e' (added = true) ∧
        ((added = false ∧ x' = x ∧
            Sound mapped x'.space e') ∨
          (added = true ∧
            ∃ p, TablesAdded mapped x [p] x' e'))) x e := by
  unfold addTable
  refine KuM.Spec.seq (spec_newFrame hSound) ?_
  rintro p x' e' (⟨rfl, rfl, hDenied⟩ | ⟨hGranted, rfl, rfl⟩)
  · refine spec_pure ⟨?_, .inl ⟨rfl, rfl, ?_⟩⟩
    · exact (Ran.denied hDenied).iff (by simp)
    · exact hSound.denied hDenied
  · refine spec_ite ?_ ?_
    · intro hZero
      exact absurd (eq_of_beq hZero)
        (direct_ne_zero hGranted.usable)
    · intro _
      refine spec_take (spec_setSpace (spec_pure ?_))
      simp only [Function.update_self]
      refine ⟨(Ran.granted hGranted _).iff (by simp),
        .inr ⟨trivial, p, ?_⟩⟩
      refine ⟨rfl, hSound.withTable hGranted hLive,
        ?_, ?_, ?_⟩
      · intro q hMem
        rw [List.mem_singleton.mp hMem]
        exact Function.update_self ..
      · intro q hMem
        exact Function.update_of_ne
          (fun hSame => hMem (List.mem_singleton.mpr hSame))
          ..
      · intro q hMem
        rw [List.mem_singleton.mp hMem]
        exact hGranted.not_owned hSound

variable {ps : List Nat}

theorem KuSpace.owns_withTables
    {p : Nat} :
    (s.withTables ps).Owns p ↔ s.Owns p ∨ p ∈ ps := by
  simp only [KuSpace.Owns, KuSpace.withTables,
    List.mem_append]
  exact or_right_comm

variable {x' x'' : KuWorld}

theorem TablesAdded.trans
    {ps qs : List Nat}
    {e' e'' : KuEnv}
    (hFirst : TablesAdded mapped x ps x' e')
    (hSecond : TablesAdded mapped x' qs x'' e'') :
    TablesAdded mapped x (ps ++ qs) x'' e'' where
  space := by
    rw [hSecond.space, hFirst.space,
      KuSpace.withTables_append]
  sound := hSecond.sound
  zero := by
    intro p hMem
    by_cases hLate : p ∈ qs
    · exact hSecond.zero p hLate
    · rw [hSecond.kept p hLate]
      exact hFirst.zero p
        ((List.mem_append.mp hMem).resolve_right hLate)
  kept := by
    intro p hMem
    rw [List.mem_append, not_or] at hMem
    rw [hSecond.kept p hMem.2, hFirst.kept p hMem.1]
  fresh := by
    intro p hMem hOwns
    rcases List.mem_append.mp hMem with hEarly | hLate
    · exact hFirst.fresh p hEarly hOwns
    · apply hSecond.fresh p hLate
      rw [hFirst.space]
      exact KuSpace.owns_withTables.mpr (.inl hOwns)

theorem spec_addTables
    (n : Nat)
    (hSound : Sound mapped x.space e)
    (hLive : x.space.live = true) :
    (addTables mapped n).Spec (fun added x' e' =>
      Ran mapped e e' (added = true) ∧
        ∃ ps, TablesAdded mapped x ps x' e' ∧
          (added = true → ps.length = n)) x e := by
  induction n generalizing x e with
  | zero =>
      unfold addTables
      refine spec_pure
        ⟨(Ran.refl mapped e).iff (by simp), [], ?_,
          fun _ => rfl⟩
      refine ⟨x.space.withTables_nil.symm, hSound, ?_,
        fun _ _ => rfl, ?_⟩
      · intro p hMem
        cases hMem
      · intro p hMem
        cases hMem
  | succ n ih =>
      unfold addTables
      refine KuM.Spec.seq (spec_addTable hSound hLive) ?_
      rintro added x' e'
        ⟨hRan, ⟨rfl, rfl, hDenied⟩ | ⟨rfl, p, hAdded⟩⟩
      · refine spec_pure ⟨hRan, [], ?_, ?_⟩
        · refine ⟨x'.space.withTables_nil.symm, hDenied, ?_,
            fun _ _ => rfl, ?_⟩
          · intro p hMem
            cases hMem
          · intro p hMem
            cases hMem
        · intro hNone
          cases hNone
      · have hLive' : x'.space.live = true := by
          rw [hAdded.space]
          exact hLive
        refine (ih hAdded.sound hLive').weaken ?_
        rintro more x'' e'' ⟨hRan', ps, hMore, hLength⟩
        refine ⟨(hRan.trans hRan').iff (by simp), _,
          hAdded.trans hMore, ?_⟩
        intro hAll
        rw [List.length_append, hLength hAll]
        exact Nat.add_comm 1 n

--
-- Teardown
--

/- The history when just the frames in a set are left. -/
structure Left
    (owns : Nat → Prop)
    (e : KuEnv) : Prop where
  lawful : LogLawful e.log
  owned : ∀ p, outstanding e.log p ↔ owns p

variable {owns owns' : Nat → Prop}

theorem Left.release
    (hLeft : Left owns e)
    (hOwns : owns p)
    (hRest : ∀ q, owns' q ↔ p ≠ q ∧ owns q) :
    Left owns' (e.push (.release p Buf.zero)) where
  lawful := ⟨(hLeft.owned p).mpr hOwns, fun _ => rfl,
    hLeft.lawful⟩
  owned := by
    intro q
    rw [hRest q]
    exact and_congr_right fun _ => hLeft.owned q

theorem Left.iff
    (hLeft : Left owns e)
    (hSame : ∀ q, owns' q ↔ owns q) :
    Left owns' e where
  lawful := hLeft.lawful
  owned := fun q => (hLeft.owned q).trans (hSame q).symm

theorem spec_scrub
    (p : Nat) :
    (scrub p).Spec (fun _ x' e' =>
      x' = { x with
        mem := Function.update x.mem p Buf.zero } ∧
      e' = e.push (.release p Buf.zero)) x e := by
  refine ⟨trivial, ?_⟩
  rintro reply e' rfl
  refine ⟨trivial, rfl, ?_⟩
  simp only [Function.update_self]

/- The tables, and the pages from `i` on. -/
def KuSpace.ownsFrom
    (s : KuSpace)
    (i p : Nat) : Prop :=
  p ∈ s.tables ∨
    ∃ j < kuPages, i ≤ j ∧ s.frames j = p ∧ p ≠ 0

/- Teardown changes no frame but those of the space. -/
structure TornDown
    (mapped : Nat → Bool)
    (x : KuWorld)
    (e : KuEnv)
    (x' : KuWorld)
    (e' : KuEnv) : Prop where
  space : x'.space = x.space
  kept : ∀ p, ¬x.space.Owns p → x'.mem p = x.mem p
  ran : Ran mapped e e' True

theorem TornDown.refl
    (mapped : Nat → Bool)
    (x : KuWorld)
    (e : KuEnv) :
    TornDown mapped x e x e :=
  ⟨rfl, fun _ _ => rfl, Ran.refl mapped e⟩

theorem TornDown.trans
    {e' e'' : KuEnv}
    (hFirst : TornDown mapped x e x' e')
    (hSecond : TornDown mapped x' e' x'' e'') :
    TornDown mapped x e x'' e'' where
  space := hSecond.space.trans hFirst.space
  kept := by
    intro p hNot
    rw [hSecond.kept p (by rw [hFirst.space]; exact hNot),
      hFirst.kept p hNot]
  ran := (hFirst.ran.trans hSecond.ran).iff (by simp)

theorem TornDown.scrubbed
    (hOwns : x.space.Owns p) :
    TornDown mapped x e
      { x with mem := Function.update x.mem p Buf.zero }
      (e.push (.release p Buf.zero)) where
  space := rfl
  kept := by
    intro q hNot
    refine Function.update_of_ne ?_ ..
    rintro rfl
    exact hNot hOwns
  ran := Ran.release mapped e p Buf.zero

variable {i : Nat}

theorem KuSpace.ownsFrom_succ
    (hEmpty : s.frames i = 0)
    (p : Nat) :
    s.ownsFrom (i + 1) p ↔ s.ownsFrom i p := by
  refine or_congr_right ⟨?_, ?_⟩
  · rintro ⟨j, hJ, hFrom, hSame⟩
    exact ⟨j, hJ, Nat.le_of_succ_le hFrom, hSame⟩
  · rintro ⟨j, hJ, hFrom, hSame, hNe⟩
    refine ⟨j, hJ, ?_, hSame, hNe⟩
    refine Nat.lt_of_le_of_ne hFrom ?_
    rintro rfl
    exact hNe (hSame.symm.trans hEmpty)

theorem Sound.ownsFrom_next
    (hSound : Sound mapped s e)
    (hIndex : i < kuPages)
    (hUsed : s.frames i ≠ 0)
    (p : Nat) :
    s.ownsFrom (i + 1) p ↔
      s.frames i ≠ p ∧ s.ownsFrom i p := by
  constructor
  · rintro (hTable | ⟨j, hJ, hFrom, hSame, hNe⟩)
    · refine ⟨?_, .inl hTable⟩
      rintro rfl
      exact hSound.apart i hIndex hTable
    · refine ⟨?_, .inr
        ⟨j, hJ, Nat.le_of_succ_le hFrom, hSame, hNe⟩⟩
      intro hThis
      have hEq := hSound.pages i hIndex j hJ hUsed
        (hThis.trans hSame.symm)
      omega
  · rintro ⟨hOther, hTable | ⟨j, hJ, hFrom, hSame, hNe⟩⟩
    · exact .inl hTable
    · refine .inr ⟨j, hJ, ?_, hSame, hNe⟩
      refine Nat.lt_of_le_of_ne hFrom ?_
      rintro rfl
      exact hOther hSame

theorem spec_scrubPages
    {i n : Nat}
    {e₀ : KuEnv}
    (hSound : Sound mapped x.space e₀)
    (hEnd : i + n = kuPages)
    (hLeft : Left (x.space.ownsFrom i) e) :
    (scrubPages i n).Spec (fun _ x' e' =>
      TornDown mapped x e x' e' ∧
        Left (· ∈ x.space.tables) e') x e := by
  induction n generalizing i x e with
  | zero =>
      refine spec_pure ⟨TornDown.refl mapped x e, ?_⟩
      refine hLeft.iff ?_
      intro p
      refine ⟨.inl, ?_⟩
      rintro (hTable | ⟨j, hJ, hFrom, -⟩)
      · exact hTable
      · omega
  | succ n ih =>
      have hIndex : i < kuPages := by omega
      unfold scrubPages
      refine spec_state (spec_ite ?_ ?_)
      · intro hUsed
        have hUsed := bne_iff_ne.mp hUsed
        have hOwns : x.space.Owns (x.space.frames i) :=
          .inr ⟨i, hIndex, rfl, hUsed⟩
        refine KuM.Spec.seq
          (spec_scrub (x.space.frames i)) ?_
        rintro _ _ _ ⟨rfl, rfl⟩
        have hFirst : TornDown mapped x e _ _ :=
          TornDown.scrubbed hOwns
        have hRest := ih (i := i + 1)
          (x := ⟨x.space, Function.update x.mem
            (x.space.frames i) Buf.zero⟩)
          (e := e.push
            (.release (x.space.frames i) Buf.zero))
          hSound (by omega)
        refine (hRest ?_).weaken ?_
        · exact hLeft.release
            (.inr ⟨i, hIndex, Nat.le_refl i, rfl, hUsed⟩)
            (hSound.ownsFrom_next hIndex hUsed)
        · rintro _ x' e' ⟨hTorn, hLeft'⟩
          exact ⟨hFirst.trans hTorn, hLeft'⟩
      · intro hEmpty
        have hEmpty : x.space.frames i = 0 := by
          simpa using hEmpty
        exact ih (i := i + 1) hSound (by omega)
          (hLeft.iff (KuSpace.ownsFrom_succ hEmpty))

theorem spec_scrubTables
    (mapped : Nat → Bool)
    (hOwns : ∀ p ∈ ps, x.space.Owns p)
    (hNodup : ps.Nodup)
    (hLeft : Left (· ∈ ps) e) :
    (scrubTables ps).Spec (fun _ x' e' =>
      TornDown mapped x e x' e' ∧
        Left (fun _ => False) e') x e := by
  induction ps generalizing x e with
  | nil =>
      refine spec_pure ⟨TornDown.refl mapped x e, ?_⟩
      exact hLeft.iff (fun _ => by simp)
  | cons p rest ih =>
      rcases List.nodup_cons.mp hNodup with ⟨hNew, hRest⟩
      unfold scrubTables
      refine KuM.Spec.seq (spec_scrub p) ?_
      rintro _ _ _ ⟨rfl, rfl⟩
      have hFirst : TornDown mapped x e _ _ :=
        TornDown.scrubbed (hOwns p List.mem_cons_self)
      refine (ih ?_ hRest ?_).weaken ?_
      · intro q hMem
        exact hOwns q (List.mem_cons_of_mem _ hMem)
      · refine hLeft.release List.mem_cons_self ?_
        intro q
        constructor
        · intro hMem
          refine ⟨?_, List.mem_cons_of_mem _ hMem⟩
          rintro rfl
          exact hNew hMem
        · rintro ⟨hNe, hMem⟩
          exact (List.mem_cons.mp hMem).resolve_left hNe.symm
      · rintro _ x' e' ⟨hTorn, hLeft'⟩
        exact ⟨hFirst.trans hTorn, hLeft'⟩

theorem not_owns_zero (p : Nat) :
    ¬KuSpace.zero.Owns p := by
  rintro (hTable | ⟨i, -, hSame, hNe⟩)
  · cases hTable
  · exact hNe hSame.symm

theorem sound_zero
    (hLeft : Left (fun _ => False) e) :
    Sound mapped .zero e where
  lawful := hLeft.lawful
  owned := by
    intro p
    rw [hLeft.owned p]
    exact ⟨False.elim, not_owns_zero p⟩
  used := fun p hOwns => absurd hOwns (not_owns_zero p)
  usable := fun p hOwns => absurd hOwns (not_owns_zero p)
  tables := List.nodup_nil
  pages := fun _ _ _ _ hNe => absurd rfl hNe
  apart := fun _ _ hMem => by cases hMem
  borrowed := fun _ hMem => by cases hMem
  kernel := fun p hOwns => absurd hOwns (not_owns_zero p)
  dead := fun _ => rfl

/- A live space that is not pinned goes, with its frames. -/
theorem spec_kuDestroy
    (hSound : Sound mapped x.space e)
    (hPins : x.space.pins = 0)
    (hLive : x.space.live = true) :
    kuDestroy.Spec (fun r x' e' =>
      r = 0 ∧ x'.space = .zero ∧
        Sound mapped .zero e' ∧ Ran mapped e e' True ∧
        ∀ p, ¬x.space.Owns p → x'.mem p = x.mem p)
      x e := by
  unfold kuDestroy
  refine spec_state (spec_ite ?_ ?_)
  · intro hPinned
    rw [hPins] at hPinned
    cases hPinned
  · intro _
    refine spec_ite ?_ ?_
    · intro hDead
      rw [hLive] at hDead
      cases hDead
    · intro _
      refine KuM.Spec.seq (spec_scrubPages hSound rfl ?_) ?_
      · refine ⟨hSound.lawful, ?_⟩
        intro p
        rw [hSound.owned p]
        refine or_congr_right ⟨?_, ?_⟩
        · rintro ⟨i, hIndex, hSame⟩
          exact ⟨i, hIndex, Nat.zero_le i, hSame⟩
        · rintro ⟨i, hIndex, -, hSame⟩
          exact ⟨i, hIndex, hSame⟩
      · rintro _ x₁ e₁ ⟨hTorn, hTables⟩
        refine KuM.Spec.seq
          (spec_scrubTables mapped ?_ hSound.tables hTables)
          ?_
        · intro p hMem
          rw [hTorn.space]
          exact .inl hMem
        · rintro _ x₂ e₂ ⟨hTorn', hNone⟩
          have hAll := hTorn.trans hTorn'
          refine spec_setSpace (spec_pure ?_)
          exact ⟨rfl, rfl, sound_zero hNone, hAll.ran,
            hAll.kept⟩

end Frames

end KvantOS.User
