import KvantOS.User.Copies
import KvantOS.User.Image

/-
  This file follows the loader of isolated programs: an image
  that is accepted becomes the pages of a new space, and
  nothing is left of a load that fails.

  Key definitions include:
    * `planRights`, `planByte`
    * `Stocked`, `Loaded`

  Key theorems include:
    * `spec_mapPages`, `Stocked.load`, `spec_kiLoad`
-/

namespace KvantOS.User

open Paging

/- Other rights for some pages. -/
def paint
    (rights : Nat → Nat)
    (first count r : Nat) : Nat → Nat :=
  fun i =>
    if first ≤ i ∧ i < first + count then r else rights i

/- The rights of the pages of a plan; 0 for no page. -/
def planRights (p : KiPlan) : Nat → Nat :=
  paint
    (paint
      (paint
        (paint (fun _ => 0) 0 (pagesIn p.textBytes)
          (kuR ||| kuX))
        (p.dataVa / 4096)
        (pagesIn (p.dataBytes + p.bssBytes)) (kuR ||| kuW))
      ((kuSize - p.stackBytes) / 4096)
      (pagesIn p.stackBytes) (kuR ||| kuW))
    (kiBootOff / 4096) 1 kuR

/- Other bytes in part of the arena. -/
def overlay
    (content : Nat → UInt8)
    (off length : Nat)
    (src : Buf) : Nat → UInt8 :=
  fun o =>
    if off ≤ o ∧ o < off + length then src (o - off)
    else content o

/- The bytes of the arena that a plan asks for. -/
def planByte
    (image : List UInt8)
    (p : KiPlan) : Nat → UInt8 :=
  overlay
    (overlay (fun _ => 0) 0 p.textBytes
      ((Buf.ofList image).drop kiHeader))
    p.dataVa p.dataBytes
    ((Buf.ofList image).drop (kiHeader + p.dataFile))

--
-- Stocked Spaces
--

/-
  A space in the making, from a memory `start`: its pages
  have some rights and hold some bytes.
-/
structure Stocked
    (mapped : Nat → Bool)
    (wide nx : Bool)
    (start : PhysMem)
    (rights : Nat → Nat)
    (content : Nat → UInt8)
    (x : KuWorld)
    (e : KuEnv) : Prop where
  sound : Sound mapped x.space e
  live : x.space.live = true
  pins : x.space.pins = 0
  wide : x.space.arch64 = wide
  nx : x.space.nx = nx
  spine : Spine x.space x.mem
    (fun l => start (x.space.lent l))
  rights : ∀ i < kuPages, x.space.rights i = rights i
  content : ∀ o < kuSize, x.space.frames (o / 4096) ≠ 0 →
    userByte x.space x.mem o = content o
  kept : ∀ p, e.kernel p → x.mem p = start p

section Loading

variable {mapped : Nat → Bool} {wide nx : Bool}
variable {start : PhysMem}
variable {rights : Nat → Nat} {content : Nat → UInt8}
variable {x : KuWorld} {e : KuEnv}

theorem not_rightsOk_zero :
    rightsOk 0 = false :=
  rfl

variable {i : Nat} {mem : PhysMem} {s : KuSpace}
variable {seen : Nat → Buf}

/- A page has a frame when it has rights. -/
theorem Spine.used_iff
    (hSpine : Spine s mem seen)
    (hIndex : i < kuPages) :
    s.frames i ≠ 0 ↔ s.rights i ≠ 0 := by
  constructor
  · intro hUsed hNone
    have hOk := hSpine.rights i hIndex hUsed
    rw [hNone, not_rightsOk_zero] at hOk
    cases hOk
  · intro hRights hNone
    exact hRights (hSpine.noRights i hIndex hNone)

theorem Spine.noFrame
    (hSpine : Spine s mem seen)
    (hIndex : i < kuPages)
    (hNone : s.rights i = 0) :
    s.frames i = 0 := by
  by_contra hUsed
  exact (hSpine.used_iff hIndex).mp hUsed hNone

theorem page_lt
    {o : Nat}
    (hOffset : o < kuSize) :
    o / 4096 < kuPages := by
  change o < 0x200000 at hOffset
  change o / 4096 < 512
  omega

--
-- Mapping Pages
--

/- A page of a stocked space that was mapped is zero. -/
theorem Stocked.withPage
    {off r p : Nat}
    {x' : KuWorld} {e' : KuEnv}
    (hStocked : Stocked mapped wide nx start rights
      (fun _ => 0) x e)
    (hMapped : Mapped mapped off r p x e x' e') :
    Stocked mapped wide nx start
      (paint rights (off / 4096) 1 r) (fun _ => 0) x' e' := by
  have hSound := hStocked.sound
  have hSpace := hMapped.space
  have hKernel : e'.kernel = e.kernel := by
    rw [hMapped.env]
    rfl
  constructor
  · exact hMapped.sound
  · rw [hSpace]
    exact hStocked.live
  · rw [hSpace]
    exact hStocked.pins
  · rw [hSpace]
    exact hStocked.wide
  · rw [hSpace]
    exact hStocked.nx
  · have hSpine := hMapped.spine _ hStocked.spine
    rw [hSpace] at hSpine ⊢
    exact hSpine
  · intro i hi
    rw [hSpace]
    by_cases hThis : i = off / 4096
    · subst hThis
      simp [KuSpace.withPage, paint]
    · have hOut : ¬(off / 4096 ≤ i ∧ i < off / 4096 + 1) := by
        omega
      rw [paint, if_neg hOut]
      exact (Function.update_of_ne hThis ..).trans
        (hStocked.rights i hi)
  · intro o hOffset
    have hPage := page_lt hOffset
    rw [hSpace]
    unfold userByte
    by_cases hThis : o / 4096 = off / 4096
    · have hFrame : (x.space.withPage (off / 4096) p
          r).frames (o / 4096) = p := by
        rw [hThis]
        exact Function.update_self ..
      intro _
      rw [hFrame, hMapped.zero]
      rfl
    · have hFrame : (x.space.withPage (off / 4096) p
          r).frames (o / 4096) =
            x.space.frames (o / 4096) :=
        Function.update_of_ne hThis ..
      rw [hFrame]
      intro hUsed
      rw [hMapped.kept _
        (hMapped.granted.not_frame hSound hPage)
        (hSound.apart _ hPage)]
      exact hStocked.content o hOffset hUsed
  · intro q hQ
    rw [hKernel] at hQ
    have hNe : q ≠ p := by
      rintro rfl
      exact hMapped.granted.foreign hQ
    have hNot : q ∉ x.space.tables :=
      fun hMem => hSound.kernel q (.inl hMem) hQ
    rw [hMapped.kept q hNe hNot]
    exact hStocked.kept q hQ

/- A stocked space stays so when a frame is denied. -/
theorem Stocked.denied
    {e' : KuEnv}
    (hStocked : Stocked mapped wide nx start rights content
      x e)
    (hDenied : Denied mapped e e') :
    Stocked mapped wide nx start rights content x e' :=
  { hStocked with
    sound := hStocked.sound.denied hDenied
    kept := by
      rw [(Ran.denied hDenied).kernel]
      exact hStocked.kept }

/-
  What the mapping of some pages ends in: `ok` when each had
  its frame.
-/
def Painted
    (mapped : Nat → Bool)
    (wide nx : Bool)
    (start : PhysMem)
    (rights : Nat → Nat)
    (e : KuEnv)
    (ok : Prop)
    (x' : KuWorld)
    (e' : KuEnv) : Prop :=
  Ran mapped e e' ok ∧
    ∃ rights', Stocked mapped wide nx start rights'
      (fun _ => 0) x' e' ∧ (ok → rights' = rights)

theorem spec_mapPage
    {off r : Nat}
    (hStocked : Stocked mapped wide nx start rights
      (fun _ => 0) x e)
    (hOff : off < kuSize)
    (hAligned : off % 4096 = 0)
    (hRights : rightsOk r = true)
    (hEmpty : rights (off / 4096) = 0) :
    (kuMap mapped off r).Spec (fun res x' e' =>
      Painted mapped wide nx start
        (paint rights (off / 4096) 1 r) e (res = 0) x' e')
      x e := by
  have hIndex := page_lt hOff
  have hFrame : x.space.frames (off / 4096) = 0 := by
    apply hStocked.spine.noFrame hIndex
    rw [hStocked.rights _ hIndex, hEmpty]
  have hArgs : mapArgs x.space off r :=
    ⟨hStocked.live, hStocked.pins, hOff, hAligned, hRights,
      hFrame⟩
  refine (spec_kuMap hStocked.sound ?_).weaken ?_
  · intro _
    rw [hStocked.spine.tables]
    omega
  · rintro res x' e' (⟨rfl, rfl, hRefused⟩ |
      ⟨rfl, -, p, hMapped⟩)
    · rcases hRefused with ⟨hNot, -⟩ | ⟨-, hDenied⟩
      · exact absurd hArgs hNot
      · refine ⟨(Ran.denied hDenied).iff (by simp), rights,
          hStocked.denied hDenied, ?_⟩
        intro hZero
        cases hZero
    · refine ⟨?_, _, hStocked.withPage hMapped,
        fun _ => rfl⟩
      rw [hMapped.env]
      exact (Ran.granted hMapped.granted _).iff (by simp)

theorem paint_none
    (rights : Nat → Nat)
    (first r : Nat) :
    paint rights first 0 r = rights := by
  funext i
  exact if_neg (by omega)

theorem paint_next
    (rights : Nat → Nat)
    (first count r : Nat) :
    paint (paint rights first 1 r) (first + 1) count r =
      paint rights first (count + 1) r := by
  funext i
  unfold paint
  by_cases hLate : first + 1 ≤ i ∧ i < first + 1 + count
  · have hAll : first ≤ i ∧ i < first + (count + 1) := by
      omega
    rw [if_pos hLate, if_pos hAll]
  · rw [if_neg hLate]
    by_cases hThis : first ≤ i ∧ i < first + 1
    · have hAll : first ≤ i ∧ i < first + (count + 1) := by
        omega
      rw [if_pos hThis, if_pos hAll]
    · have hNone : ¬(first ≤ i ∧ i < first + (count + 1)) := by
        omega
      rw [if_neg hThis, if_neg hNone]

/- One page after the other. -/
theorem spec_mapPages
    {off r count : Nat}
    (hStocked : Stocked mapped wide nx start rights
      (fun _ => 0) x e)
    (hRange : off + count * 4096 ≤ kuSize)
    (hAligned : off % 4096 = 0)
    (hRights : rightsOk r = true)
    (hEmpty : ∀ i, off / 4096 ≤ i →
      i < off / 4096 + count → rights i = 0) :
    (mapPages mapped r off count).Spec (fun all x' e' =>
      Painted mapped wide nx start
        (paint rights (off / 4096) count r) e (all = true)
        x' e') x e := by
  induction count generalizing x e off rights with
  | zero =>
      refine spec_pure ⟨(Ran.refl mapped e).iff (by simp),
        rights, hStocked, fun _ => ?_⟩
      exact (paint_none ..).symm
  | succ count ih =>
      unfold mapPages
      refine KuM.Spec.seq (spec_mapPage hStocked (by omega)
        hAligned hRights (hEmpty _ (by omega) (by omega)))
        ?_
      rintro res x₁ e₁ ⟨hRan, rights₁, hStocked₁, hPaint⟩
      refine spec_ite ?_ ?_
      · intro hFailed
        have hFailed : res ≠ 0 := by simpa using hFailed
        refine spec_pure ⟨hRan.iff (by simp [hFailed]),
          rights₁, hStocked₁, ?_⟩
        intro hTrue
        cases hTrue
      · intro hDone
        have hDone : res = 0 := by simpa using hDone
        have hPaint := hPaint hDone
        subst hPaint
        have hNext : (off + 4096) / 4096 =
            off / 4096 + 1 := by
          omega
        refine (ih hStocked₁ (by omega) (by omega) ?_).weaken
          ?_
        · intro i hFrom hBelow
          have hOut : ¬(off / 4096 ≤ i ∧
              i < off / 4096 + 1) := by
            omega
          rw [paint, if_neg hOut]
          exact hEmpty i (by omega) (by omega)
        · rintro all x₂ e₂ ⟨hRan', rights₂, hStocked₂,
            hPaint'⟩
          refine ⟨(hRan.trans hRan').iff (by simp [hDone]),
            rights₂, hStocked₂, fun hAll => ?_⟩
          rw [hPaint' hAll, hNext, paint_next]

variable {off length : Nat} {src : Buf}

/- What is copied in lies in the pages afterwards. -/
theorem Stocked.copied
    (hStocked : Stocked mapped wide nx start rights content
      x e)
    (hRange : off + length ≤ kuSize)
    (hPaged : Paged x.space off length) :
    Stocked mapped wide nx start rights
      (overlay content off length src)
      { x with
        mem := copyTo x.space length off length src x.mem }
      e where
  sound := hStocked.sound
  live := hStocked.live
  pins := hStocked.pins
  wide := hStocked.wide
  nx := hStocked.nx
  spine := by
    refine hStocked.spine.userWrite hStocked.sound ?_
    intro p hForeign
    exact copyTo_foreign hRange hPaged hForeign
  rights := hStocked.rights
  content := by
    intro o hOffset hUsed
    have hByte := @userByte_copyTo x.space x.mem length off
      length o src hStocked.sound.pages (Nat.le_refl _)
      hRange hPaged hOffset
    change userByte x.space
      (copyTo x.space length off length src x.mem) o = _
    rw [hByte, overlay,
      hStocked.content o hOffset hUsed]
  kept := by
    intro p hKernel
    have hForeign : ∀ i < kuPages,
        x.space.frames i ≠ 0 → p ≠ x.space.frames i := by
      rintro i hi hUsed rfl
      exact hStocked.sound.kernel _
        (.inr ⟨i, hi, rfl, hUsed⟩) hKernel
    change copyTo x.space length off length src x.mem p = _
    rw [copyTo_foreign hRange hPaged hForeign]
    exact hStocked.kept p hKernel

theorem spec_load
    (hStocked : Stocked mapped wide nx start rights content
      x e)
    (hRange : off + length ≤ kuSize)
    (hAllows : ∀ i < kuPages, off / 4096 ≤ i →
      i * 4096 < off + length → rights i &&& kuR = kuR) :
    (kuLoad mapped off src length).Spec (fun r x' e' =>
      r = 0 ∧ e' = e ∧
        Stocked mapped wide nx start rights
          (overlay content off length src) x' e) x e := by
  have hAllows' : Allows x.space off length kuR := by
    intro i hFrom hBelow
    have hIndex : i < kuPages := by
      change off + length ≤ 0x200000 at hRange
      change i < 512
      omega
    rw [hStocked.rights i hIndex]
    exact hAllows i hIndex hFrom hBelow
  have hCheck : kuCheck mapped x.space x.mem off length
      kuR = true :=
    (kuCheck_iff hStocked.spine hStocked.sound hStocked.live
      (by decide) (by decide)).mpr ⟨hRange, fun _ => hAllows'⟩
  have hPaged := hStocked.spine.paged (by decide) hRange
    hAllows'
  unfold kuLoad
  refine spec_state (spec_ite ?_ ?_)
  · intro hRefused
    rw [hStocked.pins, hCheck] at hRefused
    cases hRefused
  · intro _
    exact ⟨trivial, rfl, rfl,
      hStocked.copied hRange hPaged⟩

end Loading

--
-- Accepted Images
--

section Validate

variable {image : List UInt8} {arch64 : Int} {p : KiPlan}

variable {off n : Nat}

theorem readAt_inside
    (hInside : off + n ≤ image.length) :
    readAt image off n =
      some ((Buf.ofList image).drop off) :=
  if_pos hInside

theorem u32at_inside
    (hInside : off + 4 ≤ image.length) :
    u32at image off =
      some (((Buf.ofList image).drop off).get32 0) := by
  rw [u32at, readAt_inside hInside]
  rfl

theorem u16at_inside
    (hInside : off + 2 ≤ image.length) :
    u16at image off =
      some (((Buf.ofList image).drop off).get16 0) := by
  rw [u16at, readAt_inside hInside]
  rfl

/- The reads of the header are inside an image. -/
theorem headerOk_isSome
    (arch64 : Int)
    (hLength : 96 ≤ image.length) :
    ∃ ok, headerOk image arch64 = some ok := by
  unfold headerOk
  rw [readAt_inside (by omega), u16at_inside (by omega),
    u16at_inside (by omega), u32at_inside (by omega),
    u32at_inside (by omega), u32at_inside (by omega),
    u32at_inside (by omega), u32at_inside (by omega),
    u32at_inside (by omega)]
  exact ⟨_, rfl⟩

theorem readPlan_isSome
    (hLength : 96 ≤ image.length) :
    ∃ plan, readPlan image = some plan := by
  unfold readPlan
  rw [u32at_inside (by omega), u32at_inside (by omega),
    u32at_inside (by omega), u32at_inside (by omega),
    u32at_inside (by omega), u32at_inside (by omega),
    u32at_inside (by omega), readAt_inside (by omega)]
  exact ⟨_, rfl⟩

theorem paddingZero_isSome
    (hInside : off + n ≤ image.length) :
    ∃ ok, paddingZero image off n = some ok := by
  induction n generalizing off with
  | zero => exact ⟨true, rfl⟩
  | succ n ih =>
      unfold paddingZero
      rw [readAt_inside (by omega)]
      by_cases hByte : ((Buf.ofList image).drop off) 0 = 0
      · rcases @ih (off + 1) (by omega) with ⟨ok, hOk⟩
        refine ⟨ok, ?_⟩
        simpa [hByte] using hOk
      · exact ⟨false, by simp [hByte]⟩

/-
  The fields of a plan fit each other and the image: the
  regions follow one another in the arena.
-/
structure PlanFits
    (image : List UInt8)
    (p : KiPlan) : Prop where
  text : 0 < p.textBytes
  textInside : kiHeader + p.textBytes ≤ image.length
  entry : kuBase ≤ p.entry ∧ p.entry < kuBase + p.textBytes
  aligned : p.dataVa % 4096 = 0
  afterText : pagesIn p.textBytes * 4096 ≤ p.dataVa
  data : p.dataVa + (p.dataBytes + p.bssBytes) ≤ kiBootOff
  dataInside : kiHeader + p.dataFile + p.dataBytes =
    image.length
  afterFile : p.textBytes ≤ p.dataFile
  stack : 4096 ≤ p.stackBytes ∧ p.stackBytes ≤ 65536
  stackAligned : p.stackBytes % 4096 = 0

theorem planOk_fits
    {bss : Nat}
    (hLength : kiHeader ≤ image.length)
    (hOk : planOk p (image.length - kiHeader) bss = true) :
    PlanFits image p := by
  have hBase : kuBase = 0xE00000 := rfl
  have hBoot : kiBootOff = 0x1E0000 := rfl
  have hHeader : kiHeader = 96 := rfl
  simp only [planOk, Bool.and_eq_true, bne_iff_ne,
    beq_iff_eq, decide_eq_true_eq] at hOk
  rw [hBase, hBoot, hHeader, wholePages] at hOk
  rw [hHeader] at hLength
  constructor
  case afterText =>
    rw [pagesIn]
    omega
  all_goals omega

/- An image that is accepted has a plan that fits it. -/
structure Accepted
    (image : List UInt8)
    (arch64 : Int)
    (p : KiPlan) : Prop where
  arch : arch64 = 0 ∨ arch64 = 1
  plan : readPlan image = some p
  fits : PlanFits image p

/- A check reads nothing outside of the image. -/
theorem kiValidate_cases
    (image : List UInt8)
    (arch64 : Int) :
    kiValidate image arch64 = .failed ∨
      ∃ p, kiValidate image arch64 = .ok p ∧
        Accepted image arch64 p := by
  unfold kiValidate
  refine iteInduction (motive := fun r =>
    r = KiResult.failed ∨
      ∃ p, r = .ok p ∧ Accepted image arch64 p)
    (fun _ => .inl rfl) ?_
  intro hAccepted
  simp only [Bool.or_eq_true, Bool.and_eq_true, bne_iff_ne,
    decide_eq_true_eq, not_or, not_and, ne_eq,
    Decidable.not_not, Nat.not_lt] at hAccepted
  rcases hAccepted with ⟨⟨hArch, hLength⟩, hShort⟩
  have hArch : arch64 = 0 ∨ arch64 = 1 :=
    or_iff_not_imp_left.mpr hArch
  rcases headerOk_isSome arch64 hLength with ⟨ok, hHeader⟩
  rcases readPlan_isSome hLength with ⟨p, hPlan⟩
  have hBss : u32at image 28 = some _ :=
    u32at_inside (Nat.le_trans (by decide) hLength)
  rw [hHeader, hPlan, hBss]
  cases ok with
  | false => exact .inl rfl
  | true =>
      simp only [Option.bind_eq_bind, Option.bind_some,
        Bool.not_true, Bool.false_eq_true, if_false]
      by_cases hOk : planOk p (image.length - kiHeader)
          (((Buf.ofList image).drop 28).get32 0) = true
      · have hFits := planOk_fits hLength hOk
        have hPadding : kiHeader + p.textBytes +
            (p.dataFile - p.textBytes) ≤ image.length := by
          have hInside := hFits.dataInside
          have hAfter := hFits.afterFile
          omega
        rcases paddingZero_isSome hPadding with ⟨zero, hZero⟩
        rw [hOk, hZero]
        cases hTitle : p.title.contains 0 with
        | false => exact .inl rfl
        | true =>
            cases zero with
            | false => exact .inl rfl
            | true => exact .inr ⟨p, rfl, hArch, hPlan, hFits⟩
      · rw [Bool.not_eq_true] at hOk
        rw [hOk]
        exact .inl rfl

theorem kiValidate_ok
    (hOk : kiValidate image arch64 = .ok p) :
    Accepted image arch64 p := by
  rcases kiValidate_cases image arch64 with
    hFailed | ⟨q, hOk', hAccepted⟩
  · rw [hFailed] at hOk
    cases hOk
  · rw [hOk'] at hOk
    cases hOk
    exact hAccepted

end Validate

--
-- The Pages of a Plan
--

/- Where the regions of a plan lie, in pages. -/
structure PlanPages (p : KiPlan) : Prop where
  text : 0 + pagesIn p.textBytes * 4096 ≤ kuSize
  afterText : pagesIn p.textBytes ≤ p.dataVa / 4096
  data : p.dataVa + pagesIn (p.dataBytes + p.bssBytes) * 4096 ≤
    kuSize
  beforeBoot : p.dataVa / 4096 +
    pagesIn (p.dataBytes + p.bssBytes) ≤ 480
  afterBoot : 481 ≤ (kuSize - p.stackBytes) / 4096
  stack : kuSize - p.stackBytes +
    pagesIn p.stackBytes * 4096 = kuSize
  stackAligned : (kuSize - p.stackBytes) % 4096 = 0

theorem PlanFits.pages
    {image : List UInt8}
    {p : KiPlan}
    (hFits : PlanFits image p) :
    PlanPages p := by
  have hBoot : kiBootOff = 0x1E0000 := rfl
  have hSize : kuSize = 0x200000 := rfl
  rcases hFits with
    ⟨-, -, -, hAligned, hAfter, hData, -, -, hStack, hWhole⟩
  constructor
  all_goals
    unfold pagesIn at *
    omega

section Pages

variable {mapped : Nat → Bool} {wide nx : Bool}
variable {start : PhysMem}
variable {rights : Nat → Nat} {content : Nat → UInt8}
variable {x : KuWorld} {e : KuEnv} {p : KiPlan}

/- One region after the other. -/
theorem spec_andMap
    {m next : KuM Bool}
    {rights' : Nat → Nat}
    (hFirst : m.Spec (fun all x' e' =>
      Painted mapped wide nx start rights e (all = true)
        x' e') x e)
    (hNext : ∀ x' e', Stocked mapped wide nx start rights
      (fun _ => 0) x' e' →
        next.Spec (fun all x'' e'' =>
          Painted mapped wide nx start rights' e'
            (all = true) x'' e'') x' e') :
    KuM.Spec (do
      if !(← m) then pure false else next)
      (fun all x' e' =>
        Painted mapped wide nx start rights' e (all = true)
          x' e') x e := by
  refine KuM.Spec.seq hFirst ?_
  rintro all x' e' ⟨hRan, rights₁, hStocked, hPaint⟩
  cases all with
  | false =>
      refine spec_ite (fun _ => ?_)
        (fun hNot => (hNot rfl).elim)
      refine spec_pure ⟨hRan, rights₁, hStocked, ?_⟩
      intro hTrue
      cases hTrue
  | true =>
      refine spec_ite (fun hNot => by cases hNot)
        (fun _ => ?_)
      have hSame := hPaint rfl
      subst hSame
      refine (hNext x' e' hStocked).weaken ?_
      rintro all x'' e'' ⟨hRan', hStocked'⟩
      exact ⟨(hRan.trans hRan').iff (by simp), hStocked'⟩

theorem spec_mapPlan
    (hStocked : Stocked mapped wide nx start (fun _ => 0)
      (fun _ => 0) x e)
    (hPages : PlanPages p)
    (hAligned : p.dataVa % 4096 = 0) :
    (mapPlan mapped p).Spec (fun all x' e' =>
      Painted mapped wide nx start (planRights p) e
        (all = true) x' e') x e := by
  have hBoot : kiBootOff / 4096 = 480 := rfl
  rcases hPages with ⟨hText, hAfter, hData, hBefore,
    hBelow, hStack, hWhole⟩
  unfold mapPlan
  refine spec_andMap (spec_mapPages hStocked hText rfl
    (by decide) (fun _ _ _ => rfl)) ?_
  intro x₁ e₁ hStocked₁
  refine spec_andMap (spec_mapPages hStocked₁ hData hAligned
    (by decide) ?_) ?_
  · intro i hFrom hTo
    exact if_neg (by omega)
  intro x₂ e₂ hStocked₂
  refine spec_andMap (spec_mapPages hStocked₂
    (Nat.le_of_eq hStack) hWhole (by decide) ?_) ?_
  · intro i hFrom hTo
    exact (if_neg (by omega)).trans (if_neg (by omega))
  intro x₃ e₃ hStocked₃
  refine KuM.Spec.seq (spec_mapPage hStocked₃ (by decide)
    rfl (by decide) ?_) ?_
  · rw [hBoot]
    exact ((if_neg (by omega)).trans
      (if_neg (by omega))).trans (if_neg (by omega))
  · rintro res x₄ e₄ ⟨hRan, rights₄, hStocked₄, hPaint⟩
    refine spec_pure ⟨hRan.iff (by simp), rights₄,
      hStocked₄, ?_⟩
    intro hAll
    exact hPaint (eq_of_beq hAll)

variable {i : Nat}

/- The pages of a plan can be read. -/
theorem planRights_text
    (hPages : PlanPages p)
    (hText : i < pagesIn p.textBytes) :
    planRights p i = kuR ||| kuX := by
  have hBoot : kiBootOff / 4096 = 480 := rfl
  rcases hPages with ⟨-, hAfter, -, hBefore, hBelow, -, -⟩
  unfold planRights
  rw [paint, if_neg (by omega), paint, if_neg (by omega),
    paint, if_neg (by omega), paint, if_pos (by omega)]

theorem planRights_data
    (hPages : PlanPages p)
    (hFrom : p.dataVa / 4096 ≤ i)
    (hTo : i < p.dataVa / 4096 +
      pagesIn (p.dataBytes + p.bssBytes)) :
    planRights p i = kuR ||| kuW := by
  have hBoot : kiBootOff / 4096 = 480 := rfl
  rcases hPages with ⟨-, hAfter, -, hBefore, hBelow, -, -⟩
  unfold planRights
  rw [paint, if_neg (by omega), paint, if_neg (by omega),
    paint, if_pos ⟨hFrom, hTo⟩]

theorem planRights_stack
    (hPages : PlanPages p)
    (hFrom : (kuSize - p.stackBytes) / 4096 ≤ i)
    (hTo : i < kuPages) :
    planRights p i = kuR ||| kuW := by
  have hBoot : kiBootOff / 4096 = 480 := rfl
  have hSize : kuSize = 0x200000 := rfl
  have hCount : kuPages = 512 := rfl
  rcases hPages with ⟨-, -, -, -, hBelow, hStack, -⟩
  unfold planRights
  rw [paint, if_neg (by omega), paint, if_pos (by omega)]

theorem planRights_boot :
    planRights p (kiBootOff / 4096) = kuR := by
  unfold planRights
  rw [paint, if_pos ⟨Nat.le_refl _, Nat.lt_succ_self _⟩]

theorem planRights_none
    (hText : pagesIn p.textBytes ≤ i)
    (hData : i < p.dataVa / 4096 ∨ p.dataVa / 4096 +
      pagesIn (p.dataBytes + p.bssBytes) ≤ i)
    (hStack : i < (kuSize - p.stackBytes) / 4096 ∨
      (kuSize - p.stackBytes) / 4096 +
        pagesIn p.stackBytes ≤ i)
    (hBoot : i ≠ kiBootOff / 4096) :
    planRights p i = 0 := by
  unfold planRights
  rw [paint, if_neg (by omega), paint, if_neg (by omega),
    paint, if_neg (by omega), paint, if_neg (by omega)]

--
-- Loading
--

variable {image : List UInt8} {arch64 nx₀ : Int} {root : Nat}
variable {x₀ : KuWorld} {e₀ : KuEnv}

/- The copies of the text and of the data succeed. -/
theorem spec_loadPlan
    (hStocked : Stocked mapped wide nx start (planRights p)
      (fun _ => 0) x e)
    (hFits : PlanFits image p) :
    (loadPlan mapped image p).Spec (fun r x' e' =>
      r = Option.some true ∧ e' = e ∧
        Stocked mapped wide nx start (planRights p)
          (planByte image p) x' e) x e := by
  have hPages := hFits.pages
  have hText := hFits.textInside
  have hData := hFits.dataInside
  have hBoot : kiBootOff = 0x1E0000 := rfl
  have hSize : kuSize = 0x200000 := rfl
  unfold loadPlan
  rw [readAt_inside hText, readAt_inside (by omega)]
  refine KuM.Spec.seq (spec_load hStocked ?_ ?_) ?_
  · have hRange := hPages.text
    unfold pagesIn at hRange
    omega
  · intro i _ _ hBelow
    rw [planRights_text hPages]
    · decide
    · unfold pagesIn
      omega
  rintro r₁ x₁ e₁ ⟨rfl, rfl, hStocked₁⟩
  refine spec_ite (fun hNot => by cases hNot) (fun _ => ?_)
  refine KuM.Spec.seq (spec_load hStocked₁ ?_ ?_) ?_
  · have hRange := hFits.data
    omega
  · intro i _ hFrom hBelow
    have hAligned := hFits.aligned
    rw [planRights_data hPages hFrom]
    · decide
    · unfold pagesIn
      omega
  rintro r₂ x₂ e₂ ⟨rfl, rfl, hStocked₂⟩
  exact spec_pure ⟨rfl, rfl, hStocked₂⟩

/- What the loading of an image ends in. -/
structure Loaded
    (mapped : Nat → Bool)
    (root : Nat)
    (image : List UInt8)
    (arch64 nx : Int)
    (x : KuWorld)
    (e : KuEnv)
    (r : KiResult)
    (x' : KuWorld)
    (e' : KuEnv) : Prop where
  ran : ∃ ok, Ran mapped e e' ok ∧
    ((∃ p, r = .ok p) ↔
      (∃ p, kiValidate image arch64 = .ok p) ∧
        createArgs arch64 nx ∧
        kernelSpine mapped (arch64 == 1) x.mem root = true ∧
        ok)
  inside : r ≠ .fault
  sound : Sound mapped x'.space e'
  kept : ∀ p, e.kernel p → x'.mem p = x.mem p
  failed : r = .failed → x'.space = .zero
  done : ∀ p, r = .ok p →
    kiValidate image arch64 = .ok p ∧
      Stocked mapped (arch64 == 1) (nx == 1) x.mem
        (planRights p) (planByte image p) x' e'

/- Nothing was done for an image or a space of no use. -/
theorem Loaded.refused
    (hSound : Sound mapped x.space e)
    (hDead : x.space.live = false)
    (hNot : (∃ p, kiValidate image arch64 = .ok p) →
      ¬createArgs arch64 nx₀) :
    Loaded mapped root image arch64 nx₀ x e .failed x e where
  ran := by
    refine ⟨True, Ran.refl mapped e, ?_⟩
    constructor
    · rintro ⟨p, hOk⟩
      cases hOk
    · rintro ⟨hOk, hArgs, -⟩
      exact absurd hArgs (hNot hOk)
  inside := KiResult.noConfusion
  sound := hSound
  kept := fun _ _ => rfl
  failed := fun _ => hSound.dead hDead
  done := fun _ hOk => by cases hOk

/- A load that failed midway takes the space down again. -/
theorem spec_kiFail
    {ok : Prop}
    (hStocked : Stocked mapped wide nx x₀.mem rights content
      x e)
    (hRan : Ran mapped e₀ e ok)
    (hNot : ¬ok) :
    kiFail.Spec
      (Loaded mapped root image arch64 nx₀ x₀ e₀) x e := by
  have hSound := hStocked.sound
  refine KuM.Spec.seq
    (spec_kuDestroy hSound hStocked.pins hStocked.live) ?_
  rintro r x' e' ⟨-, hSpace, hZero, hEnd, hMem⟩
  refine spec_pure ⟨⟨ok, (hRan.trans hEnd).iff (by simp),
    ?_⟩, KiResult.noConfusion, ?_, ?_, fun _ => hSpace,
    fun _ hOk => by cases hOk⟩
  · constructor
    · rintro ⟨p, hOk⟩
      cases hOk
    · rintro ⟨-, -, -, hOk⟩
      exact absurd hOk hNot
  · rw [hSpace]
    exact hZero
  · intro p hKernel
    rw [← hRan.kernel] at hKernel
    rw [hMem p fun hOwns => hSound.kernel p hOwns hKernel]
    exact hStocked.kept p hKernel

/- A space that was just created is stocked with nothing. -/
theorem Created.stocked
    {top : Nat}
    {mem : PhysMem}
    {x' : KuWorld} {e' : KuEnv}
    (hCreated : Created mapped wide nx top mem e 0 x' e') :
    Stocked mapped wide nx mem (fun _ => 0) (fun _ => 0)
      x' e' := by
  rcases hCreated.ran with ⟨ok, hRan, -⟩
  rcases hCreated.done rfl with ⟨ps, hSpace, hSpine⟩
  have hFrames : ∀ i, x'.space.frames i = 0 := by
    intro i
    rw [hSpace]
    rfl
  constructor
  · exact hCreated.sound
  · rw [hSpace]
    rfl
  · rw [hSpace]
    rfl
  · rw [hSpace]
    rfl
  · rw [hSpace]
    rfl
  · exact hSpine
  · intro i _
    rw [hSpace]
    rfl
  · intro o _ hUsed
    exact absurd (hFrames _) hUsed
  · intro q hKernel
    rw [hRan.kernel] at hKernel
    exact hCreated.kept q hKernel

/- `ki_load` on a space that is not live. -/
theorem spec_kiLoad
    (hSound : Sound mapped x.space e)
    (hDead : x.space.live = false)
    (hKernel : KernelRoot (arch64 == 1) x.mem e root) :
    (kiLoad mapped root image arch64 nx₀).Spec
      (Loaded mapped root image arch64 nx₀ x e) x e := by
  unfold kiLoad
  rcases kiValidate_cases image arch64 with
    hFailed | ⟨p, hOk, hAccepted⟩
  · rw [hFailed]
    refine spec_pure (Loaded.refused hSound hDead ?_)
    rintro ⟨p, hOk⟩
    rw [hFailed] at hOk
    cases hOk
  · rw [hOk]
    by_cases hArgs : createArgs arch64 nx₀
    · refine KuM.Spec.seq
        (spec_kuCreate hSound hDead hArgs hKernel) ?_
      intro res x₁ e₁ hCreated
      have hRan₁ := hCreated.ran
      refine spec_ite ?_ ?_
      · intro hNone
        have hNone : res ≠ 0 := by simpa using hNone
        rcases hRan₁ with ⟨ok, hRan, hIff⟩
        have hFailed :=
          hCreated.failed (hCreated.result.resolve_left hNone)
        refine spec_pure ⟨⟨ok, hRan, ?_⟩,
          KiResult.noConfusion, hCreated.sound,
          hCreated.kept, fun _ => hFailed,
          fun _ hOk => by cases hOk⟩
        constructor
        · rintro ⟨p, hOk⟩
          cases hOk
        · rintro ⟨-, -, hBoth⟩
          exact absurd (hIff.mpr hBoth) hNone
      · intro hDone
        have hDone : res = 0 := by simpa using hDone
        subst hDone
        rcases hRan₁ with ⟨ok, hRan, hIff⟩
        rcases hIff.mp rfl with ⟨hSpine, hEnough⟩
        have hFits := hAccepted.fits
        refine KuM.Spec.seq (spec_mapPlan hCreated.stocked
          hFits.pages hFits.aligned) ?_
        rintro all x₂ e₂ ⟨hRan₂, rights₂, hStocked₂, hPaint⟩
        have hBoth := hRan.trans hRan₂
        cases all with
        | false =>
            refine spec_ite (fun _ => ?_)
              (fun hNot => (hNot rfl).elim)
            exact spec_kiFail hStocked₂ hBoth (by simp)
        | true =>
            refine spec_ite (fun hNot => by cases hNot)
              (fun _ => ?_)
            have hSame := hPaint rfl
            subst hSame
            refine KuM.Spec.seq
              (spec_loadPlan hStocked₂ hFits) ?_
            rintro r₃ x₃ e₃ ⟨rfl, rfl, hStocked₃⟩
            refine spec_pure ⟨⟨_, hBoth, ?_⟩,
              KiResult.noConfusion, hStocked₃.sound, ?_, ?_,
              ?_⟩
            · simp [hOk, hArgs, hSpine, hEnough]
            · intro q hQ
              apply hStocked₃.kept
              rw [hBoth.kernel]
              exact hQ
            · intro hNot
              cases hNot
            · intro q hSame
              cases hSame
              exact ⟨hOk, hStocked₃⟩
    · refine KuM.Spec.seq
        (spec_kuCreate_refused (.inr hArgs)) ?_
      rintro res x₁ e₁ ⟨rfl, rfl, rfl⟩
      refine spec_ite (fun _ => ?_)
        (fun hNot => (hNot rfl).elim)
      exact spec_pure
        (Loaded.refused hSound hDead (fun _ => hArgs))

/- `ki_load` on a live space does nothing. -/
theorem spec_kiLoad_live
    (hLive : x.space.live = true) :
    (kiLoad mapped root image arch64 nx₀).Spec
      (fun r x' e' => r = .failed ∧ x' = x ∧ e' = e)
      x e := by
  unfold kiLoad
  rcases kiValidate_cases image arch64 with
    hFailed | ⟨p, hOk, -⟩
  · rw [hFailed]
    exact spec_pure ⟨rfl, rfl, rfl⟩
  · rw [hOk]
    refine KuM.Spec.seq
      (spec_kuCreate_refused (.inl hLive)) ?_
    rintro res x₁ e₁ ⟨rfl, rfl, rfl⟩
    exact spec_ite (fun _ => spec_pure ⟨rfl, rfl, rfl⟩)
      (fun hNot => (hNot rfl).elim)

end Pages

end KvantOS.User
