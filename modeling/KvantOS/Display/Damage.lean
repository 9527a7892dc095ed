import KvantOS.Display.Rects

/-
  This file models the damage list of the source file
  `gui.c` and proves that it loses no pixel of a rectangle
  that was added.

  Key definitions include:
    * `Damage`, `Damage.run`
    * `damageAddRect`, `mergeLoop`
    * `Damage.Valid`, `Damage.Covers`

  Key theorems include:
    * `mergeLoop_merged`, `Damage.Valid.step`
    * `damage_loses_nothing`
-/

namespace KvantOS.Display

--
-- The Damage List
--

/- `GUI_MAX_DIRTY`. -/
def guiMaxDirty : Nat := 24

/- `dirty_rects`, up to `dirty_count`, and `dirty_all`. -/
structure Damage where
  rects : List ClipRect
  dirtyAll : Bool

/- The list after it was emptied. -/
def Damage.empty : Damage :=
  ⟨[], false⟩

/- `damage_touches`. -/
def damageTouches (a b : ClipRect) : Bool :=
  a.x ≤ b.x + b.w && b.x ≤ a.x + a.w &&
    a.y ≤ b.y + b.h && b.y ≤ a.y + a.h

/- `damage_full`. -/
def damageFull : Damage :=
  ⟨[], true⟩

/- The rectangle that two are merged to. -/
def boundingBox (added r : ClipRect) : ClipRect :=
  let x0 := if added.x < r.x then added.x else r.x
  let y0 := if added.y < r.y then added.y else r.y
  let x1 := if r.x + r.w < added.x + added.w then
    added.x + added.w else r.x + r.w
  let y1 := if r.y + r.h < added.y + added.h then
    added.y + added.h else r.y + r.h
  ⟨x0, y0, x1 - x0, y1 - y0⟩

/-
  The loop that merges. A turn passes a rectangle, or removes
  one and starts again.
-/
def mergeLoop
    (added : ClipRect)
    (rects : List ClipRect)
    (i : Nat) : ClipRect × List ClipRect :=
  if hIn : i < rects.length then
    if damageTouches added rects[i] then
      mergeLoop (boundingBox added rects[i])
        (rects.eraseIdx i) 0
    else
      mergeLoop added rects (i + 1)
  else
    (added, rects)
termination_by (rects.length, rects.length - i)
decreasing_by
  · have := List.length_eraseIdx_of_lt hIn
    exact Prod.Lex.left _ _ (by omega)
  · exact Prod.Lex.right _ (by omega)

/- The loop over the areas, which ends at the screen's. -/
def areaLoop
    (screenArea : UInt32) :
    (area : UInt32) → List ClipRect → UInt32
  | area, [] => area
  | area, r :: rects =>
      let rarea := r.w.toUInt32 * r.h.toUInt32
      if screenArea - area ≤ rarea then
        screenArea
      else
        areaLoop screenArea (area + rarea) rects

/- `damage_add_rect`. -/
def damageAddRect
    (scrW scrH : UInt32)
    (s : Damage)
    (r : ClipRect) : Damage :=
  if s.dirtyAll = true ∨ scrW = 0 ∨ scrH = 0 then
    s
  else
    match cutToScreen scrW.toInt32 scrH.toInt32 r with
    | none => s
    | some added =>
        let (added, rects) := mergeLoop added s.rects 0
        if guiMaxDirty ≤ rects.length then
          damageFull
        else
          let rects := rects ++ [added]
          let screenArea := scrW * scrH
          if screenArea / 2 < areaLoop screenArea 0 rects then
            damageFull
          else
            ⟨rects, false⟩

/- The calls that change the list. -/
inductive DamageCall where
  | addRect (r : ClipRect)
  | full
  deriving DecidableEq

def Damage.step
    (scrW scrH : UInt32)
    (s : Damage) : DamageCall → Damage
  | .addRect r => damageAddRect scrW scrH s r
  | .full => damageFull

/- The calls since the list was emptied. -/
def Damage.run
    (scrW scrH : UInt32)
    (calls : List DamageCall) : Damage :=
  calls.foldl (Damage.step scrW scrH) Damage.empty

--
-- Merges
--

section Merges

variable {a b added : ClipRect} {rects : List ClipRect}
variable {sw sh : Int}

theorem damageTouches_iff
    (hWide : sw < 2 ^ 31)
    (hHigh : sh < 2 ^ 31)
    (hA : a.box.Inside sw sh)
    (hB : b.box.Inside sw sh) :
    damageTouches a b = true ↔ a.box.Touches b.box := by
  obtain ⟨hLeft, hTop, hW, hH, hRight, hBottom⟩ := hA
  obtain ⟨hLeft', hTop', hW', hH', hRight', hBottom'⟩ := hB
  unfold ClipRect.box at *
  dsimp only at *
  unfold damageTouches Box.Touches
  simp only [Bool.and_eq_true, decide_eq_true_eq,
    Int32.le_iff_toInt_le]
  rw [toInt_add_eq (by omega) (by omega),
    toInt_add_eq (by omega) (by omega),
    toInt_add_eq (by omega) (by omega),
    toInt_add_eq (by omega) (by omega), and_assoc]

theorem boundingBox_box
    (hWide : sw < 2 ^ 31)
    (hHigh : sh < 2 ^ 31)
    (hA : a.box.Inside sw sh)
    (hB : b.box.Inside sw sh) :
    (boundingBox a b).box = a.box.join b.box := by
  obtain ⟨hLeft, hTop, hW, hH, hRight, hBottom⟩ := hA
  obtain ⟨hLeft', hTop', hW', hH', hRight', hBottom'⟩ := hB
  unfold ClipRect.box at *
  dsimp only at *
  have hX := toInt_min a.x b.x
  have hY := toInt_min a.y b.y
  have hXW := toInt_max (a.x + a.w) (b.x + b.w)
  have hYH := toInt_max (a.y + a.h) (b.y + b.h)
  rw [toInt_add_eq (by omega) (by omega),
    toInt_add_eq (by omega) (by omega)] at hXW hYH
  unfold boundingBox Box.join
  dsimp only
  rw [toInt_sub_eq (by omega) (by omega),
    toInt_sub_eq (by omega) (by omega), hX, hY, hXW, hYH]

/- What the loop returns, for what it is given. -/
structure Merged
    (sw sh : Int)
    (added : ClipRect)
    (rects : List ClipRect)
    (out : ClipRect × List ClipRect) : Prop where
  inside : out.1.box.Inside sw sh
  sub : out.2.Sublist rects
  apart : ∀ r ∈ out.2, ¬out.1.box.Touches r.box
  added : added.box.points ⊆ out.1.box.points
  kept : ∀ r ∈ rects, r ∈ out.2 ∨
    r.box.points ⊆ out.1.box.points

theorem mem_eraseIdx_or
    {r : ClipRect}
    {i : Nat}
    (hIn : i < rects.length)
    (hMem : r ∈ rects) :
    r = rects[i] ∨ r ∈ rects.eraseIdx i := by
  rw [← List.take_append_drop i rects,
    List.drop_eq_getElem_cons hIn, List.mem_append,
    List.mem_cons] at hMem
  rw [List.eraseIdx_eq_take_drop_succ, List.mem_append]
  tauto

/- The loop passed only rectangles that do not touch. -/
theorem mergeLoop_merged
    (hWide : sw < 2 ^ 31)
    (hHigh : sh < 2 ^ 31)
    (added : ClipRect)
    (rects : List ClipRect)
    (i : Nat)
    (hAdded : added.box.Inside sw sh)
    (hRects : ∀ r ∈ rects, r.box.Inside sw sh)
    (hPassed : ∀ r ∈ rects.take i,
      ¬added.box.Touches r.box) :
    Merged sw sh added rects (mergeLoop added rects i) := by
  induction added, rects, i using mergeLoop.induct with
  | case1 added rects i hIn hTouch ih =>
      rw [mergeLoop, dif_pos hIn, if_pos hTouch]
      have hMem := List.getElem_mem hIn
      have hBox := boundingBox_box hWide hHigh hAdded
        (hRects _ hMem)
      have hSub := List.eraseIdx_sublist rects i
      have hNext := ih
        (by rw [hBox]; exact hAdded.join (hRects _ hMem))
        (fun r hIn => hRects r (hSub.mem hIn))
        (fun r hIn => by cases hIn)
      have hLeft := hBox ▸ hNext.added
      refine ⟨hNext.inside, hNext.sub.trans hSub, hNext.apart,
        Box.subset_join_left.trans hLeft, fun r hOld => ?_⟩
      rcases mem_eraseIdx_or hIn hOld with rfl | hRest
      · exact .inr (Box.subset_join_right.trans hLeft)
      · exact hNext.kept r hRest
  | case2 added rects i hIn hTouch ih =>
      rw [mergeLoop, dif_pos hIn, if_neg hTouch]
      refine ih hAdded hRects fun r hMem => ?_
      rw [List.take_succ_eq_append_getElem hIn] at hMem
      rcases List.mem_append.mp hMem with hOld | hNew
      · exact hPassed r hOld
      · rw [List.mem_singleton.mp hNew,
          ← damageTouches_iff hWide hHigh hAdded
            (hRects _ (List.getElem_mem hIn))]
        exact hTouch
  | case3 added rects i hOut =>
      rw [mergeLoop, dif_neg hOut]
      rw [List.take_of_length_le (by omega)] at hPassed
      exact ⟨hAdded, List.Sublist.refl _, hPassed,
        subset_rfl, fun r hMem => .inl hMem⟩

end Merges

--
-- Runs
--

namespace Damage

/-
  The rectangles are few, on the screen, not empty, and none
  touches another.
-/
structure Valid (sw sh : Int) (s : Damage) : Prop where
  few : s.rects.length ≤ guiMaxDirty
  inside : ∀ r ∈ s.rects, r.box.Inside sw sh
  apart : s.rects.Pairwise
    fun a b => ¬a.box.Touches b.box

/- The points will be drawn again. -/
def Covers
    (s : Damage)
    (points : Set (Int × Int)) : Prop :=
  s.dirtyAll = true ∨
    ∀ p ∈ points, ∃ r ∈ s.rects, p ∈ r.box.points

theorem valid_empty (sw sh : Int) : empty.Valid sw sh :=
  ⟨Nat.zero_le _, nofun, List.Pairwise.nil⟩

theorem valid_full (sw sh : Int) : damageFull.Valid sw sh :=
  ⟨Nat.zero_le _, nofun, List.Pairwise.nil⟩

section Steps

variable {scrW scrH : UInt32} {s : Damage} {r : ClipRect}

/- The screen, over the integers. -/
def screen (scrW scrH : UInt32) : Set (Int × Int) :=
  (Box.frame scrW.toNat scrH.toNat).points

/- What a call does to a valid list. -/
structure Kept
    (scrW scrH : UInt32)
    (s next : Damage)
    (added : Set (Int × Int)) : Prop where
  valid : next.Valid scrW.toNat scrH.toNat
  covers : ∀ points, s.Covers points → next.Covers points
  added : next.Covers added

theorem kept_full (added : Set (Int × Int)) :
    Kept scrW scrH s damageFull added :=
  ⟨valid_full _ _, fun _ _ => .inl rfl, .inl rfl⟩

theorem damageAddRect_kept
    (hWide : scrW.toNat < 2 ^ 31)
    (hHigh : scrH.toNat < 2 ^ 31)
    (hValid : s.Valid scrW.toNat scrH.toNat)
    (r : ClipRect) :
    Kept scrW scrH s (damageAddRect scrW scrH s r)
      (r.box.points ∩ screen scrW scrH) := by
  unfold damageAddRect
  by_cases hEarly : s.dirtyAll = true ∨ scrW = 0 ∨ scrH = 0
  · rw [if_pos hEarly]
    refine ⟨hValid, fun _ hOld => hOld, ?_⟩
    rcases hEarly with hAll | hNone
    · exact .inl hAll
    · refine .inr fun p hMem => ?_
      have hEmpty : screen scrW scrH = ∅ := by
        refine Box.points_empty ?_
        rcases hNone with rfl | rfl
        · exact .inl (Int.le_refl _)
        · exact .inr (Int.le_refl _)
      rw [hEmpty] at hMem
      cases hMem.2
  rw [if_neg hEarly]
  have hCut := cutToScreen_onScreen scrW.toInt32
    scrH.toInt32 r
  unfold OnScreen at hCut
  rw [toInt_cast hWide, toInt_cast hHigh] at hCut
  cases hLeft : cutToScreen scrW.toInt32 scrH.toInt32 r with
  | none =>
      rw [hLeft] at hCut
      refine ⟨hValid, fun _ hOld => hOld, .inr ?_⟩
      intro p hMem
      change p ∈ _ ∩ (Box.frame _ _).points at hMem
      rw [hCut] at hMem
      cases hMem
  | some added =>
      rw [hLeft] at hCut
      obtain ⟨hInside, hPoints⟩ := hCut
      have hMerged := mergeLoop_merged (by omega) (by omega)
        added s.rects 0 hInside hValid.inside nofun
      dsimp only
      generalize mergeLoop added s.rects 0 = out at hMerged
      obtain ⟨a, rects⟩ := out
      dsimp only
      split
      · exact kept_full _
      split
      · exact kept_full _
      rename_i hRoom _
      refine ⟨⟨?_, ?_, ?_⟩, ?_, .inr ?_⟩
      · show (rects ++ [a]).length ≤ _
        rw [List.length_append, List.length_singleton]
        omega
      · intro q hMem
        rcases List.mem_append.mp hMem with hOld | hNew
        · exact hValid.inside q (hMerged.sub.mem hOld)
        · rw [List.mem_singleton.mp hNew]
          exact hMerged.inside
      · refine List.pairwise_append.mpr
          ⟨hValid.apart.sublist hMerged.sub,
            List.pairwise_singleton _ _, ?_⟩
        intro q hMem b hNew hTouch
        rw [List.mem_singleton.mp hNew] at hTouch
        exact hMerged.apart q hMem (Box.touches_comm.mp hTouch)
      · rintro points (hAll | hOld)
        · exact absurd (.inl hAll) hEarly
        · refine .inr fun p hMem => ?_
          obtain ⟨q, hIn, hPoint⟩ := hOld p hMem
          rcases hMerged.kept q hIn with hStays | hGrown
          · exact ⟨q, List.mem_append_left _ hStays, hPoint⟩
          · exact ⟨a, List.mem_append_right _
              (List.mem_singleton.mpr rfl), hGrown hPoint⟩
      · intro p hMem
        change p ∈ _ ∩ (Box.frame _ _).points at hMem
        rw [← hPoints] at hMem
        exact ⟨a, List.mem_append_right _
          (List.mem_singleton.mpr rfl), hMerged.added hMem⟩

/- The screen points that a call adds. -/
def callPoints
    (scrW scrH : UInt32) : DamageCall → Set (Int × Int)
  | .addRect r => r.box.points ∩ screen scrW scrH
  | .full => screen scrW scrH

/- Every call keeps the list valid and what it covers. -/
theorem step_kept
    (hWide : scrW.toNat < 2 ^ 31)
    (hHigh : scrH.toNat < 2 ^ 31)
    (hValid : s.Valid scrW.toNat scrH.toNat)
    (call : DamageCall) :
    Kept scrW scrH s (s.step scrW scrH call)
      (callPoints scrW scrH call) := by
  cases call with
  | addRect r =>
      exact damageAddRect_kept hWide hHigh hValid r
  | full => exact kept_full _

/- Every run keeps it, from any valid list. -/
theorem foldl_kept
    (hWide : scrW.toNat < 2 ^ 31)
    (hHigh : scrH.toNat < 2 ^ 31)
    (calls : List DamageCall)
    (hValid : s.Valid scrW.toNat scrH.toNat) :
    (calls.foldl (step scrW scrH) s).Valid scrW.toNat
        scrH.toNat ∧
      (∀ points, s.Covers points →
        (calls.foldl (step scrW scrH) s).Covers points) ∧
      ∀ call ∈ calls,
        (calls.foldl (step scrW scrH) s).Covers
          (callPoints scrW scrH call) := by
  induction calls generalizing s with
  | nil => exact ⟨hValid, fun _ hOld => hOld, nofun⟩
  | cons call calls ih =>
      have hStep := step_kept hWide hHigh hValid call
      obtain ⟨hLast, hCovers, hAdded⟩ := ih hStep.valid
      refine ⟨hLast, fun points hOld =>
        hCovers points (hStep.covers points hOld), ?_⟩
      intro c hMem
      rcases List.mem_cons.mp hMem with rfl | hLater
      · exact hCovers _ hStep.added
      · exact hAdded c hLater

end Steps

end Damage

/-
  For a screen whose sizes an `i32` holds, the list stays
  valid and covers what every call added.
-/
theorem damage_loses_nothing
    {scrW scrH : UInt32}
    (hWide : scrW.toNat < 2 ^ 31)
    (hHigh : scrH.toNat < 2 ^ 31)
    (calls : List DamageCall) :
    (Damage.run scrW scrH calls).Valid scrW.toNat
        scrH.toNat ∧
      ∀ r, .addRect r ∈ calls →
        (Damage.run scrW scrH calls).Covers
          (r.box.points ∩ Damage.screen scrW scrH) := by
  obtain ⟨hValid, -, hAdded⟩ := Damage.foldl_kept hWide hHigh
    calls (Damage.valid_empty _ _)
  exact ⟨hValid, fun r hMem => hAdded _ hMem⟩

theorem damage_loses_nothing_corner :
    (Damage.run 640 480 [.addRect ⟨-5, -5, 20, 20⟩]).Valid
        (640 : UInt32).toNat (480 : UInt32).toNat ∧
      ∀ r, .addRect r ∈
          [DamageCall.addRect ⟨-5, -5, 20, 20⟩] →
        (Damage.run 640 480 [.addRect ⟨-5, -5, 20, 20⟩]).Covers
          (r.box.points ∩ Damage.screen 640 480) :=
  damage_loses_nothing (by decide) (by decide) _

/- A width that an `i32` does not hold loses every pixel. -/
theorem wide_screen_lost :
    Damage.run 0x80000000 1 [.addRect ⟨0, 0, 1, 1⟩] =
        Damage.empty ∧
      ¬∀ (scrW scrH : UInt32) (calls : List DamageCall),
        (Damage.run scrW scrH calls).Valid scrW.toNat
            scrH.toNat ∧
          ∀ r, .addRect r ∈ calls →
            (Damage.run scrW scrH calls).Covers
              (r.box.points ∩ Damage.screen scrW scrH) := by
  have hRun : Damage.run 0x80000000 1
      [.addRect ⟨0, 0, 1, 1⟩] = Damage.empty := by
    rfl
  refine ⟨hRun, fun hAll => ?_⟩
  obtain ⟨-, hCovers⟩ := hAll 0x80000000 1
    [.addRect ⟨0, 0, 1, 1⟩]
  have hPoint : ((0, 0) : Int × Int) ∈
      (ClipRect.mk 0 0 1 1).box.points ∩
        Damage.screen 0x80000000 1 :=
    ⟨by decide, Box.mem_points.mpr (by decide)⟩
  rcases hCovers _ (List.mem_singleton.mpr rfl) with
    hFull | hListed
  · rw [hRun] at hFull
    cases hFull
  · obtain ⟨r, hMem, -⟩ := hListed _ hPoint
    rw [hRun] at hMem
    cases hMem

end KvantOS.Display
