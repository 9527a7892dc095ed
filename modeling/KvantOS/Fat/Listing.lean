import KvantOS.Fat.CacheSteps
import KvantOS.Fat.Visits

/-
  This file models `fat_op_readdir_many` and runs it on a
  disk that works. What the driver reads there depends on
  the disk and on few of its fields, and neither the cache
  nor the calls before make a difference.

  Key definitions include:
    * `fatOpReaddirMany`, `fatOpReaddir`
    * `serve`, `Serves`
    * `Resting`, `fatListing`

  Key theorems include:
    * `fetch_serves`, `looks_serves`
    * `fatOpReaddirMany_page`
-/

namespace KvantOS

open FatM

/- `fat_op_readdir_many`; absent for -1. -/
def fatOpReaddirMany
    (v : FatVol)
    (path : List UInt8)
    (index count : Int) :
    FatM (Option (List VfsDirent)) := do
  if index < 0 || count < 1 || count > 128 ||
      index > 0x7FFFFFFF - count then
    pure none
  else if !(← enterVolume) then
    pure none
  else if (← get).writing then
    fatRun v (fatReaddirImpl v path index.toNat count.toNat)
  else
    fatMetaBegin true
    let r ← fatRun v
      (fatReaddirImpl v path index.toNat count.toNat)
    fatMetaBegin false
    pure r

/- `fat_op_readdir`. -/
def fatOpReaddir
    (v : FatVol)
    (path : List UInt8)
    (index : Int) : FatM (Option (List VfsDirent)) :=
  fatOpReaddirMany v path index 1

--
-- Reads
--

/-
  What a command that only looks gives on a disk, with the
  value of `v->error` before and after. The other fields are
  those of `st`.
-/
def serve
    (v : FatVol)
    (d : Device Sector)
    (st : FatState) :
    (command : FatCmd) → Bool → command.Reply × Bool
  | .readSectors sec, e =>
      if !usable v { st with error := e } sec ||
          1 > 64 / v.factor then
        (none, true)
      else
        (some (if st.overlay then
          overlayRecords sec (sectorBuf v d sec) st.tx.undo
          else sectorBuf v d sec), e)
  | .ioEnter, e => if st.fenced then (false, e)
      else (true, false)
  | .getError, e => (e, e)
  | .setError, _ => ((), true)
  | .writeSectors _ _, e => (false, e)
  | .writeData _ _, e => (false, e)
  | .metaFlush, e => (false, e)
  | .sync, e => (false, e)

/- The command changes no sector and sends nothing. -/
def FatCmd.Looks : FatCmd → Prop
  | .readSectors _ => True
  | .ioEnter => True
  | .getError => True
  | .setError => True
  | _ => False

/-
  A driver that is not writing, over the disk `d`: its cache
  holds sectors of the disk.
-/
structure Serves
    (v : FatVol)
    (d : Device Sector)
    (st : FatState)
    (x : FatWorld) : Prop where
  disk : x.2 = d
  fenced : x.1.fenced = st.fenced
  overlay : x.1.overlay = st.overlay
  tx : x.1.tx = st.tx
  writing : x.1.writing = false
  clean : ∀ i, (x.1.slots i).dirty = false
  holds : ∀ i, (x.1.slots i).valid = true →
    (x.1.slots i).data =
      sectorBuf v d (x.1.slots i).sector

section Reads

variable {v : FatVol} {d : Device Sector}
variable {st : FatState} {x : FatWorld}

theorem Serves.setError
    (hServes : Serves v d st x)
    (e : Bool) :
    Serves v d st ({ x.1 with error := e }, x.2) :=
  ⟨hServes.disk, hServes.fenced, hServes.overlay,
    hServes.tx, hServes.writing, hServes.clean,
    hServes.holds⟩

theorem Serves.setNext
    (hServes : Serves v d st x)
    (next : Nat) :
    Serves v d st ({ x.1 with next := next }, x.2) :=
  ⟨hServes.disk, hServes.fenced, hServes.overlay,
    hServes.tx, hServes.writing, hServes.clean,
    hServes.holds⟩

/- A slot may be emptied, or get a sector of the disk. -/
theorem Serves.withSlot
    (hServes : Serves v d st x)
    (i : Fin fatMetaSlots)
    {e : MetaEntry}
    (hClean : e.dirty = false)
    (hHolds : e.valid = true →
      e.data = sectorBuf v d e.sector) :
    Serves v d st (KvantOS.withSlot x.1 i e, x.2) where
  disk := hServes.disk
  fenced := hServes.fenced
  overlay := hServes.overlay
  tx := hServes.tx
  writing := hServes.writing
  clean := by
    intro j
    change (Function.update x.1.slots i e j).dirty = false
    by_cases hEq : j = i
    · rw [hEq, Function.update_self]
      exact hClean
    · rw [Function.update_of_ne hEq]
      exact hServes.clean j
  holds := by
    intro j
    change (Function.update x.1.slots i e j).valid = true →
      (Function.update x.1.slots i e j).data =
        sectorBuf v d
          (Function.update x.1.slots i e j).sector
    by_cases hEq : j = i
    · rw [hEq, Function.update_self]
      exact hHolds
    · rw [Function.update_of_ne hEq]
      exact hServes.holds j

theorem withSlot_self
    (st : FatState)
    (i : Fin fatMetaSlots)
    (e : MetaEntry) :
    (KvantOS.withSlot st i e).slots i = e :=
  Function.update_self ..

theorem victimSlot_serves
    (hServes : Serves v d st x) :
    ∃ i y, eval victimSlot x = (i, y) ∧
      Serves v d st y ∧ y.1.error = x.1.error := by
  unfold victimSlot
  rw [eval_step (eval_get x)]
  cases (List.finRange fatMetaSlots).find?
      (fun i => !(x.1.slots i).valid) with
  | some i => exact ⟨i, x, rfl, hServes, rfl⟩
  | none => exact ⟨_, _, rfl, hServes.setNext _, rfl⟩

/- A slot that is clean need not be written back. -/
theorem flushOne_clean
    {i : Fin fatMetaSlots}
    (hClean : (x.1.slots i).dirty = false) :
    eval (fatMetaFlushOne v i) x = (true, x) := by
  unfold fatMetaFlushOne
  rw [eval_step (eval_get x)]
  simp only [hClean]
  rfl

/- What the cache delivers is the sector of the disk. -/
theorem fetch_serves
    (hServes : Serves v d st x)
    (sec : Nat) :
    ∃ i y, eval (fatMetaFetch v sec true) x = (some i, y) ∧
      Serves v d st y ∧ y.1.error = x.1.error ∧
      (y.1.slots i).data = sectorBuf v d sec := by
  unfold fatMetaFetch
  rw [eval_step (eval_get x)]
  cases hFound : cachedSlot x.1 sec with
  | some i =>
      rcases cachedSlot_some hFound with ⟨hValid, hSector⟩
      have hData := hServes.holds i hValid
      rw [hSector] at hData
      exact ⟨i, x, rfl, hServes, rfl, hData⟩
  | none =>
      rcases victimSlot_serves hServes with
        ⟨i, y, hVictim, hNext, hError⟩
      have hClean := hNext.clean i
      dsimp only
      rw [eval_step hVictim,
        eval_step (flushOne_clean hClean)]
      simp only [Bool.not_true, Bool.false_eq_true, if_false,
        if_true]
      rw [eval_step (eval_setSlot ..),
        eval_step (eval_blkRead ..)]
      dsimp only
      rw [eval_step (eval_setSlot ..)]
      have hEvicted := hNext.withSlot i
        (e := { y.1.slots i with valid := false })
        hClean nofun
      have hFree := hEvicted.clean i
      have hData : diskBuf y.2
          (v.lba + sec * v.factor) v.factor =
            sectorBuf v d sec := by
        rw [hNext.disk]
        rfl
      rw [hData]
      refine ⟨i, _, rfl, hEvicted.withSlot i hFree
        (fun _ => rfl), hError, ?_⟩
      exact congrArg MetaEntry.data (withSlot_self _ i _)

/- A read, on a disk that works. -/
theorem readSectors_serves
    (hServes : Serves v d st x)
    (sec : Nat) :
    ∃ y, eval (readSectors v sec) x =
        ((serve v d st (.readSectors sec) x.1.error).1, y) ∧
      Serves v d st y ∧
      y.1.error =
        (serve v d st (.readSectors sec) x.1.error).2 := by
  have hUsable : usable v x.1 sec =
      usable v { st with error := x.1.error } sec := by
    unfold usable
    rw [hServes.fenced]
  unfold readSectors serve
  rw [eval_step (eval_live x), eval_step (eval_get x),
    hUsable]
  simp only [Bool.not_true, Bool.false_or]
  have hDelivered : ∀ y, Serves v d st y →
      eval (do
        let st ← get
        pure (some (if st.overlay then
          overlayRecords sec (sectorBuf v d sec) st.tx.undo
          else sectorBuf v d sec))) y =
        (some (if st.overlay then
          overlayRecords sec (sectorBuf v d sec) st.tx.undo
          else sectorBuf v d sec), y) := by
    intro y hKept
    rw [eval_step (eval_get y), hKept.overlay, hKept.tx]
    rfl
  split
  · exact ⟨_, rfl, hServes.setError true, rfl⟩
  · split
    · rcases fetch_serves hServes sec with
        ⟨i, y, hFetch, hKept, hError, hData⟩
      refine ⟨y, ?_, hKept, hError⟩
      rw [eval_step hFetch]
      dsimp only
      rw [eval_step (eval_get y), hData,
        eval_step (eval_pure ..)]
      exact hDelivered y hKept
    · refine ⟨x, ?_, hServes, rfl⟩
      have hData : diskBuf x.2 (v.lba + sec * v.factor)
          v.factor = sectorBuf v d sec := by
        rw [hServes.disk]
        rfl
      rw [eval_step (eval_blkRead ..), hData]
      dsimp only
      rw [eval_step (eval_pure ..)]
      exact hDelivered x hServes

/- A driver that is not writing forgets its error. -/
theorem enterVolume_idle
    (hIdle : x.1.writing = false) :
    eval enterVolume x =
      if x.1.fenced then (false, x)
      else (true, ({ x.1 with error := false }, x.2)) := by
  unfold enterVolume
  rw [eval_step (eval_live x)]
  simp only [Bool.not_true, Bool.false_eq_true, if_false]
  rw [eval_step (eval_get x)]
  split
  · rfl
  · rw [if_pos (by rw [hIdle]; rfl)]
    rfl

theorem enterVolume_serves
    (hServes : Serves v d st x) :
    ∃ y, eval enterVolume x =
        ((serve v d st .ioEnter x.1.error).1, y) ∧
      Serves v d st y ∧
      y.1.error = (serve v d st .ioEnter x.1.error).2 := by
  rw [enterVolume_idle hServes.writing, hServes.fenced,
    serve]
  split
  · exact ⟨x, rfl, hServes, rfl⟩
  · exact ⟨_, rfl, hServes.setError false, rfl⟩

/- The driver looks at the disk, and at nothing else. -/
theorem looks_serves
    {α : Type}
    {program : FatProg α}
    (hLooks : program.Only FatCmd.Looks)
    (hServes : Serves v d st x) :
    ∃ y, eval (fatRun v program) x =
        ((program.run (serve v d st) x.1.error).1, y) ∧
      Serves v d st y := by
  induction program generalizing x with
  | ret value => exact ⟨x, rfl, hServes⟩
  | step command next ih =>
      have hStep : ∃ y, eval (fatHandle v command) x =
          ((serve v d st command x.1.error).1, y) ∧
            Serves v d st y ∧
            y.1.error =
              (serve v d st command x.1.error).2 := by
        cases command with
        | readSectors sec => exact readSectors_serves hServes sec
        | ioEnter => exact enterVolume_serves hServes
        | getError => exact ⟨x, rfl, hServes, rfl⟩
        | setError =>
            exact ⟨_, rfl, hServes.setError true, rfl⟩
        | writeSectors sec data => exact hLooks.1.elim
        | writeData sec data => exact hLooks.1.elim
        | metaFlush => exact hLooks.1.elim
        | sync => exact hLooks.1.elim
      rcases hStep with ⟨y, hEval, hKept, hError⟩
      rcases ih _ (hLooks.2 _) hKept with ⟨z, hRest, hLast⟩
      refine ⟨z, ?_, hLast⟩
      rw [hError] at hRest
      change eval (fatHandle v command >>=
        fun reply => fatRun v (next reply)) x = _
      rw [eval_step hEval, hRest]
      rfl

end Reads

--
-- Programs that Look
--

section Looks

variable {v : FatVol}

theorem fatGet_looks (c : Nat) :
    (fatGet v c).Only FatCmd.Looks := by
  unfold fatGet
  split
  · exact ⟨trivial, fun _ => trivial⟩
  · refine ⟨trivial, fun reply => ?_⟩
    cases reply <;> trivial

theorem chainNext_looks (c : Nat) :
    (chainNext v c).Only FatCmd.Looks := by
  apply (fatGet_looks c).bind
  intro n
  split
  · exact ⟨trivial, fun _ => trivial⟩
  · trivial

theorem chainValid_looks (c : Nat) :
    (chainValid v c).Only FatCmd.Looks := by
  have hFloyd : ∀ guard slow fast,
      (floyd v slow fast guard).Only FatCmd.Looks := by
    intro guard
    induction guard with
    | zero =>
        intro slow fast
        exact ⟨trivial, fun _ => trivial⟩
    | succ guard ih =>
        intro slow fast
        unfold floyd
        apply (chainNext_looks slow).bind
        intro slow
        apply (chainNext_looks fast).bind
        intro fast
        refine ⟨trivial, fun bad => ?_⟩
        cases bad with
        | true => trivial
        | false =>
            change Prog.Only _ (if fatIsEoc v fast then
              pure true else _)
            split
            · trivial
            · apply (chainNext_looks fast).bind
              intro fast
              refine ⟨trivial, fun bad => ?_⟩
              cases bad with
              | true => trivial
              | false =>
                  change Prog.Only _ (if fatIsEoc v fast then
                    pure true else if slow == fast then _
                      else _)
                  split
                  · trivial
                  · split
                    · exact ⟨trivial, fun _ => trivial⟩
                    · exact ih ..
  unfold chainValid
  split
  · trivial
  · exact hFloyd ..

theorem walkSectors_looks
    {σ : Type}
    (cb : DirCb σ)
    (sector : Nat)
    (lfn : LfnState)
    (ctx : σ)
    (remaining : Nat) :
    (walkSectors v cb sector lfn ctx remaining).Only
      FatCmd.Looks := by
  induction remaining generalizing sector lfn ctx with
  | zero => trivial
  | succ remaining ih =>
      unfold walkSectors
      refine ⟨trivial, fun reply => ?_⟩
      cases reply with
      | none => trivial
      | some sec =>
          simp only [Prog.bind]
          cases walkEntries cb sec sector 0 lfn ctx
              v.slotsPerSector with
          | more lfn ctx => exact ih ..
          | stop ctx => trivial
          | failed ctx => trivial

theorem walkClusters_looks
    {σ : Type}
    (cb : DirCb σ)
    (clu : Nat)
    (lfn : LfnState)
    (ctx : σ)
    (guard : Nat) :
    (walkClusters v cb clu lfn ctx guard).Only
      FatCmd.Looks := by
  induction guard generalizing clu lfn ctx with
  | zero => trivial
  | succ guard ih =>
      unfold walkClusters
      split
      · trivial
      · apply (walkSectors_looks ..).bind
        intro step
        cases step with
        | more lfn ctx =>
            exact (fatGet_looks _).bind (fun _ => ih ..)
        | stop ctx => trivial
        | failed ctx => trivial

theorem walkDir_looks
    {σ : Type}
    (start : Nat)
    (cb : DirCb σ)
    (ctx : σ) :
    (walkDir v start cb ctx).Only FatCmd.Looks := by
  unfold walkDir
  refine ⟨trivial, fun entered => ?_⟩
  cases entered with
  | false => trivial
  | true =>
      apply (chainValid_looks start).bind
      intro valid
      split
      · trivial
      · split
        · apply (walkSectors_looks ..).bind
          intro step
          cases step <;> trivial
        · exact walkClusters_looks ..

theorem resolvePath_looks (path : List UInt8) :
    (resolvePath v path).Only FatCmd.Looks := by
  have hLoop : ∀ fuel clu p,
      (resolveLoop v clu p fuel).Only FatCmd.Looks := by
    intro fuel
    induction fuel with
    | zero =>
        intro clu p
        trivial
    | succ fuel ih =>
        intro clu p
        unfold resolveLoop
        dsimp only
        split
        · trivial
        · apply (walkDir_looks ..).bind
          intro out
          rcases out with ⟨ok, found⟩
          cases ok with
          | false => trivial
          | true =>
              cases found with
              | none => trivial
              | some found =>
                  dsimp only
                  split
                  · trivial
                  · split
                    · trivial
                    · exact ih ..
  unfold resolvePath
  dsimp only
  split
  · trivial
  · exact hLoop ..

theorem fatReaddirImpl_looks
    (path : List UInt8)
    (index count : Nat) :
    (fatReaddirImpl v path index count).Only
      FatCmd.Looks := by
  unfold fatReaddirImpl
  apply (resolvePath_looks path).bind
  intro found
  cases found with
  | missing => trivial
  | root =>
      exact (walkDir_looks ..).bind (fun _ => trivial)
  | entry f =>
      dsimp only
      split
      · trivial
      · exact (walkDir_looks ..).bind (fun _ => trivial)

end Looks

--
-- Pages
--

/-
  A volume between two calls on the disk `d`: nothing is
  being written, and it is as fenced as `st`. The cache may
  hold anything, because no call keeps it.
-/
structure Resting
    (d : Device Sector)
    (st : FatState)
    (x : FatWorld) : Prop where
  disk : x.2 = d
  fenced : x.1.fenced = st.fenced
  overlay : x.1.overlay = st.overlay
  tx : x.1.tx = st.tx
  writing : x.1.writing = false

/-
  All entries of a directory, as a walk that is not stopped
  comes across them on a disk that works.
-/
def fatListing
    (v : FatVol)
    (path : List UInt8)
    (x : FatWorld) : List VfsDirent :=
  listed
    ((fatVisits v path).run (serve v x.2 x.1) false).1

section Pages

variable {v : FatVol} {d : Device Sector}
variable {st : FatState} {x : FatWorld}

/- The cache is dropped at the begin and at the end. -/
theorem Resting.begin
    (hRests : Resting d st x)
    (owner : Bool) :
    ∃ y, eval (fatMetaBegin owner) x = ((), y) ∧
      Serves v d st y ∧ y.1.error = x.1.error :=
  ⟨_, rfl, ⟨hRests.disk, hRests.fenced, hRests.overlay,
    hRests.tx, hRests.writing, fun _ => rfl, nofun⟩, rfl⟩

theorem Serves.rests
    (hServes : Serves v d st x) :
    Resting d st x :=
  ⟨hServes.disk, hServes.fenced, hServes.overlay,
    hServes.tx, hServes.writing⟩

theorem enterVolume_rests
    (hRests : Resting d st x) :
    ∃ ok y, eval enterVolume x = (ok, y) ∧
      Resting d st y ∧ (ok = true → y.1.error = false) := by
  rw [enterVolume_idle hRests.writing]
  split
  · exact ⟨false, x, rfl, hRests, nofun⟩
  · exact ⟨true, _, rfl, ⟨hRests.disk, hRests.fenced,
      hRests.overlay, hRests.tx, hRests.writing⟩,
      fun _ => rfl⟩

/-
  A call fails or gives a page of the listing, and leaves
  the volume as it was for the next one.
-/
theorem fatOpReaddirMany_page
    {x₀ : FatWorld}
    (hRests : Resting x₀.2 x₀.1 x)
    (v : FatVol)
    (path : List UInt8)
    (first count : Int) :
    Resting x₀.2 x₀.1
        (eval (fatOpReaddirMany v path first count) x).2 ∧
      ((eval (fatOpReaddirMany v path first count) x).1 =
          none ∨
        (eval (fatOpReaddirMany v path first count) x).1 =
          some (Pages.page (fatListing v path x₀)
            first.toNat count.toNat)) := by
  unfold fatOpReaddirMany
  split
  · exact ⟨hRests, .inl rfl⟩
  · next hBounds =>
      have hCount : 0 < count.toNat := by
        simp only [Bool.or_eq_true, decide_eq_true_eq]
          at hBounds
        omega
      rcases enterVolume_rests hRests with
        ⟨ok, y, hEnter, hEntered, hError⟩
      rw [eval_step hEnter]
      cases ok with
      | false => exact ⟨hEntered, .inl rfl⟩
      | true =>
          simp only [Bool.not_true, Bool.false_eq_true,
            if_false]
          rw [eval_step (eval_get y),
            if_neg (by rw [hEntered.writing]; exact nofun)]
          rcases hEntered.begin (v := v) true with
            ⟨y₁, hBegin, hServes, hSame⟩
          rw [eval_step hBegin]
          rcases looks_serves
            (fatReaddirImpl_looks path first.toNat
              count.toNat) hServes with ⟨y₂, hRun, hServed⟩
          rw [eval_step hRun]
          rcases hServed.rests.begin (v := v) false with
            ⟨y₃, hEnd, hLast, -⟩
          rw [eval_step hEnd]
          refine ⟨hLast.rests, ?_⟩
          have hPage := fatReaddirImpl_page
            (serve v x₀.2 x₀.1) v path first.toNat
            count.toNat hCount false
          rw [hSame, hError rfl]
          exact hPage

end Pages

end KvantOS
