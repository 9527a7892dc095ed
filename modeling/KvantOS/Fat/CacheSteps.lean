import KvantOS.Fat.Cache

/-
  This file relates the driver with its metadata cache to
  the driver without it, and proves that what either does to
  a sector keeps them related.

  Key definitions include:
    * `Sim`

  Key theorems include:
    * `fatMetaFlushOne_run`, `flushCache_run`
    * `storeSector_run`
-/

namespace KvantOS

open FatM

--
-- The Relation
--

/- No call has failed, and no log is laid over reads. -/
structure Ready (st : FatState) : Prop where
  error : st.error = false
  fenced : st.fenced = false
  overlay : st.overlay = false

/-
  The logs of both: what the cache still has to write may be
  written, and the log of the driver without a cache has a
  record of it.
-/
structure Logs
    (v : FatVol)
    (d₀ : Device Sector)
    (x y : FatWorld) : Prop where
  undoing : Undoing v d₀ x.1.tx x.2
  through : Undoing v d₀ y.1.tx y.2
  covered : ∀ k, HasRecord x.1.tx k → HasRecord y.1.tx k
  pending : ∀ i, (x.1.slots i).dirty = true →
    ∀ k, k < v.factor →
      LogWritable v (txLba v (x.1.slots i).sector + k)
        (chunk (x.1.slots i).data k) ∧
      HasRecord y.1.tx (txLba v (x.1.slots i).sector + k)

/-
  The driver with its cache stands where the driver without
  one stands: on metadata the cache mirrors the other's
  disk, elsewhere the disks are the same, but for journals.
-/
structure Sim
    (v : FatVol)
    (d₀ : Device Sector)
    (x y : FatWorld) : Prop where
  ready : Ready x.1
  through : Ready y.1
  writing : y.1.writing = x.1.writing
  owner : x.1.owner = true
  mirrors : WriteBack.Mirrors
    (fun sec => isMetadata v sec = true)
    (fun i => metaSlot v (x.1.slots i))
    (sectorBuf v x.2) (sectorBuf v y.2)
  elsewhere : ∀ p, ¬JournalSector v p →
    (∀ sec, isMetadata v sec = true → ¬InSector v sec p) →
      x.2.cur p = y.2.cur p
  idle : x.1.writing = false →
    ∀ i, (x.1.slots i).dirty = false
  logs : x.1.writing = true → Logs v d₀ x y

/- A state with one slot changed. -/
def withSlot
    (st : FatState)
    (i : Fin fatMetaSlots)
    (e : MetaEntry) : FatState :=
  { st with slots := Function.update st.slots i e }

theorem eval_setSlot
    (i : Fin fatMetaSlots)
    (f : MetaEntry → MetaEntry)
    (x : FatWorld) :
    FatM.eval (setSlot i f) x =
      ((), (withSlot x.1 i (f (x.1.slots i)), x.2)) :=
  rfl

section Relation

variable {v : FatVol} {d₀ : Device Sector} {x y : FatWorld}

/- The slots of a state with one slot changed. -/
theorem metaSlot_update
    (slots : Fin fatMetaSlots → MetaEntry)
    (i : Fin fatMetaSlots)
    (e : MetaEntry) :
    (fun j => metaSlot v (Function.update slots i e j)) =
      Function.update (fun j => metaSlot v (slots j)) i
        (metaSlot v e) := by
  funext j
  by_cases hEq : j = i
  · rw [hEq, Function.update_self, Function.update_self]
  · rw [Function.update_of_ne hEq, Function.update_of_ne hEq]

/- The records of a log, as a set. -/
def recordSet (t : SectorTx) : Finset Nat :=
  (t.undo.map UndoRecord.lba).toFinset

variable {t : SectorTx}

theorem mem_recordSet
    {k : Nat} :
    k ∈ recordSet t ↔ HasRecord t k := by
  unfold recordSet HasRecord
  rw [List.mem_toFinset, List.mem_map]

theorem Undoing.card
    {d : Device Sector}
    (hUndoing : Undoing v d₀ t d) :
    (recordSet t).card ≤ stxMax := by
  unfold recordSet
  rw [List.toFinset_card_of_nodup hUndoing.nodup,
    List.length_map]
  exact hUndoing.room

--
-- Writing a Slot Back
--

variable {e : MetaEntry}

variable {slots : Fin fatMetaSlots → MetaEntry}

/- A slot that is dirty after a clean change is another. -/
theorem dirty_update
    {i j : Fin fatMetaSlots}
    (hClean : e.dirty = false)
    (hDirty : (Function.update slots i e j).dirty = true) :
    Function.update slots i e j = slots j := by
  by_cases hEq : j = i
  · rw [hEq, Function.update_self, hClean] at hDirty
    cases hDirty
  · exact Function.update_of_ne hEq ..

/- What is dirty has a place in the logs after it as well. -/
theorem Logs.update
    (hLogs : Logs v d₀ x y)
    (i : Fin fatMetaSlots)
    (hClean : e.dirty = false) :
    Logs v d₀ (withSlot x.1 i e, x.2) y where
  undoing := hLogs.undoing
  through := hLogs.through
  covered := hLogs.covered
  pending := by
    intro j hj k hk
    have hSame := dirty_update hClean hj
    change LogWritable v (txLba v
        (Function.update x.1.slots i e j).sector + k)
        (chunk (Function.update x.1.slots i e j).data k) ∧
      HasRecord y.1.tx (txLba v
        (Function.update x.1.slots i e j).sector + k)
    rw [hSame]
    change (Function.update x.1.slots i e j).dirty = true
      at hj
    rw [hSame] at hj
    exact hLogs.pending j hj k hk

variable {i : Fin fatMetaSlots}

/- A slot is given up for one that is clean. -/
theorem idle_update
    (hClean : e.dirty = false)
    (hIdle : ∀ j, (slots j).dirty = false)
    (j : Fin fatMetaSlots) :
    (Function.update slots i e j).dirty = false := by
  by_contra hNot
  rw [Bool.not_eq_false] at hNot
  rw [dirty_update hClean hNot, hIdle j] at hNot
  cases hNot

variable {d' : Device Sector} {t' : SectorTx}

/- The logs once a dirty slot was written. -/
theorem Logs.flushed
    (hLogs : Logs v d₀ x y)
    (hWritten : Written v d₀ (txLba v (x.1.slots i).sector)
      (x.1.slots i).data 0 v.factor x.1.tx x.2 t' d')
    (hDirty : (x.1.slots i).dirty = true) :
    Logs v d₀
      (withSlot { x.1 with tx := t' } i
        { x.1.slots i with dirty := false }, d') y where
  undoing := hWritten.undoing
  through := hLogs.through
  covered := by
    intro k hk
    rcases (hWritten.records k).mp hk with hk | ⟨hLow, hHigh⟩
    · exact hLogs.covered k hk
    · have hPart := (hLogs.pending i hDirty
        (k - txLba v (x.1.slots i).sector) (by omega)).2
      rw [Nat.add_sub_cancel' (by omega)] at hPart
      exact hPart
  pending := (hLogs.update i (e := { x.1.slots i with
    dirty := false }) rfl).pending

/- A dirty slot goes to the disk, by way of the log. -/
theorem fatMetaFlushOne_run
    (hMount : Mounted v)
    (hOwner : OwnerIntact v d₀)
    (hSim : Sim v d₀ x y)
    (i : Fin fatMetaSlots) :
    ∃ x', FatM.eval (fatMetaFlushOne v i) x = (true, x') ∧
      Sim v d₀ x' y ∧
      x'.1.slots = Function.update x.1.slots i
        { x.1.slots i with dirty := false } := by
  unfold fatMetaFlushOne
  rw [FatM.eval_step (FatM.eval_get x)]
  cases hDirty : (x.1.slots i).dirty with
  | false =>
      refine ⟨x, ?_, hSim, ?_⟩
      · simp only [hDirty]
        rfl
      · rw [← hDirty, Function.update_eq_self]
  | true =>
      have hWriting : x.1.writing = true := by
        by_contra hNot
        have hClean := hSim.idle
          (Bool.eq_false_iff.mpr hNot) i
        rw [hDirty] at hClean
        cases hClean
      have hLogs := hSim.logs hWriting
      have hValid : (x.1.slots i).valid = true :=
        hSim.mirrors.valid i hDirty
      have hMeta : isMetadata v (x.1.slots i).sector = true :=
        hSim.mirrors.inside i hValid
      have hPending := hLogs.pending i hDirty
      rcases writeChunks_run hMount hOwner hLogs.through.card
          0 v.factor
          (fun k _ hk => (hPending k (by omega)).1)
          (fun k _ hk =>
            mem_recordSet.mpr (hPending k (by omega)).2)
          hLogs.undoing
          (fun k hk =>
            mem_recordSet.mpr (hLogs.covered k hk)) with
        ⟨t', d', hRun, hWritten⟩
      refine ⟨(withSlot { x.1 with tx := t' } i
        { x.1.slots i with dirty := false }, d'), ?_, ?_, rfl⟩
      · have hGuard : (!x.1.writing || x.1.error) = false := by
          rw [hWriting, hSim.ready.error]
          rfl
        simp only [hDirty, hGuard, Bool.not_true,
          Bool.false_eq_true, if_false]
        rw [FatM.eval_step (FatM.eval_live x)]
        simp only [Bool.not_true, Bool.false_eq_true,
          if_false]
        rw [FatM.eval_step hRun]
        simp only [Bool.not_true, Bool.false_eq_true,
          if_false]
        rw [FatM.eval_step (eval_setSlot ..)]
        rfl
      · exact
          { ready :=
              ⟨hSim.ready.error, hSim.ready.fenced,
                hSim.ready.overlay⟩
            through := hSim.through
            writing := hSim.writing
            owner := hSim.owner
            mirrors := by
              change WriteBack.Mirrors _
                (fun j => metaSlot v
                  (Function.update x.1.slots i _ j))
                (sectorBuf v d') _
              rw [metaSlot_update]
              exact hSim.mirrors.clean hDirty
                (sectorBuf_written hMount hWritten)
                (fun k hk hNe =>
                  sectorBuf_other hMount hWritten hk hNe)
            elsewhere := fun p hApart hOut =>
              (cur_written hWritten hApart
                (hOut _ hMeta)).trans
                  (hSim.elsewhere p hApart hOut)
            idle := by
              intro hIdle
              change x.1.writing = false at hIdle
              rw [hWriting] at hIdle
              cases hIdle
            logs := fun _ => hLogs.flushed hWritten hDirty }

/- All slots of a list go to the disk. -/
theorem flushSlots_run
    (hMount : Mounted v)
    (hOwner : OwnerIntact v d₀)
    (l : List (Fin fatMetaSlots))
    (hSim : Sim v d₀ x y) :
    ∃ x', FatM.eval (flushSlots v l) x = (true, x') ∧
      Sim v d₀ x' y ∧
      (∀ j, (x'.1.slots j).dirty = true →
        (x.1.slots j).dirty = true) ∧
      ∀ i ∈ l, (x'.1.slots i).dirty = false := by
  induction l generalizing x with
  | nil => exact ⟨x, rfl, hSim, fun _ h => h, by simp⟩
  | cons i rest ih =>
      rcases fatMetaFlushOne_run hMount hOwner hSim i with
        ⟨x₁, hRun₁, hSim₁, hSlots⟩
      rcases ih hSim₁ with ⟨x', hRun, hSim', hLess, hClean⟩
      have hOld : ∀ j, (x₁.1.slots j).dirty = true →
          j ≠ i ∧ (x.1.slots j).dirty = true := by
        intro j hj
        rw [hSlots] at hj
        by_cases hEq : j = i
        · rw [hEq, Function.update_self] at hj
          cases hj
        · rw [Function.update_of_ne hEq] at hj
          exact ⟨hEq, hj⟩
      refine ⟨x', ?_, hSim', ?_, ?_⟩
      · rw [flushSlots, FatM.eval_step hRun₁]
        exact hRun
      · exact fun j hj => (hOld j (hLess j hj)).2
      · intro j hj
        rcases List.mem_cons.mp hj with rfl | hj
        · by_contra hNot
          rw [Bool.not_eq_false] at hNot
          exact (hOld j (hLess j hNot)).1 rfl
        · exact hClean j hj

/- Flushing leaves nothing that is dirty. -/
theorem flushCache_run
    (hMount : Mounted v)
    (hOwner : OwnerIntact v d₀)
    (hSim : Sim v d₀ x y) :
    ∃ x', FatM.eval (flushCache v) x = (true, x') ∧
      Sim v d₀ x' y ∧
      ∀ i, (x'.1.slots i).dirty = false := by
  rcases flushSlots_run hMount hOwner
      (List.finRange fatMetaSlots) hSim with
    ⟨x', hRun, hSim', -, hClean⟩
  refine ⟨x', ?_, hSim',
    fun i => hClean i (List.mem_finRange i)⟩
  unfold flushCache
  rw [FatM.eval_step (FatM.eval_get x), hSim.owner]
  exact hRun

/- Without a dirty slot the disks are the same. -/
theorem Sim.disks
    (hSim : Sim v d₀ x y)
    (hClean : ∀ i, (x.1.slots i).dirty = false) :
    SameApart v y.2 x.2 := by
  intro p hApart
  by_cases hMeta : ∃ sec, isMetadata v sec = true ∧
      InSector v sec p
  · rcases hMeta with ⟨sec, hMeta, hIn⟩
    exact cur_of_sectorBuf
      (hSim.mirrors.flushed hClean hMeta) hIn
  · apply hSim.elsewhere p hApart
    intro sec hSec hIn
    exact hMeta ⟨sec, hSec, hIn⟩

--
-- Fetching
--

variable {sec : Nat}

variable {st : FatState}

/- A slot that holds a sector is found. -/
theorem cachedSlot_some
    (hFound : cachedSlot st sec = some i) :
    (st.slots i).valid = true ∧
      (st.slots i).sector = sec := by
  have hHolds := List.find?_some hFound
  rw [Bool.and_eq_true, beq_iff_eq] at hHolds
  exact hHolds

theorem cachedSlot_none
    (hNone : cachedSlot st sec = none)
    (i : Fin fatMetaSlots) :
    (st.slots i).valid = true →
      (st.slots i).sector ≠ sec := by
  intro hValid hSector
  have hNot := List.find?_eq_none.mp hNone i
    (List.mem_finRange i)
  rw [hValid, Bool.true_and, beq_iff_eq] at hNot
  exact hNot hSector

/- Where the round robin stands does not matter. -/
theorem Sim.setNext
    (hSim : Sim v d₀ x y)
    (next : Nat) :
    Sim v d₀ ({ x.1 with next := next }, x.2) y where
  ready :=
    ⟨hSim.ready.error, hSim.ready.fenced,
      hSim.ready.overlay⟩
  through := hSim.through
  writing := hSim.writing
  owner := hSim.owner
  mirrors := hSim.mirrors
  elsewhere := hSim.elsewhere
  idle := hSim.idle
  logs hWriting :=
    let hLogs := hSim.logs hWriting
    ⟨hLogs.undoing, hLogs.through, hLogs.covered,
      hLogs.pending⟩

theorem victimSlot_run
    (hSim : Sim v d₀ x y) :
    ∃ i x', FatM.eval victimSlot x = (i, x') ∧
      Sim v d₀ x' y ∧ x'.1.slots = x.1.slots := by
  unfold victimSlot
  rw [FatM.eval_step (FatM.eval_get x)]
  cases (List.finRange fatMetaSlots).find?
      (fun i => !(x.1.slots i).valid) with
  | some i => exact ⟨i, x, rfl, hSim, rfl⟩
  | none => exact ⟨_, _, rfl, hSim.setNext _, rfl⟩

/- A slot that is clean may be given up. -/
theorem Sim.evict
    (hSim : Sim v d₀ x y)
    (hClean : (x.1.slots i).dirty = false) :
    Sim v d₀
      (withSlot x.1 i { x.1.slots i with valid := false },
        x.2) y where
  ready :=
    ⟨hSim.ready.error, hSim.ready.fenced,
      hSim.ready.overlay⟩
  through := hSim.through
  writing := hSim.writing
  owner := hSim.owner
  elsewhere := hSim.elsewhere
  mirrors := by
    change WriteBack.Mirrors _
      (fun j => metaSlot v (Function.update x.1.slots i _ j))
      _ _
    rw [metaSlot_update]
    exact hSim.mirrors.evict hClean rfl hClean
  idle hIdle := idle_update hClean (hSim.idle hIdle)
  logs hWriting := (hSim.logs hWriting).update i hClean

/-
  The slot that a fetch gets, before it holds the sector:
  no other slot has the sector, and nothing of another one
  is lost.
-/
structure Room
    (v : FatVol)
    (d₀ : Device Sector)
    (sec : Nat)
    (i : Fin fatMetaSlots)
    (x y : FatWorld) : Prop where
  sim : Sim v d₀ x y
  own : (x.1.slots i).dirty = true →
    (x.1.slots i).sector = sec
  new : ∀ j, (x.1.slots j).valid = true →
    (x.1.slots j).sector = sec → j = i

/-
  A sector that the cache does not have gets a slot, which
  is emptied for it.
-/
theorem fetch_miss
    (hMount : Mounted v)
    (hOwner : OwnerIntact v d₀)
    (hSim : Sim v d₀ x y)
    (hNone : cachedSlot x.1 sec = none)
    (load : Bool) :
    ∃ i x', Room v d₀ sec i x' y ∧
      (x'.1.slots i).dirty = false ∧
      (∀ j, (x'.1.slots j).valid = true →
        (x'.1.slots j).sector ≠ sec) ∧
      FatM.eval (fatMetaFetch v sec load) x =
        FatM.eval (do
          let data ←
            if load then
              disk (blkRead (v.lba + sec * v.factor) v.factor)
            else
              pure (some ((← get).slots i).data)
          match data with
          | none =>
              flagError
              pure none
          | some data =>
              setSlot i (fun e =>
                { e with data, sector := sec, valid := true })
              pure (some i)) x' := by
  rcases victimSlot_run hSim with ⟨i, x₁, hVictim, hSim₁, hSlots₁⟩
  rcases fatMetaFlushOne_run hMount hOwner hSim₁ i with
    ⟨x₂, hFlush, hSim₂, hSlots₂⟩
  have hClean : (x₂.1.slots i).dirty = false := by
    rw [hSlots₂, Function.update_self]
  have hSim₃ := hSim₂.evict hClean
  have hMiss : ∀ j,
      (Function.update x₂.1.slots i
        { x₂.1.slots i with valid := false } j).valid = true →
      (Function.update x₂.1.slots i
        { x₂.1.slots i with valid := false } j).sector ≠
          sec := by
    intro j hj
    by_cases hEq : j = i
    · rw [hEq, Function.update_self] at hj
      cases hj
    · rw [Function.update_of_ne hEq] at hj ⊢
      rw [hSlots₂, Function.update_of_ne hEq, hSlots₁]
        at hj ⊢
      exact cachedSlot_none hNone j hj
  have hNew : ((withSlot x₂.1 i
      { x₂.1.slots i with valid := false }).slots i).dirty =
        false := by
    change (Function.update x₂.1.slots i _ i).dirty = false
    rw [Function.update_self]
    exact hClean
  refine ⟨i, (withSlot x₂.1 i
    { x₂.1.slots i with valid := false }, x₂.2),
    ⟨hSim₃, ?_, ?_⟩, hNew, hMiss, ?_⟩
  · intro h
    rw [hNew] at h
    cases h
  · exact fun j hj hSec => absurd hSec (hMiss j hj)
  · unfold fatMetaFetch
    rw [FatM.eval_step (FatM.eval_get x), hNone]
    simp only
    rw [FatM.eval_step hVictim, FatM.eval_step hFlush]
    simp only [Bool.not_true, Bool.false_eq_true, if_false]
    exact FatM.eval_step (eval_setSlot ..) _

theorem take_sectorBuf
    (hMount : Mounted v)
    (d : Device Sector)
    (sec : Nat) :
    (sectorBuf v d sec).take v.bytesPerSector =
      sectorBuf v d sec := by
  funext i
  unfold Buf.take
  split
  · rfl
  · next hi =>
      rw [hMount.factor.1] at hi
      exact (if_neg hi).symm

/- An emptied slot takes a sector from the disk. -/
theorem Sim.load
    (hMount : Mounted v)
    (hSim : Sim v d₀ x y)
    {sec : Nat}
    (hMeta : isMetadata v sec = true)
    {i : Fin fatMetaSlots}
    (hClean : (x.1.slots i).dirty = false)
    (hMiss : ∀ j, (x.1.slots j).valid = true →
      (x.1.slots j).sector ≠ sec) :
    Sim v d₀
      (withSlot x.1 i
        { x.1.slots i with
          data := sectorBuf v x.2 sec
          sector := sec
          valid := true }, x.2) y where
  ready :=
    ⟨hSim.ready.error, hSim.ready.fenced,
      hSim.ready.overlay⟩
  through := hSim.through
  writing := hSim.writing
  owner := hSim.owner
  elsewhere := hSim.elsewhere
  mirrors := by
    change WriteBack.Mirrors _
      (fun j => metaSlot v (Function.update x.1.slots i _ j))
      _ _
    rw [metaSlot_update]
    have hSlot : metaSlot v
        { x.1.slots i with
          data := sectorBuf v x.2 sec
          sector := sec
          valid := true } =
        ⟨sec, sectorBuf v x.2 sec, true, false⟩ := by
      unfold metaSlot
      simp only [take_sectorBuf hMount, hClean]
    rw [hSlot]
    exact hSim.mirrors.load hMeta hClean hMiss
  idle hIdle := idle_update hClean (hSim.idle hIdle)
  logs hWriting := (hSim.logs hWriting).update i hClean

/- A sector out of the cache is that of the other's disk. -/
theorem fetchData_run
    (hMount : Mounted v)
    (hOwner : OwnerIntact v d₀)
    (hSim : Sim v d₀ x y)
    (hMeta : isMetadata v sec = true) :
    ∃ b x', FatM.eval (fetchData v sec) x = (some b, x') ∧
      Sim v d₀ x' y ∧
      b.take v.bytesPerSector = sectorBuf v y.2 sec := by
  unfold fetchData
  cases hFound : cachedSlot x.1 sec with
  | some i =>
      rcases cachedSlot_some hFound with ⟨hValid, hSector⟩
      have hHeld := hSim.mirrors.held i hValid
      refine ⟨(x.1.slots i).data, x, ?_, hSim, ?_⟩
      · have hFetch : FatM.eval (fatMetaFetch v sec true) x =
            (some i, x) := by
          unfold fatMetaFetch
          rw [FatM.eval_step (FatM.eval_get x), hFound]
          rfl
        rw [FatM.eval_step hFetch]
        rfl
      · rw [← hSector]
        exact hHeld
  | none =>
      rcases fetch_miss hMount hOwner hSim hFound true with
        ⟨i, x₁, hRoom, hClean, hMiss, hFetch⟩
      have hLoaded := hRoom.sim.load hMount hMeta hClean hMiss
      have hEval : FatM.eval (fatMetaFetch v sec true) x =
          (some i, (withSlot x₁.1 i
            { x₁.1.slots i with
              data := sectorBuf v x₁.2 sec
              sector := sec
              valid := true }, x₁.2)) := by
        rw [hFetch]
        simp only [if_true]
        rw [FatM.eval_step (FatM.eval_blkRead ..)]
        rfl
      have hValid : ((withSlot x₁.1 i
          { x₁.1.slots i with
            data := sectorBuf v x₁.2 sec
            sector := sec
            valid := true }).slots i) =
          { x₁.1.slots i with
            data := sectorBuf v x₁.2 sec
            sector := sec
            valid := true } :=
        Function.update_self ..
      refine ⟨sectorBuf v x₁.2 sec, _, ?_, hLoaded, ?_⟩
      · rw [FatM.eval_step hEval]
        simp only
        rw [FatM.eval_step (FatM.eval_get _), hValid]
        rfl
      · have hHeld := hLoaded.mirrors.held i (by
          rw [hValid]
          rfl)
        change (metaSlot v _).value =
          sectorBuf v y.2 (metaSlot v _).key at hHeld
        rw [hValid] at hHeld
        exact hHeld

--
-- Writing
--

variable {data : Buf}

/- The logs once the driver without a cache has written. -/
theorem Logs.through_written
    (hLogs : Logs v d₀ x y)
    {lba : Nat}
    (hWritten : Written v d₀ lba data 0 v.factor
      y.1.tx y.2 t' d') :
    Logs v d₀ x ({ y.1 with tx := t' }, d') where
  undoing := hLogs.undoing
  through := hWritten.undoing
  covered k hk :=
    (hWritten.records k).mpr (.inl (hLogs.covered k hk))
  pending i hi k hk :=
    let hPart := hLogs.pending i hi k hk
    ⟨hPart.1, (hWritten.records _).mpr (.inl hPart.2)⟩

/-
  The cache takes what the driver without one has written
  through.
-/
theorem Room.store
    (hMount : Mounted v)
    (hRoom : Room v d₀ sec i x y)
    (hMeta : isMetadata v sec = true)
    (hWriting : x.1.writing = true)
    (hWritten : Written v d₀ (txLba v sec) data 0 v.factor
      y.1.tx y.2 t' d') :
    Sim v d₀ (withSlot x.1 i ⟨data, sec, true, true⟩, x.2)
      ({ y.1 with tx := t' }, d') := by
  have hSim := hRoom.sim
  refine
    { ready :=
        ⟨hSim.ready.error, hSim.ready.fenced,
          hSim.ready.overlay⟩
      through :=
        ⟨hSim.through.error, hSim.through.fenced,
          hSim.through.overlay⟩
      writing := hSim.writing
      owner := hSim.owner
      mirrors := ?_
      elsewhere := ?_
      idle := ?_
      logs := ?_ }
  · change WriteBack.Mirrors _
      (fun j => metaSlot v (Function.update x.1.slots i _ j))
      _ _
    rw [metaSlot_update]
    have hPut := hSim.mirrors.put hMeta hRoom.own hRoom.new
      (data.take v.bytesPerSector) true (fun h => by cases h)
    refine hPut.congr (fun _ _ => rfl) ?_
    intro k hk
    by_cases hEq : k = sec
    · rw [hEq, Function.update_self]
      exact sectorBuf_written hMount hWritten
    · rw [Function.update_of_ne hEq]
      exact sectorBuf_other hMount hWritten hk hEq
  · intro p hApart hOut
    exact (hSim.elsewhere p hApart hOut).trans
      (cur_written hWritten hApart (hOut sec hMeta)).symm
  · intro hIdle
    change x.1.writing = false at hIdle
    rw [hWriting] at hIdle
    cases hIdle
  · intro _
    have hLogs := (hSim.logs hWriting).through_written
      hWritten
    refine
      { undoing := hLogs.undoing
        through := hLogs.through
        covered := hLogs.covered
        pending := ?_ }
    intro j hj k hk
    change (Function.update x.1.slots i
      ⟨data, sec, true, true⟩ j).dirty = true at hj
    change LogWritable v (txLba v
        (Function.update x.1.slots i
          ⟨data, sec, true, true⟩ j).sector + k)
        (chunk (Function.update x.1.slots i
          ⟨data, sec, true, true⟩ j).data k) ∧
      HasRecord t' (txLba v
        (Function.update x.1.slots i
          ⟨data, sec, true, true⟩ j).sector + k)
    by_cases hEq : j = i
    · rw [hEq, Function.update_self]
      have hRecord := (hWritten.records (txLba v sec + k)).mpr
        (.inr (by omega))
      exact ⟨hWritten.writable k (Nat.zero_le k) (by omega),
        hRecord⟩
    · rw [Function.update_of_ne hEq] at hj ⊢
      exact hLogs.pending j hj k hk

/- Both write the same sector through. -/
theorem Sim.write_through
    (hMount : Mounted v)
    (hSim : Sim v d₀ x y)
    (hOther : isMetadata v sec = false)
    (hWriting : x.1.writing = true)
    {d d' : Device Sector}
    (hWritten : Written v d₀ (txLba v sec) data 0 v.factor
      x.1.tx x.2 t d)
    (hWritten' : Written v d₀ (txLba v sec) data 0 v.factor
      y.1.tx y.2 t' d') :
    Sim v d₀ ({ x.1 with tx := t }, d)
      ({ y.1 with tx := t' }, d') := by
  have hNe : ∀ k, isMetadata v k = true → k ≠ sec := by
    rintro k hk rfl
    rw [hOther] at hk
    cases hk
  have hLogs := hSim.logs hWriting
  refine
    { ready :=
        ⟨hSim.ready.error, hSim.ready.fenced,
          hSim.ready.overlay⟩
      through :=
        ⟨hSim.through.error, hSim.through.fenced,
          hSim.through.overlay⟩
      writing := hSim.writing
      owner := hSim.owner
      mirrors := ?_
      elsewhere := ?_
      idle := ?_
      logs := ?_ }
  · exact hSim.mirrors.congr
      (fun k hk =>
        sectorBuf_other hMount hWritten hk (hNe k hk))
      (fun k hk =>
        sectorBuf_other hMount hWritten' hk (hNe k hk))
  · intro p hApart hOut
    change d.cur p = d'.cur p
    rw [hWritten.cur p hApart, hWritten'.cur p hApart,
      hSim.elsewhere p hApart hOut]
  · intro hIdle
    change x.1.writing = false at hIdle
    rw [hWriting] at hIdle
    cases hIdle
  · intro _
    exact
      { undoing := hWritten.undoing
        through := hWritten'.undoing
        covered := by
          intro k hk
          rw [hWritten'.records]
          exact ((hWritten.records k).mp hk).imp_left
            (hLogs.covered k)
        pending :=
          (hLogs.through_written hWritten').pending }

/- One sector is written. -/
theorem storeSector_run
    (hMount : Mounted v)
    (hOwner : OwnerIntact v d₀)
    (hSim : Sim v d₀ x y)
    (hWriting : x.1.writing = true)
    (hDone : (FatM.eval (storeThrough v sec data) y).1 =
      true) :
    ∃ x' y',
      FatM.eval (storeThrough v sec data) y = (true, y') ∧
      FatM.eval (storeSector v sec data) x = (true, x') ∧
      Sim v d₀ x' y' ∧ x'.1.writing = true := by
  have hLogs := hSim.logs hWriting
  rcases writeChunks_true hMount hOwner 0 v.factor
      hLogs.through hDone with ⟨t', d', hThrough, hWritten⟩
  have hEligible : fatMetaEligible v x.1 sec =
      isMetadata v sec := by
    rw [fatMetaEligible_eq, hSim.owner, hSim.ready.overlay]
    rfl
  unfold storeSector
  rw [FatM.eval_step (FatM.eval_get x), hEligible]
  cases hMeta : isMetadata v sec with
  | true =>
      simp only [if_true]
      cases hFound : cachedSlot x.1 sec with
      | some i =>
          rcases cachedSlot_some hFound with
            ⟨hValid, hSector⟩
          have hRoom : Room v d₀ sec i x y :=
            { sim := hSim
              own := fun _ => hSector
              new := fun j hj hKey => hSim.mirrors.distinct
                j i hj hValid (hKey.trans hSector.symm) }
          refine ⟨_, _, hThrough, ?_, hRoom.store hMount hMeta
            hWriting hWritten, hWriting⟩
          have hFetch : FatM.eval
              (fatMetaFetch v sec false) x = (some i, x) := by
            unfold fatMetaFetch
            rw [FatM.eval_step (FatM.eval_get x), hFound]
            rfl
          rw [FatM.eval_step hFetch]
          simp only
          rw [FatM.eval_step (eval_setSlot ..), ← hSector,
            ← hValid]
          rfl
      | none =>
          rcases fetch_miss hMount hOwner hSim hFound false
            with ⟨i, x₁, hRoom, hClean, hMiss, hFetch⟩
          have hWriting₁ : x₁.1.writing = true := by
            rw [← hRoom.sim.writing, hSim.writing]
            exact hWriting
          refine ⟨_, _, hThrough, ?_, hRoom.store hMount hMeta
            hWriting₁ hWritten, hWriting₁⟩
          have hEval : FatM.eval (fatMetaFetch v sec false) x =
              (some i, (withSlot x₁.1 i
                { x₁.1.slots i with
                  sector := sec
                  valid := true }, x₁.2)) := by
            rw [hFetch]
            rfl
          rw [FatM.eval_step hEval]
          simp only
          rw [FatM.eval_step (eval_setSlot ..)]
          have hSlot : withSlot (withSlot x₁.1 i
              { x₁.1.slots i with
                sector := sec
                valid := true }) i
              { (withSlot x₁.1 i
                { x₁.1.slots i with
                  sector := sec
                  valid := true }).slots i with
                data := data
                dirty := true } =
              withSlot x₁.1 i ⟨data, sec, true, true⟩ := by
            unfold withSlot
            simp only [Function.update_idem,
              Function.update_self]
          exact congrArg (fun st => (true, (st, x₁.2))) hSlot
  | false =>
      simp only [Bool.false_eq_true, if_false]
      rcases flushCache_run hMount hOwner hSim with
        ⟨x₁, hFlush, hSim₁, -⟩
      have hWriting₁ : x₁.1.writing = true := by
        rw [← hSim₁.writing, hSim.writing]
        exact hWriting
      have hLogs₁ := hSim₁.logs hWriting₁
      rcases writeChunks_run hMount hOwner
          hWritten.undoing.card 0 v.factor
          (fun k hLow hHigh => hWritten.writable k hLow hHigh)
          (fun k hLow hHigh => mem_recordSet.mpr
            ((hWritten.records _).mpr (.inr (by omega))))
          hLogs₁.undoing
          (fun k hk => mem_recordSet.mpr
            ((hWritten.records k).mpr
              (.inl (hLogs₁.covered k hk)))) with
        ⟨t, d, hRun, hWritten₁⟩
      refine ⟨_, _, hThrough, ?_, hSim₁.write_through hMount
        hMeta hWriting₁ hWritten₁ hWritten, hWriting₁⟩
      rw [FatM.eval_step hFlush]
      simp only [Bool.not_true, Bool.false_eq_true, if_false]
      exact hRun

end Relation

end KvantOS
