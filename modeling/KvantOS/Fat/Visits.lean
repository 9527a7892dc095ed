import KvantOS.Data.Pages
import KvantOS.Fat.Geometry

/-
  This file separates what `walk_dir` of `kernel/fat.c`
  visits from the callback that it hands the entries to: a
  walk gives its callback the entries that it would give to
  one that never stops, in order, until the callback stops.

  Key definitions include:
    * `Visit`, `feed`
    * `fatVisits`, `listed`

  Key theorems include:
    * `walkDir_feed`, `feed_listCb`, `fatReaddirImpl_page`
-/

namespace KvantOS

--
-- Visits
--

/- The context that a walk has come to. -/
def WalkStep.ctx {σ : Type} : WalkStep σ → σ
  | .more _ ctx => ctx
  | .stop ctx => ctx
  | .failed ctx => ctx

/- What a callback gets of an entry. -/
structure Visit where
  name : List UInt8
  de : Dirent
  sector : Nat
  off : Nat

/- A callback on some entries, until it stops. -/
def feed
    {σ : Type}
    (cb : DirCb σ) :
    σ → List Visit → Bool × σ
  | c, [] => (true, c)
  | c, x :: xs =>
      let out := cb c x.name x.de x.sector x.off
      if out.1 then feed cb out.2 xs else (false, out.2)

/- A callback that keeps every entry. -/
def visitCb : DirCb (List Visit) :=
  fun l name de sector off =>
    (true, l ++ [⟨name, de, sector, off⟩])

section Feed

variable {σ : Type} {cb : DirCb σ} {c c' : σ}
variable {xs : List Visit}

theorem feed_more
    (hFed : feed cb c xs = (true, c'))
    (ys : List Visit) :
    feed cb c (xs ++ ys) = feed cb c' ys := by
  induction xs generalizing c with
  | nil =>
      cases hFed
      rfl
  | cons x xs ih =>
      unfold feed at hFed
      rw [List.cons_append, feed]
      dsimp only at hFed ⊢
      split at hFed
      · next hGoes =>
          rw [if_pos hGoes]
          exact ih hFed
      · cases hFed

theorem feed_stopped
    (hFed : feed cb c xs = (false, c'))
    (ys : List Visit) :
    feed cb c (xs ++ ys) = (false, c') := by
  induction xs generalizing c with
  | nil => cases hFed
  | cons x xs ih =>
      unfold feed at hFed
      rw [List.cons_append, feed]
      dsimp only at hFed ⊢
      split at hFed
      · next hGoes =>
          rw [if_pos hGoes]
          exact ih hFed
      · next hStop =>
          rw [if_neg hStop]
          exact hFed

/- One more entry, after those that did not stop it. -/
theorem feed_snoc
    (hFed : feed cb c xs = (true, c'))
    (x : Visit) :
    feed cb c (xs ++ [x]) =
      cb c' x.name x.de x.sector x.off := by
  rw [feed_more hFed, feed]
  rcases cb c' x.name x.de x.sector x.off with ⟨goes, last⟩
  cases goes with
  | false => rfl
  | true => rfl

end Feed

--
-- Walks
--

/- The same end with another context. -/
def WalkStep.withCtx
    {σ τ : Type}
    (c : τ) :
    WalkStep σ → WalkStep τ
  | .more lfn _ => .more lfn c
  | .stop _ => .stop c
  | .failed _ => .failed c

/- The end of a part whose entries go to a callback. -/
def WalkStep.feed
    {σ : Type}
    (cb : DirCb σ)
    (c : σ)
    (step : WalkStep (List Visit)) : WalkStep σ :=
  match KvantOS.feed cb c step.ctx with
  | (false, c) => .stop c
  | (true, c) => step.withCtx c

/- The result of a walk whose entries go to a callback. -/
def feedAll
    {σ : Type}
    (cb : DirCb σ)
    (c : σ)
    (out : Bool × List Visit) : Bool × σ :=
  match feed cb c out.2 with
  | (false, c) => (true, c)
  | (true, c) => (out.1, c)

section Walks

variable {σ S : Type} {v : FatVol} {cb : DirCb σ}
variable {c ctx : σ} {l : List Visit}
variable {H : (command : FatCmd) → S → command.Reply × S}

theorem WalkStep.feed_of_more
    (step : WalkStep (List Visit))
    (hFed : KvantOS.feed cb c step.ctx = (true, ctx)) :
    step.feed cb c = step.withCtx ctx := by
  unfold WalkStep.feed
  rw [hFed]

/- Once the callback has stopped, later entries are lost. -/
theorem WalkStep.feed_of_stopped
    {step : WalkStep (List Visit)}
    (hFed : KvantOS.feed cb c l = (false, ctx))
    (hCtx : ∃ vs, step.ctx = l ++ vs) :
    step.feed cb c = .stop ctx := by
  rcases hCtx with ⟨vs, hCtx⟩
  unfold WalkStep.feed
  rw [hCtx, feed_stopped hFed]

theorem feedAll_of_stopped
    {out : Bool × List Visit}
    (hFed : feed cb c l = (false, ctx))
    (hCtx : ∃ vs, out.2 = l ++ vs) :
    feedAll cb c out = (true, ctx) := by
  rcases hCtx with ⟨vs, hCtx⟩
  unfold feedAll
  rw [hCtx, feed_stopped hFed]

theorem walkEntries_extends
    (sec : Buf)
    (sector o : Nat)
    (lfn : LfnState)
    (l : List Visit)
    (remaining : Nat) :
    ∃ vs, (walkEntries visitCb sec sector o lfn l
      remaining).ctx = l ++ vs := by
  induction remaining generalizing o lfn l with
  | zero => exact ⟨[], (List.append_nil l).symm⟩
  | succ remaining ih =>
      unfold walkEntries
      dsimp only
      split
      · exact ⟨[], (List.append_nil l).symm⟩
      · split
        · exact ih ..
        · split
          · exact ih ..
          · split
            · exact ih ..
            · rcases ih (o + direntSize)
                { lfn with present := false, max := 0 }
                (l ++ [⟨lfn.name (sec.slice o direntSize),
                  sec.slice o direntSize, sector, o⟩]) with
                ⟨vs, hCtx⟩
              exact ⟨_ :: vs, hCtx.trans
                (List.append_assoc l [_] vs)⟩

/- The loop over the entries of a sector. -/
theorem walkEntries_feed
    (hFed : feed cb c l = (true, ctx))
    (sec : Buf)
    (sector o : Nat)
    (lfn : LfnState)
    (remaining : Nat) :
    walkEntries cb sec sector o lfn ctx remaining =
      (walkEntries visitCb sec sector o lfn l
        remaining).feed cb c := by
  induction remaining generalizing o lfn l ctx with
  | zero =>
      exact (WalkStep.feed_of_more (.more lfn l)
        hFed).symm
  | succ remaining ih =>
      unfold walkEntries
      dsimp only
      split
      · exact (WalkStep.feed_of_more (.stop l)
          hFed).symm
      · split
        · exact ih hFed _ _
        · split
          · exact ih hFed _ _
          · split
            · exact ih hFed _ _
            · have hNext := feed_snoc hFed
                ⟨lfn.name (sec.slice o direntSize),
                  sec.slice o direntSize, sector, o⟩
              dsimp only at hNext
              generalize cb ctx (lfn.name (sec.slice o
                direntSize)) (sec.slice o direntSize) sector
                o = out at hNext ⊢
              rcases out with ⟨goes, last⟩
              cases goes with
              | true => exact ih hNext _ _
              | false =>
                  exact (WalkStep.feed_of_stopped hNext
                    (walkEntries_extends ..)).symm

/- The loop over consecutive sectors. -/
theorem walkSectors_extends
    (sector : Nat)
    (lfn : LfnState)
    (l : List Visit)
    (remaining : Nat)
    (s : S) :
    ∃ vs, ((walkSectors v visitCb sector lfn l
      remaining).run H s).1.ctx = l ++ vs := by
  induction remaining generalizing sector lfn l s with
  | zero => exact ⟨[], (List.append_nil l).symm⟩
  | succ remaining ih =>
      unfold walkSectors
      rw [Prog.run_bind]
      cases ((fatReadSectors sector).run H s).1 with
      | none => exact ⟨[], (List.append_nil l).symm⟩
      | some sec =>
          dsimp only
          have hKeeps := walkEntries_extends sec sector 0 lfn l
            v.slotsPerSector
          cases hStep : walkEntries visitCb sec sector 0 lfn l
              v.slotsPerSector with
          | stop l' => rwa [hStep] at hKeeps
          | failed l' => rwa [hStep] at hKeeps
          | more lfn' l' =>
              rw [hStep] at hKeeps
              rcases hKeeps with ⟨vs, hCtx⟩
              rcases ih (sector + 1) lfn' l'
                ((fatReadSectors sector).run H s).2 with
                ⟨ws, hMore⟩
              change l' = l ++ vs at hCtx
              refine ⟨vs ++ ws, hMore.trans ?_⟩
              rw [hCtx, List.append_assoc]

/- As long as the callback goes on, the walks go together. -/
theorem walkSectors_feed
    (hFed : feed cb c l = (true, ctx))
    (sector : Nat)
    (lfn : LfnState)
    (remaining : Nat)
    (s : S) :
    let full :=
      (walkSectors v visitCb sector lfn l remaining).run H s
    let walk :=
      (walkSectors v cb sector lfn ctx remaining).run H s
    walk.1 = full.1.feed cb c ∧
      ((feed cb c full.1.ctx).1 = true →
        walk.2 = full.2) := by
  induction remaining generalizing sector lfn l ctx s with
  | zero =>
      exact ⟨(WalkStep.feed_of_more (.more lfn l)
        hFed).symm, fun _ => rfl⟩
  | succ remaining ih =>
      dsimp only at ih ⊢
      unfold walkSectors
      rw [Prog.run_bind, Prog.run_bind]
      generalize (fatReadSectors sector).run H s = read
      rcases read with ⟨reply, s'⟩
      cases reply with
      | none =>
          exact ⟨(WalkStep.feed_of_more (.failed l)
            hFed).symm, fun _ => rfl⟩
      | some sec =>
          dsimp only
          rw [walkEntries_feed hFed]
          generalize walkEntries visitCb sec sector 0 lfn l
            v.slotsPerSector = step
          have hSame : ∃ vs, step.ctx = step.ctx ++ vs :=
            ⟨[], (List.append_nil _).symm⟩
          rcases hOut : feed cb c step.ctx with ⟨goes, last⟩
          cases goes with
          | false =>
              have hFeed := WalkStep.feed_of_stopped hOut hSame
              rw [hFeed]
              cases step with
              | stop l' => exact ⟨hFeed.symm, fun _ => rfl⟩
              | failed l' => exact ⟨hFeed.symm, fun _ => rfl⟩
              | more lfn' l' =>
                  have hKept := @walkSectors_extends _ v H
                    (sector + 1) lfn' l' remaining s'
                  refine ⟨(WalkStep.feed_of_stopped hOut
                    hKept).symm, ?_⟩
                  rcases hKept with ⟨vs, hCtx⟩
                  dsimp only
                  rw [hCtx]
                  intro hGoes
                  have hStop := feed_stopped hOut vs
                  change feed cb c (l' ++ vs) = _ at hStop
                  rw [hStop] at hGoes
                  cases hGoes
          | true =>
              have hFeed := WalkStep.feed_of_more step hOut
              rw [hFeed]
              cases step with
              | stop l' => exact ⟨hFeed.symm, fun _ => rfl⟩
              | failed l' => exact ⟨hFeed.symm, fun _ => rfl⟩
              | more lfn' l' => exact ih hOut _ _ _

/- The loop over the clusters of a chain. -/
theorem walkClusters_extends
    (clu : Nat)
    (lfn : LfnState)
    (l : List Visit)
    (guard : Nat)
    (s : S) :
    ∃ vs, ((walkClusters v visitCb clu lfn l guard).run H
      s).1.2 = l ++ vs := by
  induction guard generalizing clu lfn l s with
  | zero => exact ⟨[], (List.append_nil l).symm⟩
  | succ guard ih =>
      unfold walkClusters
      split
      · exact ⟨[], (List.append_nil l).symm⟩
      · rw [Prog.run_bind]
        have hKeeps := @walkSectors_extends _ v H
          (clusterToSector v clu) lfn l v.sectorsPerCluster s
        generalize (walkSectors v visitCb (clusterToSector v
          clu) lfn l v.sectorsPerCluster).run H s = out at *
        rcases out with ⟨step, s'⟩
        cases step with
        | stop l' => exact hKeeps
        | failed l' => exact hKeeps
        | more lfn' l' =>
            rcases hKeeps with ⟨vs, hCtx⟩
            change l' = l ++ vs at hCtx
            dsimp only
            rw [Prog.run_bind]
            rcases ih ((fatGet v clu).run H s').1 lfn' l'
              ((fatGet v clu).run H s').2 with ⟨ws, hMore⟩
            refine ⟨vs ++ ws, hMore.trans ?_⟩
            rw [hCtx, List.append_assoc]

theorem walkClusters_feed
    (hFed : feed cb c l = (true, ctx))
    (clu : Nat)
    (lfn : LfnState)
    (guard : Nat)
    (s : S) :
    ((walkClusters v cb clu lfn ctx guard).run H s).1 =
      feedAll cb c
        ((walkClusters v visitCb clu lfn l guard).run H
          s).1 := by
  have hDone : ∀ {l : List Visit} {ctx : σ} (ok : Bool),
      feed cb c l = (true, ctx) →
        (ok, ctx) = feedAll cb c (ok, l) := by
    intro l ctx ok hFed
    unfold feedAll
    rw [hFed]
  induction guard generalizing clu lfn l ctx s with
  | zero => exact hDone true hFed
  | succ guard ih =>
      unfold walkClusters
      split
      · exact hDone true hFed
      · rw [Prog.run_bind, Prog.run_bind]
        have hWalk := @walkSectors_feed _ _ v cb c ctx l H
          hFed (clusterToSector v clu) lfn
          v.sectorsPerCluster s
        dsimp only at hWalk
        generalize (walkSectors v visitCb (clusterToSector v
          clu) lfn l v.sectorsPerCluster).run H s = full at *
        generalize (walkSectors v cb (clusterToSector v
          clu) lfn ctx v.sectorsPerCluster).run H s = walk
            at *
        rcases full with ⟨step, s'⟩
        rcases walk with ⟨part, s''⟩
        rcases hWalk with ⟨hPart, hState⟩
        dsimp only at hPart hState ⊢
        rcases hOut : feed cb c step.ctx with ⟨goes, last⟩
        cases goes with
        | false =>
            rw [WalkStep.feed_of_stopped hOut
              ⟨[], (List.append_nil _).symm⟩] at hPart
            subst hPart
            refine (feedAll_of_stopped hOut ?_).symm
            cases step with
            | stop l' => exact ⟨[], (List.append_nil _).symm⟩
            | failed l' =>
                exact ⟨[], (List.append_nil _).symm⟩
            | more lfn' l' =>
                dsimp only
                rw [Prog.run_bind]
                exact walkClusters_extends ..
        | true =>
            rw [WalkStep.feed_of_more step hOut] at hPart
            rw [hOut] at hState
            cases hState rfl
            subst hPart
            cases step with
            | stop l' => exact hDone true hOut
            | failed l' => exact hDone false hOut
            | more lfn' l' =>
                dsimp only [WalkStep.withCtx]
                rw [Prog.run_bind, Prog.run_bind]
                exact ih hOut ..

/-
  A walk gives its callback what a walk that is not stopped
  comes across, up to where the callback stops it.
-/
theorem walkDir_feed
    (start : Nat)
    (cb : DirCb σ)
    (c : σ)
    (s : S) :
    ((walkDir v start cb c).run H s).1 =
      feedAll cb c
        ((walkDir v start visitCb []).run H s).1 := by
  unfold walkDir
  rw [Prog.run_bind, Prog.run_bind]
  generalize ioEnter.run H s = entered
  rcases entered with ⟨ok, s₁⟩
  cases ok with
  | false => rfl
  | true =>
      simp only [Bool.not_true, Bool.false_eq_true, if_false]
      rw [Prog.run_bind, Prog.run_bind]
      generalize (chainValid v start).run H s₁ = valid
      rcases valid with ⟨ok, s₂⟩
      dsimp only
      split
      · rfl
      · split
        · rw [Prog.run_bind, Prog.run_bind]
          have hWalk := @walkSectors_feed _ _ v cb c c [] H
            rfl v.rootSector .init
            (min ((v.rootEntries * 32 + v.bytesPerSector - 1)
              / v.bytesPerSector) walkGuard) s₂
          dsimp only at hWalk
          generalize (walkSectors v visitCb _ _ _ _).run H
            s₂ = full at *
          generalize (walkSectors v cb _ _ _ _).run H s₂ =
            walk at *
          rcases full with ⟨step, s'⟩
          rcases walk with ⟨part, s''⟩
          have hPart : part = step.feed cb c := hWalk.1
          subst hPart
          rcases hOut : feed cb c step.ctx with ⟨goes, last⟩
          cases goes with
          | false =>
              have hFeed := WalkStep.feed_of_stopped hOut
                ⟨[], (List.append_nil _).symm⟩
              rw [hFeed]
              cases step <;> exact (feedAll_of_stopped hOut
                ⟨[], (List.append_nil _).symm⟩).symm
          | true =>
              have hFeed := WalkStep.feed_of_more step hOut
              rw [hFeed]
              have hAll : ∀ ok, (ok, last) =
                  feedAll cb c (ok, step.ctx) := by
                intro ok
                unfold feedAll
                rw [hOut]
              cases step with
              | more lfn l => exact hAll true
              | stop l => exact hAll true
              | failed l => exact hAll false
        · exact walkClusters_feed rfl ..

end Walks

--
-- Listing
--

/- The entries of a listing among those of the directory. -/
def listed (visits : List Visit) : List VfsDirent :=
  (visits.filter (fun x => !isDots x.name)).map
    (fun x => vfsDirent x.name x.de)

/- All that `fat_readdir_impl` comes across in `path`. -/
def fatVisits
    (v : FatVol)
    (path : List UInt8) : FatProg (List Visit) := do
  match ← resolvePath v path with
  | .missing => pure []
  | found =>
      let isDir := match found with
        | .entry f => Dirent.is f.de fatAttrDir
        | _ => true
      if !isDir then
        pure []
      else
        let (_, visits) ←
          walkDir v (found.cluster v) visitCb []
        pure visits

/- `list_cb` skips what lies before, and fills the page. -/
theorem feed_listCb
    (visits : List Visit)
    (l : ListCtx)
    (hRoom : l.out.length < l.capacity) :
    (feed listCb l visits).2.out =
      l.out ++ Pages.page (listed visits) (l.want - l.index)
        (l.capacity - l.out.length) := by
  induction visits generalizing l with
  | nil =>
      unfold listed Pages.page feed
      simp
  | cons x visits ih =>
      rw [feed, listCb]
      dsimp only
      split
      · next hDots =>
          have hListed : listed (x :: visits) =
              listed visits := by
            unfold listed
            rw [List.filter_cons_of_neg (by simp [hDots])]
          rw [hListed]
          exact ih l hRoom
      · next hDots =>
          have hListed : listed (x :: visits) =
              vfsDirent x.name x.de :: listed visits := by
            unfold listed
            rw [List.filter_cons_of_pos (by simp [hDots]),
              List.map_cons]
          rw [hListed]
          split
          · next hReached =>
              have hWant : l.want - l.index = 0 := by omega
              have hNext : l.want - (l.index + 1) = 0 := by
                omega
              rcases Nat.exists_eq_add_of_lt hRoom with
                ⟨n, hn⟩
              have hLeft : l.capacity - l.out.length =
                  n + 1 := by
                omega
              rw [hWant, hLeft]
              change _ = l.out ++ (vfsDirent x.name x.de ::
                Pages.page (listed visits) 0 n)
              have hLength : (l.out ++
                  [vfsDirent x.name x.de]).length =
                    l.out.length + 1 :=
                List.length_append
              split
              · next hMore =>
                  have hFits := of_decide_eq_true hMore
                  rw [ih _ hFits]
                  dsimp only
                  have hRest : l.capacity - (l.out ++
                      [vfsDirent x.name x.de]).length = n := by
                    omega
                  rw [hNext, hRest, List.append_assoc]
                  rfl
              · next hFull =>
                  have hNone : n = 0 := by
                    by_contra hSome
                    apply hFull
                    apply decide_eq_true
                    omega
                  subst hNone
                  unfold Pages.page
                  rw [List.take_zero]
          · next hBefore =>
              rcases Nat.exists_eq_add_of_lt
                (Nat.lt_of_not_le hBefore) with ⟨k, hk⟩
              have hWant : l.want - l.index = k + 1 := by
                omega
              have hNext : l.want - (l.index + 1) = k := by
                omega
              have hRest := ih
                { l with index := l.index + 1 } hRoom
              dsimp only at hRest
              rw [hNext] at hRest
              rw [hWant]
              exact hRest

/-
  A listing fails, or gives a page of all that its walk
  would come across, whatever answers its reads.
-/
theorem fatReaddirImpl_page
    {S : Type}
    (H : (command : FatCmd) → S → command.Reply × S)
    (v : FatVol)
    (path : List UInt8)
    (first count : Nat)
    (hCount : 0 < count)
    (s : S) :
    ((fatReaddirImpl v path first count).run H s).1 =
        none ∨
      ((fatReaddirImpl v path first count).run H s).1 =
        some (Pages.page
          (listed ((fatVisits v path).run H s).1) first
          count) := by
  have hWalk : ∀ (start : Nat) (s : S),
      let out := ((walkDir v start listCb
        ⟨0, first, [], count⟩).run H s).1
      out.1 = false ∨ out.2.out = Pages.page
        (listed ((walkDir v start visitCb []).run H s).1.2)
        first count := by
    intro start s
    dsimp only
    rw [walkDir_feed]
    generalize ((walkDir v start visitCb []).run H s).1 =
      full
    have hPage := feed_listCb full.2 ⟨0, first, [], count⟩
      hCount
    unfold feedAll
    generalize feed listCb ⟨0, first, [], count⟩ full.2 =
      out at hPage ⊢
    rcases out with ⟨goes, l⟩
    cases goes with
    | false => exact .inr hPage
    | true => exact .inr hPage
  unfold fatReaddirImpl fatVisits
  rw [Prog.run_bind, Prog.run_bind]
  generalize (resolvePath v path).run H s = out
  rcases out with ⟨found, s'⟩
  have hDir : ∀ (isDir : Bool) (start : Nat),
      let listing : FatProg (Option (List VfsDirent)) :=
        if !isDir then pure none
        else
          walkDir v start listCb ⟨0, first, [], count⟩ >>=
            fun out => pure
              (if out.1 then some out.2.out else none)
      let visits : FatProg (List Visit) :=
        if !isDir then pure []
        else
          walkDir v start visitCb [] >>= fun out =>
            pure out.2
      (listing.run H s').1 = none ∨
        (listing.run H s').1 = some (Pages.page
          (listed (visits.run H s').1) first count) := by
    intro isDir start
    cases isDir with
    | false => exact .inl rfl
    | true =>
        have hOut := hWalk start s'
        simp only [Bool.not_true, Bool.false_eq_true,
          if_false, Prog.run_bind, Prog.run_ret, Prog.pure_eq]
        dsimp only at hOut
        generalize ((walkDir v start listCb
          ⟨0, first, [], count⟩).run H s').1 = last at *
        rcases last with ⟨ok, l⟩
        dsimp only at hOut ⊢
        cases ok with
        | false => exact .inl rfl
        | true =>
            rcases hOut with hNone | hPage
            · cases hNone
            · exact .inr (congrArg some hPage)
  cases found with
  | missing => exact .inl rfl
  | root => exact hDir true _
  | entry f => exact hDir _ _

end KvantOS
