import KvantOS.Ntfs.Index
import KvantOS.Ntfs.Reading

/-
  This file separates what a walk over a directory finds
  from the callback: the entries and whether the directory
  is whole depend on the disk only, and `walk_index` gives
  the entries to the callback, in order, until it stops.

  The flag `read_error` may be set on the way, and callbacks
  may look at it, so each call of one has its own flag.

  Key definitions include:
    * `dirShows`, `Presented`, `Shown`

  Key theorems include:
    * `walkEntries_shown`, `walkBlocks_shown`
    * `walkIndex_shown`
-/

namespace KvantOS.Ntfs

--
-- What a Directory Shows
--

/- Some entries, and whether there is nothing wrong. -/
abbrev Shows :=
  List NtfsEntry × Bool

/- The entries of a node that have a name. -/
def nodeShows
    (b : Buf)
    (stop : Nat) :
    (fuel p : Nat) → Shows
  | 0, _ => ([], false)
  | fuel + 1, p =>
      if p < stop then
        match decodeIndexEntry b p (stop - p) with
        | none => ([], false)
        | some d =>
            if d.last then
              ([], true)
            else
              let rest := nodeShows b stop fuel (p + d.len)
              if d.entry.name.isEmpty then rest
              else (d.entry :: rest.1, rest.2)
      else
        ([], false)

/- A node with its header at `h`. -/
def headedShows
    (b : Buf)
    (h len : Nat) : Shows :=
  let first := b.get32 h
  let stop := b.get32 (h + 4)
  if first < 0x10 || stop < first || stop > len then
    ([], false)
  else
    nodeShows b (h + stop) (stop - first) (h + first)

/- An index block as it was read. -/
def blockShows
    (b : Buf)
    (blk : Nat) : Shows :=
  if !b.same indxMagic 4 then
    ([], false)
  else
    match applyFixup b blk with
    | none => ([], false)
    | some b => headedShows b 0x18 (blk - 0x18)

/- The one part after the other, if the first is whole. -/
def Shows.andThen
    (first rest : Shows) : Shows :=
  if first.2 then (first.1 ++ rest.1, rest.2)
  else first

/- The index blocks from `off` on. -/
def blocksShow
    (v : NtfsVol)
    (disk : NtfsDisk)
    (alloc : AttrAt)
    (size : Nat) :
    (fuel off : Nat) → Shows
  | 0, _ => ([], true)
  | fuel + 1, off =>
      if off < size then
        let got := (readAttr v disk alloc off Buf.zero
          v.indexSize false).1
        if got.1 < v.indexSize then
          ([], false)
        else
          (blockShows got.2 v.indexSize).andThen
            (blocksShow v disk alloc size fuel
              (off + v.indexSize))
      else
        ([], true)

/- The part of the directory in its index allocation. -/
def allocationShows
    (v : NtfsVol)
    (disk : NtfsDisk)
    (alloc : AttrAt) : Shows :=
  if alloc.owner (alloc.attr + 0x08) == 0 then
    ([], false)
  else
    let size := alloc.owner.get32 (alloc.attr + 0x30)
    let blk := v.indexSize
    let clusters := size / v.clusterSize +
      (if size % v.clusterSize != 0 then 1 else 0)
    if blk == 0 || blk > ntfsIdxMax ||
        v.clusterSize == 0 || size % blk != 0 ||
        clusters > v.totalSectors / v.sectorsPerCluster
    then
      ([], false)
    else
      blocksShow v disk alloc size size 0

/- The part of the directory in its index root. -/
def rootShows
    (v : NtfsVol)
    (root : AttrAt) : Shows :=
  match residentValue root.owner root.attr v.recordSize with
  | none => ([], false)
  | some (val, vlen) =>
      if vlen < 0x20 then
        ([], false)
      else
        headedShows root.owner (val + 0x10) (vlen - 0x10)

/- The part after the root, if there is one. -/
def restShows
    (v : NtfsVol)
    (disk : NtfsDisk) : Option AttrAt × Bool → Shows
  | (none, bad) => ([], !bad)
  | (some alloc, _) => allocationShows v disk alloc

/- All entries of a directory. -/
def dirShows
    (v : NtfsVol)
    (disk : NtfsDisk)
    (dirRef : Nat) : Shows :=
  match (readMftRecord v disk dirRef false).1 with
  | none => ([], false)
  | some base =>
      match (findAttrExt v disk base atIndexRoot false).1
      with
      | none => ([], false)
      | some root =>
          (rootShows v root).andThen
            (restShows v disk
              (findAttrExt v disk base atIndexAlloc false))

section Decoded

end Decoded

--
-- Giving Entries to a Callback
--

section Present

variable {σ : Type}

/- The callback on some entries, until it stops. -/
inductive Presented
    (cb : IdxCb σ) :
    List NtfsEntry → σ → Bool × σ → Prop
  | all {s : σ} :
      Presented cb [] s (true, s)
  | more
      {x : NtfsEntry}
      {entries : List NtfsEntry}
      {s s' : σ}
      {e : Bool}
      {out : Bool × σ}
      (hStep : (cb s x e).1 = (true, s'))
      (hRest : Presented cb entries s' out) :
      Presented cb (x :: entries) s out
  | stop
      {x : NtfsEntry}
      {entries : List NtfsEntry}
      {s s' : σ}
      {e : Bool}
      (hStep : (cb s x e).1 = (false, s')) :
      Presented cb (x :: entries) s (false, s')

variable {entries rest : List NtfsEntry}

theorem Presented.append_stop
    {cb : IdxCb σ}
    {s s' : σ}
    (hFirst : Presented cb entries s (false, s')) :
    Presented cb (entries ++ rest) s (false, s') := by
  induction entries generalizing s with
  | nil => cases hFirst
  | cons x entries ih =>
      cases hFirst with
      | more hStep hRest => exact .more hStep (ih hRest)
      | stop hStep => exact .stop hStep

theorem Presented.append
    {cb : IdxCb σ}
    {s s' : σ}
    {out : Bool × σ}
    (hFirst : Presented cb entries s (true, s'))
    (hRest : Presented cb rest s' out) :
    Presented cb (entries ++ rest) s out := by
  induction entries generalizing s with
  | nil =>
      cases hFirst
      exact hRest
  | cons x entries ih =>
      cases hFirst with
      | more hStep hLater => exact .more hStep (ih hLater)

/- How a part of a walk ends when the callback goes on. -/
def Shows.ends (shows : Shows) : WalkEnd :=
  if shows.2 then .finished else .failed

/-
  A part of a walk has given its entries to the callback,
  and ends as this part of the directory does, unless the
  callback has stopped it.
-/
inductive Shown
    (cb : IdxCb σ)
    (shows : Shows)
    (s : σ) : WalkEnd × σ → Prop
  | all
      {s' : σ}
      (hAll : Presented cb shows.1 s (true, s')) :
      Shown cb shows s (shows.ends, s')
  | stopped
      {s' : σ}
      (hStop : Presented cb shows.1 s (false, s')) :
      Shown cb shows s (.stopped, s')

theorem shown_failed
    (cb : IdxCb σ)
    (s : σ) :
    Shown cb ([], false) s (.failed, s) :=
  @Shown.all σ cb ([], false) s s .all

/- The loop over the entries of a node. -/
theorem walkEntries_shown
    (cb : IdxCb σ)
    (b : Buf)
    (stop fuel p : Nat)
    (s : σ)
    (e : Bool) :
    Shown cb (nodeShows b stop fuel p) s
      (walkEntries cb b stop fuel p s e).1 := by
  induction fuel generalizing p s e with
  | zero => exact shown_failed cb s
  | succ fuel ih =>
      rw [walkEntries, nodeShows]
      split
      · cases decodeIndexEntry b p (stop - p) with
        | none => exact shown_failed cb s
        | some d =>
            dsimp only
            split
            · exact @Shown.all σ cb ([], true) s s .all
            · split
              · exact ih _ _ _
              · rw [run_bind]
                rcases hStep : cb s d.entry e with
                  ⟨⟨more, s'⟩, e'⟩
                have hFst : (cb s d.entry e).1 = (more, s') :=
                  by
                  rw [hStep]
                cases more with
                | true =>
                    have hLater := ih (p + d.len) s' e'
                    change Shown cb _ s (walkEntries cb b
                      stop fuel (p + d.len) s' e').1
                    generalize (walkEntries cb b stop fuel
                      (p + d.len) s' e').1 = last at *
                    cases hLater with
                    | all hAll =>
                        exact @Shown.all σ cb
                          (_ :: _, _) s _ (.more hFst hAll)
                    | stopped hStop =>
                        exact @Shown.stopped σ cb
                          (_ :: _, _) s _ (.more hFst hStop)
                | false =>
                    exact @Shown.stopped σ cb (_ :: _, _) s
                      s' (.stop hFst)
      · exact shown_failed cb s

theorem walkNode_shown
    (cb : IdxCb σ)
    (b : Buf)
    (h len : Nat)
    (s : σ)
    (e : Bool) :
    Shown cb (headedShows b h len) s
      (walkNode cb b h len s e).1 := by
  unfold headedShows walkNode
  dsimp only
  split
  · exact shown_failed cb s
  · exact walkEntries_shown ..

theorem walkBlock_shown
    (cb : IdxCb σ)
    (b : Buf)
    (blk : Nat)
    (s : σ)
    (e : Bool) :
    Shown cb (blockShows b blk) s
      (walkBlock cb b blk s e).1 := by
  unfold blockShows walkBlock
  split
  · exact shown_failed cb s
  · cases applyFixup b blk with
    | none => exact shown_failed cb s
    | some b => exact walkNode_shown ..

/- The rest of a walk, after a part that has finished. -/
def walkOn
    (next : σ → NtfsM (WalkEnd × σ)) :
    WalkEnd × σ → NtfsM (WalkEnd × σ)
  | (.finished, s) => next s
  | out => pure out

/- The next part follows one that is whole. -/
theorem Shown.andThen
    {cb : IdxCb σ}
    {first rest : Shows}
    {s : σ}
    {out : WalkEnd × σ}
    {next : σ → NtfsM (WalkEnd × σ)}
    (hFirst : Shown cb first s out)
    (hRest : ∀ s e, Shown cb rest s (next s e).1)
    (e : Bool) :
    Shown cb (first.andThen rest) s
      (walkOn next out e).1 := by
  rcases first with ⟨entries, whole⟩
  cases hFirst with
  | stopped hStop =>
      cases whole with
      | false => exact .stopped hStop
      | true => exact .stopped hStop.append_stop
  | @all s' hAll =>
      cases whole with
      | false => exact .all hAll
      | true =>
          change Shown cb (entries ++ rest.1, rest.2) s
            (next s' e).1
          generalize hNext : (next s' e).1 = last
          have hShown := hRest s' e
          rw [hNext] at hShown
          cases hShown with
          | all hLater =>
              exact @Shown.all σ cb (entries ++ rest.1, _) s
                _ (hAll.append hLater)
          | stopped hLater =>
              exact @Shown.stopped σ cb
                (entries ++ rest.1, _) s _
                (hAll.append hLater)

end Present

--
-- Reads of a Walk
--

section Reads

variable (v : NtfsVol) (disk : NtfsDisk)

theorem sticky_readRuns
    (runs : List NtfsRun)
    (off want fuel done : Nat)
    (dst : Buf) :
    Sticky
      (readRuns v disk runs off want fuel done dst) := by
  induction fuel generalizing done dst with
  | zero => exact sticky_pure _
  | succ fuel ih =>
      rw [readRuns]
      split
      · dsimp only
        split
        · exact sticky_pure _
        · split
          · exact ih _ _
          · apply (sticky_flagged _).bind
            intro b
            split
            · exact sticky_pure _
            · exact ih _ _
      · exact sticky_pure _

theorem sticky_readNonResident
    (a : AttrAt)
    (alen real init off : Nat)
    (dst : Buf)
    (max : Nat) :
    Sticky (readNonResident v disk a alen real init off dst
      max) := by
  unfold readNonResident
  dsimp only
  generalize (if real - off > max then max else real - off) =
    want
  generalize (if want > init - off then init - off
    else want) = dataWant
  split
  · exact sticky_pure _
  · split
    · exact sticky_pure _
    · split
      · exact sticky_pure _
      · split
        · exact sticky_pure _
        · split
          · exact sticky_pure _
          · apply (sticky_readRuns v disk _ _ _ _ _ _).bind
            intro r
            split <;> exact sticky_pure _

theorem sticky_readAttr
    (a : AttrAt)
    (off : Nat)
    (dst : Buf)
    (max : Nat) :
    Sticky (readAttr v disk a off dst max) := by
  unfold readAttr
  dsimp only
  split
  · exact sticky_pure _
  · split
    · exact sticky_pure _
    · split
      · exact sticky_pure _
      · split
        · exact sticky_pure _
        · split
          · exact sticky_pure _
          · split
            · exact sticky_pure _
            · exact sticky_readNonResident v disk _ _ _ _ _
                _ _

end Reads

--
-- Walking
--

section Walking

variable {σ : Type}
variable (v : NtfsVol) (disk : NtfsDisk)

/- The loop over the index blocks. -/
theorem walkBlocks_shown
    (cb : IdxCb σ)
    (alloc : AttrAt)
    (size fuel off : Nat)
    (s : σ)
    (e : Bool) :
    Shown cb (blocksShow v disk alloc size fuel off) s
      (walkBlocks v disk cb alloc size fuel off s e).1 := by
  induction fuel generalizing off s e with
  | zero => exact @Shown.all σ cb ([], true) s s .all
  | succ fuel ih =>
      rw [walkBlocks, blocksShow]
      split
      · rw [run_bind, (sticky_readAttr v disk alloc off
          Buf.zero v.indexSize).fst e]
        dsimp only
        split
        · exact shown_failed cb s
        · rw [run_bind]
          exact Shown.andThen (walkBlock_shown cb _ _ s _)
            (fun s e => ih (off + v.indexSize) s e) _
      · exact @Shown.all σ cb ([], true) s s .all

variable {v disk} {base : Buf}

variable {root : AttrAt}

theorem walkRoot_shown
    (hRoot : (findAttrExt v disk base atIndexRoot false).1 =
      some root)
    (cb : IdxCb σ)
    (s : σ)
    (e : Bool) :
    Shown cb (rootShows v root) s
      (walkRoot v disk cb base s e).1 := by
  unfold walkRoot rootShows
  rw [run_bind,
    (sticky_findAttrExt v disk base atIndexRoot).fst e,
    hRoot]
  dsimp only
  cases residentValue root.owner root.attr v.recordSize with
  | none => exact shown_failed cb s
  | some value =>
      rcases value with ⟨val, vlen⟩
      dsimp only
      split
      · exact shown_failed cb s
      · exact walkNode_shown ..

variable {alloc : AttrAt}

theorem walkAllocation_shown
    (hAlloc : (findAttrExt v disk base atIndexAlloc
      false).1 = some alloc)
    (cb : IdxCb σ)
    (s : σ)
    (e : Bool) :
    Shown cb (allocationShows v disk alloc) s
      (walkAllocation v disk cb base s e).1 := by
  unfold walkAllocation allocationShows
  rw [run_bind,
    (sticky_findAttrExt v disk base atIndexAlloc).fst e,
    hAlloc]
  dsimp only
  generalize alloc.owner.get32 (alloc.attr + 0x30) /
      v.clusterSize +
    (if alloc.owner.get32 (alloc.attr + 0x30) %
      v.clusterSize != 0 then 1 else 0) = clusters
  split
  · exact shown_failed cb s
  · split
    · exact shown_failed cb s
    · exact walkBlocks_shown v disk cb alloc _ _ _ s _

/- Without an index allocation the flag decides. -/
theorem walkAllocation_none
    (hAlloc : (findAttrExt v disk base atIndexAlloc
      false).1 = none)
    (cb : IdxCb σ)
    (s : σ)
    (e : Bool) :
    walkAllocation v disk cb base s e =
      ((if e || (findAttrExt v disk base atIndexAlloc
          false).2 then .failed else .finished, s),
        e || (findAttrExt v disk base atIndexAlloc
          false).2) := by
  unfold walkAllocation
  rw [run_bind, sticky_findAttrExt v disk base atIndexAlloc
    e, hAlloc]
  rfl

/-
  What `walk_index` does: it fails without a record, it is
  stopped, or it gives all entries to the callback, and then
  fails with the flag if something is wrong. It may also
  fail at the end because the flag was set before.
-/
inductive Walked
    (v : NtfsVol)
    (disk : NtfsDisk)
    (dirRef : Nat)
    (cb : IdxCb σ)
    (s : σ) : (Bool × σ) × Bool → Prop
  | noRecord
      {e : Bool}
      (hRecord : (readMftRecord v disk dirRef false).1 =
        none) :
      Walked v disk dirRef cb s ((false, s), e)
  | stopped
      {s' : σ}
      {e : Bool}
      (hStop : Presented cb (dirShows v disk dirRef).1 s
        (false, s')) :
      Walked v disk dirRef cb s ((true, s'), e)
  | whole
      {s' : σ}
      {good e : Bool}
      (hAll : Presented cb (dirShows v disk dirRef).1 s
        (true, s'))
      (hWhole : (dirShows v disk dirRef).2 = true)
      (hFlag : good = false → e = true) :
      Walked v disk dirRef cb s ((good, s'), e)
  | broken
      {s' : σ}
      (hAll : Presented cb (dirShows v disk dirRef).1 s
        (true, s'))
      (hBroken : (dirShows v disk dirRef).2 = false) :
      Walked v disk dirRef cb s ((false, s'), true)

variable {dirRef : Nat}

/- The parts of a directory whose record can be read. -/
theorem dirShows_root
    (hRecord : (readMftRecord v disk dirRef false).1 =
      some base)
    (hRoot : (findAttrExt v disk base atIndexRoot false).1 =
      some root) :
    dirShows v disk dirRef =
      (rootShows v root).andThen
        (restShows v disk
          (findAttrExt v disk base atIndexAlloc false)) := by
  unfold dirShows
  rw [hRecord]
  dsimp only
  rw [hRoot]

variable {found : Option AttrAt × Bool}

theorem restShows_none
    (hAlloc : found.1 = none) :
    restShows v disk found = ([], !found.2) := by
  rcases found with ⟨alloc, bad⟩
  cases hAlloc
  rfl

theorem restShows_some
    (hAlloc : found.1 = some alloc) :
    restShows v disk found =
      allocationShows v disk alloc := by
  rcases found with ⟨alloc, bad⟩
  cases hAlloc
  rfl

/- The end of a directory without an index allocation. -/
theorem walked_rootOnly
    {cb : IdxCb σ}
    {s s' : σ}
    {shows : Shows}
    {bad : Bool}
    (hShows : dirShows v disk dirRef =
      shows.andThen ([], !bad))
    (hShown : Shown cb shows s (.finished, s'))
    (e : Bool) :
    Walked v disk dirRef cb s
      (walkResult (if e || bad then .failed else .finished,
        s') (e || bad)) := by
  rcases shows with ⟨entries, whole⟩
  generalize hEnd : (WalkEnd.finished, s') = out at hShown
  cases hShown with
  | stopped hStop => cases hEnd
  | all hAll =>
      cases whole with
      | false => cases hEnd
      | true =>
          cases hEnd
          have hPresented : Presented cb
              (dirShows v disk dirRef).1 s (true, s') := by
            rw [hShows]
            exact hAll.append .all
          cases bad with
          | true =>
              rw [Bool.or_true]
              refine .broken hPresented ?_
              rw [hShows]
              rfl
          | false =>
              have hWhole : (dirShows v disk dirRef).2 =
                  true := by
                rw [hShows]
                rfl
              cases e with
              | true =>
                  exact .whole hPresented hWhole
                    (fun _ => rfl)
              | false => exact .whole hPresented hWhole nofun

/- A walk that has shown some parts ends as they do. -/
theorem Walked.ofShown
    {cb : IdxCb σ}
    {s : σ}
    {out : WalkEnd × σ}
    (hShown : Shown cb (dirShows v disk dirRef) s out)
    (e : Bool) :
    Walked v disk dirRef cb s (walkResult out e) := by
  cases hShown with
  | stopped hStop => exact .stopped hStop
  | all hAll =>
      cases hWhole : (dirShows v disk dirRef).2 with
      | true =>
          rw [Shows.ends, hWhole]
          exact .whole hAll hWhole nofun
      | false =>
          rw [Shows.ends, hWhole]
          exact .broken hAll hWhole

theorem walkIndex_shown
    (dirRef : Nat)
    (cb : IdxCb σ)
    (s : σ)
    (e : Bool) :
    Walked v disk dirRef cb s
      (walkIndex v disk dirRef cb s e) := by
  unfold walkIndex
  rw [run_bind, (sticky_readMftRecord v disk dirRef).fst e]
  cases hRecord : (readMftRecord v disk dirRef false).1 with
  | none => exact .noRecord hRecord
  | some base =>
      dsimp only
      rw [run_bind]
      cases hRoot : (findAttrExt v disk base atIndexRoot
          false).1 with
      | none =>
          have hShows : dirShows v disk dirRef =
              ([], false) := by
            unfold dirShows
            rw [hRecord]
            dsimp only
            rw [hRoot]
          have hShown : Shown cb (dirShows v disk dirRef) s
              (.failed, s) := by
            rw [hShows]
            exact shown_failed cb s
          unfold walkRoot
          rw [run_bind, (sticky_findAttrExt v disk base
            atIndexRoot).fst, hRoot]
          exact Walked.ofShown hShown _
      | some root =>
          have hRootShown := walkRoot_shown hRoot cb s
            (readMftRecord v disk dirRef e).2
          generalize walkRoot v disk cb base s
            (readMftRecord v disk dirRef e).2 = out at *
          rcases out with ⟨⟨stop, s'⟩, e'⟩
          dsimp only at hRootShown ⊢
          cases hAlloc : (findAttrExt v disk base
              atIndexAlloc false).1 with
          | some alloc =>
              have hShown : Shown cb (dirShows v disk dirRef)
                  s (walkOn (walkAllocation v disk cb base)
                    (stop, s') e').1 := by
                rw [dirShows_root hRecord hRoot,
                  restShows_some hAlloc]
                exact hRootShown.andThen
                  (walkAllocation_shown hAlloc cb) e'
              cases stop with
              | failed => exact Walked.ofShown hShown _
              | stopped => exact Walked.ofShown hShown _
              | finished => exact Walked.ofShown hShown _
          | none =>
              have hShows := dirShows_root hRecord hRoot
              rw [restShows_none hAlloc] at hShows
              have hShown : Shown cb (dirShows v disk dirRef)
                  s (walkOn
                    (fun s => pure (Shows.ends ([],
                      !(findAttrExt v disk base atIndexAlloc
                        false).2), s))
                    (stop, s') e').1 := by
                rw [hShows]
                exact hRootShown.andThen
                  (fun s _ => .all .all) e'
              cases stop with
              | finished =>
                  have hWalked := walked_rootOnly hShows
                    hRootShown e'
                  dsimp only
                  rw [run_bind, walkAllocation_none hAlloc]
                  exact hWalked
              | failed => exact Walked.ofShown hShown _
              | stopped => exact Walked.ofShown hShown _

end Walking

end KvantOS.Ntfs
