import KvantOS.Ntfs.Walk

/-
  This file relates what `ntfs_op_readdir` gives for an
  index to the entries that the directory shows. A walk that
  the callback stops ends with the flag as the callback
  leaves it, so that an entry which is refused is an error.

  Key definitions include:
    * `StopsBy`, `ntfsListing`

  Key theorems include:
    * `walkIndex_ends`, `nlist_presented`
    * `ntfsOpReaddir_entry`
-/

namespace KvantOS.Ntfs

--
-- The End of a Stopped Walk
--

section Stops

variable {σ : Type}

/- A part that was stopped ends right after the callback. -/
def StopsBy
    (cb : IdxCb σ)
    (out : (WalkEnd × σ) × Bool) : Prop :=
  out.1.1 = .stopped →
    ∃ s x e, cb s x e = ((false, out.1.2), out.2)

theorem walkEntries_stops
    (cb : IdxCb σ)
    (b : Buf)
    (stop fuel p : Nat)
    (s : σ)
    (e : Bool) :
    StopsBy cb (walkEntries cb b stop fuel p s e) := by
  induction fuel generalizing p s e with
  | zero => rintro ⟨⟩
  | succ fuel ih =>
      rw [walkEntries]
      split
      · cases decodeIndexEntry b p (stop - p) with
        | none => rintro ⟨⟩
        | some d =>
            dsimp only
            split
            · rintro ⟨⟩
            · split
              · exact ih _ _ _
              · rw [run_bind]
                rcases hStep : cb s d.entry e with
                  ⟨⟨more, s'⟩, e'⟩
                cases more with
                | true => exact ih (p + d.len) s' e'
                | false => exact fun _ => ⟨s, _, e, hStep⟩
      · rintro ⟨⟩

theorem walkNode_stops
    (cb : IdxCb σ)
    (b : Buf)
    (h len : Nat)
    (s : σ)
    (e : Bool) :
    StopsBy cb (walkNode cb b h len s e) := by
  unfold walkNode
  split
  · exact nofun
  · exact walkEntries_stops cb b _ _ _ s e

theorem walkBlock_stops
    (cb : IdxCb σ)
    (b : Buf)
    (blk : Nat)
    (s : σ)
    (e : Bool) :
    StopsBy cb (walkBlock cb b blk s e) := by
  unfold walkBlock
  split
  · exact nofun
  · cases applyFixup b blk with
    | none => exact nofun
    | some b => exact walkNode_stops cb b _ _ s e

variable (v : NtfsVol) (disk : NtfsDisk)

theorem walkBlocks_stops
    (cb : IdxCb σ)
    (alloc : AttrAt)
    (size fuel off : Nat)
    (s : σ)
    (e : Bool) :
    StopsBy cb
      (walkBlocks v disk cb alloc size fuel off s e) := by
  induction fuel generalizing off s e with
  | zero => rintro ⟨⟩
  | succ fuel ih =>
      rw [walkBlocks]
      split
      · rw [run_bind]
        dsimp only
        split
        · rintro ⟨⟩
        · rw [run_bind]
          have hBlock := walkBlock_stops cb
            (readAttr v disk alloc off Buf.zero v.indexSize
              e).1.2 v.indexSize s
            (readAttr v disk alloc off Buf.zero v.indexSize
              e).2
          generalize walkBlock cb _ v.indexSize s _ = out
            at hBlock ⊢
          rcases out with ⟨⟨last, s'⟩, e'⟩
          cases last with
          | failed => rintro ⟨⟩
          | stopped => exact hBlock
          | finished => exact ih _ _ _
      · rintro ⟨⟩

theorem walkRoot_stops
    (cb : IdxCb σ)
    (base : Buf)
    (s : σ)
    (e : Bool) :
    StopsBy cb (walkRoot v disk cb base s e) := by
  unfold walkRoot
  rw [run_bind]
  generalize findAttrExt v disk base atIndexRoot e = found
  rcases found with ⟨root, e'⟩
  cases root with
  | none => exact nofun
  | some root =>
      dsimp only
      cases residentValue root.owner root.attr
          v.recordSize with
      | none => exact nofun
      | some value =>
          dsimp only
          split
          · exact nofun
          · exact walkNode_stops cb _ _ _ s e'

theorem walkAllocation_stops
    (cb : IdxCb σ)
    (base : Buf)
    (s : σ)
    (e : Bool) :
    StopsBy cb (walkAllocation v disk cb base s e) := by
  unfold walkAllocation
  rw [run_bind]
  generalize findAttrExt v disk base atIndexAlloc e = found
  rcases found with ⟨alloc, e'⟩
  cases alloc with
  | none =>
      cases e' with
      | false => exact nofun
      | true => exact nofun
  | some alloc =>
      dsimp only
      split
      · exact nofun
      · generalize alloc.owner.get32 (alloc.attr + 0x30) /
            v.clusterSize +
          (if alloc.owner.get32 (alloc.attr + 0x30) %
            v.clusterSize != 0 then 1 else 0) = clusters
        split
        · exact nofun
        · exact walkBlocks_stops v disk cb _ _ _ _ s e'

/- A part that has finished is whole, and was all given. -/
theorem Shown.finished
    {cb : IdxCb σ}
    {shows : Shows}
    {s s' : σ}
    (hShown : Shown cb shows s (.finished, s')) :
    shows.2 = true ∧
      Presented cb shows.1 s (true, s') := by
  generalize hEnd : (WalkEnd.finished, s') = out at hShown
  cases hShown with
  | stopped hStop => cases hEnd
  | all hAll =>
      unfold Shows.ends at hEnd
      split at hEnd
      · next hWhole =>
          cases hEnd
          exact ⟨hWhole, hAll⟩
      · cases hEnd

/-
  A walk that does not fail was stopped, and ends with the
  flag of the callback, or has given all entries to it.
-/
theorem walkIndex_ends
    (dirRef : Nat)
    (cb : IdxCb σ)
    (s : σ)
    (e : Bool)
    (hGood : (walkIndex v disk dirRef cb s e).1.1 = true) :
    (∃ s₀ x e₀, cb s₀ x e₀ =
      ((false, (walkIndex v disk dirRef cb s e).1.2),
        (walkIndex v disk dirRef cb s e).2)) ∨
    Presented cb (dirShows v disk dirRef).1 s
      (true, (walkIndex v disk dirRef cb s e).1.2) := by
  unfold walkIndex at hGood ⊢
  rw [run_bind, (sticky_readMftRecord v disk dirRef).fst e]
    at hGood ⊢
  cases hRecord : (readMftRecord v disk dirRef false).1 with
  | none =>
      rw [hRecord] at hGood
      cases hGood
  | some base =>
      rw [hRecord] at hGood
      dsimp only at hGood ⊢
      rw [run_bind] at hGood ⊢
      have hStops := walkRoot_stops v disk cb base s
        (readMftRecord v disk dirRef e).2
      cases hRoot : (findAttrExt v disk base atIndexRoot
          false).1 with
      | none =>
          unfold walkRoot at hGood
          rw [run_bind, (sticky_findAttrExt v disk base
            atIndexRoot).fst, hRoot] at hGood
          cases hGood
      | some root =>
          have hShown := walkRoot_shown hRoot cb s
            (readMftRecord v disk dirRef e).2
          generalize walkRoot v disk cb base s
            (readMftRecord v disk dirRef e).2 = out at *
          rcases out with ⟨⟨last, s'⟩, e'⟩
          cases last with
          | failed => cases hGood
          | stopped => exact .inl (hStops rfl)
          | finished =>
              dsimp only at hGood ⊢ hShown
              rw [run_bind] at hGood ⊢
              have hStops := walkAllocation_stops v disk cb
                base s' e'
              cases hAlloc : (findAttrExt v disk base
                  atIndexAlloc false).1 with
              | none =>
                  rw [walkAllocation_none hAlloc] at hGood ⊢
                  split at hGood
                  · cases hGood
                  · next hClear =>
                      refine .inr ?_
                      rw [if_neg hClear,
                        dirShows_root hRecord hRoot,
                        restShows_none hAlloc,
                        Shows.andThen,
                        if_pos hShown.finished.1]
                      exact hShown.finished.2.append .all
              | some alloc =>
                  have hAll := walkAllocation_shown hAlloc cb
                    s' e'
                  generalize walkAllocation v disk cb base s'
                    e' = out at *
                  rcases out with ⟨⟨last, s''⟩, e''⟩
                  cases last with
                  | failed => cases hGood
                  | stopped => exact .inl (hStops rfl)
                  | finished =>
                      refine .inr ?_
                      rw [dirShows_root hRecord hRoot,
                        restShows_some hAlloc,
                        Shows.andThen,
                        if_pos hShown.finished.1]
                      exact hShown.finished.2.append
                        hAll.finished.2

end Stops

--
-- Entries of a Listing
--

/- What a listing gives for an entry. -/
def ntfsDirent (e : NtfsEntry) : NtfsDirent where
  name := e.name
  size := e.size
  isDir := e.isDir
  isHidden := e.isHidden
  isSystem := e.isSystem
  isReadonly := e.isReadonly

/- The entries that a listing does not leave out. -/
def visible (entries : List NtfsEntry) : List NtfsEntry :=
  entries.filter (fun e => !hiddenEntry e)

/- All entries of a listing. -/
def ntfsListing
    (v : NtfsVol)
    (disk : NtfsDisk)
    (path : CStr) : List NtfsDirent :=
  match (ntfsResolve v disk path false).1 with
  | none => []
  | some r =>
      (visible (dirShows v disk r.ref).1).map ntfsDirent

section Entries

variable {v : NtfsVol} {disk : NtfsDisk}

variable {s s' : NtfsList} {want : Int} {x : NtfsEntry}

/- The callback at an entry that it does not leave out. -/
theorem nlistCb_stop
    {e e' : Bool}
    (hStop : nlistCb v disk want s x e = ((false, s'), e')) :
    hiddenEntry x = false ∧ s.index = want ∧
      ((s'.out = s.out ∧ e' = true) ∨
        s'.out = some (ntfsDirent x)) := by
  unfold nlistCb at hStop
  cases hHidden : hiddenEntry x with
  | true =>
      rw [hHidden] at hStop
      cases hStop
  | false =>
      rw [hHidden] at hStop
      simp only [Bool.false_eq_true, if_false] at hStop
      split at hStop
      · next hIndex =>
          refine ⟨rfl, by simpa using hIndex, ?_⟩
          rw [run_bind] at hStop
          generalize sizeTooLarge v disk x e = large at hStop
          rcases large with ⟨large, flag⟩
          cases large with
          | true =>
              cases hStop
              exact .inl ⟨rfl, rfl⟩
          | false =>
              cases hStop
              exact .inr rfl
      · cases hStop

theorem nlistCb_more
    {e : Bool}
    (hMore : (nlistCb v disk want s x e).1 = (true, s')) :
    (hiddenEntry x = true ∧ s' = s) ∨
      (hiddenEntry x = false ∧ s.index ≠ want ∧
        s' = { s with index := s.index + 1 }) := by
  unfold nlistCb at hMore
  cases hHidden : hiddenEntry x with
  | true =>
      rw [hHidden] at hMore
      cases hMore
      exact .inl ⟨rfl, rfl⟩
  | false =>
      rw [hHidden] at hMore
      simp only [Bool.false_eq_true, if_false] at hMore
      split at hMore
      · rw [run_bind] at hMore
        generalize sizeTooLarge v disk x e = large at hMore
        rcases large with ⟨large, flag⟩
        cases large <;> cases hMore
      · next hIndex =>
          cases hMore
          exact .inr ⟨rfl, by simpa using hIndex, rfl⟩

/-
  After `k` more entries the callback is at the one that is
  wanted. It stops there, or there are no more than `k`.
-/
theorem nlist_presented
    {entries : List NtfsEntry}
    {out : Bool × NtfsList}
    (hPresented : Presented (nlistCb v disk want) entries s
      out)
    (k : Nat)
    (hWant : s.index + k = want)
    (hNone : s.out = none) :
    (out.1 = true → out.2.out = none ∧
        (visible entries).length ≤ k) ∧
      (out.1 = false → ∃ x, (visible entries)[k]? = some x ∧
        (out.2.out = none ∨
          out.2.out = some (ntfsDirent x))) := by
  induction hPresented generalizing k with
  | all => exact ⟨fun _ => ⟨hNone, Nat.zero_le k⟩, nofun⟩
  | @more x rest s s' e out hStep hRest ih =>
      rcases nlistCb_more hStep with
        ⟨hHidden, rfl⟩ | ⟨hShown, hIndex, rfl⟩
      · rw [visible, List.filter_cons_of_neg
          (by rw [hHidden]; exact nofun)]
        exact ih k hWant hNone
      · cases k with
        | zero =>
            rw [Int.natCast_zero, Int.add_zero] at hWant
            exact absurd hWant hIndex
        | succ k =>
            have hNext : s.index + 1 + (k : Int) = want := by
              omega
            rcases ih k hNext hNone with ⟨hAll, hStop⟩
            rw [visible, List.filter_cons_of_pos
              (by rw [hShown]; rfl)]
            refine ⟨fun hTrue => ?_, hStop⟩
            rcases hAll hTrue with ⟨hOut, hLength⟩
            exact ⟨hOut, Nat.succ_le_succ hLength⟩
  | @stop x rest s s' e hStep =>
      have hCall : nlistCb v disk want s x e =
          ((false, s'), (nlistCb v disk want s x e).2) :=
        Prod.ext hStep rfl
      rcases nlistCb_stop hCall with ⟨hShown, hIndex, hOut⟩
      have hZero : k = 0 := by omega
      refine ⟨nofun, fun _ => ⟨x, ?_, ?_⟩⟩
      · rw [hZero, visible, List.filter_cons_of_pos
          (by rw [hShown]; rfl)]
        rfl
      · rcases hOut with ⟨hKept, -⟩ | hSome
        · exact .inl (hKept.trans hNone)
        · exact .inr hSome

/- A walk without an error has found the entry, or none. -/
theorem nlist_walked
    (dirRef i : Nat)
    (e : Bool) :
    let out := walkIndex v disk dirRef (nlistCb v disk i)
      ⟨0, none⟩ e
    let shown := visible (dirShows v disk dirRef).1
    out.1.1 = true → out.2 = false →
      (∃ x, shown[i]? = some x ∧
        out.1.2.out = some (ntfsDirent x)) ∨
      (shown.length ≤ i ∧ out.1.2.out = none) := by
  intro out shown hGood hClear
  have hWalked : Walked v disk dirRef (nlistCb v disk i)
      ⟨0, none⟩ out := walkIndex_shown ..
  have hEnds := walkIndex_ends v disk dirRef
    (nlistCb v disk i) ⟨0, none⟩ e hGood
  change (∃ s₀ x e₀, nlistCb v disk i s₀ x e₀ =
      ((false, out.1.2), out.2)) ∨
    Presented _ (dirShows v disk dirRef).1 _
      (true, out.1.2) at hEnds
  clear_value out
  have hZero : (0 : Int) + (i : Nat) = i := Int.zero_add _
  cases hWalked with
  | noRecord => cases hGood
  | broken => cases hGood
  | @whole s' good e hAll hWhole hFlag =>
      have hOut := (nlist_presented hAll i hZero rfl).1 rfl
      exact .inr ⟨hOut.2, hOut.1⟩
  | @stopped s' e hStop =>
      rcases (nlist_presented hStop i hZero rfl).2 rfl with
        ⟨x, hEntry, hNone | hSome⟩
      · rcases hEnds with ⟨s₀, x₀, e₀, hCall⟩ | hAll
        · rcases (nlistCb_stop hCall).2.2 with
            ⟨-, hFlag⟩ | hSome
          · cases hFlag.symm.trans hClear
          · cases hNone.symm.trans hSome
        · have hOut := (nlist_presented hAll i hZero rfl).1
            rfl
          rw [List.getElem?_eq_none hOut.2] at hEntry
          cases hEntry
      · exact .inl ⟨x, hEntry, hSome⟩

/-
  The result for an index is an error, the entry there, or
  no entry at the end, whatever the flag was before.
-/
theorem ntfsOpReaddir_entry
    (v : NtfsVol)
    (disk : NtfsDisk)
    (path : CStr)
    (i : Nat)
    (e : Bool) :
    (ntfsOpReaddir v disk path i e).1 = (-1, none) ∨
      (∃ x, (ntfsListing v disk path)[i]? = some x ∧
        (ntfsOpReaddir v disk path i e).1 = (1, some x)) ∨
      ((ntfsListing v disk path).length ≤ i ∧
        (ntfsOpReaddir v disk path i e).1 = (0, none)) := by
  have hSet : ((set false : NtfsM PUnit) e).2 = false := rfl
  unfold ntfsOpReaddir ntfsListing
  rw [run_bind, run_bind, hSet]
  generalize ntfsResolve v disk path false = found
  rcases found with ⟨r, e'⟩
  cases r with
  | none => exact .inl rfl
  | some r =>
      dsimp only
      cases r.isDir with
      | false => exact .inl rfl
      | true =>
          simp only [Bool.not_true, Bool.false_eq_true,
            if_false]
          rw [run_bind]
          have hWalked := @nlist_walked v disk r.ref i e'
          dsimp only at hWalked
          generalize walkIndex v disk r.ref (nlistCb v disk i)
            ⟨0, none⟩ e' = out at *
          rcases out with ⟨⟨good, l⟩, bad⟩
          cases good with
          | false => exact .inl rfl
          | true =>
              cases bad with
              | true => exact .inl rfl
              | false =>
                  refine .inr ?_
                  dsimp only at hWalked
                  rcases hWalked rfl rfl with
                    ⟨x, hEntry, hOut⟩ | ⟨hEnd, hOut⟩
                  · refine .inl ⟨ntfsDirent x, ?_, ?_⟩
                    · rw [List.getElem?_map, hEntry]
                      rfl
                    · change ((if l.out.isSome then 1 else 0,
                        l.out) : Int × Option NtfsDirent) = _
                      rw [hOut]
                      rfl
                  · refine .inr ⟨?_, ?_⟩
                    · rw [List.length_map]
                      exact hEnd
                    · change ((if l.out.isSome then 1 else 0,
                        l.out) : Int × Option NtfsDirent) = _
                      rw [hOut]
                      rfl

end Entries

end KvantOS.Ntfs
