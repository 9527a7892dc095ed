import KvantOS.Data.Chain
import KvantOS.Fat.Image

/-
  This file reads the links of the FAT as chains, and proves
  what the code that follows links finds on a faulty store:
  it changes nothing, and when it reports no error, what it
  has seen is a chain of the image.

  Key definitions include:
    * `fatLink`, `FatChain`
    * `Quiet`, `FlagFree`

  Key theorems include:
    * `chainNext_spec`, `chainValid_spec`
-/

--
-- Links
--

namespace KvantOS

/- The successor of a cluster, as `chain_next` judges it. -/
def fatLink
    (v : FatVol)
    (image : Buf)
    (c : Nat) : Link Nat :=
  if c < 2 || c - 2 ≥ v.totalClusters then
    .broken
  else
    let n := fatEntry v image c
    if fatIsEoc v n then .last
    else if badLink v n then .broken
    else .next n

/- The clusters of a chain. -/
abbrev FatChain
    (v : FatVol)
    (image : Buf) :
    Nat → List Nat → Prop :=
  ChainFrom (fatLink v image)

theorem FatVol.valid_iff
    {v : FatVol}
    {c : Nat} :
    v.Valid c ↔
      (c < 2 || c - 2 ≥ v.totalClusters) = false := by
  simp [FatVol.Valid]
  omega

variable {c : Nat} {image : Buf}

theorem fatLink_of_valid
    {v : FatVol}
    (hc : v.Valid c) :
    fatLink v image c =
      if fatIsEoc v (fatEntry v image c) then .last
      else if badLink v (fatEntry v image c) then .broken
      else .next (fatEntry v image c) := by
  unfold fatLink
  rw [FatVol.valid_iff.mp hc]
  rfl

theorem valid_of_link
    {v : FatVol}
    (hLink : fatLink v image c ≠ .broken) :
    v.Valid c := by
  rw [FatVol.valid_iff, ← Bool.not_eq_true]
  intro hBad
  unfold fatLink at hLink
  rw [if_pos hBad] at hLink
  exact hLink rfl

/- An accepted link leads to a data cluster. -/
theorem valid_of_next
    {v : FatVol}
    {c n : Nat}
    (hLink : fatLink v image c = .next n) :
    v.Valid n ∧ fatIsEoc v n = false := by
  have hc : v.Valid c := valid_of_link (by rw [hLink]; simp)
  rw [fatLink_of_valid hc] at hLink
  split at hLink
  · cases hLink
  · next hEoc =>
      split at hLink
      · cases hLink
      · next hBad =>
          cases hLink
          refine ⟨?_, by simpa using hEoc⟩
          simp [badLink] at hBad
          unfold FatVol.Valid
          omega

theorem fatLink_congr
    {v : FatVol}
    {image image' : Buf}
    (hSame : fatEntry v image' c = fatEntry v image c) :
    fatLink v image' c = fatLink v image c := by
  unfold fatLink
  rw [hSame]

/- The clusters of a chain are data clusters. -/
theorem FatChain.valid
    {v : FatVol}
    {a c : Nat}
    {nodes : List Nat}
    (hChain : FatChain v image a nodes)
    (hMem : c ∈ nodes) :
    v.Valid c :=
  valid_of_link (hChain.not_broken hMem)

--
-- Reading Links
--

/-
  From the first store to the second only flags were set:
  no write, and a closed store stays closed.
-/
structure Quiet (s t : Store) : Prop where
  image : t.image = s.image
  bodies : t.bodies = s.bodies
  writing : t.writing = s.writing
  closed : s.writing = true → s.isOpen = false →
    t.isOpen = false

namespace Quiet

variable {v : FatVol} {s t u : Store}

theorem fail (s : Store) : Quiet s s.fail :=
  ⟨rfl, rfl, rfl, fun _ _ => rfl⟩

end Quiet

/- The assertion puts up with changes of the flags. -/
def FlagFree (I : Store → Prop) : Prop :=
  ∀ s t : Store, Quiet s t → I s → I t

theorem FlagFree.fail
    {I : Store → Prop}
    (hFree : FlagFree I)
    {s : Store}
    (hs : I s) :
    I s.fail :=
  hFree s s.fail (.fail s) hs

section Links

variable {v : FatVol} {I : Store → Prop} {s : Store}

/- A step that reads a link: nothing else is changed. -/
def LinkRead
    (v : FatVol)
    (s : Store)
    (c n : Nat)
    (s' : Store) : Prop :=
  (s' = s ∧ s.isOpen = true ∧ v.Valid c ∧
    n = fatEntry v s.image c) ∨ s' = s.fail

theorem fatGet_spec
    (hMount : Mounted v)
    (hFree : FlagFree I)
    (hs : I s)
    (c : Nat) :
    (fatGet v c).Spec (Store.faulty v) I
      (LinkRead v s c) s := by
  unfold fatGet
  split
  · apply Store.spec_setError hs
    exact ⟨hFree.fail hs, .inr rfl⟩
  · next hValid =>
      have hc : v.Valid c := by
        rw [FatVol.valid_iff, ← Bool.not_eq_true]
        exact hValid
      have hOut := hMount.fat_not_overlap hMount.active hc.2
      apply Store.spec_read hOut hs
      · exact ⟨hFree.fail hs, .inr rfl⟩
      · intro hOpen hSec
        refine ⟨hs, .inl ⟨rfl, hOpen, hc, ?_⟩⟩
        exact sector_fatEntry hMount.toGeometry s
          v.activeFat c

/- The link is a good one, or the error flag is set. -/
def NextRead
    (v : FatVol)
    (s : Store)
    (c n : Nat)
    (s' : Store) : Prop :=
  (s' = s ∧ s.isOpen = true ∧
    (fatLink v s.image c = .next n ∨
      fatIsEoc v n = true ∧
        fatLink v s.image c = .last)) ∨
    s' = s.fail

theorem chainNext_spec
    (hMount : Mounted v)
    (hFree : FlagFree I)
    (hs : I s)
    (c : Nat) :
    (chainNext v c).Spec (Store.faulty v) I
      (NextRead v s c) s := by
  unfold chainNext
  apply (fatGet_spec hMount hFree hs c).seq
  intro n s' hRead
  have hs' : I s' := by
    rcases hRead with ⟨rfl, -⟩ | rfl
    · exact hs
    · exact hFree.fail hs
  split
  · apply Store.spec_setError hs'
    refine ⟨hFree.fail hs', .inr ?_⟩
    rcases hRead with ⟨rfl, -⟩ | rfl <;> rfl
  · next hGood =>
      refine ⟨hs', ?_⟩
      rcases hRead with ⟨rfl, hOpen, hc, rfl⟩ | hFail
      · refine .inl ⟨rfl, hOpen, ?_⟩
        rw [fatLink_of_valid hc]
        cases hEoc : fatIsEoc v (fatEntry v s'.image c) with
        | true => exact .inr ⟨rfl, rfl⟩
        | false =>
            have hBad :
                badLink v (fatEntry v s'.image c) =
                  false := by
              simpa [hEoc] using hGood
            left
            simp [hBad]
      · exact .inr hFail

/- The result of following a chain to its end. -/
def ChainRead
    (v : FatVol)
    (s : Store)
    (c : Nat)
    (ok : Bool)
    (s' : Store) : Prop :=
  (ok = true ∧ s' = s ∧ s.isOpen = true ∧
    ∃ nodes, FatChain v s.image c nodes) ∨
    (ok = false ∧ s' = s.fail)

/- The fast finger of the loop has seen a chain. -/
theorem floyd_spec
    (hMount : Mounted v)
    (hFree : FlagFree I)
    (hs : I s)
    (guard slow fast : Nat)
    (hFollows : Follows (fatLink v s.image) c fast) :
    (floyd v slow fast guard).Spec (Store.faulty v) I
      (ChainRead v s c) s := by
  have hFailed : ChainRead v s c false s.fail :=
    .inr ⟨rfl, rfl⟩
  have hFail : I s.fail := hFree.fail hs
  induction guard generalizing slow fast with
  | zero =>
      apply Store.spec_setError hs
      exact ⟨hFail, hFailed⟩
  | succ guard ih =>
      unfold floyd
      apply (chainNext_spec hMount hFree hs slow).seq
      intro slow' s₁ hSlow
      rcases hSlow with ⟨rfl, hOpen, -⟩ | rfl
      · have hError := Store.error_of_open hOpen
        apply (chainNext_spec hMount hFree hs fast).seq
        intro fast' s₂ hFast
        rcases hFast with ⟨rfl, -, hLink⟩ | rfl
        · apply Store.spec_getError hs
          rw [hError]
          simp only [Bool.false_eq_true, if_false]
          rcases hLink with hNext | ⟨hEoc, hLast⟩
          · rw [(valid_of_next hNext).2]
            simp only [Bool.false_eq_true, if_false]
            have hFollows' :
                Follows (fatLink v s₂.image) c fast' :=
              hFollows.tail hNext
            apply (chainNext_spec hMount hFree hs fast').seq
            intro fast'' s₃ hFast'
            rcases hFast' with ⟨rfl, -, hLink'⟩ | rfl
            · apply Store.spec_getError hs
              rw [hError]
              simp only [Bool.false_eq_true, if_false]
              rcases hLink' with hNext' | ⟨hEoc', hLast'⟩
              · rw [(valid_of_next hNext').2]
                simp only [Bool.false_eq_true, if_false]
                split
                · apply Store.spec_setError hs
                  exact ⟨hFail, hFailed⟩
                · exact ih slow' fast''
                    (hFollows'.tail hNext')
              · rw [if_pos hEoc']
                refine ⟨hs, .inl ⟨rfl, rfl, hOpen, ?_⟩⟩
                rcases ChainFrom.of_follows hFollows'
                  (.last hLast') with ⟨nodes, hNodes, -⟩
                exact ⟨nodes, hNodes⟩
            · apply Store.spec_getError hFail
              exact ⟨hFail, hFailed⟩
          · rw [if_pos hEoc]
            refine ⟨hs, .inl ⟨rfl, rfl, hOpen, ?_⟩⟩
            rcases ChainFrom.of_follows hFollows
              (.last hLast) with ⟨nodes, hNodes, -⟩
            exact ⟨nodes, hNodes⟩
        · apply Store.spec_getError hFail
          exact ⟨hFail, hFailed⟩
      · apply (chainNext_spec hMount hFree hFail fast).seq
        intro fast' s₂ hFast
        have hEq : s₂ = s.fail := by
          rcases hFast with ⟨rfl, -⟩ | rfl <;> rfl
        subst hEq
        apply Store.spec_getError hFail
        exact ⟨hFail, hFailed⟩

theorem chainValid_spec
    (hMount : Mounted v)
    (hFree : FlagFree I)
    (hs : I s)
    (c : Nat) :
    (chainValid v c).Spec (Store.faulty v) I
      (fun ok s' =>
        (ok = true ∧ s' = s ∧ (c = 0 ∨ s.isOpen = true ∧
          ∃ nodes, FatChain v s.image c nodes)) ∨
          (ok = false ∧ s' = s.fail ∧ c ≠ 0)) s := by
  unfold chainValid
  split
  · next hZero =>
      exact ⟨hs, .inl ⟨rfl, rfl, .inl (by simpa using hZero)⟩⟩
  · next hZero =>
      apply (floyd_spec hMount hFree hs v.totalClusters
        c c .refl).post
      intro ok s' hRead
      rcases hRead with ⟨hOk, hEq, hChain⟩ | ⟨hNot, hFail⟩
      · exact .inl ⟨hOk, hEq, .inr hChain⟩
      · exact .inr ⟨hNot, hFail, by simpa using hZero⟩

end Links

end KvantOS
