import KvantOS.Fat.Chain

/-
  This file proves that `chain_valid` decides what it is
  for: on a store where no command fails, it accepts a start
  exactly when the links from there form a chain, however
  long the chain and whatever else the FAT holds.

  Key definitions include:
    * `ClusterChain`

  Key theorems include:
    * `floyd_complete`
-/

--
-- Chains of Clusters
--

namespace KvantOS

/-
  The clusters found by following the entries of the FAT in
  use: all of them are data clusters, none comes twice, no
  entry on the way is one that `chain_next` rejects, and the
  last entry ends the chain.
-/
structure ClusterChain
    (v : FatVol)
    (image : Buf)
    (c : Nat)
    (nodes : List Nat) : Prop where
  starts : nodes.head? = some c
  inside : ∀ x ∈ nodes, v.Valid x
  once : nodes.Nodup
  linked : nodes.IsChain (fun x y =>
    fatEntry v image x = y ∧ badLink v y = false)
  ends : ∃ z, nodes.getLast? = some z ∧
    fatIsEoc v (fatEntry v image z) = true

section Chains

variable {v : FatVol} {image : Buf}

variable {c : Nat}

/- The number of a data cluster does not end a chain. -/
theorem Geometry.not_eoc
    (hGeo : Geometry v)
    (hc : v.Valid c) :
    fatIsEoc v c = false := by
  have hHigh := hc.2
  have hMany := hGeo.clusters.2
  have hWidth := hGeo.width
  unfold fatIsEoc fatEoc32 fatEoc16
  split
  · simp
    omega
  · next h16 =>
      have hFew : ¬ 65525 ≤ v.totalClusters := by
        intro hLarge
        rw [hWidth] at h16
        simp [hLarge] at h16
      simp
      omega

theorem valid_of_good
    {n : Nat}
    (hGood : badLink v n = false) :
    v.Valid n := by
  simp [badLink] at hGood
  unfold FatVol.Valid
  omega

theorem fatLink_last_iff
    (hc : v.Valid c) :
    fatLink v image c = .last ↔
      fatIsEoc v (fatEntry v image c) = true := by
  rw [fatLink_of_valid hc]
  split
  · next hEoc => simp [hEoc]
  · next hEoc =>
      split <;> simp [hEoc]

theorem fatLink_next_iff
    (hGeo : Geometry v)
    {c n : Nat}
    (hc : v.Valid c) :
    fatLink v image c = .next n ↔
      fatEntry v image c = n ∧ badLink v n = false := by
  rw [fatLink_of_valid hc]
  constructor
  · intro hNext
    split at hNext
    · cases hNext
    · split at hNext
      · cases hNext
      · next hGood =>
          cases hNext
          exact ⟨rfl, by simpa using hGood⟩
  · rintro ⟨rfl, hGood⟩
    have hEoc := hGeo.not_eoc (valid_of_good hGood)
    rw [if_neg (by simp [hEoc]), if_neg (by simp [hGood])]

variable {nodes : List Nat}

/- The chains of the FAT are those of its links. -/
theorem FatChain.toCluster
    (hGeo : Geometry v)
    (hChain : FatChain v image c nodes) :
    ClusterChain v image c nodes where
  starts := hChain.head_eq
  inside _ hMem := hChain.valid hMem
  once := hChain.nodup
  linked := by
    induction hChain with
    | last hLast => simp
    | @next a b nodes hNext hRest ih =>
        have ha : v.Valid a :=
          valid_of_link (by rw [hNext]; simp)
        have hLink := (fatLink_next_iff hGeo ha).mp hNext
        cases hRest with
        | last hLast =>
            exact List.isChain_pair.mpr hLink
        | next hNext' hRest' =>
            exact List.isChain_cons_cons.mpr ⟨hLink, ih⟩
  ends := by
    refine ⟨nodes.getLast hChain.ne_nil,
      List.getLast?_eq_getLast_of_ne_nil hChain.ne_nil, ?_⟩
    have hMem := List.getLast_mem hChain.ne_nil
    exact (fatLink_last_iff (hChain.valid hMem)).mp
      hChain.link_getLast

theorem ClusterChain.toFat
    (hGeo : Geometry v)
    (hChain : ClusterChain v image c nodes) :
    FatChain v image c nodes := by
  rcases hChain with ⟨hStart, hInside, -, hLinked, hEnds⟩
  induction nodes generalizing c with
  | nil => cases hStart
  | cons a nodes ih =>
      cases hStart
      have ha : v.Valid a := hInside a (by simp)
      rcases hEnds with ⟨z, hz, hEoc⟩
      cases nodes with
      | nil =>
          cases hz
          exact .last ((fatLink_last_iff ha).mpr hEoc)
      | cons b nodes =>
          rcases List.isChain_cons_cons.mp hLinked with
            ⟨hLink, hRest⟩
          apply ChainFrom.next
          · exact (fatLink_next_iff hGeo ha).mpr hLink
          · rw [List.getLast?_cons_cons] at hz
            exact ih rfl
              (fun x hx =>
                hInside x (List.mem_cons_of_mem _ hx))
              hRest ⟨z, hz, hEoc⟩

/- A chain is no longer than the volume has clusters. -/
theorem FatChain.length_le
    (hChain : FatChain v image c nodes) :
    nodes.length ≤ v.totalClusters := by
  have hSub : nodes ⊆
      List.range' 2 v.totalClusters := by
    intro x hx
    have hValid := hChain.valid hx
    have hLow := hValid.1
    have hHigh := hValid.2
    rw [List.mem_range'_1]
    omega
  have hPerm := hChain.nodup.subperm hSub
  simpa using hPerm.length_le

end Chains

--
-- Commands That Do Not Fail
--

section Commands

variable {v : FatVol} {s : Store} {α : Type}

theorem Store.read_run
    {sec : Nat}
    {next : Option Buf → FatProg α}
    (hOpen : s.isOpen = true)
    (hSec : sec < v.totalSectors) :
    (fatReadSectors sec >>= next).run (Store.ideal v) s =
      (next (some (s.sector v sec))).run (Store.ideal v)
        (s.mark v sec) := by
  rw [Prog.run_bind]
  simp [fatReadSectors, Store.ideal, hOpen, hSec]

theorem Store.write_run
    {sec : Nat}
    {data : Buf}
    {next : Bool → FatProg α}
    (hOpen : s.isOpen = true)
    (hSec : sec < v.totalSectors) :
    (fatWriteSectors sec data >>= next).run
        (Store.ideal v) s =
      (next true).run (Store.ideal v)
        (s.put v sec data) := by
  rw [Prog.run_bind]
  simp [fatWriteSectors, Store.ideal, hOpen, hSec]

theorem Store.getError_run
    {next : Bool → FatProg α} :
    (getError >>= next).run (Store.ideal v) s =
      (next s.error).run (Store.ideal v) s :=
  rfl

/- The sectors of the FAT copies are on the volume. -/
theorem Geometry.fat_sector_total
    (hGeo : Geometry v)
    {f c : Nat}
    (hf : f < v.numFats)
    (hc : c < v.totalClusters + 2) :
    v.fatStart + f * v.fatSize +
      c * v.entryBytes / v.bytesPerSector <
        v.totalSectors := by
  have hLt := fat_sector_lt hGeo hc
  have hFats := hGeo.fats_lt
  have hTotal := hGeo.total
  have hCopy := Nat.mul_le_mul_right v.fatSize hf
  rw [Nat.succ_mul] at hCopy
  omega

variable {c : Nat}

/- A good start is looked up without an error. -/
theorem fatGet_run
    (hMount : Mounted v)
    (hOpen : s.isOpen = true)
    (hc : v.Valid c) :
    (fatGet v c).run (Store.ideal v) s =
      (fatEntry v s.image c, s) := by
  have hGeo := hMount.toGeometry
  have hOut := hMount.fat_not_overlap hMount.active hc.2
  have hSec := hGeo.fat_sector_total hGeo.active hc.2
  unfold fatGet
  rw [FatVol.valid_iff.mp hc]
  simp only [Bool.false_eq_true, if_false]
  rw [Store.read_run hOpen hSec, Store.mark_of_not hOut]
  simp only
  rw [sector_fatEntry hGeo]
  rfl

theorem chainNext_next
    (hMount : Mounted v)
    (hOpen : s.isOpen = true)
    {c n : Nat}
    (hNext : fatLink v s.image c = .next n) :
    (chainNext v c).run (Store.ideal v) s = (n, s) := by
  have hc : v.Valid c := valid_of_link (by rw [hNext]; simp)
  rcases (fatLink_next_iff hMount.toGeometry hc).mp hNext
    with ⟨hEntry, hGood⟩
  unfold chainNext
  rw [Prog.run_bind, fatGet_run hMount hOpen hc, hEntry]
  simp only [hGood, Bool.and_false, Bool.false_eq_true,
    if_false]
  rfl

theorem chainNext_last
    (hMount : Mounted v)
    (hOpen : s.isOpen = true)
    (hLast : fatLink v s.image c = .last) :
    (chainNext v c).run (Store.ideal v) s =
      (fatEntry v s.image c, s) := by
  have hc : v.Valid c := valid_of_link (by rw [hLast]; simp)
  have hEoc := (fatLink_last_iff hc).mp hLast
  unfold chainNext
  rw [Prog.run_bind, fatGet_run hMount hOpen hc]
  simp only [hEoc, Bool.not_true, Bool.false_and,
    Bool.false_eq_true, if_false]
  rfl

/- On a chain `chain_next` reports no error. -/
theorem chainNext_quiet
    (hMount : Mounted v)
    (hOpen : s.isOpen = true)
    (hLink : fatLink v s.image c ≠ .broken) :
    ∃ n, (chainNext v c).run (Store.ideal v) s = (n, s) ∧
      (fatLink v s.image c = .next n ∨
        fatLink v s.image c = .last) := by
  cases hCase : fatLink v s.image c with
  | last =>
      exact ⟨_, chainNext_last hMount hOpen hCase, .inr rfl⟩
  | broken => exact absurd hCase hLink
  | next n =>
      exact ⟨n, chainNext_next hMount hOpen hCase, .inl rfl⟩

end Commands

--
-- Two Fingers
--

section Validation

variable {v : FatVol} {s : Store}

/-
  The fingers never meet on a chain: what is left of it
  behind the fast one is shorter than behind the slow one.
-/
theorem floyd_complete
    (hMount : Mounted v)
    (hOpen : s.isOpen = true)
    {slow fast guard : Nat}
    {behind ahead : List Nat}
    (hSlow : FatChain v s.image slow behind)
    (hFast : FatChain v s.image fast ahead)
    (hOrder : ahead.length ≤ behind.length)
    (hGuard : ahead.length ≤ 2 * guard) :
    (floyd v slow fast guard).run (Store.ideal v) s =
      (true, s) := by
  induction guard generalizing slow fast behind ahead with
  | zero =>
      have hPos := List.length_pos_iff.mpr hFast.ne_nil
      omega
  | succ guard ih =>
      have hError := Store.error_of_open hOpen
      rcases chainNext_quiet hMount hOpen
          (hSlow.not_broken hSlow.head_mem) with
        ⟨slow', hSlowRun, hSlowLink⟩
      unfold floyd
      rw [Prog.run_bind, hSlowRun]
      simp only
      cases hFast with
      | last hLast =>
          have hc : v.Valid fast :=
            valid_of_link (by rw [hLast]; simp)
          have hEoc := (fatLink_last_iff hc).mp hLast
          rw [Prog.run_bind, chainNext_last hMount hOpen hLast,
            Store.getError_run, hError]
          simp only [Bool.false_eq_true, if_false, hEoc,
            if_true]
          rfl
      | @next _ mid ahead hNext hRest =>
          have hMid := valid_of_next hNext
          rw [Prog.run_bind, chainNext_next hMount hOpen hNext,
            Store.getError_run, hError]
          simp only [Bool.false_eq_true, if_false, hMid.2]
          cases hRest with
          | last hLast =>
              have hEoc := (fatLink_last_iff hMid.1).mp hLast
              rw [Prog.run_bind,
                chainNext_last hMount hOpen hLast,
                Store.getError_run, hError]
              simp only [Bool.false_eq_true, if_false, hEoc,
                if_true]
              rfl
          | @next _ fast' ahead hNext' hRest' =>
              have hEoc := (valid_of_next hNext').2
              rw [Prog.run_bind,
                chainNext_next hMount hOpen hNext',
                Store.getError_run, hError]
              simp only [Bool.false_eq_true, if_false, hEoc]
              simp only [List.length_cons] at hOrder hGuard
              cases hSlow with
              | last hLast =>
                  simp only [List.length_singleton] at hOrder
                  omega
              | @next _ slow'' behind hStep hBehind =>
                  have hSame : slow' = slow'' := by
                    rw [hStep] at hSlowLink
                    rcases hSlowLink with hEq | hEq <;>
                      cases hEq
                    rfl
                  subst hSame
                  simp only [List.length_cons] at hOrder
                  have hApart : (slow' == fast') = false := by
                    rw [beq_eq_false_iff_ne]
                    rintro rfl
                    have hEq := hBehind.unique hRest'
                    have hLengths := congrArg List.length hEq
                    omega
                  rw [hApart]
                  simp only [Bool.false_eq_true, if_false]
                  exact ih hBehind hRest' (by omega)
                    (by omega)

/- Without a chain the error flag is set. -/
theorem chainValid_sound
    (hMount : Mounted v)
    (s : Store)
    (c : Nat) :
    ((chainValid v c).run (Store.ideal v) s = (true, s) ∧
        (c = 0 ∨ ∃ nodes, FatChain v s.image c nodes)) ∨
      (chainValid v c).run (Store.ideal v) s =
        (false, s.fail) ∧ c ≠ 0 := by
  have hFree : FlagFree (fun _ : Store => True) :=
    fun _ _ _ _ => trivial
  have hRun := Prog.Spec.run (Store.faulty_ideal v)
    (chainValid_spec hMount hFree (s := s) trivial c)
  rcases hRun with ⟨hOk, hEq, hChain⟩ | ⟨hNot, hFail, hc⟩
  · left
    refine ⟨Prod.ext hOk hEq, ?_⟩
    rcases hChain with hZero | ⟨-, hNodes⟩
    · exact .inl hZero
    · exact .inr hNodes
  · exact .inr ⟨Prod.ext hNot hFail, hc⟩

theorem chainValid_complete
    (hMount : Mounted v)
    (hOpen : s.isOpen = true)
    {c : Nat}
    {nodes : List Nat}
    (hChain : FatChain v s.image c nodes) :
    (chainValid v c).run (Store.ideal v) s =
      (true, s) := by
  have hc : (c == 0) = false := by
    rw [beq_eq_false_iff_ne]
    rintro rfl
    have hLow := (hChain.valid hChain.head_mem).1
    omega
  unfold chainValid
  rw [hc]
  simp only [Bool.false_eq_true, if_false]
  apply floyd_complete hMount hOpen hChain hChain
    (Nat.le_refl _)
  have hLength := hChain.length_le
  omega

end Validation

end KvantOS
