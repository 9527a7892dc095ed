import KvantOS.Ahci.Leases

/-
  This file specifies the calls of the SATA driver, and
  proves that any sequence of them keeps the invariant of
  its leases.

  Key definitions include:
    * `Granted`, `bootState`, `Reaches`

  Key theorems include:
    * `ahciFatAuthorize_spec`, `ahciRescan_spec`
    * `AhciCall.spec`, `Reaches.inv`
-/

namespace KvantOS.Ahci

variable {s : AhciState} {log : List (Lease.Entry Nat)}

/- What changes nothing that leases depend on. -/
theorem Ended.spec_pure
    {α : Type}
    {value : α}
    {s₀ : AhciState}
    (hInv : Inv s log)
    (hKeeps : Keeps s₀ s) :
    AhciSpec (pure value)
      (fun _ s' log' => Ended s₀ s' log') s log :=
  ProgM.spec_pure hInv.safe ⟨hInv, hKeeps⟩

section Attaching

theorem ahciIdentify_spec
    (hInv : Inv s log)
    (p : Nat) :
    AhciSpec (ahciIdentify p)
      (fun _ s' log' => Ended s s' log') s log := by
  unfold ahciIdentify
  apply (ahciCommand_spec hInv p 0xEC 0 1 .zero).seq
  rintro ⟨result, data⟩ s₁ log₁ ⟨hInv₁, hKeeps₁⟩
  apply ProgM.spec_ite
  · exact fun _ => Ended.spec_pure hInv₁ hKeeps₁
  intro _
  cases identified data with
  | none =>
      apply (ahciFail_spec hInv₁ hInv₁.safe
        (fun _ _ => rfl)).consequence (fun _ h => h)
      rintro code s₂ log₂ - ⟨-, hInv₂, hKeeps₂⟩
      exact ⟨hInv₂, hKeeps₁.trans hKeeps₂⟩
  | some n =>
      apply spec_update
      have hSet : Keeps s₁ (s₁.setPort p fun d =>
          { d with
            sectors := n
            flushExt := idWord data 83 &&& (1 <<< 13) ≠ 0
            generation := nextEpoch s₁.epoch }) :=
        keeps_setPort _ (fun h => ⟨h, rfl, rfl⟩)
      have hKeeps : Keeps s₁
          { s₁.setPort p fun d =>
            { d with
              sectors := n
              flushExt := idWord data 83 &&& (1 <<< 13) ≠ 0
              generation := nextEpoch s₁.epoch } with
            epoch := nextEpoch s₁.epoch } :=
        ⟨hSet.leases, rfl, rfl, rfl⟩
      exact Ended.spec_pure (hInv₁.keeps hKeeps)
        (hKeeps₁.trans hKeeps)

/- The next port is in use. -/
theorem Inv.addPort
    (hInv : Inv s log) :
    Inv { s with portCount := s.portCount + 1 } log where
  safe := hInv.safe
  tracks := hInv.tracks
  leased := hInv.leased
  distinct := hInv.distinct
  attached i hi := Nat.lt_succ_of_lt (hInv.attached i hi)

/- A port that no drive has becomes the next drive. -/
theorem Inv.addDrive
    {p : Nat}
    (hInv : Inv s log)
    (hPort : p < s.portCount)
    (hFresh : ∀ i, i < s.driveCount → s.drivePort i ≠ p) :
    Inv { s with
      drivePort := Function.update s.drivePort s.driveCount p
      driveCount := s.driveCount + 1 } log := by
  have hOld : ∀ i, i < s.driveCount →
      Function.update s.drivePort s.driveCount p i =
        s.drivePort i :=
    fun i hi => Function.update_of_ne (Nat.ne_of_lt hi) ..
  have hNew : Function.update s.drivePort s.driveCount p
      s.driveCount = p :=
    Function.update_self ..
  refine
    { safe := hInv.safe
      tracks := hInv.tracks
      leased := ?_
      attached := ?_
      distinct := ?_ }
  · intro k hAllowed
    rcases hInv.leased k hAllowed with ⟨i, hi, hEq⟩
    exact ⟨i, Nat.lt_succ_of_lt hi, (hOld i hi).trans hEq⟩
  · intro i hi
    change Function.update s.drivePort s.driveCount p i < _
    rcases Nat.lt_succ_iff_lt_or_eq.mp hi with h | rfl
    · rw [hOld i h]
      exact hInv.attached i h
    · rw [hNew]
      exact hPort
  · intro i j hi hj hEq
    change Function.update s.drivePort s.driveCount p i =
      Function.update s.drivePort s.driveCount p j at hEq
    rcases Nat.lt_succ_iff_lt_or_eq.mp hi with h | rfl
    · rcases Nat.lt_succ_iff_lt_or_eq.mp hj with h' | rfl
      · rw [hOld i h, hOld j h'] at hEq
        exact hInv.distinct i j h h' hEq
      · rw [hOld i h, hNew] at hEq
        exact absurd hEq (hFresh i h)
    · rcases Nat.lt_succ_iff_lt_or_eq.mp hj with h' | rfl
      · rw [hNew, hOld j h'] at hEq
        exact absurd hEq.symm (hFresh j h')
      · rfl

theorem ahciAttach_spec
    (found : List Bool)
    (hInv : Inv s log) :
    AhciSpec (ahciAttach found)
      (fun _ s' log' => Inv s' log') s log := by
  induction found generalizing s log with
  | nil => exact ⟨hInv.safe, hInv⟩
  | cons ready rest ih =>
      rw [ahciAttach]
      apply spec_state
      apply ProgM.spec_ite
      · exact fun _ => ⟨hInv.safe, hInv⟩
      intro _
      apply spec_update
      have hAdded := hInv.addPort
      apply ProgM.spec_ite
      · intro _
        apply spec_update
        exact ih (hAdded.keeps
          (keeps_setPort _ (fun h => ⟨h, rfl, rfl⟩)))
      intro _
      apply (ahciIdentify_spec hAdded s.portCount).seq
      rintro code s' log' ⟨hInv', hKeeps⟩
      apply ProgM.spec_ite
      · exact fun _ => ih hInv'
      intro _
      apply spec_update
      apply ih
      apply hInv'.addDrive
      · rw [hKeeps.ports]
        exact Nat.lt_succ_self _
      · intro i hi
        rw [hKeeps.drives] at hi
        rw [hKeeps.drivePort]
        exact Nat.ne_of_lt (hInv.attached i hi)

theorem ahciInit_spec
    (hInv : Inv s log) :
    AhciSpec ahciInit (fun _ s' log' => Inv s' log')
      s log := by
  unfold ahciInit
  apply spec_state
  apply ProgM.spec_ite
  · exact fun _ => ⟨hInv.safe, hInv⟩
  intro _
  apply spec_update
  apply spec_find hInv.safe
  intro found
  exact ahciAttach_spec found
    (hInv.keeps ⟨fun _ _ h => h, rfl, rfl, rfl⟩)

end Attaching

section Generations

/-
  A generation that is not 0 is that of the drive, and was
  read without a change of state.
-/
theorem ahciGeneration_spec
    (hInv : Inv s log)
    (i : Int) :
    AhciSpec (ahciGeneration i)
      (fun generation s' log' => Ended s s' log' ∧
        (generation ≠ 0 → ∃ p, ahciDrive s i = some p ∧
          s' = s ∧ log' = log ∧
          generation = (s.ports p).generation)) s log := by
  have hZero : ∀ {s' : AhciState}
      {log' : List (Lease.Entry Nat)},
      Ended s s' log' →
      AhciSpec (return 0)
        (fun (generation : UInt32) s' log' =>
          Ended s s' log' ∧
          (generation ≠ 0 → ∃ p, ahciDrive s i = some p ∧
            s' = s ∧ log' = log ∧
            generation = (s.ports p).generation))
        s' log' :=
    fun hEnded => ⟨hEnded.inv.safe, hEnded,
      fun h => absurd rfl h⟩
  unfold ahciGeneration
  apply spec_state
  cases hDrive : ahciDrive s i with
  | none =>
      rw [hDrive] at hZero
      exact hZero ⟨hInv, .refl s⟩
  | some p =>
      rw [hDrive] at hZero
      apply ProgM.spec_ite
      · exact fun _ => hZero ⟨hInv, .refl s⟩
      intro _
      apply (linked_spec hInv.safe p).seq
      rintro ok _ _ ⟨hState, hLog⟩
      rw [hState, hLog]
      apply ProgM.spec_ite
      · intro _
        apply (ahciFail_spec hInv hInv.safe
          (fun _ _ => rfl)).seq
        rintro code s' log' ⟨-, hEnded⟩
        exact hZero hEnded
      · intro _
        apply spec_state
        exact ⟨hInv.safe, ⟨hInv, .refl s⟩,
          fun _ => ⟨p, rfl, rfl, rfl, rfl⟩⟩

theorem ahciSectors_spec
    (hInv : Inv s log)
    (i : Int) :
    AhciSpec (ahciSectors i)
      (fun _ s' log' => Ended s s' log') s log := by
  unfold ahciSectors
  apply spec_state
  cases ahciDrive s i with
  | none => exact Ended.spec_pure hInv (.refl s)
  | some p =>
      apply ProgM.spec_ite
      · exact fun _ => Ended.spec_pure hInv (.refl s)
      · exact fun _ => Ended.spec_pure hInv (.refl s)

end Generations

--
-- Leases
--

section Leases

theorem ahciDrive_eq_some
    {i : Int}
    {p : Nat} :
    ahciDrive s i = some p ↔
      0 ≤ i ∧ i < s.driveCount ∧ s.drivePort i.toNat = p := by
  unfold ahciDrive
  split
  · next h => simp [h.1, h.2]
  · next h =>
      constructor
      · intro hEq
        cases hEq
      · rintro ⟨hLow, hHigh, -⟩
        exact absurd ⟨hLow, hHigh⟩ h

/- A revoked drive has no lease. -/
theorem ahciFatRevoke_spec
    (hInv : Inv s log)
    (i : Int) :
    AhciSpec (ahciFatRevoke i)
      (fun _ s' log' => Ended s s' log' ∧
        ∀ p, ahciDrive s i = some p →
          (s'.ports p).writeAllowed = false) s log := by
  unfold ahciFatRevoke
  apply spec_state
  cases hDrive : ahciDrive s i with
  | none =>
      exact ⟨hInv.safe, ⟨hInv, .refl s⟩,
        fun p h => by cases h⟩
  | some p =>
      have hKeeps : Keeps s (s.setPort p fun d =>
          { d with writeAllowed := false }) :=
        keeps_setPort _ (fun h => by cases h)
      have hForbidden : ((s.setPort p fun d =>
          { d with writeAllowed := false }).ports
            p).writeAllowed = false := by
        unfold AhciState.setPort
        simp only [Function.update_self]
      apply spec_update
      refine And.intro hInv.safe ?_
      rintro reply log' rfl
      have hDropped := (hInv.keeps hKeeps).drop hForbidden
      refine ⟨hDropped.safe, ⟨hDropped, hKeeps⟩, ?_⟩
      rintro k h
      injection h with h
      rw [← h]
      exact hForbidden

/- What a grant has checked, and what it has recorded. -/
structure Granted
    (i : Int)
    (start count generation : UInt32)
    (s' : AhciState)
    (log' : List (Lease.Entry Nat))
    (p : Nat) : Prop where
  drive : ahciDrive s' i = some p
  nonzero : generation ≠ 0
  current : generation = (s'.ports p).generation
  nonempty : count ≠ 0
  inside : start.toNat + count.toNat ≤
    (s'.ports p).sectors.toNat
  lease : Lease.holder log' p =
    some ⟨start.toNat, count.toNat⟩

/- A granted lease is the one in memory. -/
theorem Inv.grant
    {i : Int}
    {p : Nat}
    (hInv : Inv s log)
    (hDrive : ahciDrive s i = some p)
    (start count : UInt32) :
    Inv
      (s.setPort p fun d =>
        { d with
          writeStart := start
          writeCount := count
          writeAllowed := true })
      (.grant p ⟨start.toNat, count.toNat⟩ :: log) where
  safe := hInv.safe
  attached := hInv.attached
  distinct := hInv.distinct
  tracks := by
    apply hInv.tracks.grant
    · intro e hLease
      have hSome := leaseOf_eq_some.mp hLease
      unfold AhciState.setPort at hSome
      simp only [Function.update_self] at hSome
      exact hSome.2
    · intro k e hNe hLease
      rw [leaseOf_eq_some] at hLease ⊢
      unfold AhciState.setPort at hLease
      simp only [Function.update_of_ne hNe] at hLease
      exact hLease
  leased := by
    intro k hAllowed
    unfold AhciState.setPort at hAllowed
    by_cases hEq : k = p
    · rcases ahciDrive_eq_some.mp hDrive with
        ⟨hLow, hHigh, hPort⟩
      have hIndex : i.toNat < s.driveCount := by omega
      rw [hEq]
      exact ⟨i.toNat, hIndex, hPort⟩
    · simp only [Function.update_of_ne hEq] at hAllowed
      exact hInv.leased k hAllowed

theorem ahciFatAuthorize_spec
    (hInv : Inv s log)
    (i : Int)
    (start count generation : UInt32) :
    AhciSpec (ahciFatAuthorize i start count generation)
      (fun code s' log' => Inv s' log' ∧
        (code = 0 → ∃ p,
          Granted i start count generation s' log' p))
      s log := by
  have hRefused : ∀ {s' : AhciState}
      {log' : List (Lease.Entry Nat)},
      Inv s' log' →
      AhciSpec (return -1)
        (fun (code : Int) s' log' => Inv s' log' ∧
          (code = 0 → ∃ p,
            Granted i start count generation s' log' p))
        s' log' :=
    fun hInv' => ⟨hInv'.safe, hInv', fun h => by cases h⟩
  unfold ahciFatAuthorize
  apply (ahciFatRevoke_spec hInv i).seq
  rintro _ s₁ log₁ ⟨⟨hInv₁, -⟩, -⟩
  apply spec_state
  cases hDrive : ahciDrive s₁ i with
  | none => exact hRefused hInv₁
  | some p =>
      apply ProgM.spec_ite
      · exact fun _ => hRefused hInv₁
      intro hReady
      rw [not_or, not_or] at hReady
      rcases hReady with ⟨-, -, hNonzero⟩
      apply (ahciGeneration_spec hInv₁ i).seq
      rintro current s₂ log₂ ⟨⟨hInv₂, -⟩, hCurrent⟩
      apply ProgM.spec_ite
      · exact fun _ => hRefused hInv₂
      intro hSame
      rw [not_not] at hSame
      rcases hCurrent (hSame ▸ hNonzero) with
        ⟨q, hDrive', hState, hLog, hGeneration⟩
      rw [hDrive] at hDrive'
      injection hDrive' with hPort
      subst hPort
      rw [hState, hLog]
      apply spec_state
      apply ProgM.spec_ite
      · exact fun _ => hRefused hInv₁
      intro hExtent
      simp only [not_or, UInt32.not_le, UInt32.not_lt]
        at hExtent
      rcases hExtent with ⟨hCount, hBelow, hTop⟩
      apply spec_update
      apply spec_note hInv₁.safe
      have hGranted := hInv₁.grant hDrive start count
      refine ⟨hGranted.safe, hGranted, fun _ => ⟨p, ?_⟩⟩
      rw [UInt32.le_iff_toNat_le,
        UInt32.toNat_sub_of_le _ _
          (UInt32.le_of_lt hBelow)] at hTop
      rw [UInt32.lt_iff_toNat_lt] at hBelow
      refine
        { drive := hDrive
          nonzero := hNonzero
          current := ?_
          nonempty := hCount
          inside := ?_
          lease := if_pos rfl }
      · unfold AhciState.setPort
        simp only [Function.update_self]
        exact hSame.trans hGeneration
      · unfold AhciState.setPort
        simp only [Function.update_self]
        omega

/-
  The rounds of a rescan: no drive before `i` has a lease,
  and in the end no drive has.
-/
theorem ahciRescanFrom_spec
    (left i : Nat)
    (hInv : Inv s log)
    (hBound : s.driveCount ≤ i + left)
    (hDone : ∀ j, j < i → j < s.driveCount →
      (s.ports (s.drivePort j)).writeAllowed = false) :
    AhciSpec (ahciRescanFrom left i)
      (fun _ s' log' => Inv s' log' ∧
        ∀ p, (s'.ports p).writeAllowed = false) s log := by
  induction left generalizing s log i with
  | zero =>
      refine ⟨hInv.safe, hInv, ?_⟩
      intro p
      by_contra hAllowed
      rw [Bool.not_eq_false] at hAllowed
      rcases hInv.leased p hAllowed with ⟨j, hj, rfl⟩
      rw [hDone j (by omega) hj] at hAllowed
      cases hAllowed
  | succ left ih =>
      rw [ahciRescanFrom]
      apply (ahciFatRevoke_spec hInv i).seq
      rintro _ s₁ log₁ ⟨⟨hInv₁, hKeeps₁⟩, hRevoked⟩
      apply (ahciGeneration_spec hInv₁ i).seq
      rintro generation s₂ log₂ ⟨⟨hInv₂, hKeeps₂⟩, -⟩
      have hKeeps := hKeeps₁.trans hKeeps₂
      have hDone₂ : ∀ j, j < i + 1 → j < s.driveCount →
          (s₂.ports (s.drivePort j)).writeAllowed =
            false := by
        intro j hj hDrive
        by_contra hAllowed
        rw [Bool.not_eq_false] at hAllowed
        rcases Nat.lt_succ_iff_lt_or_eq.mp hj with h | rfl
        · have hOld := hKeeps.allowed hAllowed
          rw [hDone j h hDrive] at hOld
          cases hOld
        · have hOld := hKeeps₂.allowed hAllowed
          have hFound : ahciDrive s j =
              some (s.drivePort j) :=
            ahciDrive_eq_some.mpr
              ⟨by omega, by omega, by rw [Int.toNat_natCast]⟩
          rw [hRevoked _ hFound] at hOld
          cases hOld
      apply ProgM.spec_ite
      · intro _
        apply spec_update
        have hSet : Keeps s₂ (s₂.setPort (s₂.drivePort i)
            fun d =>
              { d with generation := nextEpoch s₂.epoch }) :=
          keeps_setPort _ (fun h => ⟨h, rfl, rfl⟩)
        have hKeeps₃ : Keeps s₂
            { s₂.setPort (s₂.drivePort i) fun d =>
              { d with generation := nextEpoch s₂.epoch } with
              epoch := nextEpoch s₂.epoch } :=
          ⟨hSet.leases, rfl, rfl, rfl⟩
        apply ih (i + 1) (hInv₂.keeps hKeeps₃)
        · rw [hKeeps₃.drives, hKeeps.drives]
          omega
        · intro j hj hDrive
          by_contra hAllowed
          rw [Bool.not_eq_false] at hAllowed
          rw [hKeeps₃.drives, hKeeps.drives] at hDrive
          have hOld := hKeeps₃.allowed hAllowed
          rw [hKeeps₃.drivePort, hKeeps.drivePort,
            hDone₂ j hj hDrive] at hOld
          cases hOld
      · intro _
        apply ih (i + 1) hInv₂
        · rw [hKeeps.drives]
          omega
        · rw [hKeeps.drives, hKeeps.drivePort]
          exact hDone₂

/- A rescan leaves no lease. -/
theorem ahciRescan_spec
    (hInv : Inv s log) :
    AhciSpec ahciRescan (fun _ s' log' => Inv s' log')
      s log := by
  unfold ahciRescan
  apply spec_state
  apply (ahciRescanFrom_spec s.driveCount 0 hInv (by omega)
    (fun j h _ => absurd h (Nat.not_lt_zero j))).seq
  rintro _ s' log' ⟨hInv', hNone⟩
  refine And.intro hInv'.safe ?_
  rintro reply log'' rfl
  refine ⟨hInv'.safe, ?_⟩
  exact
    { safe := hInv'.safe
      leased := hInv'.leased
      attached := hInv'.attached
      distinct := hInv'.distinct
      tracks := Lease.tracks_dropAll fun p =>
        if_neg (by rw [hNone p]; exact Bool.false_ne_true) }

end Leases

--
-- Transfers
--

section Transfers

theorem keeps_setBusy
    (s : AhciState)
    (p : Nat)
    (busy : Bool) :
    Keeps s (s.setPort p fun d => { d with busy := busy }) :=
  keeps_setPort _ (fun h => ⟨h, rfl, rfl⟩)

theorem lock_spec
    (hInv : Inv s log)
    (p : Nat) :
    AhciSpec (lock p) (fun _ s' log' => Ended s s' log')
      s log := by
  unfold lock
  apply spec_state
  apply spec_update
  exact Ended.spec_pure (hInv.keeps (keeps_setBusy s p true))
    (keeps_setBusy s p true)

theorem ahciTransferFrom_spec
    (p : Nat)
    (write : Bool)
    (left : Nat)
    (lba : UInt32)
    (count off : Nat)
    (buf : Buf)
    (hInv : Inv s log) :
    AhciSpec (ahciTransferFrom p write left lba count off buf)
      (fun _ s' log' => Ended s s' log') s log := by
  induction left generalizing s log lba count off buf with
  | zero => exact Ended.spec_pure hInv (.refl s)
  | succ left ih =>
      rw [ahciTransferFrom]
      apply ProgM.spec_ite
      · exact fun _ => Ended.spec_pure hInv (.refl s)
      intro _
      apply (ahciCommand_spec hInv p _ lba _ _).seq
      rintro ⟨result, data⟩ s₁ log₁ ⟨hInv₁, hKeeps₁⟩
      apply ProgM.spec_ite
      · exact fun _ => Ended.spec_pure hInv₁ hKeeps₁
      intro _
      apply (ih _ _ _ _ hInv₁).consequence (fun _ h => h)
      rintro out s₂ log₂ - ⟨hInv₂, hKeeps₂⟩
      exact ⟨hInv₂, hKeeps₁.trans hKeeps₂⟩

theorem ahciTransfer_spec
    (hInv : Inv s log)
    (i : Int)
    (lba : UInt32)
    (count : UInt8)
    (buf : Option Buf)
    (write : Bool) :
    AhciSpec (ahciTransfer i lba count buf write)
      (fun _ s' log' => Inv s' log') s log := by
  unfold ahciTransfer
  apply spec_state
  cases ahciDrive s i with
  | none => exact ⟨hInv.safe, hInv⟩
  | some p =>
      apply (ahciGeneration_spec hInv i).seq
      rintro generation s₁ log₁ ⟨⟨hInv₁, -⟩, -⟩
      apply ProgM.spec_ite
      · exact fun _ => ⟨hInv₁.safe, hInv₁⟩
      intro _
      apply spec_state
      apply ProgM.spec_ite
      · exact fun _ => ⟨hInv₁.safe, hInv₁⟩
      intro _
      apply ProgM.spec_ite
      · exact fun _ => ⟨hInv₁.safe, hInv₁⟩
      intro _
      apply (lock_spec hInv₁ p).seq
      rintro taken s₂ log₂ ⟨hInv₂, -⟩
      apply ProgM.spec_ite
      · exact fun _ => ⟨hInv₂.safe, hInv₂⟩
      intro _
      apply (ahciTransferFrom_spec p write _ lba _ 0 _
        hInv₂).seq
      rintro result s₃ log₃ ⟨hInv₃, -⟩
      apply spec_update
      have hInv₄ := hInv₃.keeps (keeps_setBusy s₃ p false)
      exact ⟨hInv₄.safe, hInv₄⟩

theorem ahciSync_spec
    (hInv : Inv s log)
    (i : Int) :
    AhciSpec (ahciSync i) (fun _ s' log' => Inv s' log')
      s log := by
  unfold ahciSync
  apply spec_state
  cases ahciDrive s i with
  | none => exact ⟨hInv.safe, hInv⟩
  | some p =>
      apply (ahciGeneration_spec hInv i).seq
      rintro generation s₁ log₁ ⟨⟨hInv₁, -⟩, -⟩
      apply ProgM.spec_ite
      · exact fun _ => ⟨hInv₁.safe, hInv₁⟩
      intro _
      apply spec_state
      apply ProgM.spec_ite
      · exact fun _ => ⟨hInv₁.safe, hInv₁⟩
      intro _
      apply (lock_spec hInv₁ p).seq
      rintro taken s₂ log₂ ⟨hInv₂, -⟩
      apply ProgM.spec_ite
      · exact fun _ => ⟨hInv₂.safe, hInv₂⟩
      intro _
      apply (ahciCommand_spec hInv₂ p 0xEA 0 0 .zero).seq
      rintro ⟨result, data⟩ s₃ log₃ ⟨hInv₃, -⟩
      apply spec_update
      have hInv₄ := hInv₃.keeps (keeps_setBusy s₃ p false)
      exact ⟨hInv₄.safe, hInv₄⟩

end Transfers

--
-- Runs
--

/- Every call keeps the invariant. -/
theorem AhciCall.spec
    (hInv : Inv s log)
    (c : AhciCall) :
    AhciSpec c.program (fun _ s' log' => Inv s' log')
      s log := by
  cases c with
  | init => exact ahciInit_spec hInv
  | sectors i =>
      apply (ahciSectors_spec hInv i).seq
      rintro _ s' log' ⟨hInv', -⟩
      exact ⟨hInv'.safe, hInv'⟩
  | generation i =>
      apply (ahciGeneration_spec hInv i).seq
      rintro _ s' log' ⟨⟨hInv', -⟩, -⟩
      exact ⟨hInv'.safe, hInv'⟩
  | read i lba count buf =>
      apply (ahciTransfer_spec hInv i lba count buf
        false).seq
      intro _ s' log' hInv'
      exact ⟨hInv'.safe, hInv'⟩
  | write i lba count buf =>
      apply (ahciTransfer_spec hInv i lba count buf
        true).seq
      intro _ s' log' hInv'
      exact ⟨hInv'.safe, hInv'⟩
  | sync i =>
      apply (ahciSync_spec hInv i).seq
      intro _ s' log' hInv'
      exact ⟨hInv'.safe, hInv'⟩
  | authorize i start count generation =>
      apply (ahciFatAuthorize_spec hInv i start count
        generation).seq
      rintro _ s' log' ⟨hInv', -⟩
      exact ⟨hInv'.safe, hInv'⟩
  | revoke i =>
      apply (ahciFatRevoke_spec hInv i).consequence
        (fun _ h => h)
      exact fun _ _ _ _ h => h.1.inv
  | rescan => exact ahciRescan_spec hInv

/- The driver before it was started. -/
def bootState : AhciState where
  ports := fun _ => .zero
  drivePort := fun _ => 0
  portCount := 0
  driveCount := 0
  initialized := false
  epoch := 0

/-
  The states between calls: from boot on, any calls in any
  order, answered by the controller in any way.
-/
inductive Reaches :
    AhciState → List (Lease.Entry Nat) → Prop where
  | boot : Reaches bootState []
  | call
      {s s' : AhciState}
      {log log' : List (Lease.Entry Nat)}
      (c : AhciCall)
      (hReaches : Reaches s log)
      (hReturns : Prog.Returns answers (c.program s) log
        ((), s') log') :
      Reaches s' log'

theorem Reaches.inv
    (hReaches : Reaches s log) :
    Inv s log := by
  induction hReaches with
  | boot =>
      exact
        { safe := trivial
          tracks := fun p e h => by cases h
          leased := fun p h => by cases h
          attached := fun i h => by cases h
          distinct := fun i j h => by cases h }
  | call c _ hReturns ih =>
      exact (AhciCall.spec ih c).returns hReturns

end KvantOS.Ahci
