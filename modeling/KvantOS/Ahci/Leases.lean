import KvantOS.Ahci.Model

/-
  This file proves that the SATA driver writes and flushes
  under leases only: the history of leases is lawful at
  every moment of every run.

  Key definitions include:
    * `answers`, `Inv`

  Key theorems include:
    * `ahciCommand_spec`
-/

namespace KvantOS.Ahci

/-
  The history once a command was issued. A write uses its
  sectors, a flush takes some lease, and a command that does
  not complete costs the port its lease.
-/
def issued
    (log : List (Lease.Entry Nat))
    (p : Nat)
    (opcode : UInt8)
    (lba : UInt32)
    (count : UInt8)
    (complete : Bool) : List (Lease.Entry Nat) :=
  let log :=
    if opcode = 0x35 then
      .use p ⟨lba.toNat, count.toNat⟩ :: log
    else if opcode = 0xEA then
      .touch p :: log
    else
      log
  if complete then log else .drop p :: log

/- The controller: every answer is possible at any time. -/
def answers : Handler AhciCmd AhciCmd.Reply
    (List (Lease.Entry Nat))
  | .find, log, _, log' => log' = log
  | .read _ _, log, _, log' => log' = log
  | .waitClear _ _ _, log, _, log' => log' = log
  | .dma _ _, log, _, log' => log' = log
  | .issue p opcode lba count _, log, reply, log' =>
      log' = issued log p opcode lba count reply.complete
  | .note entry, log, _, log' => log' = entry :: log

/- A specification over the controller. -/
abbrev AhciSpec
    {α : Type}
    (m : AhciM α)
    (post : α → AhciState → List (Lease.Entry Nat) → Prop)
    (s : AhciState)
    (log : List (Lease.Entry Nat)) : Prop :=
  ProgM.Spec answers Lease.Lawful m post s log

--
-- The Invariant
--

/- The lease in the memory of the driver. -/
def leaseOf
    (s : AhciState)
    (p : Nat) : Option Extent :=
  let d := s.ports p
  if d.writeAllowed then
    some ⟨d.writeStart.toNat, d.writeCount.toNat⟩
  else
    none

/-
  Leases in memory are those of the history, and only drives
  have them. No two drives share a port.
-/
structure Inv
    (s : AhciState)
    (log : List (Lease.Entry Nat)) : Prop where
  safe : Lease.Lawful log
  tracks : Lease.Tracks (leaseOf s) log
  leased : ∀ p, (s.ports p).writeAllowed →
    ∃ i, i < s.driveCount ∧ s.drivePort i = p
  attached : ∀ i, i < s.driveCount →
    s.drivePort i < s.portCount
  distinct : ∀ i j, i < s.driveCount → j < s.driveCount →
    s.drivePort i = s.drivePort j → i = j

section Invariant

variable {s s' : AhciState} {log : List (Lease.Entry Nat)}
variable {p : Nat}

theorem leaseOf_allowed
    (hAllowed : (s.ports p).writeAllowed = true) :
    leaseOf s p = some ⟨(s.ports p).writeStart.toNat,
      (s.ports p).writeCount.toNat⟩ :=
  if_pos hAllowed

theorem leaseOf_eq_some
    {e : Extent} :
    leaseOf s p = some e ↔
      (s.ports p).writeAllowed = true ∧
        e = ⟨(s.ports p).writeStart.toNat,
          (s.ports p).writeCount.toNat⟩ := by
  unfold leaseOf
  simp only
  split
  · next h =>
      constructor
      · intro hEq
        injection hEq with hEq
        exact ⟨h, hEq.symm⟩
      · rintro ⟨-, rfl⟩
        rfl
  · next h =>
      constructor
      · intro hEq
        cases hEq
      · intro hEq
        exact absurd hEq.1 h

/- Neither a lease nor a drive is gained by a change. -/
structure Keeps (s s' : AhciState) : Prop where
  leases : ∀ p e, leaseOf s' p = some e →
    leaseOf s p = some e
  drives : s'.driveCount = s.driveCount
  drivePort : s'.drivePort = s.drivePort
  ports : s'.portCount = s.portCount

theorem Keeps.refl (s : AhciState) :
    Keeps s s :=
  ⟨fun _ _ h => h, rfl, rfl, rfl⟩

theorem Keeps.trans
    {s'' : AhciState}
    (hFirst : Keeps s s')
    (hSecond : Keeps s' s'') :
    Keeps s s'' where
  leases p e h := hFirst.leases p e (hSecond.leases p e h)
  drives := hSecond.drives.trans hFirst.drives
  drivePort := hSecond.drivePort.trans hFirst.drivePort
  ports := hSecond.ports.trans hFirst.ports

/- Leases that are only given up stay those of drives. -/
theorem Keeps.allowed
    (hKeeps : Keeps s s')
    (hAllowed : (s'.ports p).writeAllowed = true) :
    (s.ports p).writeAllowed = true :=
  (leaseOf_eq_some.mp
    (hKeeps.leases p _ (leaseOf_allowed hAllowed))).1

theorem Inv.keeps
    (hInv : Inv s log)
    (hKeeps : Keeps s s') :
    Inv s' log where
  safe := hInv.safe
  tracks := hInv.tracks.mono hKeeps.leases
  leased := by
    intro p hAllowed
    rw [hKeeps.drives, hKeeps.drivePort]
    exact hInv.leased p (hKeeps.allowed hAllowed)
  attached := by
    rw [hKeeps.drives, hKeeps.drivePort, hKeeps.ports]
    exact hInv.attached
  distinct := by
    rw [hKeeps.drives, hKeeps.drivePort]
    exact hInv.distinct

/- A change of a port that gains no lease. -/
theorem keeps_setPort
    (change : AhciPort → AhciPort)
    (hChange : (change (s.ports p)).writeAllowed = true →
      (s.ports p).writeAllowed = true ∧
      (change (s.ports p)).writeStart =
        (s.ports p).writeStart ∧
      (change (s.ports p)).writeCount =
        (s.ports p).writeCount) :
    Keeps s (s.setPort p change) where
  drives := rfl
  drivePort := rfl
  ports := rfl
  leases := by
    intro k e hLease
    rw [leaseOf_eq_some] at hLease ⊢
    unfold AhciState.setPort at hLease
    by_cases hEq : k = p
    · subst hEq
      simp only [Function.update_self] at hLease
      rcases hChange hLease.1 with
        ⟨hAllowed, hStart, hCount⟩
      rw [← hStart, ← hCount]
      exact ⟨hAllowed, hLease.2⟩
    · simp only [Function.update_of_ne hEq] at hLease
      exact hLease

/- A history that drops what nobody believes in. -/
theorem Inv.drop
    (hInv : Inv s log)
    (hNone : (s.ports p).writeAllowed = false) :
    Inv s (.drop p :: log) where
  safe := hInv.safe
  leased := hInv.leased
  attached := hInv.attached
  distinct := hInv.distinct
  tracks := by
    apply hInv.tracks.drop
    intro k e hLease
    refine ⟨?_, hLease⟩
    rintro rfl
    rw [(leaseOf_eq_some.mp hLease).1] at hNone
    cases hNone

end Invariant

--
-- Registers and Faults
--

section Registers

variable {α : Type} {s : AhciState}
variable {log : List (Lease.Entry Nat)} {p : Nat}
variable {post : α → AhciState →
  List (Lease.Entry Nat) → Prop}

theorem spec_state
    {f : AhciState → AhciM α}
    (hNext : AhciSpec (f s) post s log) :
    AhciSpec (AhciM.state >>= f) post s log :=
  hNext

theorem spec_update
    {change : AhciState → AhciState}
    {f : Unit → AhciM α}
    (hNext : AhciSpec (f ()) post (change s) log) :
    AhciSpec (AhciM.update change >>= f) post s log :=
  hNext

theorem spec_read
    {reg : Reg}
    {f : UInt32 → AhciM α}
    (hSafe : Lease.Lawful log)
    (hNext : ∀ value, AhciSpec (f value) post s log) :
    AhciSpec (AhciM.read p reg >>= f) post s log := by
  apply ProgM.spec_perform hSafe
  rintro value log' rfl
  exact hNext value

theorem spec_dma
    {count : Nat}
    {f : Bool → AhciM α}
    (hSafe : Lease.Lawful log)
    (hNext : ∀ ok, AhciSpec (f ok) post s log) :
    AhciSpec (AhciM.dma p count >>= f) post s log := by
  apply ProgM.spec_perform hSafe
  rintro ok log' rfl
  exact hNext ok

theorem spec_find
    {f : List Bool → AhciM α}
    (hSafe : Lease.Lawful log)
    (hNext : ∀ found, AhciSpec (f found) post s log) :
    AhciSpec (AhciM.find >>= f) post s log := by
  apply ProgM.spec_perform hSafe
  rintro found log' rfl
  exact hNext found

theorem spec_issue
    {opcode count : UInt8}
    {lba : UInt32}
    {data : Buf}
    {f : IssueReply → AhciM α}
    (hSafe : Lease.Lawful log)
    (hNext : ∀ reply, AhciSpec (f reply) post s
      (issued log p opcode lba count reply.complete)) :
    AhciSpec (AhciM.issue p opcode lba count data >>= f)
      post s log := by
  apply ProgM.spec_perform hSafe
  rintro reply log' rfl
  exact hNext reply

theorem spec_note
    {entry : Lease.Entry Nat}
    {f : Unit → AhciM α}
    (hSafe : Lease.Lawful log)
    (hNext : AhciSpec (f ()) post s (entry :: log)) :
    AhciSpec (AhciM.note entry >>= f) post s log := by
  apply ProgM.spec_perform hSafe
  rintro reply log' rfl
  exact hNext

/- Nothing but the answer is new. -/
def Same
    (s : AhciState)
    (log : List (Lease.Entry Nat))
    (_ : Bool)
    (s' : AhciState)
    (log' : List (Lease.Entry Nat)) : Prop :=
  s' = s ∧ log' = log

theorem linked_spec
    (hSafe : Lease.Lawful log)
    (p : Nat) :
    AhciSpec (linked p) (Same s log) s log := by
  unfold linked
  apply spec_read hSafe
  intro link
  apply ProgM.spec_ite
  · exact fun _ => ⟨hSafe, rfl, rfl⟩
  · intro _
    apply spec_read hSafe
    exact fun _ => ⟨hSafe, rfl, rfl⟩

theorem idle_spec
    (hSafe : Lease.Lawful log)
    (p : Nat) :
    AhciSpec (idle p) (Same s log) s log := by
  unfold idle
  apply (linked_spec hSafe p).seq
  rintro ok _ _ ⟨rfl, rfl⟩
  apply ProgM.spec_ite
  · exact fun _ => ⟨hSafe, rfl, rfl⟩
  intro _
  apply spec_read hSafe
  intro ci
  apply ProgM.spec_ite
  · exact fun _ => ⟨hSafe, rfl, rfl⟩
  intro _
  apply spec_read hSafe
  intro sact
  apply ProgM.spec_ite
  · exact fun _ => ⟨hSafe, rfl, rfl⟩
  intro _
  refine And.intro hSafe ?_
  rintro reply _ rfl
  exact ⟨hSafe, rfl, rfl⟩

/-
  How a call ends that grants nothing: leases may be given
  up, and drives stay.
-/
structure Ended
    (s : AhciState)
    (s' : AhciState)
    (log' : List (Lease.Entry Nat)) : Prop where
  inv : Inv s' log'
  keeps : Keeps s s'

/-
  A fault takes the lease away, also where the history
  already tells of a command that went out under it.
-/
theorem ahciFail_spec
    (hInv : Inv s log)
    {log' : List (Lease.Entry Nat)}
    (hSafe : Lease.Lawful log')
    (hOthers : ∀ k, k ≠ p →
      Lease.holder log' k = Lease.holder log k) :
    AhciSpec (ahciFail p)
      (fun code s' log' => code = -1 ∧ Ended s s' log')
      s log' := by
  have hKeeps : Keeps s (s.setPort p fun d =>
      { d with
        fenced := true
        writeAllowed := false
        generation := 0 }) :=
    keeps_setPort _ (fun h => by cases h)
  have hInv' := hInv.keeps hKeeps
  have hForbidden : ∀ e, leaseOf (s.setPort p fun d =>
      { d with
        fenced := true
        writeAllowed := false
        generation := 0 }) p ≠ some e := by
    intro e hLease
    have hAllowed := (leaseOf_eq_some.mp hLease).1
    unfold AhciState.setPort at hAllowed
    simp only [Function.update_self] at hAllowed
    cases hAllowed
  apply spec_update
  apply spec_note hSafe
  refine ProgM.spec_pure hSafe ⟨rfl, ?_, hKeeps⟩
  refine
    { safe := hSafe
      tracks := ?_
      leased := hInv'.leased
      attached := hInv'.attached
      distinct := hInv'.distinct }
  intro k e hLease
  have hNe : k ≠ p := by
    rintro rfl
    exact hForbidden e hLease
  exact (if_neg hNe).trans ((hOthers k hNe).trans
    (hInv'.tracks k e hLease))

end Registers

--
-- Commands
--

section Commands

variable {s : AhciState} {log : List (Lease.Entry Nat)}

/- What is not outside the extent of a lease lies inside. -/
theorem within_of_not_outside
    {d : AhciPort}
    {lba count : UInt32}
    (hInside : outside d lba count = false) :
    Extent.Within ⟨lba.toNat, count.toNat⟩
      ⟨d.writeStart.toNat, d.writeCount.toNat⟩ := by
  unfold outside at hInside
  rw [decide_eq_false_iff_not] at hInside
  simp only [not_or, UInt32.not_lt, UInt32.not_le]
    at hInside
  rcases hInside with ⟨hStart, hBelow, hRoom⟩
  have hOffset := UInt32.toNat_sub_of_le _ _ hStart
  have hRest := UInt32.toNat_sub_of_le _ _
    (UInt32.le_of_lt hBelow)
  rw [UInt32.le_iff_toNat_le] at hStart hRoom
  rw [UInt32.lt_iff_toNat_lt] at hBelow
  rw [hRest] at hRoom
  rw [hOffset] at hBelow hRoom
  constructor
  · exact hStart
  · change lba.toNat + count.toNat ≤
      d.writeStart.toNat + d.writeCount.toNat
    omega

/- A command that is not refused is one that is leased. -/
theorem issued_lawful
    {p : Nat}
    {opcode count : UInt8}
    {lba : UInt32}
    (hInv : Inv s log)
    (hAccepts : refuses (s.ports p) opcode lba count = false)
    (complete : Bool) :
    Lease.Lawful
      (issued log p opcode lba count complete) := by
  unfold refuses at hAccepts
  rw [decide_eq_false_iff_not] at hAccepts
  have hLeased := fun h => hAccepts (.inr (.inl h))
  have hInside := fun h => hAccepts (.inr (.inr h))
  have hEntries : Lease.Lawful
      (if opcode = 0x35 then
        .use p ⟨lba.toNat, count.toNat⟩ :: log
      else if opcode = 0xEA then
        .touch p :: log
      else
        log) := by
    split
    · next hWrite =>
        have hAllowed : (s.ports p).writeAllowed = true := by
          by_contra hNot
          exact hLeased ⟨.inl hWrite, .inl (by simpa using hNot)⟩
        have hOutside : outside (s.ports p) lba
            count.toUInt32 = false := by
          by_contra hNot
          exact hInside ⟨hWrite, by simpa using hNot⟩
        have hWithin := within_of_not_outside hOutside
        rw [UInt8.toNat_toUInt32] at hWithin
        exact hInv.safe.use hInv.tracks
          (leaseOf_allowed hAllowed) hWithin
    · split
      · next hFlush =>
          have hAllowed :
              (s.ports p).writeAllowed = true := by
            by_contra hNot
            exact hLeased
              ⟨.inr hFlush, .inl (by simpa using hNot)⟩
          exact hInv.safe.touch hInv.tracks
            (leaseOf_allowed hAllowed)
      · exact hInv.safe
  unfold issued
  cases complete with
  | true => exact hEntries
  | false => exact hEntries

/- Only the lease of the port may be affected. -/
theorem holder_issued
    (log : List (Lease.Entry Nat))
    (p : Nat)
    (opcode : UInt8)
    (lba : UInt32)
    (count : UInt8)
    (complete : Bool)
    {k : Nat}
    (hNe : k ≠ p ∨ complete = true) :
    Lease.holder (issued log p opcode lba count complete) k =
      Lease.holder log k := by
  have hEntries : Lease.holder
      (if opcode = 0x35 then
        .use p ⟨lba.toNat, count.toNat⟩ :: log
      else if opcode = 0xEA then
        .touch p :: log
      else
        log) k = Lease.holder log k := by
    split
    · rfl
    · split <;> rfl
  unfold issued
  cases complete with
  | true => exact hEntries
  | false =>
      have hOther : k ≠ p := by
        rcases hNe with h | h
        · exact h
        · cases h
      exact (if_neg hOther).trans hEntries

/- Leases of a longer history with the same holders. -/
theorem Inv.extend
    {log' : List (Lease.Entry Nat)}
    (hInv : Inv s log)
    (hSafe : Lease.Lawful log')
    (hHolders : ∀ k,
      Lease.holder log' k = Lease.holder log k) :
    Inv s log' where
  safe := hSafe
  leased := hInv.leased
  attached := hInv.attached
  distinct := hInv.distinct
  tracks := fun k e hLease =>
    (hHolders k).trans (hInv.tracks k e hLease)

theorem ahciCommand_spec
    (hInv : Inv s log)
    (p : Nat)
    (opcode : UInt8)
    (lba : UInt32)
    (count : UInt8)
    (data : Buf) :
    AhciSpec (ahciCommand p opcode lba count data)
      (fun _ s' log' => Ended s s' log') s log := by
  have hSafe := hInv.safe
  have hFail : ∀ (log' : List (Lease.Entry Nat))
      (data' : Buf),
      Lease.Lawful log' →
      (∀ k, k ≠ p →
        Lease.holder log' k = Lease.holder log k) →
      AhciSpec (do return (← ahciFail p, data'))
        (fun _ s' log' => Ended s s' log') s log' := by
    intro log' data' hSafe' hOthers
    apply (ahciFail_spec hInv hSafe' hOthers).seq
    rintro code s'' log'' ⟨-, hEnded⟩
    exact ⟨hEnded.inv.safe, hEnded⟩
  unfold ahciCommand
  apply spec_state
  apply ProgM.spec_ite
  · exact fun _ => ⟨hSafe, hInv, .refl s⟩
  intro hRefuses
  have hAccepts := Bool.eq_false_iff.mpr hRefuses
  apply (idle_spec hSafe p).seq
  rintro ok s log ⟨rfl, rfl⟩
  apply ProgM.spec_ite
  · exact fun _ => hFail _ data hSafe (fun _ _ => rfl)
  intro _
  apply spec_dma hSafe
  intro ok
  apply ProgM.spec_ite
  · exact fun _ => hFail _ data hSafe (fun _ _ => rfl)
  intro _
  apply (linked_spec hSafe p).seq
  rintro ok s log ⟨rfl, rfl⟩
  apply ProgM.spec_ite
  · exact fun _ => hFail _ data hSafe (fun _ _ => rfl)
  intro _
  apply spec_issue hSafe
  intro reply
  have hIssued := issued_lawful hInv hAccepts
    reply.complete
  have hOthers : ∀ k, k ≠ p → Lease.holder
      (issued log p opcode lba count reply.complete) k =
        Lease.holder log k :=
    fun k hNe => holder_issued _ p opcode lba count _
      (.inl hNe)
  apply ProgM.spec_ite
  · exact fun _ => hFail _ _ hIssued hOthers
  intro hComplete
  apply spec_read hIssued
  intro is
  apply ProgM.spec_ite
  · exact fun _ => hFail _ _ hIssued hOthers
  intro _
  apply spec_read hIssued
  intro tfd
  apply ProgM.spec_ite
  · exact fun _ => hFail _ _ hIssued hOthers
  intro _
  apply ProgM.spec_ite
  · exact fun _ => hFail _ _ hIssued hOthers
  intro _
  apply ProgM.spec_pure hIssued
  refine ⟨hInv.extend hIssued ?_, .refl _⟩
  exact fun k => holder_issued _ p opcode lba count _
    (.inr (by simpa using hComplete))

end Commands

end KvantOS.Ahci
