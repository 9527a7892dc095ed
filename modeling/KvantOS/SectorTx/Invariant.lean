import KvantOS.SectorTx.Load

/-
  This file defines the invariant that ties the header, the
  backup slots and the targets together at every write of a
  transaction, and its preservation by single writes and
  barriers.

  `base` is the contents before the transaction and `K` says
  which targets the transaction answers for: a caller may
  write other sectors of the volume behind the log's back.

  Key definitions include:
    * `restore`, `Recovers`
    * `Backed`, `Logged`, `Exact`
    * `TxInv`

  Key theorems include:
    * `Logged.recovers`, `Backed.put`, `Backed.append`
    * `TxInv.issued`
-/

namespace KvantOS

/- The disk with every recorded sector put back. -/
def restore
    (undo : List UndoRecord)
    (disk : Nat → Sector) : Nat → Sector :=
  fun lba =>
    match undo.find? (fun u => u.lba == lba) with
    | some u => u.old
    | none => disk lba

theorem restore_of_mem
    {undo : List UndoRecord}
    (hDistinct : (undo.map UndoRecord.lba).Nodup)
    {u : UndoRecord}
    (hu : u ∈ undo)
    (disk : Nat → Sector) :
    restore undo disk u.lba = u.old := by
  induction undo with
  | nil => simp at hu
  | cons w ws ih =>
      rw [List.map_cons, List.nodup_cons] at hDistinct
      rcases List.mem_cons.mp hu with rfl | hMem
      · simp [restore]
      · have hNe : w.lba ≠ u.lba := by
          intro hEq
          exact hDistinct.1
            (hEq ▸ List.mem_map_of_mem hMem)
        have hRest := ih hDistinct.2 hMem
        simpa [restore, List.find?_cons, hNe] using hRest

theorem restore_of_not_mem
    {undo : List UndoRecord}
    {disk : Nat → Sector}
    {lba : Nat}
    (hFresh : ∀ u ∈ undo, u.lba ≠ lba) :
    restore undo disk lba = disk lba := by
  have hNone :
      undo.find? (fun u => u.lba == lba) = none := by
    rw [List.find?_eq_none]
    intro u hu
    simpa using hFresh u hu
  simp [restore, hNone]

/-
  Recovery of this disk succeeds and leaves the sectors of
  `K` with the contents `base`.
-/
inductive Recovers
    (io : StxIo)
    (K : Nat → Prop)
    (base disk : Nat → Sector) : Prop where
  | closed
      (hLog : ClosedLog io disk)
      (hSame : ∀ lba, K lba → disk lba = base lba)
  | undone
      (undo : List UndoRecord)
      (hLog : ValidLog io disk undo)
      (hSame : ∀ lba, K lba →
        restore undo disk lba = base lba)

end KvantOS

--
-- Crash Values
--

namespace KvantOS

variable {io : StxIo} {K : Nat → Prop} {base : Nat → Sector}
variable {kept kept' : Nat → Set Sector}

/- Every crash leaves the sectors of `K` as in `base`. -/
def Clean
    (K : Nat → Prop)
    (base : Nat → Sector)
    (kept : Nat → Set Sector) : Prop :=
  ∀ lba, K lba → ∀ v ∈ kept lba, v = base lba

/-
  Whatever a crash keeps, the backups of these records are
  in their slots, and no other sector of `K` has changed.
-/
structure Backed
    (io : StxIo)
    (K : Nat → Prop)
    (base : Nat → Sector)
    (undo : List UndoRecord)
    (kept : Nat → Set Sector) : Prop where
  records : RecordsOk io undo
  olds : ∀ u ∈ undo, K u.lba → u.old = base u.lba
  slots : ∀ i (hi : i < undo.length),
    ∀ v ∈ kept (io.journal + 1 + i), v = undo[i].old
  rest : ∀ lba, K lba → (∀ u ∈ undo, u.lba ≠ lba) →
    ∀ v ∈ kept lba, v = base lba

/-
  Every header that a crash may leave is either closed over
  unchanged sectors, or lists records that are backed.
-/
def Logged
    (io : StxIo)
    (K : Nat → Prop)
    (base : Nat → Sector)
    (listed : List UndoRecord → Prop)
    (kept : Nat → Set Sector) : Prop :=
  ∀ v ∈ kept io.journal,
    (ClosedHeader io v ∧ Clean K base kept) ∨
      ∃ undo, listed undo ∧
        v = headerSector io true undo ∧
        Backed io K base undo kept

/- The header can only be the one that lists `undo`. -/
structure Exact
    (io : StxIo)
    (K : Nat → Prop)
    (base : Nat → Sector)
    (undo : List UndoRecord)
    (kept : Nat → Set Sector) : Prop where
  header : ∀ v ∈ kept io.journal,
    v = headerSector io true undo
  backed : Backed io K base undo kept

variable {listed : List UndoRecord → Prop}
variable {undo : List UndoRecord}

theorem Exact.logged
    (hExact : Exact io K base undo kept)
    (hListed : listed undo) :
    Logged io K base listed kept := by
  intro v hv
  exact .inr ⟨undo, hListed, hExact.header v hv,
    hExact.backed⟩

theorem Logged.imp
    {listed listed' : List UndoRecord → Prop}
    (hLogged : Logged io K base listed kept)
    (hListed : ∀ undo, listed undo → listed' undo) :
    Logged io K base listed' kept := by
  intro v hv
  rcases hLogged v hv with hClosed | ⟨undo, hIn, hBacked⟩
  · exact .inl hClosed
  · exact .inr ⟨undo, hListed undo hIn, hBacked⟩

/- Any crash of a logged device can be recovered. -/
theorem Logged.recovers
    (hConfig : configOk io = true)
    (hJournal : io.journalCount ≠ 0)
    (hLogged : Logged io K base listed kept)
    {disk : Nat → Sector}
    (hCrash : ∀ lba, disk lba ∈ kept lba) :
    Recovers io K base disk := by
  rcases hLogged _ (hCrash io.journal) with
    ⟨hClosed, hClean⟩ | ⟨undo, -, hHeader, hBacked⟩
  · exact .closed hClosed
      (fun lba hK => hClean lba hK _ (hCrash lba))
  · refine .undone undo
      (validLog_of_header hConfig hJournal hBacked.records
        hHeader (fun i hi =>
          hBacked.slots i hi _ (hCrash _))) ?_
    intro lba hK
    by_cases hMem : ∃ u ∈ undo, u.lba = lba
    · obtain ⟨u, hu, rfl⟩ := hMem
      rw [restore_of_mem hBacked.records.distinct hu]
      exact hBacked.olds u hu hK
    · have hFresh : ∀ u ∈ undo, u.lba ≠ lba :=
        fun u hu hEq => hMem ⟨u, hu, hEq⟩
      rw [restore_of_not_mem hFresh]
      exact hBacked.rest lba hK hFresh _ (hCrash lba)

--
-- Barriers
--

theorem Clean.mono
    (hClean : Clean K base kept)
    (hLess : ∀ lba, kept' lba ⊆ kept lba) :
    Clean K base kept' :=
  fun lba hK v hv => hClean lba hK v (hLess lba hv)

theorem Backed.mono
    (hBacked : Backed io K base undo kept)
    (hLess : ∀ lba, kept' lba ⊆ kept lba) :
    Backed io K base undo kept' where
  records := hBacked.records
  olds := hBacked.olds
  slots i hi v hv := hBacked.slots i hi v (hLess _ hv)
  rest lba hK hFresh v hv :=
    hBacked.rest lba hK hFresh v (hLess lba hv)

theorem Exact.mono
    (hExact : Exact io K base undo kept)
    (hLess : ∀ lba, kept' lba ⊆ kept lba) :
    Exact io K base undo kept' where
  header v hv := hExact.header v (hLess _ hv)
  backed := hExact.backed.mono hLess

theorem Logged.mono
    (hLogged : Logged io K base listed kept)
    (hLess : ∀ lba, kept' lba ⊆ kept lba) :
    Logged io K base listed kept' := by
  intro v hv
  rcases hLogged v (hLess _ hv) with
    ⟨hClosed, hClean⟩ | ⟨undo, hIn, hHeader, hBacked⟩
  · exact .inl ⟨hClosed, hClean.mono hLess⟩
  · exact .inr ⟨undo, hIn, hHeader, hBacked.mono hLess⟩

/- A barrier only narrows what a crash may leave. -/
theorem flush_kept_subset
    {d : Device Sector}
    (hCoherent : d.Coherent)
    (lba : Nat) :
    d.flush.kept lba ⊆ d.kept lba := by
  intro v hv
  rw [Device.mem_flush_kept] at hv
  rw [hv]
  exact hCoherent lba

--
-- Single Writes
--

section Put

variable {d : Device Sector} {block : Nat} {value : Sector}

theorem Clean.put
    (hClean : Clean K base d.kept)
    (hValue : K block → value = base block) :
    Clean K base (d.put block value).kept := by
  intro lba hK
  apply Device.kept_put_of (hClean lba hK)
  rintro rfl
  exact hValue hK

/-
  A write that misses the slots keeps the backups; inside
  `K` it must be to a recorded sector or of its old value.
-/
theorem Backed.put
    (hBacked : Backed io K base undo d.kept)
    (hSlot : ∀ i, i < undo.length →
      block ≠ io.journal + 1 + i)
    (hValue : K block → (∀ u ∈ undo, u.lba ≠ block) →
      value = base block) :
    Backed io K base undo (d.put block value).kept where
  records := hBacked.records
  olds := hBacked.olds
  slots i hi := by
    apply Device.kept_put_of (hBacked.slots i hi)
    intro hEq
    exact absurd hEq.symm (hSlot i hi)
  rest lba hK hFresh := by
    apply Device.kept_put_of (hBacked.rest lba hK hFresh)
    rintro rfl
    exact hValue hK hFresh

/- A write elsewhere than the journal keeps the log. -/
theorem Logged.put
    (hLogged : Logged io K base listed d.kept)
    (hHeader : block ≠ io.journal)
    (hSlot : ∀ i, i < stxMax → block ≠ io.journal + 1 + i)
    (hValue : K block → value = base block) :
    Logged io K base listed (d.put block value).kept := by
  intro v hv
  rw [Device.put_kept_ne hHeader.symm] at hv
  rcases hLogged v hv with
    ⟨hClosed, hClean⟩ | ⟨undo, hIn, hEq, hBacked⟩
  · exact .inl ⟨hClosed, hClean.put hValue⟩
  · refine .inr ⟨undo, hIn, hEq, hBacked.put ?_ ?_⟩
    · intro i hi
      exact hSlot i (hi.trans_le hBacked.records.length)
    · intro hK _
      exact hValue hK

/- The header may be replaced by one that is backed. -/
theorem Logged.put_header
    (hTargets : ∀ lba, K lba → lba ≠ io.journal)
    (hLogged : Logged io K base listed d.kept)
    (hListed : listed undo)
    (hBacked : Backed io K base undo d.kept) :
    Logged io K base listed
      (d.put io.journal
        (headerSector io true undo)).kept := by
  have hKeep : ∀ us, Backed io K base us d.kept →
      Backed io K base us
        (d.put io.journal
          (headerSector io true undo)).kept := by
    intro us hUs
    apply hUs.put
    · intro i _
      omega
    · intro hK
      exact absurd rfl (hTargets _ hK)
  intro v hv
  rw [Device.put_kept_same] at hv
  rcases hv with rfl | hv
  · exact .inr ⟨undo, hListed, rfl, hKeep undo hBacked⟩
  · rcases hLogged v hv with
      ⟨hClosed, hClean⟩ | ⟨us, hIn, hEq, hUs⟩
    · refine .inl ⟨hClosed, hClean.put ?_⟩
      intro hK
      exact absurd rfl (hTargets _ hK)
    · exact .inr ⟨us, hIn, hEq, hKeep us hUs⟩

/- Over unchanged sectors the log may be closed. -/
theorem Logged.put_closed
    (hTargets : ∀ lba, K lba → lba ≠ io.journal)
    (hLogged : Logged io K base listed d.kept)
    (hClean : Clean K base d.kept)
    (hClosed : ClosedHeader io value) :
    Logged io K base listed
      (d.put io.journal value).kept := by
  have hCleanPut :
      Clean K base (d.put io.journal value).kept :=
    hClean.put (fun hK => absurd rfl (hTargets _ hK))
  intro v hv
  rw [Device.put_kept_same] at hv
  rcases hv with rfl | hv
  · exact .inl ⟨hClosed, hCleanPut⟩
  · rcases hLogged v hv with
      ⟨hOther, -⟩ | ⟨us, hIn, hEq, hUs⟩
    · exact .inl ⟨hOther, hCleanPut⟩
    · refine .inr ⟨us, hIn, hEq, hUs.put ?_ ?_⟩
      · intro i _
        omega
      · intro hK
        exact absurd rfl (hTargets _ hK)

/- A record whose backup is durable may join the log. -/
theorem Backed.append
    {u : UndoRecord}
    (hBacked : Backed io K base undo kept)
    (hLength : undo.length < stxMax)
    (hTarget : targetOk io u.lba = true)
    (hFresh : ∀ w ∈ undo, w.lba ≠ u.lba)
    (hCrc : stxCrc32 u.old.toBuf 512 = u.crc)
    (hOld : K u.lba → u.old = base u.lba)
    (hSlot : ∀ v ∈ kept (io.journal + 1 + undo.length),
      v = u.old) :
    Backed io K base (undo ++ [u]) kept where
  records := hBacked.records.append hLength hTarget
    hFresh hCrc
  olds w hw := by
    rcases List.mem_append.mp hw with hIn | hEq
    · exact hBacked.olds w hIn
    · rw [List.mem_singleton.mp hEq]
      exact hOld
  slots i hi := by
    rw [List.length_append, List.length_singleton] at hi
    rcases Nat.lt_succ_iff_lt_or_eq.mp hi with hLt | hEq
    · rw [List.getElem_append_left hLt]
      exact hBacked.slots i hLt
    · subst hEq
      rw [List.getElem_concat_length rfl]
      exact hSlot
  rest lba hK hNone := by
    apply hBacked.rest lba hK
    intro w hw
    exact hNone w (List.mem_append_left _ hw)

end Put

end KvantOS

--
-- The Transaction Invariant
--

namespace KvantOS

/- The sectors of the header and of the backup slots. -/
def InJournal
    (io : StxIo)
    (lba : Nat) : Prop :=
  io.journalCount ≠ 0 ∧
    io.journal ≤ lba ∧ lba ≤ io.journal + stxMax

/-
  The handle knows the transaction: its records hold the old
  contents of every changed sector of `K`.
-/
structure Recorded
    (io : StxIo)
    (K : Nat → Prop)
    (base : Nat → Sector)
    (t : SectorTx)
    (d : Device Sector) : Prop where
  io_eq : t.io = io
  coherent : d.Coherent
  records : RecordsOk io t.undo
  olds : ∀ u ∈ t.undo, K u.lba → u.old = base u.lba
  rest : ∀ lba, K lba → (∀ u ∈ t.undo, u.lba ≠ lba) →
    d.cur lba = base lba

/-
  The handle and the device agree on a running transaction:
  in durable mode the log on the device holds the records
  that the handle does.
-/
structure TxInv
    (io : StxIo)
    (K : Nat → Prop)
    (base : Nat → Sector)
    (t : SectorTx)
    (d : Device Sector) : Prop extends
    Recorded io K base t d where
  exact : io.journalCount ≠ 0 → t.failed = false →
    Exact io K base t.undo d.kept
  logged : io.journalCount ≠ 0 →
    Logged io K base (fun us => us <+: t.undo) d.kept

/-
  The crash condition of a transaction that has not begun to
  close: recovery brings the old contents back.
-/
def Safe
    (io : StxIo)
    (K : Nat → Prop)
    (base : Nat → Sector)
    (d : Device Sector) : Prop :=
  io.journalCount ≠ 0 →
    Logged io K base (fun _ => True) d.kept

/- The protected sectors are targets. -/
def Protects
    (io : StxIo)
    (K : Nat → Prop) : Prop :=
  ∀ lba, K lba → targetOk io lba = true

namespace TxInv

variable {io : StxIo} {K : Nat → Prop} {base : Nat → Sector}
variable {t : SectorTx} {d : Device Sector}

theorem safe
    (hInv : TxInv io K base t d) :
    Safe io K base d :=
  fun hJournal =>
    (hInv.logged hJournal).imp (fun _ _ => trivial)

/- A transaction may be given up at any time. -/
theorem fail
    (hInv : TxInv io K base t d) :
    TxInv io K base { t with failed := true } d where
  io_eq := hInv.io_eq
  coherent := hInv.coherent
  records := hInv.records
  olds := hInv.olds
  rest := hInv.rest
  exact _ hFailed := by contradiction
  logged := hInv.logged

/- The invariant after a barrier. -/
theorem flush
    (hInv : TxInv io K base t d) :
    TxInv io K base t d.flush where
  io_eq := hInv.io_eq
  coherent := Device.coherent_flush d
  records := hInv.records
  olds := hInv.olds
  rest := hInv.rest
  exact hJournal hFailed :=
    (hInv.exact hJournal hFailed).mono
      (flush_kept_subset hInv.coherent)
  logged hJournal :=
    (hInv.logged hJournal).mono
      (flush_kept_subset hInv.coherent)

/-
  A write outside the journal keeps the invariant, when it
  restores a sector or writes one that the log accounts for.
-/
theorem issued
    {d' : Device Sector}
    {block : Nat}
    {value : Sector}
    (hInv : TxInv io K base t d)
    (hIssued : d.Issued block value d')
    (hOut : ¬ InJournal io block)
    (hValue : K block → value = base block ∨
      t.failed = false ∧ ∃ u ∈ t.undo, u.lba = block) :
    TxInv io K base t d' := by
  have hHeader :
      io.journalCount ≠ 0 → block ≠ io.journal := by
    rintro hJournal rfl
    exact hOut ⟨hJournal, le_rfl, Nat.le_add_right _ _⟩
  have hSlot : io.journalCount ≠ 0 →
      ∀ i, i < stxMax → block ≠ io.journal + 1 + i := by
    rintro hJournal i hi rfl
    exact hOut ⟨hJournal, by omega, by omega⟩
  have hExact : io.journalCount ≠ 0 → t.failed = false →
      Exact io K base t.undo d'.kept := by
    intro hJournal hFailed
    have hOld := hInv.exact hJournal hFailed
    rw [hIssued.kept]
    constructor
    · intro v hv
      rw [Device.put_kept_ne (hHeader hJournal).symm] at hv
      exact hOld.header v hv
    · apply hOld.backed.put
      · intro i hi
        exact hSlot hJournal i
          (hi.trans_le hInv.records.length)
      · intro hK hFresh
        rcases hValue hK with hBase | ⟨-, u, hu, hEq⟩
        · exact hBase
        · exact absurd hEq (hFresh u hu)
  constructor
  · constructor
    · exact hInv.io_eq
    · exact hIssued.coherent hInv.coherent
    · exact hInv.records
    · exact hInv.olds
    · intro lba hK hFresh
      have hOld := hInv.rest lba hK hFresh
      by_cases hEq : lba = block
      · subst hEq
        rcases hIssued.cur_same with hNew | hSame
        · rcases hValue hK with hBase | ⟨-, u, hu, hEq⟩
          · exact hNew.trans hBase
          · exact absurd hEq (hFresh u hu)
        · exact hSame.trans hOld
      · exact (hIssued.cur_ne hEq).trans hOld
  · exact hExact
  · intro hJournal
    cases hFailed : t.failed with
    | false =>
        exact (hExact hJournal hFailed).logged
          (List.prefix_refl _)
    | true =>
        rw [hIssued.kept]
        apply (hInv.logged hJournal).put
          (hHeader hJournal) (hSlot hJournal)
        intro hK
        rcases hValue hK with hBase | ⟨hNot, -⟩
        · exact hBase
        · rw [hFailed] at hNot
          contradiction

end TxInv

/- Targets lie outside the journal. -/
theorem not_inJournal_of_target
    {io : StxIo}
    (hConfig : configOk io = true)
    {lba : Nat}
    (hTarget : targetOk io lba = true) :
    ¬ InJournal io lba := by
  rintro ⟨hJournal, hLow, hHigh⟩
  apply targetOk_ne_journal hConfig hJournal hTarget
    (i := lba - io.journal)
  · omega
  · omega

end KvantOS
