import KvantOS.Usb.Bus

/-
  This file states the invariant of the USB driver, and that
  checking a route and issuing a command keep it: the cache
  mirrors the disks, and every write permission in memory is
  a lease that was granted and not dropped since.

  Key definitions include:
    * `leaseOf`, `Inv`, `Commanded`

  Key theorems include:
    * `usbRouteCheck_spec`, `commandDir_spec`
    * `writeFailed_spec`
-/

namespace KvantOS.Usb

--
-- The Invariant
--

/-
  The write permission of a disk, which a fenced controller
  makes useless.
-/
def leaseOf
    (s : UsbState)
    (disk : Int) : Option Extent :=
  let d := s.disks disk
  if d.writeAllowed ∧ s.dead d.hc = false then
    some ⟨d.writeStart.toNat, d.writeCount.toNat⟩
  else
    none

/- The permissions of all disks but one. -/
def leases
    (skip : Option Int)
    (s : UsbState)
    (disk : Int) : Option Extent :=
  if skip = some disk then none else leaseOf s disk

/- The valid entries of the cache are sectors of disks. -/
def Coherent
    (s : UsbState)
    (b : Bus) : Prop :=
  ∀ i, (s.cache i).valid →
    (s.cache i).data =
      b.media (s.cache i).disk (s.cache i).lba.toNat

/- No sector of a disk is in the cache. -/
def Uncached
    (s : UsbState)
    (disk : Int) : Prop :=
  ∀ i, (s.cache i).valid → (s.cache i).disk ≠ disk

/-
  The invariant. After a command on a disk has failed, and
  until its permission is taken back, it leaves that disk's
  lease out.
-/
structure Inv
    (skip : Option Int)
    (s : UsbState)
    (b : Bus) : Prop where
  coherent : Coherent s b
  safe : Safe b
  tracks : Lease.Tracks (leases skip s) b.log
  lost : ∀ disk, (s.disks disk).routeDead →
    (s.disks disk).writeAllowed = false

section Leases

variable {s s' : UsbState} {b : Bus}
variable {skip : Option Int} {disk : Int}

theorem leaseOf_eq_some
    {e : Extent} :
    leaseOf s disk = some e ↔
      (s.disks disk).writeAllowed = true ∧
        s.dead (s.disks disk).hc = false ∧
        e = ⟨(s.disks disk).writeStart.toNat,
          (s.disks disk).writeCount.toNat⟩ := by
  unfold leaseOf
  simp only
  split
  · next h =>
      constructor
      · intro hEq
        injection hEq with hEq
        exact ⟨h.1, h.2, hEq.symm⟩
      · rintro ⟨-, -, rfl⟩
        rfl
  · next h =>
      constructor
      · intro hEq
        cases hEq
      · rintro ⟨hAllowed, hDead, -⟩
        exact absurd ⟨hAllowed, hDead⟩ h

theorem leaseOf_forbidden
    (hForbidden : (s.disks disk).writeAllowed = false) :
    leaseOf s disk = none := by
  cases hLease : leaseOf s disk with
  | none => rfl
  | some e =>
      have hAllowed := (leaseOf_eq_some.mp hLease).1
      rw [hForbidden] at hAllowed
      cases hAllowed

theorem leases_eq_some
    {e : Extent} :
    leases skip s disk = some e ↔
      skip ≠ some disk ∧ leaseOf s disk = some e := by
  unfold leases
  split
  · next h => simp [h]
  · next h => simp [h]

/- A fenced controller only takes permissions away. -/
theorem leaseOf_fence
    {hc : Nat}
    {fenced : Bool}
    {e : Extent}
    (hLease : leaseOf (s.fence hc fenced) disk = some e) :
    leaseOf s disk = some e := by
  rw [leaseOf_eq_some] at hLease ⊢
  refine ⟨hLease.1, ?_, hLease.2.2⟩
  have hDead := hLease.2.1
  change Function.update s.dead hc (s.dead hc || fenced)
    (s.disks disk).hc = false at hDead
  by_cases hEq : (s.disks disk).hc = hc
  · rw [hEq, Function.update_self, Bool.or_eq_false_iff]
      at hDead
    rw [hEq]
    exact hDead.1
  · rwa [Function.update_of_ne hEq] at hDead

/- Taking permissions away keeps the invariant. -/
theorem Inv.weaken
    {skip' : Option Int}
    (hInv : Inv skip s b)
    (hCoherent : Coherent s' b)
    (hLeases : ∀ k e, leases skip' s' k = some e →
      leases skip s k = some e)
    (hLost : ∀ k, (s'.disks k).routeDead →
      (s'.disks k).writeAllowed = false) :
    Inv skip' s' b where
  coherent := hCoherent
  safe := hInv.safe
  tracks := hInv.tracks.mono hLeases
  lost := hLost

/- Whatever it holds without a disk, it holds less with it. -/
theorem Inv.leaveOut
    (hInv : Inv none s b)
    (disk : Int) :
    Inv (some disk) s b := by
  refine hInv.weaken hInv.coherent ?_ hInv.lost
  intro k e hLease
  rw [leases_eq_some] at hLease ⊢
  exact ⟨by simp, hLease.2⟩

theorem Inv.fence
    (hInv : Inv skip s b)
    (hc : Nat)
    (fenced : Bool) :
    Inv skip (s.fence hc fenced) b := by
  refine hInv.weaken ?_ ?_ ?_
  · exact hInv.coherent
  · intro k e hLease
    rw [leases_eq_some] at hLease ⊢
    exact ⟨hLease.1, leaseOf_fence hLease.2⟩
  · exact hInv.lost

/- The tag of the next command does not matter. -/
theorem Inv.setTag
    (hInv : Inv skip s b)
    (tag : UInt32) :
    Inv skip { s with nextTag := tag } b :=
  hInv.weaken hInv.coherent (fun _ _ h => h) hInv.lost

/- What hubs report touches no disk. -/
theorem Inv.setHub
    (hInv : Inv skip s b)
    (hub : Nat)
    (change : Hub → Hub) :
    Inv skip (s.setHub hub change) b :=
  hInv.weaken hInv.coherent (fun _ _ h => h) hInv.lost

/- The other disks keep their permissions. -/
theorem leaseOf_setDisk_ne
    {change : UsbDisk → UsbDisk}
    {k : Int}
    (hNe : k ≠ disk) :
    leaseOf (s.setDisk disk change) k = leaseOf s k := by
  unfold leaseOf UsbState.setDisk
  simp only [Function.update_of_ne hNe]

/- A disk that is changed to have no permission. -/
theorem Inv.setDisk
    (hInv : Inv skip s b)
    (disk : Int)
    (change : UsbDisk → UsbDisk)
    (hSkip : skip = none ∨ skip = some disk)
    (hChange : (change (s.disks disk)).writeAllowed =
      false) :
    Inv none (s.setDisk disk change) b := by
  have hSelf : (s.setDisk disk change).disks disk =
      change (s.disks disk) :=
    Function.update_self ..
  refine hInv.weaken ?_ ?_ ?_
  · exact hInv.coherent
  · intro k e hLease
    rw [leases_eq_some] at hLease ⊢
    by_cases hEq : k = disk
    · subst hEq
      rw [leaseOf_forbidden (by rw [hSelf]; exact hChange)]
        at hLease
      cases hLease.2
    · rw [leaseOf_setDisk_ne hEq] at hLease
      refine ⟨?_, hLease.2⟩
      rcases hSkip with rfl | rfl
      · simp
      · intro hSome
        injection hSome with hSome
        exact hEq hSome.symm
  · intro k hDead
    by_cases hEq : k = disk
    · rw [hEq, hSelf]
      exact hChange
    · have hOther : (s.setDisk disk change).disks k =
          s.disks k :=
        Function.update_of_ne hEq ..
      rw [hOther] at hDead ⊢
      exact hInv.lost k hDead

/- A dropped lease that nobody believes in. -/
theorem Inv.drop
    (hInv : Inv skip s b)
    (hNone : leases skip s disk = none) :
    Inv skip s { b with log := .drop disk :: b.log } where
  coherent := hInv.coherent
  safe := hInv.safe
  lost := hInv.lost
  tracks := by
    apply hInv.tracks.drop
    intro k e hLease
    refine ⟨?_, hLease⟩
    rintro rfl
    rw [hNone] at hLease
    cases hLease

/- Invalidating a disk leaves none of its sectors. -/
theorem uncached_dropCached
    (cache : Fin 32 → CacheEntry)
    (disk : Int)
    {i : Fin 32}
    (hValid : (dropCached cache disk i).valid) :
    (cache i).valid ∧ (cache i).disk ≠ disk := by
  simpa [dropCached] using hValid

theorem Inv.invalidate
    (hInv : Inv skip s b)
    (disk : Int) :
    Inv skip { s with cache := dropCached s.cache disk }
      b := by
  refine hInv.weaken ?_ (fun _ _ h => h) hInv.lost
  intro i hValid
  exact hInv.coherent i
    (uncached_dropCached s.cache disk hValid).1

end Leases

--
-- Routes
--

section Route

variable {s : UsbState} {b : Bus} {skip : Option Int}

/- No disk has gained the permission to write. -/
def NoGrant (s s' : UsbState) : Prop :=
  ∀ k, (s'.disks k).writeAllowed = true →
    (s.disks k).writeAllowed = true

/-
  How a check of the route ends: nothing changed and the
  route is sound, or it is lost.
-/
inductive Routed
    (skip : Option Int)
    (disk : Int)
    (s : UsbState)
    (b : Bus) : Bool → UsbState → Bus → Prop where
  | live
      (hRoute : (s.disks disk).routeDead = false)
      (hDead : s.dead (s.disks disk).hc = false) :
      Routed skip disk s b true s b
  | lost
      {s' : UsbState}
      {b' : Bus}
      (hInv : Inv skip s' b')
      (hCache : s'.cache = s.cache)
      (hMedia : b'.media = b.media)
      (hGrant : NoGrant s s') :
      Routed skip disk s b false s' b'

/- The end of a check that fails. -/
theorem routeLost_spec
    {disk : Int}
    (hInv : Inv skip s b)
    {s₀ : UsbState}
    {b₀ : Bus}
    (hCache : s.cache = s₀.cache)
    (hMedia : b.media = b₀.media)
    (hDisks : s.disks = s₀.disks) :
    UsbSpec (routeLost disk)
      (Routed skip disk s₀ b₀) s b := by
  apply spec_update
  apply spec_note hInv.safe
  have hLost : Inv skip (s.setDisk disk fun d =>
      { d with
        routeDead := true
        writeAllowed := false
        generation := 0 }) b := by
    refine hInv.weaken ?_ ?_ ?_
    · exact hInv.coherent
    · intro k e hLease
      rw [leases_eq_some] at hLease ⊢
      refine ⟨hLease.1, ?_⟩
      by_cases hEq : k = disk
      · subst hEq
        rw [leaseOf_forbidden] at hLease
        · cases hLease.2
        · unfold UsbState.setDisk
          simp only [Function.update_self]
      · rw [leaseOf_setDisk_ne hEq] at hLease
        exact hLease.2
    · intro k hDead
      by_cases hEq : k = disk
      · subst hEq
        unfold UsbState.setDisk
        simp only [Function.update_self]
      · change (Function.update s.disks disk _ k).routeDead
          at hDead
        change (Function.update s.disks disk _
          k).writeAllowed = false
        rw [Function.update_of_ne hEq] at hDead ⊢
        exact hInv.lost k hDead
  have hNone : leases skip (s.setDisk disk fun d =>
      { d with
        routeDead := true
        writeAllowed := false
        generation := 0 }) disk = none := by
    unfold leases
    split
    · rfl
    · apply leaseOf_forbidden
      unfold UsbState.setDisk
      simp only [Function.update_self]
  refine ⟨hInv.safe,
    .lost (hLost.drop hNone) hCache hMedia ?_⟩
  intro k hAllowed
  change (Function.update s.disks disk _ k).writeAllowed =
    true at hAllowed
  rw [← hDisks]
  by_cases hEq : k = disk
  · subst hEq
    rw [Function.update_self] at hAllowed
    cases hAllowed
  · rwa [Function.update_of_ne hEq] at hAllowed

/- The hubs on the way answer, or the check fails. -/
theorem checkHops_spec
    (poll : Bool)
    (hops : List Hop)
    (hInv : Inv skip s b) :
    UsbSpec (checkHops poll hops)
      (fun ok s' b' => b' = b ∧
        ((ok = true ∧ s' = s) ∨
          (ok = false ∧ Inv skip s' b ∧
            s'.cache = s.cache ∧
            s'.disks = s.disks))) s b := by
  have hFail : UsbSpec (return false : UsbM Bool)
      (fun ok s' b' => b' = b ∧
        ((ok = true ∧ s' = s) ∨
          (ok = false ∧ Inv skip s' b ∧
            s'.cache = s.cache ∧
            s'.disks = s.disks))) s b :=
    ⟨hInv.safe, rfl, .inr ⟨rfl, hInv, rfl, rfl⟩⟩
  induction hops with
  | nil => exact ⟨hInv.safe, rfl, .inl ⟨rfl, rfl⟩⟩
  | cons hop rest ih =>
      rw [checkHops]
      apply spec_state
      apply ProgM.spec_ite
      · exact fun _ => hFail
      intro _
      apply ProgM.spec_ite
      · exact fun _ => hFail
      intro _
      apply ProgM.spec_ite
      · exact fun _ => ih
      intro _
      apply spec_hubState hInv.safe
      · intro status
        apply ProgM.spec_ite
        · intro _
          apply spec_update
          apply ProgM.spec_pure hInv.safe
          exact ⟨rfl, .inr ⟨rfl, hInv.setHub _ _, rfl, rfl⟩⟩
        intro _
        apply spec_hubPort hInv.safe
        · intro port
          apply ProgM.spec_ite
          · intro _
            apply spec_update
            apply ProgM.spec_pure hInv.safe
            exact ⟨rfl, .inr ⟨rfl, hInv.setHub _ _, rfl, rfl⟩⟩
          · exact fun _ => ih
        · intro fenced
          apply spec_update
          apply ProgM.spec_pure hInv.safe
          exact ⟨rfl, .inr ⟨rfl, (hInv.fence _ _).setHub _ _, rfl, rfl⟩⟩
      · intro fenced
        apply spec_update
        apply ProgM.spec_pure hInv.safe
        exact ⟨rfl, .inr ⟨rfl, (hInv.fence _ _).setHub _ _, rfl, rfl⟩⟩

/- A check of the route changes nothing, or the route is
  lost. -/
theorem usbRouteCheck_spec
    (hInv : Inv skip s b)
    (disk : Int)
    (poll : Bool) :
    UsbSpec (usbRouteCheck disk poll)
      (Routed skip disk s b) s b := by
  unfold usbRouteCheck
  apply spec_state
  apply ProgM.spec_ite
  · intro hDead
    apply spec_note hInv.safe
    have hNone : leases skip s disk = none := by
      unfold leases
      split
      · rfl
      · cases hLease : leaseOf s disk with
        | none => rfl
        | some e =>
            have hSome := leaseOf_eq_some.mp hLease
            rcases hDead with hRoute | hDead
            · rw [hInv.lost disk hRoute] at hSome
              cases hSome.1
            · rw [hSome.2.1] at hDead
              cases hDead
    exact ⟨hInv.safe, .lost (hInv.drop hNone) rfl rfl
      (fun _ h => h)⟩
  intro hAlive
  rw [not_or, Bool.not_eq_true, Bool.not_eq_true] at hAlive
  apply spec_portStatus hInv.safe
  intro status
  apply ProgM.spec_ite
  · exact fun _ => routeLost_spec hInv rfl rfl rfl
  intro _
  apply ProgM.spec_ite
  · exact fun _ => routeLost_spec hInv rfl rfl rfl
  intro _
  split
  · exact routeLost_spec hInv rfl rfl rfl
  next hops _ =>
  apply (checkHops_spec poll hops hInv).seq
  rintro ok s' b'
    ⟨rfl, ⟨rfl, rfl⟩ | ⟨rfl, hInv', hCache, hDisks⟩⟩
  · exact ⟨hInv.safe, .live hAlive.1 hAlive.2⟩
  · exact routeLost_spec hInv' hCache rfl hDisks

end Route

--
-- Commands
--

section Commands

variable {s : UsbState} {b : Bus}
variable {disk : Int} {cdb : List UInt8}

/-
  What a write asks for: the permission of its disk covers
  it, and the cache holds no sector of the disk.
-/
structure MayWrite
    (s : UsbState)
    (disk : Int)
    (cdb : List UInt8) : Prop where
  allowed : (s.disks disk).writeAllowed = true
  within : (cdbExtent cdb).Within
    ⟨(s.disks disk).writeStart.toNat,
      (s.disks disk).writeCount.toNat⟩
  uncached : Uncached s disk

variable {b' : Bus} {data : Buf} {reply : BotReply}
variable {size : Nat}

/- The cache still mirrors the disks after a command. -/
theorem Bus.Carries.coherent
    (hCarries : b.Carries disk cdb data size reply b')
    (hInv : Inv none s b)
    (hWrite : isWrite cdb = true → MayWrite s disk cdb) :
    Coherent s b' := by
  intro i hValid
  rw [hInv.coherent i hValid]
  by_cases hEq : (s.cache i).disk = disk
  · cases hKind : isWrite cdb with
    | false => rw [hEq, hCarries.kept hKind]
    | true =>
        exact absurd hEq ((hWrite hKind).uncached i hValid)
  · rw [hCarries.others _ hEq]

/- A use is added to the history lawfully. -/
theorem used_lawful
    (hInv : Inv none s b)
    (hDead : s.dead (s.disks disk).hc = false)
    (hWrite : isWrite cdb = true → MayWrite s disk cdb) :
    let log :=
      if isWrite cdb then
        Lease.Entry.use disk (cdbExtent cdb) :: b.log
      else
        b.log
    Lease.Lawful log ∧ Lease.Tracks (leases none s) log := by
  cases hKind : isWrite cdb with
  | false => exact ⟨hInv.safe, hInv.tracks⟩
  | true =>
      have hMay := hWrite hKind
      have hLease : leases none s disk = some
          ⟨(s.disks disk).writeStart.toNat,
            (s.disks disk).writeCount.toNat⟩ :=
        leases_eq_some.mpr ⟨by simp,
          leaseOf_eq_some.mpr ⟨hMay.allowed, hDead, rfl⟩⟩
      exact ⟨hInv.safe.use hInv.tracks hLease hMay.within,
        hInv.tracks.use disk (cdbExtent cdb)⟩

/- A complete command keeps the invariant. -/
theorem Bus.Carries.inv_done
    (hCarries : b.Carries disk cdb data size reply b')
    (hInv : Inv none s b)
    (hDead : s.dead (s.disks disk).hc = false)
    (hWrite : isWrite cdb = true → MayWrite s disk cdb)
    (hDone : reply.result = size) :
    Inv none s b' := by
  have hUsed := used_lawful hInv hDead hWrite
  have hLog := hCarries.log
  unfold Bus.logged at hLog
  rw [decide_eq_true hDone] at hLog
  exact
    { coherent := hCarries.coherent hInv hWrite
      safe := by
        unfold Safe
        rw [hLog]
        exact hUsed.1
      tracks := by
        rw [hLog]
        exact hUsed.2
      lost := hInv.lost }

/- A command that failed costs its disk the lease. -/
theorem Bus.Carries.inv_failed
    (hCarries : b.Carries disk cdb data size reply b')
    (hInv : Inv none s b)
    (hDead : s.dead (s.disks disk).hc = false)
    (hWrite : isWrite cdb = true → MayWrite s disk cdb)
    (hFailed : reply.result ≠ size) :
    Inv (some disk) s b' := by
  have hUsed := used_lawful hInv hDead hWrite
  have hLog := hCarries.log
  unfold Bus.logged at hLog
  rw [decide_eq_false hFailed] at hLog
  exact
    { coherent := hCarries.coherent hInv hWrite
      safe := by
        unfold Safe
        rw [hLog]
        exact hUsed.1
      tracks := by
        rw [hLog]
        apply hUsed.2.drop
        intro k e hLease
        rw [leases_eq_some] at hLease
        refine ⟨?_, leases_eq_some.mpr
          ⟨by simp, hLease.2⟩⟩
        rintro rfl
        exact hLease.1 rfl
      lost := hInv.lost }

/- How a command between two checks of the route ends. -/
structure Commanded
    (disk : Int)
    (cdb : List UInt8)
    (size : Nat)
    (s : UsbState)
    (b : Bus)
    (out : Int × Buf)
    (s' : UsbState)
    (b' : Bus) : Prop where
  inv : Inv (some disk) s' b'
  cache : s'.cache = s.cache
  kept : isWrite cdb = false → b'.media = b.media
  grant : NoGrant s s'
  done : out.1 = size →
    Inv none s' b' ∧ s'.disks = s.disks ∧
      (isRead cdb = true → ∀ i, i < cdbCount cdb →
        dataSector out.2 i =
          b.media disk (cdbLba cdb + i))

/- A failure, whatever came of the route. -/
theorem Commanded.failed
    {s' : UsbState}
    (hInv : Inv (some disk) s' b')
    (hCache : s'.cache = s.cache)
    (hKept : isWrite cdb = false → b'.media = b.media)
    (hGrant : NoGrant s s') :
    Commanded disk cdb size s b (-1, data) s' b' where
  inv := hInv
  cache := hCache
  kept := hKept
  grant := hGrant
  done := by
    intro hDone
    have hNeg : (-1 : Int) = size := hDone
    omega

/- A command that was carried out may still be refused. -/
theorem commandDir_spec
    (hInv : Inv none s b)
    (disk : Int)
    (cdb : List UInt8)
    (input : Bool)
    (data : Buf)
    (size : Nat)
    (hWrite : isWrite cdb = true → MayWrite s disk cdb) :
    UsbSpec (commandDir disk cdb input data size)
      (Commanded disk cdb size s b) s b := by
  unfold commandDir
  apply (usbRouteCheck_spec hInv disk true).seq
  intro ok s' b' hRouted
  cases hRouted with
  | lost hInv' hCache hMedia hGrant =>
      apply ProgM.spec_pure hInv'.safe
      exact .failed (hInv'.leaveOut disk) hCache
        (fun _ => hMedia) hGrant
  | live hRoute hDead =>
      apply spec_bot hInv.safe
      intro reply b₁ hCarries
      have hMedia : isWrite cdb = false →
          b₁.media = b.media := by
        intro hKind
        funext k
        by_cases hEq : k = disk
        · rw [hEq, hCarries.kept hKind]
        · exact hCarries.others k hEq
      by_cases hDone : reply.result = size
      · -- the command was complete
        have hAfter : Inv none
            ({ s with nextTag := s.nextTag + 1 }.fence
              (s.disks disk).hc reply.fenced) b₁ :=
          ((hCarries.inv_done hInv hDead hWrite
            hDone).setTag _).fence _ _
        apply (usbRouteCheck_spec hAfter disk true).seq
        intro ok s₂ b₂ hRouted
        cases hRouted with
        | lost hInv' hCache hMedia' hGrant =>
            apply ProgM.spec_pure hInv'.safe
            exact .failed (hInv'.leaveOut disk) hCache
              (fun hKind => hMedia'.trans (hMedia hKind))
              hGrant
        | live hRoute' hDead' =>
            apply ProgM.spec_pure hAfter.safe
            exact
              { inv := hAfter.leaveOut disk
                cache := rfl
                kept := hMedia
                grant := fun _ h => h
                done := fun _ => ⟨hAfter, rfl, fun hKind =>
                  hCarries.delivered hKind hDone⟩ }
      · -- the command failed, so its disk has no lease
        have hAfter : Inv (some disk)
            ({ s with nextTag := s.nextTag + 1 }.fence
              (s.disks disk).hc reply.fenced) b₁ :=
          ((hCarries.inv_failed hInv hDead hWrite
            hDone).setTag _).fence _ _
        apply (usbRouteCheck_spec hAfter disk true).seq
        intro ok s₂ b₂ hRouted
        cases hRouted with
        | lost hInv' hCache hMedia' hGrant =>
            apply ProgM.spec_pure hInv'.safe
            exact .failed hInv' hCache
              (fun hKind => hMedia'.trans (hMedia hKind))
              hGrant
        | live hRoute' hDead' =>
            apply ProgM.spec_pure hAfter.safe
            exact
              { inv := hAfter
                cache := rfl
                kept := hMedia
                grant := fun _ h => h
                done := fun h => absurd h hDone }

/- Giving up: no permission, and no cached sector. -/
theorem Inv.giveUp
    {skip : Option Int}
    (hInv : Inv skip s b)
    (hSkip : skip = none ∨ skip = some disk) :
    Inv none
      { (s.setDisk disk fun d =>
          { d with writeAllowed := false }) with
        cache := dropCached (s.setDisk disk fun d =>
          { d with writeAllowed := false }).cache disk }
      b :=
  (hInv.setDisk disk _ hSkip rfl).invalidate disk

theorem senseOf_writeAllowed
    (n : Int)
    (sense : Buf)
    (d : UsbDisk) :
    (senseOf n sense d).writeAllowed = d.writeAllowed := by
  unfold senseOf
  simp only
  split
  · rfl
  · split
    · rfl
    · rfl

/- A failed write is diagnosed, and never repeated. -/
theorem writeFailed_spec
    (hInv : Inv (some disk) s b) :
    UsbSpec (writeFailed disk)
      (fun code s' b' => code = -1 ∧ Inv none s' b') s b := by
  unfold writeFailed
  apply spec_update
  apply spec_update
  apply spec_update
  generalize hState : UsbState.setDisk _ disk _ = s₁
  have hForbidden : (s₁.disks disk).writeAllowed = false := by
    rw [← hState]
    simp only [UsbState.setDisk, Function.update_self]
  have hInv₁ : Inv none s₁ b := by
    rw [← hState]
    apply (hInv.giveUp (.inr rfl)).setDisk disk _ (.inl rfl)
    simp only [UsbState.setDisk, Function.update_self]
  apply (commandDir_spec hInv₁ disk
    [3, 0, 0, 0, 18, 0] true .zero 18
    (fun h => by cases h)).seq
  rintro ⟨n, sense⟩ s' b' hCommanded
  apply spec_update
  apply ProgM.spec_pure hCommanded.inv.safe
  refine ⟨rfl, hCommanded.inv.setDisk disk _ (.inr rfl) ?_⟩
  rw [senseOf_writeAllowed, ← Bool.not_eq_true]
  intro hAllowed
  rw [hCommanded.grant disk hAllowed] at hForbidden
  cases hForbidden

end Commands

end KvantOS.Usb
