import Mathlib.Data.List.Basic
import Mathlib.Data.UInt

/-
  This file models the walk over the configuration descriptor
  of a USB device, and proves what a configuration is that
  the walk accepts.

  A read outside of the bytes of a descriptor is modelled as
  no value, and so is a walk that does not come to an end.

  Key definitions include:
    * `usbConfigure`
    * `Describes`: the bytes of a sequence of descriptors
    * `groups`: the interfaces with their endpoints

  Key theorems include:
    * `usbConfigure_spec`
-/

namespace KvantOS.Usb

--
-- Descriptors
--

/- The fields of an interface descriptor. -/
structure Iface where
  number : UInt8
  alternate : UInt8
  endpoints : UInt8
  cls : UInt8
  sub : UInt8
  proto : UInt8

/- The fields of an endpoint descriptor. -/
structure Endpoint where
  address : UInt8
  attributes : UInt8
  packet : Nat
  interval : UInt8

inductive Desc where
  | iface (i : Iface)
  | endpoint (e : Endpoint)
  | other

def readIface (p : List UInt8) : Option Iface := do
  return ⟨← p[2]?, ← p[3]?, ← p[4]?, ← p[5]?, ← p[6]?, ← p[7]?⟩

def readEndpoint (p : List UInt8) : Option Endpoint := do
  let low ← p[4]?
  let high ← p[5]?
  return ⟨← p[2]?, ← p[3]?,
    low.toNat ||| high.toNat <<< 8, ← p[6]?⟩

/- A descriptor of an interface or an endpoint that is too
  short is refused. -/
def readDesc (p : List UInt8) : Option (Option Desc) := do
  let type ← p[1]?
  if type = 4 then
    if p.length < 9 then return none
    return some (.iface (← readIface p))
  else if type = 5 then
    if p.length < 7 then return none
    return some (.endpoint (← readEndpoint p))
  else return some .other

--
-- The Walk
--

/- The fields of `usb_disk_t` that are configured, and the
  locals of the walk. -/
structure Walk where
  iface : UInt8
  inEp : UInt8
  outEp : UInt8
  inMps : Nat
  outMps : Nat
  matching : Bool
  found : Bool
  hub : Nat
  activeHub : Bool
  hubEp : Nat

/- The bulk-only storage interface. -/
def Iface.IsStorage (i : Iface) : Prop :=
  i.alternate = 0 ∧ i.cls = 8 ∧ i.sub = 6 ∧ i.proto = 0x50

instance (i : Iface) : Decidable i.IsStorage :=
  inferInstanceAs (Decidable (_ ∧ _ ∧ _ ∧ _))

/- A hub, in its alternate setting 0. -/
def Iface.IsHub (i : Iface) : Prop :=
  i.alternate = 0 ∧ i.cls = 9 ∧ i.sub = 0

instance (i : Iface) : Decidable i.IsHub :=
  inferInstanceAs (Decidable (_ ∧ _ ∧ _))

/- The endpoints that were wanted are there. -/
def Walk.complete (w : Walk) : Bool :=
  w.matching && w.inEp != 0 && w.outEp != 0

def ifaceStep
    (speed : Nat)
    (w : Walk)
    (i : Iface) : Option Walk :=
  let found := w.found || w.complete
  let w' : Walk :=
    if found = false ∧ i.IsStorage then
      { w with
        found := found, activeHub := false, matching := true
        inEp := 0, outEp := 0, iface := i.number }
    else
      { w with
        found := found, activeHub := false, matching := false }
  if i.IsHub then
    if w.hub ≠ 0 ∨ i.number ≠ 0 ∨ i.endpoints ≠ 1 ∨
        (if speed = 2 then 1 else 0) < i.proto.toNat then
      none
    else
      some { w' with
        hub := 1 + i.proto.toNat, activeHub := true
        iface := i.number }
  else some w'

/- The packet size of a bulk endpoint. -/
def LegalPacket (speed packet : Nat) : Prop :=
  if speed = 2 then packet = 512
  else packet = 8 ∨ packet = 16 ∨ packet = 32 ∨ packet = 64

instance (speed packet : Nat) :
    Decidable (LegalPacket speed packet) := by
  unfold LegalPacket
  infer_instance

def Endpoint.IsBulk (e : Endpoint) : Prop :=
  e.attributes &&& 3 = 2

instance (e : Endpoint) : Decidable e.IsBulk :=
  inferInstanceAs (Decidable (_ = _))

def Endpoint.isIn (e : Endpoint) : Bool :=
  e.address &&& 0x80 != 0

def Endpoint.number (e : Endpoint) : UInt8 :=
  e.address &&& 15

/- What the status endpoint of a hub may not be. -/
def hubEndpointBad
    (speed : Nat)
    (e : Endpoint) : Prop :=
  e.address &&& 0xf0 ≠ 0x80 ∨ e.number = 0 ∨
    e.attributes ≠ 3 ∨ e.packet = 0 ∨
      (if speed = 2 then 1024 else 64) < e.packet ∨
        e.interval = 0 ∨ (speed = 2 ∧ 16 < e.interval)

instance (speed : Nat) (e : Endpoint) :
    Decidable (hubEndpointBad speed e) := by
  unfold hubEndpointBad
  infer_instance

def endpointStep
    (speed : Nat)
    (w : Walk)
    (e : Endpoint) : Option Walk :=
  if w.activeHub then
    if w.hubEp ≠ 0 ∨ hubEndpointBad speed e then none
    else some { w with hubEp := w.hubEp + 1 }
  else if w.matching ∧ e.IsBulk then
    if ¬ LegalPacket speed e.packet then none
    else if e.number = 0 ∨ e.address &&& 0x70 ≠ 0 then none
    else if e.isIn then
      if w.inEp ≠ 0 then none
      else some { w with inEp := e.number, inMps := e.packet }
    else if w.outEp ≠ 0 then none
    else some { w with outEp := e.number, outMps := e.packet }
  else some w

def descStep
    (speed : Nat)
    (w : Walk) : Desc → Option Walk
  | .iface i => ifaceStep speed w i
  | .endpoint e => endpointStep speed w e
  | .other => some w

/- The loop: a fuel of one for each turn, the bytes from
  `pos` on. -/
def descLoop (speed : Nat) :
    Nat → Walk → List UInt8 → Option (Option Walk)
  | 0, _, _ => none
  | fuel + 1, w, rest => do
    if rest.length = 0 then return some w
    if rest.length < 2 then return none
    let n ← rest[0]?
    if n.toNat < 2 ∨ rest.length < n.toNat then return none
    let desc ← readDesc (rest.take n.toNat)
    match desc.bind (descStep speed w) with
    | none => return none
    | some w' => descLoop speed fuel w' (rest.drop n.toNat)

/- `usb_configure`: the fields of the disk and `is_hub`, when
  it does not return 0. -/
def usbConfigure
    (speed : Nat)
    (d : Walk)
    (b : List UInt8) : Option (Option Walk) := do
  if b.length < 9 then return none
  let size ← b[0]?
  let type ← b[1]?
  let low ← b[2]?
  let high ← b[3]?
  let interfaces ← b[4]?
  let value ← b[5]?
  if size < 9 ∨ type ≠ 2 ∨
      low.toNat ||| high.toNat <<< 8 ≠ b.length ∨ value = 0 then
    return none
  let start : Walk :=
    { d with
      matching := false, found := false, hub := 0
      activeHub := false, hubEp := 0 }
  let some w ← descLoop speed (b.length + 1) start b
    | return none
  let w := { w with found := w.found || w.complete }
  if w.hub ≠ 0 ∧ (w.found ∨ w.hubEp ≠ 1 ∨ interfaces ≠ 1) then
    return none
  if w.hub = 0 ∧ w.found = false then return none
  return some w

--
-- Sequences of Descriptors
--

/- The bytes of one descriptor begin with their number. -/
structure IsDescriptor
    (p : List UInt8)
    (x : Desc) : Prop where
  size : ∃ n, p[0]? = some n ∧ n.toNat = p.length
  two : 2 ≤ p.length
  read : readDesc p = some (some x)

inductive Describes : List UInt8 → List Desc → Prop
  | nil : Describes [] []
  | cons {p rest : List UInt8} {x : Desc} {xs : List Desc} :
    IsDescriptor p x →
      Describes rest xs → Describes (p ++ rest) (x :: xs)

/- No byte that a descriptor is read from is missing. -/
theorem readDesc_isSome
    {p : List UInt8}
    (hTwo : 2 ≤ p.length) :
    ∃ r, readDesc p = some r := by
  have hType : p[1]? = some p[1] :=
    List.getElem?_eq_getElem (by omega)
  rw [readDesc, hType]
  by_cases hIface : p[1] = 4
  · by_cases hShort : p.length < 9
    · exact ⟨none, by simp [hIface, hShort]⟩
    · have hRead (k : Nat) (hk : k < 9) :
          p[k]? = some (p.get ⟨k, by omega⟩) :=
        List.getElem?_eq_getElem (by omega)
      simp [hIface, hShort, readIface, hRead]
  · by_cases hEndpoint : p[1] = 5
    · by_cases hShort : p.length < 7
      · exact ⟨none, by simp [hEndpoint, hShort]⟩
      · have hRead (k : Nat) (hk : k < 7) :
            p[k]? = some (p.get ⟨k, by omega⟩) :=
          List.getElem?_eq_getElem (by omega)
        simp [hEndpoint, hShort, readEndpoint, hRead]
    · exact ⟨some .other, by simp [hIface, hEndpoint]⟩

/- The loop ends, and what it does not refuse is a sequence
  of descriptors. -/
theorem descLoop_spec
    (speed : Nat)
    {fuel : Nat}
    {w : Walk}
    {rest : List UInt8}
    (hFuel : rest.length < fuel) :
    ∃ r, descLoop speed fuel w rest = some r ∧
      ∀ w', r = some w' → ∃ xs, Describes rest xs ∧
        xs.foldlM (descStep speed) w = some w' := by
  induction fuel generalizing w rest with
  | zero => omega
  | succ fuel ih =>
    rw [descLoop]
    by_cases hNil : rest.length = 0
    · obtain rfl := List.length_eq_zero_iff.mp hNil
      refine ⟨some w, rfl, fun w' hw => ⟨[], .nil, ?_⟩⟩
      exact hw
    · by_cases hOne : rest.length < 2
      · exact ⟨none, by simp [hNil, hOne], by simp⟩
      · have hHead : rest[0]? = some rest[0] :=
          List.getElem?_eq_getElem (by omega)
        simp only [if_neg hNil, if_neg hOne, hHead,
          Option.bind_eq_bind, Option.bind_some]
        split
        case isTrue => exact ⟨none, rfl, by simp⟩
        case isFalse hBad =>
          have hTake :
              (rest.take rest[0].toNat).length =
                rest[0].toNat := by
            rw [List.length_take]
            omega
          have hTwo :
              2 ≤ (rest.take rest[0].toNat).length := by
            omega
          obtain ⟨desc, hDesc⟩ := readDesc_isSome hTwo
          cases hStep : desc.bind (descStep speed w) with
          | none =>
            rw [hDesc, Option.bind_some, hStep]
            exact ⟨none, rfl, by simp⟩
          | some next =>
            obtain ⟨x, rfl, hNext⟩ :=
              Option.bind_eq_some_iff.mp hStep
            obtain ⟨r, hRun, hSpec⟩ :=
              @ih next (rest.drop rest[0].toNat) (by
                rw [List.length_drop]
                omega)
            refine ⟨r, ?_, fun w' hw => ?_⟩
            · rw [hDesc, Option.bind_some, hStep]
              exact hRun
            · obtain ⟨xs, hXs, hFold⟩ := hSpec w' hw
              have hIs : IsDescriptor
                  (rest.take rest[0].toNat) x := by
                refine ⟨⟨rest[0], ?_, hTake.symm⟩, hTwo,
                  hDesc⟩
                rw [List.getElem?_take_of_lt (by omega), hHead]
              refine ⟨x :: xs, ?_, ?_⟩
              · rw [← List.take_append_drop rest[0].toNat rest]
                exact .cons hIs hXs
              · rw [List.foldlM_cons, hNext]
                exact hFold

--
-- Interfaces and Their Endpoints
--

abbrev Group := Iface × List Endpoint

/- The interfaces that are over, and the one that is open. -/
structure Grouping where
  closed : List Group
  open_ : Option Group

def Grouping.all (g : Grouping) : List Group :=
  g.closed ++ g.open_.toList

def groupStep (g : Grouping) : Desc → Grouping
  | .iface i => ⟨g.all, some (i, [])⟩
  | .endpoint e =>
    ⟨g.closed, g.open_.map fun (i, es) => (i, es ++ [e])⟩
  | .other => g

/- The interfaces of a configuration, each with the endpoints
  that stand before the next one. -/
def groups (xs : List Desc) : List Group :=
  (xs.foldl groupStep ⟨[], none⟩).all

def bulk
    (input : Bool)
    (es : List Endpoint) : List Endpoint :=
  es.filter fun e => e.IsBulk ∧ e.isIn = input

/- A storage interface with one bulk endpoint each way. -/
structure IsDisk
    (speed : Nat)
    (g : Group)
    (ein eout : Endpoint) : Prop where
  storage : g.1.IsStorage
  bulkIn : bulk true g.2 = [ein]
  bulkOut : bulk false g.2 = [eout]
  packetIn : LegalPacket speed ein.packet
  packetOut : LegalPacket speed eout.packet

def HasDisk (speed : Nat) (g : Group) : Prop :=
  ∃ ein eout, IsDisk speed g ein eout

/- The fields of the disk are those of the first disk. -/
def ChoosesFirst
    (speed : Nat)
    (w : Walk)
    (gs : List Group) : Prop :=
  ∃ before g after ein eout, gs = before ++ g :: after ∧
    (∀ g' ∈ before, ¬ HasDisk speed g') ∧
    IsDisk speed g ein eout ∧ w.iface = g.1.number ∧
    w.inEp = ein.number ∧ w.inMps = ein.packet ∧
    w.outEp = eout.number ∧ w.outMps = eout.packet

/- The status endpoint of a hub. -/
def Endpoint.IsStatus (e : Endpoint) : Prop :=
  e.isIn = true ∧ e.attributes = 3

/- One hub, numbered 0, with so many endpoints. -/
def OneHub
    (gs : List Group)
    (count : Nat) : Prop :=
  ∃ before g after, gs = before ++ g :: after ∧
    (∀ g' ∈ before ++ after, ¬ g'.1.IsHub) ∧ g.1.IsHub ∧
    g.1.number = 0 ∧ g.2.length = count ∧
    ∀ e ∈ g.2, e.IsStatus

def NoHub (gs : List Group) : Prop :=
  ∀ g ∈ gs, ¬ g.1.IsHub

--
-- Invariant of the Walk
--

/- What has been seen of the endpoints of one direction. -/
def Side
    (speed : Nat)
    (es : List Endpoint)
    (ep : UInt8)
    (mps : Nat) : Prop :=
  (es = [] ∧ ep = 0) ∨
    ∃ e, es = [e] ∧ LegalPacket speed e.packet ∧
      ep = e.number ∧ ep ≠ 0 ∧ mps = e.packet

/- Whether the disk is still to come, is the open interface,
  or has been found. -/
inductive DiskInv
    (speed : Nat)
    (w : Walk)
    (g : Grouping) : Prop where
  | seeking :
    w.found = false → w.matching = false →
      (∀ h ∈ g.open_, ¬ h.1.IsStorage) →
      (∀ h ∈ g.closed, ¬ HasDisk speed h) → DiskInv speed w g
  | matching (i : Iface) (es : List Endpoint) :
    w.found = false → w.matching = true →
      w.activeHub = false → g.open_ = some (i, es) →
      i.IsStorage → w.iface = i.number →
      Side speed (bulk true es) w.inEp w.inMps →
      Side speed (bulk false es) w.outEp w.outMps →
      (∀ h ∈ g.closed, ¬ HasDisk speed h) →
      DiskInv speed w g
  | found :
    w.found = true → w.matching = false →
      (w.hub = 0 → ChoosesFirst speed w g.closed) →
      DiskInv speed w g

/- Whether a hub is still to come, is the open interface, or
  is over. -/
inductive HubInv
    (w : Walk)
    (g : Grouping) : Prop where
  | none :
    w.hub = 0 → w.activeHub = false → w.hubEp = 0 →
      NoHub g.all → HubInv w g
  | active (i : Iface) (es : List Endpoint) :
    w.hub ≠ 0 → w.activeHub = true → NoHub g.closed →
      g.open_ = some (i, es) → i.IsHub → i.number = 0 →
      es.length = w.hubEp → (∀ e ∈ es, e.IsStatus) →
      HubInv w g
  | past :
    w.hub ≠ 0 → w.activeHub = false →
      OneHub g.closed w.hubEp → NoHub g.open_.toList →
      HubInv w g

theorem OneHub.append
    {gs hs : List Group}
    {count : Nat}
    (h : OneHub gs count)
    (hs_ : NoHub hs) :
    OneHub (gs ++ hs) count := by
  obtain ⟨before, g, after, rfl, hNone, hRest⟩ := h
  refine ⟨before, g, after ++ hs, by simp, ?_, hRest⟩
  intro g' hg'
  rw [← List.append_assoc, List.mem_append] at hg'
  exact hg'.elim (hNone g') (hs_ g')

variable {speed : Nat}

theorem ChoosesFirst.append
    {w : Walk}
    {gs : List Group}
    (h : ChoosesFirst speed w gs)
    (hs : List Group) :
    ChoosesFirst speed w (gs ++ hs) := by
  obtain ⟨before, g, after, ein, eout, rfl, hRest⟩ := h
  exact ⟨before, g, after ++ hs, ein, eout, by simp, hRest⟩

variable {g : Grouping}

/- The open interface is a disk when both endpoints have been
  seen. -/
theorem DiskInv.complete
    {w : Walk}
    (h : DiskInv speed w g)
    (hComplete : w.complete = true) :
    ChoosesFirst speed w g.all := by
  simp only [Walk.complete, Bool.and_eq_true, bne_iff_ne]
    at hComplete
  obtain ⟨⟨hMatching, hIn⟩, hOut⟩ := hComplete
  cases h with
  | seeking _ hNo _ _ => simp [hNo] at hMatching
  | found _ hNo _ => simp [hNo] at hMatching
  | matching i es _ _ _ hOpen hStorage hIface hSideIn hSideOut
      hBefore =>
    obtain ⟨-, h0⟩ | ⟨ein, hein, hLegalIn, hNumIn, -, hMpsIn⟩ :=
      hSideIn
    · exact absurd h0 hIn
    obtain ⟨-, h0⟩ |
        ⟨eout, heout, hLegalOut, hNumOut, -, hMpsOut⟩ :=
      hSideOut
    · exact absurd h0 hOut
    refine ⟨g.closed, (i, es), [], ein, eout, ?_, hBefore,
      ⟨hStorage, hein, heout, hLegalIn, hLegalOut⟩, hIface,
      hNumIn, hMpsIn, hNumOut, hMpsOut⟩
    rw [Grouping.all, hOpen, Option.toList_some]

/- An interface that is not complete is no disk. -/
theorem DiskInv.incomplete
    {w : Walk}
    (h : DiskInv speed w g)
    (hFound : w.found = false)
    (hComplete : w.complete = false) :
    ∀ k ∈ g.all, ¬ HasDisk speed k := by
  cases h with
  | seeking _ _ hOpen hClosed =>
    intro k hk
    rw [Grouping.all, List.mem_append, Option.mem_toList] at hk
    rcases hk with hk | hk
    · exact hClosed k hk
    · rintro ⟨ein, eout, hDisk⟩
      exact hOpen k hk hDisk.storage
  | found hYes _ _ => simp [hFound] at hYes
  | matching i es _ hMatching _ hOpen _ _ hSideIn hSideOut
      hBefore =>
    intro k hk
    rw [Grouping.all, hOpen, Option.toList_some,
      List.mem_append, List.mem_singleton] at hk
    rcases hk with hk | rfl
    · exact hBefore k hk
    · rintro ⟨ein, eout, -, hein, heout, -, -⟩
      obtain ⟨h0, -⟩ | ⟨e, -, -, -, hIn, -⟩ := hSideIn
      · simp [h0] at hein
      obtain ⟨h0, -⟩ | ⟨e, -, -, -, hOut, -⟩ := hSideOut
      · simp [h0] at heout
      simp [Walk.complete, hMatching, hIn, hOut] at hComplete

--
-- Steps of the Walk
--

variable {i : Iface}

theorem Iface.IsStorage.not_isHub
    (h : i.IsStorage) : ¬ i.IsHub := by
  rintro ⟨-, hHub, -⟩
  exact absurd (h.2.1.symm.trans hHub) (by decide)

variable {w w' : Walk}

/- A hub that is accepted is the first. -/
theorem ifaceStep_isHub
    (hHub : i.IsHub)
    (hStep : ifaceStep speed w i = some w') :
    w.hub = 0 ∧ i.number = 0 ∧
      w' = { w with
        found := w.found || w.complete
        matching := false
        hub := 1 + i.proto.toNat, activeHub := true
        iface := i.number } := by
  have hStorage : ¬ i.IsStorage := fun h => h.not_isHub hHub
  simp only [ifaceStep, if_pos hHub, hStorage, and_false,
    if_false, Option.ite_none_left_eq_some, Option.some.injEq,
    not_or, not_not] at hStep
  exact ⟨hStep.1.1, hStep.1.2.1, hStep.2.symm⟩

theorem ifaceStep_not_isHub
    (hHub : ¬ i.IsHub)
    (hStep : ifaceStep speed w i = some w') :
    w' =
      if (w.found || w.complete) = false ∧ i.IsStorage then
        { w with
          found := w.found || w.complete, activeHub := false
          matching := true, inEp := 0, outEp := 0
          iface := i.number }
      else
        { w with
          found := w.found || w.complete, activeHub := false
          matching := false } := by
  rw [ifaceStep, if_neg hHub, Option.some.injEq] at hStep
  exact hStep.symm

theorem ifaceStep_disk
    (h : DiskInv speed w g)
    (hStep : ifaceStep speed w i = some w') :
    DiskInv speed w' (groupStep g (.iface i)) := by
  have hChosen (hFound : (w.found || w.complete) = true)
      (hZero : w.hub = 0) : ChoosesFirst speed w g.all := by
    cases hOld : w.complete with
    | true => exact h.complete hOld
    | false =>
      rw [hOld, Bool.or_false] at hFound
      cases h with
      | seeking hNo _ _ _ => simp [hFound] at hNo
      | matching _ _ hNo _ _ _ _ _ _ _ _ =>
        simp [hFound] at hNo
      | found _ _ hFirst => exact (hFirst hZero).append _
  have hNone (hFound : (w.found || w.complete) = false) :
      ∀ k ∈ g.all, ¬ HasDisk speed k :=
    h.incomplete (Bool.or_eq_false_iff.mp hFound).1
      (Bool.or_eq_false_iff.mp hFound).2
  have hOther (hStorage : ¬ i.IsStorage) :
      ∀ k ∈ (groupStep g (.iface i)).open_,
        ¬ k.1.IsStorage := by
    rintro k hk
    obtain rfl := Option.some.inj hk
    exact hStorage
  cases hFound : w.found || w.complete with
  | true =>
    by_cases hHub : i.IsHub
    · obtain ⟨-, -, rfl⟩ := ifaceStep_isHub hHub hStep
      refine .found hFound rfl fun hZero => ?_
      exact absurd hZero (by simp)
    · rw [ifaceStep_not_isHub hHub hStep, hFound,
        if_neg (by simp)]
      exact .found rfl rfl (hChosen hFound)
  | false =>
    by_cases hHub : i.IsHub
    · obtain ⟨-, -, rfl⟩ := ifaceStep_isHub hHub hStep
      exact .seeking hFound rfl
        (hOther fun hStorage => hStorage.not_isHub hHub)
        (hNone hFound)
    · rw [ifaceStep_not_isHub hHub hStep, hFound]
      by_cases hStorage : i.IsStorage
      · rw [if_pos ⟨rfl, hStorage⟩]
        exact .matching i [] rfl rfl rfl rfl hStorage rfl
          (.inl ⟨rfl, rfl⟩) (.inl ⟨rfl, rfl⟩) (hNone hFound)
      · rw [if_neg fun hBoth => hStorage hBoth.2]
        exact .seeking rfl rfl (hOther hStorage)
          (hNone hFound)

theorem ifaceStep_hub
    (h : HubInv w g)
    (hStep : ifaceStep speed w i = some w') :
    HubInv w' (groupStep g (.iface i)) := by
  by_cases hHub : i.IsHub
  · obtain ⟨hZero, hNumber, rfl⟩ :=
      ifaceStep_isHub hHub hStep
    cases h with
    | none _ _ hEp hNone =>
      exact .active i [] (by simp) rfl hNone rfl hHub hNumber
        hEp.symm (by simp)
    | active _ _ hSome => exact absurd hZero hSome
    | past hSome => exact absurd hZero hSome
  · have hOpen : NoHub
        (groupStep g (.iface i)).open_.toList := by
      intro k hk
      obtain rfl := List.mem_singleton.mp hk
      exact hHub
    have hFields : w'.hub = w.hub ∧ w'.hubEp = w.hubEp ∧
        w'.activeHub = false := by
      rw [ifaceStep_not_isHub hHub hStep]
      split <;> exact ⟨rfl, rfl, rfl⟩
    obtain ⟨hHubEq, hEpEq, hActive⟩ := hFields
    cases h with
    | none hZero _ hEp hNone =>
      refine .none (hHubEq.trans hZero) hActive
        (hEpEq.trans hEp) fun k hk => ?_
      exact (List.mem_append.mp hk).elim (hNone k) (hOpen k)
    | active j es hSome _ hNone hCur hIs hNumber hLen hAll =>
      refine .past (hHubEq ▸ hSome) hActive ?_ hOpen
      refine ⟨g.closed, (j, es), [], ?_, ?_, hIs, hNumber,
        hLen.trans hEpEq.symm, hAll⟩
      · exact congrArg (g.closed ++ Option.toList ·) hCur
      · rw [List.append_nil]
        exact hNone
    | past hSome _ hOne hNone =>
      exact .past (hHubEq ▸ hSome) hActive
        (hEpEq ▸ hOne.append hNone) hOpen

theorem bulk_append
    (input : Bool)
    (es : List Endpoint)
    (e : Endpoint) :
    bulk input (es ++ [e]) =
      bulk input es ++
        if e.IsBulk ∧ e.isIn = input then [e] else [] := by
  rw [bulk, List.filter_append]
  by_cases hBoth : e.IsBulk ∧ e.isIn = input <;>
    simp [bulk, hBoth]

variable {e : Endpoint}

/- One more endpoint of a direction that had none. -/
theorem Side.push
    {es : List Endpoint}
    {ep : UInt8}
    {mps : Nat}
    (h : Side speed es ep mps)
    (hZero : ep = 0)
    (hLegal : LegalPacket speed e.packet)
    (hNumber : e.number ≠ 0) :
    Side speed (es ++ [e]) e.number e.packet := by
  rcases h with ⟨rfl, -⟩ | ⟨-, -, -, -, hNe, -⟩
  · exact .inr ⟨e, rfl, hLegal, rfl, hNumber, rfl⟩
  · exact absurd hZero hNe

/- The open interface stays the same interface. -/
theorem groupStep_endpoint_open
    (g : Grouping)
    (e : Endpoint)
    (P : Iface → Prop)
    (h : ∀ k ∈ g.open_, P k.1) :
    ∀ k ∈ (groupStep g (.endpoint e)).open_, P k.1 := by
  intro k hk
  obtain ⟨⟨i, es⟩, hOpen, rfl⟩ := Option.mem_map.mp hk
  exact h (i, es) hOpen

/- Outside of a storage interface at most the endpoints of a
  hub are counted. -/
theorem endpointStep_other
    (hMatching : w.matching = false)
    (hStep : endpointStep speed w e = some w') :
    w' = { w with hubEp := w'.hubEp } := by
  rw [endpointStep] at hStep
  by_cases hActive : w.activeHub = true
  · rw [if_pos hActive, Option.ite_none_left_eq_some]
      at hStep
    obtain rfl := Option.some.inj hStep.2
    rfl
  · rw [if_neg hActive, if_neg (by simp [hMatching])] at hStep
    obtain rfl := Option.some.inj hStep
    rfl

theorem endpointStep_disk
    (h : DiskInv speed w g)
    (hStep : endpointStep speed w e = some w') :
    DiskInv speed w' (groupStep g (.endpoint e)) := by
  cases h with
  | seeking hFound hMatching hOpen hClosed =>
    rw [endpointStep_other hMatching hStep]
    exact .seeking hFound hMatching
      (groupStep_endpoint_open g e (¬ ·.IsStorage) hOpen)
      hClosed
  | found hFound hMatching hFirst =>
    rw [endpointStep_other hMatching hStep]
    exact .found hFound hMatching hFirst
  | matching i es hFound hMatching hActive hOpen hStorage
      hIface hSideIn hSideOut hClosed =>
    have hOpen' : (groupStep g (.endpoint e)).open_ =
        some (i, es ++ [e]) := by
      rw [groupStep, hOpen, Option.map_some]
    rw [endpointStep, if_neg (by simp [hActive])] at hStep
    by_cases hBulk : e.IsBulk
    · rw [if_pos ⟨hMatching, hBulk⟩] at hStep
      simp only [Option.ite_none_left_eq_some, not_not]
        at hStep
      obtain ⟨hLegal, hNumber, hStep⟩ := hStep
      have hNum : e.number ≠ 0 := fun hZero =>
        hNumber (.inl hZero)
      cases hIn : e.isIn with
      | true =>
        rw [if_pos hIn, Option.ite_none_left_eq_some,
          not_not] at hStep
        obtain ⟨hZero, hEq⟩ := hStep
        obtain rfl := Option.some.inj hEq
        refine .matching i (es ++ [e]) hFound hMatching
          hActive hOpen' hStorage hIface ?_ ?_ hClosed
        · rw [bulk_append, if_pos ⟨hBulk, hIn⟩]
          exact hSideIn.push hZero hLegal hNum
        · rw [bulk_append, if_neg (by simp [hIn]),
            List.append_nil]
          exact hSideOut
      | false =>
        rw [if_neg (by simp [hIn]),
          Option.ite_none_left_eq_some, not_not] at hStep
        obtain ⟨hZero, hEq⟩ := hStep
        obtain rfl := Option.some.inj hEq
        refine .matching i (es ++ [e]) hFound hMatching
          hActive hOpen' hStorage hIface ?_ ?_ hClosed
        · rw [bulk_append, if_neg (by simp [hIn]),
            List.append_nil]
          exact hSideIn
        · rw [bulk_append, if_pos ⟨hBulk, hIn⟩]
          exact hSideOut.push hZero hLegal hNum
    · rw [if_neg fun hBoth => hBulk hBoth.2] at hStep
      obtain rfl := Option.some.inj hStep
      refine .matching i (es ++ [e]) hFound hMatching hActive
        hOpen' hStorage hIface ?_ ?_ hClosed
      all_goals
        rw [bulk_append, if_neg (by simp [hBulk]),
          List.append_nil]
        assumption

/- An endpoint that a hub accepts is a status endpoint. -/
theorem isStatus_of_not_bad
    (h : ¬ hubEndpointBad speed e) :
    e.IsStatus := by
  simp only [hubEndpointBad, not_or, not_not] at h
  refine ⟨?_, h.2.2.1⟩
  have hBit : e.address &&& 0x80 =
      e.address &&& 0xf0 &&& 0x80 := by
    rw [UInt8.and_assoc]
    rfl
  rw [Endpoint.isIn, hBit, h.1]
  rfl

theorem endpointStep_hub
    (h : HubInv w g)
    (hStep : endpointStep speed w e = some w') :
    HubInv w' (groupStep g (.endpoint e)) := by
  cases hActive : w.activeHub with
  | true =>
    rw [endpointStep, hActive, if_pos rfl,
      Option.ite_none_left_eq_some] at hStep
    obtain ⟨hBad, hEq⟩ := hStep
    obtain rfl := Option.some.inj hEq
    have hStatus := isStatus_of_not_bad (not_or.mp hBad).2
    cases h with
    | none _ hNo => simp [hActive] at hNo
    | past _ hNo => simp [hActive] at hNo
    | active i es hSome _ hNone hCur hIs hNumber hLen hAll =>
      refine .active i (es ++ [e]) hSome rfl hNone ?_ hIs
        hNumber ?_ ?_
      · rw [groupStep, hCur, Option.map_some]
      · rw [List.length_append, hLen, List.length_singleton]
      · simpa [or_imp, forall_and] using ⟨hAll, hStatus⟩
  | false =>
    have hFields : w'.hub = w.hub ∧ w'.hubEp = w.hubEp ∧
        w'.activeHub = false := by
      rw [endpointStep, if_neg (by simp [hActive])] at hStep
      split_ifs at hStep <;>
        first
          | contradiction
          | exact Option.some.inj hStep ▸ ⟨rfl, rfl, hActive⟩
    obtain ⟨hHubEq, hEpEq, hActive'⟩ := hFields
    cases h with
    | none hZero _ hEp hNone =>
      refine .none (hHubEq.trans hZero) hActive'
        (hEpEq.trans hEp) fun k hk => ?_
      rcases List.mem_append.mp hk with hk | hk
      · exact hNone k (List.mem_append_left _ hk)
      · refine groupStep_endpoint_open g e (¬ ·.IsHub)
          (fun j hj => ?_) k (Option.mem_toList.mp hk)
        exact hNone j (List.mem_append_right _
          (Option.mem_toList.mpr hj))
    | active _ _ _ hYes => simp [hActive] at hYes
    | past hSome _ hOne hNone =>
      refine .past (hHubEq ▸ hSome) hActive' (hEpEq ▸ hOne)
        fun k hk => ?_
      refine groupStep_endpoint_open g e (¬ ·.IsHub)
        (fun j hj => ?_) k (Option.mem_toList.mp hk)
      exact hNone j (Option.mem_toList.mpr hj)

--
-- Whole Configurations
--

theorem foldlM_inv
    (hDisk : DiskInv speed w g)
    (hHub : HubInv w g)
    {xs : List Desc}
    (hFold : xs.foldlM (descStep speed) w = some w') :
    DiskInv speed w' (xs.foldl groupStep g) ∧
      HubInv w' (xs.foldl groupStep g) := by
  induction xs generalizing w g with
  | nil =>
    obtain rfl := Option.some.inj hFold
    exact ⟨hDisk, hHub⟩
  | cons x xs ih =>
    rw [List.foldlM_cons] at hFold
    obtain ⟨next, hStep, hRest⟩ :=
      Option.bind_eq_some_iff.mp hFold
    cases x with
    | iface i =>
      exact ih (ifaceStep_disk hDisk hStep)
        (ifaceStep_hub hHub hStep) hRest
    | endpoint e =>
      exact ih (endpointStep_disk hDisk hStep)
        (endpointStep_hub hHub hStep) hRest
    | other =>
      obtain rfl := Option.some.inj hStep
      exact ih hDisk hHub hRest

/- What an accepted walk says of the interfaces. -/
def Accepted
    (speed : Nat)
    (w : Walk)
    (b : List UInt8)
    (gs : List Group) : Prop :=
  (w.hub = 0 → ChoosesFirst speed w gs ∧ NoHub gs) ∧
    (w.hub ≠ 0 → OneHub gs 1 ∧ b[4]? = some 1 ∧
      ∀ g ∈ gs, ¬ HasDisk speed g)

/- The checks after the loop. -/
theorem accepted_of_inv
    (hDisk : DiskInv speed w g)
    (hHub : HubInv w g)
    {b : List UInt8}
    {interfaces : UInt8}
    (hFour : b[4]? = some interfaces)
    (hRefuse : ¬ (w.hub ≠ 0 ∧
      ((w.found || w.complete) ∨ w.hubEp ≠ 1 ∨
        interfaces ≠ 1)))
    (hNone : ¬ (w.hub = 0 ∧
      (w.found || w.complete) = false)) :
    Accepted speed
      { w with found := w.found || w.complete } b g.all := by
  constructor
  · intro hZero
    change w.hub = 0 at hZero
    have hFound : (w.found || w.complete) = true :=
      Bool.eq_true_of_not_eq_false fun hNo =>
        hNone ⟨hZero, hNo⟩
    refine ⟨?_, ?_⟩
    · cases hComplete : w.complete with
      | true => exact hDisk.complete hComplete
      | false =>
        rw [hComplete, Bool.or_false] at hFound
        cases hDisk with
        | seeking hNo => simp [hFound] at hNo
        | matching _ _ hNo => simp [hFound] at hNo
        | found _ _ hFirst => exact (hFirst hZero).append _
    · cases hHub with
      | none _ _ _ hAll => exact hAll
      | active _ _ hSome => exact absurd hZero hSome
      | past hSome => exact absurd hZero hSome
  · intro hSome
    change w.hub ≠ 0 at hSome
    simp only [ne_eq, hSome, not_false_eq_true, true_and,
      not_or, not_not, Bool.not_eq_true,
      Bool.or_eq_false_iff] at hRefuse
    obtain ⟨⟨hFound, hComplete⟩, hEp, rfl⟩ := hRefuse
    refine ⟨?_, hFour, hDisk.incomplete hFound hComplete⟩
    cases hHub with
    | none hZero => exact absurd hZero hSome
    | active i es _ _ hOld hOpen hIs hNumber hLen hAll =>
      refine ⟨g.closed, (i, es), [], ?_, ?_, hIs, hNumber,
        hLen.trans hEp, hAll⟩
      · rw [Grouping.all, hOpen, Option.toList_some]
      · rw [List.append_nil]
        exact hOld
    | past _ _ hOne hOpen => exact (hEp ▸ hOne).append hOpen

/- The first bytes of a configuration, and its length. -/
def IsConfiguration (b : List UInt8) : Prop :=
  b[1]? = some 2 ∧ ∃ low high, b[2]? = some low ∧
    b[3]? = some high ∧
      low.toNat ||| high.toNat <<< 8 = b.length

/-
  The walk reads only the bytes it is given and ends. What it
  accepts is a configuration, a sequence of descriptors. As a
  disk it is the first interface that is one, and there is no
  hub in an alternate setting 0; as a hub it has one hub, the
  only interface, with one status endpoint, and no disk.
-/
theorem usbConfigure_spec
    (speed : Nat)
    (d : Walk)
    (b : List UInt8) :
    ∃ r, usbConfigure speed d b = some r ∧
      ∀ w, r = some w → ∃ xs, Describes b xs ∧
        IsConfiguration b ∧
          Accepted speed w b (groups xs) := by
  rw [usbConfigure]
  by_cases hShort : b.length < 9
  · exact ⟨none, by simp [hShort], by simp⟩
  have hRead (k : Nat) (hk : k < 6) :
      b[k]? = some (b.get ⟨k, by omega⟩) :=
    List.getElem?_eq_getElem (by omega)
  simp only [hShort, if_false, hRead 0 (by omega),
    hRead 1 (by omega), hRead 2 (by omega),
    hRead 3 (by omega), hRead 4 (by omega),
    hRead 5 (by omega), Option.bind_eq_bind,
    Option.bind_some]
  split
  case isTrue => exact ⟨none, rfl, by simp⟩
  case isFalse hHeader =>
    simp only [not_or, not_not] at hHeader
    let start : Walk :=
      { d with
        matching := false, found := false, hub := 0
        activeHub := false, hubEp := 0 }
    obtain ⟨r, hRun, hLoop⟩ :=
      descLoop_spec speed (w := start) (Nat.lt_succ_self b.length)
    rw [hRun]
    cases r with
    | none => exact ⟨none, rfl, by simp⟩
    | some w =>
      obtain ⟨xs, hXs, hFold⟩ := hLoop w rfl
      have hInv := foldlM_inv (g := ⟨[], none⟩)
        (.seeking rfl rfl (by simp) (by simp))
        (.none rfl rfl rfl (by simp [NoHub, Grouping.all]))
        hFold
      simp only [Option.bind_some]
      split
      case isTrue => exact ⟨none, rfl, by simp⟩
      case isFalse hRefuse =>
        split
        case isTrue => exact ⟨none, rfl, by simp⟩
        case isFalse hNone =>
          refine ⟨_, rfl, fun w' hw => ⟨xs, hXs, ?_, ?_⟩⟩
          · exact ⟨(hRead 1 (by omega)).trans
              (congrArg some hHeader.2.1), _, _,
              hRead 2 (by omega), hRead 3 (by omega),
              hHeader.2.2.1⟩
          · obtain rfl := Option.some.inj hw
            exact accepted_of_inv hInv.1 hInv.2
              (hRead 4 (by omega)) hRefuse hNone

/- A disk, and an alternate setting of a hub behind it. -/
def diskAndHub : List UInt8 :=
  [9, 2, 41, 0, 2, 1, 0, 0x80, 50] ++
    ([9, 4, 0, 0, 2, 8, 6, 0x50, 0] ++
      ([7, 5, 0x81, 2, 64, 0, 0] ++
        ([7, 5, 2, 2, 64, 0, 0] ++
          ([9, 4, 1, 1, 1, 9, 0, 0, 0] ++ []))))

/- Only the alternate setting 0 of a hub is looked at. -/
theorem usbConfigure_alternate_hub :
    ∃ w xs g,
      usbConfigure 0
          ⟨0, 0, 0, 0, 0, false, false, 0, false, 0⟩
          diskAndHub = some (some w) ∧
        w.hub = 0 ∧ Describes diskAndHub xs ∧
        g ∈ groups xs ∧ g.1.cls = 9 ∧ g.1.sub = 0 := by
  refine ⟨_, _, (⟨1, 1, 1, 9, 0, 0⟩, []), rfl, rfl,
    .cons (x := .other) ⟨⟨9, rfl, rfl⟩, by decide, rfl⟩
      (.cons (x := .iface ⟨0, 0, 2, 8, 6, 0x50⟩)
        ⟨⟨9, rfl, rfl⟩, by decide, rfl⟩
        (.cons (x := .endpoint ⟨0x81, 2, 64, 0⟩)
          ⟨⟨7, rfl, rfl⟩, by decide, rfl⟩
          (.cons (x := .endpoint ⟨2, 2, 64, 0⟩)
            ⟨⟨7, rfl, rfl⟩, by decide, rfl⟩
            (.cons (x := .iface ⟨1, 1, 1, 9, 0, 0⟩)
              ⟨⟨9, rfl, rfl⟩, by decide, rfl⟩ .nil)))), ?_, rfl, rfl⟩
  exact List.mem_append_right _ (.head _)

end KvantOS.Usb
