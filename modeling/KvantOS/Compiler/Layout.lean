import KvantOS.Compiler.Types
import Mathlib.Order.MinMax

/-
  This file proves that the structs of the compiler are laid
  out soundly: the tables only grow, and every field that is
  entered keeps the layout of its struct.

  Key definitions include:
    * `Grows`
    * `Laid`, `SoundRecord`, `Sound`
    * `Building`

  Key theorems include:
    * `typeBytes_grows`, `SoundRecord.grows`, `sound_finish`
-/

namespace KvantOS.Compiler

variable {target : Target}

/-
  Nothing is taken out of the tables, and a struct that is
  complete stays as it is.
-/
structure Grows (T G : Tables) : Prop where
  records : ∀ (id : Nat) (record : Record),
    T.records[id]? = some record →
    ∃ record' : Record, G.records[id]? = some record' ∧
      record'.name = record.name ∧
      record'.anon = record.anon ∧
      (record.complete = true → record' = record)
  members : T.members <+: G.members
  aliases : T.aliases <+: G.aliases

theorem Grows.refl (T : Tables) : Grows T T where
  records _ record hGet := ⟨record, hGet, rfl, rfl, fun _ => rfl⟩
  members := List.prefix_rfl
  aliases := List.prefix_rfl

theorem Grows.trans
    {T G H : Tables}
    (hLeft : Grows T G)
    (hRight : Grows G H) :
    Grows T H where
  records := by
    intro id record hGet
    obtain ⟨g, hG, hName, hAnon, hSame⟩ :=
      hLeft.records id record hGet
    obtain ⟨h, hH, hName', hAnon', hSame'⟩ :=
      hRight.records id g hG
    refine ⟨h, hH, hName'.trans hName, hAnon'.trans hAnon, ?_⟩
    intro hComplete
    obtain rfl := hSame hComplete
    exact hSame' hComplete
  members := hLeft.members.trans hRight.members
  aliases := hLeft.aliases.trans hRight.aliases

variable {id : Nat} {record : Record}

/- A complete struct is found again. -/
theorem Grows.complete
    {T G : Tables}
    (hGrows : Grows T G)
    (hGet : T.records[id]? = some record)
    (hComplete : record.complete = true) :
    G.records[id]? = some record := by
  obtain ⟨g, hG, -, -, hSame⟩ := hGrows.records id record hGet
  rw [hG, hSame hComplete]

/- Members that are there stay where they are. -/
theorem Grows.slice
    {T G : Tables}
    (hGrows : Grows T G)
    {first count : Nat}
    (hRoom : first + count ≤ T.members.length) :
    (G.members.drop first).take count =
      (T.members.drop first).take count := by
  obtain ⟨more, hMore⟩ := hGrows.members
  rw [← hMore, List.drop_append_of_le_length (by omega),
    List.take_append_of_le_length (by
      rw [List.length_drop]
      omega)]

--
-- Layouts
--

/- The alignments of types. -/
def IsAlign (n : Nat) : Prop :=
  n = 1 ∨ n = 4 ∨ n = 8

theorem IsAlign.pos
    {n : Nat}
    (hAlign : IsAlign n) :
    0 < n := by
  rcases hAlign with rfl | rfl | rfl <;> decide

theorem IsAlign.max
    {n m : Nat}
    (hLeft : IsAlign n)
    (hRight : IsAlign m) :
    IsAlign (max n m) := by
  rcases max_choice n m with hMax | hMax <;> rw [hMax]
  · exact hLeft
  · exact hRight

/-
  Members are laid out in `bytes` bytes: in order, disjoint,
  at multiples of their alignments, of which `align` is the
  largest. A struct among them is complete, with members
  before `first`.
-/
structure Laid
    (target : Target)
    (T : Tables)
    (first : Nat)
    (ms : List Member)
    (bytes align : Nat) : Prop where
  sized : ∀ m ∈ ms, typeBytes target T m.type ≠ 0
  aligned : ∀ m ∈ ms, typeAlign target T m.type ∣ m.offset
  inside : ∀ m ∈ ms, m.offset + m.extent target T ≤ bytes
  ordered : ms.Pairwise
    (fun m m' => m.offset + m.extent target T ≤ m'.offset)
  bounded : ∀ m ∈ ms, typeAlign target T m.type ≤ align
  reached : ms ≠ [] →
    ∃ m ∈ ms, typeAlign target T m.type = align
  earlier : ∀ m ∈ ms, ∀ id, m.type.record? = some id →
    ∃ record : Record, T.records[id]? = some record ∧
      record.complete = true ∧
      record.first + record.count ≤ first

/- The members of a struct. -/
def Record.members
    (record : Record)
    (T : Tables) : List Member :=
  (T.members.drop record.first).take record.count

/- A complete struct. -/
structure SoundRecord
    (target : Target)
    (T : Tables)
    (record : Record) : Prop where
  some : 0 < record.count
  room : record.first + record.count ≤ T.members.length
  laid : Laid target T record.first (record.members T)
    record.bytes record.align
  whole : record.align ∣ record.bytes
  small : record.bytes ≤ dataMax

/- The tables are sound. -/
structure Sound
    (target : Target)
    (T : Tables) : Prop where
  aligns : ∀ (id : Nat) (record : Record),
    T.records[id]? = some record →
    IsAlign record.align
  blank : ∀ (id : Nat) (record : Record),
    T.records[id]? = some record →
    record.complete = false → record.bytes = 0
  sound : ∀ (id : Nat) (record : Record),
    T.records[id]? = some record →
    record.complete = true → SoundRecord target T record

variable {T : Tables}

theorem typeAlign_isAlign
    (hSound : Sound target T)
    (t : Ty) :
    IsAlign (typeAlign target T t) := by
  match t with
  | ⟨_, _ + 1⟩ =>
      cases target with
      | i386 => exact .inr (.inl rfl)
      | x64 => exact .inr (.inr rfl)
  | ⟨.record id, 0⟩ =>
      rw [typeAlign]
      cases hGet : T.records[id]? with
      | none => exact .inl rfl
      | some record => exact hSound.aligns id record hGet
  | ⟨.char, 0⟩ => exact .inl rfl
  | ⟨.void, 0⟩ => exact .inl rfl
  | ⟨.int, 0⟩ => exact .inr (.inl rfl)

/- A struct with a size is complete. -/
theorem complete_of_typeBytes
    (hSound : Sound target T)
    (hBytes : typeBytes target T ⟨.record id, 0⟩ ≠ 0) :
    ∃ record : Record, T.records[id]? = some record ∧
      record.complete = true := by
  rw [typeBytes] at hBytes
  cases hGet : T.records[id]? with
  | none =>
      rw [hGet] at hBytes
      exact absurd rfl hBytes
  | some record =>
      refine ⟨record, rfl, ?_⟩
      by_contra hComplete
      rw [hGet] at hBytes
      exact hBytes (hSound.blank id record hGet
        (Bool.eq_false_iff.mpr hComplete))

/- The size of a type stays, once it has one. -/
theorem typeBytes_grows
    {T G : Tables}
    (hSound : Sound target T)
    (hGrows : Grows T G)
    {t : Ty}
    (hBytes : typeBytes target T t ≠ 0) :
    typeBytes target G t = typeBytes target T t ∧
      typeAlign target G t = typeAlign target T t := by
  match t with
  | ⟨_, _ + 1⟩ => exact ⟨rfl, rfl⟩
  | ⟨.record id, 0⟩ =>
      obtain ⟨record, hGet, hComplete⟩ :=
        complete_of_typeBytes hSound hBytes
      have hGet' := hGrows.complete hGet hComplete
      simp only [typeBytes, typeAlign, hGet, hGet', and_self]
  | ⟨.char, 0⟩ => exact ⟨rfl, rfl⟩
  | ⟨.void, 0⟩ => exact ⟨rfl, rfl⟩
  | ⟨.int, 0⟩ => exact ⟨rfl, rfl⟩

variable {m : Member}

theorem extent_grows
    {T G : Tables}
    (hSound : Sound target T)
    (hGrows : Grows T G)
    (hBytes : typeBytes target T m.type ≠ 0) :
    m.extent target G = m.extent target T := by
  rw [Member.extent, Member.extent,
    (typeBytes_grows hSound hGrows hBytes).1]

variable {ms : List Member}

variable {first bytes align : Nat}

/- A layout stays when the tables grow. -/
theorem Laid.grows
    {T G : Tables}
    (hLaid : Laid target T first ms bytes align)
    (hSound : Sound target T)
    (hGrows : Grows T G) :
    Laid target G first ms bytes align := by
  have hType := fun m hMem =>
    typeBytes_grows hSound hGrows (hLaid.sized m hMem)
  have hExtent := fun m hMem =>
    extent_grows hSound hGrows (hLaid.sized m hMem)
  constructor
  · intro m hMem
    rw [(hType m hMem).1]
    exact hLaid.sized m hMem
  · intro m hMem
    rw [(hType m hMem).2]
    exact hLaid.aligned m hMem
  · intro m hMem
    rw [hExtent m hMem]
    exact hLaid.inside m hMem
  · refine hLaid.ordered.imp_of_mem ?_
    intro m m' hMem _ hBefore
    rw [hExtent m hMem]
    exact hBefore
  · intro m hMem
    rw [(hType m hMem).2]
    exact hLaid.bounded m hMem
  · intro hSome
    obtain ⟨m, hMem, hAlign⟩ := hLaid.reached hSome
    exact ⟨m, hMem, (hType m hMem).2.trans hAlign⟩
  · intro m hMem id hRecord
    obtain ⟨record, hGet, hComplete, hFirst⟩ :=
      hLaid.earlier m hMem id hRecord
    exact ⟨record, hGrows.complete hGet hComplete,
      hComplete, hFirst⟩

theorem SoundRecord.grows
    {T G : Tables}
    (hRecord : SoundRecord target T record)
    (hSound : Sound target T)
    (hGrows : Grows T G) :
    SoundRecord target G record where
  some := hRecord.some
  room := le_trans hRecord.room hGrows.members.length_le
  laid := by
    rw [Record.members, hGrows.slice hRecord.room]
    exact hRecord.laid.grows hSound hGrows
  whole := hRecord.whole
  small := hRecord.small

--
-- Steps
--

/- Tables with the same structs or more tags are sound. -/
theorem sound_of_grows
    {T G : Tables}
    (hSound : Sound target T)
    (hGrows : Grows T G)
    (hRecords : ∀ (id : Nat) (record : Record),
      G.records[id]? = some record →
      T.records[id]? = some record ∨
        record.complete = false ∧ record.bytes = 0 ∧
          record.align = 1) :
    Sound target G where
  aligns := by
    intro id record hGet
    rcases hRecords id record hGet with hOld | ⟨-, -, hAlign⟩
    · exact hSound.aligns id record hOld
    · exact .inl hAlign
  blank := by
    intro id record hGet hComplete
    rcases hRecords id record hGet with hOld | ⟨-, hBytes, -⟩
    · exact hSound.blank id record hOld hComplete
    · exact hBytes
  sound := by
    intro id record hGet hComplete
    rcases hRecords id record hGet with hOld | ⟨hTag, -, -⟩
    · exact (hSound.sound id record hOld hComplete).grows
        hSound hGrows
    · rw [hTag] at hComplete
      cases hComplete

/-
  A definition is under way: its members are the last ones,
  and laid out so far.
-/
structure Building
    (target : Target)
    (T : Tables)
    (first : Nat)
    (F : Fields) : Prop where
  room : T.members.length = first + F.count
  laid : Laid target T first (T.members.drop first)
    F.bytes F.align
  empty : F.count = 0 → F.align = 1
  isAlign : IsAlign F.align
  small : F.bytes ≤ dataMax
  before : ∀ (id : Nat) (record : Record),
    T.records[id]? = some record → record.complete = true →
      record.first + record.count ≤ first

/- A definition starts behind the other ones. -/
theorem building_start
    (hSound : Sound target T) :
    Building target T T.members.length ⟨0, 0, 1⟩ where
  room := rfl
  laid := by
    rw [List.drop_length]
    constructor <;> simp
  empty := fun _ => rfl
  isAlign := .inl rfl
  small := Nat.zero_le _
  before := fun id record hGet hComplete =>
    (hSound.sound id record hGet hComplete).room

theorem le_alignTo
    {n alignment : Nat}
    (hPos : 0 < alignment) :
    n ≤ alignTo n alignment := by
  have hDiv := Nat.div_add_mod (n + alignment - 1) alignment
  have hMod := Nat.mod_lt (n + alignment - 1) hPos
  rw [alignTo, Nat.mul_comm]
  omega

theorem dvd_alignTo
    (n alignment : Nat) :
    alignment ∣ alignTo n alignment :=
  Nat.dvd_mul_left alignment _

/- A member is laid out behind the others. -/
theorem Laid.append
    (hLaid : Laid target T first ms bytes align)
    (hBytes : typeBytes target T m.type ≠ 0)
    (hAligned : typeAlign target T m.type ∣ m.offset)
    (hBehind : bytes ≤ m.offset)
    (hEmpty : ms = [] → align ≤ typeAlign target T m.type)
    (hEarlier : ∀ id, m.type.record? = some id →
      ∃ record : Record, T.records[id]? = some record ∧
        record.complete = true ∧
        record.first + record.count ≤ first) :
    Laid target T first (ms ++ [m])
      (m.offset + m.extent target T)
      (max align (typeAlign target T m.type)) := by
  have hOld := fun m' hMem =>
    (hLaid.inside m' hMem).trans hBehind
  constructor
  · simp only [List.forall_mem_append,
      List.forall_mem_singleton]
    exact ⟨hLaid.sized, hBytes⟩
  · simp only [List.forall_mem_append,
      List.forall_mem_singleton]
    exact ⟨hLaid.aligned, hAligned⟩
  · simp only [List.forall_mem_append,
      List.forall_mem_singleton]
    exact ⟨fun m' hMem => (hOld m' hMem).trans
      (Nat.le_add_right _ _), le_rfl⟩
  · refine List.pairwise_append.mpr
      ⟨hLaid.ordered, List.pairwise_singleton _ _, ?_⟩
    intro m' hMem m'' hLast
    obtain rfl := List.mem_singleton.mp hLast
    exact hOld m' hMem
  · simp only [List.forall_mem_append,
      List.forall_mem_singleton]
    exact ⟨fun m' hMem => (hLaid.bounded m' hMem).trans
      (le_max_left _ _), le_max_right _ _⟩
  · intro _
    by_cases hNew : align ≤ typeAlign target T m.type
    · refine ⟨m, List.mem_append_right _
        (List.mem_singleton_self m), ?_⟩
      rw [max_eq_right hNew]
    · obtain ⟨m', hMem, hAlign⟩ :=
        hLaid.reached (fun hNil => hNew (hEmpty hNil))
      refine ⟨m', List.mem_append_left _ hMem, ?_⟩
      rw [hAlign, max_eq_left (not_le.mp hNew).le]
  · simp only [List.forall_mem_append,
      List.forall_mem_singleton]
    exact ⟨hLaid.earlier, hEarlier⟩

/- Entering a member. -/
theorem grows_push
    (T : Tables)
    (m : Member) :
    Grows T { T with members := T.members ++ [m] } where
  records := (Grows.refl T).records
  members := List.prefix_append _ _
  aliases := List.prefix_rfl

theorem sound_push
    (hSound : Sound target T)
    (m : Member) :
    Sound target { T with members := T.members ++ [m] } :=
  sound_of_grows hSound (grows_push T m)
    fun _ _ hGet => .inl hGet

variable {F : Fields}

/- A member with a size keeps the layout. -/
theorem building_push
    (hSound : Sound target T)
    (hBuilding : Building target T first F)
    (hBytes : typeBytes target T m.type ≠ 0)
    (hOffset :
      m.offset = alignTo F.bytes (typeAlign target T m.type))
    (hFits : m.extent target T ≤ dataMax - m.offset) :
    Building target { T with members := T.members ++ [m] }
      first (F.push target T m) := by
  have hGrows := grows_push T m
  have hRoom := hBuilding.room
  have hPos := (typeAlign_isAlign hSound m.type).pos
  have hExtent : 0 < m.extent target T := by
    rw [Member.extent]
    split <;> exact Nat.mul_pos (by omega) (by omega)
  have hLaid := hBuilding.laid.append (m := m) hBytes
    (hOffset ▸ dvd_alignTo _ _) (hOffset ▸ le_alignTo hPos)
    (fun hNil => by
      have hLength := congrArg List.length hNil
      rw [List.length_drop, List.length_nil] at hLength
      rw [hBuilding.empty (by omega)]
      exact hPos)
    (fun id hRecord => by
      have hType : m.type = ⟨.record id, 0⟩ := by
        revert hRecord
        rcases m.type with ⟨_ | _ | _ | _, _ | _⟩ <;>
          simp [Ty.record?]
      rw [hType] at hBytes
      obtain ⟨record, hGet, hComplete⟩ :=
        complete_of_typeBytes hSound hBytes
      exact ⟨record, hGet, hComplete,
        hBuilding.before id record hGet hComplete⟩)
  constructor
  · rw [List.length_append, hRoom, Fields.push]
    rfl
  · rw [List.drop_append_of_le_length (by omega)]
    exact hLaid.grows hSound hGrows
  · exact nofun
  · exact hBuilding.isAlign.max (typeAlign_isAlign hSound m.type)
  · simp only [Fields.push]
    omega
  · exact hBuilding.before

/- A layout fits into more bytes. -/
theorem Laid.widen
    {first bytes bytes' align : Nat}
    (hLaid : Laid target T first ms bytes align)
    (hLe : bytes ≤ bytes') :
    Laid target T first ms bytes' align :=
  { hLaid with
    inside := fun m hMem => (hLaid.inside m hMem).trans hLe }

theorem record_of_get
    (hGet : T.records[id]? = some record) :
    T.record id = record := by
  rw [Tables.record, List.getD_eq_getElem?_getD, hGet]
  rfl

/- The entry that completes a struct. -/
def Tables.finished
    (T : Tables)
    (id first : Nat)
    (F : Fields) : Record :=
  { T.record id with
    first
    count := F.count
    bytes := alignTo F.bytes F.align
    align := F.align
    complete := true }

variable {old : Record}

theorem finish_get
    (hGet : T.records[id]? = some old) :
    (T.finish id first F).records[id]? =
      some (T.finished id first F) := by
  have hLt := (List.getElem?_eq_some_iff.mp hGet).1
  exact List.getElem?_set_self hLt

theorem finish_get_ne
    {other : Nat}
    (hNe : id ≠ other) :
    (T.finish id first F).records[other]? =
      T.records[other]? :=
  List.getElem?_set_ne hNe

/- Only the struct itself changes at its end. -/
theorem grows_finish
    {T : Tables}
    {id first : Nat}
    {F : Fields}
    {old : Record}
    (hGet : T.records[id]? = some old)
    (hOpen : old.complete = false) :
    Grows T (T.finish id first F) where
  records := by
    intro other record hOther
    by_cases hSame : id = other
    · subst hSame
      obtain rfl := Option.some.inj (hGet.symm.trans hOther)
      refine ⟨_, finish_get hGet, ?_, ?_, ?_⟩
      · rw [Tables.finished, record_of_get hGet]
      · rw [Tables.finished, record_of_get hGet]
      · intro hComplete
        rw [hOpen] at hComplete
        cases hComplete
    · exact ⟨record, (finish_get_ne hSame).trans hOther, rfl,
        rfl, fun _ => rfl⟩
  members := List.prefix_rfl
  aliases := List.prefix_rfl

/- A struct is sound when its definition ends. -/
theorem sound_finish
    (hSound : Sound target T)
    (hBuilding : Building target T first F)
    (hGet : T.records[id]? = some old)
    (hOpen : old.complete = false)
    (hCount : F.count ≠ 0)
    (hSmall : alignTo F.bytes F.align ≤ dataMax) :
    Sound target (T.finish id first F) := by
  have hGrows := @grows_finish T id first F old
    hGet hOpen
  have hRoom := hBuilding.room
  have hRecord :
      SoundRecord target (T.finish id first F)
        (T.finished id first F) := by
    refine ⟨Nat.pos_of_ne_zero hCount, hRoom.ge, ?_,
      dvd_alignTo _ _, hSmall⟩
    have hMembers :
        (T.finished id first F).members (T.finish id first F) =
          T.members.drop first :=
      List.take_of_length_le (by
        rw [List.length_drop]
        change T.members.length - first ≤ F.count
        omega)
    rw [hMembers]
    exact (hBuilding.laid.widen
      (le_alignTo hBuilding.isAlign.pos)).grows hSound hGrows
  constructor
  · intro other record hOther
    by_cases hSame : id = other
    · subst hSame
      rw [finish_get hGet] at hOther
      obtain rfl := Option.some.inj hOther
      exact hBuilding.isAlign
    · rw [finish_get_ne hSame] at hOther
      exact hSound.aligns other record hOther
  · intro other record hOther hComplete
    by_cases hSame : id = other
    · subst hSame
      rw [finish_get hGet] at hOther
      obtain rfl := Option.some.inj hOther
      cases hComplete
    · rw [finish_get_ne hSame] at hOther
      exact hSound.blank other record hOther hComplete
  · intro other record hOther hComplete
    by_cases hSame : id = other
    · subst hSame
      rw [finish_get hGet] at hOther
      obtain rfl := Option.some.inj hOther
      exact hRecord
    · rw [finish_get_ne hSame] at hOther
      exact (hSound.sound other record hOther hComplete).grows
        hSound hGrows

end KvantOS.Compiler
