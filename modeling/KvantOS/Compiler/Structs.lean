import KvantOS.Compiler.Replay
import Mathlib.Logic.Relation
import Mathlib.Order.Bounds.Defs

/-
  This file proves that the structs of an accepted source
  are well laid out, that none contains itself, and that the
  second pass reaches the same tables.

  Key definitions include:
    * `WellLaid`, `Contains`

  Key theorems include:
    * `wellLaid_of_sound`, `contains_first`
    * `structs_stable`
-/

namespace KvantOS.Compiler

variable {target : Target}

/-
  The fields of a struct are laid out in order, disjoint,
  at multiples of their alignments, within its bytes. The
  alignment of the struct is the largest one of its fields,
  and divides its size.
-/
structure WellLaid
    (target : Target)
    (T : Tables)
    (record : Record) : Prop where
  ordered : (record.members T).Pairwise
    (fun m m' => m.offset + m.extent target T ≤ m'.offset)
  aligned : ∀ m ∈ record.members T,
    typeAlign target T m.type ∣ m.offset
  inside : ∀ m ∈ record.members T,
    0 < m.extent target T ∧
      m.offset + m.extent target T ≤ record.bytes
  whole : record.align ∣ record.bytes
  greatest : IsGreatest
    {n | ∃ m ∈ record.members T,
      typeAlign target T m.type = n} record.align
  small : record.bytes ≤ dataMax

/- A struct contains another one by value. -/
def Contains
    (T : Tables)
    (id id' : Nat) : Prop :=
  ∃ record, T.records[id]? = some record ∧
    record.complete = true ∧
    ∃ m ∈ record.members T, m.type.record? = some id'

variable {T : Tables}

theorem extent_pos
    {m : Member}
    (hBytes : typeBytes target T m.type ≠ 0) :
    0 < m.extent target T := by
  rw [Member.extent]
  split <;> exact Nat.mul_pos (by omega) (by omega)

theorem wellLaid_of_sound
    {record : Record}
    (hRecord : SoundRecord target T record) :
    WellLaid target T record where
  ordered := hRecord.laid.ordered
  aligned := hRecord.laid.aligned
  inside := fun m hMem =>
    ⟨extent_pos (hRecord.laid.sized m hMem),
      hRecord.laid.inside m hMem⟩
  whole := hRecord.whole
  greatest := by
    constructor
    · refine hRecord.laid.reached ?_
      intro hNil
      have hLength := congrArg List.length hNil
      rw [Record.members, List.length_take, List.length_drop,
        List.length_nil] at hLength
      have hSome := hRecord.some
      have hRoom := hRecord.room
      omega
    · rintro n ⟨m, hMem, rfl⟩
      exact hRecord.laid.bounded m hMem
  small := hRecord.small

/- The members of what a struct contains are before its own. -/
theorem contains_first
    {id id' : Nat}
    (hSound : Sound target T)
    (hContains : Contains T id id') :
    (T.record id').first < (T.record id).first := by
  obtain ⟨record, hGet, hComplete, m, hMem, hType⟩ := hContains
  obtain ⟨inner, hGet', hComplete', hBefore⟩ :=
    (hSound.sound id record hGet hComplete).laid.earlier
      m hMem id' hType
  have hSome := (hSound.sound id' inner hGet' hComplete').some
  rw [record_of_get hGet, record_of_get hGet']
  omega

/- No struct contains itself, however deep. -/
theorem contains_acyclic
    (hSound : Sound target T)
    (id : Nat) :
    ¬ Relation.TransGen (Contains T) id id := by
  have hFirst :
      ∀ id', Relation.TransGen (Contains T) id id' →
        (T.record id').first < (T.record id).first := by
    intro id' hChain
    induction hChain with
    | single hContains =>
        exact contains_first hSound hContains
    | tail _ hContains ih =>
        exact (contains_first hSound hContains).trans ih
  exact fun hCycle => (hFirst id hCycle).false

theorem sound_empty :
    Sound target ⟨[], [], []⟩ where
  aligns _ _ hGet := by cases hGet
  blank _ _ hGet := by cases hGet
  sound _ _ hGet := by cases hGet

/-
  The structs of a source that the first pass accepts are
  well laid out, and none contains itself. In the second
  pass the source is accepted again, with the same tables.
-/
theorem structs_stable
    {symbols : List (List UInt8)}
    {turns : Nat}
    {source : List Token}
    {T : Tables}
    {r : Reader}
    (hRun :
      runPass target symbols .first turns ⟨[], [], []⟩ source =
        .ok (T, r)) :
    (∀ (id : Nat) (record : Record),
      T.records[id]? = some record →
      record.complete = true → WellLaid target T record) ∧
    (∀ id, ¬ Relation.TransGen (Contains T) id id) ∧
    runPass target symbols .second turns T source =
      .ok (T, r) := by
  obtain ⟨r₀, hReset, hUnit⟩ := bind_eq_ok.mp hRun
  obtain ⟨hSound, -, hAgain⟩ :=
    translationUnit_replays sound_empty hUnit
  refine ⟨fun id record hGet hComplete => wellLaid_of_sound
    (hSound.sound id record hGet hComplete),
    contains_acyclic hSound, ?_⟩
  exact bind_eq_ok.mpr ⟨r₀, hReset, hAgain T (.refl T)⟩

/-
  A list of items and an array of them:
  `typedef struct N { char pad[5]; struct N *next; } Item;`
  and `struct { Item all[3]; char c; };`.
-/
def itemsSource : List Token :=
  [.typedef, .struct, .id [78], .sign '{', .char, .id [112],
    .sign '[', .num 5, .sign ']', .sign ';', .struct, .id [78],
    .sign '*', .id [110], .sign ';', .sign '}', .id [73],
    .sign ';', .struct, .sign '{', .id [73], .id [97],
    .sign '[', .num 3, .sign ']', .sign ';', .char, .id [99],
    .sign ';', .sign '}', .sign ';']

def itemsTables : Tables where
  records :=
    [⟨[78], none, 0, 2, 16, 8, true⟩,
      ⟨[], some 0, 2, 2, 56, 8, true⟩]
  members :=
    [⟨[112], ⟨.char, 0⟩, 5, 0⟩, ⟨[110], ⟨.record 0, 1⟩, 0, 8⟩,
      ⟨[97], ⟨.record 0, 0⟩, 3, 0⟩, ⟨[99], ⟨.char, 0⟩, 0, 48⟩]
  aliases := [([73], ⟨.record 0, 0⟩)]

/- Both passes over it, for 64 bits. -/
theorem structs_stable_items :
    runPass .x64 [] .first 9 ⟨[], [], []⟩ itemsSource =
        .ok (itemsTables, ⟨[], 32, 1⟩) ∧
      runPass .x64 [] .second 9 itemsTables itemsSource =
        .ok (itemsTables, ⟨[], 32, 1⟩) := by
  have hRun :
      runPass .x64 [] .first 9 ⟨[], [], []⟩ itemsSource =
        .ok (itemsTables, ⟨[], 32, 1⟩) := by
    decide +kernel
  exact ⟨hRun, (structs_stable hRun).2.2⟩

end KvantOS.Compiler
