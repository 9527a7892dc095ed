import Mathlib.Data.List.Basic

/-
  This file models the types of the Workshop's compiler: the
  tables of structs, members and typedefs in `mcc_types.h`,
  and the part of `translation_unit` that declares them. A
  failure ends the run, as the compiler keeps its first one
  and rejects the source.

  Key definitions include:
    * `Token`, `Reader`
    * `Ty`, `Tables`
    * `typeBytes`, `typeAlign`
    * `recordType`, `typeAlias`
    * `translationUnit`, `runPass`
-/

namespace KvantOS.Compiler

--
-- Tokens
--

/- What ends a run. -/
inductive Stop where
  /- `fail`. -/
  | fail (message : String)
  /- A variable or a function is declared. -/
  | declarator
  /- The model has run out of turns. -/
  | turns
  deriving DecidableEq

/- A token, or the message of a malformed one. -/
inductive Token where
  | id (name : List UInt8)
  | num (value : UInt32)
  | int
  | char
  | void
  | const
  | struct
  | typedef
  | sizeof
  | str (bytes : List UInt8)
  | sign (c : Char)
  | arrow
  | inc
  | dec
  | eq
  | ne
  | le
  | ge
  | shl
  | shr
  | and
  | or
  | addSet
  | subSet
  | mulSet
  | divSet
  | modSet
  | other
  | bad (message : String)
  deriving DecidableEq

/-
  The lexer, with the token it stands at first in `input`;
  and `anon_serial`.
-/
structure Reader where
  input : List Token
  tokens : Nat
  serial : Nat
  deriving DecidableEq

/- `token`, or that it is zero. -/
def Reader.token (r : Reader) : Option Token :=
  r.input.head?

/- `next`. -/
def next (r : Reader) : Except Stop Reader :=
  if 24000 ≤ r.tokens then
    .error (.fail "too many tokens")
  else
    match r.input.tail with
    | .bad message :: _ => .error (.fail message)
    | input => .ok { r with input, tokens := r.tokens + 1 }

/- `accept`. -/
def accept
    (t : Token)
    (r : Reader) : Except Stop (Bool × Reader) :=
  if r.token = some t then
    (next r).map (true, ·)
  else
    .ok (false, r)

/- `expect`. -/
def expect
    (t : Token)
    (r : Reader) : Except Stop Reader :=
  if r.token = some t then
    next r
  else
    .error (.fail "unexpected token")

/- `name_copy`. -/
def nameCopy (r : Reader) : Except Stop (List UInt8 × Reader) :=
  match r.token with
  | some (.id name) => (next r).map (name, ·)
  | _ => .error (.fail "expected name")

/- The start of `reset_lexer` and `translation_unit`. -/
def resetLexer (source : List Token) : Except Stop Reader :=
  match source with
  | .bad message :: _ => .error (.fail message)
  | _ => .ok ⟨source, 1, 0⟩

--
-- Types
--

def recordMax : Nat := 32
def memberMax : Nat := 256
def aliasMax : Nat := 32
def dataMax : Nat := 8000

/- `MCC_TARGET64`. -/
inductive Target where
  | i386
  | x64
  deriving DecidableEq

/- `MCC_WORD`. -/
def Target.word : Target → Nat
  | .i386 => 4
  | .x64 => 8

/- The base of a type, with the number of its struct. -/
inductive Base where
  | int
  | char
  | void
  | record (id : Nat)
  deriving DecidableEq

/- A type: `base + 4 * depth`. -/
structure Ty where
  base : Base
  depth : Nat
  deriving DecidableEq

/- `is_record`, with the number of the struct. -/
def Ty.record? : Ty → Option Nat
  | ⟨.record id, 0⟩ => some id
  | _ => none

/- An entry of `records`. -/
structure Record where
  name : List UInt8
  anon : Option Nat
  first : Nat
  count : Nat
  bytes : Nat
  align : Nat
  complete : Bool
  deriving DecidableEq

/- An entry of `members`. -/
structure Member where
  name : List UInt8
  type : Ty
  count : Nat
  offset : Nat
  deriving DecidableEq

/- What is in use of the tables. -/
structure Tables where
  records : List Record
  members : List Member
  aliases : List (List UInt8 × Ty)
  deriving DecidableEq

/- `type_pass`. -/
inductive Pass where
  | first
  | second
  deriving DecidableEq

variable (target : Target)

/- `type_bytes`. -/
def typeBytes (T : Tables) : Ty → Nat
  | ⟨_, _ + 1⟩ => target.word
  | ⟨.record id, 0⟩ => (T.records[id]?).elim 0 Record.bytes
  | ⟨.char, 0⟩ => 1
  | ⟨.void, 0⟩ => 0
  | ⟨.int, 0⟩ => 4

/- `type_align`. -/
def typeAlign (T : Tables) : Ty → Nat
  | ⟨_, _ + 1⟩ => target.word
  | ⟨.record id, 0⟩ => (T.records[id]?).elim 1 Record.align
  | ⟨.char, 0⟩ => 1
  | ⟨.void, 0⟩ => 1
  | ⟨.int, 0⟩ => 4

/- `align_to`: the alignments are powers of two. -/
def alignTo (n alignment : Nat) : Nat :=
  (n + alignment - 1) / alignment * alignment

/- `alias_find`, with the type of the alias. -/
def aliasFind
    (T : Tables)
    (name : List UInt8) : Option Ty :=
  (T.aliases.find? (fun a => a.1 == name)).map Prod.snd

/- The loop of `pointer_type`, up to four pointers. -/
def pointerLoop :
    (left : Nat) → Ty → Reader → Except Stop (Ty × Reader)
  | 0, t, r => do
      let (star, r) ← accept (.sign '*') r
      if star then .error (.fail "pointer depth limit")
      else .ok (t, r)
  | left + 1, t, r => do
      let (star, r) ← accept (.sign '*') r
      if star then do
        let (_, r) ← accept .const r
        pointerLoop left ⟨t.base, t.depth + 1⟩ r
      else .ok (t, r)

/- `pointer_type`. -/
def pointerType
    (t : Ty)
    (r : Reader) : Except Stop (Ty × Reader) :=
  pointerLoop (4 - t.depth) t r

/- The literal of `array_count`. -/
def arrayLiteral
    (T : Tables)
    (t : Ty)
    (limit : Nat) : Option Token → Except Stop Nat
  | some (.num value) =>
      if typeBytes target T t = 0 ∨ 4 ≤ t.depth ∨ value = 0 ∨
          limit / typeBytes target T t < value.toNat then
        .error (.fail
          "array needs a positive literal size within storage limit")
      else .ok value.toNat
  | _ =>
      .error (.fail
        "array needs a positive literal size within storage limit")

/- `array_count`. -/
def arrayCount
    (T : Tables)
    (t : Ty)
    (limit : Nat)
    (r : Reader) : Except Stop (Nat × Reader) := do
  let (array, r) ← accept (.sign '[') r
  if array then do
    let count ← arrayLiteral target T t limit r.token
    let r ← next r
    let r ← expect (.sign ']') r
    if r.token = some (.sign '[') then
      .error (.fail
        "multidimensional arrays are not supported")
    else .ok (count, r)
  else .ok (0, r)

--
-- Structs
--

/- The struct that a tag names. -/
def Record.Named
    (name : List UInt8)
    (anon : Option Nat)
    (record : Record) : Bool :=
  if name ≠ [] then record.name == name
  else record.name == [] && record.anon == anon

/- A struct that is not defined. -/
def Record.tag
    (name : List UInt8)
    (anon : Option Nat) : Record :=
  ⟨name, anon, 0, 0, 0, 1, false⟩

/- The tag that follows `struct`. -/
def readTag
    (r : Reader) :
    Except Stop (List UInt8 × Option Nat × Reader) :=
  match r.token with
  | some (.id name) => (next r).map (name, none, ·)
  | some (.sign '{') =>
      .ok ([], some r.serial, { r with serial := r.serial + 1 })
  | _ => .error (.fail "expected struct tag or definition")

/- The number of the struct of a tag, which can be new. -/
def findRecord
    (T : Tables)
    (name : List UInt8)
    (anon : Option Nat) : Except Stop (Nat × Tables) :=
  match T.records.findIdx? (Record.Named name anon) with
  | some id => .ok (id, T)
  | none =>
      if T.records.length = recordMax then
        .error (.fail "struct tag limit (32)")
      else
        .ok (T.records.length,
          { T with records :=
              T.records ++ [Record.tag name anon] })

/- `record_type`, up to the definition. -/
def recordTag
    (T : Tables)
    (r : Reader) : Except Stop (Nat × Tables × Reader) := do
  let r ← next r
  let (name, anon, r) ← readTag r
  let (id, T) ← findRecord T name anon
  return (id, T, r)

/- `parse_type`, with what it calls at `struct`. -/
def parseTypeWith
    (record :
      Tables → Reader → Except Stop (Ty × Tables × Reader))
    (T : Tables)
    (r : Reader) : Except Stop (Ty × Tables × Reader) := do
  let (_, r) ← accept .const r
  match r.token with
  | some .struct => record T r
  | some (.id name) =>
      match aliasFind T name with
      | some t => (next r).map (t, T, ·)
      | none => .error (.fail "expected int, char or void")
  | some .int => (next r).map (⟨.int, 0⟩, T, ·)
  | some .char => (next r).map (⟨.char, 0⟩, T, ·)
  | some .void => (next r).map (⟨.void, 0⟩, T, ·)
  | _ => .error (.fail "expected int, char or void")

/- `record_type` within a definition. -/
def recordWithin
    (T : Tables)
    (r : Reader) : Except Stop (Ty × Tables × Reader) := do
  let (id, T, r) ← recordTag T r
  let (body, r) ← accept (.sign '{') r
  if body then
    .error (.fail
      "struct definitions must be top-level, not nested")
  else .ok (⟨.record id, 0⟩, T, r)

/- The fields of a definition: `count`, `bytes`, `alignment`. -/
structure Fields where
  count : Nat
  bytes : Nat
  align : Nat
  deriving DecidableEq

/- What a field becomes behind the others. -/
def Fields.member
    (T : Tables)
    (F : Fields)
    (name : List UInt8)
    (type : Ty)
    (n : Nat) : Member :=
  ⟨name, type, n, alignTo F.bytes (typeAlign target T type)⟩

/- The bytes of a member. -/
def Member.extent
    (T : Tables)
    (m : Member) : Nat :=
  typeBytes target T m.type * if m.count = 0 then 1 else m.count

/- The fields with a member behind them. -/
def Fields.push
    (T : Tables)
    (F : Fields)
    (m : Member) : Fields :=
  ⟨F.count + 1, m.offset + m.extent target T,
    max F.align (typeAlign target T m.type)⟩

/- A field is entered, or compared when it is replayed. -/
def enterMember
    (T : Tables)
    (replay : Option Record)
    (first : Nat)
    (F : Fields)
    (m : Member) : Except Stop Tables :=
  match replay with
  | some record =>
      if record.count ≤ F.count then
        .error (.fail "conflicting struct definition")
      else if T.members[first + F.count]? ≠ some m then
        .error (.fail "conflicting struct layout")
      else .ok T
  | none =>
      if T.members.length = memberMax then
        .error (.fail "struct member limit (256)")
      else .ok { T with members := T.members ++ [m] }

/- One field of a definition. -/
def addField
    (T : Tables)
    (replay : Option Record)
    (first : Nat)
    (F : Fields)
    (name : List UInt8)
    (type : Ty)
    (n : Nat) : Except Stop (Tables × Fields) :=
  let m := F.member target T name type n
  if typeBytes target T type = 0 then
    .error (.fail "field has void or incomplete type")
  else if dataMax - m.offset < m.extent target T then
    .error (.fail "struct size limit (8000 bytes)")
  else if ((T.members.drop first).take F.count).any
      (fun m => m.name == name) then
    .error (.fail "duplicate struct field")
  else do
    let T' ← enterMember T replay first F m
    return (T', F.push target T m)

/- The fields of one type. -/
def fieldLoop
    (replay : Option Record)
    (first : Nat)
    (base : Ty) :
    (turns : Nat) → Tables → Fields → Reader →
      Except Stop (Tables × Fields × Reader)
  | 0, _, _, _ => .error .turns
  | turns + 1, T, F, r => do
      let (type, r) ← pointerType base r
      let (name, r) ← nameCopy r
      let (n, r) ← arrayCount target T type dataMax r
      let (T, F) ← addField target T replay first F name type n
      let (more, r) ← accept (.sign ',') r
      if more then fieldLoop replay first base turns T F r
      else .ok (T, F, r)

/- The fields of a definition. -/
def fieldsLoop
    (replay : Option Record)
    (first : Nat) :
    (turns : Nat) → Tables → Fields → Reader →
      Except Stop (Tables × Fields × Reader)
  | 0, _, _, _ => .error .turns
  | turns + 1, T, F, r =>
      if r.token = none ∨ r.token = some (.sign '}') then
        .ok (T, F, r)
      else do
        let (base, T, r) ← parseTypeWith recordWithin T r
        let (T, F, r) ←
          fieldLoop target replay first base turns T F r
        let r ← expect (.sign ';') r
        fieldsLoop replay first turns T F r

/- The entry of a struct. -/
def Tables.record
    (T : Tables)
    (id : Nat) : Record :=
  T.records.getD id (Record.tag [] none)

/- A struct is complete. -/
def Tables.finish
    (T : Tables)
    (id first : Nat)
    (F : Fields) : Tables :=
  let record : Record :=
    { T.record id with
      first
      count := F.count
      bytes := alignTo F.bytes F.align
      align := F.align
      complete := true }
  { T with records := T.records.set id record }

/- The end of a definition. -/
def closeRecord
    (T : Tables)
    (replay : Option Record)
    (id first : Nat)
    (F : Fields) : Except Stop Tables :=
  if F.count = 0 then
    .error (.fail "empty structs are unsupported")
  else if dataMax < alignTo F.bytes F.align then
    .error (.fail "struct size limit (8000 bytes)")
  else if replay.any (fun record => record.count != F.count) then
    .error (.fail "conflicting struct field count")
  else .ok (T.finish id first F)

/- `record_type` at a definition. -/
def recordBody
    (pass : Pass)
    (turns id : Nat)
    (T : Tables)
    (r : Reader) : Except Stop (Ty × Tables × Reader) :=
  let old := T.record id
  if old.complete = true ∧ pass = .first then
    .error (.fail "struct already defined")
  else do
    let replay := if old.complete then some old else none
    let first :=
      if old.complete then old.first else T.members.length
    let (T, F, r) ←
      fieldsLoop target replay first turns T ⟨0, 0, 1⟩ r
    let r ← expect (.sign '}') r
    let T ← closeRecord T replay id first F
    return (⟨.record id, 0⟩, T, r)

/- `record_type`. -/
def recordType
    (pass : Pass)
    (turns : Nat)
    (T : Tables)
    (r : Reader) : Except Stop (Ty × Tables × Reader) := do
  let (id, T, r) ← recordTag T r
  let (body, r) ← accept (.sign '{') r
  if body then recordBody target pass turns id T r
  else .ok (⟨.record id, 0⟩, T, r)

/- `parse_type`. -/
def parseType
    (pass : Pass)
    (turns : Nat) :
    Tables → Reader → Except Stop (Ty × Tables × Reader) :=
  parseTypeWith (recordType target pass turns)

--
-- Declarations
--

/- `type_alias`, with the names that `find` finds. -/
def typeAlias
    (symbols : List (List UInt8))
    (pass : Pass)
    (T : Tables)
    (name : List UInt8)
    (type : Ty) : Except Stop Tables :=
  match aliasFind T name with
  | some old =>
      if pass = .second ∧ old = type then .ok T
      else .error (.fail "typedef name already declared")
  | none =>
      if name ∈ symbols then
        .error (.fail "typedef name already declared")
      else if T.aliases.length = aliasMax then
        .error (.fail "typedef limit (32)")
      else .ok { T with aliases := T.aliases ++ [(name, type)] }

/- The names of a typedef. -/
def typedefLoop
    (symbols : List (List UInt8))
    (pass : Pass)
    (base : Ty) :
    (turns : Nat) → Tables → Reader →
      Except Stop (Tables × Reader)
  | 0, _, _ => .error .turns
  | turns + 1, T, r => do
      let (type, r) ← pointerType base r
      let (name, r) ← nameCopy r
      if r.token = some (.sign '[') ∨
          r.token = some (.sign '(') then
        .error (.fail
          "typedef supports object and pointer types only")
      else do
        let T ← typeAlias symbols pass T name type
        let (more, r) ← accept (.sign ',') r
        if more then typedefLoop symbols pass base turns T r
        else .ok (T, r)

/-
  `translation_unit`, for sources of structs and typedefs:
  it stops at the first variable or function.
-/
def translationUnit
    (symbols : List (List UInt8))
    (pass : Pass) :
    (turns : Nat) → Tables → Reader →
      Except Stop (Tables × Reader)
  | 0, _, _ => .error .turns
  | turns + 1, T, r =>
      if r.token = none then
        .ok (T, r)
      else do
        let (typedef, r) ← accept .typedef r
        let (base, T, r) ← parseType target pass turns T r
        if typedef then do
          let (T, r) ←
            typedefLoop symbols pass base turns T r
          let r ← expect (.sign ';') r
          translationUnit symbols pass turns T r
        else do
          let (ends, r) ← accept (.sign ';') r
          if ends = false then
            .error .declarator
          else if base.record? = none then
            .error (.fail "expected declarator")
          else translationUnit symbols pass turns T r

/- A pass over a source. -/
def runPass
    (symbols : List (List UInt8))
    (pass : Pass)
    (turns : Nat)
    (T : Tables)
    (source : List Token) : Except Stop (Tables × Reader) := do
  let r ← resetLexer source
  translationUnit target symbols pass turns T r

end KvantOS.Compiler
