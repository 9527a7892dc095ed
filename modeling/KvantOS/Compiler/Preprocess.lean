import KvantOS.Data.Lexemes
import Mathlib

/-
  This file models the preprocessor of the Workshop's
  compiler, `mcc_pp.h`, with its builtin headers. The limits
  of its arrays are fields of the state, so that no write
  can leave them.

  Key definitions include:
    * `Macro`, `Pp`
    * `ppEmit`, `ppExpand`
    * `ppDefine`, `ppDirective`
    * `ppSource`, `preprocess`
-/

namespace KvantOS.Compiler

open Lexical

--
-- The State
--

def nameMax : Nat := 48
def ppMacros : Nat := 32
def ppBody : Nat := 256
def ppOutput : Nat := 32000
def ppDepth : Nat := 8
def ppWork : Nat := 64000
def ppIncludeDepth : Nat := 4

/- A macro body, without the zero behind it. -/
structure Body where
  bytes : List UInt8
  fits : bytes.length < ppBody

/- An entry of `pp_macros`. -/
structure Macro where
  name : List UInt8
  body : Body
  active : Bool
  nameFits : name.length < nameMax

/-
  The variables of the preprocessor. The lists hold what is
  in use of `pp_macros` and `pp_output`.
-/
structure Pp where
  macros : List Macro
  output : List UInt8
  work : Nat
  line : Nat
  included : Nat
  including : Nat
  macrosFit : macros.length ≤ ppMacros
  outputFits : output.length ≤ ppOutput

/- A message of `pp_fail`, and its line. -/
structure PpError where
  message : String
  line : Nat

/- What a step of the preprocessor comes to. -/
abbrev PpResult (α : Type) := Except PpError α

/- `pp_fail`; the first failure is the one that counts. -/
def ppFail {α : Type} (st : Pp) (message : String) :
    PpResult α :=
  .error { message := message, line := st.line }

/- `pp_emit`. -/
def ppEmit (c : UInt8) (st : Pp) : PpResult Pp :=
  if hFull : st.output.length = ppOutput then
    ppFail st "preprocessor output limit (32000 bytes)"
  else
    .ok { st with
      output := st.output ++ [c]
      line := if c == 10 then st.line + 1 else st.line
      outputFits := by
        have hFits := st.outputFits
        rw [List.length_append, List.length_singleton]
        omega }

/- `pp_emit` for one byte after the other. -/
def ppEmits : List UInt8 → Pp → PpResult Pp
  | [], st => .ok st
  | c :: p, st => do
      let st ← ppEmit c st
      ppEmits p st

/- `pp_find`. -/
def ppFind (st : Pp) (name : List UInt8) :
    Option (Fin st.macros.length) :=
  st.macros.findFinIdx? (fun m => m.name == name)

/- Set the `active` of a macro. -/
def Pp.setActive (st : Pp) (m : Nat) (active : Bool) : Pp :=
  { st with
    macros := st.macros.modify m
      (fun e => { e with active := active })
    macrosFit := by
      rw [List.length_modify]
      exact st.macrosFit }

--
-- Expansion
--

/- A text for a macro or a header, one level deeper. -/
abbrev Deeper := Option (List UInt8 → Pp → PpResult Pp)

/- The literal in `pp_expand`, after its opening quote. -/
def expandLiteral
    (quote : UInt8) :
    List UInt8 → Pp → PpResult (Pp × List UInt8)
  | [], st => ppFail st "unterminated preprocessor literal"
  | c :: p, st =>
      if c == 10 then
        ppFail st "unterminated preprocessor literal"
      else do
        let st ← ppEmit c st
        if c == quote then
          .ok (st, p)
        else if c == 92 then
          match p with
          | [] => ppFail st "unterminated preprocessor literal"
          | d :: p =>
              if d == 10 then
                ppFail st "unterminated preprocessor literal"
              else do
                let st ← ppEmit d st
                expandLiteral quote p st
        else
          expandLiteral quote p st

/- A name in `pp_expand`. -/
def expandName
    (deeper : Deeper)
    (name : List UInt8)
    (st : Pp) : PpResult Pp :=
  match ppFind st name with
  | none => ppEmits name st
  | some m =>
      if st.macros[m].active then
        ppFail st "recursive macro expansion"
      else
        match deeper with
        | none => ppFail st "macro expansion depth limit (8)"
        | some expand => do
            let body := st.macros[m].body.bytes
            let st ← ppEmit 32 (st.setActive m true)
            let st ← expand body st
            let st ← ppEmit 32 st
            .ok (st.setActive m false)

/- One turn of the loop in `pp_expand`, and what is left. -/
def expandStep
    (deeper : Deeper)
    (c : UInt8)
    (p : List UInt8)
    (st : Pp) : PpResult (Pp × List UInt8) :=
  if isLetter c then do
    let st ← expandName deeper (c :: p.takeWhile isWord) st
    .ok (st, p.dropWhile isWord)
  else if isDigit c || (c == 46 && p.head?.any isDigit) then do
    let st ← ppEmits (c :: (numberRest c p).1) st
    .ok (st, (numberRest c p).2)
  else if c == 34 || c == 39 then do
    let st ← ppEmit c st
    expandLiteral c p st
  else if c == 35 then
    ppFail st "# and ## in macro replacements are unsupported"
  else do
    let st ← ppEmit c st
    .ok (st, p)

/- The loop in `pp_expand`; every turn takes a byte. -/
def expandLoop
    (deeper : Deeper) :
    (turns : Nat) → List UInt8 → Pp → PpResult Pp
  | _, [], st => .ok st
  | 0, _ :: _, st => .ok st
  | turns + 1, c :: p, st =>
      let st := { st with work := st.work + 1 }
      if st.work > ppWork then
        ppFail st "preprocessor work limit (64000 steps)"
      else do
        let (st, rest) ← expandStep deeper c p st
        expandLoop deeper turns rest st

/- `pp_expand`, with the levels left below `PP_DEPTH`. -/
def ppExpand : (levels : Nat) → List UInt8 → Pp → PpResult Pp
  | 0, text, st => expandLoop none text.length text st
  | levels + 1, text, st =>
      expandLoop (some (ppExpand levels)) text.length text st

--
-- Definitions
--

/- A byte more of a macro body. -/
def bodyByte
    (st : Pp)
    (c : UInt8)
    (body : Body) : PpResult Body :=
  if hFull : body.bytes.length ≥ ppBody - 1 then
    ppFail st "macro body limit (255 bytes)"
  else
    .ok { bytes := body.bytes ++ [c]
          fits := by
            rw [List.length_append, List.length_singleton]
            omega }

/- The literal in `pp_define`, after its opening quote. -/
def defineLiteral
    (st : Pp)
    (quote : UInt8) :
    List UInt8 → Body → PpResult (Body × List UInt8)
  | [], _ => ppFail st "unterminated macro literal"
  | c :: p, body => do
      let body ← bodyByte st c body
      if c == quote then
        .ok (body, p)
      else if c == 92 then
        match p with
        | [] => ppFail st "unterminated macro literal"
        | d :: p => do
            let body ← bodyByte st d body
            defineLiteral st quote p body
      else
        defineLiteral st quote p body

/- One turn of the loop over a macro body. -/
def defineStep
    (st : Pp)
    (c : UInt8)
    (p : List UInt8)
    (body : Body) : PpResult (Body × List UInt8) :=
  if c == 47 && p.head? == some 47 then
    .ok (body, [])
  else if c == 47 && p.head? == some 42 then
    match commentRest p.tail with
    | none =>
        ppFail st "multiline comment in #define is unsupported"
    | some (_, rest) => do
        let body ← bodyByte st 32 body
        .ok (body, rest)
  else if c == 34 || c == 39 then do
    let body ← bodyByte st c body
    defineLiteral st c p body
  else if c == 35 || c == 92 then
    ppFail st
      "macro #/## and line continuation are unsupported"
  else do
    let body ← bodyByte st c body
    .ok (body, p)

/- The loop over a macro body. -/
def defineBody
    (st : Pp) :
    (turns : Nat) → List UInt8 → Body → PpResult Body
  | _, [], body => .ok body
  | 0, _ :: _, body => .ok body
  | turns + 1, c :: p, body => do
      let (body, rest) ← defineStep st c p body
      defineBody st turns rest body

/- The body without the blanks at its end. -/
def Body.trim (body : Body) : Body where
  bytes := body.bytes.rdropWhile isBlank
  fits := by
    have hPart := List.rdropWhile_prefix isBlank body.bytes
    exact Nat.lt_of_le_of_lt hPart.length_le body.fits

def Body.empty : Body where
  bytes := []
  fits := by decide

/- The bytes of a text of the source. -/
def bytesOf (s : String) : List UInt8 :=
  s.toList.map (fun c => c.toNat.toUInt8)

/- `pp_define`, for the line after the `#`. -/
def ppDefine (line : List UInt8) (st : Pp) : PpResult Pp :=
  let p := line.dropWhile isBlank
  let directive := p.takeWhile isLetter
  let p := p.dropWhile isLetter
  if directive != bytesOf "define" || !p.head?.any isBlank then
    ppFail st ("only object-like #define or builtin " ++
      "#include directives are supported")
  else
    let p := p.dropWhile isBlank
    if !p.head?.any isLetter then
      ppFail st "expected macro name"
    else
      let name := p.takeWhile isWord
      let p := p.dropWhile isWord
      if hName : name.length ≥ nameMax then
        ppFail st "macro name too long"
      else if p.head? == some 40 then
        ppFail st "function-like macros are unsupported"
      else if p.head?.any (fun c => !isBlank c) &&
          !(p.head? == some 47 &&
            (p.tail.head? == some 47 ||
              p.tail.head? == some 42)) then
        ppFail st "expected whitespace after macro name"
      else if (ppFind st name).isSome then
        ppFail st "macro redefinition is unsupported"
      else if hCount : st.macros.length = ppMacros then
        ppFail st "macro count limit (32)"
      else do
        let p := p.dropWhile isBlank
        let body ← defineBody st p.length p Body.empty
        .ok { st with
          macros := st.macros ++
            [{ name := name
               body := body.trim
               active := false
               nameFits := Nat.lt_of_not_le hName }]
          macrosFit := by
            have hFits := st.macrosFit
            rw [List.length_append, List.length_singleton]
            omega }

--
-- Headers
--

/- An entry of `pp_headers`. -/
structure PpHeader where
  name : List UInt8
  body : List UInt8

/- `pp_headers`, as the kernel has it. -/
def ppHeaders : List PpHeader :=
  [{ name := bytesOf "kvui.h"
     body := bytesOf ("#include \"kvkeys.h\"\n" ++
       "#include \"kvtypes.h\"\n" ++
       "#define KV_BG 0x182032\n" ++
       "#define KV_FG 0xe6f0ff\n" ++
       "#define KV_TRANSPARENT -1\n") },
   { name := bytesOf "kvkeys.h"
     body := bytesOf ("#define KV_KEY_UP 0x100\n" ++
       "#define KV_KEY_DOWN 0x101\n" ++
       "#define KV_KEY_LEFT 0x102\n" ++
       "#define KV_KEY_RIGHT 0x103\n" ++
       "#define KV_KEY_ENTER 10\n" ++
       "#define KV_KEY_ESC 27\n" ++
       "#define KV_KEY_BKSP 8\n" ++
       "#define KV_KEY_TAB 9\n" ++
       "#define KV_CHAR_W 8\n" ++
       "#define KV_CHAR_H 16\n") },
   { name := bytesOf "kvtypes.h"
     body := bytesOf ("typedef int kv_int;\n" ++
       "typedef char kv_byte;\n" ++
       "typedef struct kv_point \x7bint x;int y;\x7d " ++
       "kv_point;\n") }]

/- What may follow the name in an `#include`. -/
def includeTail
    (st : Pp) :
    (turns : Nat) → List UInt8 → PpResult Unit
  | _, [] => .ok ()
  | 0, _ :: _ => .ok ()
  | turns + 1, c :: p =>
      if isBlank c then
        includeTail st turns p
      else if c == 47 && p.head? == some 47 then
        .ok ()
      else if c == 47 && p.head? == some 42 then
        match commentRest p.tail with
        | none => ppFail st "unterminated include comment"
        | some (_, rest) => includeTail st turns rest
      else
        ppFail st "trailing tokens after include"

/- The name in an `#include`, from its quote to the line. -/
def includeName
    (line : List UInt8)
    (st : Pp) : PpResult (List UInt8) :=
  match line with
  | [] => ppFail st
      "include requires literal builtin header name"
  | c :: p =>
      if c != 34 && c != 60 then
        ppFail st "include requires literal builtin header name"
      else
        let close : UInt8 := if c == 34 then 34 else 62
        let name := p.takeWhile (· != close)
        match p.dropWhile (· != close) with
        | [] => ppFail st "unterminated include name"
        | _ :: tail =>
            if name.length == 0 || name.length > 31 then
              ppFail st "include name length (1..31)"
            else if !name.all
                (fun c => isLetter c || isDigit c || c == 46)
                then
              ppFail st "include paths/escapes are forbidden"
            else do
              let _ ← includeTail st tail.length tail
              .ok name

/- `pp_directive` once the name of the header is known. -/
def includeHeader
    (deeper : Deeper)
    (name : List UInt8)
    (st : Pp) : PpResult Pp :=
  match ppHeaders.findFinIdx? (fun e => e.name == name) with
  | none => ppFail st
      "unknown builtin header (kvui.h/kvkeys.h/kvtypes.h)"
  | some index =>
      let body := ppHeaders[index].body
      if st.including.testBit index then
        ppFail st "include cycle"
      else if st.included.testBit index then
        .ok st
      else
        match deeper with
        | none => ppFail st "include depth limit (4)"
        | some source =>
            if body.length > ppWork - st.work then
              ppFail st "preprocessor include work limit"
            else do
              let st ← ppEmit 32 { st with
                work := st.work + body.length
                including := st.including ||| 2 ^ index.val }
              let st ← source body st
              let st ← ppEmit 32 st
              .ok { st with
                including := st.including.ldiff (2 ^ index.val)
                included := st.included ||| 2 ^ index.val }

/- `pp_directive`, for the text after the `#`. -/
def ppDirective
    (deeper : Deeper)
    (p : List UInt8)
    (st : Pp) : PpResult Pp :=
  let q := p.dropWhile isBlank
  if q.take 7 != bytesOf "include" ||
      (q.drop 7).head?.any (fun c =>
        !isBlank c && c != 34 && c != 60) then
    ppDefine (p.takeWhile (· != 10)) st
  else do
    let q := (q.drop 7).dropWhile isBlank
    let name ← includeName (q.takeWhile (· != 10)) st
    includeHeader deeper name st

--
-- Sources
--

/- A comment in `pp_source`, after its opening. -/
def sourceComment
    (header : Bool) :
    (fresh : Bool) → List UInt8 → Pp →
      PpResult (Pp × Bool × List UInt8)
  | _, [], st => ppFail st "unterminated comment"
  | _, [c], st => do
      let st ← if c == 10 then
          ppEmit (if header then 32 else 10) st
        else .ok st
      ppFail st "unterminated comment"
  | fresh, c :: d :: p, st =>
      if c == 42 && d == 47 then
        .ok (st, fresh, p)
      else if c == 10 then do
        let st ← ppEmit (if header then 32 else 10) st
        sourceComment header true (d :: p) st
      else
        sourceComment header fresh (d :: p) st

/- The literal in `pp_source`, after its opening quote. -/
def sourceLiteral
    (quote : UInt8) :
    List UInt8 → List UInt8 × List UInt8
  | [] => ([], [])
  | c :: p =>
      if c == 10 then ([], c :: p)
      else if c == quote then ([c], p)
      else if c == 92 then
        match p with
        | [] => ([c], [])
        | d :: p =>
            if d == 10 then ([c], d :: p)
            else (c :: d :: (sourceLiteral quote p).1,
              (sourceLiteral quote p).2)
      else (c :: (sourceLiteral quote p).1,
        (sourceLiteral quote p).2)

/- What `pp_source` passes on, and what is left. -/
def sourceItem
    (c : UInt8)
    (p : List UInt8) : List UInt8 × List UInt8 :=
  if isLetter c then
    (c :: p.takeWhile isWord, p.dropWhile isWord)
  else if isDigit c || (c == 46 && p.head?.any isDigit) then
    (c :: (numberRest c p).1, (numberRest c p).2)
  else if c == 34 || c == 39 then
    (c :: (sourceLiteral c p).1, (sourceLiteral c p).2)
  else ([c], p)

/- One turn of the loop in `pp_source`. -/
def sourceStep
    (header : Bool)
    (deeper : Deeper)
    (fresh : Bool)
    (c : UInt8)
    (p : List UInt8)
    (st : Pp) : PpResult (Pp × Bool × List UInt8) :=
  if c == 10 then do
    let st ← ppEmit (if header then 32 else 10) st
    .ok (st, true, p)
  else if isBlank c then do
    let st ← ppEmit c st
    .ok (st, fresh, p)
  else if c == 47 && p.head? == some 47 then do
    let st ← ppEmit 32 st
    .ok (st, fresh, p.dropWhile (· != 10))
  else if c == 47 && p.head? == some 42 then do
    let st ← ppEmit 32 st
    sourceComment header fresh p.tail st
  else if c == 35 then
    if !fresh then
      ppFail st "directive must start a line"
    else do
      let st ← ppDirective deeper p st
      .ok (st, fresh, p.dropWhile (· != 10))
  else do
    let st ← ppExpand ppDepth (sourceItem c p).1 st
    .ok (st, false, (sourceItem c p).2)

/- The loop in `pp_source`; every turn takes a byte. -/
def sourceLoop
    (header : Bool)
    (deeper : Deeper) :
    (turns : Nat) → (fresh : Bool) → List UInt8 → Pp →
      PpResult Pp
  | _, _, [], st => .ok st
  | 0, _, _ :: _, st => .ok st
  | turns + 1, fresh, c :: p, st => do
      let (st, fresh, rest) ←
        sourceStep header deeper fresh c p st
      sourceLoop header deeper turns fresh rest st

/-
  `pp_source`, with the levels left below
  `PP_INCLUDE_DEPTH`: only the source itself has them all.
-/
def ppSource :
    (levels : Nat) → List UInt8 → Pp → PpResult Pp
  | 0, text, st =>
      sourceLoop true none text.length true text st
  | levels + 1, text, st =>
      sourceLoop (levels + 1 != ppIncludeDepth)
        (some (ppSource levels)) text.length true text st

/- The state that `preprocess` starts from. -/
def ppStart : Pp where
  macros := []
  output := []
  work := 0
  line := 1
  included := 0
  including := 0
  macrosFit := Nat.zero_le _
  outputFits := Nat.zero_le _

/- `preprocess`. -/
def preprocess
    (source : List UInt8) : PpResult (List UInt8) := do
  let st ← ppSource ppIncludeDepth source ppStart
  .ok st.output

end KvantOS.Compiler
