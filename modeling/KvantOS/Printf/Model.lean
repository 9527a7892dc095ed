import KvantOS.Block.Bytes
import KvantOS.Data.CString

/-
  This file models the formatting of the source file
  `printf.c`: `kvprintf` over any sink, and the functions
  that format into a buffer.

  Key definitions include:
    * `Arg`, `Fault`, `outNum`
    * `kvprintf`, `emitBuf`
    * `ksnprintf`, `ksnprintfRet`, `kvsnprintfV`
-/

namespace KvantOS.Printf

--
-- Faults And Arguments
--

/- What the code can do outside of its buffers. -/
inductive Fault where
  /- The format is read behind its terminator. -/
  | overread
  /- `tmp` is written behind its end. -/
  | overrun
  /- A sink writes outside of its buffer. -/
  | outside
  /- An argument of another type is taken. -/
  | argument
  deriving DecidableEq

/- An argument: a 32-bit value, a pointer or a string. -/
inductive Arg where
  | word (v : UInt32)
  | ptr (v : UInt64)
  | str (s : Option CStr)
  deriving DecidableEq

/- `va_arg(ap, u32)` and `va_arg(ap, int)`. -/
def vaWord : List Arg → Except Fault (UInt32 × List Arg)
  | .word v :: args => .ok (v, args)
  | _ => .error .argument

/- `va_arg(ap, void *)`. -/
def vaPtr : List Arg → Except Fault (UInt64 × List Arg)
  | .ptr v :: args => .ok (v, args)
  | _ => .error .argument

/- `va_arg(ap, const char *)`. -/
def vaStr : List Arg → Except Fault (Option CStr × List Arg)
  | .str s :: args => .ok (s, args)
  | _ => .error .argument

/- The bytes of a literal. -/
def ch (c : Char) : UInt8 :=
  c.toNat.toUInt8

def chars (s : String) : List UInt8 :=
  s.toList.map ch

/- The digits of a number. -/
def digits (upper : Bool) : List UInt8 :=
  chars (if upper then "0123456789ABCDEF"
    else "0123456789abcdef")

def isDigit (c : UInt8) : Bool :=
  ch '0' ≤ c && c ≤ ch '9'

--
-- Numbers
--

/- `tmp[i++] = c`, for the first `i` bytes of `tmp`. -/
def pushTmp
    (tmp : List UInt8)
    (c : UInt8) : Except Fault (List UInt8) :=
  if tmp.length < 36 then
    .ok (tmp ++ [c])
  else
    .error .overrun

/- The loop over the digits, of which there are at most 32. -/
def pushDigits
    (base : Nat)
    (upper : Bool) :
    (turns v : Nat) → List UInt8 → Except Fault (List UInt8)
  | 0, _, tmp => .ok tmp
  | turns + 1, v, tmp =>
      if v = 0 then
        .ok tmp
      else do
        let tmp ←
          pushTmp tmp ((digits upper).getD (v % base) 0)
        pushDigits base upper turns (v / base) tmp

/- `if (v == 0) tmp[i++] = '0'`, in the empty buffer. -/
def pushZero (v : UInt32) : Except Fault (List UInt8) :=
  if v == 0 then pushTmp [] (ch '0') else .ok []

/- `if (neg) tmp[i++] = '-'`. -/
def pushSign
    (neg : Bool)
    (tmp : List UInt8) : Except Fault (List UInt8) :=
  if neg then pushTmp tmp (ch '-') else .ok tmp

/- The loop that pads with `n` characters. -/
def pushPad
    (c : UInt8) :
    (n : Nat) → List UInt8 → Except Fault (List UInt8)
  | 0, tmp => .ok tmp
  | n + 1, tmp => do
      let tmp ← pushTmp tmp c
      pushPad c n tmp

section Sinks

variable {σ : Type}
variable (emit : UInt8 → σ → Except Fault σ)

/- `emit`, for one character after the other. -/
def emitAll
    (s : List UInt8)
    (ctx : σ) : Except Fault σ :=
  s.foldlM (fun ctx c => emit c ctx) ctx

/- `out_str`. -/
def outStr
    (ctx : σ)
    (s : CStr) : Except Fault σ :=
  emitAll emit s.bytes ctx

/- `out_num`. -/
def outNum
    (ctx : σ)
    (value : UInt32)
    (base : Nat)
    (isSigned : Bool)
    (width : Int)
    (zero upper : Bool) : Except Fault σ := do
  let neg := isSigned && 0x80000000 ≤ value
  let v := if neg then 0 - value else value
  let tmp ← pushZero v
  let tmp ← pushDigits base upper 32 v.toNat tmp
  let tmp ← pushSign neg tmp
  let tmp ← pushPad (if zero then ch '0' else ch ' ')
    (width - tmp.length).toNat tmp
  emitAll emit tmp.reverse ctx

--
-- Formats
--

/- The cases of the `switch` over the conversion. -/
inductive Conv where
  | num (base : Nat) (isSigned upper : Bool)
  | ptr
  | chr
  | str
  | percent
  | other
  deriving DecidableEq

def switch (c : UInt8) : Conv :=
  if c = ch 'd' ∨ c = ch 'i' then .num 10 true false
  else if c = ch 'u' then .num 10 false false
  else if c = ch 'x' then .num 16 false false
  else if c = ch 'X' then .num 16 false true
  else if c = ch 'b' then .num 2 false false
  else if c = ch 'p' then .ptr
  else if c = ch 'c' then .chr
  else if c = ch 's' then .str
  else if c = ch '%' then .percent
  else .other

/- What a null pointer prints as. -/
def nullText : CStr :=
  ⟨chars "(null)", by decide⟩

/- One conversion, with its flag and width. -/
def convert
    (c : UInt8)
    (zero : Bool)
    (width : Int)
    (args : List Arg)
    (ctx : σ) : Except Fault (List Arg × σ) :=
  match switch c with
  | .num base isSigned upper => do
      let (v, args) ← vaWord args
      let ctx ← outNum emit ctx v base isSigned width zero
        upper
      .ok (args, ctx)
  | .ptr => do
      let ctx ← emitAll emit (chars "0x") ctx
      let (v, args) ← vaPtr args
      let ctx ← outNum emit ctx v.toUInt32 16 false 8 true
        false
      .ok (args, ctx)
  | .chr => do
      let (v, args) ← vaWord args
      let ctx ← emit v.toUInt8 ctx
      .ok (args, ctx)
  | .str => do
      let (s, args) ← vaStr args
      let ctx ← outStr emit ctx (s.getD nullText)
      .ok (args, ctx)
  | .percent => do
      let ctx ← emit (ch '%') ctx
      .ok (args, ctx)
  | .other => do
      let ctx ← emit (ch '%') ctx
      let ctx ← emit c ctx
      .ok (args, ctx)

/- The flag before a width. -/
def readZero : List UInt8 → Bool × List UInt8
  | [] => (false, [])
  | c :: p => if c == ch '0' then (true, p) else (false, c :: p)

/- The loop over the digits of a width, an `int`. -/
def readWidth : (width : Int) → List UInt8 → Int × List UInt8
  | width, [] => (width, [])
  | width, c :: p =>
      if isDigit c then
        readWidth (Int.bmod (width * 10 +
          (c.toNat - 48 : Int)) (2 ^ 32)) p
      else
        (width, c :: p)

/-
  The loop over the format, from what is left of it before
  the terminator.
-/
def kvprintfLoop :
    (turns : Nat) → List UInt8 → List Arg → σ →
      Except Fault σ
  | 0, _, _, ctx => .ok ctx
  | _ + 1, [], _, ctx => .ok ctx
  | turns + 1, c :: p, args, ctx =>
      if c != ch '%' then do
        let ctx ← emit c ctx
        kvprintfLoop turns p args ctx
      else
        let (zero, p) := readZero p
        let (width, p) := readWidth 0 p
        match p with
        | [] => do
            -- the terminator is taken for a conversion
            let ctx ← emit (ch '%') ctx
            let _ ← emit 0 ctx
            .error .overread
        | c :: p => do
            let (args, ctx) ← convert emit c zero width args ctx
            kvprintfLoop turns p args ctx

def kvprintf
    (ctx : σ)
    (fmt : CStr)
    (args : List Arg) : Except Fault σ :=
  kvprintfLoop emit fmt.length fmt.bytes args ctx

end Sinks

--
-- Buffers
--

/- `sbuf_t`. -/
structure SBuf where
  buf : Buf
  size : Nat
  pos : Nat

/- `emit_buf`, with a `size_t` of `bits` bits. -/
def emitBuf
    (bits : Nat)
    (c : UInt8)
    (s : SBuf) : Except Fault SBuf :=
  let next := (s.pos + 1) % 2 ^ bits
  if next < s.size then
    if s.pos < s.size then
      .ok { s with
        buf := Function.update s.buf s.pos c
        pos := next }
    else
      .error .outside
  else
    .ok { s with pos := next }

/- Where the terminator goes. -/
def SBuf.stop (s : SBuf) : Nat :=
  if s.pos < s.size then s.pos else s.size - 1

/- The buffer with its terminator. -/
def SBuf.closed (s : SBuf) : Buf :=
  if s.size = 0 then s.buf
  else Function.update s.buf s.stop 0

variable (bits : Nat)

def ksnprintf
    (buf : Buf)
    (size : Nat)
    (fmt : CStr)
    (args : List Arg) : Except Fault Buf := do
  let s ← kvprintf (emitBuf bits) ⟨buf, size, 0⟩ fmt args
  .ok s.closed

/- `ksnprintf_ret`; the result is an `int`. -/
def ksnprintfRet
    (buf : Buf)
    (size : Nat)
    (fmt : CStr)
    (args : List Arg) : Except Fault (Buf × Int) := do
  let s ← kvprintf (emitBuf bits) ⟨buf, size, 0⟩ fmt args
  .ok (s.closed, Int.bmod s.stop (2 ^ 32))

/- `kvsnprintf_v`, which `api_format` calls. -/
def kvsnprintfV
    (buf : Buf)
    (size : Nat)
    (fmt : CStr)
    (args : List Arg) : Except Fault Buf := do
  let s ← kvprintf (emitBuf bits) ⟨buf, size, 0⟩ fmt args
  .ok s.closed

end KvantOS.Printf
