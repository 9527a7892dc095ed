import KvantOS.User.Space
import KvantOS.Data.CString

/-
  This file models the service of kernel/user_service.c that
  a user program makes its requests to: events, drawing, and
  private files in memory.

  A request is a function of the service and of the memory
  that the program shares. The arrays `scratch` and `rects`
  are only read after the same request has filled them, so
  they are not part of the state.

  Key definitions include:
    * `KsService`, `KsRequest`
    * `ksInit`, `ksPost`
    * `openFile`, `fileIo`
    * `draw`, `text`, `line`, `list`
    * `ksDispatch`
-/

namespace KvantOS.User

--
-- Constants
--

def ksVersion : Nat := 1
def ksFiles : Nat := 8
def ksFileBytes : Nat := 1024
def ksHandles : Nat := 8
def ksCommands : Nat := 32
def ksTextBytes : Nat := 127
def ksTextBudget : Nat := 1024

def ksEventDraw : Nat := 1
def ksEventKey : Nat := 2
def ksEventClick : Nat := 3
def ksEventTick : Nat := 4
def ksEventClose : Nat := 5

def ksOpenR : Nat := 1
def ksOpenW : Nat := 2
def ksOpenCreate : Nat := 4
def ksOpenTrunc : Nat := 8

/- The numbers of the requests. -/
def ksWait : Nat := 1
def ksComplete : Nat := 2
def ksDraw : Nat := 3
def ksOpen : Nat := 4
def ksRead : Nat := 5
def ksWrite : Nat := 6
def ksClose : Nat := 7
def ksDelete : Nat := 8
def ksText : Nat := 9
def ksQuery : Nat := 10
def ksStatus : Nat := 11
def ksInfo : Nat := 12
def ksLine : Nat := 13
def ksList : Nat := 14
def ksClock : Nat := 15

/- The capabilities that a query reports. -/
def ksCapRect : Nat := 1
def ksCapText : Nat := 2
def ksCapStatus : Nat := 4
def ksCapInfo : Nat := 8
def ksCapLine : Nat := 16
def ksCapList : Nat := 32
def ksCapClock : Nat := 64

/- The error codes. -/
def ksInvalid : Int := -1
def ksFault : Int := -2
def ksUnknown : Int := -3
def ksDenied : Int := -4
def ksQuota : Int := -5
def ksStale : Int := -6
def ksBusy : Int := -7
def ksAgain : Int := -8
def ksMissing : Int := -9

/- The sizes of the structures on the wire. -/
def requestBytes : Nat := 40
def eventBytes : Nat := 48
def rectBytes : Nat := 24
def textBytes : Nat := 24
def lineBytes : Nat := 24

--
-- State
--

/- A word of 32 bits as a signed number. -/
def signed (n : Nat) : Int :=
  if n < 2 ^ 31 then n else (n : Int) - 2 ^ 32

/- `ks_request`, as it is read from the program's memory. -/
structure KsRequest where
  version : Nat
  bytes : Nat
  op : Nat
  flags : Nat
  generation : Nat
  token : Nat
  a : Nat
  b : Nat
  c : Nat
  d : Nat

def KsRequest.ofBuf (b : Buf) : KsRequest where
  version := b.get32 0
  bytes := b.get32 4
  op := b.get32 8
  flags := b.get32 12
  generation := b.get32 16
  token := b.get32 20
  a := b.get32 24
  b := b.get32 28
  c := b.get32 32
  d := b.get32 36

/-
  `ks_event`. The coordinates, the key and the button are
  only passed on, as the words they are.
-/
structure KsEvent where
  version : Nat
  bytes : Nat
  generation : Nat
  id : Nat
  type : Nat
  deltaMs : Nat
  width : Nat
  height : Nat
  x : Nat
  y : Nat
  key : Nat
  button : Nat
  deriving DecidableEq

/- The words of a structure, one after the other. -/
def words : List Nat → Buf
  | [] => Buf.zero
  | w :: ws => (Buf.zero.put32 0 w).copy 4 (words ws)
      (4 * ws.length)

def KsEvent.toBuf (e : KsEvent) : Buf :=
  words [e.version, e.bytes, e.generation, e.id, e.type,
    e.deltaMs, e.width, e.height, e.x, e.y, e.key, e.button]

def KsEvent.zero : KsEvent :=
  ⟨0, 0, 0, 0, 0, 0, 0, 0, 0, 0, 0, 0⟩

/- `ks_rect`, `ks_text` and `ks_line`. -/
structure KsRect where
  type : Nat
  color : Nat
  x : Int
  y : Int
  w : Int
  h : Int

structure KsTextDraw where
  x : Int
  y : Int
  color : Nat
  bg : Nat
  bytes : List UInt8

structure KsLineDraw where
  x0 : Int
  y0 : Int
  x1 : Int
  y1 : Int
  color : Nat

/- The calls of the three sinks. -/
inductive KsSink where
  | rects (rects : List KsRect)
  | text (text : KsTextDraw)
  | line (line : KsLineDraw)

/- One of the service's files. -/
structure KsFile where
  name : Fin 32 → UInt8
  size : Nat
  refs : Nat
  used : Bool
  data : Buf

def KsFile.zero : KsFile :=
  ⟨fun _ => 0, 0, 0, false, Buf.zero⟩

/- One of the handles of the program. -/
structure KsHandle where
  cookie : Nat
  file : Nat
  rights : Nat

def KsHandle.zero : KsHandle :=
  ⟨0, 0, 0⟩

/-
  `ks_service`. Of a sink only matters whether it is there,
  and its calls are part of what a request does.
-/
structure KsService where
  generation : Nat
  nextHandle : Nat
  nextEvent : Nat
  width : Nat
  height : Nat
  drawLeft : Nat
  textLeft : Nat
  hz : Nat
  language : Nat
  live : Bool
  pending : Bool
  delivered : Bool
  event : KsEvent
  files : Nat → KsFile
  handles : Nat → KsHandle
  sink : Bool
  textSink : Bool
  lineSink : Bool
  status : Buf
  clock : Nat × Nat × Nat
  clockValid : Bool

def KsService.zero : KsService where
  generation := 0
  nextHandle := 0
  nextEvent := 0
  width := 0
  height := 0
  drawLeft := 0
  textLeft := 0
  hz := 0
  language := 0
  live := false
  pending := false
  delivered := false
  event := .zero
  files := fun _ => .zero
  handles := fun _ => .zero
  sink := false
  textSink := false
  lineSink := false
  status := Buf.zero
  clock := (0, 0, 0)
  clockValid := false

/- `ks_init`: the service after it, absent for an error. -/
def ksInit
    (s : KsService)
    (space : KuSpace)
    (generation width height : Nat)
    (sink : Bool) : Option KsService :=
  if !space.live || generation == 0 || width == 0 ||
      height == 0 || width > 4096 || height > 4096 ||
      s.live then
    none
  else
    some { KsService.zero with
      generation
      width
      height
      sink
      live := true }

/- `ks_post`. -/
def ksPost
    (s : KsService)
    (type delta x y key button : Nat) : Int × KsService :=
  if !s.live || type < 1 || type > 5 then
    (ksInvalid, s)
  else if s.pending then
    (ksBusy, s)
  else if s.nextEvent == 0xFFFFFFFF then
    (ksQuota, s)
  else
    (0, { s with
      nextEvent := s.nextEvent + 1
      event :=
        { version := ksVersion
          bytes := eventBytes
          generation := s.generation
          id := s.nextEvent + 1
          type
          deltaMs := if delta > 250 then 250 else delta
          width := s.width
          height := s.height
          x, y, key, button }
      pending := true
      delivered := false
      drawLeft := 64
      textLeft := ksTextBudget })

--
-- Requests
--

/- What a request works on: the service and the memory. -/
structure KsState where
  service : KsService
  mem : PhysMem

/- What a request returns and does. -/
structure KsOut where
  result : Int
  service : KsService
  mem : PhysMem
  sinks : List KsSink

/- A request that is refused does nothing. -/
def KsState.refuse
    (x : KsState)
    (code : Int) : KsOut :=
  ⟨code, x.service, x.mem, []⟩

/- A request that only changes the service. -/
def KsState.accept
    (x : KsState)
    (result : Int)
    (service : KsService) : KsOut :=
  ⟨result, service, x.mem, []⟩

/- A request that draws. -/
def KsState.drawn
    (x : KsState)
    (result : Int)
    (service : KsService)
    (sinks : List KsSink) : KsOut :=
  ⟨result, service, x.mem, sinks⟩

/- A request that only changes the memory. -/
def KsState.deliver
    (x : KsState)
    (result : Int)
    (mem : PhysMem) : KsOut :=
  ⟨result, x.service, mem, []⟩

section Requests

variable (mapped : Nat → Bool) (space : KuSpace)

--
-- Names
--

/- A byte that a name may have. -/
def nameByte (c : UInt8) : Bool :=
  (0x61 ≤ c && c ≤ 0x7A) || (0x41 ≤ c && c ≤ 0x5A) ||
    (0x30 ≤ c && c ≤ 0x39) || c == 0x2E || c == 0x2D ||
    c == 0x5F

/- The string in a buffer of 32 bytes that `n` bytes fill. -/
def nameString
    (b : Buf)
    (n : Nat) : CStr :=
  CStr.ofBuffer (n := 32)
    (fun i => if i.val < n then b i else 0)

/- The names `.` and `..`. -/
def isDotName (s : CStr) : Bool :=
  s.bytes == [0x2E] || s.bytes == [0x2E, 0x2E]

/- `filename`: the string, or the error code. -/
def filename
    (mem : PhysMem)
    (off n : Nat) : Except Int CStr :=
  if n < 2 || n > 32 then
    .error ksInvalid
  else
    match kuCopyin mapped space mem Buf.zero off n with
    | none => .error ksFault
    | some b =>
        if b (n - 1) != 0 || isDotName (nameString b n) then
          .error ksInvalid
        else if !(List.range (n - 1)).all
            (fun i => nameByte (b i)) then
          .error ksInvalid
        else
          .ok (nameString b n)

/- `node`. -/
def node
    (s : KsService)
    (name : CStr) : Option Nat :=
  (List.range ksFiles).find? (fun i =>
    (s.files i).used && CStr.ofBuffer (s.files i).name == name)

/- `handle`: the number of the handle, or the error code. -/
def handle
    (s : KsService)
    (cookie rights : Nat) : Except Int Nat :=
  match (List.range ksHandles).find? (fun i =>
      cookie != 0 && (s.handles i).cookie == cookie) with
  | none => .error ksStale
  | some i =>
      if (s.handles i).rights &&& rights != rights then
        .error ksDenied
      else
        .ok i

/- A file that is not used, and a handle that is not open. -/
def freeFile (s : KsService) : Option Nat :=
  (List.range ksFiles).find? (fun i => !(s.files i).used)

def freeHandle (s : KsService) : Option Nat :=
  (List.range ksHandles).find? (fun i =>
    (s.handles i).cookie == 0)

--
-- Files
--

def KsService.setFile
    (s : KsService)
    (f : Nat)
    (change : KsFile → KsFile) : KsService :=
  { s with
    files := Function.update s.files f (change (s.files f)) }

def KsService.setHandle
    (s : KsService)
    (h : Nat)
    (value : KsHandle) : KsService :=
  { s with handles := Function.update s.handles h value }

/- The file as `open_file` finds or makes it. -/
def preparedFile
    (file : KsFile)
    (name : CStr)
    (fresh truncate : Bool) : KsFile :=
  let file :=
    if fresh then
      { KsFile.zero with
        name := CStr.toBuffer 32 name
        used := true }
    else file
  if truncate then { file with data := Buf.zero, size := 0 }
  else file

/- The end of `open_file`: the handle is issued. -/
def issue
    (s : KsService)
    (name : CStr)
    (f h : Nat)
    (fresh : Bool)
    (flags : Nat) : KsService :=
  let s := s.setFile f (fun file =>
    preparedFile file name fresh
      (Paging.has flags ksOpenTrunc))
  let s := s.setFile f (fun file =>
    { file with refs := file.refs + 1 })
  let s := { s with nextHandle := s.nextHandle + 1 }
  s.setHandle h
    ⟨s.nextHandle, f, flags &&& 3⟩

/- The flags of `open_file` that are refused. -/
def openFlagsOk (flags : Nat) : Bool :=
  flags &&& 3 != 0 && flags &&& 0xFFFFFFF0 == 0 &&
    (flags &&& 12 == 0 || Paging.has flags ksOpenW)

/- `open_file`. -/
def openFile
    (x : KsState)
    (r : KsRequest) : KsOut :=
  let s := x.service
  match filename mapped space x.mem r.a r.b with
  | .error code => x.refuse code
  | .ok name =>
      if r.d != 0 || !openFlagsOk r.c then
        x.refuse ksInvalid
      else
        let found := node s name
        if found.isNone && !Paging.has r.c ksOpenCreate then
          x.refuse ksMissing
        else
          match found.or (freeFile s), freeHandle s with
          | some f, some h =>
              if s.nextHandle == 0x7FFFFFFF then
                x.refuse ksQuota
              else
                x.accept (s.nextHandle + 1)
                  (issue s name f h found.isNone r.c)
          | _, _ => x.refuse ksQuota

/- The bytes that a read of a file delivers. -/
def readCount
    (file : KsFile)
    (off n : Nat) : Nat :=
  if off ≥ file.size then 0
  else if n > file.size - off then file.size - off
  else n

/- The file after a write. -/
def writtenFile
    (file : KsFile)
    (off : Nat)
    (src : Buf)
    (n : Nat) : KsFile :=
  { file with
    data := file.data.copy off src n
    size := if off + n > file.size then off + n
      else file.size }

/- `file_io`. -/
def fileIo
    (x : KsState)
    (r : KsRequest) : KsOut :=
  let s := x.service
  let reads := r.op == ksRead
  match handle s r.a (if reads then ksOpenR else ksOpenW) with
  | .error code => x.refuse code
  | .ok h =>
      let f := (s.handles h).file
      if r.d > ksFileBytes || r.c > ksFileBytes - r.d then
        x.refuse ksQuota
      else if reads then
        let n := readCount (s.files f) r.d r.c
        match kuCopyout mapped space x.mem r.b
            ((s.files f).data.drop r.d) n with
        | none => x.refuse ksFault
        | some mem => x.deliver n mem
      else
        match kuCopyin mapped space x.mem Buf.zero r.b
            r.c with
        | none => x.refuse ksFault
        | some src =>
            x.accept r.c (if r.c != 0 then
              s.setFile f (fun file =>
                writtenFile file r.d src r.c)
            else s)

/- `KS_CLOSE`. -/
def closeFile
    (x : KsState)
    (r : KsRequest) : KsOut :=
  let s := x.service
  if r.b != 0 || r.c != 0 || r.d != 0 then
    x.refuse ksInvalid
  else
    match handle s r.a 0 with
    | .error code => x.refuse code
    | .ok h =>
        let s := s.setFile (s.handles h).file (fun file =>
          { file with refs := file.refs - 1 })
        x.accept 0 (s.setHandle h .zero)

/- `KS_DELETE`. -/
def deleteFile
    (x : KsState)
    (r : KsRequest) : KsOut :=
  let s := x.service
  if r.c != 0 || r.d != 0 then
    x.refuse ksInvalid
  else
    match filename mapped space x.mem r.a r.b with
    | .error code => x.refuse code
    | .ok name =>
        match node s name with
        | none => x.refuse ksMissing
        | some f =>
            if (s.files f).refs != 0 then
              x.refuse ksBusy
            else
              x.accept 0 (s.setFile f (fun _ => .zero))

/- The files in use, in the order of their numbers. -/
def usedFiles (s : KsService) : List Nat :=
  (List.range ksFiles).filter (fun i => (s.files i).used)

/- The bytes of a name that `list` delivers. -/
def listedName (file : KsFile) : Buf :=
  fun i => if h : i < 32 then file.name ⟨i, h⟩ else 0

/- `list`. -/
def list
    (x : KsState)
    (r : KsRequest) : KsOut :=
  let s := x.service
  if r.d != 0 then
    x.refuse ksInvalid
  else if r.a ≥ ksFiles then
    x.refuse ksMissing
  else
    match (usedFiles s)[r.a]? with
    | none => x.refuse ksMissing
    | some f =>
        if !kuCheck mapped space x.mem r.b 40
              (kuR ||| kuW) ||
            !kuCheck mapped space x.mem r.c 4
              (kuR ||| kuW) then
          x.refuse ksFault
        else if r.b < r.c + 4 && r.c < r.b + 40 then
          x.refuse ksInvalid
        else
          match kuCopyout mapped space x.mem r.b
              (listedName (s.files f)) 40 with
          | none => x.refuse ksFault
          | some mem =>
              match kuCopyout mapped space mem r.c
                  (words [(s.files f).size]) 4 with
              | none => ⟨ksFault, s, mem, []⟩
              | some mem => x.deliver 0 mem

--
-- Drawing
--

/- The token is that of a draw event that was delivered. -/
def drawToken
    (s : KsService)
    (r : KsRequest) : Bool :=
  s.pending && s.delivered && s.event.type == ksEventDraw &&
    r.token == s.event.id

/- A `ks_rect` on the wire. -/
def KsRect.ofBuf (b : Buf) : KsRect where
  type := b.get32 0
  color := b.get32 4
  x := signed (b.get32 8)
  y := signed (b.get32 12)
  w := signed (b.get32 16)
  h := signed (b.get32 20)

def KsRect.ok (c : KsRect) : Bool :=
  (c.type == 1 || c.type == 2) && c.w > 0 && c.h > 0

/- The part of a rectangle on the canvas, if there is one. -/
def KsRect.clip
    (width height : Nat)
    (c : KsRect) : Option KsRect :=
  let x1 := max c.x 0
  let y1 := max c.y 0
  let x2 := min (c.x + c.w) width
  let y2 := min (c.y + c.h) height
  if x2 ≤ x1 || y2 ≤ y1 then
    none
  else
    some
      { c with
        x := x1
        y := y1
        w := x2 - x1
        h := y2 - y1
        color := c.color &&& 0xFFFFFF }

/- The rectangles of a request. -/
def requestRects
    (b : Buf)
    (count : Nat) : List KsRect :=
  (List.range count).map (fun i =>
    KsRect.ofBuf (b.drop (i * rectBytes)))

/- `draw`. -/
def draw
    (x : KsState)
    (r : KsRequest) : KsOut :=
  let s := x.service
  if !drawToken s r then
    x.refuse ksStale
  else if r.b == 0 || r.b > ksCommands || r.c != 0 ||
      r.d != 0 then
    x.refuse ksInvalid
  else if r.b > s.drawLeft then
    x.refuse ksQuota
  else
    match kuCopyin mapped space x.mem Buf.zero r.a
        (r.b * rectBytes) with
    | none => x.refuse ksFault
    | some b =>
        let rects := requestRects b r.b
        if !rects.all KsRect.ok then
          x.refuse ksInvalid
        else
          let drawn := rects.filterMap
            (KsRect.clip s.width s.height)
          x.drawn drawn.length
            { s with drawLeft := s.drawLeft - r.b }
            (if s.sink then [.rects drawn] else [])

/-
  The first byte of a longer UTF-8 sequence: its bits, how
  many bytes follow, and the least number to be so encoded.
-/
def leadByte (c : Nat) : Option (Nat × Nat × Nat) :=
  if 0xC2 ≤ c ∧ c ≤ 0xDF then some (c &&& 31, 1, 128)
  else if 0xE0 ≤ c ∧ c ≤ 0xEF then some (c &&& 15, 2, 2048)
  else if 0xF0 ≤ c ∧ c ≤ 0xF4 then some (c &&& 7, 3, 65536)
  else none

/- The loop of `glyph_count` over the bytes that follow. -/
def followBytes
    (cp : Nat) :
    List UInt8 → Option Nat
  | [] => some cp
  | c :: rest =>
      if c &&& 0xC0 != 0x80 then none
      else followBytes (cp <<< 6 ||| (c.toNat &&& 63)) rest

/- `glyph_count`; at most `fuel` glyphs. -/
def glyphCount :
    (fuel : Nat) → List UInt8 → Option Nat
  | _, [] => some 0
  | 0, _ :: _ => none
  | fuel + 1, c :: rest =>
      if c < 128 then
        if c < 32 || c == 127 then none
        else (glyphCount fuel rest).map (· + 1)
      else
        match leadByte c.toNat with
        | none => none
        | some (bits, more, least) =>
            if more > rest.length then
              none
            else
              match followBytes bits (rest.take more) with
              | none => none
              | some cp =>
                  if cp < least || cp > 0x10FFFF ||
                      (cp ≥ 0xD800 && cp ≤ 0xDFFF) then
                    none
                  else
                    (glyphCount fuel (rest.drop more)).map
                      (· + 1)

/- The glyphs in a snapshot of `n` bytes. -/
def glyphs
    (b : Buf)
    (n : Nat) : Option Nat :=
  glyphCount n (b.toList n)

/- `text`. -/
def text
    (x : KsState)
    (r : KsRequest) : KsOut :=
  let s := x.service
  if !drawToken s r then
    x.refuse ksStale
  else if r.b != textBytes || r.c != 0 || r.d != 0 then
    x.refuse ksInvalid
  else if !s.textSink then
    x.refuse ksDenied
  else
    match kuCopyin mapped space x.mem Buf.zero r.a
        textBytes with
    | none => x.refuse ksFault
    | some w =>
        let length := w.get32 20
        if length == 0 || length > ksTextBytes then
          x.refuse ksInvalid
        else if s.drawLeft == 0 || length > s.textLeft then
          x.refuse ksQuota
        else
          match kuCopyin mapped space x.mem Buf.zero
              (w.get32 16) length with
          | none => x.refuse ksFault
          | some bytes =>
              match glyphs bytes length with
              | none => x.refuse ksInvalid
              | some count =>
                  let left := signed (w.get32 0)
                  let top := signed (w.get32 4)
                  let bg := w.get32 12
                  let s' :=
                    { s with
                      drawLeft := s.drawLeft - 1
                      textLeft := s.textLeft - length }
                  if left + count * 8 ≤ 0 ||
                      left ≥ s.width || top + 16 ≤ 0 ||
                      top ≥ s.height then
                    x.drawn 0 s' []
                  else
                    x.drawn length s' [.text
                      { x := left
                        y := top
                        color := w.get32 8 &&& 0xFFFFFF
                        bg := if bg == 0xFFFFFFFF then bg
                          else bg &&& 0xFFFFFF
                        bytes := bytes.toList length }]

/- `outcode`. -/
def outcode
    (x y : Int)
    (w h : Nat) : Nat :=
  (if x < 0 then 1 else if x ≥ w then 2 else 0) |||
    (if y < 0 then 4 else if y ≥ h then 8 else 0)

/- `ratio`, with its product of 32 bits. -/
def ratio (a b c : Int) : Int :=
  let q : Int :=
    (a.natAbs * b.natAbs % 2 ^ 32 / c.natAbs : Nat)
  if (a < 0) != ((b < 0) != (c < 0)) then -q else q

/- How the clipping of a line ends. -/
inductive Clipped where
  | inside (l : KsLineDraw)
  | outside
  | invalid

/-
  One step of the loop in `line`: the line with one end
  moved to the border, or the end of the loop.
-/
def clipStep
    (w h : Nat)
    (l : KsLineDraw) : Clipped ⊕ KsLineDraw :=
  let a := outcode l.x0 l.y0 w h
  let b := outcode l.x1 l.y1 w h
  if a ||| b == 0 then
    .inl (.inside l)
  else if a &&& b != 0 then
    .inl .outside
  else
    let pick := if a != 0 then a else b
    let dx := l.x1 - l.x0
    let dy := l.y1 - l.y0
    let move (x y : Int) : Clipped ⊕ KsLineDraw :=
      if a != 0 then .inr { l with x0 := x, y0 := y }
      else .inr { l with x1 := x, y1 := y }
    if pick &&& 12 != 0 then
      if dy == 0 then
        .inl .invalid
      else
        let y : Int := if pick &&& 4 != 0 then 0 else h - 1
        move (l.x0 + ratio dx (y - l.y0) dy) y
    else
      if dx == 0 then
        .inl .invalid
      else
        let x : Int := if pick &&& 1 != 0 then 0 else w - 1
        move x (l.y0 + ratio dy (x - l.x0) dx)

/- The loop in `line`. -/
def clipLine
    (w h : Nat) :
    (steps : Nat) → KsLineDraw → Clipped
  | 0, _ => .invalid
  | steps + 1, l =>
      match clipStep w h l with
      | .inl done => done
      | .inr l => clipLine w h steps l

/- The ends of a line fit in 16 bits. -/
def shortEnds (l : KsLineDraw) : Bool :=
  [l.x0, l.y0, l.x1, l.y1].all (fun v =>
    -32768 ≤ v && v ≤ 32767)

/- `line`. -/
def line
    (x : KsState)
    (r : KsRequest) : KsOut :=
  let s := x.service
  if !drawToken s r then
    x.refuse ksStale
  else if r.b != lineBytes || r.c != 0 || r.d != 0 then
    x.refuse ksInvalid
  else if !s.lineSink then
    x.refuse ksDenied
  else
    match kuCopyin mapped space x.mem Buf.zero r.a
        lineBytes with
    | none => x.refuse ksFault
    | some b =>
        let l : KsLineDraw :=
          { x0 := signed (b.get32 0)
            y0 := signed (b.get32 4)
            x1 := signed (b.get32 8)
            y1 := signed (b.get32 12)
            color := b.get32 16 }
        if b.get32 20 != 0 || !shortEnds l then
          x.refuse ksInvalid
        else if s.drawLeft == 0 then
          x.refuse ksQuota
        else
          let s' := { s with drawLeft := s.drawLeft - 1 }
          match clipLine s.width s.height 8 l with
          | .inside l =>
              x.drawn 1 s' [.line
                { l with color := l.color &&& 0xFFFFFF }]
          | .outside => x.drawn 0 s' []
          | .invalid => x.refuse ksInvalid

--
-- Dispatch
--

/- `KS_WAIT`. -/
def waitEvent
    (x : KsState)
    (r : KsRequest) : KsOut :=
  let s := x.service
  if r.c != 0 || r.d != 0 || r.b != eventBytes then
    x.refuse ksInvalid
  else if !s.pending then
    x.refuse ksAgain
  else
    match kuCopyout mapped space x.mem r.a s.event.toBuf
        eventBytes with
    | none => x.refuse ksFault
    | some mem =>
        ⟨eventBytes, { s with delivered := true }, mem, []⟩

/- `KS_COMPLETE`. -/
def complete
    (x : KsState)
    (r : KsRequest) : KsOut :=
  let s := x.service
  if r.a != 0 || r.b != 0 || r.c != 0 || r.d != 0 then
    x.refuse ksInvalid
  else if !s.pending || !s.delivered ||
      r.token != s.event.id then
    x.refuse ksStale
  else
    x.accept 0 { s with pending := false, delivered := false }

/- `KS_QUERY`. -/
def query
    (x : KsState)
    (r : KsRequest) : KsOut :=
  let s := x.service
  if r.a != 0 || r.b != 0 || r.c != 0 || r.d != 0 then
    x.refuse ksInvalid
  else
    x.accept (ksCapRect ||| ksCapStatus ||| ksCapInfo |||
      ksCapList ||| ksCapClock |||
      (if s.textSink then ksCapText else 0) |||
      (if s.lineSink then ksCapLine else 0) : Nat) s

/- `KS_STATUS`. -/
def setStatus
    (x : KsState)
    (r : KsRequest) : KsOut :=
  let s := x.service
  if r.b > 95 || r.c != 0 || r.d != 0 then
    x.refuse ksInvalid
  else
    match kuCopyin mapped space x.mem Buf.zero r.a r.b with
    | none => x.refuse ksFault
    | some b =>
        match glyphs b r.b with
        | none => x.refuse ksInvalid
        | some _ => x.accept 0 { s with status := b }

/- A request that delivers a row of words. -/
def deliverWords
    (x : KsState)
    (off : Nat)
    (values : List Nat) : KsOut :=
  match kuCopyout mapped space x.mem off (words values)
      (4 * values.length) with
  | none => x.refuse ksFault
  | some mem => x.deliver (4 * values.length : Nat) mem

/- `KS_INFO`. -/
def info
    (x : KsState)
    (r : KsRequest) : KsOut :=
  let s := x.service
  if r.b != 16 || r.c != 0 || r.d != 0 then
    x.refuse ksInvalid
  else
    deliverWords mapped space x r.a
      [1, 16, s.hz, s.language]

/- `KS_CLOCK`. -/
def readClock
    (x : KsState)
    (r : KsRequest) : KsOut :=
  let s := x.service
  if r.b != 20 || r.c != 0 || r.d != 0 then
    x.refuse ksInvalid
  else if !s.clockValid || s.clock.1 > 23 ||
      s.clock.2.1 > 59 || s.clock.2.2 > 59 then
    x.refuse ksAgain
  else
    deliverWords mapped space x r.a
      [1, 20, s.clock.1, s.clock.2.1, s.clock.2.2]

/- The request that the number stands for. -/
def perform
    (x : KsState)
    (r : KsRequest) : KsOut :=
  if r.op == ksWait then waitEvent mapped space x r
  else if r.op == ksComplete then complete x r
  else if r.op == ksDraw then draw mapped space x r
  else if r.op == ksText then text mapped space x r
  else if r.op == ksLine then line mapped space x r
  else if r.op == ksList then list mapped space x r
  else if r.op == ksQuery then query x r
  else if r.op == ksStatus then setStatus mapped space x r
  else if r.op == ksInfo then info mapped space x r
  else if r.op == ksClock then readClock mapped space x r
  else if r.op == ksOpen then openFile mapped space x r
  else if r.op == ksRead || r.op == ksWrite then
    fileIo mapped space x r
  else if r.op == ksClose then closeFile x r
  else if r.op == ksDelete then deleteFile mapped space x r
  else x.refuse ksUnknown

/- The requests that may have a token. -/
def takesToken (op : Nat) : Bool :=
  op == ksComplete || op == ksDraw || op == ksText ||
    op == ksLine

/- The checks on a request that do not depend on its kind. -/
def requestError
    (s : KsService)
    (r : KsRequest) : Option Int :=
  if r.version != ksVersion || r.bytes != requestBytes ||
      r.flags != 0 then
    some ksInvalid
  else if r.generation != s.generation then
    some ksDenied
  else if r.token != 0 && !takesToken r.op then
    some ksInvalid
  else
    none

/- `ks_dispatch`. -/
def ksDispatch
    (x : KsState)
    (off size : Nat) : KsOut :=
  let s := x.service
  if !s.live || !space.live || space.pins == 0 then
    x.refuse ksInvalid
  else if size != requestBytes then
    x.refuse ksInvalid
  else
    match kuCopyin mapped space x.mem Buf.zero off
        requestBytes with
    | none => x.refuse ksFault
    | some b =>
        let r := KsRequest.ofBuf b
        match requestError s r with
        | some code => x.refuse code
        | none => perform mapped space x r

end Requests

end KvantOS.User
