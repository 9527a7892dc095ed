import KvantOS.User.Service

/-
  This file says, for each request of a user program, what
  it can do: it is refused with a negative code, or its
  guards hold and it has one effect.

  Key definitions include:
    * `KsState.Refused`, `GoodName`

  Key theorems include:
    * `filename_ok`, `handle_ok`
    * one theorem for each request, such as `draw_cases`
    * `ksDispatch_cases`
-/

namespace KvantOS.User

/- A request that was refused, with a negative code. -/
def KsState.Refused
    (x : KsState)
    (out : KsOut) : Prop :=
  ∃ code < 0, out = x.refuse code

variable {code : Int}

theorem KsState.refused
    (x : KsState)
    (hCode : code < 0) :
    x.Refused (x.refuse code) :=
  ⟨code, hCode, rfl⟩

theorem ksInvalid_neg : ksInvalid < 0 := by decide
theorem ksFault_neg : ksFault < 0 := by decide
theorem ksUnknown_neg : ksUnknown < 0 := by decide
theorem ksDenied_neg : ksDenied < 0 := by decide
theorem ksQuota_neg : ksQuota < 0 := by decide
theorem ksStale_neg : ksStale < 0 := by decide
theorem ksBusy_neg : ksBusy < 0 := by decide
theorem ksAgain_neg : ksAgain < 0 := by decide
theorem ksMissing_neg : ksMissing < 0 := by decide

section Requests

variable {mapped : Nat → Bool} {space : KuSpace}

/- A name that a file of the service may have. -/
structure GoodName (s : CStr) : Prop where
  nonempty : s.bytes ≠ []
  fits : s.length < 32
  bytes : ∀ c ∈ s.bytes, nameByte c = true
  notDots : isDotName s = false

theorem nameByte_ne_zero
    {c : UInt8}
    (hByte : nameByte c = true) :
    c ≠ 0 := by
  rintro rfl
  exact absurd hByte (by decide)

/-
  The bytes before the terminator are the string, when none
  of them is zero.
-/
theorem nameString_bytes
    {b : Buf}
    {n : Nat}
    (hLow : 0 < n)
    (hHigh : n ≤ 32)
    (hLast : b (n - 1) = 0)
    (hBytes : ∀ i < n - 1, nameByte (b i) = true) :
    (nameString b n).bytes =
      (List.range (n - 1)).map b := by
  have hNoNul : 0 ∉ (List.range (n - 1)).map b := by
    intro hMem
    rcases List.mem_map.mp hMem with ⟨i, hIn, hZero⟩
    exact nameByte_ne_zero
      (hBytes i (List.mem_range.mp hIn)) hZero
  have hString : nameString b n =
      ⟨(List.range (n - 1)).map b, hNoNul⟩ := by
    apply CStr.ofBuffer_eq
    · simp only [CStr.length, List.length_map,
        List.length_range]
      omega
    · intro i hIndex
      simp only [CStr.length, List.length_map,
        List.length_range] at hIndex
      have hInside : i.val < n := by omega
      rw [if_pos hInside]
      rcases Nat.lt_or_ge i.val (n - 1) with hLt | hGe
      · simp [List.getD_eq_getElem?_getD, hLt]
      · have hEq : i.val = n - 1 := by omega
        simp [List.getD_eq_getElem?_getD, hEq, hLast]
  rw [hString]

variable {mem : PhysMem} {off n : Nat}

theorem filename_error
    (hError :
      filename mapped space mem off n = .error code) :
    code < 0 := by
  unfold filename at hError
  split at hError
  · cases hError
    exact ksInvalid_neg
  · split at hError
    · cases hError
      exact ksFault_neg
    · split at hError
      · cases hError
        exact ksInvalid_neg
      · split at hError
        · cases hError
          exact ksInvalid_neg
        · cases hError

variable {name : CStr}

theorem filename_ok
    (hOk : filename mapped space mem off n = .ok name) :
    GoodName name := by
  unfold filename at hOk
  split at hOk
  · cases hOk
  · rename_i hLength
    simp only [Bool.or_eq_true, decide_eq_true_eq,
      not_or, Nat.not_lt] at hLength
    split at hOk
    · cases hOk
    · rename_i b _
      split at hOk
      · cases hOk
      · rename_i hEnd
        simp only [Bool.or_eq_true, bne_iff_ne, ne_eq,
          not_or, Decidable.not_not,
          Bool.not_eq_true] at hEnd
        split at hOk
        · cases hOk
        · rename_i hAll
          simp only [Bool.not_eq_true', Bool.not_eq_false,
            List.all_eq_true, List.mem_range] at hAll
          cases hOk
          have hBytes := nameString_bytes (by omega)
            hLength.2 hEnd.1 hAll
          refine ⟨?_, ?_, ?_, hEnd.2⟩
          · rw [hBytes]
            simp only [ne_eq, List.map_eq_nil_iff,
              List.range_eq_nil]
            omega
          · simp only [CStr.length, hBytes,
              List.length_map, List.length_range]
            omega
          · intro c hMem
            rw [hBytes] at hMem
            rcases List.mem_map.mp hMem with ⟨i, hIn, rfl⟩
            exact hAll i (List.mem_range.mp hIn)

--
-- Slots
--

variable {f : Nat} {s : KsService}

theorem node_some
    (hNode : node s name = some f) :
    f < ksFiles ∧ (s.files f).used = true ∧
      CStr.ofBuffer (s.files f).name = name := by
  have hMem := List.mem_of_find?_eq_some hNode
  have hTest := List.find?_some hNode
  simp only [Bool.and_eq_true, beq_iff_eq] at hTest
  exact ⟨List.mem_range.mp hMem, hTest⟩

theorem node_none
    (hNode : node s name = none)
    (hFile : f < ksFiles)
    (hUsed : (s.files f).used = true) :
    CStr.ofBuffer (s.files f).name ≠ name := by
  have hTest := List.find?_eq_none.mp hNode f
    (List.mem_range.mpr hFile)
  simpa [hUsed] using hTest

theorem handle_error
    {cookie rights : Nat}
    (hError : handle s cookie rights = .error code) :
    code < 0 := by
  unfold handle at hError
  split at hError
  · cases hError
    exact ksStale_neg
  · split at hError
    · cases hError
      exact ksDenied_neg
    · cases hError

theorem handle_ok
    {cookie rights h : Nat}
    (hOk : handle s cookie rights = .ok h) :
    h < ksHandles ∧ cookie ≠ 0 ∧
      (s.handles h).cookie = cookie := by
  unfold handle at hOk
  split at hOk
  · cases hOk
  · rename_i i hFind
    split at hOk
    · cases hOk
    · cases hOk
      have hMem := List.mem_of_find?_eq_some hFind
      have hTest := List.find?_some hFind
      simp only [Bool.and_eq_true, beq_iff_eq,
        bne_iff_ne] at hTest
      exact ⟨List.mem_range.mp hMem, hTest⟩

theorem freeFile_some
    (hFree : freeFile s = some f) :
    f < ksFiles ∧ (s.files f).used = false := by
  have hMem := List.mem_of_find?_eq_some hFree
  have hTest := List.find?_some hFree
  exact ⟨List.mem_range.mp hMem, by simpa using hTest⟩

theorem freeHandle_some
    {h : Nat}
    (hFree : freeHandle s = some h) :
    h < ksHandles ∧ (s.handles h).cookie = 0 := by
  have hMem := List.mem_of_find?_eq_some hFree
  have hTest := List.find?_some hFree
  exact ⟨List.mem_range.mp hMem, by simpa using hTest⟩

--
-- Events
--

/- A request with the token of the event that is drawn. -/
structure KsService.Drawing
    (s : KsService)
    (r : KsRequest) : Prop where
  pending : s.pending = true
  delivered : s.delivered = true
  draw : s.event.type = ksEventDraw
  token : r.token = s.event.id

variable {r : KsRequest}

theorem drawing_of_drawToken
    (hToken : drawToken s r = true) :
    s.Drawing r := by
  simp only [drawToken, Bool.and_eq_true,
    beq_iff_eq] at hToken
  rcases hToken with
    ⟨⟨⟨hPending, hDelivered⟩, hDraw⟩, hEq⟩
  exact ⟨hPending, hDelivered, hDraw, hEq⟩

theorem waitEvent_cases
    (x : KsState)
    (r : KsRequest) :
    x.Refused (waitEvent mapped space x r) ∨
      (x.service.pending = true ∧
        ∃ mem,
          kuCopyout mapped space x.mem r.a
            x.service.event.toBuf eventBytes = some mem ∧
          waitEvent mapped space x r =
            ⟨eventBytes,
              { x.service with delivered := true },
              mem, []⟩) := by
  simp only [waitEvent]
  split
  · exact .inl (x.refused ksInvalid_neg)
  · split
    · exact .inl (x.refused ksAgain_neg)
    · rename_i hPending
      rw [Bool.not_eq_true', Bool.not_eq_false] at hPending
      split
      · exact .inl (x.refused ksFault_neg)
      · rename_i mem hCopy
        exact .inr ⟨hPending, mem, hCopy, rfl⟩

theorem complete_cases
    (x : KsState)
    (r : KsRequest) :
    x.Refused (complete x r) ∨
      (x.service.pending = true ∧
        x.service.delivered = true ∧
        r.token = x.service.event.id ∧
        complete x r = x.accept 0
          { x.service with
            pending := false
            delivered := false }) := by
  simp only [complete]
  split
  · exact .inl (x.refused ksInvalid_neg)
  · split
    · exact .inl (x.refused ksStale_neg)
    · rename_i hToken
      simp only [Bool.or_eq_true, Bool.not_eq_true',
        bne_iff_ne, ne_eq, not_or, Bool.not_eq_false,
        Decidable.not_not] at hToken
      exact .inr ⟨hToken.1.1, hToken.1.2, hToken.2, rfl⟩

theorem draw_cases
    (x : KsState)
    (r : KsRequest) :
    x.Refused (draw mapped space x r) ∨
      (x.service.Drawing r ∧
        0 < r.b ∧ r.b ≤ x.service.drawLeft ∧
        ∃ (count : Nat) (sinks : List KsSink),
          draw mapped space x r = x.drawn count
            { x.service with
              drawLeft := x.service.drawLeft - r.b }
            sinks) := by
  simp only [draw]
  split
  · exact .inl (x.refused ksStale_neg)
  · rename_i hToken
    rw [Bool.not_eq_true', Bool.not_eq_false] at hToken
    split
    · exact .inl (x.refused ksInvalid_neg)
    · rename_i hShape
      simp only [Bool.or_eq_true, beq_iff_eq,
        not_or] at hShape
      split
      · exact .inl (x.refused ksQuota_neg)
      · rename_i hLeft
        split
        · exact .inl (x.refused ksFault_neg)
        · split
          · exact .inl (x.refused ksInvalid_neg)
          · exact .inr ⟨drawing_of_drawToken hToken,
              Nat.pos_of_ne_zero hShape.1.1.1,
              Nat.le_of_not_gt hLeft, _, _, rfl⟩

theorem text_cases
    (x : KsState)
    (r : KsRequest) :
    x.Refused (text mapped space x r) ∨
      (x.service.Drawing r ∧
        ∃ w,
          kuCopyin mapped space x.mem Buf.zero r.a
            textBytes = some w ∧
          0 < x.service.drawLeft ∧
          w.get32 20 ≤ x.service.textLeft ∧
          ∃ (count : Nat) (sinks : List KsSink),
            text mapped space x r = x.drawn count
              { x.service with
                drawLeft := x.service.drawLeft - 1
                textLeft :=
                  x.service.textLeft - w.get32 20 }
              sinks) := by
  simp only [text]
  split
  · exact .inl (x.refused ksStale_neg)
  · rename_i hToken
    rw [Bool.not_eq_true', Bool.not_eq_false] at hToken
    split
    · exact .inl (x.refused ksInvalid_neg)
    · split
      · exact .inl (x.refused ksDenied_neg)
      · split
        · exact .inl (x.refused ksFault_neg)
        · rename_i w hCopy
          split
          · exact .inl (x.refused ksInvalid_neg)
          · split
            · exact .inl (x.refused ksQuota_neg)
            · rename_i hLeft
              simp only [Bool.or_eq_true, beq_iff_eq,
                decide_eq_true_eq, not_or,
                Nat.not_lt] at hLeft
              split
              · exact .inl (x.refused ksFault_neg)
              · split
                · exact .inl (x.refused ksInvalid_neg)
                · refine .inr
                    ⟨drawing_of_drawToken hToken, w, hCopy,
                      Nat.pos_of_ne_zero hLeft.1,
                      hLeft.2, ?_⟩
                  split
                  · exact ⟨0, [], rfl⟩
                  · exact ⟨_, _, rfl⟩

theorem line_cases
    (x : KsState)
    (r : KsRequest) :
    x.Refused (line mapped space x r) ∨
      (x.service.Drawing r ∧
        0 < x.service.drawLeft ∧
        ∃ (count : Nat) (sinks : List KsSink),
          line mapped space x r = x.drawn count
            { x.service with
              drawLeft := x.service.drawLeft - 1 }
            sinks) := by
  simp only [line]
  split
  · exact .inl (x.refused ksStale_neg)
  · rename_i hToken
    rw [Bool.not_eq_true', Bool.not_eq_false] at hToken
    split
    · exact .inl (x.refused ksInvalid_neg)
    · split
      · exact .inl (x.refused ksDenied_neg)
      · split
        · exact .inl (x.refused ksFault_neg)
        · split
          · exact .inl (x.refused ksInvalid_neg)
          · split
            · exact .inl (x.refused ksQuota_neg)
            · rename_i hLeft
              rw [beq_iff_eq] at hLeft
              have hPos := Nat.pos_of_ne_zero hLeft
              split
              · exact .inr ⟨drawing_of_drawToken hToken,
                  hPos, 1, _, rfl⟩
              · exact .inr ⟨drawing_of_drawToken hToken,
                  hPos, 0, _, rfl⟩
              · exact .inl (x.refused ksInvalid_neg)

--
-- Files
--

/- The file that an open finds or makes. -/
inductive KsService.Opens
    (s : KsService)
    (name : CStr) :
    (f : Nat) → (fresh : Bool) → Prop
  | found {f : Nat}
      (hNode : node s name = some f) :
      s.Opens name f false
  | made {f : Nat}
      (hNode : node s name = none)
      (hFree : freeFile s = some f) :
      s.Opens name f true

theorem opens_of_or
    (hFile : (node s name).or (freeFile s) = some f) :
    s.Opens name f (node s name).isNone := by
  cases hNode : node s name with
  | none =>
      rw [hNode, Option.none_or] at hFile
      exact .made hNode hFile
  | some g =>
      rw [hNode, Option.some_or] at hFile
      cases hFile
      exact .found hNode

theorem openFile_cases
    (x : KsState)
    (r : KsRequest) :
    x.Refused (openFile mapped space x r) ∨
      ∃ name f h,
        filename mapped space x.mem r.a r.b = .ok name ∧
        r.c &&& 3 ≠ 0 ∧
        x.service.Opens name f
          (node x.service name).isNone ∧
        freeHandle x.service = some h ∧
        openFile mapped space x r =
          x.accept (x.service.nextHandle + 1)
            (issue x.service name f h
              (node x.service name).isNone r.c) := by
  simp only [openFile]
  split
  · rename_i code hName
    exact .inl (x.refused (filename_error hName))
  · rename_i name hName
    split
    · exact .inl (x.refused ksInvalid_neg)
    · rename_i hFlags
      split
      · exact .inl (x.refused ksMissing_neg)
      · split
        · rename_i f h hFile hHandle
          split
          · exact .inl (x.refused ksQuota_neg)
          · refine .inr ⟨name, f, h, hName, ?_,
              opens_of_or hFile, hHandle, rfl⟩
            intro hZero
            apply hFlags
            simp [openFlagsOk, hZero]
        · exact .inl (x.refused ksQuota_neg)

/- The file of an open handle. -/
def KsService.fileOf
    (s : KsService)
    (h : Nat) : KsFile :=
  s.files (s.handles h).file

/- A read delivers what the file has at the offset. -/
def reads
    (mapped : Nat → Bool)
    (space : KuSpace)
    (x : KsState)
    (r : KsRequest)
    (out : KsOut) : Prop :=
  ∃ h mem,
    handle x.service r.a ksOpenR = .ok h ∧
    r.d + r.c ≤ ksFileBytes ∧
    kuCopyout mapped space x.mem r.b
      ((x.service.fileOf h).data.drop r.d)
      (readCount (x.service.fileOf h) r.d r.c) =
        some mem ∧
    out = x.deliver
      (readCount (x.service.fileOf h) r.d r.c) mem

/- A write changes the file at the offset. -/
def writes
    (mapped : Nat → Bool)
    (space : KuSpace)
    (x : KsState)
    (r : KsRequest)
    (out : KsOut) : Prop :=
  ∃ h src,
    handle x.service r.a ksOpenW = .ok h ∧
    r.d + r.c ≤ ksFileBytes ∧
    kuCopyin mapped space x.mem Buf.zero r.b r.c =
      some src ∧
    out = x.accept r.c
      (if r.c != 0 then
        x.service.setFile (x.service.handles h).file
          (fun file => writtenFile file r.d src r.c)
      else x.service)

theorem fileIo_read_cases
    (x : KsState)
    (hOp : r.op = ksRead) :
    x.Refused (fileIo mapped space x r) ∨
      reads mapped space x r
        (fileIo mapped space x r) := by
  have hRead : (r.op == ksRead) = true := by
    rw [beq_iff_eq]
    exact hOp
  simp only [fileIo, hRead, if_true]
  split
  · rename_i code hHandle
    exact .inl (x.refused (handle_error hHandle))
  · rename_i h hHandle
    split
    · exact .inl (x.refused ksQuota_neg)
    · rename_i hRange
      simp only [Bool.or_eq_true, decide_eq_true_eq,
        not_or, Nat.not_lt] at hRange
      split
      · exact .inl (x.refused ksFault_neg)
      · rename_i mem hCopy
        exact .inr ⟨h, mem, hHandle, by omega, hCopy, rfl⟩

theorem fileIo_write_cases
    (x : KsState)
    (hOp : r.op = ksWrite) :
    x.Refused (fileIo mapped space x r) ∨
      writes mapped space x r
        (fileIo mapped space x r) := by
  have hRead : (r.op == ksRead) = false := by
    rw [hOp]
    rfl
  simp only [fileIo, hRead, Bool.false_eq_true, if_false]
  split
  · rename_i code hHandle
    exact .inl (x.refused (handle_error hHandle))
  · rename_i h hHandle
    split
    · exact .inl (x.refused ksQuota_neg)
    · rename_i hRange
      simp only [Bool.or_eq_true, decide_eq_true_eq,
        not_or, Nat.not_lt] at hRange
      split
      · exact .inl (x.refused ksFault_neg)
      · rename_i src hCopy
        exact .inr ⟨h, src, hHandle, by omega, hCopy, rfl⟩

/- The service after a handle is closed. -/
def closedHandle
    (s : KsService)
    (h : Nat) : KsService :=
  (s.setFile (s.handles h).file (fun file =>
    { file with refs := file.refs - 1 })).setHandle h .zero

theorem closeFile_cases
    (x : KsState)
    (r : KsRequest) :
    x.Refused (closeFile x r) ∨
      ∃ h,
        handle x.service r.a 0 = .ok h ∧
        closeFile x r =
          x.accept 0 (closedHandle x.service h) := by
  simp only [closeFile]
  split
  · exact .inl (x.refused ksInvalid_neg)
  · split
    · rename_i code hHandle
      exact .inl (x.refused (handle_error hHandle))
    · rename_i h hHandle
      exact .inr ⟨h, hHandle, rfl⟩

theorem deleteFile_cases
    (x : KsState)
    (r : KsRequest) :
    x.Refused (deleteFile mapped space x r) ∨
      ∃ name f,
        node x.service name = some f ∧
        (x.service.files f).refs = 0 ∧
        deleteFile mapped space x r = x.accept 0
          (x.service.setFile f (fun _ => .zero)) := by
  simp only [deleteFile]
  split
  · exact .inl (x.refused ksInvalid_neg)
  · split
    · rename_i code hName
      exact .inl (x.refused (filename_error hName))
    · rename_i name hName
      split
      · exact .inl (x.refused ksMissing_neg)
      · rename_i f hNode
        split
        · exact .inl (x.refused ksBusy_neg)
        · rename_i hRefs
          rw [bne_iff_ne, ne_eq, Decidable.not_not] at hRefs
          exact .inr ⟨name, f, hNode, hRefs, rfl⟩

--
-- Other Requests
--

theorem setStatus_cases
    (x : KsState)
    (r : KsRequest) :
    x.Refused (setStatus mapped space x r) ∨
      ∃ status,
        setStatus mapped space x r =
          x.accept 0 { x.service with status } := by
  simp only [setStatus]
  split
  · exact .inl (x.refused ksInvalid_neg)
  · split
    · exact .inl (x.refused ksFault_neg)
    · split
      · exact .inl (x.refused ksInvalid_neg)
      · exact .inr ⟨_, rfl⟩

theorem query_cases
    (x : KsState)
    (r : KsRequest) :
    x.Refused (query x r) ∨
      ∃ caps : Nat, query x r = x.accept caps x.service := by
  simp only [query]
  split
  · exact .inl (x.refused ksInvalid_neg)
  · exact .inr ⟨_, rfl⟩

/- A request that copies `length` bytes to the program. -/
def delivers
    (mapped : Nat → Bool)
    (space : KuSpace)
    (x : KsState)
    (off length : Nat)
    (out : KsOut) : Prop :=
  ∃ src mem,
    kuCopyout mapped space x.mem off src length =
      some mem ∧
    out = x.deliver length mem

theorem deliverWords_cases
    (x : KsState)
    (off : Nat)
    (values : List Nat) :
    x.Refused (deliverWords mapped space x off values) ∨
      delivers mapped space x off (4 * values.length)
        (deliverWords mapped space x off values) := by
  simp only [deliverWords]
  split
  · exact .inl (x.refused ksFault_neg)
  · rename_i mem hCopy
    exact .inr ⟨_, mem, hCopy, rfl⟩

theorem info_cases
    (x : KsState)
    (r : KsRequest) :
    x.Refused (info mapped space x r) ∨
      delivers mapped space x r.a 16
        (info mapped space x r) := by
  simp only [info]
  split
  · exact .inl (x.refused ksInvalid_neg)
  · exact deliverWords_cases x r.a _

theorem readClock_cases
    (x : KsState)
    (r : KsRequest) :
    x.Refused (readClock mapped space x r) ∨
      delivers mapped space x r.a 20
        (readClock mapped space x r) := by
  simp only [readClock]
  split
  · exact .inl (x.refused ksInvalid_neg)
  · split
    · exact .inl (x.refused ksAgain_neg)
    · exact deliverWords_cases x r.a _

/- The two copies of a listing. -/
def lists
    (mapped : Nat → Bool)
    (space : KuSpace)
    (x : KsState)
    (r : KsRequest)
    (out : KsOut) : Prop :=
  ∃ f mem,
    kuCheck mapped space x.mem r.b 40 (kuR ||| kuW) =
      true ∧
    kuCheck mapped space x.mem r.c 4 (kuR ||| kuW) =
      true ∧
    (r.b + 40 ≤ r.c ∨ r.c + 4 ≤ r.b) ∧
    kuCopyout mapped space x.mem r.b
      (listedName (x.service.files f)) 40 = some mem ∧
    out =
      match kuCopyout mapped space mem r.c
          (words [(x.service.files f).size]) 4 with
      | none => ⟨ksFault, x.service, mem, []⟩
      | some mem => x.deliver 0 mem

theorem list_cases
    (x : KsState)
    (r : KsRequest) :
    x.Refused (list mapped space x r) ∨
      lists mapped space x r (list mapped space x r) := by
  simp only [list]
  split
  · exact .inl (x.refused ksInvalid_neg)
  · split
    · exact .inl (x.refused ksMissing_neg)
    · split
      · exact .inl (x.refused ksMissing_neg)
      · rename_i f _
        split
        · exact .inl (x.refused ksFault_neg)
        · rename_i hCheck
          simp only [Bool.or_eq_true, Bool.not_eq_true',
            not_or, Bool.not_eq_false] at hCheck
          split
          · exact .inl (x.refused ksInvalid_neg)
          · rename_i hApart
            simp only [Bool.and_eq_true, decide_eq_true_eq,
              not_and, Nat.not_lt] at hApart
            split
            · exact .inl (x.refused ksFault_neg)
            · rename_i mem hCopy
              refine .inr ⟨f, mem, hCheck.1, hCheck.2,
                by omega, hCopy, rfl⟩

variable (mapped space)

/- A request that is not refused is read and performed. -/
theorem ksDispatch_cases
    (x : KsState)
    (off size : Nat) :
    x.Refused (ksDispatch mapped space x off size) ∨
      ∃ b,
        kuCopyin mapped space x.mem Buf.zero off
          requestBytes = some b ∧
        ksDispatch mapped space x off size =
          perform mapped space x (KsRequest.ofBuf b) := by
  simp only [ksDispatch]
  split
  · exact .inl (x.refused ksInvalid_neg)
  · split
    · exact .inl (x.refused ksInvalid_neg)
    · split
      · exact .inl (x.refused ksFault_neg)
      · rename_i b hCopy
        split
        · rename_i code hError
          refine .inl (x.refused ?_)
          unfold requestError at hError
          split at hError
          · cases hError
            exact ksInvalid_neg
          · split at hError
            · cases hError
              exact ksDenied_neg
            · split at hError
              · cases hError
                exact ksInvalid_neg
              · cases hError
        · exact .inr ⟨b, hCopy, rfl⟩

end Requests

end KvantOS.User
