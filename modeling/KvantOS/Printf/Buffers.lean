import KvantOS.Printf.Conversions

/-
  This file proves when formatting into a buffer is safe:
  what it writes, where the terminator stands and which
  length is returned.

  Key definitions include:
    * `sizeBits`, `Formatted`, `FormatSafe`
    * `Formattable`

  Key theorems include:
    * `emitBuf_text`, `emitBuf_wraps`, `zero_mem_text`
    * `formatSafe_iff`
-/

namespace KvantOS.Printf

/- Bits of a `size_t`. -/
def sizeBits (wide : Bool) : Nat :=
  if wide then 64 else 32

/- A buffer after the text, from a position on. -/
def written
    (buf : Buf)
    (size pos : Nat)
    (t : List UInt8) : Buf :=
  fun i =>
    if pos ≤ i ∧ i < pos + t.length ∧ i + 1 < size then
      t.getD (i - pos) 0
    else
      buf i

section Sink

variable {bits size pos : Nat} {buf : Buf} {t : List UInt8}

theorem written_cons
    (c : UInt8) :
    written (if pos + 1 < size then
        Function.update buf pos c else buf) size (pos + 1) t =
      written buf size pos (c :: t) := by
  funext i
  unfold written
  rw [List.length_cons]
  by_cases hHere : i = pos
  · subst hHere
    rw [if_neg (by omega)]
    by_cases hIn : i + 1 < size
    · rw [if_pos hIn, if_pos ⟨by omega, by omega, hIn⟩,
        Function.update_self, Nat.sub_self]
      rfl
    · rw [if_neg hIn, if_neg (by omega)]
  · have hOld : (if pos + 1 < size then
        Function.update buf pos c else buf) i = buf i := by
      split
      · exact Function.update_of_ne hHere c buf
      · rfl
    rw [hOld]
    by_cases hIn : pos + 1 ≤ i ∧ i < pos + 1 + t.length ∧
        i + 1 < size
    · rw [if_pos hIn, if_pos ⟨by omega, by omega, hIn.2.2⟩,
        show i - pos = i - (pos + 1) + 1 by omega]
      rfl
    · rw [if_neg hIn, if_neg (by omega)]

/- Text whose length a `size_t` holds is kept to the size. -/
theorem emitBuf_text
    (hFits : pos + t.length < 2 ^ bits) :
    emitAll (emitBuf bits) t ⟨buf, size, pos⟩ =
      .ok ⟨written buf size pos t, size, pos + t.length⟩ := by
  induction t generalizing buf pos with
  | nil =>
      have hSame : written buf size pos [] = buf := by
        funext i
        exact if_neg (by rw [List.length_nil]; omega)
      rw [hSame]
      rfl
  | cons c t ih =>
      rw [List.length_cons] at hFits
      have hNext : (pos + 1) % 2 ^ bits = pos + 1 :=
        Nat.mod_eq_of_lt (by omega)
      have hStep : emitBuf bits c ⟨buf, size, pos⟩ =
          .ok ⟨if pos + 1 < size then
            Function.update buf pos c else buf, size,
              pos + 1⟩ := by
        unfold emitBuf
        dsimp only
        rw [hNext]
        by_cases hIn : pos + 1 < size
        · rw [if_pos hIn, if_pos (by omega), if_pos hIn]
        · rw [if_neg hIn, if_neg hIn]
      rw [emitAll_cons, hStep]
      show emitAll (emitBuf bits) t _ = _
      rw [ih (by omega), written_cons, List.length_cons,
        Nat.add_assoc, Nat.add_comm 1]

/- Longer text wraps the position and leaves the buffer. -/
theorem emitBuf_wraps
    (hSome : 0 < size)
    (hSize : size < 2 ^ bits)
    (hLong : 2 ^ bits ≤ t.length) :
    emitAll (emitBuf bits) t ⟨buf, size, 0⟩ =
      .error .outside := by
  have hFirst : (t.take (2 ^ bits - 1)).length =
      2 ^ bits - 1 := by
    rw [List.length_take]
    omega
  have hDrop : 2 ^ bits - 1 < t.length := by omega
  rw [← List.take_append_drop (2 ^ bits - 1) t,
    emitAll_append, emitBuf_text (by rw [hFirst]; omega),
    List.drop_eq_getElem_cons hDrop, hFirst]
  show emitAll (emitBuf bits) (_ :: _) _ = _
  rw [emitAll_cons]
  have hWrap : (0 + (2 ^ bits - 1) + 1) % 2 ^ bits = 0 := by
    rw [Nat.zero_add, Nat.sub_add_cancel (by omega),
      Nat.mod_self]
  unfold emitBuf
  dsimp only
  rw [hWrap, if_pos hSome, if_neg (by omega)]
  rfl

end Sink

--
-- Characters Of The Text
--

/- No `%c` is given a NUL. -/
def CharsGiven : List Piece → List Arg → Prop
  | [], _ => True
  | .char _ :: ps, args => CharsGiven ps args
  | .conv _ _ c :: ps, args =>
      (switch c = .chr → ∀ v rest, args = .word v :: rest →
        v.toUInt8 ≠ 0) ∧ CharsGiven ps (convRest c args)
  | .cut :: _, _ => True

theorem readWidth_suffix
    (width : Int)
    (p : List UInt8) :
    (readWidth width p).2 <:+ p := by
  induction p generalizing width with
  | nil => exact List.suffix_refl _
  | cons c p ih =>
      rw [readWidth]
      split
      · exact (ih _).trans (List.suffix_cons c p)
      · exact List.suffix_refl _

theorem readZero_suffix (p : List UInt8) :
    (readZero p).2 <:+ p := by
  cases p with
  | nil => exact List.suffix_refl _
  | cons c p =>
      rw [readZero]
      split
      · exact List.suffix_cons c p
      · exact List.suffix_refl _

/- The characters of the format. -/
def Piece.Clean : Piece → Prop
  | .char c => c ≠ 0
  | .conv _ _ c => c ≠ 0
  | .cut => True

theorem piecesFrom_clean
    (turns : Nat)
    {p : List UInt8}
    (hClean : 0 ∉ p) :
    ∀ x ∈ piecesFrom turns p, x.Clean := by
  induction turns generalizing p with
  | zero => exact nofun
  | succ turns ih =>
      cases p with
      | nil => exact nofun
      | cons c p =>
          rw [List.mem_cons, not_or] at hClean
          rw [piecesFrom]
          split
          · rw [List.forall_mem_cons]
            exact ⟨Ne.symm hClean.1, ih hClean.2⟩
          · dsimp only
            have hSuffix := (readWidth_suffix 0
              (readZero p).2).trans (readZero_suffix p)
            generalize readWidth 0 (readZero p).2 = rest
              at hSuffix
            obtain ⟨width, _ | ⟨d, q⟩⟩ := rest
            · intro x hMem
              rw [List.mem_singleton.mp hMem]
              trivial
            · have hRest : 0 ∉ d :: q := fun hMem =>
                hClean.2 (hSuffix.mem hMem)
              rw [List.mem_cons, not_or] at hRest
              rw [List.forall_mem_cons]
              exact ⟨Ne.symm hRest.1, ih hRest.2⟩

/- What numbers are printed with. -/
def numberChars : List UInt8 :=
  chars " -0123456789ABCDEFabcdef"

variable {upper : Bool}

theorem mem_numeral
    {base n : Nat}
    (hBase : 2 ≤ base)
    (hTable : base ≤ 16) :
    ∀ c ∈ numeral upper base n, c ∈ numberChars := by
  unfold numeral
  split
  · exact List.forall_mem_singleton.mpr (by decide)
  · intro c hMem
    obtain ⟨d, hDigit, rfl⟩ := List.mem_map.mp hMem
    have hLt := Nat.digits_lt_base hBase
      (List.mem_reverse.mp hDigit)
    have hTen : d < 16 := by omega
    have hAll : ∀ upper, ∀ d < 16,
        (digits upper).getD d 0 ∈ numberChars := by decide
    exact hAll upper d hTen

variable {base : Nat} {zero : Bool}

theorem mem_numberText
    {n width : Int}
    (hBase : 2 ≤ base)
    (hTable : base ≤ 16) :
    ∀ c ∈ numberText upper base n width zero,
      c ∈ numberChars := by
  unfold numberText plainNumber signOf
  intro c hMem
  rcases List.mem_append.mp hMem with hPad | hMem
  · rw [List.eq_of_mem_replicate hPad]
    cases zero <;> decide
  rcases List.mem_append.mp hMem with hSign | hNumeral
  · split at hSign
    · rw [List.mem_singleton.mp hSign]
      decide
    · cases hSign
  · exact mem_numeral hBase hTable c hNumeral

variable {c : UInt8}

theorem switch_table
    {isSigned upper : Bool}
    (hSwitch : switch c = .num base isSigned upper) :
    base ≤ 16 := by
  unfold switch at hSwitch
  repeat' split at hSwitch
  all_goals cases hSwitch
  all_goals decide

/- Only a `%c` can print a NUL. -/
theorem zero_mem_convText
    {width : Int}
    {args : List Arg}
    (hSuits : Suits c args)
    (hClean : c ≠ 0) :
    0 ∉ convText zero width c args ↔
      (switch c = .chr → ∀ v rest, args = .word v :: rest →
        v.toUInt8 ≠ 0) := by
  unfold Suits at hSuits
  unfold convText
  cases hSwitch : switch c with
  | num base isSigned upper =>
      rw [hSwitch] at hSuits
      match args, hSuits with
      | .word v :: rest, _ =>
          refine iff_of_true (fun hMem => ?_) nofun
          exact absurd (mem_numberText (switch_base hSwitch)
            (switch_table hSwitch) 0 hMem) (by decide)
  | ptr =>
      rw [hSwitch] at hSuits
      match args, hSuits with
      | .ptr v :: rest, _ =>
          refine iff_of_true ?_ nofun
          rw [List.mem_append, not_or]
          refine ⟨by decide, fun hMem => ?_⟩
          exact absurd (mem_numberText (by decide) (by decide)
            0 hMem) (by decide)
  | chr =>
      rw [hSwitch] at hSuits
      match args, hSuits with
      | .word v :: rest, _ =>
          dsimp only
          rw [List.mem_singleton]
          constructor
          · rintro hNe - _ _ hEq
            cases hEq
            exact Ne.symm hNe
          · exact fun hAll => Ne.symm (hAll rfl v rest rfl)
  | str =>
      rw [hSwitch] at hSuits
      match args, hSuits with
      | .str s :: rest, _ =>
          exact iff_of_true (s.getD nullText).noNul nofun
  | percent =>
      refine iff_of_true ?_ nofun
      show 0 ∉ [ch '%']
      decide
  | other =>
      refine iff_of_true ?_ nofun
      dsimp only
      rw [List.mem_cons, List.mem_singleton, not_or]
      exact ⟨by decide, Ne.symm hClean⟩

theorem zero_mem_text
    {ps : List Piece}
    {args : List Arg}
    (hClean : ∀ p ∈ ps, p.Clean)
    (hFits : Fits ps args) :
    0 ∉ text ps args ↔ CharsGiven ps args := by
  induction ps generalizing args with
  | nil => exact iff_of_true List.not_mem_nil trivial
  | cons p ps ih =>
      rw [List.forall_mem_cons] at hClean
      cases p with
      | char c =>
          rw [text, CharsGiven, List.mem_cons, not_or,
            and_iff_right (Ne.symm hClean.1)]
          exact ih hClean.2 hFits
      | conv zero width c =>
          rw [text, CharsGiven, List.mem_append, not_or,
            zero_mem_convText hFits.1 hClean.1,
            ih hClean.2 hFits.2]
      | cut => exact iff_of_true List.not_mem_nil trivial

--
-- Safe Formats
--

/- Nothing was written behind the buffer, which has a NUL. -/
structure Formatted
    (size : Nat)
    (buf out : Buf) : Prop where
  behind : ∀ i, size ≤ i → out i = buf i
  closed : 0 < size → ∃ i, i < size ∧ out i = 0

/- The length of the string in a buffer. -/
def IsLength
    (out : Buf)
    (n : Int) : Prop :=
  0 ≤ n ∧ out n.toNat = 0 ∧ ∀ i < n.toNat, out i ≠ 0

/- The runs of a format leave nothing but their buffers. -/
structure FormatSafe
    (wide : Bool)
    (fmt : CStr)
    (args : List Arg) : Prop where
  runs : ∀ (σ : Type) (emit : UInt8 → σ → Except Fault σ),
    Total emit → ∀ ctx, ∃ next,
      kvprintf emit ctx fmt args = .ok next
  snprintf : ∀ buf size, size < 2 ^ sizeBits wide → ∃ out,
    ksnprintf (sizeBits wide) buf size fmt args = .ok out ∧
      Formatted size buf out
  ret : ∀ buf size, size < 2 ^ sizeBits wide → ∃ out n,
    ksnprintfRet (sizeBits wide) buf size fmt args =
        .ok (out, n) ∧
      Formatted size buf out ∧
        (0 < size → IsLength out n) ∧ (size = 0 → n = 0)
  vsnprintf : ∀ buf size, size < 2 ^ sizeBits wide → ∃ out,
    kvsnprintfV (sizeBits wide) buf size fmt args = .ok out ∧
      Formatted size buf out

/-
  The format does not end inside a conversion, its numbers
  are at most 36 wide, no `%c` is given a NUL and the text
  has a length that an `int` holds.
-/
structure Formattable
    (fmt : CStr)
    (args : List Arg) : Prop where
  bounded : Bounded (pieces fmt)
  given : CharsGiven (pieces fmt) args
  short : (text (pieces fmt) args).length < 2 ^ 31

section Formats

variable {wide : Bool} {fmt : CStr} {args : List Arg}

theorem sizeBits_large : 2 ^ 32 ≤ 2 ^ sizeBits wide := by
  cases wide <;> decide

/- The state at the end of a run. -/
theorem kvprintf_buffer
    {bits : Nat}
    (hFits : Fits (pieces fmt) args)
    (hBounded : Bounded (pieces fmt))
    (hShort : (text (pieces fmt) args).length < 2 ^ bits)
    (buf : Buf)
    (size : Nat) :
    kvprintf (emitBuf bits) ⟨buf, size, 0⟩ fmt args =
      .ok ⟨written buf size 0 (text (pieces fmt) args), size,
        (text (pieces fmt) args).length⟩ := by
  rw [kvprintf_pieces, runPieces_bounded hFits hBounded,
    emitBuf_text (by rwa [Nat.zero_add]), Nat.zero_add]

theorem written_closed
    (buf : Buf)
    (size : Nat)
    (t : List UInt8) :
    Formatted size buf
      (SBuf.closed ⟨written buf size 0 t, size, t.length⟩) := by
  unfold SBuf.closed SBuf.stop
  dsimp only
  constructor
  · intro i hBehind
    have hOld : written buf size 0 t i = buf i :=
      if_neg (by omega)
    split
    · exact hOld
    · rw [Function.update_of_ne, hOld]
      split <;> omega
  · intro hSome
    rw [if_neg (by omega)]
    refine ⟨_, ?_, Function.update_self _ _ _⟩
    split <;> omega

/- The text up to the terminator is the text without NULs. -/
theorem closed_length
    {buf : Buf}
    {size : Nat}
    {t : List UInt8}
    (hSome : 0 < size)
    (hClean : 0 ∉ t) :
    ∀ i < min t.length (size - 1),
      SBuf.closed ⟨written buf size 0 t, size, t.length⟩ i ≠
        0 := by
  intro i hi
  unfold SBuf.closed SBuf.stop
  dsimp only
  rw [if_neg (by omega), Function.update_of_ne (by
    split <;> omega)]
  unfold written
  rw [if_pos (by omega), Nat.sub_zero,
    List.getD_eq_getElem _ _ (by omega)]
  intro hZero
  exact hClean (hZero ▸ List.getElem_mem _)

theorem stop_eq
    {buf : Buf}
    {size pos : Nat} :
    SBuf.stop ⟨buf, size, pos⟩ = min pos (size - 1) := by
  unfold SBuf.stop
  dsimp only
  split <;> omega

/- The condition is enough. -/
theorem Formattable.safe
    (hFits : Fits (pieces fmt) args)
    (hFormat : Formattable fmt args) :
    FormatSafe wide fmt args := by
  have hLarge := @sizeBits_large wide
  have hShort := hFormat.short
  have hRun := @kvprintf_buffer fmt args (sizeBits wide) hFits
    hFormat.bounded (by omega)
  have hClean : 0 ∉ text (pieces fmt) args :=
    (zero_mem_text (piecesFrom_clean _ fmt.noNul)
      hFits).mpr hFormat.given
  generalize text (pieces fmt) args = t at hRun hClean hShort
  refine ⟨?_, ?_, ?_, ?_⟩
  · intro σ emit hTotal ctx
    rw [kvprintf_pieces,
      runPieces_bounded hFits hFormat.bounded]
    exact hTotal.all _ ctx
  · intro buf size hSize
    refine ⟨_, ?_, written_closed buf size t⟩
    unfold ksnprintf
    rw [hRun]
    rfl
  · intro buf size hSize
    refine ⟨_, Int.bmod (min t.length (size - 1) : Nat)
      (2 ^ 32), ?_, written_closed buf size t, ?_, ?_⟩
    · unfold ksnprintfRet
      rw [hRun]
      show Except.ok (_, Int.bmod (SBuf.stop _) _) = _
      rw [stop_eq]
    · intro hSome
      have hNat : Int.bmod (min t.length (size - 1) : Nat)
          (2 ^ 32) = (min t.length (size - 1) : Nat) := by
        rw [Int.bmod_def, if_pos (by omega)]
        omega
      rw [hNat]
      refine ⟨by omega, ?_, ?_⟩
      · rw [Int.toNat_natCast]
        unfold SBuf.closed
        dsimp only
        rw [if_neg (by omega), stop_eq,
          Function.update_self]
      · rw [Int.toNat_natCast]
        exact closed_length hSome hClean
    · rintro rfl
      rw [Nat.zero_sub, Nat.min_zero]
      rfl
  · intro buf size hSize
    refine ⟨_, ?_, written_closed buf size t⟩
    unfold kvsnprintfV
    rw [hRun]
    rfl

theorem total_collect : Total collect :=
  fun c s => ⟨s ++ [c], rfl⟩

/- The condition is needed. -/
theorem FormatSafe.formattable
    (hFits : Fits (pieces fmt) args)
    (hSafe : FormatSafe wide fmt args) :
    Formattable fmt args := by
  have hLarge := @sizeBits_large wide
  have hBounded : Bounded (pieces fmt) := by
    by_contra hNot
    obtain ⟨next, hRun⟩ :=
      hSafe.runs _ collect total_collect []
    rw [kvprintf_pieces] at hRun
    rcases runPieces_fault total_collect hFits hNot [] with
      hFault | hFault
    · rw [hFault] at hRun
      cases hRun
    · rw [hFault] at hRun
      cases hRun
  have hShort : (text (pieces fmt) args).length < 2 ^ 31 := by
    by_contra hLong
    obtain ⟨out, n, hRet, -, hLength, -⟩ :=
      hSafe.ret Buf.zero (2 ^ 31 + 1) (by omega)
    obtain ⟨hNonneg, -⟩ := hLength (by omega)
    unfold ksnprintfRet at hRet
    by_cases hFit : (text (pieces fmt) args).length <
        2 ^ sizeBits wide
    · rw [kvprintf_buffer hFits hBounded hFit] at hRet
      cases hRet
      rw [stop_eq, Nat.add_sub_cancel,
        Nat.min_eq_right (by omega)] at hNonneg
      exact absurd hNonneg (by decide)
    · rw [kvprintf_pieces, runPieces_bounded hFits hBounded,
        emitBuf_wraps (by omega) (by omega) (by omega)]
        at hRet
      cases hRet
  refine ⟨hBounded, ?_, hShort⟩
  by_contra hGiven
  have hMem : 0 ∈ text (pieces fmt) args :=
    not_not.mp fun hNone => hGiven
      ((zero_mem_text (piecesFrom_clean _ fmt.noNul)
        hFits).mp hNone)
  have hRun := @kvprintf_buffer fmt args (sizeBits wide) hFits
    hBounded (by omega)
  generalize text (pieces fmt) args = t at hMem hRun hShort
  obtain ⟨out, n, hRet, -, hLength, -⟩ :=
    hSafe.ret Buf.zero (t.length + 1) (by omega)
  obtain ⟨-, -, hNone⟩ := hLength (by omega)
  unfold ksnprintfRet at hRet
  rw [hRun] at hRet
  cases hRet
  have hNat : (Int.bmod (SBuf.stop
      ⟨written Buf.zero (t.length + 1) 0 t, t.length + 1,
        t.length⟩) (2 ^ 32)).toNat = t.length := by
    rw [stop_eq, Nat.add_sub_cancel, Nat.min_self,
      Int.bmod_def, if_pos (by omega)]
    omega
  rw [hNat] at hNone
  obtain ⟨i, hi, hZero⟩ := List.mem_iff_getElem.mp hMem
  refine hNone i hi ?_
  unfold SBuf.closed SBuf.stop
  dsimp only
  rw [if_neg (by omega), Function.update_of_ne (by
    split <;> omega)]
  unfold written
  rw [if_pos (by omega), Nat.sub_zero,
    List.getD_eq_getElem _ _ hi, hZero]

end Formats

/- A format is safe exactly under the condition. -/
theorem formatSafe_iff
    (wide : Bool)
    {fmt : CStr}
    {args : List Arg}
    (hFits : Fits (pieces fmt) args) :
    FormatSafe wide fmt args ↔ Formattable fmt args :=
  ⟨fun hSafe => hSafe.formattable hFits,
    fun hFormat => hFormat.safe hFits⟩

/- `%5d`. -/
def widthFormat : CStr :=
  ⟨chars "%5d", by decide⟩

theorem formatSafe_iff_width :
    Fits (pieces widthFormat) [.word 42] ∧
      (FormatSafe true widthFormat [.word 42] ↔
        Formattable widthFormat [.word 42]) := by
  have hFits : Fits (pieces widthFormat) [.word 42] := by
    have hPieces : pieces widthFormat =
        [.conv false 5 (ch 'd')] := by decide
    rw [hPieces]
    exact ⟨trivial, trivial⟩
  exact ⟨hFits, formatSafe_iff true hFits⟩

/- A conversion that the format does not finish. -/
def cutFormat : CStr :=
  ⟨chars "100%", by decide⟩

/- `100%` is read behind its terminator. -/
theorem reads_behind_format :
    Fits (pieces cutFormat) [] ∧
      kvprintf collect [] cutFormat [] = .error .overread ∧
        ¬∀ (wide : Bool) (fmt : CStr) (args : List Arg),
          Fits (pieces fmt) args →
            FormatSafe wide fmt args := by
  have hFits : Fits (pieces cutFormat) [] := by
    have hPieces : pieces cutFormat =
        [.char (ch '1'), .char (ch '0'), .char (ch '0'),
          .cut] := by decide
    rw [hPieces]
    trivial
  have hRun : kvprintf collect [] cutFormat [] =
      .error .overread := by decide
  refine ⟨hFits, hRun, fun hAll => ?_⟩
  obtain ⟨next, hOk⟩ := (hAll true cutFormat [] hFits).runs _
    collect total_collect []
  rw [hRun] at hOk
  cases hOk

end KvantOS.Printf
