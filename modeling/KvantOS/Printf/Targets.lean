import KvantOS.Printf.Isolated

/-
  This file proves when a format of the documented
  conversions gives the same buffer in the kernel and in the
  isolated runtime, which knows no widths.

  Key definitions include:
    * `Item`, `formatOf`, `SameBuffer`
    * `Alike`

  Key theorems include:
    * `pieces_formatOf`, `formatLoop_items`
    * `fits_runtime_iff`, `sameBuffer_iff`
-/

namespace KvantOS.Printf

--
-- Documented Formats
--

/- The documented conversions without a width. -/
inductive Letter where
  | d
  | u
  | x
  | s
  | c
  | percent
  deriving DecidableEq

def Letter.byte : Letter → UInt8
  | d => ch 'd'
  | u => ch 'u'
  | x => ch 'x'
  | s => ch 's'
  | c => ch 'c'
  | percent => ch '%'

/- The documented conversions with a zero-padded width. -/
structure PaddedSpec extends NumberSpec where
  flag : zero = true
  known : directive = .d ∨ directive = .u ∨ directive = .x

/- What a documented format is built from. -/
inductive Item where
  | char (c : UInt8) (hPlain : c ≠ 0 ∧ c ≠ ch '%')
  | conv (l : Letter)
  | padded (s : PaddedSpec)

namespace Item

def bytes : Item → List UInt8
  | char c _ => [c]
  | conv l => [ch '%', l.byte]
  | padded s => ch '%' :: ch '0' ::
      (s.widthDigits ++ [s.directive.letter])

/- What the kernel reads. -/
def piece : Item → Piece
  | char c _ => .char c
  | conv l => .conv false 0 l.byte
  | padded s => .conv true s.width s.directive.letter

/- What the runtime reads. -/
def runtime : Item → List Piece
  | char c _ => [.char c]
  | conv l => [.conv false 0 l.byte]
  | padded s => .conv false 0 (ch '0') ::
      (s.widthDigits ++ [s.directive.letter]).map .char

def isPadded : Item → Bool
  | padded _ => true
  | char _ _ | conv _ => false

theorem zero_not_mem_bytes (i : Item) : 0 ∉ i.bytes := by
  cases i with
  | char c hPlain =>
      exact fun hMem =>
        hPlain.1 (List.mem_singleton.mp hMem).symm
  | conv l => cases l <;> decide
  | padded s =>
      have hNone := s.toNumberSpec.format.noNul
      unfold NumberSpec.format at hNone
      dsimp only at hNone
      rwa [s.flag, if_pos rfl] at hNone

end Item

/- The format that is built from some items. -/
def formatOf (items : List Item) : CStr where
  bytes := items.flatMap Item.bytes
  noNul := by
    intro hMem
    obtain ⟨i, -, hZero⟩ := List.mem_flatMap.mp hMem
    exact i.zero_not_mem_bytes hZero

theorem byte_plain (l : Letter) :
    isDigit l.byte = false ∧ (l.byte == ch '0') = false := by
  cases l <;> decide

/- The kernel reads one piece for every item. -/
theorem piecesFrom_items
    {turns : Nat}
    {items : List Item}
    (hTurns : (items.flatMap Item.bytes).length ≤ turns) :
    piecesFrom turns (items.flatMap Item.bytes) =
      items.map Item.piece := by
  have hPercent : ¬(ch '%' != ch '%') = true := by decide
  induction items generalizing turns with
  | nil => cases turns <;> rfl
  | cons i items ih =>
      rw [List.flatMap_cons, List.length_append] at hTurns
      rw [List.flatMap_cons, List.map_cons]
      generalize items.flatMap Item.bytes = q at hTurns ih
      cases i with
      | char c hPlain =>
          change 1 + q.length ≤ turns at hTurns
          obtain ⟨n, rfl⟩ : ∃ n, turns = n + 1 :=
            ⟨turns - 1, by omega⟩
          show piecesFrom (n + 1) (c :: q) = _
          rw [piecesFrom, if_pos (by simpa using hPlain.2),
            ih (by omega)]
          rfl
      | conv l =>
          change 2 + q.length ≤ turns at hTurns
          obtain ⟨n, rfl⟩ : ∃ n, turns = n + 1 :=
            ⟨turns - 1, by omega⟩
          show piecesFrom (n + 1) (ch '%' :: l.byte :: q) = _
          obtain ⟨hDigit, hFlag⟩ := byte_plain l
          have hSet : readZero (l.byte :: q) =
              (false, l.byte :: q) := by
            rw [readZero, hFlag]
            rfl
          have hWidth : readWidth 0 (l.byte :: q) =
              (0, l.byte :: q) := by
            rw [readWidth, hDigit]
            rfl
          rw [piecesFrom, if_neg hPercent, hSet]
          dsimp only
          rw [hWidth]
          dsimp only
          rw [ih (by omega)]
          rfl
      | padded s =>
          change (_ :: _ :: (s.widthDigits ++
            [s.directive.letter])).length + q.length ≤ turns
            at hTurns
          rw [List.length_cons, List.length_cons] at hTurns
          obtain ⟨n, rfl⟩ : ∃ n, turns = n + 1 :=
            ⟨turns - 1, by omega⟩
          have hWidth := @readWidth_digits s.widthDigits
            (s.directive.letter :: q) 0 s.digit
            (Nat.lt_of_le_of_lt s.fits (by decide))
            (letter_not_digit s.directive)
          show piecesFrom (n + 1) (ch '%' :: ch '0' ::
            ((s.widthDigits ++ [s.directive.letter]) ++ q)) = _
          have hSet : readZero (ch '0' ::
              ((s.widthDigits ++ [s.directive.letter]) ++ q)) =
              (true, s.widthDigits ++
                (s.directive.letter :: q)) := by
            rw [List.append_assoc]
            rfl
          rw [piecesFrom, if_neg hPercent, hSet]
          dsimp only
          change readWidth 0 _ = _ at hWidth
          rw [hWidth]
          dsimp only
          rw [ih (by omega)]
          rfl

theorem pieces_formatOf (items : List Item) :
    pieces (formatOf items) = items.map Item.piece :=
  piecesFrom_items (Nat.le_refl _)

--
-- Runs Of The Runtime
--

/- A character that starts no conversion is emitted. -/
theorem formatLoop_char
    {size turns : Nat}
    {c : UInt8}
    (hPlain : c ≠ ch '%')
    (q : List UInt8)
    (args : List Arg)
    (o : Isolated.Out) :
    Isolated.formatLoop size (turns + 1) (c :: q) args o =
      Isolated.emitChar size c o >>=
        Isolated.formatLoop size turns q args := by
  rw [Isolated.formatLoop.eq_def]
  exact if_pos (by simpa using hPlain)

theorem formatLoop_conv
    {size turns : Nat}
    {spec : UInt8}
    (hKnown : Isolated.Known spec)
    (q : List UInt8)
    (args : List Arg)
    (o : Isolated.Out) :
    Isolated.formatLoop size (turns + 1) (ch '%' :: spec :: q)
        args o =
      convert (Isolated.emitChar size) spec false 0 args o >>=
        fun next => Isolated.formatLoop size turns q next.1
          next.2 := by
  have hPercent : ¬(ch '%' != ch '%') = true := by decide
  rw [Isolated.formatLoop.eq_def]
  dsimp only
  rw [if_neg hPercent, Isolated.convert_known hKnown]

/- Characters before a rest that is run piece by piece. -/
theorem formatLoop_chars
    {size : Nat}
    {q : List UInt8}
    {ps : List Piece}
    (hRest : ∀ turns, q.length ≤ turns → ∀ args o,
      Isolated.formatLoop size turns q args o =
        runPieces (Isolated.emitChar size) ps args o)
    {ds : List UInt8}
    (hPlain : ∀ c ∈ ds, c ≠ ch '%')
    {turns : Nat}
    (hTurns : (ds ++ q).length ≤ turns)
    (args : List Arg)
    (o : Isolated.Out) :
    Isolated.formatLoop size turns (ds ++ q) args o =
      runPieces (Isolated.emitChar size)
        (ds.map .char ++ ps) args o := by
  induction ds generalizing turns o with
  | nil => exact hRest turns hTurns args o
  | cons c ds ih =>
      rw [List.cons_append, List.length_cons] at hTurns
      obtain ⟨n, rfl⟩ : ∃ n, turns = n + 1 :=
        ⟨turns - 1, by omega⟩
      rw [List.forall_mem_cons] at hPlain
      rw [List.cons_append, formatLoop_char hPlain.1,
        List.map_cons, List.cons_append, runPieces]
      exact bind_congr fun o =>
        ih hPlain.2 (by omega) o

/- The runtime takes a padded conversion for characters. -/
theorem formatLoop_items
    {size turns : Nat}
    {items : List Item}
    (hTurns : (items.flatMap Item.bytes).length ≤ turns)
    (args : List Arg)
    (o : Isolated.Out) :
    Isolated.formatLoop size turns
        (items.flatMap Item.bytes) args o =
      runPieces (Isolated.emitChar size)
        (items.flatMap Item.runtime) args o := by
  induction items generalizing turns args o with
  | nil => cases turns <;> rfl
  | cons i items ih =>
      rw [List.flatMap_cons, List.length_append] at hTurns
      rw [List.flatMap_cons, List.flatMap_cons]
      generalize items.flatMap Item.bytes = q at hTurns ih
      cases i with
      | char c hPlain =>
          exact formatLoop_chars
            (fun turns hTurns => ih hTurns)
            (List.forall_mem_singleton.mpr hPlain.2)
            (by rwa [List.length_append]) args o
      | conv l =>
          change 2 + q.length ≤ turns at hTurns
          obtain ⟨n, rfl⟩ : ∃ n, turns = n + 1 :=
            ⟨turns - 1, by omega⟩
          show Isolated.formatLoop size (n + 1)
            (ch '%' :: l.byte :: q) args o = _
          have hKnown : Isolated.Known l.byte := by
            cases l <;> decide
          rw [formatLoop_conv hKnown]
          exact bind_congr fun next =>
            ih (by omega) next.1 next.2
      | padded s =>
          have hPlain : ∀ c ∈ s.widthDigits ++
              [s.directive.letter], c ≠ ch '%' := by
            intro c hMem hPercent
            subst hPercent
            rcases List.mem_append.mp hMem with
              hWidth | hLetter
            · have hDigit := s.digit _ hWidth
              cases hDigit
            · rcases s.known with hLast | hLast | hLast <;>
                rw [hLast] at hLetter <;>
                cases List.mem_singleton.mp hLetter
          change (_ :: _ :: (s.widthDigits ++
            [s.directive.letter])).length + q.length ≤ turns
            at hTurns
          rw [List.length_cons, List.length_cons] at hTurns
          obtain ⟨n, rfl⟩ : ∃ n, turns = n + 1 :=
            ⟨turns - 1, by omega⟩
          show Isolated.formatLoop size (n + 1)
            (ch '%' :: ch '0' ::
              ((s.widthDigits ++ [s.directive.letter]) ++ q))
            args o = _
          rw [formatLoop_conv (by decide)]
          refine bind_congr fun next => ?_
          exact formatLoop_chars
            (fun turns hTurns => ih hTurns) hPlain
            (by rw [List.length_append]; omega) next.1 next.2

--
-- Texts Of Two Parts
--

/- The arguments behind some pieces. -/
def leftArgs : List Piece → List Arg → List Arg
  | [], args => args
  | .char _ :: ps, args => leftArgs ps args
  | .conv _ _ c :: ps, args => leftArgs ps (convRest c args)
  | .cut :: _, args => args

section Parts

variable {ps qs : List Piece} {args : List Arg}

theorem text_append
    (hWhole : Piece.cut ∉ ps) :
    text (ps ++ qs) args =
      text ps args ++ text qs (leftArgs ps args) := by
  induction ps generalizing args with
  | nil => rfl
  | cons p ps ih =>
      rw [List.mem_cons, not_or] at hWhole
      cases p with
      | char c =>
          rw [List.cons_append, text, text, ih hWhole.2]
          rfl
      | conv zero width c =>
          rw [List.cons_append, text, text, ih hWhole.2,
            List.append_assoc]
          rfl
      | cut => exact absurd rfl hWhole.1

theorem fits_append
    (hWhole : Piece.cut ∉ ps) :
    Fits (ps ++ qs) args ↔
      Fits ps args ∧ Fits qs (leftArgs ps args) := by
  induction ps generalizing args with
  | nil => exact (true_and _).to_iff.symm
  | cons p ps ih =>
      rw [List.mem_cons, not_or] at hWhole
      cases p with
      | char c => exact ih hWhole.2
      | conv zero width c =>
          rw [List.cons_append, Fits, Fits, ih hWhole.2,
            and_assoc]
          rfl
      | cut => exact absurd rfl hWhole.1

/- A conversion that ends took the argument that it takes. -/
theorem convert_suits
    {σ : Type}
    {emit : UInt8 → σ → Except Fault σ}
    {ctx : σ}
    {zero : Bool}
    {width : Int}
    {c : UInt8}
    {r : List Arg × σ}
    (hConv : convert emit c zero width args ctx = .ok r) :
    Suits c args ∧ convRest c args = r.1 := by
  have hTake : ∀ {rest : List Arg} {x : Except Fault σ},
      (x >>= fun ctx => .ok (rest, ctx)) = .ok r →
        rest = r.1 := by
    intro rest x hRun
    cases x with
    | error e => cases hRun
    | ok o => cases hRun; rfl
  unfold convert at hConv
  unfold Suits convRest
  cases hSwitch : switch c with
  | num base isSigned upper =>
      rw [hSwitch] at hConv
      match args, hConv with
      | .word v :: rest, hConv => exact ⟨trivial, hTake hConv⟩
  | ptr =>
      rw [hSwitch] at hConv
      dsimp only at hConv
      cases hText : emitAll emit (chars "0x") ctx with
      | error e =>
          rw [hText] at hConv
          cases hConv
      | ok o =>
          rw [hText] at hConv
          match args, hConv with
          | .ptr v :: rest, hConv =>
              exact ⟨trivial, hTake hConv⟩
  | chr =>
      rw [hSwitch] at hConv
      match args, hConv with
      | .word v :: rest, hConv => exact ⟨trivial, hTake hConv⟩
  | str =>
      rw [hSwitch] at hConv
      match args, hConv with
      | .str s :: rest, hConv => exact ⟨trivial, hTake hConv⟩
  | percent =>
      rw [hSwitch] at hConv
      exact ⟨trivial, hTake hConv⟩
  | other =>
      rw [hSwitch] at hConv
      dsimp only at hConv
      rw [← bind_assoc] at hConv
      exact ⟨trivial, hTake hConv⟩

/- A run that ends had the arguments that it takes. -/
theorem runPieces_fits
    {σ : Type}
    {emit : UInt8 → σ → Except Fault σ}
    {ctx next : σ}
    (hRun : runPieces emit ps args ctx = .ok next) :
    Fits ps args := by
  induction ps generalizing args ctx with
  | nil => trivial
  | cons p ps ih =>
      cases p with
      | char c =>
          rw [runPieces] at hRun
          cases hEmit : emit c ctx with
          | error e =>
              rw [hEmit] at hRun
              cases hRun
          | ok o =>
              rw [hEmit] at hRun
              exact ih hRun
      | conv zero width c =>
          rw [runPieces] at hRun
          cases hConv : convert emit c zero width args ctx with
          | error e =>
              rw [hConv] at hRun
              cases hRun
          | ok r =>
              rw [hConv] at hRun
              obtain ⟨hSuits, hRest⟩ := convert_suits hConv
              exact ⟨hSuits, hRest ▸ ih hRun⟩
      | cut =>
          trivial

end Parts

--
-- Arguments That Are Left Over
--

section Left

variable {c : UInt8} {args words : List Arg}

/- The conversion takes a 32-bit value. -/
def TakesWord (c : UInt8) : Prop :=
  ∀ args, (Suits c args ↔ ∃ v rest, args = .word v :: rest) ∧
    convRest c args = args.tail

theorem takesWord_of_switch
    (hSwitch : switch c = .chr ∨ ∃ base isSigned upper,
      switch c = .num base isSigned upper) :
    TakesWord c := by
  intro args
  unfold Suits convRest
  rcases hSwitch with hSwitch | ⟨_, _, _, hSwitch⟩ <;>
    rw [hSwitch]
  all_goals
    refine ⟨?_, rfl⟩
    constructor
    · intro hSuits
      match args, hSuits with
      | .word v :: rest, _ => exact ⟨v, rest, rfl⟩
    · rintro ⟨v, rest, rfl⟩
      trivial

theorem fits_chars
    (ds : List UInt8)
    (ps : List Piece) :
    Fits (ds.map .char ++ ps) args ↔ Fits ps args := by
  induction ds with
  | nil => exact Iff.rfl
  | cons c ds ih => exact ih

/- There are 32-bit values, and nothing else. -/
def AllWords (words : List Arg) : Prop :=
  ∀ a ∈ words, ∃ v, a = .word v

theorem AllWords.snoc
    (hWords : AllWords words)
    (v : UInt32) :
    AllWords (words ++ [.word v]) := by
  intro a hMem
  rcases List.mem_append.mp hMem with hOld | hNew
  · exact hWords a hOld
  · exact ⟨v, List.mem_singleton.mp hNew⟩

/- With a value left over, no `%s` finds its string. -/
theorem fits_runtime_iff
    {items : List Item}
    (hWords : AllWords words)
    (hSome : words ≠ [])
    (hFits : Fits (items.map Item.piece) args) :
    Fits (items.flatMap Item.runtime) (words ++ args) ↔
      Item.conv .s ∉ items := by
  induction items generalizing words args with
  | nil => exact iff_of_true trivial List.not_mem_nil
  | cons i items ih =>
      rw [List.mem_cons, not_or]
      -- the first value left over is taken, one is added
      have hMove : ∀ {c : UInt8}, TakesWord c →
          Suits c args →
          Fits (items.map Item.piece) (convRest c args) →
          (Suits c (words ++ args) ∧
            Fits (items.flatMap Item.runtime)
              (convRest c (words ++ args)) ↔
            Item.conv .s ∉ items) := by
        intro c hTakes hSuits hRest
        rw [(hTakes args).2] at hRest
        obtain ⟨v, rest, rfl⟩ := (hTakes args).1.mp hSuits
        obtain ⟨w, words, rfl⟩ :=
          List.exists_cons_of_ne_nil hSome
        obtain ⟨hFirst, hOthers⟩ :=
          List.forall_mem_cons.mp hWords
        obtain ⟨u, rfl⟩ := hFirst
        have hNext := ih (AllWords.snoc hOthers v)
          (List.append_ne_nil_of_right_ne_nil _
            (List.cons_ne_nil _ _)) hRest
        rw [List.append_assoc] at hNext
        rw [(hTakes _).2]
        exact (and_iff_right
          ((hTakes _).1.mpr ⟨u, _, rfl⟩)).trans hNext
      cases i with
      | char c hPlain =>
          rw [and_iff_right nofun]
          exact ih hWords hSome hFits
      | conv l =>
          obtain ⟨hSuits, hRest⟩ := hFits
          cases l with
          | s =>
              refine iff_of_false ?_ (fun hBoth => hBoth.1 rfl)
              rintro ⟨hString, -⟩
              obtain ⟨w, words, rfl⟩ :=
                List.exists_cons_of_ne_nil hSome
              obtain ⟨u, rfl⟩ := hWords w List.mem_cons_self
              exact hString
          | percent =>
              rw [and_iff_right nofun]
              exact (and_iff_right trivial).trans
                (ih hWords hSome hRest)
          | d =>
              rw [and_iff_right nofun]
              exact hMove (takesWord_of_switch
                (.inr ⟨_, _, _, rfl⟩)) hSuits hRest
          | u =>
              rw [and_iff_right nofun]
              exact hMove (takesWord_of_switch
                (.inr ⟨_, _, _, rfl⟩)) hSuits hRest
          | x =>
              rw [and_iff_right nofun]
              exact hMove (takesWord_of_switch
                (.inr ⟨_, _, _, rfl⟩)) hSuits hRest
          | c =>
              rw [and_iff_right nofun]
              exact hMove (takesWord_of_switch
                (.inl rfl)) hSuits hRest
      | padded s =>
          obtain ⟨hSuits, hRest⟩ := hFits
          have hTakes : TakesWord s.directive.letter :=
            takesWord_of_switch
              (.inr ⟨_, _, _, letter_switch _⟩)
          rw [(hTakes args).2] at hRest
          obtain ⟨v, rest, rfl⟩ := (hTakes args).1.mp hSuits
          rw [and_iff_right nofun]
          have hNext := ih (AllWords.snoc hWords v)
            (List.append_ne_nil_of_right_ne_nil _
              (List.cons_ne_nil _ _)) hRest
          rw [List.append_assoc] at hNext
          exact (and_iff_right trivial).trans
            ((fits_chars _ _).trans hNext)

end Left

--
-- Buffers Of The Two Targets
--

/- A buffer that holds a text, cut to its size. -/
def finished
    (buf : Buf)
    (size : Nat)
    (t : List UInt8) : Buf :=
  if size = 0 then buf
  else Function.update (written buf size 0 t)
    (min t.length (size - 1)) 0

section Finished

variable {bits size : Nat} {buf : Buf} {t s : List UInt8}

/- Only what fits in the buffer matters. -/
theorem finished_take
    (hSame : t.take (size - 1) = s.take (size - 1)) :
    finished buf size t = finished buf size s := by
  have hCut : ∀ t : List UInt8, finished buf size t =
      finished buf size (t.take (size - 1)) := by
    intro t
    have hWritten : written buf size 0 t =
        written buf size 0 (t.take (size - 1)) := by
      funext i
      unfold written
      rw [List.length_take]
      by_cases hIn : 0 ≤ i ∧ i < 0 + t.length ∧ i + 1 < size
      · rw [if_pos hIn, if_pos (by omega),
          List.getD_eq_getElem _ _ (by omega),
          List.getD_eq_getElem _ _
            (by rw [List.length_take]; omega),
          List.getElem_take]
      · rw [if_neg hIn, if_neg (by omega)]
    unfold finished
    rw [hWritten, List.length_take]
    congr 2
    omega
  rw [hCut t, hCut s, hSame]

/- A character before the end of the buffer is there. -/
theorem finished_at
    {p : List UInt8}
    {c : UInt8}
    (hIn : p.length + 1 < size) :
    finished buf size (p ++ c :: t) p.length = c := by
  unfold finished
  rw [if_neg (by omega), List.length_append,
    List.length_cons, Function.update_of_ne (by omega)]
  unfold written
  rw [List.length_append, List.length_cons,
    if_pos (by omega), Nat.sub_zero,
    List.getD_eq_getElem _ _ (by
      rw [List.length_append, List.length_cons]
      omega),
    List.getElem_append_right (Nat.le_refl _)]
  simp only [Nat.sub_self, List.getElem_cons_zero]

/- Nothing is written to an empty buffer. -/
theorem emitBuf_empty (pos : Nat) :
    ∃ next, emitAll (emitBuf bits) t ⟨buf, 0, pos⟩ =
      .ok ⟨buf, 0, next⟩ := by
  induction t generalizing pos with
  | nil => exact ⟨pos, rfl⟩
  | cons c t ih =>
      rw [emitAll_cons]
      exact ih _

end Finished

section Targets

variable {wide : Bool} {buf : Buf} {size : UInt32}
variable {items : List Item} {args : List Arg}

theorem bounded_items (items : List Item) :
    Bounded (items.map Item.piece) := by
  intro p hMem
  obtain ⟨i, -, rfl⟩ := List.mem_map.mp hMem
  cases i with
  | char c hPlain => trivial
  | conv l => exact bounded_iff.mpr fun _ _ _ _ => by decide
  | padded s =>
      refine bounded_iff.mpr fun _ _ _ _ => ?_
      exact_mod_cast s.fits

theorem bounded_runtime (items : List Item) :
    Bounded (items.flatMap Item.runtime) := by
  intro p hMem
  obtain ⟨i, -, hPiece⟩ := List.mem_flatMap.mp hMem
  cases i with
  | char c hPlain =>
      rw [List.mem_singleton.mp hPiece]
      trivial
  | conv l =>
      rw [List.mem_singleton.mp hPiece]
      exact bounded_iff.mpr fun _ _ _ _ => by decide
  | padded s =>
      rcases List.mem_cons.mp hPiece with rfl | hChar
      · exact bounded_iff.mpr fun _ _ _ _ => by decide
      · obtain ⟨c, -, rfl⟩ := List.mem_map.mp hChar
        trivial

/- The kernel fills the buffer with the text. -/
theorem apiFormat_finished
    (hFits : Fits (pieces (formatOf items)) args)
    (hShort : size ≠ 0 →
      (text (pieces (formatOf items)) args).length <
        2 ^ sizeBits wide) :
    apiFormat (sizeBits wide) buf size (formatOf items) args =
      .ok (finished buf size.toNat
        (text (pieces (formatOf items)) args)) := by
  have hBounded : Bounded (pieces (formatOf items)) := by
    rw [pieces_formatOf]
    exact bounded_items items
  unfold apiFormat kvsnprintfV
  by_cases hEmpty : size = 0
  · subst hEmpty
    obtain ⟨next, hRun⟩ := @emitBuf_empty (sizeBits wide) buf
      (text (pieces (formatOf items)) args) 0
    rw [kvprintf_pieces, runPieces_bounded hFits hBounded]
    show (emitAll (emitBuf (sizeBits wide)) _ ⟨buf, 0, 0⟩ >>=
      _) = _
    rw [hRun]
    rfl
  · have hSome : size.toNat ≠ 0 := fun hZero =>
      hEmpty (UInt32.toNat_inj.mp hZero)
    rw [kvprintf_buffer hFits hBounded (hShort hEmpty)]
    show Except.ok (SBuf.closed _) = _
    unfold SBuf.closed finished
    dsimp only
    rw [if_neg hSome, if_neg hSome, stop_eq]

/- A longer text leaves the buffer of the kernel. -/
theorem apiFormat_outside
    (hFits : Fits (pieces (formatOf items)) args)
    (hSome : size ≠ 0)
    (hLong : 2 ^ sizeBits wide ≤
      (text (pieces (formatOf items)) args).length) :
    apiFormat (sizeBits wide) buf size (formatOf items) args =
      .error .outside := by
  have hBounded : Bounded (pieces (formatOf items)) := by
    rw [pieces_formatOf]
    exact bounded_items items
  have hNat : size.toNat ≠ 0 := fun hZero =>
    hSome (UInt32.toNat_inj.mp hZero)
  have hLarge := @sizeBits_large wide
  have hSize := size.toNat_lt
  unfold apiFormat kvsnprintfV
  rw [kvprintf_pieces, runPieces_bounded hFits hBounded,
    emitBuf_wraps (by omega) (by omega) hLong]
  rfl

/- The runtime fills the buffer, if it finds its arguments. -/
theorem format_finished
    (hFits : Fits (items.flatMap Item.runtime) args) :
    Isolated.format buf size (formatOf items) args =
      .ok (finished buf size.toNat
        (text (items.flatMap Item.runtime) args)) := by
  unfold Isolated.format
  have hRun := @formatLoop_items size.toNat _ items
    (Nat.le_refl _) args ⟨buf, 0⟩
  rw [runPieces_bounded hFits (bounded_runtime items),
    Isolated.emitChar_text (Nat.zero_le _), Nat.zero_add]
    at hRun
  change Isolated.formatLoop size.toNat (formatOf items).length
    (formatOf items).bytes args ⟨buf, 0⟩ = _ at hRun
  rw [hRun]
  show Except.ok (Isolated.Out.closed _ _) = _
  unfold Isolated.Out.closed finished
  dsimp only
  split
  · rename_i hEmpty
    have hSame : written buf size.toNat 0
        (text (items.flatMap Item.runtime) args) = buf := by
      funext i
      exact if_neg (by omega)
    rw [hSame]
  · rfl

theorem format_fits
    {out : Buf}
    (hRun : Isolated.format buf size (formatOf items) args =
      .ok out) :
    Fits (items.flatMap Item.runtime) args := by
  unfold Isolated.format at hRun
  have hLoop := @formatLoop_items size.toNat _ items
    (Nat.le_refl _) args ⟨buf, 0⟩
  change Isolated.formatLoop size.toNat (formatOf items).length
    (formatOf items).bytes args ⟨buf, 0⟩ = _ at hLoop
  rw [hLoop] at hRun
  cases hEnd : runPieces (Isolated.emitChar size.toNat)
      (items.flatMap Item.runtime) args ⟨buf, 0⟩ with
  | error e =>
      rw [hEnd] at hRun
      cases hRun
  | ok o => exact runPieces_fits hEnd

/- A padded number does not begin with the `%` sign. -/
theorem padded_head
    (s : PaddedSpec)
    (v : UInt32)
    (rest : List Arg) :
    ∃ c t, convText true s.width s.directive.letter
      (.word v :: rest) = c :: t ∧ c ≠ ch '%' := by
  have hSwitch := letter_switch s.directive
  unfold convText
  rw [hSwitch]
  dsimp only
  cases hText : numberText s.directive.upper s.directive.base
      (valueOf s.directive.isSigned v) s.width true with
  | nil =>
      unfold numberText plainNumber at hText
      rw [List.append_eq_nil_iff, List.append_eq_nil_iff]
        at hText
      exact absurd hText.2.2 (numeral_ne_nil _ _ _)
  | cons c t =>
      refine ⟨c, t, rfl, ?_⟩
      rintro rfl
      exact absurd (mem_numberText (switch_base hSwitch)
        (switch_table hSwitch) (ch '%')
        (hText ▸ List.mem_cons_self)) (by decide)

end Targets

--
-- When The Targets Agree
--

/- Both targets leave the same buffer. -/
def SameBuffer
    (bits : Nat)
    (buf : Buf)
    (size : UInt32)
    (fmt : CStr)
    (args : List Arg) : Prop :=
  ∃ out, apiFormat bits buf size fmt args = .ok out ∧
    Isolated.format buf size fmt args = .ok out

/- The items before the first padded conversion. -/
def before (items : List Item) : List Item :=
  items.takeWhile fun i => !i.isPadded

/- The first padded conversion, and the items behind it. -/
def padding (items : List Item) : List Item :=
  items.dropWhile fun i => !i.isPadded

/-
  The text has a length that `size_t` holds. No conversion
  is padded, or the text before the first one that is fills
  the buffer and no `%s` follows.
-/
structure Alike
    (bits : Nat)
    (items : List Item)
    (args : List Arg)
    (size : UInt32) : Prop where
  short : size ≠ 0 →
    (text (pieces (formatOf items)) args).length < 2 ^ bits
  padded : padding items = [] ∨
    (size.toNat ≤
        (text (pieces (formatOf (before items))) args).length +
          1 ∧
      Item.conv .s ∉ padding items)

theorem cut_not_mem (items : List Item) :
    Piece.cut ∉ items.map Item.piece := by
  intro hMem
  obtain ⟨i, -, hCut⟩ := List.mem_map.mp hMem
  cases i <;> cases hCut

/- Without padding, both targets read the same. -/
theorem runtime_before (items : List Item) :
    (before items).flatMap Item.runtime =
      (before items).map Item.piece := by
  have hAll : ∀ i ∈ before items, i.runtime = [i.piece] := by
    intro i hMem
    have hPlain := List.mem_takeWhile_imp hMem
    cases i with
    | char c _ => rfl
    | conv l => rfl
    | padded s => cases hPlain
  generalize before items = xs at hAll
  induction xs with
  | nil => rfl
  | cons i xs ih =>
      rw [List.forall_mem_cons] at hAll
      rw [List.flatMap_cons, hAll.1, ih hAll.2]
      rfl

theorem padding_head
    {i : Item}
    {items rest : List Item}
    (hPadding : padding items = i :: rest) :
    ∃ s, i = .padded s := by
  have hHead := List.head?_dropWhile_not
    (fun i : Item => !i.isPadded) items
  unfold padding at hPadding
  rw [hPadding] at hHead
  cases i with
  | padded s => exact ⟨s, rfl⟩
  | char c _ => cases hHead
  | conv l => cases hHead

/- The texts part at the first padded conversion. -/
theorem texts_part
    {items : List Item}
    {args : List Arg}
    (hFits : Fits (pieces (formatOf items)) args)
    (hPadded : padding items ≠ []) :
    ∃ c t r, c ≠ ch '%' ∧
      text (pieces (formatOf items)) args =
        text (pieces (formatOf (before items))) args ++
          c :: t ∧
      text (items.flatMap Item.runtime) args =
        text (pieces (formatOf (before items))) args ++
          ch '%' :: r ∧
      (Fits (items.flatMap Item.runtime) args ↔
        Item.conv .s ∉ padding items) := by
  obtain ⟨i, rest, hPadding⟩ :=
    List.exists_cons_of_ne_nil hPadded
  obtain ⟨s, rfl⟩ := padding_head hPadding
  have hItems : items = before items ++ .padded s :: rest := by
    rw [← hPadding]
    exact (List.takeWhile_append_dropWhile).symm
  have hKernel : pieces (formatOf items) =
      (before items).map Item.piece ++
        (Item.padded s).piece :: rest.map Item.piece := by
    rw [pieces_formatOf, ← List.map_cons, ← List.map_append,
      ← hItems]
  have hRuntime : items.flatMap Item.runtime =
      (before items).map Item.piece ++
        ((Item.padded s).runtime ++
          rest.flatMap Item.runtime) := by
    rw [← runtime_before, ← List.flatMap_cons,
      ← List.flatMap_append, ← hItems]
  have hCut := cut_not_mem (before items)
  rw [hKernel, fits_append hCut] at hFits
  obtain ⟨hBefore, hSuits, hRest⟩ := hFits
  rw [hKernel, hRuntime, text_append hCut, text_append hCut,
    fits_append hCut, pieces_formatOf]
  generalize leftArgs ((before items).map Item.piece) args =
    left at hSuits hRest
  have hTakes : TakesWord s.directive.letter :=
    takesWord_of_switch (.inr ⟨_, _, _, letter_switch _⟩)
  obtain ⟨v, behind, rfl⟩ := (hTakes left).1.mp hSuits
  rw [(hTakes _).2] at hRest
  obtain ⟨c, t, hHead, hOther⟩ := padded_head s v behind
  refine ⟨c, t ++ text (rest.map Item.piece)
    (convRest s.directive.letter (.word v :: behind)), _,
    hOther, ?_, rfl, ?_⟩
  · show _ ++ (convText _ _ _ _ ++ _) = _
    rw [hHead]
    rfl
  · have hFound := fits_runtime_iff
      (@AllWords.snoc [] nofun v)
      (List.cons_ne_nil _ _) hRest
    rw [and_iff_right hBefore, hPadding, List.mem_cons,
      not_or, and_iff_right nofun, ← hFound]
    exact (and_iff_right trivial).trans (fits_chars _ _)

/- What differs is behind the end of the buffer or in it. -/
theorem finished_iff
    {buf : Buf}
    {size : Nat}
    {p t r : List UInt8}
    {c d : UInt8}
    (hOther : c ≠ d) :
    finished buf size (p ++ c :: t) =
        finished buf size (p ++ d :: r) ↔
      size ≤ p.length + 1 := by
  constructor
  · intro hSame
    by_contra hIn
    have hAt := congrFun hSame p.length
    rw [finished_at (by omega), finished_at (by omega)] at hAt
    exact hOther hAt
  · intro hFull
    refine finished_take ?_
    rw [List.take_append_of_le_length (by omega),
      List.take_append_of_le_length (by omega)]

/-
  The targets leave the same buffer if and only if the
  condition holds.
-/
theorem sameBuffer_iff
    (wide : Bool)
    {items : List Item}
    {args : List Arg}
    (hFits : Fits (pieces (formatOf items)) args)
    (buf : Buf)
    (size : UInt32) :
    SameBuffer (sizeBits wide) buf size (formatOf items)
        args ↔
      Alike (sizeBits wide) items args size := by
  by_cases hShort : size ≠ 0 →
      (text (pieces (formatOf items)) args).length <
        2 ^ sizeBits wide
  · have hApi := @apiFormat_finished wide buf size items args
      hFits hShort
    have hFill : SameBuffer (sizeBits wide) buf size
        (formatOf items) args ↔
        Fits (items.flatMap Item.runtime) args ∧
          finished buf size.toNat
              (text (pieces (formatOf items)) args) =
            finished buf size.toNat
              (text (items.flatMap Item.runtime) args) := by
      constructor
      · rintro ⟨out, hKernel, hRun⟩
        have hFound := format_fits hRun
        rw [format_finished hFound] at hRun
        rw [hApi] at hKernel
        exact ⟨hFound, Except.ok.inj (hKernel.trans hRun.symm)⟩
      · rintro ⟨hFound, hSame⟩
        refine ⟨_, hApi, ?_⟩
        rw [format_finished hFound, hSame]
    rw [hFill]
    by_cases hPadded : padding items = []
    · have hAll : before items = items := by
        have hWhole := @List.takeWhile_append_dropWhile _
          (fun i : Item => !i.isPadded) items
        unfold padding at hPadded
        rwa [hPadded, List.append_nil] at hWhole
      have hSame := runtime_before items
      rw [hAll, ← pieces_formatOf] at hSame
      rw [hSame]
      exact iff_of_true ⟨hFits, rfl⟩ ⟨hShort, .inl hPadded⟩
    · obtain ⟨c, t, r, hOther, hKernel, hRuntime, hFound⟩ :=
        texts_part hFits hPadded
      rw [hKernel] at hShort ⊢
      rw [hRuntime, finished_iff hOther, hFound]
      constructor
      · rintro ⟨hNone, hFull⟩
        exact ⟨hKernel ▸ hShort, .inr ⟨hFull, hNone⟩⟩
      · rintro ⟨-, hNil | ⟨hFull, hNone⟩⟩
        · exact absurd hNil hPadded
        · exact ⟨hNone, hFull⟩
  · have hLong := hShort
    push Not at hLong
    refine iff_of_false ?_ (fun hAlike => hShort hAlike.short)
    rintro ⟨out, hKernel, -⟩
    rw [apiFormat_outside hFits hLong.1 hLong.2] at hKernel
    cases hKernel

/- `%08x`. -/
def hexSpec : PaddedSpec where
  zero := true
  widthDigits := [ch '8']
  directive := .x
  digit := List.forall_mem_singleton.mpr rfl
  noFlag := by decide
  fits := by decide
  flag := rfl
  known := .inr (.inr rfl)

theorem fits_hex :
    Fits (pieces (formatOf [.padded hexSpec])) [.word 42] := by
  rw [pieces_formatOf]
  exact ⟨trivial, trivial⟩

theorem sameBuffer_iff_hex :
    Fits (pieces (formatOf [.padded hexSpec])) [.word 42] ∧
      (SameBuffer (sizeBits false) Buf.zero 1
          (formatOf [.padded hexSpec]) [.word 42] ↔
        Alike (sizeBits false) [.padded hexSpec] [.word 42]
          1) :=
  ⟨fits_hex, sameBuffer_iff false fits_hex Buf.zero 1⟩

/- The kernel prints `0000002a`, the runtime `%08x`. -/
theorem widths_not_known :
    Fits (pieces (formatOf [.padded hexSpec])) [.word 42] ∧
      (apiFormat 32 Buf.zero 16 (formatOf [.padded hexSpec])
        [.word 42]).map (fun out => List.ofFn fun i : Fin 9 =>
          out i) = .ok (chars "0000002a" ++ [0]) ∧
      (Isolated.format Buf.zero 16
        (formatOf [.padded hexSpec])
        [.word 42]).map (fun out => List.ofFn fun i : Fin 5 =>
          out i) = .ok (chars "%08x" ++ [0]) ∧
      ¬∀ (wide : Bool) (items : List Item)
        (args : List Arg) (buf : Buf) (size : UInt32),
        Fits (pieces (formatOf items)) args →
          SameBuffer (sizeBits wide) buf size (formatOf items)
            args := by
  have hKernel : (apiFormat 32 Buf.zero 16
      (formatOf [.padded hexSpec]) [.word 42]).map
      (fun out => List.ofFn fun i : Fin 9 => out i) =
        .ok (chars "0000002a" ++ [0]) := by
    decide +kernel
  have hRuntime : (Isolated.format Buf.zero 16
      (formatOf [.padded hexSpec]) [.word 42]).map
      (fun out => List.ofFn fun i : Fin 5 => out i) =
        .ok (chars "%08x" ++ [0]) := by
    decide +kernel
  refine ⟨fits_hex, hKernel, hRuntime, fun hAll => ?_⟩
  obtain ⟨out, hOne, hTwo⟩ := hAll false [.padded hexSpec]
    [.word 42] Buf.zero 16 fits_hex
  change apiFormat 32 _ _ _ _ = _ at hOne
  rw [hOne] at hKernel
  rw [hTwo] at hRuntime
  have hZero : out 0 = ch '0' :=
    (List.cons.inj (Except.ok.inj hKernel)).1
  have hPercent : out 0 = ch '%' :=
    (List.cons.inj (Except.ok.inj hRuntime)).1
  rw [hZero] at hPercent
  exact absurd hPercent (by decide)

end KvantOS.Printf
