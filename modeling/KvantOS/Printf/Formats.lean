import KvantOS.Printf.Numbers

/-
  This file reads formats as pieces and proves what
  `kvprintf` emits for them: the text of the pieces, unless
  the format ends inside a conversion or a width is too
  large.

  Key definitions include:
    * `Piece`, `pieces`
    * `Fits`, `Bounded`, `text`

  Key theorems include:
    * `kvprintf_pieces`, `runPieces_bounded`
    * `runPieces_fault`
-/

namespace KvantOS.Printf

--
-- Pieces Of A Format
--

/-
  A character, a conversion with its flag and width, or a
  conversion that the end of the format cuts off.
-/
inductive Piece where
  | char (c : UInt8)
  | conv (zero : Bool) (width : Int) (c : UInt8)
  | cut
  deriving DecidableEq

def piecesFrom :
    (turns : Nat) → List UInt8 → List Piece
  | 0, _ => []
  | _ + 1, [] => []
  | turns + 1, c :: p =>
      if c != ch '%' then
        .char c :: piecesFrom turns p
      else
        let (zero, p) := readZero p
        let (width, p) := readWidth 0 p
        match p with
        | [] => [.cut]
        | c :: p => .conv zero width c :: piecesFrom turns p

def pieces (fmt : CStr) : List Piece :=
  piecesFrom fmt.length fmt.bytes

/- The first argument is one that the conversion takes. -/
def Suits
    (c : UInt8)
    (args : List Arg) : Prop :=
  match switch c, args with
  | .num _ _ _, .word _ :: _ => True
  | .ptr, .ptr _ :: _ => True
  | .chr, .word _ :: _ => True
  | .str, .str _ :: _ => True
  | .percent, _ => True
  | .other, _ => True
  | _, _ => False

/- The arguments that a conversion leaves. -/
def convRest
    (c : UInt8)
    (args : List Arg) : List Arg :=
  match switch c with
  | .percent => args
  | .other => args
  | _ => args.tail

/- The arguments match the conversions. -/
def Fits : List Piece → List Arg → Prop
  | [], _ => True
  | .char _ :: ps, args => Fits ps args
  | .conv _ _ c :: ps, args =>
      Suits c args ∧ Fits ps (convRest c args)
  | .cut :: _, _ => True

/- A number has room in `tmp`. -/
def Piece.Bounded : Piece → Prop
  | .char _ => True
  | .conv _ width c =>
      match switch c with
      | .num _ _ _ => width ≤ 36
      | _ => True
  | .cut => False

def Bounded (ps : List Piece) : Prop :=
  ∀ p ∈ ps, p.Bounded

/- What a conversion prints. -/
def convText
    (zero : Bool)
    (width : Int)
    (c : UInt8)
    (args : List Arg) : List UInt8 :=
  match switch c, args with
  | .num base isSigned upper, .word v :: _ =>
      numberText upper base (valueOf isSigned v) width zero
  | .ptr, .ptr v :: _ =>
      chars "0x" ++
        numberText false 16 (valueOf false v.toUInt32) 8 true
  | .chr, .word v :: _ => [v.toUInt8]
  | .str, .str s :: _ => (s.getD nullText).bytes
  | .percent, _ => [ch '%']
  | .other, _ => [ch '%', c]
  | _, _ => []

/- What the pieces print. -/
def text : List Piece → List Arg → List UInt8
  | [], _ => []
  | .char c :: ps, args => c :: text ps args
  | .conv zero width c :: ps, args =>
      convText zero width c args ++ text ps (convRest c args)
  | .cut :: _, _ => []

--
-- Runs Over Pieces
--

section Sinks

variable {σ : Type}
variable (emit : UInt8 → σ → Except Fault σ)

/- `kvprintf`, piece by piece. -/
def runPieces :
    List Piece → List Arg → σ → Except Fault σ
  | [], _, ctx => .ok ctx
  | .char c :: ps, args, ctx => do
      let ctx ← emit c ctx
      runPieces ps args ctx
  | .conv zero width c :: ps, args, ctx => do
      let (args, ctx) ← convert emit c zero width args ctx
      runPieces ps args ctx
  | .cut :: _, _, ctx => do
      let ctx ← emit (ch '%') ctx
      let _ ← emit 0 ctx
      .error .overread

theorem kvprintfLoop_pieces
    (turns : Nat)
    (p : List UInt8)
    (args : List Arg)
    (ctx : σ) :
    kvprintfLoop emit turns p args ctx =
      runPieces emit (piecesFrom turns p) args ctx := by
  induction turns generalizing p args ctx with
  | zero => rfl
  | succ turns ih =>
      cases p with
      | nil => rfl
      | cons c p =>
          rw [kvprintfLoop, piecesFrom]
          split
          · rw [runPieces]
            exact bind_congr fun ctx => ih p args ctx
          · dsimp only
            generalize readWidth 0 (readZero p).2 = rest
            obtain ⟨width, _ | ⟨d, q⟩⟩ := rest
            · rfl
            · dsimp only
              rw [runPieces]
              exact bind_congr fun next =>
                ih q next.1 next.2

theorem kvprintf_pieces
    (ctx : σ)
    (fmt : CStr)
    (args : List Arg) :
    kvprintf emit ctx fmt args =
      runPieces emit (pieces fmt) args ctx :=
  kvprintfLoop_pieces emit _ _ _ _

variable {emit}

theorem emitAll_append
    (s t : List UInt8)
    (ctx : σ) :
    emitAll emit (s ++ t) ctx =
      emitAll emit s ctx >>= emitAll emit t :=
  List.foldlM_append

theorem emitAll_cons
    (c : UInt8)
    (t : List UInt8)
    (ctx : σ) :
    emitAll emit (c :: t) ctx =
      emit c ctx >>= emitAll emit t :=
  List.foldlM_cons

theorem emitAll_one
    (c : UInt8)
    (ctx : σ) :
    emitAll emit [c] ctx = emit c ctx := by
  rw [emitAll_cons]
  exact bind_pure _

variable {c : UInt8}

theorem switch_base
    {base : Nat}
    {isSigned upper : Bool}
    (hSwitch : switch c = .num base isSigned upper) :
    2 ≤ base := by
  unfold switch at hSwitch
  repeat' split at hSwitch
  all_goals cases hSwitch
  all_goals decide

variable {width : Int} {zero : Bool}

theorem bounded_iff
    {c : UInt8} :
    (Piece.conv zero width c).Bounded ↔
      ∀ base isSigned upper,
        switch c = .num base isSigned upper → width ≤ 36 := by
  unfold Piece.Bounded
  dsimp only
  cases hSwitch : switch c with
  | num base isSigned upper =>
      exact ⟨fun hWidth _ _ _ _ => hWidth,
        fun hAll => hAll base isSigned upper rfl⟩
  | _ => exact ⟨fun _ _ _ _ => nofun, fun _ => trivial⟩

variable {args : List Arg}

/- A conversion with room emits its text. -/
theorem convert_bounded
    (hSuits : Suits c args)
    (hBounded : (Piece.conv zero width c).Bounded)
    (ctx : σ) :
    convert emit c zero width args ctx =
      emitAll emit (convText zero width c args) ctx >>=
        fun ctx => .ok (convRest c args, ctx) := by
  unfold Suits at hSuits
  unfold convert convText convRest
  cases hSwitch : switch c with
  | num base isSigned upper =>
      rw [hSwitch] at hSuits
      have hWidth := bounded_iff.mp hBounded _ _ _ hSwitch
      match args, hSuits with
      | .word v :: rest, _ =>
          have hOut := @outNum_eq _ emit _ (switch_base hSwitch)
            ctx v isSigned width zero upper
          rw [if_pos hWidth] at hOut
          show (outNum emit ctx v base isSigned width zero
            upper >>= _) = _
          rw [hOut]
          rfl
  | ptr =>
      rw [hSwitch] at hSuits
      match args, hSuits with
      | .ptr v :: rest, _ =>
          dsimp only
          rw [emitAll_append, bind_assoc]
          refine bind_congr fun ctx => ?_
          have hOut := @outNum_eq _ emit 16 (by decide) ctx
            v.toUInt32 false 8 true false
          rw [if_pos (by decide)] at hOut
          show (outNum emit ctx v.toUInt32 16 false 8 true
            false >>= _) = _
          rw [hOut]
          rfl
  | chr =>
      rw [hSwitch] at hSuits
      match args, hSuits with
      | .word v :: rest, _ =>
          dsimp only
          rw [emitAll_one]
          rfl
  | str =>
      rw [hSwitch] at hSuits
      match args, hSuits with
      | .str s :: rest, _ => rfl
  | percent =>
      dsimp only
      rw [emitAll_one]
  | other =>
      dsimp only
      rw [emitAll_cons, bind_assoc]
      refine bind_congr fun ctx => ?_
      rw [emitAll_one]

variable {ps : List Piece}

/- Pieces with room emit their text. -/
theorem runPieces_bounded
    (hFits : Fits ps args)
    (hBounded : Bounded ps)
    (ctx : σ) :
    runPieces emit ps args ctx =
      emitAll emit (text ps args) ctx := by
  induction ps generalizing args ctx with
  | nil => rfl
  | cons p ps ih =>
      have hRest : Bounded ps := fun q hMem =>
        hBounded q (List.mem_cons_of_mem _ hMem)
      have hFirst := hBounded p List.mem_cons_self
      cases p with
      | char c =>
          rw [runPieces, text, emitAll_cons]
          exact bind_congr fun ctx => ih hFits hRest ctx
      | conv zero width c =>
          rw [runPieces, text, emitAll_append,
            convert_bounded hFits.1 hFirst, bind_assoc]
          exact bind_congr fun ctx => ih hFits.2 hRest ctx
      | cut => cases hFirst

/- The sink takes every character. -/
def Total (emit : UInt8 → σ → Except Fault σ) : Prop :=
  ∀ c ctx, ∃ next, emit c ctx = .ok next

theorem Total.all
    (hTotal : Total emit)
    (t : List UInt8)
    (ctx : σ) :
    ∃ next, emitAll emit t ctx = .ok next := by
  induction t generalizing ctx with
  | nil => exact ⟨ctx, rfl⟩
  | cons c t ih =>
      obtain ⟨next, hNext⟩ := hTotal c ctx
      rw [emitAll_cons, hNext]
      exact ih next

/- Without room, the run leaves its buffers. -/
theorem runPieces_fault
    (hTotal : Total emit)
    (hFits : Fits ps args)
    (hNot : ¬Bounded ps)
    (ctx : σ) :
    runPieces emit ps args ctx = .error .overread ∨
      runPieces emit ps args ctx = .error .overrun := by
  induction ps generalizing args ctx with
  | nil => exact absurd (fun _ => nofun) hNot
  | cons p ps ih =>
      cases p with
      | char c =>
          obtain ⟨next, hNext⟩ := hTotal c ctx
          rw [runPieces, hNext]
          refine ih hFits (fun hRest => hNot ?_) next
          intro q hMem
          rcases List.mem_cons.mp hMem with rfl | hMem
          · trivial
          · exact hRest q hMem
      | conv zero width c =>
          rw [runPieces]
          by_cases hFirst : (Piece.conv zero width c).Bounded
          · obtain ⟨next, hNext⟩ :=
              hTotal.all (convText zero width c args) ctx
            rw [convert_bounded hFits.1 hFirst, hNext]
            refine ih hFits.2 (fun hRest => hNot ?_) next
            intro q hMem
            rcases List.mem_cons.mp hMem with rfl | hMem
            · exact hFirst
            · exact hRest q hMem
          · have hSuits := hFits.1
            rw [bounded_iff] at hFirst
            push Not at hFirst
            obtain ⟨base, isSigned, upper, hSwitch, hWide⟩ :=
              hFirst
            unfold Suits at hSuits
            unfold convert
            rw [hSwitch] at hSuits ⊢
            match args, hSuits with
            | .word v :: rest, _ =>
                have hOut := @outNum_eq _ emit _
                  (switch_base hSwitch) ctx v isSigned
                  width zero upper
                rw [if_neg (Int.not_le.mpr hWide)] at hOut
                refine .inr ?_
                show ((outNum emit ctx v base isSigned width
                  zero upper >>= _) >>= _) = _
                rw [hOut]
                rfl
      | cut =>
          obtain ⟨next, hNext⟩ := hTotal (ch '%') ctx
          obtain ⟨last, hLast⟩ := hTotal 0 next
          rw [runPieces, hNext]
          refine .inl ?_
          show (emit 0 next >>= _) = _
          rw [hLast]
          rfl

end Sinks

end KvantOS.Printf
