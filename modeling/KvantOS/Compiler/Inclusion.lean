import KvantOS.Compiler.Readings

/-
  This file proves that `preprocess` is macro substitution
  that keeps lines: what it writes has the tokens of the
  source, without comments and directive lines, with each
  builtin header in the place of its first `#include`, and
  with every name of a macro replaced.

  Key definitions include:
    * `IncludeLine`, `Holds`, `Ran`
    * `Faithful`

  Key theorems include:
    * `ppDirective_ran`, `sourceLoop_ran`
    * `preprocess_faithful`
-/

namespace KvantOS.Compiler

open Lexical

--
-- Runs
--

/- The state has the macros and headers of the world. -/
structure Holds (st : Pp) (w : World) : Prop where
  macros : Tracks st w.macros
  included : ∀ i, st.included.testBit i = true ↔
    i ∈ w.included

theorem Holds.wrote
    {st st' : Pp}
    {w : World}
    {q : List UInt8}
    (hHolds : Holds st w)
    (hWrote : Wrote st q st') :
    Holds st' w where
  macros := hHolds.macros.wrote hWrote
  included := by
    rw [hWrote.included]
    exact hHolds.included

/- The run wrote what the text reads as. -/
def Ran
    (header : Bool)
    (st : Pp)
    (w : World)
    (s : Place)
    (fresh : Bool)
    (p : List UInt8)
    (st' : Pp) : Prop :=
  ∃ q toks w' s', st'.output = st.output ++ q ∧
    Reads ppHeaders header w s fresh p toks w' s' ∧
      Lexed false s q toks s' ∧ Holds st' w' ∧ Follows p q

variable {header fresh : Bool} {st st' st₁ : Pp} {w : World}
variable {s : Place} {c : UInt8} {p q r t : List UInt8}

theorem Ran.newline
    (hWrote : Wrote st [if header then 32 else 10] st₁)
    (hRan : Ran header st₁ w
      ⟨advance header s.line 1, false⟩ true p st') :
    Ran header st w s fresh (10 :: p) st' := by
  obtain ⟨q, toks, w', s', hOut, hReads, hLexed, hHolds, -⟩ :=
    hRan
  refine ⟨(if header then 32 else 10) :: q, toks, w', s', ?_,
    .newline hReads, ?_, hHolds, ?_⟩
  · rw [hOut, hWrote.output, List.append_assoc]
    rfl
  · cases header with
    | false => exact .newline rfl hLexed
    | true => exact .blank rfl hLexed
  · cases header with
    | false => exact .inr (.inr rfl)
    | true => exact .inr (.inl ⟨32, rfl, rfl⟩)

theorem Ran.blank
    (hBlank : isBlank c = true)
    (hWrote : Wrote st [c] st₁)
    (hRan : Ran header st₁ w ⟨s.line, false⟩ fresh p st') :
    Ran header st w s fresh (c :: p) st' := by
  obtain ⟨q, toks, w', s', hOut, hReads, hLexed, hHolds, -⟩ :=
    hRan
  refine ⟨c :: q, toks, w', s', ?_, .blank hBlank hReads,
    .blank (lexeme_blank hBlank q) hLexed, hHolds,
    .inr (.inr rfl)⟩
  rw [hOut, hWrote.output, List.append_assoc]
  rfl

/- What is written for a comment moves on as it does. -/
def Passes
    (header : Bool)
    (feeds : Nat)
    (q : List UInt8) : Prop :=
  ∀ {line : Nat} {tail : List UInt8} {toks : List Tok}
    {s' : Place},
    Lexed false ⟨advance header line feeds, false⟩ tail toks
        s' →
      Lexed false ⟨line, false⟩ (q ++ tail) toks s'

theorem Ran.comment
    {feeds : Nat}
    (hRead : lexeme p = some (.comment feeds, r))
    (hPasses : Passes header feeds q)
    (hWrote : Wrote st (32 :: q) st₁)
    (hRan : Ran header st₁ w
      ⟨advance header s.line feeds, false⟩
      (fresh || 0 < feeds) r st') :
    Ran header st w s fresh p st' := by
  obtain ⟨q', toks, w', s', hOut, hReads, hLexed, hHolds, -⟩ :=
    hRan
  refine ⟨32 :: (q ++ q'), toks, w', s', ?_,
    .comment hRead hReads, .blank rfl (hPasses hLexed), hHolds,
    .inr (.inl ⟨32, rfl, rfl⟩)⟩
  rw [hOut, hWrote.output, List.append_assoc]
  rfl

/- What follows a directive ends its line. -/
theorem follows_line
    (hFollows : Follows (p.dropWhile (· != 10)) q) :
    StartsApart q := by
  rcases hFollows with hNil | hSpace | hHead
  · exact .inl hNil
  · exact .inr hSpace
  · cases hDrop : p.dropWhile (· != 10) with
    | nil =>
        rw [hDrop] at hHead
        exact .inl (List.head?_eq_none_iff.mp hHead)
    | cons b rest =>
        rw [hDrop] at hHead
        refine .inr ⟨b, ?_, hHead⟩
        have hStop := dropWhile_stops (· != 10) p
        rw [hDrop, List.head?_cons, Option.any_some,
          bne_eq_false_iff_eq] at hStop
        rw [hStop]
        rfl

variable {s₁ : Place}

theorem Ran.define
    {name tail : List UInt8}
    {body : List Tok}
    (hLine : DefineLine (p.takeWhile (· != 10)) name tail)
    (hBody : Lexed true ⟨0, false⟩ tail body s₁)
    (hNew : w.macros.lookup name = none)
    (hOutput : st₁.output = st.output)
    (hRan : Ran header st₁
      { w with macros := w.macros ++ [(name, body)] } s true
      (p.dropWhile (· != 10)) st') :
    Ran header st w s true (35 :: p) st' := by
  obtain ⟨q, toks, w', s', hOut, hReads, hLexed, hHolds,
    hFollows⟩ := hRan
  refine ⟨q, toks, w', s', by rw [hOut, hOutput],
    .define hLine hBody hNew hReads, hLexed, hHolds,
    (follows_line hFollows).imp_right .inl⟩

variable {name : List UInt8}

variable {i : Fin ppHeaders.length}

theorem Ran.again
    (hLine : IncludeLine (p.takeWhile (· != 10)) name)
    (hIndex : ppHeaders.findFinIdx?
      (fun e => e.name == name) = some i)
    (hOld : i.val ∈ w.included)
    (hRan : Ran header st w s true (p.dropWhile (· != 10))
      st') :
    Ran header st w s true (35 :: p) st' := by
  obtain ⟨q, toks, w', s', hOut, hReads, hLexed, hHolds,
    hFollows⟩ := hRan
  exact ⟨q, toks, w', s', hOut,
    .again hLine hIndex hOld hReads, hLexed, hHolds,
    (follows_line hFollows).imp_right .inl⟩

/- In a header the line stays. -/
theorem Reads.header_line
    {headers : List PpHeader}
    {w w' : World}
    {s' : Place}
    {toks : List Tok}
    (hReads : Reads headers header w s fresh p toks w' s')
    (hHeader : header = true) :
    s'.line = s.line := by
  induction hReads with
  | done => rfl
  | newline hRest ih =>
      rw [ih hHeader]
      unfold advance
      rw [if_pos hHeader]
  | blank hBlank hRest ih => exact ih hHeader
  | comment hRead hRest ih =>
      rw [ih hHeader]
      unfold advance
      rw [if_pos hHeader]
  | define hLine hBody hNew hRest ih => exact ih hHeader
  | includes hLine hIndex hNew hInner hRest _ ih =>
      exact ih hHeader
  | again hLine hIndex hOld hRest ih => exact ih hHeader
  | token hNot hRead hOut hRest ih => exact ih hHeader

theorem Ran.includes
    {name q₁ : List UInt8}
    {w₁ : World}
    {inner : List Tok}
    (hLine : IncludeLine (p.takeWhile (· != 10)) name)
    (hIndex : ppHeaders.findFinIdx?
      (fun e => e.name == name) = some i)
    (hNew : i.val ∉ w.included)
    (hHeader : Reads ppHeaders true w ⟨s.line, false⟩ true
      (ppHeaders.get i).body inner w₁ s₁)
    (hInner : Lexed false ⟨s.line, false⟩ q₁ inner s₁)
    (hOutput : st₁.output =
      st.output ++ (32 :: (q₁ ++ [32])))
    (hRan : Ran header st₁
      { w₁ with included := i.val :: w₁.included }
      ⟨s.line, false⟩ true (p.dropWhile (· != 10)) st') :
    Ran header st w s true (35 :: p) st' := by
  obtain ⟨q, toks, w', s', hOut, hReads, hLexed, hHolds, -⟩ :=
    hRan
  have hSame : s₁.line = s.line := hHeader.header_line rfl
  refine ⟨32 :: (q₁ ++ 32 :: q), _, w', s', ?_,
    .includes hLine hIndex hNew hHeader hReads,
    .blank rfl (hInner.append (.blank rfl ?_)
      (.inr ⟨32, rfl, rfl⟩)), hHolds,
    .inr (.inl ⟨32, rfl, rfl⟩)⟩
  · rw [hOut, hOutput, List.append_assoc, List.cons_append,
      List.append_assoc]
    rfl
  · rw [hSame]
    exact hLexed

theorem Ran.token
    {out : List UInt8}
    (hNot : c ≠ 35)
    (hRead : lexeme (c :: p) = some (.token t, r))
    (hOut : TokenOut w.macros s.line t out)
    (hWrote : Wrote st out st₁)
    (hKept : bodyOf w.macros t = none →
      Ran header st₁ w ⟨s.line, true⟩ false r st')
    (hReplaced : bodyOf w.macros t ≠ none →
      Ran header st₁ w ⟨s.line, false⟩ false r st') :
    Ran header st w s fresh (c :: p) st' := by
  obtain ⟨-, -, -, hToken⟩ := lexeme_token hRead
  obtain ⟨t', hT, -⟩ := tokenAt_split hToken
  cases hOut with
  | kept hNone =>
      obtain ⟨q, toks, w', s', hOut, hReads, hLexed, hHolds,
        hFollows⟩ := hKept hNone
      have hSame : Replaced w.macros s.line false
          [⟨t, s.line, s.joined⟩]
          [⟨t, s.line, s.joined && !false⟩] false :=
        .keep hNone (.done false)
      rw [Bool.not_false, Bool.and_true] at hSame
      refine ⟨t ++ q, _, w', s', ?_,
        .token hNot hRead hSame hReads,
        .token (lexeme_again hRead hFollows) hLexed, hHolds,
        ?_⟩
      · rw [hOut, hWrote.output, List.append_assoc]
      · rw [hT]
        exact .inr (.inr rfl)
  | @replaced body inner q' cut joined hSome hBody hInner =>
      obtain ⟨q, toks, w', s', hOut, hReads, hLexed, hHolds,
        hFollows⟩ := hReplaced (by rw [hSome]; nofun)
      have hSame : Replaced w.macros s.line false
          [⟨t, s.line, s.joined⟩] (inner ++ []) true :=
        .replace hSome hBody (.done true)
      rw [List.append_nil] at hSame
      refine ⟨32 :: (q' ++ 32 :: q), _, w', s', ?_,
        .token hNot hRead hSame hReads,
        .blank rfl (hInner.append (.blank rfl hLexed)
          (.inr ⟨32, rfl, rfl⟩)), hHolds,
        .inr (.inl ⟨32, rfl, rfl⟩)⟩
      rw [hOut, hWrote.output, List.append_assoc,
        List.cons_append, List.append_assoc]
      rfl

/- A comment is read to its end, with the ends of its lines. -/
theorem sourceComment_spec
    {fresh' : Bool}
    (hRun : sourceComment header fresh p st =
      .ok (st', fresh', r)) :
    ∃ t q, commentRest p = some (t, r) ∧ Wrote st q st' ∧
      fresh' = (fresh || 0 < t.count 10) ∧
        Passes header (t.count 10) q := by
  induction p generalizing st fresh with
  | nil => exact absurd hRun ppFail_ne_ok
  | cons c p ih =>
    cases p with
    | nil =>
        unfold sourceComment at hRun
        split at hRun
        · rw [bind_ok] at hRun
          obtain ⟨st₁, -, hRun⟩ := hRun
          exact absurd hRun ppFail_ne_ok
        · exact absurd hRun ppFail_ne_ok
    | cons d p =>
        rw [sourceComment] at hRun
        rw [commentRest]
        split at hRun
        · rename_i hEnd
          cases hRun
          rw [if_pos hEnd]
          refine ⟨[], [], rfl, .refl _, by simp, ?_⟩
          intro line tail toks s' hTail
          unfold advance at hTail
          simpa using hTail
        · rename_i hEnd
          rw [if_neg hEnd]
          split at hRun
          · rename_i hFeed
            rw [bind_ok] at hRun
            obtain ⟨st₁, hEmit, hRun⟩ := hRun
            obtain ⟨t, q, hRest, hWrote, hFresh, hPasses⟩ :=
              ih hRun
            rw [hRest]
            refine ⟨c :: t, (if header then 32 else 10) :: q,
              rfl, (ppEmit_wrote hEmit).trans hWrote, ?_, ?_⟩
            · rw [hFresh, beq_iff_eq.mp hFeed,
                List.count_cons_self]
              simp
            · intro line tail toks s' hTail
              rw [beq_iff_eq.mp hFeed, List.count_cons_self]
                at hTail
              cases header with
              | true => exact .blank rfl (hPasses hTail)
              | false =>
                  refine .newline rfl (hPasses ?_)
                  have hAdd : advance false (line + 1)
                      (t.count 10) = advance false line
                        (t.count 10 + 1) := by
                    unfold advance
                    simp only [Bool.false_eq_true, if_false]
                    omega
                  rw [hAdd]
                  exact hTail
          · rename_i hFeed
            obtain ⟨t, q, hRest, hWrote, hFresh, hPasses⟩ :=
              ih hRun
            rw [hRest]
            have hCount : (c :: t).count 10 = t.count 10 := by
              rw [List.count_cons, if_neg hFeed, Nat.add_zero]
            refine ⟨c :: t, q, rfl, hWrote, ?_, ?_⟩
            · rw [hCount]
              exact hFresh
            · rw [hCount]
              exact hPasses

/-
  A literal that closes in what the source passes on closes
  there in the source.
-/
theorem sourceLiteral_spec
    {split : List UInt8 × List UInt8}
    (hRead : literalRest c (sourceLiteral c p).1 =
      some split) :
    literalRest c p = some (sourceLiteral c p) := by
  induction hLength : p.length using Nat.strong_induction_on
    generalizing p split with
  | _ n ih =>
    cases p with
    | nil => cases hRead
    | cons b p =>
        rw [sourceLiteral.eq_def] at hRead ⊢
        dsimp only at hRead ⊢
        split at hRead
        · cases hRead
        rename_i hLine
        rw [if_neg hLine]
        split at hRead
        · rename_i hQuote
          rw [if_pos hQuote, literalRest_close hLine hQuote]
        rename_i hQuote
        rw [if_neg hQuote]
        split at hRead
        · rename_i hSlash
          rw [if_pos hSlash]
          cases p with
          | nil =>
              rw [literalRest.eq_def] at hRead
              dsimp only at hRead
              rw [if_neg hLine, if_neg hQuote, if_pos hSlash]
                at hRead
              cases hRead
          | cons d p =>
              dsimp only at hRead ⊢
              split at hRead
              · rw [literalRest.eq_def] at hRead
                dsimp only at hRead
                rw [if_neg hLine, if_neg hQuote,
                  if_pos hSlash] at hRead
                cases hRead
              · rename_i hEnd
                rw [literalRest_escape hLine hQuote hSlash
                  hEnd] at hRead ⊢
                obtain ⟨u, hRest, -⟩ :=
                  Option.map_eq_some_iff.mp hRead
                have hLess : p.length < n := by
                  rw [List.length_cons, List.length_cons]
                    at hLength
                  omega
                rw [if_neg hEnd, ih _ hLess hRest rfl]
                rfl
        · rename_i hSlash
          rw [if_neg hSlash]
          rw [literalRest_next hLine hQuote hSlash]
            at hRead ⊢
          obtain ⟨u, hRest, -⟩ :=
            Option.map_eq_some_iff.mp hRead
          have hLess : p.length < n := by
            rw [List.length_cons] at hLength
            omega
          rw [ih _ hLess hRest rfl]
          rfl

--
-- Directives
--

/- Only blanks and comments follow the name of a header. -/
theorem includeTail_spec
    {turns line : Nat}
    (hNone : 10 ∉ p)
    (hTurns : p.length ≤ turns)
    (hRun : includeTail st turns p = .ok ()) :
    ∃ s, Lexed true ⟨line, false⟩ p [] s := by
  induction turns generalizing p with
  | zero =>
      rw [List.length_eq_zero_iff.mp (Nat.le_zero.mp hTurns)]
      exact ⟨_, .done _⟩
  | succ turns ih =>
    cases p with
    | nil => exact ⟨_, .done _⟩
    | cons c p =>
        have hNone' : 10 ∉ p := fun hMem =>
          hNone (List.mem_cons_of_mem _ hMem)
        have hLeft : p.length ≤ turns :=
          Nat.le_of_succ_le_succ hTurns
        rw [includeTail] at hRun
        split at hRun
        · rename_i hBlank
          obtain ⟨s, hRest⟩ := ih hNone' hLeft hRun
          exact ⟨s, .blank (lexeme_blank hBlank p) hRest⟩
        split at hRun
        · rename_i hLine
          exact ⟨_, .comment rfl
            (lexeme_line_comment_last hNone' hLine)
            (.done _)⟩
        split at hRun
        · rename_i hComment
          cases hRest : commentRest p.tail with
          | none =>
              rw [hRest] at hRun
              exact absurd hRun ppFail_ne_ok
          | some split =>
              rw [hRest] at hRun
              have hLess := commentRest_less hRest
              obtain ⟨hRead, hNoneR⟩ :=
                lexeme_comment_within hNone' hComment hRest
              obtain ⟨s, hToks⟩ :=
                ih hNoneR (by omega) hRun
              exact ⟨s, .comment rfl hRead hToks⟩
        · exact absurd hRun ppFail_ne_ok

/- The name of a header, in its quotes or brackets. -/
theorem includeName_spec
    (hNone : 10 ∉ p)
    (hRun : includeName p st = .ok name) :
    ∃ tail openBy closeBy s,
      p = openBy :: (name ++ closeBy :: tail) ∧
        ((openBy = 34 ∧ closeBy = 34) ∨
          (openBy = 60 ∧ closeBy = 62)) ∧
          closeBy ∉ name ∧
            Lexed true ⟨0, false⟩ tail [] s := by
  unfold includeName at hRun
  cases p with
  | nil => exact absurd hRun ppFail_ne_ok
  | cons c p =>
      dsimp only at hRun
      split at hRun
      · exact absurd hRun ppFail_ne_ok
      rename_i hOpen
      generalize hClose :
        (if (c == 34) = true then (34 : UInt8) else 62) =
          close at hRun
      cases hDrop : p.dropWhile (· != close) with
      | nil =>
          rw [hDrop] at hRun
          exact absurd hRun ppFail_ne_ok
      | cons b tail =>
        rw [hDrop] at hRun
        dsimp only at hRun
        split at hRun
        · exact absurd hRun ppFail_ne_ok
        split at hRun
        · exact absurd hRun ppFail_ne_ok
        rw [bind_ok] at hRun
        obtain ⟨_, hTail, hRun⟩ := hRun
        cases hRun
        have hB : b = close := by
          have hStop := dropWhile_stops (· != close) p
          rw [hDrop, List.head?_cons, Option.any_some,
            bne_eq_false_iff_eq] at hStop
          exact hStop
        have hSplit : p = p.takeWhile (· != close) ++
            close :: tail := by
          rw [hB] at hDrop
          rw [← hDrop, List.takeWhile_append_dropWhile]
        have hNoneT : 10 ∉ tail := fun hMem => hNone
          (List.mem_cons_of_mem _ (hSplit ▸
            List.mem_append_right _
              (List.mem_cons_of_mem _ hMem)))
        obtain ⟨s, hLexed⟩ :=
          includeTail_spec hNoneT (Nat.le_refl _) hTail
        refine ⟨tail, c, close, s, by rw [← hSplit], ?_, ?_,
          hLexed⟩
        · rw [Bool.not_eq_true, Bool.and_eq_false_iff,
            bne_eq_false_iff_eq, bne_eq_false_iff_eq] at hOpen
          rcases hOpen with rfl | rfl
          · exact .inl ⟨rfl, hClose.symm⟩
          · exact .inr ⟨rfl, hClose.symm⟩
        · intro hMem
          have hNe := takeWhile_all (· != close) p close hMem
          simp at hNe

/- A line goes on over what holds no end of a line. -/
theorem takeWhile_line
    (hNone : 10 ∉ p)
    (q : List UInt8) :
    (p ++ q).takeWhile (· != 10) =
      p ++ q.takeWhile (· != 10) := by
  refine List.takeWhile_append_of_pos ?_
  intro c hMem
  rw [bne_iff_ne]
  rintro rfl
  exact hNone hMem

theorem not_mem_blanks
    (hBlanks : Blanks p) :
    10 ∉ p :=
  fun hMem => absurd (hBlanks 10 hMem) (by decide)

/- The line of an `#include`. -/
theorem includeLine_spec
    (hInclude :
      (p.dropWhile isBlank).take 7 = bytesOf "include")
    (hRun : includeName ((((p.dropWhile isBlank).drop
      7).dropWhile isBlank).takeWhile (· != 10)) st =
        .ok name) :
    IncludeLine (p.takeWhile (· != 10)) name := by
  obtain ⟨tail, openBy, closeBy, s, hName, hQuotes, hApart,
    hLexed⟩ := includeName_spec
      (fun hMem => by simpa using takeWhile_all _ _ 10 hMem)
      hRun
  refine ⟨p.takeWhile isBlank,
    ((p.dropWhile isBlank).drop 7).takeWhile isBlank, tail,
    openBy, closeBy, s, ?_, takeWhile_all _ _,
    takeWhile_all _ _, hQuotes, hApart, hLexed⟩
  have hText : p = p.takeWhile isBlank ++
      (bytesOf "include" ++
        (((p.dropWhile isBlank).drop 7).takeWhile isBlank ++
          ((p.dropWhile isBlank).drop 7).dropWhile
            isBlank)) := by
    rw [List.takeWhile_append_dropWhile, ← hInclude,
      List.take_append_drop, List.takeWhile_append_dropWhile]
  rw [← hName, ← takeWhile_line (not_mem_blanks
    (takeWhile_all _ _)), ← takeWhile_line (by decide),
    ← takeWhile_line (not_mem_blanks (takeWhile_all _ _)),
    ← hText]

/- A source of headers does what its text reads as. -/
def Sources (source : List UInt8 → Pp → PpResult Pp) : Prop :=
  ∀ {text : List UInt8} {st st' : Pp} {w : World}
    (line : Nat), Holds st w → source text st = .ok st' →
      Ran true st w ⟨line, false⟩ true text st'

variable {deeper : Deeper}

theorem Holds.withHeader
    {i : Nat}
    (hHolds : Holds st w)
    (hBodies : st'.bodies = st.bodies)
    (hIncluded : st'.included = st.included ||| 2 ^ i) :
    Holds st' { w with included := i :: w.included } where
  macros := by
    unfold Tracks
    rw [hBodies]
    exact hHolds.macros
  included := by
    intro j
    rw [hIncluded, Nat.testBit_or, Nat.testBit_two_pow,
      Bool.or_eq_true, hHolds.included j, decide_eq_true_eq,
      List.mem_cons, or_comm]
    exact or_congr_left eq_comm

/- A directive that succeeds is one of those of `Reads`. -/
theorem ppDirective_ran
    (hDeeper : ∀ source, deeper = some source →
      Sources source)
    (hHolds : Holds st w)
    (hRun : ppDirective deeper p st = .ok st₁)
    (hApart : s.joined = false)
    (hRest : ∀ w₁, Holds st₁ w₁ →
      Ran header st₁ w₁ s true (p.dropWhile (· != 10)) st') :
    Ran header st w s true (35 :: p) st' := by
  unfold ppDirective at hRun
  dsimp only at hRun
  split at hRun
  · have hNone : 10 ∉ p.takeWhile (· != 10) := fun hMem => by
      simpa using takeWhile_all _ _ 10 hMem
    obtain ⟨name, tail, toks, s₁, hLine, hBody, hNew, hOutput,
      hIncluded, hTracks⟩ :=
        ppDefine_spec hHolds.macros hNone hRun
    refine .define hLine hBody hNew hOutput (hRest _
      ⟨hTracks, ?_⟩)
    rw [hIncluded]
    exact hHolds.included
  rename_i hInclude
  rw [Bool.not_eq_true, Bool.or_eq_false_iff,
    bne_eq_false_iff_eq] at hInclude
  rw [bind_ok] at hRun
  obtain ⟨name, hName, hRun⟩ := hRun
  have hLine := includeLine_spec hInclude.1 hName
  unfold includeHeader at hRun
  cases hIndex : ppHeaders.findFinIdx?
      (fun e => e.name == name) with
  | none =>
      rw [hIndex] at hRun
      exact absurd hRun ppFail_ne_ok
  | some i =>
    rw [hIndex] at hRun
    dsimp only at hRun
    split at hRun
    · exact absurd hRun ppFail_ne_ok
    split at hRun
    · rename_i hOld
      cases hRun
      exact .again hLine hIndex ((hHolds.included i).mp hOld)
        (hRest w hHolds)
    rename_i hNew
    cases deeper with
    | none => exact absurd hRun ppFail_ne_ok
    | some source =>
      dsimp only at hRun
      split at hRun
      · exact absurd hRun ppFail_ne_ok
      rw [bind_ok] at hRun
      obtain ⟨st₂, hBefore, hRun⟩ := hRun
      rw [bind_ok] at hRun
      obtain ⟨st₃, hSource, hRun⟩ := hRun
      rw [bind_ok] at hRun
      obtain ⟨st₄, hAfter, hRun⟩ := hRun
      have hFirst := ppEmit_wrote hBefore
      have hLast := ppEmit_wrote hAfter
      have hHolds₂ : Holds st₂ w :=
        ⟨hHolds.macros.wrote
            ⟨hFirst.output, hFirst.bodies, hFirst.included⟩,
          by
            rw [hFirst.included]
            exact hHolds.included⟩
      obtain ⟨q, inner, w₁, s₁, hOut, hReads, hLexed, hHolds₃,
        -⟩ := hDeeper source rfl s.line hHolds₂ hSource
      have hHolds₄ := hHolds₃.wrote hLast
      have hPlace : s = ⟨s.line, false⟩ := by
        rw [← hApart]
      have hOutput : st₁.output =
          st.output ++ (32 :: (q ++ [32])) := by
        cases hRun
        show st₄.output = _
        rw [hLast.output, hOut, hFirst.output,
          List.append_assoc, List.append_assoc]
        rfl
      have hHolds₁ : Holds st₁
          { w₁ with included := i.val :: w₁.included } := by
        cases hRun
        exact hHolds₄.withHeader rfl rfl
      refine .includes hLine hIndex
        (fun hMem => hNew ((hHolds.included i).mpr hMem))
        hReads hLexed hOutput ?_
      rw [← hPlace]
      exact hRest _ hHolds₁

--
-- Tokens Of The Source
--

variable {levels : Nat}

/- The first turn of an expansion. -/
theorem ppExpand_step
    (hRun : ppExpand levels (c :: p) st = .ok st') :
    ∃ (deeper : Deeper) (st₁ : Pp) (rest : List UInt8),
      (∀ expand, deeper = some expand → Expands expand) ∧
        expandStep deeper c p
            { st with work := st.work + 1 } =
          .ok (st₁, rest) ∧ (rest = [] → st₁ = st') := by
  have hLoop : ∃ deeper : Deeper,
      (∀ expand, deeper = some expand → Expands expand) ∧
        expandLoop deeper (p.length + 1) (c :: p) st =
          .ok st' := by
    cases levels with
    | zero => exact ⟨none, nofun, hRun⟩
    | succ levels =>
        refine ⟨some (ppExpand levels), ?_, hRun⟩
        intro expand hSome
        obtain rfl := Option.some.inj hSome
        exact ppExpand_expands levels
  obtain ⟨deeper, hDeeper, hLoop⟩ := hLoop
  rw [expandLoop] at hLoop
  dsimp only at hLoop
  split at hLoop
  · exact absurd hLoop ppFail_ne_ok
  rw [bind_ok] at hLoop
  obtain ⟨⟨st₁, rest⟩, hStep, hLoop⟩ := hLoop
  refine ⟨deeper, st₁, rest, hDeeper, hStep, ?_⟩
  rintro rfl
  cases hLen : p.length <;> rw [hLen] at hLoop <;>
    cases hLoop <;> rfl

/- A text that is one token. -/
theorem ppExpand_token
    {env : Macros}
    (hTracks : Tracks st env)
    (hRead : lexeme (c :: p) = some (.token (c :: p), []))
    (hRun : ppExpand levels (c :: p) st = .ok st')
    (line : Nat) :
    ∃ out, Wrote st out st' ∧
      TokenOut env line (c :: p) out := by
  obtain ⟨deeper, st₁, rest, hDeeper, hStep, hEnd⟩ :=
    ppExpand_step hRun
  have hTracks' : Tracks
      { st with work := st.work + 1 } env := hTracks
  obtain ⟨rfl, out, hWrote, hOut⟩ := expandStep_token
    hDeeper hTracks' hRead hStep line
  rw [← hEnd rfl]
  exact ⟨out, wrote_work hWrote, hOut⟩

/-
  What the source passes on is its next token, if it can be
  expanded.
-/
theorem sourceItem_token
    (hSpace : isSpace c = false)
    (hLine : ¬(c == 47 && p.head? == some 47) = true)
    (hComment : ¬(c == 47 && p.head? == some 42) = true)
    (hRun : ppExpand levels (sourceItem c p).1 st =
      .ok st') :
    lexeme (c :: p) = some
      (.token (sourceItem c p).1, (sourceItem c p).2) := by
  refine lexeme_of_token hSpace hLine hComment ?_
  unfold tokenAt
  unfold sourceItem at hRun ⊢
  by_cases hLetter : isLetter c = true
  · rw [if_pos hLetter, if_pos hLetter]
  rw [if_neg hLetter] at hRun ⊢
  rw [if_neg hLetter]
  by_cases hNumber : (isDigit c || (c == 46 &&
      p.head?.any isDigit)) = true
  · rw [if_pos hNumber, if_pos hNumber]
  rw [if_neg hNumber] at hRun ⊢
  rw [if_neg hNumber]
  by_cases hQuote : (c == 34 || c == 39) = true
  · rw [if_pos hQuote] at hRun ⊢
    rw [if_pos hQuote]
    obtain ⟨deeper, st₁, rest, -, hStep, -⟩ :=
      ppExpand_step hRun
    have hOther : ∀ q : List UInt8, ¬(isDigit c || (c == 46 &&
        q.head?.any isDigit)) = true := by
      intro q
      rw [Bool.or_eq_true, beq_iff_eq, beq_iff_eq] at hQuote
      rcases hQuote with rfl | rfl <;> simp [isDigit]
    unfold expandStep at hStep
    rw [if_neg hLetter, if_neg (hOther _), if_pos hQuote,
      bind_ok] at hStep
    obtain ⟨st₂, -, hStep⟩ := hStep
    obtain ⟨w, hRead, -⟩ := expandLiteral_spec hStep
    rw [sourceLiteral_spec hRead]
    rfl
  · rw [if_neg hQuote, if_neg hQuote]

/- The token read again by itself. -/
theorem sourceItem_ran
    (hSpace : isSpace c = false)
    (hLine : ¬(c == 47 && p.head? == some 47) = true)
    (hComment : ¬(c == 47 && p.head? == some 42) = true)
    (hNot : c ≠ 35)
    (hHolds : Holds st w)
    (hRun : ppExpand levels (sourceItem c p).1 st = .ok st₁)
    (hRest : ∀ joined, Holds st₁ w →
      Ran header st₁ w ⟨s.line, joined⟩ false
        (sourceItem c p).2 st') :
    Ran header st w s fresh (c :: p) st' := by
  have hRead :=
    sourceItem_token hSpace hLine hComment hRun
  obtain ⟨-, -, -, hToken⟩ := lexeme_token hRead
  obtain ⟨t, hItem, -⟩ := tokenAt_split hToken
  have hAlone : lexeme (c :: t) =
      some (.token (c :: t), []) := by
    have hAgain := lexeme_again hRead (.inl rfl)
    rw [List.append_nil, hItem] at hAgain
    exact hAgain
  rw [hItem] at hRun hRead
  obtain ⟨out, hWrote, hOut⟩ :=
    ppExpand_token hHolds.macros hAlone hRun s.line
  exact .token hNot hRead hOut hWrote
    (fun _ => hRest true (hHolds.wrote hWrote))
    (fun _ => hRest false (hHolds.wrote hWrote))

--
-- The Loop
--

theorem Ran.nil
    (hHolds : Holds st w) :
    Ran header st w s fresh [] st :=
  ⟨[], [], w, s, (List.append_nil _).symm, .done w s, .done s,
    hHolds, .inl rfl⟩

/- The loop writes what its text reads as. -/
theorem sourceLoop_ran
    {turns : Nat}
    (hDeeper : ∀ source, deeper = some source →
      Sources source)
    (hTurns : p.length ≤ turns)
    (hHolds : Holds st w)
    (hFresh : fresh = true → s.joined = false)
    (hRun : sourceLoop header deeper turns fresh p st =
      .ok st') :
    Ran header st w s fresh p st' := by
  induction turns generalizing p st w s fresh with
  | zero =>
      obtain rfl := List.length_eq_zero_iff.mp
        (Nat.le_zero.mp hTurns)
      cases hRun
      exact .nil hHolds
  | succ turns ih =>
    cases p with
    | nil =>
        cases hRun
        exact .nil hHolds
    | cons c p =>
        have hLeft : p.length ≤ turns :=
          Nat.le_of_succ_le_succ hTurns
        rw [sourceLoop, bind_ok] at hRun
        obtain ⟨⟨st₁, fresh₁, rest⟩, hStep, hRun⟩ := hRun
        dsimp only at hRun
        unfold sourceStep at hStep
        split at hStep
        · rename_i hFeed
          obtain rfl := beq_iff_eq.mp hFeed
          rw [bind_ok] at hStep
          obtain ⟨st₂, hEmit, hStep⟩ := hStep
          cases hStep
          have hWrote := ppEmit_wrote hEmit
          exact .newline hWrote
            (ih hLeft (hHolds.wrote hWrote) (fun _ => rfl) hRun)
        rename_i hFeed
        split at hStep
        · rename_i hBlank
          rw [bind_ok] at hStep
          obtain ⟨st₂, hEmit, hStep⟩ := hStep
          cases hStep
          have hWrote := ppEmit_wrote hEmit
          exact .blank hBlank hWrote
            (ih hLeft (hHolds.wrote hWrote) (fun _ => rfl) hRun)
        rename_i hBlank
        split at hStep
        · rename_i hLine
          rw [bind_ok] at hStep
          obtain ⟨st₂, hEmit, hStep⟩ := hStep
          cases hStep
          have hWrote := ppEmit_wrote hEmit
          have hLess := (List.dropWhile_sublist
            (l := p) (· != 10)).length_le
          have hRan := ih (Nat.le_trans hLess hLeft)
            (hHolds.wrote hWrote)
            (fun _ => (rfl : (⟨advance header s.line 0,
              false⟩ : Place).joined = false)) hRun
          have hNone : Passes header 0 [] := by
            intro line tail toks s' hTail
            cases header <;> exact hTail
          refine .comment (lexeme_line_comment hLine) hNone
            hWrote ?_
          rw [decide_eq_false (Nat.lt_irrefl 0), Bool.or_false]
          exact hRan
        rename_i hLine
        split at hStep
        · rename_i hComment
          rw [bind_ok] at hStep
          obtain ⟨st₂, hEmit, hStep⟩ := hStep
          obtain ⟨t, q, hRest, hWrote, rfl, hPasses⟩ :=
            sourceComment_spec hStep
          have hAll := (ppEmit_wrote hEmit).trans hWrote
          have hLess := commentRest_less hRest
          exact .comment (lexeme_comment hComment hRest)
            hPasses hAll
            (ih (by omega) (hHolds.wrote hAll) (fun _ => rfl)
              hRun)
        rename_i hComment
        split at hStep
        · rename_i hHash
          obtain rfl := beq_iff_eq.mp hHash
          split at hStep
          · exact absurd hStep ppFail_ne_ok
          rename_i hStart
          rw [Bool.not_eq_true, Bool.not_eq_false'] at hStart
          subst hStart
          rw [bind_ok] at hStep
          obtain ⟨st₂, hDirective, hStep⟩ := hStep
          cases hStep
          have hLess := (List.dropWhile_sublist
            (l := p) (· != 10)).length_le
          exact ppDirective_ran hDeeper hHolds hDirective
            (hFresh rfl) (fun w₁ hHolds₁ =>
              ih (Nat.le_trans hLess hLeft) hHolds₁ hFresh hRun)
        · rename_i hHash
          rw [bind_ok] at hStep
          obtain ⟨st₂, hExpand, hStep⟩ := hStep
          cases hStep
          have hSpace : isSpace c = false :=
            not_space_iff.mpr ⟨hFeed, hBlank⟩
          have hRead :=
            sourceItem_token hSpace hLine hComment hExpand
          obtain ⟨-, -, -, hToken⟩ := lexeme_token hRead
          obtain ⟨t, -, hSplit⟩ := tokenAt_split hToken
          have hLess := congrArg List.length hSplit
          rw [List.length_append] at hLess
          exact sourceItem_ran hSpace hLine hComment
            (fun hEq => hHash (beq_iff_eq.mpr hEq)) hHolds
            hExpand (fun joined hHolds₁ =>
              ih (by omega) hHolds₁ nofun hRun)

/- Headers read as they should, at every depth. -/
theorem ppSource_sources
    (hLevels : levels < ppIncludeDepth) :
    Sources (ppSource levels) := by
  induction levels with
  | zero =>
      intro text st st' w line hHolds hRun
      refine sourceLoop_ran ?_ (Nat.le_refl _) hHolds
        (fun _ => rfl) hRun
      intro source hNone
      cases hNone
  | succ levels ih =>
      intro text st st' w line hHolds hRun
      unfold ppSource at hRun
      have hHeader : (levels + 1 != ppIncludeDepth) = true :=
        bne_iff_ne.mpr (Nat.ne_of_lt hLevels)
      rw [hHeader] at hRun
      refine sourceLoop_ran ?_ (Nat.le_refl _) hHolds
        (fun _ => rfl) hRun
      intro source hSome
      obtain rfl := Option.some.inj hSome
      exact ih (Nat.lt_of_succ_lt hLevels)

/- Every index into the arrays of the state is in range. -/
structure Pp.InRange (st : Pp) : Prop where
  output : st.output.length ≤ ppOutput
  macros : st.macros.length ≤ ppMacros
  strings : ∀ m ∈ st.macros,
    m.name.length < nameMax ∧ m.body.bytes.length < ppBody

/-
  The output has the tokens of the source, each on its line;
  and neither has them in another way.
-/
structure Faithful (source output : List UInt8) : Prop where
  fits : output.length ≤ ppOutput
  same : ∃ toks,
    (∃ w s, Reads ppHeaders false ⟨[], []⟩ ⟨1, false⟩ true
        source toks w s ∧
      Lexed false ⟨1, false⟩ output toks s) ∧
    (∀ more w s, Reads ppHeaders false ⟨[], []⟩ ⟨1, false⟩
      true source more w s → more = toks) ∧
    ∀ more s, Lexed false ⟨1, false⟩ output more s →
      more = toks

theorem ppSource_faithful
    {source : List UInt8}
    (hRun : ppSource ppIncludeDepth source ppStart =
      .ok st) :
    Faithful source st.output := by
  have hStart : Holds ppStart ⟨[], []⟩ := by
    refine ⟨.nil, fun i => ?_⟩
    show Nat.testBit 0 i = true ↔ i ∈ []
    rw [Nat.zero_testBit]
    simp
  have hDeeper : ∀ source, some (ppSource 3) = some source →
      Sources source := by
    intro source hSome
    obtain rfl := Option.some.inj hSome
    exact ppSource_sources (by decide)
  obtain ⟨q, toks, w, s, hOut, hReads, hLexed, -, -⟩ :=
    sourceLoop_ran (s := ⟨1, false⟩) hDeeper (Nat.le_refl _)
      hStart (fun _ => rfl) hRun
  have hSame : st.output = q := hOut
  refine ⟨st.outputFits, toks, ⟨w, s, hReads, ?_⟩, ?_, ?_⟩
  · rw [hSame]
    exact hLexed
  · intro more w' s' hMore
    exact (hMore.unique hReads).1
  · intro more s' hMore
    rw [hSame] at hMore
    exact (hMore.unique hLexed).1

/-
  Preprocessing fails, or it is macro substitution that
  keeps lines and joins no tokens.
-/
theorem preprocess_faithful (source : List UInt8) :
    (∀ st : Pp, st.InRange) ∧
      ((∃ e, preprocess source = .error e) ∨
        ∃ output, preprocess source = .ok output ∧
          Faithful source output) := by
  refine ⟨fun st => ⟨st.outputFits, st.macrosFit, fun m _ =>
    ⟨m.nameFits, m.body.fits⟩⟩, ?_⟩
  cases hRun : preprocess source with
  | error e => exact .inl ⟨e, rfl⟩
  | ok output =>
      unfold preprocess at hRun
      rw [bind_ok] at hRun
      obtain ⟨st, hSource, hRun⟩ := hRun
      cases hRun
      exact .inr ⟨st.output, rfl, ppSource_faithful hSource⟩

/- A macro, its comment and a line of its use. -/
example : (preprocess (bytesOf
      "#define A 1+2 // sum\nx=A;")).toOption =
    some (bytesOf "\nx= 1+2 ;") := by
  decide +kernel

end KvantOS.Compiler
