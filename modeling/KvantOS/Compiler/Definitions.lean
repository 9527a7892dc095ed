import KvantOS.Compiler.Expansion

/-
  This file proves that `pp_define` defines the macro of its
  line: its name, and for its body the tokens behind the
  name, without comments.

  Key definitions include:
    * `Blanks`, `IsName`, `DefineLine`
    * `Keeps`

  Key theorems include:
    * `defineBody_means`, `ppDefine_spec`
-/

namespace KvantOS.Compiler

open Lexical

--
-- Lines That Define
--

/- White space within a line. -/
def Blanks (p : List UInt8) : Prop :=
  ∀ c ∈ p, isBlank c = true

/- A name: a letter, then letters and digits. -/
def IsName (p : List UInt8) : Prop :=
  p.head?.any isLetter = true ∧ ∀ c ∈ p, isWord c = true

/-
  The line defines `name`: after the `#` comes `define`,
  then the name, and apart from it the rest.
-/
structure DefineLine
    (line name tail : List UInt8) : Prop where
  splits : ∃ before between,
    line = before ++ (bytesOf "define" ++
      (between ++ (name ++ tail))) ∧
      Blanks before ∧ Blanks between ∧ between ≠ []
  name : IsName name
  apart : tail.head?.any isWord = false

variable {env : Macros} {st st' : Pp} {c : UInt8}
variable {p q r t tail line : List UInt8} {body body' : Body}

theorem bodyByte_ok
    (hByte : bodyByte st c body = .ok body') :
    body'.bytes = body.bytes ++ [c] := by
  unfold bodyByte at hByte
  split at hByte
  · exact absurd hByte ppFail_ne_ok
  · cases hByte
    rfl

/- A byte that starts no comment, literal or error. -/
def IsPlain (c : UInt8) : Prop :=
  c ≠ 47 ∧ c ≠ 34 ∧ c ≠ 39 ∧ c ≠ 35 ∧ c ≠ 92

theorem isPlain_word
    (hWord : isWord c = true) :
    IsPlain c := by
  refine ⟨?_, ?_, ?_, ?_, ?_⟩ <;> rintro rfl <;>
    exact absurd hWord (by decide)

theorem isPlain_continues
    {prev : UInt8}
    (hGoes : continues prev c = true) :
    IsPlain c := by
  refine ⟨?_, ?_, ?_, ?_, ?_⟩ <;> rintro rfl <;>
    exact absurd hGoes (by simp [continues, isLetter, isDigit])

theorem defineStep_other
    (hLine : ¬(c == 47 && p.head? == some 47) = true)
    (hComment : ¬(c == 47 && p.head? == some 42) = true)
    (hQuote : ¬(c == 34 || c == 39) = true)
    (hStep : defineStep st c p body = .ok (body', r)) :
    r = p ∧ body'.bytes = body.bytes ++ [c] := by
  unfold defineStep at hStep
  rw [if_neg hLine, if_neg hComment, if_neg hQuote] at hStep
  split at hStep
  · exact absurd hStep ppFail_ne_ok
  · rw [bind_ok] at hStep
    obtain ⟨body₁, hByte, hStep⟩ := hStep
    cases hStep
    exact ⟨rfl, bodyByte_ok hByte⟩

/- What is left of a run over a body after some bytes. -/
def Stored
    (st : Pp)
    (body : Body)
    (t r : List UInt8)
    (body' : Body) : Prop :=
  ∃ turns mid, mid.bytes = body.bytes ++ t ∧
    r.length ≤ turns ∧ defineBody st turns r mid = .ok body'

variable {turns : Nat}

/- Plain bytes are stored one by one. -/
theorem defineBody_plain
    (hPlain : ∀ c ∈ t, IsPlain c)
    (hTurns : (t ++ r).length ≤ turns)
    (hRun : defineBody st turns (t ++ r) body = .ok body') :
    Stored st body t r body' := by
  induction t generalizing turns body with
  | nil =>
      exact ⟨turns, body, (List.append_nil _).symm, hTurns,
        hRun⟩
  | cons c t ih =>
      cases turns with
      | zero =>
          rw [List.cons_append, List.length_cons] at hTurns
          omega
      | succ turns =>
          rw [List.cons_append, defineBody, bind_ok] at hRun
          obtain ⟨⟨body₁, rest⟩, hStep, hRun⟩ := hRun
          obtain ⟨hSlash, hDouble, hSingle, -, -⟩ :=
            hPlain c List.mem_cons_self
          obtain ⟨rfl, hByte⟩ := defineStep_other
            (by simp [hSlash]) (by simp [hSlash])
            (by simp [hDouble, hSingle]) hStep
          rw [List.cons_append, List.length_cons] at hTurns
          obtain ⟨turns', mid, hMid, hLeft, hRest⟩ :=
            ih (fun c hMem => hPlain c
              (List.mem_cons_of_mem _ hMem))
              (Nat.le_of_succ_le_succ hTurns) hRun
          refine ⟨turns', mid, ?_, hLeft, hRest⟩
          rw [hMid, hByte, List.append_assoc]
          rfl

/- A literal is stored as it is read. -/
theorem defineLiteral_spec
    (hLine : 10 ∉ p)
    (hLiteral : defineLiteral st c p body = .ok (body', r)) :
    ∃ w, literalRest c p = some (w, r) ∧
      body'.bytes = body.bytes ++ w := by
  induction hLength : p.length using Nat.strong_induction_on
    generalizing p body with
  | _ n ih =>
    cases p with
    | nil => exact absurd hLiteral ppFail_ne_ok
    | cons b p =>
        have hNot : ¬(b == 10) = true := by
          rw [beq_iff_eq]
          rintro rfl
          exact hLine List.mem_cons_self
        have hLine' : 10 ∉ p := fun hMem =>
          hLine (List.mem_cons_of_mem _ hMem)
        rw [defineLiteral.eq_def] at hLiteral
        dsimp only at hLiteral
        rw [bind_ok] at hLiteral
        obtain ⟨body₁, hByte, hLiteral⟩ := hLiteral
        have hStored := bodyByte_ok hByte
        split at hLiteral
        · rename_i hQuote
          cases hLiteral
          exact ⟨_, literalRest_close hNot hQuote, hStored⟩
        · rename_i hQuote
          split at hLiteral
          · rename_i hSlash
            cases p with
            | nil => exact absurd hLiteral ppFail_ne_ok
            | cons d p =>
                dsimp only at hLiteral
                rw [bind_ok] at hLiteral
                obtain ⟨body₂, hNext, hLiteral⟩ := hLiteral
                have hEnd : ¬(d == 10) = true := by
                  rw [beq_iff_eq]
                  rintro rfl
                  exact hLine' List.mem_cons_self
                have hLess : p.length < n := by
                  rw [List.length_cons, List.length_cons]
                    at hLength
                  omega
                obtain ⟨w, hRest, hBytes⟩ := ih _ hLess
                  (fun hMem => hLine'
                    (List.mem_cons_of_mem _ hMem))
                  hLiteral rfl
                refine ⟨b :: d :: w, ?_, ?_⟩
                · rw [literalRest_escape hNot hQuote hSlash
                    hEnd, hRest]
                  rfl
                · rw [hBytes, bodyByte_ok hNext, hStored,
                    List.append_assoc, List.append_assoc]
                  rfl
          · rename_i hSlash
            have hLess : p.length < n := by
              rw [List.length_cons] at hLength
              omega
            obtain ⟨w, hRest, hBytes⟩ :=
              ih _ hLess hLine' hLiteral rfl
            refine ⟨b :: w, ?_, ?_⟩
            · rw [literalRest_next hNot hQuote hSlash, hRest]
              rfl
            · rw [hBytes, hStored, List.append_assoc]
              rfl

theorem isPlain_number
    (hNumber : (isDigit c || c == 46 &&
      p.head?.any isDigit) = true) :
    IsPlain c := by
  refine ⟨?_, ?_, ?_, ?_, ?_⟩ <;> rintro rfl <;>
    simp [isDigit] at hNumber

/- A token is stored as a whole. -/
theorem defineBody_token
    (hLine : ¬(c == 47 && p.head? == some 47) = true)
    (hComment : ¬(c == 47 && p.head? == some 42) = true)
    (hNone : 10 ∉ p)
    (hTurns : (c :: p).length ≤ turns)
    (hRun : defineBody st turns (c :: p) body = .ok body') :
    ∃ t r, tokenAt c p = some (t, r) ∧
      Stored st body t r body' := by
  unfold tokenAt
  split
  · rename_i hLetter
    have hSplit : c :: p.takeWhile isWord ++
        p.dropWhile isWord = c :: p := by
      rw [List.cons_append, List.takeWhile_append_dropWhile]
    refine ⟨_, _, rfl, defineBody_plain ?_
      (hSplit ▸ hTurns) (hSplit ▸ hRun)⟩
    intro b hMem
    rcases List.mem_cons.mp hMem with rfl | hRest
    · exact isPlain_word (word_of_letter hLetter)
    · exact isPlain_word (List.mem_takeWhile_imp hRest)
  · split
    · rename_i hNumber
      have hSplit : c :: (numberRest c p).1 ++
          (numberRest c p).2 = c :: p := by
        rw [List.cons_append, numberRest_split]
      refine ⟨_, _, rfl, defineBody_plain ?_
        (hSplit ▸ hTurns) (hSplit ▸ hRun)⟩
      intro b hMem
      rcases List.mem_cons.mp hMem with rfl | hRest
      · exact isPlain_number hNumber
      · obtain ⟨prev, hGoes⟩ := numberRest_mem hRest
        exact isPlain_continues hGoes
    · cases turns with
      | zero => cases hTurns
      | succ turns =>
        have hLeft : p.length ≤ turns :=
          Nat.le_of_succ_le_succ hTurns
        rw [defineBody, bind_ok] at hRun
        obtain ⟨⟨body₁, rest⟩, hStep, hRun⟩ := hRun
        dsimp only at hRun
        split
        · rename_i hQuote
          unfold defineStep at hStep
          rw [if_neg hLine, if_neg hComment, if_pos hQuote,
            bind_ok] at hStep
          obtain ⟨body₂, hByte, hStep⟩ := hStep
          obtain ⟨w, hRead, hBytes⟩ :=
            defineLiteral_spec hNone hStep
          have hLess := congrArg List.length
            (literalRest_split hRead)
          rw [List.length_append] at hLess
          refine ⟨_, _, by rw [hRead]; rfl, turns, body₁, ?_,
            by omega, hRun⟩
          rw [hBytes, bodyByte_ok hByte, List.append_assoc]
          rfl
        · rename_i hQuote
          obtain ⟨rfl, hByte⟩ :=
            defineStep_other hLine hComment hQuote hStep
          exact ⟨_, _, rfl, turns, body₁, hByte, hLeft, hRun⟩

/-
  The bytes stored for a text of one line have its tokens; a
  comment became a blank.
-/
def Keeps (s : Place) (p w : List UInt8) : Prop :=
  10 ∉ w ∧ Follows p w ∧ ∃ toks s₁ s₂,
    Lexed true s p toks s₁ ∧ Lexed false s w toks s₂

variable {s : Place} {w : List UInt8}

theorem Keeps.nil (s : Place) : Keeps s [] [] :=
  ⟨nofun, .inl rfl, [], s, s, .done s, .done s⟩

theorem Keeps.lineComment
    (hNone : 10 ∉ p)
    (hLine : (c == 47 && p.head? == some 47) = true) :
    Keeps s (c :: p) [] :=
  ⟨nofun, .inl rfl, [], _, s,
    .comment rfl (lexeme_line_comment_last hNone hLine)
      (.done _), .done s⟩

theorem Keeps.comment
    (hRead : lexeme p = some (.comment 0, r))
    (hRest : Keeps ⟨s.line, false⟩ r w) :
    Keeps s p (32 :: w) := by
  obtain ⟨hNone, -, toks, s₁, s₂, hToks, hOut⟩ := hRest
  refine ⟨?_, .inr (.inl ⟨32, rfl, rfl⟩), toks, s₁, s₂,
    .comment rfl hRead hToks, .blank rfl hOut⟩
  rw [List.mem_cons, not_or]
  exact ⟨by decide, hNone⟩

theorem Keeps.blank
    (hBlank : isBlank c = true)
    (hRest : Keeps ⟨s.line, false⟩ p w) :
    Keeps s (c :: p) (c :: w) := by
  obtain ⟨hNone, -, toks, s₁, s₂, hToks, hOut⟩ := hRest
  refine ⟨?_, .inr (.inr rfl), toks, s₁, s₂,
    .blank (lexeme_blank hBlank p) hToks,
    .blank (lexeme_blank hBlank w) hOut⟩
  rw [List.mem_cons, not_or]
  refine ⟨?_, hNone⟩
  rintro rfl
  cases hBlank

theorem Keeps.token
    (hRead : lexeme (c :: p) = some (.token t, r))
    (hNone : 10 ∉ t)
    (hRest : Keeps ⟨s.line, true⟩ r w) :
    Keeps s (c :: p) (t ++ w) := by
  obtain ⟨-, -, -, hToken⟩ := lexeme_token hRead
  obtain ⟨t', rfl, -⟩ := tokenAt_split hToken
  obtain ⟨hNone', hFollows, toks, s₁, s₂, hToks, hOut⟩ :=
    hRest
  refine ⟨?_, .inr (.inr rfl), _, s₁, s₂,
    .token hRead hToks,
    .token (lexeme_again hRead hFollows) hOut⟩
  rw [List.mem_append, not_or]
  exact ⟨hNone, hNone'⟩

/- A comment to the end of the line ends the body. -/
theorem defineStep_lineComment
    (hLine : (c == 47 && p.head? == some 47) = true)
    (hStep : defineStep st c p body = .ok (body', r)) :
    r = [] ∧ body' = body := by
  unfold defineStep at hStep
  rw [if_pos hLine] at hStep
  cases hStep
  exact ⟨rfl, rfl⟩

theorem defineStep_comment
    (hLine : ¬(c == 47 && p.head? == some 47) = true)
    (hComment : (c == 47 && p.head? == some 42) = true)
    (hStep : defineStep st c p body = .ok (body', r)) :
    (∃ t, commentRest p.tail = some (t, r)) ∧
      body'.bytes = body.bytes ++ [32] := by
  unfold defineStep at hStep
  rw [if_neg hLine, if_pos hComment] at hStep
  cases hRest : commentRest p.tail with
  | none =>
      rw [hRest] at hStep
      exact absurd hStep ppFail_ne_ok
  | some split =>
      rw [hRest] at hStep
      dsimp only at hStep
      rw [bind_ok] at hStep
      obtain ⟨body₂, hByte, hStep⟩ := hStep
      cases hStep
      exact ⟨⟨split.1, rfl⟩, bodyByte_ok hByte⟩

theorem defineBody_nil
    (hRun : defineBody st turns [] body = .ok body') :
    body' = body := by
  cases turns <;> cases hRun <;> rfl

/- What a run over a body stores. -/
theorem defineBody_means
    (hNone : 10 ∉ p)
    (hTurns : p.length ≤ turns)
    (hRun : defineBody st turns p body = .ok body')
    (s : Place) :
    ∃ w, body'.bytes = body.bytes ++ w ∧ Keeps s p w := by
  induction hLength : p.length using Nat.strong_induction_on
    generalizing p turns body s with
  | _ n ih =>
    cases p with
    | nil =>
        exact ⟨[], by rw [defineBody_nil hRun,
          List.append_nil], .nil s⟩
    | cons c p =>
        have hNone' : 10 ∉ p := fun hMem =>
          hNone (List.mem_cons_of_mem _ hMem)
        have hFeed : ¬(c == 10) = true := by
          rw [beq_iff_eq]
          rintro rfl
          exact hNone List.mem_cons_self
        obtain ⟨turns, rfl⟩ : ∃ more, turns = more + 1 :=
          ⟨turns - 1, by
            rw [List.length_cons] at hTurns
            omega⟩
        have hTurns' := hTurns
        rw [List.length_cons] at hTurns' hLength
        have hRun' := hRun
        rw [defineBody, bind_ok] at hRun'
        obtain ⟨⟨body₁, rest⟩, hStep, hRun'⟩ := hRun'
        dsimp only at hRun'
        by_cases hLine : (c == 47 &&
            p.head? == some 47) = true
        · obtain ⟨rfl, rfl⟩ :=
            defineStep_lineComment hLine hStep
          exact ⟨[], by rw [defineBody_nil hRun',
            List.append_nil], .lineComment hNone' hLine⟩
        by_cases hComment : (c == 47 &&
            p.head? == some 42) = true
        · obtain ⟨⟨t, hRest⟩, hByte⟩ :=
            defineStep_comment hLine hComment hStep
          have hLess := commentRest_less hRest
          obtain ⟨hRead, hNoneR⟩ :=
            lexeme_comment_within hNone' hComment hRest
          obtain ⟨w, hBytes, hKeeps⟩ := ih rest.length
            (by omega) hNoneR (by omega) hRun'
              ⟨s.line, false⟩ rfl
          refine ⟨32 :: w, ?_, hKeeps.comment hRead⟩
          rw [hBytes, hByte, List.append_assoc]
          rfl
        by_cases hBlank : isBlank c = true
        · have hQuote : ¬(c == 34 || c == 39) = true := by
            rw [Bool.or_eq_true, beq_iff_eq, beq_iff_eq]
            rintro (rfl | rfl) <;> cases hBlank
          obtain ⟨rfl, hByte⟩ :=
            defineStep_other hLine hComment hQuote hStep
          obtain ⟨w, hBytes, hKeeps⟩ := ih rest.length
            (by omega) hNone' (by omega) hRun'
              ⟨s.line, false⟩ rfl
          refine ⟨c :: w, ?_, hKeeps.blank hBlank⟩
          rw [hBytes, hByte, List.append_assoc]
          rfl
        · obtain ⟨t, r, hToken, turns', mid, hMid, hLeft,
            hRest⟩ := defineBody_token hLine hComment hNone'
              hTurns hRun
          have hRead := lexeme_of_token
            (not_space_iff.mpr ⟨hFeed, hBlank⟩) hLine
            hComment hToken
          obtain ⟨t', rfl, hSplit⟩ := tokenAt_split hToken
          have hCount := congrArg List.length hSplit
          rw [List.length_append] at hCount
          have hNoneT : 10 ∉ c :: t' := by
            rw [List.mem_cons, not_or]
            exact ⟨fun hEq => hFeed (beq_iff_eq.mpr hEq.symm),
              fun hMem => hNone'
                (hSplit ▸ List.mem_append_left _ hMem)⟩
          have hNoneR : 10 ∉ r := fun hMem => hNone'
            (hSplit ▸ List.mem_append_right _ hMem)
          obtain ⟨w, hBytes, hKeeps⟩ := ih r.length
            (by omega) hNoneR hLeft hRest ⟨s.line, true⟩ rfl
          refine ⟨c :: t' ++ w, ?_,
            hKeeps.token hRead hNoneT⟩
          rw [hBytes, hMid, List.append_assoc]

--
-- The Directive
--

theorem takeWhile_all
    (f : UInt8 → Bool)
    (p : List UInt8) :
    ∀ c ∈ p.takeWhile f, f c = true :=
  fun _ hMem => List.mem_takeWhile_imp hMem

theorem takeWhile_ne_nil
    {f : UInt8 → Bool}
    (hHead : p.head?.any f = true) :
    p.takeWhile f ≠ [] := by
  cases p with
  | nil => cases hHead
  | cons c p =>
      rw [List.head?_cons, Option.any_some] at hHead
      rw [List.takeWhile_cons, if_pos hHead]
      exact List.cons_ne_nil _ _

theorem trim_bytes (body : Body) :
    body.trim.bytes = body.bytes.rdropWhile isBlank := rfl

variable {name : List UInt8}

/- The macro that was not found is added. -/
theorem Tracks.add
    {toks : List Tok}
    (hTracks : Tracks st env)
    (hMeans : Means r toks)
    (hBodies : st'.bodies = st.bodies ++ [(name, r)]) :
    Tracks st' (env ++ [(name, toks)]) := by
  unfold Tracks
  rw [hBodies]
  exact List.rel_append hTracks (.cons ⟨rfl, hMeans⟩ .nil)

theorem lookup_none
    (hTracks : Tracks st env)
    (hNew : ¬(ppFind st name).isSome = true) :
    env.lookup name = none := by
  have hFind := find_spec name hTracks
  unfold ppFind at hNew
  cases hCase : st.macros.findFinIdx?
      (fun m => m.name == name) with
  | none =>
      rw [hCase] at hFind
      exact hFind
  | some m =>
      rw [hCase] at hNew
      exact absurd rfl hNew

/- The pieces that the directive reads one after another. -/
theorem defineLine_of_pieces
    (hP : line.dropWhile isBlank = p)
    (hQ : p.dropWhile isLetter = q)
    (hR : q.dropWhile isBlank = r)
    (hDefine : p.takeWhile isLetter = bytesOf "define")
    (hSome : q.head?.any isBlank = true)
    (hLetter : r.head?.any isLetter = true) :
    DefineLine line (r.takeWhile isWord)
      (r.dropWhile isWord) where
  splits := by
    refine ⟨line.takeWhile isBlank, q.takeWhile isBlank, ?_,
      takeWhile_all _ _, takeWhile_all _ _,
      takeWhile_ne_nil hSome⟩
    rw [List.takeWhile_append_dropWhile, ← hR,
      List.takeWhile_append_dropWhile, ← hDefine, ← hQ,
      List.takeWhile_append_dropWhile, ← hP,
      List.takeWhile_append_dropWhile]
  name := by
    refine ⟨?_, takeWhile_all _ _⟩
    cases r with
    | nil => cases hLetter
    | cons b r =>
        rw [List.head?_cons, Option.any_some] at hLetter
        rw [List.takeWhile_cons,
          if_pos (word_of_letter hLetter), List.head?_cons,
          Option.any_some]
        exact hLetter
  apart := dropWhile_stops isWord r

/- What is stored for the rest of a line means it. -/
theorem defineBody_trim
    (hNone : 10 ∉ t)
    (hTurns : (t.dropWhile isBlank).length ≤ turns)
    (hRun : defineBody st turns (t.dropWhile isBlank)
      Body.empty = .ok body) :
    ∃ toks s, Lexed true ⟨0, false⟩ t toks s ∧
      Means body.trim.bytes toks := by
  have hNoneB : 10 ∉ t.dropWhile isBlank := fun hMem =>
    hNone ((List.dropWhile_sublist isBlank).mem hMem)
  obtain ⟨w, hBytes, hW, -, toks, s₁, s₂, hToks, hOut⟩ :=
    defineBody_means hNoneB hTurns hRun ⟨0, false⟩
  have hTail := hToks.indent (takeWhile_all isBlank t)
  rw [List.takeWhile_append_dropWhile] at hTail
  have hSame : body.bytes = w := hBytes
  have hPart := List.rdropWhile_prefix isBlank w
  obtain ⟨s₃, hTrim⟩ := hOut.trim
  refine ⟨toks, s₁, hTail, ?_⟩
  rw [trim_bytes, hSame]
  exact ⟨fun hMem => hW (hPart.mem hMem), s₃, hTrim⟩

/-
  A definition that succeeds is a line that defines a new
  macro, and what it means is the rest of the line.
-/
theorem ppDefine_spec
    (hTracks : Tracks st env)
    (hNone : 10 ∉ line)
    (hRun : ppDefine line st = .ok st') :
    ∃ name tail toks s, DefineLine line name tail ∧
      Lexed true ⟨0, false⟩ tail toks s ∧
        env.lookup name = none ∧
          st'.output = st.output ∧
            st'.included = st.included ∧
              Tracks st' (env ++ [(name, toks)]) := by
  unfold ppDefine at hRun
  dsimp only at hRun
  split at hRun
  · exact absurd hRun ppFail_ne_ok
  rename_i hDirective
  split at hRun
  · exact absurd hRun ppFail_ne_ok
  rename_i hLetter
  split at hRun
  · exact absurd hRun ppFail_ne_ok
  split at hRun
  · exact absurd hRun ppFail_ne_ok
  split at hRun
  · exact absurd hRun ppFail_ne_ok
  split at hRun
  · exact absurd hRun ppFail_ne_ok
  rename_i hNew
  split at hRun
  · exact absurd hRun ppFail_ne_ok
  rw [bind_ok] at hRun
  obtain ⟨body, hBody, hRun⟩ := hRun
  have hOutput : st'.output = st.output := by
    cases hRun
    rfl
  have hIncluded : st'.included = st.included := by
    cases hRun
    rfl
  have hBodies : st'.bodies = st.bodies ++
      [((((line.dropWhile isBlank).dropWhile isLetter).dropWhile
        isBlank).takeWhile isWord, body.trim.bytes)] := by
    cases hRun
    unfold Pp.bodies
    rw [List.map_append]
    rfl
  clear hRun
  rw [Bool.not_eq_true, Bool.or_eq_false_iff,
    bne_eq_false_iff_eq, Bool.not_eq_false'] at hDirective
  rw [Bool.not_eq_true, Bool.not_eq_false'] at hLetter
  have hLine := defineLine_of_pieces rfl rfl rfl hDirective.1
    hDirective.2 hLetter
  obtain ⟨before, between, hSplit, -⟩ := hLine.splits
  have hNoneT := fun hMem => hNone (hSplit ▸
    List.mem_append_right _ (List.mem_append_right _
      (List.mem_append_right _
        (List.mem_append_right _ hMem))))
  obtain ⟨toks, s, hTail, hMeans⟩ :=
    defineBody_trim hNoneT (Nat.le_refl _) hBody
  exact ⟨_, _, toks, s, hLine, hTail,
    lookup_none hTracks hNew, hOutput, hIncluded,
    hTracks.add hMeans hBodies⟩

end KvantOS.Compiler
