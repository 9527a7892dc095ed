import KvantOS.Compiler.Preprocess

/-
  This file proves that `pp_expand` replaces the names of
  macros by their bodies, and nothing else: the tokens of
  what it writes are those of its text, replaced.

  Key definitions include:
    * `Macros`, `bodyOf`, `Replaced`
    * `Wrote`, `Tracks`, `Expands`

  Key theorems include:
    * `Replaced.unique`, `expandLoop_expands`
    * `ppExpand_expands`
-/

namespace KvantOS.Compiler

open Lexical

/- The macros defined so far, with the tokens they mean. -/
abbrev Macros := List (List UInt8 × List Tok)

/- What a token means, if it names a macro. -/
def bodyOf
    (env : Macros)
    (t : List UInt8) : Option (List Tok) :=
  if t.head?.any isLetter then env.lookup t else none

/-
  The tokens with every name of a macro replaced by its
  body, and so on in the body; no token touches one from
  another body. The Booleans say whether a body has just
  ended.
-/
inductive Replaced
    (env : Macros)
    (line : Nat) :
    Bool → List Tok → List Tok → Bool → Prop where
  | done (cut : Bool) :
      Replaced env line cut [] [] cut
  | keep
      {cut cut' : Bool}
      {t : Tok}
      {rest out : List Tok}
      (hNone : bodyOf env t.text = none)
      (hRest : Replaced env line false rest out cut') :
      Replaced env line cut (t :: rest)
        (⟨t.text, line, t.joined && !cut⟩ :: out) cut'
  | replace
      {cut cut' cut'' : Bool}
      {t : Tok}
      {body inner rest out : List Tok}
      (hSome : bodyOf env t.text = some body)
      (hBody : Replaced env line true body inner cut'')
      (hRest : Replaced env line true rest out cut') :
      Replaced env line cut (t :: rest) (inner ++ out) cut'

variable {env : Macros} {line : Nat}

/- There is one way to replace the names. -/
theorem Replaced.unique
    {cut cut' cut'' : Bool}
    {toks out more : List Tok}
    (hOut : Replaced env line cut toks out cut')
    (hMore : Replaced env line cut toks more cut'') :
    out = more ∧ cut' = cut'' := by
  induction hOut generalizing more cut'' with
  | done cut =>
      cases hMore
      exact ⟨rfl, rfl⟩
  | keep hNone hRest ih =>
      cases hMore with
      | keep hNone' hRest' =>
          obtain ⟨rfl, rfl⟩ := ih hRest'
          exact ⟨rfl, rfl⟩
      | replace hSome => cases hNone.symm.trans hSome
  | replace hSome hBody hRest ihBody ih =>
      cases hMore with
      | keep hNone => cases hNone.symm.trans hSome
      | replace hSome' hBody' hRest' =>
          cases hSome.symm.trans hSome'
          obtain ⟨rfl, -⟩ := ihBody hBody'
          obtain ⟨rfl, rfl⟩ := ih hRest'
          exact ⟨rfl, rfl⟩

--
-- What Is Written
--

/- The names and bodies of the macros. -/
def Pp.bodies (st : Pp) : List (List UInt8 × List UInt8) :=
  st.macros.map (fun m => (m.name, m.body.bytes))

/- The bytes are written, and nothing else changes. -/
structure Wrote
    (st : Pp)
    (q : List UInt8)
    (st' : Pp) : Prop where
  output : st'.output = st.output ++ q
  bodies : st'.bodies = st.bodies
  included : st'.included = st.included

variable {st st' st'' : Pp} {c : UInt8} {p q q' : List UInt8}

theorem Wrote.refl (st : Pp) :
    Wrote st [] st where
  output := (List.append_nil _).symm
  bodies := rfl
  included := rfl

theorem Wrote.trans
    (hFirst : Wrote st q st')
    (hSecond : Wrote st' q' st'') :
    Wrote st (q ++ q') st'' where
  output := by
    rw [hSecond.output, hFirst.output, List.append_assoc]
  bodies := hSecond.bodies.trans hFirst.bodies
  included := hSecond.included.trans hFirst.included

theorem ppEmit_wrote
    (hEmit : ppEmit c st = .ok st') :
    Wrote st [c] st' := by
  unfold ppEmit at hEmit
  split at hEmit
  · cases hEmit
  · cases hEmit
    exact ⟨rfl, rfl, rfl⟩

/- A step that succeeds succeeds in both of its parts. -/
theorem bind_ok
    {α β : Type}
    {x : PpResult α}
    {f : α → PpResult β}
    {b : β} :
    (x >>= f) = .ok b ↔ ∃ a, x = .ok a ∧ f a = .ok b := by
  cases x with
  | error e => exact ⟨nofun, fun ⟨_, h, _⟩ => nomatch h⟩
  | ok a =>
      constructor
      · exact fun h => ⟨a, rfl, h⟩
      · rintro ⟨a', hA, hF⟩
        cases hA
        exact hF

theorem ppFail_ne_ok
    {α : Type}
    {message : String}
    {a : α} :
    ppFail st message ≠ .ok a :=
  nofun

theorem ppEmits_wrote
    (hEmits : ppEmits q st = .ok st') :
    Wrote st q st' := by
  induction q generalizing st with
  | nil =>
      cases hEmits
      exact .refl _
  | cons c q ih =>
      rw [ppEmits, bind_ok] at hEmits
      obtain ⟨st₁, hEmit, hRest⟩ := hEmits
      exact (ppEmit_wrote hEmit).trans (ih hRest)

theorem bodies_setActive
    (st : Pp)
    (m : Nat)
    (active : Bool) :
    (st.setActive m active).bodies = st.bodies := by
  unfold Pp.bodies Pp.setActive
  dsimp only
  refine List.ext_getElem (by simp) ?_
  intro i hI hI'
  simp only [List.getElem_map, List.getElem_modify]
  split <;> rfl

--
-- Macros And Their Meaning
--

/- The body of a macro has these tokens, on one line. -/
def Means
    (body : List UInt8)
    (toks : List Tok) : Prop :=
  10 ∉ body ∧ ∃ s, Lexed false ⟨0, false⟩ body toks s

/- The state has the macros of `env`. -/
def Tracks (st : Pp) (env : Macros) : Prop :=
  List.Forall₂
    (fun m e => m.1 = e.1 ∧ Means m.2 e.2) st.bodies env

theorem Tracks.wrote
    (hTracks : Tracks st env)
    (hWrote : Wrote st q st') :
    Tracks st' env := by
  unfold Tracks
  rwa [hWrote.bodies]

/- The names of the macros, first to last. -/
theorem find_spec
    {macros : List Macro}
    (name : List UInt8)
    (hAll : List.Forall₂
      (fun m e => m.1 = e.1 ∧ Means m.2 e.2)
      (macros.map (fun m => (m.name, m.body.bytes))) env) :
    match macros.findFinIdx? (fun m => m.name == name) with
    | none => env.lookup name = none
    | some m => ∃ toks, env.lookup name = some toks ∧
        Means macros[m].body.bytes toks := by
  induction macros generalizing env with
  | nil =>
      cases hAll
      rfl
  | cons m macros ih =>
      cases hAll with
      | cons hHead hTail =>
        rename_i e env
        obtain ⟨hName, hMeans⟩ := hHead
        have hRest := ih hTail
        rw [List.findFinIdx?_cons]
        obtain ⟨n, toks⟩ := e
        dsimp only at hName hMeans
        subst hName
        cases hSame : m.name == name with
        | true =>
            have hFront : name == m.name := by
              rw [beq_iff_eq] at hSame ⊢
              exact hSame.symm
            exact ⟨toks, by
              rw [List.lookup_cons, hFront], hMeans⟩
        | false =>
            have hFront : (name == m.name) = false := by
              rw [beq_eq_false_iff_ne] at hSame ⊢
              exact hSame.symm
            cases hFind : macros.findFinIdx?
                (fun m => m.name == name) with
            | none =>
                rw [hFind] at hRest
                simpa [List.lookup_cons, hFront] using hRest
            | some i =>
                rw [hFind] at hRest
                obtain ⟨toks', hLook, hMeans'⟩ := hRest
                refine ⟨toks', ?_, hMeans'⟩
                rw [List.lookup_cons, hFront]
                exact hLook

--
-- Texts Expanded
--

/-
  What expanding `text` writes has the tokens of the text,
  replaced, and starts as the text does or with a blank.
-/
structure Expanded
    (env : Macros)
    (st : Pp)
    (text : List UInt8)
    (joined cut : Bool)
    (toks : List Tok)
    (joined' : Bool)
    (line : Nat)
    (st' : Pp) : Prop where
  writes : ∃ q outs cut', Wrote st q st' ∧
    Replaced env line cut toks outs cut' ∧
      Lexed false ⟨line, joined && !cut⟩ q outs
        ⟨line, joined' && !cut'⟩ ∧
        Follows text q

/- An expansion does so with every text of a line. -/
def Expands (expand : List UInt8 → Pp → PpResult Pp) : Prop :=
  ∀ {env : Macros} {text : List UInt8} {st st' : Pp}
    {toks : List Tok} {s s' : Place},
    Lexed false s text toks s' → 10 ∉ text →
      Tracks st env → expand text st = .ok st' →
        ∀ line cut, Expanded env st text s.joined cut toks
          s'.joined line st'

variable {deeper : Deeper} {r t : List UInt8}

/-
  What is written for a token: the token, or what its body
  comes to, between blanks.
-/
inductive TokenOut
    (env : Macros)
    (line : Nat)
    (t : List UInt8) : List UInt8 → Prop where
  | kept
      (hNone : bodyOf env t = none) :
      TokenOut env line t t
  | replaced
      {body inner : List Tok}
      {q : List UInt8}
      {cut joined : Bool}
      (hSome : bodyOf env t = some body)
      (hBody : Replaced env line true body inner cut)
      (hLexed :
        Lexed false ⟨line, false⟩ q inner ⟨line, joined⟩) :
      TokenOut env line t (32 :: (q ++ [32]))

theorem bodyOf_letter
    (hLetter : isLetter c = true)
    (p : List UInt8) :
    bodyOf env (c :: p) = env.lookup (c :: p) := by
  unfold bodyOf
  rw [List.head?_cons, Option.any_some, if_pos hLetter]

theorem bodyOf_other
    (hLetter : ¬isLetter c = true)
    (p : List UInt8) :
    bodyOf env (c :: p) = none := by
  unfold bodyOf
  rw [List.head?_cons, Option.any_some, if_neg hLetter]

theorem expandName_spec
    (hDeeper : ∀ expand, deeper = some expand →
      Expands expand)
    (hLetter : isLetter c = true)
    (hTracks : Tracks st env)
    (hName : expandName deeper (c :: p) st = .ok st')
    (line : Nat) :
    ∃ w, Wrote st w st' ∧ TokenOut env line (c :: p) w := by
  have hFind := find_spec (c :: p) hTracks
  unfold expandName ppFind at hName
  cases hLook : st.macros.findFinIdx?
      (fun m => m.name == c :: p) with
  | none =>
      rw [hLook] at hFind hName
      refine ⟨_, ppEmits_wrote hName, .kept ?_⟩
      rw [bodyOf_letter hLetter]
      exact hFind
  | some m =>
      rw [hLook] at hFind hName
      dsimp only at hFind hName
      obtain ⟨toks, hToks, hLine, s, hLexed⟩ := hFind
      split at hName
      · exact absurd hName ppFail_ne_ok
      · cases deeper with
        | none => exact absurd hName ppFail_ne_ok
        | some expand =>
            dsimp only at hName
            rw [bind_ok] at hName
            obtain ⟨st₁, hBefore, hName⟩ := hName
            rw [bind_ok] at hName
            obtain ⟨st₂, hBody, hName⟩ := hName
            rw [bind_ok] at hName
            obtain ⟨st₃, hAfter, hName⟩ := hName
            cases hName
            have hFirst : Wrote st [32] st₁ := by
              have hEmit := ppEmit_wrote hBefore
              exact ⟨hEmit.output,
                hEmit.bodies.trans (bodies_setActive _ _ _),
                hEmit.included⟩
            obtain ⟨q, inner, cut, hWrote, hReplaced, hOut, -⟩ :=
              (hDeeper expand rfl hLexed hLine
                (hTracks.wrote hFirst) hBody line true).writes
            have hLast : Wrote st₂ [32]
                (st₃.setActive m false) := by
              have hEmit := ppEmit_wrote hAfter
              exact ⟨hEmit.output,
                (bodies_setActive _ _ _).trans hEmit.bodies,
                hEmit.included⟩
            refine ⟨_, hFirst.trans (hWrote.trans hLast),
              .replaced ?_ hReplaced hOut⟩
            rw [bodyOf_letter hLetter]
            exact hToks

variable {rest : List UInt8}

/- A literal that is written ends as it is read. -/
theorem expandLiteral_spec
    (hLiteral : expandLiteral c p st = .ok (st', rest)) :
    ∃ w, literalRest c p = some (w, rest) ∧
      Wrote st w st' := by
  induction hLength : p.length using Nat.strong_induction_on
    generalizing p st with
  | _ n ih =>
    cases p with
    | nil => exact absurd hLiteral ppFail_ne_ok
    | cons b p =>
        rw [expandLiteral.eq_def] at hLiteral
        dsimp only at hLiteral
        split at hLiteral
        · exact absurd hLiteral ppFail_ne_ok
        · rename_i hLine
          rw [bind_ok] at hLiteral
          obtain ⟨st₁, hEmit, hLiteral⟩ := hLiteral
          have hByte := ppEmit_wrote hEmit
          split at hLiteral
          · rename_i hQuote
            cases hLiteral
            exact ⟨_, literalRest_close hLine hQuote, hByte⟩
          · rename_i hQuote
            split at hLiteral
            · rename_i hSlash
              cases p with
              | nil => exact absurd hLiteral ppFail_ne_ok
              | cons d p =>
                  dsimp only at hLiteral
                  split at hLiteral
                  · exact absurd hLiteral ppFail_ne_ok
                  · rename_i hEnd
                    rw [bind_ok] at hLiteral
                    obtain ⟨st₂, hNext, hLiteral⟩ := hLiteral
                    have hLess : p.length < n := by
                      rw [List.length_cons, List.length_cons]
                        at hLength
                      omega
                    obtain ⟨w, hRest, hWrote⟩ :=
                      ih _ hLess hLiteral rfl
                    refine ⟨b :: d :: w, ?_, hByte.trans
                      ((ppEmit_wrote hNext).trans hWrote)⟩
                    rw [literalRest_escape hLine hQuote hSlash
                      hEnd, hRest]
                    rfl
            · rename_i hSlash
              have hLess : p.length < n := by
                rw [List.length_cons] at hLength
                omega
              obtain ⟨w, hRest, hWrote⟩ :=
                ih _ hLess hLiteral rfl
              refine ⟨b :: w, ?_, hByte.trans hWrote⟩
              rw [literalRest_next hLine hQuote hSlash, hRest]
              rfl

/- A token is written, or replaced, as a whole. -/
theorem expandStep_token
    (hDeeper : ∀ expand, deeper = some expand →
      Expands expand)
    (hTracks : Tracks st env)
    (hRead : lexeme (c :: p) = some (.token t, r))
    (hStep : expandStep deeper c p st = .ok (st', rest))
    (line : Nat) :
    rest = r ∧ ∃ w, Wrote st w st' ∧
      TokenOut env line t w := by
  obtain ⟨-, -, -, hToken⟩ := lexeme_token hRead
  unfold expandStep at hStep
  unfold tokenAt at hToken
  split at hStep
  · rename_i hLetter
    rw [if_pos hLetter] at hToken
    cases hToken
    rw [bind_ok] at hStep
    obtain ⟨st₁, hName, hStep⟩ := hStep
    cases hStep
    exact ⟨rfl, expandName_spec hDeeper hLetter hTracks hName
      line⟩
  · rename_i hLetter
    rw [if_neg hLetter] at hToken
    split at hStep
    · rename_i hNumber
      rw [if_pos hNumber] at hToken
      cases hToken
      rw [bind_ok] at hStep
      obtain ⟨st₁, hEmits, hStep⟩ := hStep
      cases hStep
      exact ⟨rfl, _, ppEmits_wrote hEmits,
        .kept (bodyOf_other hLetter _)⟩
    · rename_i hNumber
      rw [if_neg hNumber] at hToken
      split at hStep
      · rename_i hQuote
        rw [if_pos hQuote] at hToken
        rw [bind_ok] at hStep
        obtain ⟨st₁, hEmit, hStep⟩ := hStep
        obtain ⟨w, hRest, hWrote⟩ := expandLiteral_spec hStep
        rw [hRest] at hToken
        cases hToken
        exact ⟨rfl, _, (ppEmit_wrote hEmit).trans hWrote,
          .kept (bodyOf_other hLetter _)⟩
      · rename_i hQuote
        rw [if_neg hQuote] at hToken
        cases hToken
        split at hStep
        · exact absurd hStep ppFail_ne_ok
        · rw [bind_ok] at hStep
          obtain ⟨st₁, hEmit, hStep⟩ := hStep
          cases hStep
          exact ⟨rfl, _, ppEmit_wrote hEmit,
            .kept (bodyOf_other hLetter _)⟩

/- A blank is written as it is. -/
theorem expandStep_blank
    (hBlank : isBlank c = true)
    (hStep : expandStep deeper c p st = .ok (st', rest)) :
    rest = p ∧ Wrote st [c] st' := by
  have hCases : c = 32 ∨ c = 9 ∨ c = 13 := by
    unfold isBlank at hBlank
    simp only [Bool.or_eq_true, beq_iff_eq] at hBlank
    tauto
  unfold expandStep at hStep
  have hLetter : ¬isLetter c = true := by
    rcases hCases with rfl | rfl | rfl <;> decide
  have hNumber : ¬(isDigit c || c == 46 &&
      p.head?.any isDigit) = true := by
    rcases hCases with rfl | rfl | rfl <;> simp [isDigit]
  have hQuote : ¬(c == 34 || c == 39) = true := by
    rcases hCases with rfl | rfl | rfl <;> decide
  have hHash : ¬(c == 35) = true := by
    rcases hCases with rfl | rfl | rfl <;> decide
  rw [if_neg hLetter, if_neg hNumber, if_neg hQuote,
    if_neg hHash, bind_ok] at hStep
  obtain ⟨st₁, hEmit, hStep⟩ := hStep
  cases hStep
  exact ⟨rfl, ppEmit_wrote hEmit⟩

theorem wrote_work
    (hWrote : Wrote { st with work := st.work + 1 } q st') :
    Wrote st q st' :=
  ⟨hWrote.output, hWrote.bodies, hWrote.included⟩

theorem Expanded.nil
    {joined cut : Bool}
    (line : Nat)
    (st : Pp) :
    Expanded env st [] joined cut [] joined line st :=
  ⟨[], [], cut, .refl _, .done cut, .done _, .inl rfl⟩

variable {toks : List Tok}

theorem Expanded.blank
    {joined joined' cut : Bool}
    {st₁ : Pp}
    (hBlank : isBlank c = true)
    (hWrote : Wrote st [c] st₁)
    (hRest : Expanded env st₁ p false cut toks joined' line
      st') :
    Expanded env st (c :: p) joined cut toks joined' line
      st' := by
  obtain ⟨q, outs, cut', hMore, hReplaced, hOut, -⟩ :=
    hRest.writes
  exact ⟨_, outs, cut', hWrote.trans hMore, hReplaced,
    .blank (lexeme_blank hBlank q) hOut, .inr (.inr rfl)⟩

theorem Expanded.token
    {joined joined' cut : Bool}
    {line place : Nat}
    {toks : List Tok}
    {w : List UInt8}
    {st₁ : Pp}
    (hRead : lexeme (c :: p) = some (.token t, r))
    (hOut : TokenOut env line t w)
    (hWrote : Wrote st w st₁)
    (hRest : ∀ cut, Expanded env st₁ r true cut toks joined'
      line st') :
    Expanded env st (c :: p) joined cut
      (⟨t, place, joined⟩ :: toks) joined' line st' := by
  obtain ⟨-, -, -, hToken⟩ := lexeme_token hRead
  obtain ⟨t', rfl, -⟩ := tokenAt_split hToken
  cases hOut with
  | kept hNone =>
      obtain ⟨q, outs, cut', hMore, hReplaced, hOut,
        hFollows⟩ := (hRest false).writes
      exact ⟨_, _, cut', hWrote.trans hMore,
        .keep hNone hReplaced,
        .token (lexeme_again hRead hFollows) hOut,
        .inr (.inr rfl)⟩
  | @replaced body inner q' cut'' joined'' hSome hBody
      hLexed =>
      obtain ⟨q, outs, cut', hMore, hReplaced, hOut, -⟩ :=
        (hRest true).writes
      refine ⟨_, _, cut', hWrote.trans hMore,
        .replace hSome hBody hReplaced, ?_,
        .inr (.inl ⟨32, rfl, rfl⟩)⟩
      rw [List.cons_append, List.append_assoc]
      exact .blank rfl (hLexed.append (.blank rfl hOut)
        (.inr ⟨32, rfl, rfl⟩))

/- The loop replaces every token of its text. -/
theorem expandLoop_expands
    (hDeeper : ∀ expand, deeper = some expand →
      Expands expand)
    {turns : Nat}
    {s s' : Place}
    (hTurns : p.length ≤ turns)
    (hLexed : Lexed false s p toks s')
    (hLine : 10 ∉ p)
    (hTracks : Tracks st env)
    (hLoop : expandLoop deeper turns p st = .ok st')
    (line : Nat)
    (cut : Bool) :
    Expanded env st p s.joined cut toks s'.joined line st' := by
  induction turns generalizing p st s toks cut with
  | zero =>
      obtain rfl := List.length_eq_zero_iff.mp
        (Nat.le_zero.mp hTurns)
      obtain ⟨rfl, rfl⟩ := hLexed.unique (.done s)
      cases hLoop
      exact .nil line _
  | succ turns ih =>
    cases p with
    | nil =>
        obtain ⟨rfl, rfl⟩ := hLexed.unique (.done s)
        cases hLoop
        exact .nil line _
    | cons c p =>
        rw [expandLoop] at hLoop
        dsimp only at hLoop
        split at hLoop
        · exact absurd hLoop ppFail_ne_ok
        rw [bind_ok] at hLoop
        obtain ⟨⟨st₁, rest⟩, hStep, hLoop⟩ := hLoop
        dsimp only at hLoop
        have hTracks' : Tracks
            { st with work := st.work + 1 } env := hTracks
        cases hLexed with
        | newline hRead hRest =>
            obtain hEq := lexeme_newline_iff.mp hRead
            cases hEq
            exact absurd List.mem_cons_self hLine
        | comment hRemarks => cases hRemarks
        | blank hRead hRest =>
            obtain ⟨b, hBlank, hEq⟩ := lexeme_blank_iff.mp hRead
            cases hEq
            obtain ⟨rfl, hWrote⟩ :=
              expandStep_blank hBlank hStep
            have hByte := wrote_work hWrote
            exact .blank hBlank hByte
              (ih (by simpa using hTurns) hRest
                (fun hMem => hLine
                  (List.mem_cons_of_mem _ hMem))
                (hTracks.wrote hByte) hLoop cut)
        | token hRead hRest =>
            obtain ⟨rfl, w, hWrote, hOut⟩ := expandStep_token
              hDeeper hTracks' hRead hStep line
            have hToken := wrote_work hWrote
            obtain ⟨-, -, -, hSplit⟩ := lexeme_token hRead
            obtain ⟨t', rfl, rfl⟩ := tokenAt_split hSplit
            have hFits : rest.length ≤ turns := by
              rw [List.length_cons, List.length_append]
                at hTurns
              omega
            have hLine' : 10 ∉ rest := fun hMem => hLine
              (List.mem_cons_of_mem _
                (List.mem_append_right _ hMem))
            exact .token hRead hOut hToken fun cut =>
              ih hFits hRest hLine' (hTracks.wrote hToken)
                hLoop cut

/- `pp_expand` replaces the names of its text. -/
theorem ppExpand_expands (levels : Nat) :
    Expands (ppExpand levels) := by
  induction levels with
  | zero =>
      intro env text st st' toks s s' hLexed hLine hTracks
        hExpand line cut
      refine expandLoop_expands ?_ (Nat.le_refl _) hLexed
        hLine hTracks hExpand line cut
      intro expand hNone
      cases hNone
  | succ levels ih =>
      intro env text st st' toks s s' hLexed hLine hTracks
        hExpand line cut
      refine expandLoop_expands ?_ (Nat.le_refl _) hLexed
        hLine hTracks hExpand line cut
      intro expand hSome
      obtain rfl := Option.some.inj hSome
      exact ih

end KvantOS.Compiler
