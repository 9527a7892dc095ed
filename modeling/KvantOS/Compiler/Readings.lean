import KvantOS.Compiler.Definitions

/-
  This file says what a source of the Workshop means to its
  preprocessor: comments and directive lines go, a builtin
  header stands where it is first included, and the names of
  macros are replaced. A source reads in one way.

  Key definitions include:
    * `IncludeLine`, `World`, `Reads`

  Key theorems include:
    * `DefineLine.unique`, `IncludeLine.unique`
    * `Reads.unique`
-/

namespace KvantOS.Compiler

open Lexical

/-
  The line includes `name`: after the `#` comes `include`,
  then the name in quotes or brackets, and no token after.
-/
structure IncludeLine
    (line name : List UInt8) : Prop where
  splits : ∃ before between tail openBy closeBy s,
    line = before ++ (bytesOf "include" ++
      (between ++ openBy :: (name ++ closeBy :: tail))) ∧
      Blanks before ∧ Blanks between ∧
        ((openBy = 34 ∧ closeBy = 34) ∨
          (openBy = 60 ∧ closeBy = 62)) ∧
          closeBy ∉ name ∧
            Lexed true ⟨0, false⟩ tail [] s

/- The macros and the headers so far. -/
structure World where
  macros : Macros
  included : List Nat

/- The line after `feeds` ends of lines; a header has one. -/
def advance
    (header : Bool)
    (line feeds : Nat) : Nat :=
  if header then line else line + feeds

/-
  What a source reads as, from a world and a place to
  another: its tokens with the lines they stand on. The
  Boolean after the place says whether a directive may
  start.
-/
inductive Reads
    (headers : List PpHeader) :
    (header : Bool) → World → Place → Bool → List UInt8 →
      List Tok → World → Place → Prop where
  | done
      {header fresh : Bool}
      (w : World)
      (s : Place) :
      Reads headers header w s fresh [] [] w s
  | newline
      {header fresh : Bool}
      {w w' : World}
      {s s' : Place}
      {p : List UInt8}
      {toks : List Tok}
      (hRest : Reads headers header w
        ⟨advance header s.line 1, false⟩ true p toks w' s') :
      Reads headers header w s fresh (10 :: p) toks w' s'
  | blank
      {header fresh : Bool}
      {w w' : World}
      {s s' : Place}
      {c : UInt8}
      {p : List UInt8}
      {toks : List Tok}
      (hBlank : isBlank c = true)
      (hRest : Reads headers header w ⟨s.line, false⟩ fresh p
        toks w' s') :
      Reads headers header w s fresh (c :: p) toks w' s'
  | comment
      {header fresh : Bool}
      {w w' : World}
      {s s' : Place}
      {p r : List UInt8}
      {toks : List Tok}
      {feeds : Nat}
      (hRead : lexeme p = some (.comment feeds, r))
      (hRest : Reads headers header w
        ⟨advance header s.line feeds, false⟩
        (fresh || 0 < feeds) r toks w' s') :
      Reads headers header w s fresh p toks w' s'
  | define
      {header : Bool}
      {w w' : World}
      {s s' s₁ : Place}
      {p name tail : List UInt8}
      {body toks : List Tok}
      (hLine : DefineLine (p.takeWhile (· != 10)) name tail)
      (hBody : Lexed true ⟨0, false⟩ tail body s₁)
      (hNew : w.macros.lookup name = none)
      (hRest : Reads headers header
        { w with macros := w.macros ++ [(name, body)] } s true
        (p.dropWhile (· != 10)) toks w' s') :
      Reads headers header w s true (35 :: p) toks w' s'
  | includes
      {header : Bool}
      {w w₁ w' : World}
      {s s₁ s' : Place}
      {p name : List UInt8}
      {inner toks : List Tok}
      {i : Fin headers.length}
      (hLine : IncludeLine (p.takeWhile (· != 10)) name)
      (hIndex :
        headers.findFinIdx? (fun e => e.name == name) = some i)
      (hNew : i.val ∉ w.included)
      (hHeader : Reads headers true w ⟨s.line, false⟩ true
        headers[i].body inner w₁ s₁)
      (hRest : Reads headers header
        { w₁ with included := i.val :: w₁.included }
        ⟨s.line, false⟩ true (p.dropWhile (· != 10)) toks
        w' s') :
      Reads headers header w s true (35 :: p)
        (inner ++ toks) w' s'
  | again
      {header : Bool}
      {w w' : World}
      {s s' : Place}
      {p name : List UInt8}
      {toks : List Tok}
      {i : Fin headers.length}
      (hLine : IncludeLine (p.takeWhile (· != 10)) name)
      (hIndex :
        headers.findFinIdx? (fun e => e.name == name) = some i)
      (hOld : i.val ∈ w.included)
      (hRest : Reads headers header w s true
        (p.dropWhile (· != 10)) toks w' s') :
      Reads headers header w s true (35 :: p) toks w' s'
  | token
      {header fresh cut : Bool}
      {w w' : World}
      {s s' : Place}
      {c : UInt8}
      {p r t : List UInt8}
      {out toks : List Tok}
      (hNot : c ≠ 35)
      (hRead : lexeme (c :: p) = some (.token t, r))
      (hOut : Replaced w.macros s.line false
        [⟨t, s.line, s.joined⟩] out cut)
      (hRest : Reads headers header w ⟨s.line, !cut⟩ false r
        toks w' s') :
      Reads headers header w s fresh (c :: p)
        (out ++ toks) w' s'

--
-- One Reading
--

section Unique

variable {line name name' tail tail' : List UInt8}

theorem not_blank_letter
    {c : UInt8}
    (hLetter : isLetter c = true) :
    isBlank c = false := by
  have hWord := word_of_letter hLetter
  cases hBlank : isBlank c with
  | false => rfl
  | true =>
      have hSpace : isSpace c = true := by
        unfold isSpace
        rw [hBlank, Bool.or_true]
      rw [not_word_of_space hSpace] at hWord
      cases hWord

/- What a line that defines is after its first blanks. -/
theorem DefineLine.text
    (hLine : DefineLine line name tail) :
    ∃ between, line.dropWhile isBlank =
        bytesOf "define" ++ (between ++ (name ++ tail)) ∧
      (((line.dropWhile isBlank).drop 6).dropWhile isBlank) =
        name ++ tail := by
  obtain ⟨before, between, rfl, hBefore, hBetween, -⟩ :=
    hLine.splits
  have hFront := (@takeWhile_stop (bytesOf "define" ++
    (between ++ (name ++ tail))) before isBlank hBefore
      rfl).2
  have hKey : ∀ x, (bytesOf "define" ++ x).drop 6 = x :=
    fun x => List.drop_left' rfl
  refine ⟨between, hFront, ?_⟩
  rw [hFront, hKey]
  refine (takeWhile_stop hBetween ?_).2
  have hHead := hLine.name.1
  cases name with
  | nil => cases hHead
  | cons c name =>
      rw [List.head?_cons, Option.any_some] at hHead
      exact not_blank_letter hHead

theorem DefineLine.unique
    (hLine : DefineLine line name tail)
    (hOther : DefineLine line name' tail') :
    name = name' ∧ tail = tail' := by
  obtain ⟨_, -, hText⟩ := hLine.text
  obtain ⟨_, -, hText'⟩ := hOther.text
  have hSame : name ++ tail = name' ++ tail' :=
    hText.symm.trans hText'
  obtain ⟨hTake, hDrop⟩ :=
    takeWhile_stop hLine.name.2 hLine.apart
  obtain ⟨hTake', hDrop'⟩ :=
    takeWhile_stop hOther.name.2 hOther.apart
  rw [hSame] at hTake hDrop
  exact ⟨hTake.symm.trans hTake', hDrop.symm.trans hDrop'⟩

/- What a line that includes is after its first blanks. -/
theorem IncludeLine.text
    (hLine : IncludeLine line name) :
    ∃ between tail openBy closeBy,
      line.dropWhile isBlank = bytesOf "include" ++ between ∧
        ((line.dropWhile isBlank).drop 7).dropWhile isBlank =
          openBy :: (name ++ closeBy :: tail) ∧
          ((openBy = 34 ∧ closeBy = 34) ∨
            (openBy = 60 ∧ closeBy = 62)) ∧
            closeBy ∉ name := by
  obtain ⟨before, between, tail, openBy, closeBy, s, rfl,
    hBefore, hBetween, hQuotes, hApart, -⟩ := hLine.splits
  have hFront := (@takeWhile_stop (bytesOf "include" ++
    (between ++ openBy :: (name ++ closeBy :: tail))) before
      isBlank hBefore rfl).2
  have hKey : ∀ x, (bytesOf "include" ++ x).drop 7 = x :=
    fun x => List.drop_left' rfl
  refine ⟨_, tail, openBy, closeBy, hFront, ?_, hQuotes,
    hApart⟩
  rw [hFront, hKey]
  refine (takeWhile_stop hBetween ?_).2
  rcases hQuotes with ⟨rfl, -⟩ | ⟨rfl, -⟩ <;> rfl

theorem IncludeLine.unique
    (hLine : IncludeLine line name)
    (hOther : IncludeLine line name') :
    name = name' := by
  obtain ⟨_, tail, openBy, closeBy, -, hText, hQuotes,
    hApart⟩ := hLine.text
  obtain ⟨_, tail', openBy', closeBy', -, hText', hQuotes',
    hApart'⟩ := hOther.text
  have hSame := hText.symm.trans hText'
  obtain ⟨rfl, hRest⟩ := List.cons.inj hSame
  have hClose : closeBy = closeBy' := by
    rcases hQuotes with ⟨rfl, rfl⟩ | ⟨rfl, rfl⟩ <;>
      rcases hQuotes' with ⟨hOpen, rfl⟩ | ⟨hOpen, rfl⟩ <;>
        first | rfl | cases hOpen
  subst hClose
  have hStop : ∀ (n t : List UInt8), closeBy ∉ n →
      (n ++ closeBy :: t).takeWhile (· != closeBy) = n := by
    intro n t hNot
    refine (takeWhile_stop ?_ ?_).1
    · intro c hMem
      rw [bne_iff_ne]
      rintro rfl
      exact hNot hMem
    · simp
  have hTake := hStop name tail hApart
  rw [hRest, hStop name' tail' hApart'] at hTake
  exact hTake.symm

/- No line does both. -/
theorem DefineLine.not_include
    (hLine : DefineLine line name tail)
    (hOther : IncludeLine line name') :
    False := by
  obtain ⟨_, hText, -⟩ := hLine.text
  obtain ⟨_, _, _, _, hText', -⟩ := hOther.text
  have hSame := hText.symm.trans hText'
  have hHead := congrArg List.head? hSame
  cases hHead

theorem lexeme_hash (p : List UInt8) :
    lexeme (35 :: p) = some (.token [35], p) := rfl

/- A source reads in one way. -/
theorem Reads.unique
    {headers : List PpHeader}
    {header fresh : Bool}
    {w w' w'' : World}
    {s s' s'' : Place}
    {p : List UInt8}
    {toks more : List Tok}
    (hReads : Reads headers header w s fresh p toks w' s')
    (hMore : Reads headers header w s fresh p more w'' s'') :
    toks = more ∧ w' = w'' ∧ s' = s'' := by
  induction hReads generalizing more w'' s'' with
  | done w s =>
      cases hMore with
      | done => exact ⟨rfl, rfl, rfl⟩
      | comment hRead => cases hRead
  | newline hRest ih =>
      cases hMore with
      | newline hRest' => exact ih hRest'
      | blank hBlank => cases hBlank
      | comment hRead =>
          rw [lexeme_newline] at hRead
          cases hRead
      | token hNot hRead =>
          rw [lexeme_newline] at hRead
          cases hRead
  | blank hBlank hRest ih =>
      cases hMore with
      | newline hRest' => cases hBlank
      | blank hBlank' hRest' => exact ih hRest'
      | comment hRead =>
          rw [lexeme_blank hBlank] at hRead
          cases hRead
      | token hNot hRead =>
          rw [lexeme_blank hBlank] at hRead
          cases hRead
      | define => cases hBlank
      | includes => cases hBlank
      | again => cases hBlank
  | comment hRead hRest ih =>
      cases hMore with
      | done => cases hRead
      | newline hRest' =>
          rw [lexeme_newline] at hRead
          cases hRead
      | blank hBlank =>
          rw [lexeme_blank hBlank] at hRead
          cases hRead
      | comment hRead' hRest' =>
          cases hRead.symm.trans hRead'
          exact ih hRest'
      | token hNot hRead' => cases hRead.symm.trans hRead'
      | define =>
          rw [lexeme_hash] at hRead
          cases hRead
      | includes =>
          rw [lexeme_hash] at hRead
          cases hRead
      | again =>
          rw [lexeme_hash] at hRead
          cases hRead
  | define hLine hBody hNew hRest ih =>
      cases hMore with
      | blank hBlank => cases hBlank
      | comment hRead =>
          rw [lexeme_hash] at hRead
          cases hRead
      | token hNot => exact absurd rfl hNot
      | define hLine' hBody' hNew' hRest' =>
          obtain ⟨rfl, rfl⟩ := hLine.unique hLine'
          obtain ⟨rfl, -⟩ := hBody.unique hBody'
          exact ih hRest'
      | includes hLine' => cases hLine.not_include hLine'
      | again hLine' => cases hLine.not_include hLine'
  | includes hLine hIndex hNew hHeader hRest ihHeader ih =>
      cases hMore with
      | blank hBlank => cases hBlank
      | comment hRead =>
          rw [lexeme_hash] at hRead
          cases hRead
      | token hNot => exact absurd rfl hNot
      | define hLine' => cases hLine'.not_include hLine
      | includes hLine' hIndex' hNew' hHeader' hRest' =>
          obtain rfl := hLine.unique hLine'
          cases hIndex.symm.trans hIndex'
          obtain ⟨rfl, rfl, rfl⟩ := ihHeader hHeader'
          obtain ⟨rfl, rfl, rfl⟩ := ih hRest'
          exact ⟨rfl, rfl, rfl⟩
      | again hLine' hIndex' hOld =>
          obtain rfl := hLine.unique hLine'
          cases hIndex.symm.trans hIndex'
          exact absurd hOld hNew
  | again hLine hIndex hOld hRest ih =>
      cases hMore with
      | blank hBlank => cases hBlank
      | comment hRead =>
          rw [lexeme_hash] at hRead
          cases hRead
      | token hNot => exact absurd rfl hNot
      | define hLine' => cases hLine'.not_include hLine
      | includes hLine' hIndex' hNew' =>
          obtain rfl := hLine.unique hLine'
          cases hIndex.symm.trans hIndex'
          exact absurd hOld hNew'
      | again hLine' hIndex' hOld' hRest' => exact ih hRest'
  | token hNot hRead hOut hRest ih =>
      cases hMore with
      | newline hRest' =>
          rw [lexeme_newline] at hRead
          cases hRead
      | blank hBlank =>
          rw [lexeme_blank hBlank] at hRead
          cases hRead
      | comment hRead' => cases hRead.symm.trans hRead'
      | define => exact absurd rfl hNot
      | includes => exact absurd rfl hNot
      | again => exact absurd rfl hNot
      | token hNot' hRead' hOut' hRest' =>
          cases hRead.symm.trans hRead'
          obtain ⟨rfl, rfl⟩ := hOut.unique hOut'
          obtain ⟨rfl, rfl, rfl⟩ := ih hRest'
          exact ⟨rfl, rfl, rfl⟩

end Unique

end KvantOS.Compiler
