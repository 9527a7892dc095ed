import Mathlib.Data.List.DropRight
import Mathlib.Data.List.TakeWhile

/-
  This file studies the lexical elements of C text: blanks,
  comments and preprocessing tokens, each taken as long as
  it can be. A text is read as a list of tokens, each with
  its line and whether it touches the token before it.

  Key definitions include:
    * `numberRest`, `literalRest`, `commentRest`
    * `Lexeme`, `lexeme`
    * `Place`, `Tok`, `Lexed`

  Key theorems include:
    * `lexeme_again`, `Lexed.append`, `Lexed.trim`
    * `Lexed.unique`
-/

namespace Lexical

--
-- Characters
--

def isLetter (c : UInt8) : Bool :=
  (97 ≤ c && c ≤ 122) || (65 ≤ c && c ≤ 90) || c == 95

def isDigit (c : UInt8) : Bool :=
  48 ≤ c && c ≤ 57

/- A letter or digit of a name. -/
def isWord (c : UInt8) : Bool :=
  isLetter c || isDigit c

/- White space within a line. -/
def isBlank (c : UInt8) : Bool :=
  c == 32 || c == 9 || c == 13

/- White space, or the end of a line. -/
def isSpace (c : UInt8) : Bool :=
  c == 10 || isBlank c

/- What goes on with a number, after `prev`. -/
def continues (prev c : UInt8) : Bool :=
  isLetter c || isDigit c || c == 46 ||
    ((c == 43 || c == 45) &&
      (prev == 101 || prev == 69 || prev == 112 ||
        prev == 80))

--
-- Tokens
--

/- The rest of a number, and what follows it. -/
def numberRest :
    (prev : UInt8) → List UInt8 → List UInt8 × List UInt8
  | _, [] => ([], [])
  | prev, c :: p =>
      if continues prev c then
        (c :: (numberRest c p).1, (numberRest c p).2)
      else ([], c :: p)

/-
  The rest of a literal, with its closing quote, and what
  follows it. A literal ends on its line.
-/
def literalRest
    (quote : UInt8) :
    List UInt8 → Option (List UInt8 × List UInt8)
  | [] => none
  | c :: p =>
      if c == 10 then none
      else if c == quote then some ([c], p)
      else if c == 92 then
        match p with
        | [] => none
        | d :: p =>
            if d == 10 then none
            else (literalRest quote p).map
              (fun t => (c :: d :: t.1, t.2))
      else (literalRest quote p).map
        (fun t => (c :: t.1, t.2))

/- The rest of a comment, and what follows its end. -/
def commentRest :
    List UInt8 → Option (List UInt8 × List UInt8)
  | [] => none
  | [_] => none
  | c :: d :: p =>
      if c == 42 && d == 47 then some ([], p)
      else (commentRest (d :: p)).map
        (fun t => (c :: t.1, t.2))

/- The token that starts with `c`, and what follows it. -/
def tokenAt
    (c : UInt8)
    (p : List UInt8) :
    Option (List UInt8 × List UInt8) :=
  if isLetter c then
    some (c :: p.takeWhile isWord, p.dropWhile isWord)
  else if isDigit c || (c == 46 && p.head?.any isDigit) then
    some (c :: (numberRest c p).1, (numberRest c p).2)
  else if c == 34 || c == 39 then
    (literalRest c p).map (fun t => (c :: t.1, t.2))
  else some ([c], p)

/- One lexical element. -/
inductive Lexeme where
  | newline
  | blank
  | comment (feeds : Nat)
  | token (text : List UInt8)

/-
  The element at the front of a text, and what follows it;
  none for an open comment or literal.
-/
def lexeme :
    List UInt8 → Option (Lexeme × List UInt8)
  | [] => none
  | c :: p =>
      if c == 10 then some (.newline, p)
      else if isBlank c then some (.blank, p)
      else if c == 47 && p.head? == some 47 then
        some (.comment 0, p.dropWhile (· != 10))
      else if c == 47 && p.head? == some 42 then
        (commentRest p.tail).map
          (fun t => (.comment (t.1.count 10), t.2))
      else (tokenAt c p).map (fun t => (.token t.1, t.2))

--
-- Reading A Token Again
--

section Again

variable {c prev quote : UInt8} {p q r t : List UInt8}

/-
  What follows a token when it is written out: white space,
  or the character that followed it where it was read.
-/
def Follows (r q : List UInt8) : Prop :=
  q = [] ∨ (∃ b, isSpace b = true ∧ q.head? = some b) ∨
    q.head? = r.head?

theorem word_of_letter
    (hLetter : isLetter c = true) :
    isWord c = true := by
  unfold isWord
  rw [hLetter, Bool.true_or]

theorem not_space_iff :
    isSpace c = false ↔
      ¬(c == 10) = true ∧ ¬isBlank c = true := by
  unfold isSpace
  rw [Bool.or_eq_false_iff, Bool.not_eq_true,
    Bool.not_eq_true]

theorem not_word_of_space
    (hSpace : isSpace c = true) :
    isWord c = false := by
  unfold isSpace isBlank at hSpace
  simp only [Bool.or_eq_true, beq_iff_eq] at hSpace
  rcases hSpace with rfl | (rfl | rfl) | rfl <;> decide

theorem not_digit_of_space
    (hSpace : isSpace c = true) :
    isDigit c = false := by
  have hNot := not_word_of_space hSpace
  unfold isWord at hNot
  rw [Bool.or_eq_false_iff] at hNot
  exact hNot.2

theorem not_continues_of_space
    (prev : UInt8)
    (hSpace : isSpace c = true) :
    continues prev c = false := by
  unfold isSpace isBlank at hSpace
  simp only [Bool.or_eq_true, beq_iff_eq] at hSpace
  rcases hSpace with rfl | (rfl | rfl) | rfl <;> rfl

/- What does not go on where read does not where written. -/
theorem Follows.stops
    {f : UInt8 → Bool}
    (hFollows : Follows r q)
    (hSpace : ∀ b, isSpace b = true → f b = false)
    (hStop : r.head?.any f = false) :
    q.head?.any f = false := by
  rcases hFollows with rfl | ⟨b, hB, hHead⟩ | hHead
  · rfl
  · rw [hHead]
    exact hSpace b hB
  · rwa [hHead]

theorem numberRest_split :
    (numberRest prev p).1 ++ (numberRest prev p).2 = p := by
  induction p generalizing prev with
  | nil => rfl
  | cons c p ih =>
      rw [numberRest]
      split
      · rw [List.cons_append, ih]
      · rfl

theorem numberRest_again
    (hRead : numberRest prev p = (t, r))
    (hFollows : Follows r q) :
    numberRest prev (t ++ q) = (t, q) := by
  induction p generalizing prev t with
  | nil =>
      cases hRead
      have hStop := hFollows.stops
        (fun b => not_continues_of_space prev) rfl
      cases q with
      | nil => rfl
      | cons b q =>
          rw [List.nil_append, numberRest]
          rw [List.head?_cons, Option.any_some] at hStop
          rw [if_neg (by rw [hStop]; decide)]
  | cons c p ih =>
      rw [numberRest] at hRead
      split at hRead
      · rename_i hGoes
        cases hRead
        rw [List.cons_append, numberRest, if_pos hGoes,
          ih rfl]
      · rename_i hEnds
        cases hRead
        have hStop := hFollows.stops
          (fun b => not_continues_of_space prev)
          (by simpa using hEnds)
        cases q with
        | nil => rfl
        | cons b q =>
            rw [List.nil_append, numberRest]
            rw [List.head?_cons, Option.any_some] at hStop
            rw [if_neg (by rw [hStop]; decide)]

/- A run of characters, and what stops it. -/
theorem takeWhile_stop
    {f : UInt8 → Bool}
    (hAll : ∀ c ∈ t, f c = true)
    (hStop : q.head?.any f = false) :
    (t ++ q).takeWhile f = t ∧ (t ++ q).dropWhile f = q := by
  have hTake : q.takeWhile f = [] := by
    cases q with
    | nil => rfl
    | cons b q =>
        rw [List.head?_cons, Option.any_some] at hStop
        rw [List.takeWhile_cons, hStop]
        rfl
  have hDrop : q.dropWhile f = q := by
    cases q with
    | nil => rfl
    | cons b q =>
        rw [List.head?_cons, Option.any_some] at hStop
        rw [List.dropWhile_cons, hStop]
        rfl
  rw [List.takeWhile_append_of_pos hAll,
    List.dropWhile_append_of_pos hAll, hTake, hDrop,
    List.append_nil]
  exact ⟨rfl, rfl⟩

theorem literalRest_split
    (hRead : literalRest quote p = some (t, r)) :
    t ++ r = p := by
  fun_induction literalRest quote p generalizing t with
  | case3 c p hLine hQuote =>
      cases hRead
      rfl
  | case6 c hLine hQuote hSlash d p hEnd ih =>
      obtain ⟨t', hRest, hEq⟩ := Option.map_eq_some_iff.mp hRead
      cases hEq
      rw [List.cons_append, List.cons_append, ih hRest]
  | case7 c p hLine hQuote hSlash ih =>
      obtain ⟨t', hRest, hEq⟩ := Option.map_eq_some_iff.mp hRead
      cases hEq
      rw [List.cons_append, ih hRest]
  | _ => cases hRead

theorem literalRest_close
    (hLine : ¬(c == 10) = true)
    (hQuote : (c == quote) = true) :
    literalRest quote (c :: p) = some ([c], p) := by
  rw [literalRest.eq_def]
  dsimp only
  rw [if_neg hLine, if_pos hQuote]

theorem literalRest_escape
    {d : UInt8}
    (hLine : ¬(c == 10) = true)
    (hQuote : ¬(c == quote) = true)
    (hSlash : (c == 92) = true)
    (hEnd : ¬(d == 10) = true) :
    literalRest quote (c :: d :: p) =
      (literalRest quote p).map
        (fun t => (c :: d :: t.1, t.2)) := by
  rw [literalRest.eq_def]
  dsimp only
  rw [if_neg hLine, if_neg hQuote, if_pos hSlash,
    if_neg hEnd]

theorem literalRest_next
    (hLine : ¬(c == 10) = true)
    (hQuote : ¬(c == quote) = true)
    (hSlash : ¬(c == 92) = true) :
    literalRest quote (c :: p) =
      (literalRest quote p).map
        (fun t => (c :: t.1, t.2)) := by
  rw [literalRest.eq_def]
  dsimp only
  rw [if_neg hLine, if_neg hQuote, if_neg hSlash]

/- A literal ends by itself. -/
theorem literalRest_again
    (hRead : literalRest quote p = some (t, r))
    (q : List UInt8) :
    literalRest quote (t ++ q) = some (t, q) := by
  fun_induction literalRest quote p generalizing t with
  | case3 c p hLine hQuote =>
      cases hRead
      exact literalRest_close hLine hQuote
  | case6 c hLine hQuote hSlash d p hEnd ih =>
      obtain ⟨t', hRest, hEq⟩ := Option.map_eq_some_iff.mp hRead
      cases hEq
      rw [List.cons_append, List.cons_append,
        literalRest_escape hLine hQuote hSlash hEnd,
        ih hRest]
      rfl
  | case7 c p hLine hQuote hSlash ih =>
      obtain ⟨t', hRest, hEq⟩ := Option.map_eq_some_iff.mp hRead
      cases hEq
      rw [List.cons_append,
        literalRest_next hLine hQuote hSlash, ih hRest]
      rfl
  | _ => cases hRead

theorem commentRest_split
    (hRead : commentRest p = some (t, r)) :
    t ++ 42 :: 47 :: r = p := by
  fun_induction commentRest p generalizing t with
  | case3 c d p hEnd =>
      cases hRead
      rw [Bool.and_eq_true, beq_iff_eq, beq_iff_eq] at hEnd
      rw [hEnd.1, hEnd.2, List.nil_append]
  | case4 c d p hEnd ih =>
      obtain ⟨u, hRest, hEq⟩ := Option.map_eq_some_iff.mp hRead
      cases hEq
      rw [List.cons_append, ih hRest]
  | _ => cases hRead

/- A token is a piece of the text. -/
theorem tokenAt_split
    (hRead : tokenAt c p = some (t, r)) :
    ∃ t', t = c :: t' ∧ t' ++ r = p := by
  unfold tokenAt at hRead
  split at hRead
  · cases hRead
    exact ⟨_, rfl, List.takeWhile_append_dropWhile⟩
  · split at hRead
    · cases hRead
      exact ⟨_, rfl, numberRest_split⟩
    · split at hRead
      · obtain ⟨u, hRest, hEq⟩ :=
          Option.map_eq_some_iff.mp hRead
        cases hEq
        exact ⟨_, rfl, literalRest_split hRest⟩
      · cases hRead
        exact ⟨[], rfl, rfl⟩

theorem dropWhile_stops
    (f : UInt8 → Bool)
    (p : List UInt8) :
    (p.dropWhile f).head?.any f = false := by
  induction p with
  | nil => rfl
  | cons c p ih =>
      rw [List.dropWhile_cons]
      split
      · exact ih
      · simpa using ‹¬f c = true›

/-
  A token that is written out reads as it did, before white
  space or what it was read before.
-/
theorem tokenAt_again
    (hRead : tokenAt c p = some (c :: t, r))
    (hFollows : Follows r q) :
    tokenAt c (t ++ q) = some (c :: t, q) := by
  unfold tokenAt at hRead ⊢
  split at hRead
  · rename_i hLetter
    cases hRead
    obtain ⟨hTake, hDrop⟩ := takeWhile_stop
      (fun c hMem => List.mem_takeWhile_imp hMem)
      (hFollows.stops (fun b => not_word_of_space)
        (dropWhile_stops isWord p))
    rw [if_pos hLetter, hTake, hDrop]
  · rename_i hLetter
    rw [if_neg hLetter]
    split at hRead
    · rename_i hNumber
      cases hRead
      have hAgain := numberRest_again rfl hFollows
      have hDot : (isDigit c || c == 46 &&
          ((numberRest c p).1 ++ q).head?.any isDigit) =
            true := by
        cases p with
        | nil =>
            simp only [List.head?_nil, Option.any_none,
              Bool.and_false, Bool.or_false] at hNumber
            rw [hNumber, Bool.true_or]
        | cons d p =>
            rw [Bool.or_eq_true, Bool.and_eq_true] at hNumber
            rcases hNumber with hDigit | ⟨hDot, hDigit⟩
            · rw [hDigit, Bool.true_or]
            · rw [List.head?_cons, Option.any_some] at hDigit
              have hGoes : continues c d = true := by
                unfold continues
                rw [hDigit, Bool.or_true, Bool.true_or,
                  Bool.true_or]
              rw [numberRest, if_pos hGoes, List.cons_append,
                List.head?_cons, Option.any_some, hDot,
                hDigit, Bool.and_self, Bool.or_true]
      rw [if_pos hDot, hAgain]
    · rename_i hNumber
      split at hRead
      · rename_i hQuote
        obtain ⟨u, hRest, hEq⟩ :=
          Option.map_eq_some_iff.mp hRead
        cases hEq
        have hNot : ¬(isDigit c || c == 46 &&
            (u.1 ++ q).head?.any isDigit) = true := by
          rw [Bool.or_eq_true, beq_iff_eq, beq_iff_eq]
            at hQuote
          rcases hQuote with rfl | rfl <;> simp [isDigit]
        rw [if_neg hNot, if_pos hQuote,
          literalRest_again hRest]
        rfl
      · rename_i hQuote
        cases hRead
        rw [List.nil_append]
        have hNot : ¬(isDigit c || c == 46 &&
            q.head?.any isDigit) = true := by
          rw [Bool.not_eq_true, Bool.or_eq_false_iff]
            at hNumber ⊢
          refine ⟨hNumber.1, ?_⟩
          cases hDot : c == 46 with
          | false => rfl
          | true =>
              rw [hDot, Bool.true_and] at hNumber
              rw [Bool.true_and]
              exact hFollows.stops
                (fun b => not_digit_of_space) hNumber.2
        rw [if_neg hNot, if_neg hQuote]

theorem lexeme_cons
    (c : UInt8)
    (p : List UInt8) :
    lexeme (c :: p) =
      if c == 10 then some (.newline, p)
      else if isBlank c then some (.blank, p)
      else if c == 47 && p.head? == some 47 then
        some (.comment 0, p.dropWhile (· != 10))
      else if c == 47 && p.head? == some 42 then
        (commentRest p.tail).map
          (fun t => (.comment (t.1.count 10), t.2))
      else (tokenAt c p).map (fun t => (.token t.1, t.2)) :=
  rfl

/- What the front of a text can be. -/
theorem lexeme_cases
    {k : Lexeme}
    (hRead : lexeme (c :: p) = some (k, r)) :
    (c = 10 ∧ k = .newline ∧ r = p) ∨
      (isBlank c = true ∧ k = .blank ∧ r = p) ∨
      (∃ feeds, k = .comment feeds) ∨
      ∃ t, k = .token t ∧ isSpace c = false ∧
        ¬(c == 47 && p.head? == some 47) = true ∧
        ¬(c == 47 && p.head? == some 42) = true ∧
          tokenAt c p = some (t, r) := by
  rw [lexeme_cons] at hRead
  split at hRead
  · rename_i hFeed
    cases hRead
    exact .inl ⟨beq_iff_eq.mp hFeed, rfl, rfl⟩
  rename_i hFeed
  split at hRead
  · rename_i hBlank
    cases hRead
    exact .inr (.inl ⟨hBlank, rfl, rfl⟩)
  rename_i hBlank
  split at hRead
  · cases hRead
    exact .inr (.inr (.inl ⟨0, rfl⟩))
  rename_i hLine
  split at hRead
  · obtain ⟨u, -, hEq⟩ := Option.map_eq_some_iff.mp hRead
    cases hEq
    exact .inr (.inr (.inl ⟨_, rfl⟩))
  · rename_i hComment
    obtain ⟨u, hToken, hEq⟩ :=
      Option.map_eq_some_iff.mp hRead
    cases hEq
    exact .inr (.inr (.inr ⟨u.1, rfl,
      not_space_iff.mpr ⟨hFeed, hBlank⟩, hLine, hComment,
      hToken⟩))

/- What starts with a token is no white space or comment. -/
theorem lexeme_token
    (hRead : lexeme (c :: p) = some (.token t, r)) :
    isSpace c = false ∧
      ¬(c == 47 && p.head? == some 47) = true ∧
        ¬(c == 47 && p.head? == some 42) = true ∧
          tokenAt c p = some (t, r) := by
  rcases lexeme_cases hRead with ⟨-, hEq, -⟩ |
    ⟨-, hEq, -⟩ | ⟨feeds, hEq⟩ | ⟨t', hEq, hToken⟩
  · cases hEq
  · cases hEq
  · cases hEq
  · cases hEq
    exact hToken

theorem lexeme_of_token
    (hSpace : isSpace c = false)
    (hLine : ¬(c == 47 && p.head? == some 47) = true)
    (hComment : ¬(c == 47 && p.head? == some 42) = true)
    (hToken : tokenAt c p = some (t, r)) :
    lexeme (c :: p) = some (.token t, r) := by
  obtain ⟨hFeed, hBlank⟩ := not_space_iff.mp hSpace
  rw [lexeme_cons, if_neg hFeed, if_neg hBlank, if_neg hLine,
    if_neg hComment, hToken]
  rfl

/- A slash that was no comment becomes none. -/
theorem Follows.apart
    {d : UInt8}
    (hFollows : Follows r q)
    (hSpace : isSpace d = false)
    (hNot : ¬(c == 47 && r.head? == some d) = true) :
    ¬(c == 47 && q.head? == some d) = true := by
  rw [Bool.and_eq_true, beq_iff_eq, beq_iff_eq] at hNot ⊢
  rintro ⟨hSlash, hHead⟩
  rcases hFollows with rfl | ⟨b, hB, hQ⟩ | hQ
  · cases hHead
  · rw [hQ, Option.some.injEq] at hHead
    rw [hHead, hSpace] at hB
    cases hB
  · exact hNot ⟨hSlash, hQ ▸ hHead⟩

/-
  The same for the front of a text: what follows must be as
  before, or white space.
-/
theorem lexeme_again
    (hRead : lexeme p = some (.token t, r))
    (hFollows : Follows r q) :
    lexeme (t ++ q) = some (.token t, q) := by
  cases p with
  | nil => cases hRead
  | cons c p =>
      obtain ⟨hSpace, hLine, hComment, hToken⟩ :=
        lexeme_token hRead
      obtain ⟨t', rfl, rfl⟩ := tokenAt_split hToken
      have hAgain := tokenAt_again hToken hFollows
      rw [List.cons_append]
      refine lexeme_of_token hSpace ?_ ?_ hAgain
      · cases t' with
        | nil => exact hFollows.apart (by decide) hLine
        | cons d t' => exact hLine
      · cases t' with
        | nil => exact hFollows.apart (by decide) hComment
        | cons d t' => exact hComment

theorem lexeme_newline
    (p : List UInt8) :
    lexeme (10 :: p) = some (.newline, p) := rfl

theorem lexeme_blank
    (hBlank : isBlank c = true)
    (p : List UInt8) :
    lexeme (c :: p) = some (.blank, p) := by
  rw [lexeme_cons]
  have hLine : ¬(c == 10) = true := by
    rw [beq_iff_eq]
    rintro rfl
    cases hBlank
  rw [if_neg hLine, if_pos hBlank]

/- A comment to the end of its line. -/
theorem lexeme_line_comment
    (hLine : (c == 47 && p.head? == some 47) = true) :
    lexeme (c :: p) =
      some (.comment 0, p.dropWhile (· != 10)) := by
  have hSlash := (Bool.and_eq_true_iff.mp hLine).1
  rw [lexeme_cons, if_neg, if_neg, if_pos hLine]
  · rw [beq_iff_eq.mp hSlash]
    decide
  · rw [beq_iff_eq.mp hSlash]
    decide

/- A comment to its end. -/
theorem lexeme_comment
    (hComment : (c == 47 && p.head? == some 42) = true)
    (hRest : commentRest p.tail = some (t, r)) :
    lexeme (c :: p) = some (.comment (t.count 10), r) := by
  obtain ⟨hSlash, hStar⟩ := Bool.and_eq_true_iff.mp hComment
  rw [lexeme_cons, if_neg, if_neg, if_neg, if_pos hComment,
    hRest]
  · rfl
  · rw [beq_iff_eq.mp hStar]
    rw [Bool.and_eq_true]
    exact fun hBoth => absurd hBoth.2 (by decide)
  · rw [beq_iff_eq.mp hSlash]
    decide
  · rw [beq_iff_eq.mp hSlash]
    decide

theorem commentRest_less
    (hRest : commentRest p.tail = some (t, r)) :
    r.length < p.length := by
  have hCount := congrArg List.length (commentRest_split hRest)
  rw [List.length_append, List.length_cons, List.length_cons,
    List.length_tail] at hCount
  omega

/- Comments within a line: no line ends in them. -/
theorem lexeme_line_comment_last
    (hNone : 10 ∉ p)
    (hLine : (c == 47 && p.head? == some 47) = true) :
    lexeme (c :: p) = some (.comment 0, []) := by
  have hDrop : p.dropWhile (· != 10) = [] := by
    rw [List.dropWhile_eq_nil_iff]
    intro b hMem
    rw [bne_iff_ne]
    rintro rfl
    exact hNone hMem
  rw [lexeme_line_comment hLine, hDrop]

theorem lexeme_comment_within
    (hNone : 10 ∉ p)
    (hComment : (c == 47 && p.head? == some 42) = true)
    (hRest : commentRest p.tail = some (t, r)) :
    lexeme (c :: p) = some (.comment 0, r) ∧ 10 ∉ r := by
  have hSplit := commentRest_split hRest
  have hIn : ∀ b ∈ p.tail, b ∈ p :=
    fun b hMem => List.mem_of_mem_tail hMem
  have hNoneT : 10 ∉ t := fun hMem => hNone
    (hIn _ (hSplit ▸ List.mem_append_left _ hMem))
  have hRead := lexeme_comment hComment hRest
  rw [List.count_eq_zero_of_not_mem hNoneT] at hRead
  exact ⟨hRead, fun hMem => hNone
    (hIn _ (hSplit ▸ List.mem_append_right _
      (List.mem_cons_of_mem _
        (List.mem_cons_of_mem _ hMem))))⟩

theorem lexeme_newline_iff :
    lexeme p = some (.newline, r) ↔ p = 10 :: r := by
  constructor
  · intro hRead
    cases p with
    | nil => cases hRead
    | cons c p =>
        rcases lexeme_cases hRead with ⟨rfl, -, rfl⟩ |
          ⟨-, hEq, -⟩ | ⟨feeds, hEq⟩ | ⟨t, hEq, -⟩
        · rfl
        · cases hEq
        · cases hEq
        · cases hEq
  · rintro rfl
    rfl

theorem lexeme_blank_iff :
    lexeme p = some (.blank, r) ↔
      ∃ c, isBlank c = true ∧ p = c :: r := by
  constructor
  · intro hRead
    cases p with
    | nil => cases hRead
    | cons c p =>
        rcases lexeme_cases hRead with ⟨-, hEq, -⟩ |
          ⟨hBlank, -, rfl⟩ | ⟨feeds, hEq⟩ | ⟨t, hEq, -⟩
        · cases hEq
        · exact ⟨c, hBlank, rfl⟩
        · cases hEq
        · cases hEq
  · rintro ⟨c, hBlank, rfl⟩
    exact lexeme_blank hBlank r

/- A literal ends with its quote. -/
theorem literalRest_last
    (hRead : literalRest quote p = some (t, r)) :
    t.getLast? = some quote := by
  fun_induction literalRest quote p generalizing t with
  | case3 c p hLine hQuote =>
      cases hRead
      rw [List.getLast?_singleton, beq_iff_eq.mp hQuote]
  | case6 c hLine hQuote hSlash d p hEnd ih =>
      obtain ⟨t', hRest, hEq⟩ := Option.map_eq_some_iff.mp hRead
      cases hEq
      rw [List.getLast?_cons, List.getLast?_cons, ih hRest]
      rfl
  | case7 c p hLine hQuote hSlash ih =>
      obtain ⟨t', hRest, hEq⟩ := Option.map_eq_some_iff.mp hRead
      cases hEq
      rw [List.getLast?_cons, ih hRest]
      rfl
  | _ => cases hRead

theorem numberRest_mem
    {b : UInt8}
    (hMem : b ∈ (numberRest prev p).1) :
    ∃ prev, continues prev b = true := by
  induction p generalizing prev with
  | nil => cases hMem
  | cons c p ih =>
      rw [numberRest] at hMem
      split at hMem
      · rename_i hGoes
        rcases List.mem_cons.mp hMem with rfl | hRest
        · exact ⟨prev, hGoes⟩
        · exact ih hRest
      · cases hMem

/- A token does not end in white space. -/
theorem tokenAt_last
    {b : UInt8}
    (hSpace : isSpace c = false)
    (hRead : tokenAt c p = some (t, r))
    (hLast : t.getLast? = some b) :
    isSpace b = false := by
  have hMem := List.mem_of_getLast? hLast
  unfold tokenAt at hRead
  split at hRead
  · rename_i hLetter
    cases hRead
    have hWord : isWord b = true := by
      rcases List.mem_cons.mp hMem with rfl | hRest
      · exact word_of_letter hLetter
      · exact List.mem_takeWhile_imp hRest
    by_contra hNot
    rw [Bool.not_eq_false] at hNot
    rw [not_word_of_space hNot] at hWord
    cases hWord
  · split at hRead
    · cases hRead
      rcases List.mem_cons.mp hMem with rfl | hRest
      · exact hSpace
      · obtain ⟨prev, hGoes⟩ := numberRest_mem hRest
        by_contra hNot
        rw [Bool.not_eq_false] at hNot
        rw [not_continues_of_space prev hNot] at hGoes
        cases hGoes
    · split at hRead
      · obtain ⟨u, hRest, hEq⟩ :=
          Option.map_eq_some_iff.mp hRead
        cases hEq
        rw [List.getLast?_cons, literalRest_last hRest]
          at hLast
        cases hLast
        exact hSpace
      · cases hRead
        cases hLast
        exact hSpace

end Again

--
-- Texts As Tokens
--

/-
  A place between two characters: its line, and whether a
  token ends here.
-/
structure Place where
  line : Nat
  joined : Bool

/- A token, its line, and whether it touches another. -/
structure Tok where
  text : List UInt8
  line : Nat
  joined : Bool

/-
  The text from one place to another has these tokens. With
  `remarks`, comments count as white space; without, there
  are none.
-/
inductive Lexed
    (remarks : Bool) :
    Place → List UInt8 → List Tok → Place → Prop where
  | done (s : Place) :
      Lexed remarks s [] [] s
  | newline
      {s s' : Place}
      {p r : List UInt8}
      {toks : List Tok}
      (hRead : lexeme p = some (.newline, r))
      (hRest : Lexed remarks ⟨s.line + 1, false⟩ r toks s') :
      Lexed remarks s p toks s'
  | blank
      {s s' : Place}
      {p r : List UInt8}
      {toks : List Tok}
      (hRead : lexeme p = some (.blank, r))
      (hRest : Lexed remarks ⟨s.line, false⟩ r toks s') :
      Lexed remarks s p toks s'
  | comment
      {s s' : Place}
      {p r : List UInt8}
      {toks : List Tok}
      {feeds : Nat}
      (hRemarks : remarks = true)
      (hRead : lexeme p = some (.comment feeds, r))
      (hRest :
        Lexed remarks ⟨s.line + feeds, false⟩ r toks s') :
      Lexed remarks s p toks s'
  | token
      {s s' : Place}
      {p r t : List UInt8}
      {toks : List Tok}
      (hRead : lexeme p = some (.token t, r))
      (hRest : Lexed remarks ⟨s.line, true⟩ r toks s') :
      Lexed remarks s p (⟨t, s.line, s.joined⟩ :: toks) s'

section Lexed

variable {remarks : Bool} {s s' s'' : Place}
variable {p q r t : List UInt8} {toks more : List Tok}

/- A text has its tokens in one way. -/
theorem Lexed.unique
    (hLexed : Lexed remarks s p toks s')
    (hMore : Lexed remarks s p more s'') :
    toks = more ∧ s' = s'' := by
  induction hLexed generalizing more with
  | done s =>
      cases hMore with
      | done => exact ⟨rfl, rfl⟩
      | newline hRead => cases hRead
      | blank hRead => cases hRead
      | comment hRemarks hRead => cases hRead
      | token hRead => cases hRead
  | newline hRead hRest ih =>
      cases hMore with
      | done => cases hRead
      | newline hRead' hRest' =>
          cases hRead.symm.trans hRead'
          exact ih hRest'
      | blank hRead' => cases hRead.symm.trans hRead'
      | comment hRemarks hRead' =>
          cases hRead.symm.trans hRead'
      | token hRead' => cases hRead.symm.trans hRead'
  | blank hRead hRest ih =>
      cases hMore with
      | done => cases hRead
      | blank hRead' hRest' =>
          cases hRead.symm.trans hRead'
          exact ih hRest'
      | newline hRead' => cases hRead.symm.trans hRead'
      | comment hRemarks hRead' =>
          cases hRead.symm.trans hRead'
      | token hRead' => cases hRead.symm.trans hRead'
  | comment hRemarks hRead hRest ih =>
      cases hMore with
      | done => cases hRead
      | comment hRemarks hRead' hRest' =>
          cases hRead.symm.trans hRead'
          exact ih hRest'
      | newline hRead' => cases hRead.symm.trans hRead'
      | blank hRead' => cases hRead.symm.trans hRead'
      | token hRead' => cases hRead.symm.trans hRead'
  | token hRead hRest ih =>
      cases hMore with
      | done => cases hRead
      | token hRead' hRest' =>
          cases hRead.symm.trans hRead'
          obtain ⟨rfl, rfl⟩ := ih hRest'
          exact ⟨rfl, rfl⟩
      | newline hRead' => cases hRead.symm.trans hRead'
      | blank hRead' => cases hRead.symm.trans hRead'
      | comment hRemarks hRead' =>
          cases hRead.symm.trans hRead'

/- White space, or nothing, starts a text. -/
def StartsApart (q : List UInt8) : Prop :=
  q = [] ∨ ∃ b, isSpace b = true ∧ q.head? = some b

theorem StartsApart.follows
    (hApart : StartsApart q)
    (r : List UInt8) :
    Follows r (r ++ q) := by
  cases r with
  | nil => exact hApart.imp_right .inl
  | cons b r => exact .inr (.inr rfl)

/- A text without comments, then one that starts apart. -/
theorem Lexed.append
    (hLexed : Lexed false s p toks s')
    (hMore : Lexed false s' q more s'')
    (hApart : StartsApart q) :
    Lexed false s (p ++ q) (toks ++ more) s'' := by
  induction hLexed with
  | done s => exact hMore
  | newline hRead hRest ih =>
      obtain rfl := lexeme_newline_iff.mp hRead
      exact .newline rfl (ih hMore)
  | blank hRead hRest ih =>
      obtain ⟨c, hBlank, rfl⟩ := lexeme_blank_iff.mp hRead
      exact .blank (lexeme_blank hBlank _) (ih hMore)
  | comment hRemarks => cases hRemarks
  | @token s s' p r t toks hRead hRest ih =>
      have hAgain := lexeme_again hRead (hApart.follows r)
      have hSplit : p = t ++ r := by
        cases p with
        | nil => cases hRead
        | cons c p =>
            obtain ⟨-, -, -, hToken⟩ := lexeme_token hRead
            obtain ⟨t', rfl, rfl⟩ := tokenAt_split hToken
            rfl
      rw [hSplit, List.append_assoc]
      exact .token hAgain (ih hMore)

/- A blank at the end of a text is no part of a token. -/
theorem Lexed.trim_one
    {b : UInt8}
    (hBlank : isBlank b = true)
    (hLexed : Lexed false s (p ++ [b]) toks s') :
    ∃ s'', Lexed false s p toks s'' := by
  generalize hText : p ++ [b] = text at hLexed
  induction hLexed generalizing p with
  | done s =>
      exact absurd hText (List.append_ne_nil_of_right_ne_nil p
        (List.cons_ne_nil b []))
  | newline hRead hRest ih =>
      obtain rfl := lexeme_newline_iff.mp hRead
      cases p with
      | nil =>
          cases hText
          cases hBlank
      | cons c p =>
          cases hText
          obtain ⟨s'', hPart⟩ := ih rfl
          exact ⟨s'', .newline rfl hPart⟩
  | blank hRead hRest ih =>
      obtain ⟨c, hC, rfl⟩ := lexeme_blank_iff.mp hRead
      cases p with
      | nil =>
          cases hText
          cases hRest with
          | done => exact ⟨_, .done _⟩
          | newline hRead => cases hRead
          | blank hRead => cases hRead
          | comment hRemarks => cases hRemarks
          | token hRead => cases hRead
      | cons d p =>
          cases hText
          obtain ⟨s'', hPart⟩ := ih rfl
          exact ⟨s'', .blank (lexeme_blank hC p) hPart⟩
  | comment hRemarks => cases hRemarks
  | @token s s' q r t toks hRead hRest ih =>
      cases q with
      | nil => cases hRead
      | cons c q =>
          obtain ⟨hSpace, -, -, hToken⟩ := lexeme_token hRead
          obtain ⟨t', rfl, rfl⟩ := tokenAt_split hToken
          rcases List.eq_nil_or_concat r with rfl |
            ⟨r', e, rfl⟩
          · have hLast : (c :: t').getLast? = some b := by
              rw [List.append_nil] at hText
              rw [← hText, List.getLast?_concat]
            have hNot := tokenAt_last hSpace hToken hLast
            unfold isSpace at hNot
            rw [hBlank, Bool.or_true] at hNot
            cases hNot
          · rw [List.concat_eq_append, ← List.cons_append,
              ← List.append_assoc] at hText
            obtain ⟨rfl, hEnd⟩ := List.append_inj' hText rfl
            cases hEnd
            rw [List.concat_eq_append] at ih hRead
            obtain ⟨s'', hPart⟩ := ih rfl
            refine ⟨s'', .token (lexeme_again hRead ?_) hPart⟩
            cases r' with
            | nil => exact .inl rfl
            | cons d r' => exact .inr (.inr rfl)

/- So the blanks at the end of a text can go. -/
theorem Lexed.trim
    (hLexed : Lexed false s p toks s') :
    ∃ s'', Lexed false s (p.rdropWhile isBlank) toks s'' := by
  induction p using List.reverseRecOn generalizing s' with
  | nil => exact ⟨s', hLexed⟩
  | append_singleton p b ih =>
      rw [List.rdropWhile_concat]
      split
      · rename_i hBlank
        obtain ⟨s'', hPart⟩ := hLexed.trim_one hBlank
        exact ih hPart
      · exact ⟨s', hLexed⟩

/- Blanks before a text. -/
theorem Lexed.indent
    {line : Nat}
    (hBlanks : ∀ c ∈ q, isBlank c = true)
    (hLexed : Lexed remarks ⟨line, false⟩ p toks s') :
    Lexed remarks ⟨line, false⟩ (q ++ p) toks s' := by
  induction q with
  | nil => exact hLexed
  | cons c q ih =>
      exact .blank
        (lexeme_blank (hBlanks c List.mem_cons_self) _)
        (ih (fun c hMem =>
          hBlanks c (List.mem_cons_of_mem _ hMem)))

end Lexed

end Lexical
