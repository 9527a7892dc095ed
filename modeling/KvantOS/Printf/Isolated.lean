import KvantOS.Printf.Buffers

/-
  This file models `format` of the isolated runtime, from
  the source file `mcc_runtime.c`, and proves that it runs
  the documented conversions piece by piece, as the kernel
  does.

  Key definitions include:
    * `Isolated.emitChar`, `Isolated.format`, `apiFormat`

  Key theorems include:
    * `Isolated.pushNumber_eq`, `Isolated.emitChar_text`
-/

namespace KvantOS.Printf

/- `api_format`, for a target with `size_t` of `bits` bits. -/
def apiFormat
    (bits : Nat)
    (buf : Buf)
    (size : UInt32)
    (fmt : CStr)
    (args : List Arg) : Except Fault Buf :=
  kvsnprintfV bits buf size.toNat fmt args

namespace Isolated

--
-- The Runtime
--

/- `d` and `used`. -/
structure Out where
  buf : Buf
  used : Nat

/- `emit_char`. -/
def emitChar
    (size : Nat)
    (c : UInt8)
    (o : Out) : Except Fault Out :=
  if size ≠ 0 ∧ o.used < size - 1 then
    .ok ⟨Function.update o.buf o.used c, o.used + 1⟩
  else
    .ok o

/- The loop that fills `number`, which has 16 bytes. -/
def pushNumber
    (base : Nat) :
    (turns n : Nat) → List UInt8 → Except Fault (List UInt8)
  | 0, _, number => .ok number
  | turns + 1, n, number =>
      if number.length < 16 then
        let number :=
          number ++ [(digits false).getD (n % base) 0]
        if n / base = 0 then
          .ok number
        else
          pushNumber base turns (n / base) number
      else
        .error .overrun

/- The sign of a number. -/
def emitSign
    (size : Nat)
    (neg : Bool)
    (o : Out) : Except Fault Out :=
  if neg then emitChar size (ch '-') o else .ok o

/- The branch for `%d`, `%u` and `%x`. -/
def emitNumber
    (size : Nat)
    (spec : UInt8)
    (n : UInt32)
    (o : Out) : Except Fault Out := do
  let base := if spec == ch 'x' then 16 else 10
  let neg := spec == ch 'd' && 0x80000000 ≤ n
  let o ← emitSign size neg o
  let n := if neg then 0 - n else n
  let number ← pushNumber base 32 n.toNat []
  emitAll (emitChar size) number.reverse o

/- One conversion. -/
def convert
    (size : Nat)
    (spec : UInt8)
    (args : List Arg)
    (o : Out) : Except Fault (List Arg × Out) :=
  if spec = ch 's' then do
    let (s, args) ← vaStr args
    let o ← emitAll (emitChar size) (s.getD nullText).bytes o
    .ok (args, o)
  else if spec = ch 'c' then do
    let (v, args) ← vaWord args
    let o ← emitChar size v.toUInt8 o
    .ok (args, o)
  else if spec = ch '%' then do
    let o ← emitChar size (ch '%') o
    .ok (args, o)
  else if spec = ch 'd' ∨ spec = ch 'u' ∨ spec = ch 'x' then do
    let (n, args) ← vaWord args
    let o ← emitNumber size spec n o
    .ok (args, o)
  else do
    let o ← emitChar size (ch '%') o
    let o ← emitChar size spec o
    .ok (args, o)

/- The loop over the format. -/
def formatLoop
    (size : Nat) :
    (turns : Nat) → List UInt8 → List Arg → Out →
      Except Fault Out
  | 0, _, _, o => .ok o
  | _ + 1, [], _, o => .ok o
  | turns + 1, c :: p, args, o =>
      if c != ch '%' then do
        let o ← emitChar size c o
        formatLoop size turns p args o
      else
        match p with
        | [] => .ok o
        | spec :: p => do
            let (args, o) ← convert size spec args o
            formatLoop size turns p args o

/- `if(size)d[used]=0`. -/
def Out.closed
    (size : Nat)
    (o : Out) : Buf :=
  if size = 0 then o.buf else Function.update o.buf o.used 0

def format
    (buf : Buf)
    (size : UInt32)
    (fmt : CStr)
    (args : List Arg) : Except Fault Buf := do
  let o ← formatLoop size.toNat fmt.length fmt.bytes args
    ⟨buf, 0⟩
  .ok (o.closed size.toNat)

--
-- Conversions
--

/- The digits in `number`, of zero too. -/
def numberDigits (base n : Nat) : List Nat :=
  if n = 0 then [0] else Nat.digits base n

theorem numberDigits_step
    {base n : Nat}
    (hBase : 2 ≤ base) :
    numberDigits base n = n % base ::
      (if n / base = 0 then []
        else numberDigits base (n / base)) := by
  unfold numberDigits
  by_cases hZero : n = 0
  · subst hZero
    rw [if_pos rfl, Nat.zero_mod, Nat.zero_div, if_pos rfl]
  · rw [if_neg hZero, Nat.digits_def' hBase (by omega)]
    by_cases hLast : n / base = 0
    · rw [if_pos hLast, hLast, Nat.digits_zero]
    · rw [if_neg hLast, if_neg hLast]

theorem pushNumber_eq
    {base turns n : Nat}
    {number : List UInt8}
    (hBase : 2 ≤ base)
    (hTurns : (numberDigits base n).length ≤ turns)
    (hRoom : number.length +
      (numberDigits base n).length ≤ 16) :
    pushNumber base turns n number =
      .ok (number ++ (numberDigits base n).map
        (fun d => (digits false).getD d 0)) := by
  induction turns generalizing n number with
  | zero =>
      rw [numberDigits_step hBase, List.length_cons] at hTurns
      exact absurd hTurns (Nat.not_succ_le_zero _)
  | succ turns ih =>
      rw [numberDigits_step hBase, List.length_cons]
        at hTurns hRoom
      rw [pushNumber, if_pos (by omega),
        numberDigits_step hBase]
      dsimp only
      split
      · rfl
      · rename_i hMore
        rw [if_neg hMore] at hTurns hRoom
        rw [ih (by omega) (by
            rw [List.length_append, List.length_singleton]
            omega),
          List.append_assoc]
        rfl

theorem numberDigits_reverse (base n : Nat) :
    ((numberDigits base n).map
      (fun d => (digits false).getD d 0)).reverse =
        numeral false base n := by
  unfold numberDigits numeral
  split
  · rfl
  · rw [List.map_reverse]

/- A 32-bit number has room in `number`. -/
theorem pushNumber_word
    {base n : Nat}
    (hBase : 10 ≤ base)
    (hBound : n < 2 ^ 32) :
    pushNumber base 32 n [] =
      .ok (numeral false base n).reverse := by
  have hLength : (numberDigits base n).length ≤ 10 := by
    unfold numberDigits
    split
    · decide
    · rw [Nat.digits_length_le_iff (by omega)]
      calc
        n < 10 ^ 10 := by omega
        _ ≤ base ^ 10 := Nat.pow_le_pow_left hBase 10
  rw [pushNumber_eq (by omega) (by omega)
      (by rw [List.length_nil]; omega),
    List.nil_append, ← numberDigits_reverse,
    List.reverse_reverse]

/- The runtime emits the sign and the digits. -/
theorem emitNumber_eq
    (size : Nat)
    (spec : UInt8)
    (n : UInt32)
    (o : Out) :
    emitNumber size spec n o =
      emitAll (emitChar size) (plainNumber false
        (if spec == ch 'x' then 16 else 10)
        (valueOf (spec == ch 'd') n)) o := by
  have hNeg := valueOf_neg (spec == ch 'd') n
  have hAbs := valueOf_natAbs (spec == ch 'd') n
  have hBound := valueOf_bound (spec == ch 'd') n
  unfold emitNumber plainNumber
  dsimp only
  rw [emitAll_append]
  have hSign : emitSign size
      (spec == ch 'd' && decide (0x80000000 ≤ n)) o =
      emitAll (emitChar size)
        (signOf (valueOf (spec == ch 'd') n)) o := by
    unfold emitSign signOf
    by_cases hLess : valueOf (spec == ch 'd') n < 0
    · rw [if_pos (hNeg.mpr hLess), if_pos hLess, emitAll_one]
    · rw [if_neg (fun hSet => hLess (hNeg.mp hSet)),
        if_neg hLess]
      rfl
  rw [hSign]
  refine bind_congr fun o => ?_
  rw [hAbs, pushNumber_word (by split <;> omega) hBound]
  show emitAll _ (List.reverse (List.reverse _)) o = _
  rw [List.reverse_reverse]

/- The kernel does the same without a width. -/
theorem outNum_plain
    {size base : Nat}
    (hBase : 2 ≤ base)
    (o : Out)
    (n : UInt32)
    (isSigned : Bool) :
    outNum (emitChar size) o n base isSigned 0 false false =
      emitAll (emitChar size)
        (plainNumber false base (valueOf isSigned n)) o := by
  rw [outNum_eq hBase, if_pos (by decide)]
  unfold numberText
  rw [Int.toNat_of_nonpos (by omega), List.replicate_zero,
    List.nil_append]

/- The letters that the runtime knows, and the zero flag. -/
def Known (spec : UInt8) : Prop :=
  spec ∈ chars "duxsc%0"

instance : DecidablePred Known :=
  fun _ => inferInstanceAs (Decidable (_ ∈ _))

/- What the runtime does is a conversion without a width. -/
theorem convert_known
    {spec : UInt8}
    (hKnown : Known spec)
    (size : Nat)
    (args : List Arg)
    (o : Out) :
    convert size spec args o =
      Printf.convert (emitChar size) spec false 0 args o := by
  have hNumber : ∀ base isSigned,
      spec = ch 'd' ∨ spec = ch 'u' ∨ spec = ch 'x' →
      switch spec = .num base isSigned false →
      base = (if spec == ch 'x' then 16 else 10) →
      isSigned = (spec == ch 'd') →
      convert size spec args o =
        Printf.convert (emitChar size) spec false 0 args
          o := by
    intro base isSigned hSpec hSwitch hBase hSigned
    unfold convert Printf.convert
    rw [if_neg (by rcases hSpec with rfl | rfl | rfl <;> decide),
      if_neg (by rcases hSpec with rfl | rfl | rfl <;> decide),
      if_neg (by rcases hSpec with rfl | rfl | rfl <;> decide),
      if_pos hSpec, hSwitch]
    have hTwo : 2 ≤ base := by
      rw [hBase]
      split <;> omega
    refine bind_congr fun next => ?_
    obtain ⟨n, rest⟩ := next
    dsimp only
    rw [outNum_plain hTwo, emitNumber_eq, hBase, hSigned]
  unfold Known at hKnown
  have hLetters : chars "duxsc%0" = [ch 'd', ch 'u', ch 'x',
      ch 's', ch 'c', ch '%', ch '0'] := rfl
  rw [hLetters] at hKnown
  simp only [List.mem_cons, List.not_mem_nil, or_false]
    at hKnown
  rcases hKnown with rfl | rfl | rfl | rfl | rfl | rfl | rfl
  · exact hNumber 10 true (.inl rfl) rfl rfl rfl
  · exact hNumber 10 false (.inr (.inl rfl)) rfl rfl rfl
  · exact hNumber 16 false (.inr (.inr rfl)) rfl rfl rfl
  · rfl
  · rfl
  · rfl
  · rfl

/- The text is kept to the size. -/
theorem emitChar_text
    {size used : Nat}
    {buf : Buf}
    {t : List UInt8}
    (hUsed : used ≤ size - 1) :
    emitAll (emitChar size) t ⟨buf, used⟩ =
      .ok ⟨written buf size used t,
        min (used + t.length) (size - 1)⟩ := by
  induction t generalizing buf used with
  | nil =>
      have hSame : written buf size used [] = buf := by
        funext i
        exact if_neg (by rw [List.length_nil]; omega)
      rw [hSame, List.length_nil, Nat.add_zero,
        Nat.min_eq_left hUsed]
      rfl
  | cons c t ih =>
      rw [emitAll_cons, List.length_cons]
      unfold emitChar
      dsimp only
      by_cases hRoom : size ≠ 0 ∧ used < size - 1
      · rw [if_pos hRoom]
        show emitAll (emitChar size) t _ = _
        rw [ih (by omega)]
        have hCons := @written_cons size used buf t c
        rw [if_pos (by omega)] at hCons
        rw [hCons, Nat.add_assoc, Nat.add_comm 1]
      · rw [if_neg hRoom]
        show emitAll (emitChar size) t _ = _
        rw [ih hUsed]
        have hSame : written buf size used t =
            written buf size used (c :: t) := by
          funext i
          unfold written
          rw [if_neg (by omega), if_neg (by omega)]
        rw [hSame, Nat.min_eq_right (by omega),
          Nat.min_eq_right (by omega)]

end Isolated

end KvantOS.Printf
