import Mathlib.Data.Nat.Basic
import Mathlib.Order.Lattice

/-
  This file models a command over the bulk-only transport,
  with a device that answers anything, and proves that only
  a consistent answer is accepted.

  Key definitions include:
    * `usbBotCommand`, `Accepts`, `Refuses`

  Key theorems include:
    * `usbBotCommand_spec`
-/

namespace KvantOS.Usb

def botPut32 (v : UInt32) : List UInt8 :=
  [v.toUInt8, (v >>> 8).toUInt8, (v >>> 16).toUInt8,
    (v >>> 24).toUInt8]

/- `get32`, at an offset of the answer. -/
def botGet32
    (p : Nat → UInt8)
    (at_ : Nat) : UInt32 :=
  (p at_).toUInt32 ||| (p (at_ + 1)).toUInt32 <<< 8 |||
    (p (at_ + 2)).toUInt32 <<< 16 |||
      (p (at_ + 3)).toUInt32 <<< 24

/- What a command is given: a null pointer is no value. -/
structure BotCall where
  io : Bool
  tag : UInt32
  cdb : Option (List UInt8)
  input : Bool
  data : Bool
  size : UInt32

/- What the transport answers, and the bytes of the status. -/
structure BotReplies where
  sent : Int
  moved : Int
  status : Int
  csw : Nat → UInt8

/- What a command does with the transport. -/
inductive BotEvent where
  | send (cbw : List UInt8)
  | move (input : Bool) (size : Nat)
  | status (size : Nat)
  | reset
  deriving DecidableEq

/- The parameter checks. -/
def BotCall.cdb? (call : BotCall) : Option (List UInt8) :=
  call.cdb.filter fun cdb =>
    call.io && cdb.length != 0 && cdb.length ≤ 16 &&
      call.size.toNat ≤ 4096 && (call.size == 0 || call.data)

/- The command block wrapper. -/
def cbwOf
    (call : BotCall)
    (cdb : List UInt8) : List UInt8 :=
  botPut32 0x43425355 ++ botPut32 call.tag ++
    botPut32 call.size ++
      [if call.input then 0x80 else 0, 0,
        UInt8.ofNat cdb.length] ++
        cdb ++ List.replicate (16 - cdb.length) 0

/- The checks of the status, and what is returned. -/
def checkStatus
    (call : BotCall)
    (csw : Nat → UInt8)
    (bytes : Int) : Option Int :=
  let residue := (botGet32 csw 8).toNat
  if botGet32 csw 0 ≠ 0x53425355 ∨ botGet32 csw 4 ≠ call.tag ∨
      1 < csw 12 ∨ call.size.toNat < residue ∨
        call.input = true ∧
          (residue : Int) ≠ call.size.toNat - bytes then none
  else if call.input = false ∧ csw 12 = 0 ∧ residue ≠ 0 then
    none
  else some (if csw 12 ≠ 0 then -2 else bytes)

def bad (events : List BotEvent) : List BotEvent × Int :=
  (events ++ [.reset], -1)

/- The status phase. -/
def statusPhase
    (call : BotCall)
    (replies : BotReplies)
    (events : List BotEvent)
    (bytes : Int) : List BotEvent × Int :=
  let events := events ++ [.status 13]
  if replies.status ≠ 13 then bad events
  else
    match checkStatus call replies.csw bytes with
    | none => bad events
    | some result => (events, result)

/- The data phase, if there is one, and what it moves. -/
def moves (call : BotCall) : List BotEvent :=
  if call.size.toNat ≠ 0 then
    [.move call.input call.size.toNat]
  else []

def movedOf
    (call : BotCall)
    (replies : BotReplies) : Int :=
  if call.size.toNat ≠ 0 then replies.moved else 0

def dataPhase
    (call : BotCall)
    (replies : BotReplies)
    (events : List BotEvent) : List BotEvent × Int :=
  let bytes := movedOf call replies
  let events := events ++ moves call
  if bytes < 0 ∨ call.size.toNat < bytes ∨
      call.input = false ∧ bytes ≠ call.size.toNat then
    bad events
  else statusPhase call replies events bytes

/- `usb_bot_command`: what it does, and what it returns. -/
def usbBotCommand
    (call : BotCall)
    (replies : BotReplies) : List BotEvent × Int :=
  match call.cdb? with
  | none => ([], -1)
  | some cdb =>
      let events := [BotEvent.send (cbwOf call cdb)]
      if replies.sent ≠ 31 then bad events
      else dataPhase call replies events

/- The phases of a command, in order. -/
def phases
    (call : BotCall)
    (cdb : List UInt8) : List BotEvent :=
  [.send (cbwOf call cdb)] ++ moves call ++ [.status 13]

def WellFormed
    (call : BotCall)
    (replies : BotReplies) : Prop :=
  replies.sent = 31 ∧ replies.status = 13 ∧
    botGet32 replies.csw 0 = 0x53425355 ∧
      botGet32 replies.csw 4 = call.tag

/- The status says that `n` bytes have been moved. -/
def Accepts
    (call : BotCall)
    (replies : BotReplies)
    (n : Int) : Prop :=
  WellFormed call replies ∧ replies.csw 12 = 0 ∧
    (botGet32 replies.csw 8).toNat = call.size.toNat - n ∧
      (call.input = false → n = call.size.toNat)

/- The status says that the command has failed. -/
def Refuses
    (call : BotCall)
    (replies : BotReplies) : Prop :=
  WellFormed call replies ∧ replies.csw 12 = 1 ∧
    (botGet32 replies.csw 8).toNat ≤ call.size.toNat ∧
      (call.input = true →
        (botGet32 replies.csw 8).toNat =
          call.size.toNat - movedOf call replies)

variable {call : BotCall} {cdb : List UInt8}

theorem cbwOf_length
    (hCdb : call.cdb? = some cdb) :
    (cbwOf call cdb).length = 31 := by
  obtain ⟨-, hChecks⟩ := Option.filter_eq_some_iff.mp hCdb
  simp only [Bool.and_eq_true, decide_eq_true_eq] at hChecks
  simp only [cbwOf, botPut32, List.length_append,
    List.length_cons, List.length_nil, List.length_replicate]
  omega

/- What is true of a run: it ends well, or with a reset. -/
structure Outcome
    (call : BotCall)
    (replies : BotReplies)
    (cdb : List UInt8)
    (run : List BotEvent × Int) : Prop where
  accepted : 0 ≤ run.2 →
    run.1 = phases call cdb ∧ Accepts call replies run.2
  refused : run.2 = -2 →
    run.1 = phases call cdb ∧ Refuses call replies
  other : ¬ 0 ≤ run.2 → run.2 ≠ -2 →
    run.2 = -1 ∧ ∃ done, done <+: phases call cdb ∧
      run.1 = done ++ [.reset]

variable {replies : BotReplies}

theorem bad_outcome
    {done : List BotEvent}
    (hDone : done <+: phases call cdb) :
    Outcome call replies cdb (bad done) where
  accepted hGe := absurd hGe (show ¬ (0 : Int) ≤ -1 by decide)
  refused hEq := absurd hEq (show ¬ (-1 : Int) = -2 by decide)
  other _ _ := ⟨rfl, done, hDone, rfl⟩

theorem checkStatus_spec
    {csw : Nat → UInt8}
    {bytes result : Int}
    (hCheck : checkStatus call csw bytes = some result) :
    botGet32 csw 0 = 0x53425355 ∧
      botGet32 csw 4 = call.tag ∧
        (botGet32 csw 8).toNat ≤ call.size.toNat ∧
          (call.input = true →
            ((botGet32 csw 8).toNat : Int) =
              call.size.toNat - bytes) ∧
            (csw 12 = 0 ∧ result = bytes ∧
                (call.input = false →
                  (botGet32 csw 8).toNat = 0) ∨
              csw 12 = 1 ∧ result = -2) := by
  unfold checkStatus at hCheck
  dsimp only at hCheck
  split at hCheck
  · cases hCheck
  · rename_i hFirst
    split at hCheck
    · cases hCheck
    · rename_i hSecond
      push Not at hFirst hSecond
      obtain ⟨hSign, hTag, hStatus, hLe, hInput⟩ := hFirst
      obtain rfl := Option.some.inj hCheck
      refine ⟨hSign, hTag, hLe, hInput, ?_⟩
      by_cases hZero : csw 12 = 0
      · exact .inl ⟨hZero, if_neg (not_not.mpr hZero),
          fun hOut => hSecond hOut hZero⟩
      · refine .inr ⟨?_, if_pos hZero⟩
        have hNat := UInt8.le_iff_toNat_le.mp
          (UInt8.not_lt.mp hStatus)
        refine UInt8.toNat_inj.mp ?_
        have hNe : (csw 12).toNat ≠ 0 :=
          fun hEq => hZero (UInt8.toNat_inj.mp hEq)
        change (csw 12).toNat ≤ 1 at hNat
        change (csw 12).toNat = 1
        omega

theorem dataPhase_outcome
    (cdb : List UInt8)
    (hSent : replies.sent = 31) :
    Outcome call replies cdb
      (dataPhase call replies [.send (cbwOf call cdb)]) := by
  unfold dataPhase
  dsimp only
  split
  · exact bad_outcome (List.prefix_append _ _)
  · rename_i hBytes
    push Not at hBytes
    obtain ⟨hGe, hLe, hOut⟩ := hBytes
    unfold statusPhase
    dsimp only
    split
    · exact bad_outcome List.prefix_rfl
    · rename_i hStatus
      split
      · exact bad_outcome List.prefix_rfl
      · rename_i result hCheck
        obtain ⟨hSign, hTag, hResidue, hInput, hResult⟩ :=
          checkStatus_spec hCheck
        have hWell : WellFormed call replies :=
          ⟨hSent, not_not.mp hStatus, hSign, hTag⟩
        rcases hResult with ⟨hZero, rfl, hNone⟩ | ⟨hOne, rfl⟩
        · refine ⟨fun _ => ⟨rfl, hWell, hZero, ?_, hOut⟩,
            fun hEq => ?_, fun hNot => absurd hGe hNot⟩
          · cases hIn : call.input with
            | true => exact hInput hIn
            | false =>
                have hMoved := hOut hIn
                have hEmpty := hNone hIn
                change ((botGet32 replies.csw 8).toNat : Int) =
                  call.size.toNat - movedOf call replies
                omega
          · change movedOf call replies = -2 at hEq
            omega
        · exact ⟨fun hNeg => absurd hNeg
              (show ¬ (0 : Int) ≤ -2 by decide),
            fun _ => ⟨rfl, hWell, hOne, hResidue, hInput⟩,
            fun _ hNe => absurd rfl hNe⟩

/-
  A command with bad parameters does nothing. Any other one
  does the phases in order, each once: to the end, when the
  status is consistent, or up to one reset.
-/
theorem usbBotCommand_spec
    (call : BotCall)
    (replies : BotReplies) :
    match call.cdb? with
    | none => usbBotCommand call replies = ([], -1)
    | some cdb =>
        (cbwOf call cdb).length = 31 ∧
          Outcome call replies cdb
            (usbBotCommand call replies) := by
  unfold usbBotCommand
  split
  · rfl
  · rename_i cdb hCdb
    refine ⟨cbwOf_length hCdb, ?_⟩
    dsimp only
    split
    · refine bad_outcome ?_
      rw [phases, List.append_assoc]
      exact List.prefix_append _ _
    · exact dataPhase_outcome cdb (not_not.mp ‹_›)

end KvantOS.Usb
