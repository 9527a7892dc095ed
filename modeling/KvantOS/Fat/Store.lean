import KvantOS.Fat.Operations

/-
  This file reads the FAT programs over a plain store: the
  image of the volume as one run of bytes, and the flags of
  the driver. It is what the sector helpers are for, without
  the device, the metadata cache and the undo log.

  Any command may fail; a failure sets the error flag, and
  nothing is read or written from then on. The sectors of
  the log's own file change under the driver's feet, so a
  read of them may deliver anything; it leaves a mark.

  Key definitions include:
    * `Store`, `Store.faulty`, `Store.ideal`
-/

--
-- Stores
--

namespace KvantOS

/-
  The image, the flags `v->error`, `v->fenced` and
  `v->writing`, whether a `disk_sync` has failed, whether
  the log's file was read, and the sectors that were handed
  to `fat_write_data`.
-/
@[ext]
structure Store where
  image : Buf
  error : Bool
  fenced : Bool
  writing : Bool
  unsynced : Bool
  stale : Bool
  bodies : List Nat

namespace Store

/- The driver still reads and writes. -/
def isOpen (s : Store) : Bool :=
  !s.error && !s.fenced

theorem error_of_open
    {s : Store}
    (hOpen : s.isOpen = true) :
    s.error = false := by
  cases hError : s.error <;> simp [isOpen, hError] at hOpen ⊢

/- `v->error = 1`. -/
def fail (s : Store) : Store :=
  { s with error := true }

/- The bytes of one sector. -/
def sector
    (v : FatVol)
    (s : Store)
    (sec : Nat) : Buf :=
  s.image.slice (sec * v.bytesPerSector) v.bytesPerSector

/- The store after a sector was written. -/
def put
    (v : FatVol)
    (s : Store)
    (sec : Nat)
    (data : Buf) : Store :=
  { s with
    image := s.image.copy (sec * v.bytesPerSector) data
      v.bytesPerSector }

/- The sector joins those written by `fat_write_data`. -/
def body
    (s : Store)
    (sec : Nat) : Store :=
  { s with bodies := sec :: s.bodies }

/- A read of the sector leaves its mark. -/
def mark
    (v : FatVol)
    (s : Store)
    (sec : Nat) : Store :=
  if walOverlap v sec 1 then { s with stale := true } else s

/- `io_enter` on a live device. -/
def enter (s : Store) : Store :=
  if s.fenced || s.writing then s
  else { s with error := false }

/- The answers of a store on which nothing fails. -/
def ideal (v : FatVol) :
    (command : FatCmd) → Store → command.Reply × Store
  | .readSectors sec, s =>
      if s.isOpen && sec < v.totalSectors then
        (some (s.sector v sec), s.mark v sec)
      else
        (none, s.fail)
  | .writeSectors sec data, s =>
      if s.isOpen && sec < v.totalSectors then
        (true, s.put v sec data)
      else
        (false, s.fail)
  | .writeData sec data, s =>
      if s.isOpen && sec < v.totalSectors then
        (true, (s.put v sec data).body sec)
      else
        (false, s.fail)
  | .metaFlush, s => (true, s)
  | .sync, s => (true, s)
  | .ioEnter, s => (s.enter.isOpen, s.enter)
  | .getError, s => (s.error, s)
  | .setError, s => ((), s.fail)

/-
  The answers of a store on which any command may fail. The
  device may go away at `io_enter`, which fences the volume.
-/
def faulty (v : FatVol) :
    Handler FatCmd FatCmd.Reply Store
  | .readSectors sec, s, reply, s' =>
      ideal v (.readSectors sec) s = (reply, s') ∨
        (reply = none ∧ s' = s.fail) ∨
        (walOverlap v sec 1 = true ∧ s.isOpen = true ∧
          sec < v.totalSectors ∧ reply.isSome = true ∧
          s' = s.mark v sec)
  | .writeSectors sec data, s, reply, s' =>
      ideal v (.writeSectors sec data) s = (reply, s') ∨
        (reply = false ∧ s' = s.fail)
  | .writeData sec data, s, reply, s' =>
      ideal v (.writeData sec data) s = (reply, s') ∨
        (reply = false ∧ (s' = s.fail ∨
          s.isOpen = true ∧ sec < v.totalSectors ∧
            s' = s.fail.body sec))
  | .metaFlush, s, reply, s' =>
      (reply = true ∧ s' = s) ∨ (reply = false ∧ s' = s.fail)
  | .sync, s, reply, s' =>
      (reply = true ∧ s' = s) ∨
        (reply = false ∧ s' = { s with unsynced := true })
  | .ioEnter, s, reply, s' =>
      (reply = s.enter.isOpen ∧ s' = s.enter) ∨
        (reply = false ∧ s' = { s with fenced := true })
  | .getError, s, reply, s' => reply = s.error ∧ s' = s
  | .setError, s, _, s' => s' = s.fail

theorem faulty_ideal
    (v : FatVol)
    (command : FatCmd)
    (s : Store) :
    faulty v command s (ideal v command s).1
      (ideal v command s).2 := by
  cases command with
  | readSectors sec => exact .inl rfl
  | writeSectors sec data => exact .inl rfl
  | writeData sec data => exact .inl rfl
  | metaFlush => exact .inl ⟨rfl, rfl⟩
  | sync => exact .inl ⟨rfl, rfl⟩
  | ioEnter => exact .inl ⟨rfl, rfl⟩
  | getError => exact ⟨rfl, rfl⟩
  | setError => exact rfl

theorem mark_of_not
    {v : FatVol}
    {s : Store}
    {sec : Nat}
    (hOut : walOverlap v sec 1 = false) :
    s.mark v sec = s := by
  simp [mark, hOut]

end Store

--
-- Runs without a Failure
--

namespace Store

variable {v : FatVol} {α : Type}

end Store

end KvantOS
