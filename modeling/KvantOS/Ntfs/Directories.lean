import KvantOS.Ntfs.Entries
import KvantOS.Ntfs.Stream
import KvantOS.Ntfs.Walk

/-
  This file says what a directory holds, in the terms of the
  format, and which of its entries `walk_index` presents:
  those before the first one whose name the driver cannot
  represent.

  Key definitions include:
    * `EntryAt`, `EndAt`, `EntriesAt`
    * `NodeAt`, `BlocksHold`, `DirHolds`
    * `entryName`, `shownItems`

  Key theorems include:
    * `decodeIndexEntry_entry`, `decodeIndexEntry_end`
    * `nodeShows_items`, `dirShows_items`, `walkIndex_names`
-/

namespace KvantOS.Ntfs

--
-- Entries
--

/- The bytes for the block of entries behind this one. -/
def childBytes (b : Buf) (p : Nat) : Nat :=
  if b.get16 (p + 0x0C) % 2 == 1 then 8 else 0

/- The name of an entry: how many units, and which. -/
def nameChars (b : Buf) (p : Nat) : Nat :=
  (b (p + 0x10 + 0x40)).toNat

def nameUnits (b : Buf) (p : Nat) : List Nat :=
  utf16Units b (p + 0x10 + 0x42) (nameChars b p)

/-
  A whole entry with a name, which has from 1 to 255 units
  and no slash or NUL.
-/
structure EntryAt
    (b : Buf)
    (p remain : Nat) : Prop where
  flags : b.get16 (p + 0x0C) < 2
  key : b.get16 (p + 0x0A) = 0x42 + nameChars b p * 2
  length : b.get16 (p + 0x08) = roundUp8
    (0x10 + b.get16 (p + 0x0A) + childBytes b p)
  inside : b.get16 (p + 0x08) ≤ remain
  chars : 0 < nameChars b p
  space : b (p + 0x10 + 0x41) ≤ 3
  legal : ∀ u ∈ nameUnits b p, u ≠ 0 ∧ u ≠ 0x2F

instance
    {b : Buf}
    {p remain : Nat} :
    Decidable (EntryAt b p remain) :=
  decidable_of_iff
    (b.get16 (p + 0x0C) < 2 ∧
      b.get16 (p + 0x0A) = 0x42 + nameChars b p * 2 ∧
      b.get16 (p + 0x08) = roundUp8
        (0x10 + b.get16 (p + 0x0A) + childBytes b p) ∧
      b.get16 (p + 0x08) ≤ remain ∧ 0 < nameChars b p ∧
      b (p + 0x10 + 0x41) ≤ 3 ∧
      ∀ u ∈ nameUnits b p, u ≠ 0 ∧ u ≠ 0x2F)
    ⟨fun ⟨hFlags, hKey, hLength, hIn, hChars, hSpace,
        hLegal⟩ =>
      ⟨hFlags, hKey, hLength, hIn, hChars, hSpace, hLegal⟩,
    fun h => ⟨h.flags, h.key, h.length, h.inside, h.chars,
      h.space, h.legal⟩⟩

/- The entry that ends a node. -/
structure EndAt
    (b : Buf)
    (p remain : Nat) : Prop where
  flags : b.get16 (p + 0x0C) = 2 ∨ b.get16 (p + 0x0C) = 3
  key : b.get16 (p + 0x0A) = 0
  length : b.get16 (p + 0x08) =
    roundUp8 (0x10 + childBytes b p)
  inside : b.get16 (p + 0x08) ≤ remain

instance
    {b : Buf}
    {p remain : Nat} :
    Decidable (EndAt b p remain) :=
  decidable_of_iff
    ((b.get16 (p + 0x0C) = 2 ∨ b.get16 (p + 0x0C) = 3) ∧
      b.get16 (p + 0x0A) = 0 ∧
      b.get16 (p + 0x08) =
        roundUp8 (0x10 + childBytes b p) ∧
      b.get16 (p + 0x08) ≤ remain)
    ⟨fun ⟨hFlags, hKey, hLength, hIn⟩ =>
      ⟨hFlags, hKey, hLength, hIn⟩,
    fun h => ⟨h.flags, h.key, h.length, h.inside⟩⟩

/- The name in UTF-8, if the driver can represent it. -/
def entryName (b : Buf) (p : Nat) : Option NtfsName :=
  (Utf16.decode (nameUnits b p)).bind (storable vfsMaxName 0)

/- A second name of a file, which is left out. -/
def isDosName (b : Buf) (p : Nat) : Bool :=
  b (p + 0x10 + 0x41) == 2

section Entries

variable {b : Buf} {p remain : Nat}

theorem nameUnits_lt :
    ∀ u ∈ nameUnits b p, u < 0x10000 := by
  intro u hu
  rcases List.mem_map.mp hu with ⟨i, -, rfl⟩
  exact b.get16_lt _

/-
  A legal name is represented unless its surrogates are not
  paired or it is too long.
-/
theorem entryName_some_iff
    (hEntry : EntryAt b p remain)
    (name : NtfsName) :
    entryName b p = some name ↔
      ∃ text, Utf16.decode (nameUnits b p) = some text ∧
        (Utf8.encode text).length < vfsMaxName ∧
        name = Utf8.encode text := by
  unfold entryName
  rw [Option.bind_eq_some_iff]
  constructor
  · rintro ⟨text, hText, hStored⟩
    unfold storable at hStored
    rw [Option.ite_none_left_eq_some, not_or] at hStored
    rcases hStored with ⟨⟨-, hFits⟩, hSame⟩
    cases hSame
    exact ⟨text, hText, by omega, rfl⟩
  · rintro ⟨text, hText, hFits, rfl⟩
    refine ⟨text, hText, ?_⟩
    have hUnits := Utf16.encode_of_decode nameUnits_lt hText
    have hNul : Char.ofNat 0 ∉ text := by
      intro hMem
      have hZero : 0 ∈ Utf16.encode text :=
        List.mem_flatMap.mpr
          ⟨_, hMem, List.mem_singleton_self 0⟩
      rw [hUnits] at hZero
      exact (hEntry.legal 0 hZero).1 rfl
    rw [storable, if_neg]
    rintro (hMem | hLong)
    · exact hNul hMem
    · omega

theorem entryName_ne_nil
    (hEntry : EntryAt b p remain)
    {name : NtfsName}
    (hName : entryName b p = some name) :
    name ≠ [] := by
  rcases (entryName_some_iff hEntry name).mp hName with
    ⟨text, hText, -, rfl⟩
  have hUnits := Utf16.encode_of_decode nameUnits_lt hText
  cases text with
  | nil =>
      have hLength := congrArg List.length hUnits
      have hChars := hEntry.chars
      rw [nameUnits, utf16Units, List.length_map,
        List.length_range] at hLength
      exact absurd hLength (Nat.ne_of_lt hChars)
  | cons c text =>
      intro hNil
      rw [Utf8.encode_cons, List.append_eq_nil_iff] at hNil
      exact String.utf8EncodeChar_ne_nil hNil.1

theorem roundUp8_le (n : Nat) :
    n ≤ roundUp8 n := by
  unfold roundUp8
  omega

theorem roundUp8_mod (n : Nat) :
    roundUp8 n % 8 = 0 := by
  unfold roundUp8
  omega

/- What the driver makes of an entry. -/
theorem decodeIndexEntry_entry
    (hEntry : EntryAt b p remain) :
    decodeIndexEntry b p remain =
      if isDosName b p then
        some ⟨b.get16 (p + 0x08), entryFields b p [], false⟩
      else
        (entryName b p).map fun name =>
          ⟨b.get16 (p + 0x08), entryFields b p name,
            false⟩ := by
  have hFlags := hEntry.flags
  have hKey := hEntry.key
  have hLength := hEntry.length
  have hInside := hEntry.inside
  have hChars := hEntry.chars
  have hSpace := hEntry.space
  have hName : utf16ToUtf8 b (p + 0x10 + 0x42)
      (nameChars b p) vfsMaxName = entryName b p :=
    utf16Loop_eq nameUnits_lt (by decide)
  have hRound := roundUp8_le
    (0x10 + b.get16 (p + 0x0A) + childBytes b p)
  have hAlign := roundUp8_mod
    (0x10 + b.get16 (p + 0x0A) + childBytes b p)
  unfold decodeIndexEntry
  dsimp only
  change (if remain < 0x10 then none else _) = _
  rw [if_neg (by omega), if_neg (by omega),
    if_neg (by simp; omega), if_neg (by simp; omega),
    if_neg (by simp; omega)]
  change (if nameChars b p > _ then none else
    if 0x42 + nameChars b p * 2 != b.get16 (p + 0x0A) then
      none
    else if b.get16 (p + 0x08) != roundUp8
        (0x10 + b.get16 (p + 0x0A) + childBytes b p) then
      none
    else if isDosName b p then _
    else if b (p + 0x10 + 0x41) > 3 ||
        nameChars b p == 0 then none
    else _) = _
  rw [if_neg (by omega), if_neg (by simp; omega),
    if_neg (by simp; omega)]
  unfold nameChars at hName
  rw [hName]
  split
  · rfl
  · rw [if_neg (by
      have hNot : ¬b (p + 0x10 + 0x41) > 3 :=
        UInt8.not_lt.mpr hSpace
      simp only [Bool.or_eq_true, decide_eq_true_eq,
        beq_iff_eq, not_or]
      exact ⟨hNot, by omega⟩)]
    cases hSome : entryName b p with
    | none => rfl
    | some name =>
        have hNe := entryName_ne_nil hEntry hSome
        dsimp only
        rw [if_neg (by simpa using hNe)]
        rfl

theorem decodeIndexEntry_end
    (hEnd : EndAt b p remain) :
    decodeIndexEntry b p remain =
      some ⟨b.get16 (p + 0x08), .zero, true⟩ := by
  have hFlags := hEnd.flags
  have hKey := hEnd.key
  have hLength := hEnd.length
  have hInside := hEnd.inside
  have hRound := roundUp8_le (0x10 + childBytes b p)
  have hAlign := roundUp8_mod (0x10 + childBytes b p)
  unfold decodeIndexEntry
  dsimp only
  change (if remain < 0x10 then none else _) = _
  rw [if_neg (by omega), if_neg (by omega),
    if_neg (by simp; omega), if_pos (by simp; omega)]
  exact if_pos (by simp [hKey, hLength, childBytes])

end Entries

--
-- Nodes
--

/- Entries one after the other, and the one that ends them. -/
inductive EntriesAt
    (b : Buf)
    (stop : Nat) : Nat → List Nat → Prop
  | last
      {p : Nat}
      (hIn : p < stop)
      (hEnd : EndAt b p (stop - p)) :
      EntriesAt b stop p []
  | entry
      {p : Nat}
      {places : List Nat}
      (hIn : p < stop)
      (hEntry : EntryAt b p (stop - p))
      (hRest : EntriesAt b stop (p + b.get16 (p + 0x08))
        places) :
      EntriesAt b stop p (p :: places)

/- A node with its header at `h`, in `len` bytes. -/
structure NodeAt
    (b : Buf)
    (h len : Nat)
    (places : List Nat) : Prop where
  first : 0x10 ≤ b.get32 h
  order : b.get32 h ≤ b.get32 (h + 4)
  inside : b.get32 (h + 4) ≤ len
  entries : EntriesAt b (h + b.get32 (h + 4))
    (h + b.get32 h) places

/- An entry of a directory: a buffer and a place in it. -/
abbrev Item :=
  Buf × Nat

/-
  The entries up to the first one that has no name the
  driver can represent, and whether there is no such entry.
-/
def shownItems : List Item → Shows
  | [] => ([], true)
  | (b, p) :: items =>
      if isDosName b p then
        shownItems items
      else
        match entryName b p with
        | none => ([], false)
        | some name =>
            (entryFields b p name :: (shownItems items).1,
              (shownItems items).2)

theorem shownItems_append
    (items later : List Item) :
    shownItems (items ++ later) =
      (shownItems items).andThen (shownItems later) := by
  induction items with
  | nil => rfl
  | cons item items ih =>
      rcases item with ⟨b, p⟩
      rw [List.cons_append, shownItems, shownItems, ih]
      split
      · rfl
      · cases entryName b p with
        | none => rfl
        | some name =>
            unfold Shows.andThen
            dsimp only
            split <;> rfl

section Nodes

variable {b : Buf}

variable {places : List Nat}

theorem nodeShows_items
    {stop p fuel : Nat}
    (hEntries : EntriesAt b stop p places)
    (hFuel : stop - p ≤ fuel) :
    nodeShows b stop fuel p =
      shownItems (places.map (b, ·)) := by
  induction hEntries generalizing fuel with
  | @last p hIn hEnd =>
      cases fuel with
      | zero => omega
      | succ fuel =>
          rw [nodeShows, if_pos hIn,
            decodeIndexEntry_end hEnd]
          rfl
  | @entry p places hIn hEntry hRest ih =>
      cases fuel with
      | zero => omega
      | succ fuel =>
          have hLength := hEntry.length
          have hRound := roundUp8_le (0x10 +
            b.get16 (p + 0x0A) + childBytes b p)
          rw [nodeShows, if_pos hIn,
            decodeIndexEntry_entry hEntry, List.map_cons,
            shownItems, ← @ih fuel (by omega)]
          cases isDosName b p with
          | true => rfl
          | false =>
              cases hName : entryName b p with
              | none => rfl
              | some name =>
                  have hNe := entryName_ne_nil hEntry hName
                  have hSome : List.isEmpty name = false := by
                    simpa using hNe
                  change (if List.isEmpty name then _
                    else _) = _
                  rw [hSome]

theorem headedShows_items
    {h len : Nat}
    (hNode : NodeAt b h len places) :
    headedShows b h len =
      shownItems (places.map (b, ·)) := by
  have hFirst := hNode.first
  have hOrder := hNode.order
  have hInside := hNode.inside
  unfold headedShows
  dsimp only
  rw [if_neg (by simp; omega)]
  exact nodeShows_items hNode.entries (by omega)

end Nodes

--
-- Directories
--

/-
  The index blocks from `off` on hold some entries. All of
  them can be read, and every one is a node in use.
-/
inductive BlocksHold
    (v : NtfsVol)
    (disk : NtfsDisk)
    (alloc : AttrAt)
    (size : Nat) : Nat → List Item → Prop
  | done
      {off : Nat}
      (hEnd : size ≤ off) :
      BlocksHold v disk alloc size off []
  | block
      {off : Nat}
      {b : Buf}
      {places : List Nat}
      {items : List Item}
      (hOff : off < size)
      (hRead : (v.indexSize : Int) ≤ (readAttr v disk alloc
        off Buf.zero v.indexSize false).1.1)
      (hMagic : (readAttr v disk alloc off Buf.zero
        v.indexSize false).1.2.same indxMagic 4 = true)
      (hFixup : applyFixup (readAttr v disk alloc off
        Buf.zero v.indexSize false).1.2 v.indexSize = some b)
      (hNode : NodeAt b 0x18 (v.indexSize - 0x18) places)
      (hRest : BlocksHold v disk alloc size
        (off + v.indexSize) items) :
      BlocksHold v disk alloc size off
        (places.map (b, ·) ++ items)

/- The index root of a directory holds some entries. -/
inductive RootHolds
    (v : NtfsVol)
    (root : AttrAt) : List Item → Prop
  | node
      {val vlen : Nat}
      {places : List Nat}
      (hValue : residentValue root.owner root.attr
        v.recordSize = some (val, vlen))
      (hLength : 0x20 ≤ vlen)
      (hNode : NodeAt root.owner (val + 0x10) (vlen - 0x10)
        places) :
      RootHolds v root (places.map (root.owner, ·))

/- The index allocation, if there is one, holds some. -/
inductive RestHolds
    (v : NtfsVol)
    (disk : NtfsDisk) :
    Option AttrAt × Bool → List Item → Prop
  | none : RestHolds v disk (none, false) []
  | blocks
      {alloc : AttrAt}
      {bad : Bool}
      {items : List Item}
      (hOut : alloc.owner (alloc.attr + 0x08) ≠ 0)
      (hPos : 0 < v.indexSize)
      (hSmall : v.indexSize ≤ ntfsIdxMax)
      (hCluster : 0 < v.clusterSize)
      (hWhole : alloc.owner.get32 (alloc.attr + 0x30) %
        v.indexSize = 0)
      (hRoom : alloc.owner.get32 (alloc.attr + 0x30) /
          v.clusterSize +
        (if alloc.owner.get32 (alloc.attr + 0x30) %
          v.clusterSize != 0 then 1 else 0) ≤
            v.totalSectors / v.sectorsPerCluster)
      (hBlocks : BlocksHold v disk alloc
        (alloc.owner.get32 (alloc.attr + 0x30)) 0 items) :
      RestHolds v disk (some alloc, bad) items

/- A well-formed directory, and its entries in order. -/
inductive DirHolds
    (v : NtfsVol)
    (disk : NtfsDisk)
    (dirRef : Nat) : List Item → Prop
  | dir
      {base : Buf}
      {root : AttrAt}
      {items later : List Item}
      (hRecord : (readMftRecord v disk dirRef false).1 =
        some base)
      (hRoot : (findAttrExt v disk base atIndexRoot
        false).1 = some root)
      (hItems : RootHolds v root items)
      (hLater : RestHolds v disk
        (findAttrExt v disk base atIndexAlloc false) later) :
      DirHolds v disk dirRef (items ++ later)

section Directories

variable {v : NtfsVol} {disk : NtfsDisk}

variable {items : List Item}

theorem blocksShow_items
    {alloc : AttrAt}
    {size fuel off : Nat}
    (hBlocks : BlocksHold v disk alloc size off items)
    (hPos : 0 < v.indexSize)
    (hFuel : size - off ≤ fuel) :
    blocksShow v disk alloc size fuel off =
      shownItems items := by
  induction hBlocks generalizing fuel with
  | @done off hEnd =>
      cases fuel with
      | zero => rfl
      | succ fuel =>
          rw [blocksShow, if_neg (by omega)]
          rfl
  | @block off b places items hOff hRead hMagic hFixup hNode
      hRest ih =>
      cases fuel with
      | zero => omega
      | succ fuel =>
          rw [blocksShow, if_pos hOff]
          dsimp only
          rw [if_neg (by omega), blockShows,
            if_neg (by simp [hMagic]), hFixup,
            shownItems_append, @ih fuel (by omega)]
          dsimp only
          rw [headedShows_items hNode]

theorem restShows_items
    {found : Option AttrAt × Bool}
    (hRest : RestHolds v disk found items) :
    restShows v disk found = shownItems items := by
  cases hRest with
  | none => rfl
  | @blocks alloc bad items hOut hPos hSmall hCluster hWhole
      hRoom hBlocks =>
      unfold restShows allocationShows
      dsimp only
      generalize alloc.owner.get32 (alloc.attr + 0x30) /
          v.clusterSize +
        (if alloc.owner.get32 (alloc.attr + 0x30) %
          v.clusterSize != 0 then 1 else 0) = clusters at *
      rw [if_neg (by simpa using hOut), if_neg]
      · exact blocksShow_items hBlocks hPos (by omega)
      · simp only [Bool.or_eq_true, beq_iff_eq, bne_iff_ne,
          decide_eq_true_eq, not_or, not_not]
        exact ⟨⟨⟨⟨by omega, by omega⟩, by omega⟩, hWhole⟩,
          Nat.not_lt.mpr hRoom⟩

/- What the driver shows of a well-formed directory. -/
theorem dirShows_items
    {dirRef : Nat}
    (hDir : DirHolds v disk dirRef items) :
    dirShows v disk dirRef = shownItems items := by
  rcases hDir with
    @⟨base, root, items, later, hRecord, hRoot, hItems, hLater⟩
  rw [dirShows_root hRecord hRoot, restShows_items hLater,
    shownItems_append]
  rcases hItems with @⟨val, vlen, places, hValue, hLength, hNode⟩
  unfold rootShows
  rw [hValue]
  dsimp only
  rw [if_neg (by omega), headedShows_items hNode]

end Directories

--
-- Names That Cannot Be Represented
--

/- The driver can show an entry, or leaves it out. -/
def Representable (item : Item) : Prop :=
  isDosName item.1 item.2 = true ∨
    ∃ text,
      Utf16.decode (nameUnits item.1 item.2) = some text ∧
        (Utf8.encode text).length < vfsMaxName

/- The entry as the driver presents it. -/
def itemEntry (item : Item) : Option NtfsEntry :=
  if isDosName item.1 item.2 then none
  else
    (entryName item.1 item.2).map
      (entryFields item.1 item.2)

/- The items are entries that have a name. -/
def Legal (item : Item) : Prop :=
  ∃ remain, EntryAt item.1 item.2 remain

section Names

variable {v : NtfsVol} {disk : NtfsDisk}

theorem EntriesAt.legal
    {b : Buf}
    {stop p : Nat}
    {places : List Nat}
    (hEntries : EntriesAt b stop p places) :
    ∀ q ∈ places, Legal (b, q) := by
  induction hEntries with
  | last => nofun
  | entry hIn hEntry hRest ih =>
      intro q hq
      rcases List.mem_cons.mp hq with rfl | hq
      · exact ⟨_, hEntry⟩
      · exact ih q hq

variable {dirRef : Nat} {items : List Item}

theorem DirHolds.record
    (hDir : DirHolds v disk dirRef items) :
    ∃ base, (readMftRecord v disk dirRef false).1 =
      some base := by
  rcases hDir with ⟨hRecord, -, -, -⟩
  exact ⟨_, hRecord⟩

theorem DirHolds.legal
    (hDir : DirHolds v disk dirRef items) :
    ∀ item ∈ items, Legal item := by
  have hNode : ∀ {b h len places},
      NodeAt b h len places →
      ∀ item ∈ places.map (b, ·), Legal item := by
    intro b h len places hNode item hItem
    rcases List.mem_map.mp hItem with ⟨q, hq, rfl⟩
    exact hNode.entries.legal q hq
  have hBlocks : ∀ {alloc size off items},
      BlocksHold v disk alloc size off items →
      ∀ item ∈ items, Legal item := by
    intro alloc size off items hBlocks
    induction hBlocks with
    | done => nofun
    | block hOff hRead hMagic hFixup hHere hRest ih =>
        intro item hItem
        rcases List.mem_append.mp hItem with hItem | hItem
        · exact hNode hHere item hItem
        · exact ih item hItem
  rcases hDir with
    @⟨base, root, items, later, hRecord, hRoot, hItems, hLater⟩
  intro item hItem
  rcases List.mem_append.mp hItem with hItem | hItem
  · rcases hItems with
      @⟨val, vlen, places, hValue, hLength, hHere⟩
    exact hNode hHere item hItem
  · generalize findAttrExt v disk base atIndexAlloc false =
      found at hLater
    cases hLater with
    | none => cases hItem
    | blocks hOut hPos hSmall hCluster hWhole hRoom hRest =>
        exact hBlocks hRest item hItem

variable {item : Item}

/- An entry with a name of its own is presented. -/
theorem itemEntry_isSome
    (hLegal : Legal item)
    (hFits : Representable item)
    (hOwn : isDosName item.1 item.2 = false) :
    (itemEntry item).isSome = true := by
  rcases hLegal with ⟨remain, hEntry⟩
  rcases hFits with hDos | ⟨text, hText, hShort⟩
  · rw [hDos] at hOwn
    cases hOwn
  · have hName := (entryName_some_iff hEntry _).mpr
      ⟨text, hText, hShort, rfl⟩
    rw [itemEntry, hOwn, hName]
    rfl

theorem entryName_of_bad
    (hLegal : Legal item)
    (hBad : ¬Representable item) :
    isDosName item.1 item.2 = false ∧
      entryName item.1 item.2 = none := by
  rcases hLegal with ⟨remain, hEntry⟩
  constructor
  · rw [← Bool.not_eq_true]
    exact fun hDos => hBad (.inl hDos)
  · rw [Option.eq_none_iff_forall_ne_some]
    intro name hName
    rcases (entryName_some_iff hEntry name).mp hName with
      ⟨text, hText, hShort, -⟩
    exact hBad (.inr ⟨text, hText, hShort⟩)

/- The entries before the first that is not presented. -/
theorem shownItems_split
    {before rest : List Item}
    (hLegal : ∀ item ∈ before ++ rest, Legal item)
    (hBefore : ∀ item ∈ before, Representable item)
    (hRest : ∀ item, rest.head? = some item →
      ¬Representable item) :
    shownItems (before ++ rest) =
      (before.filterMap itemEntry, rest.isEmpty) := by
  induction before with
  | nil =>
      cases rest with
      | nil => rfl
      | cons item rest =>
          rcases entryName_of_bad
            (hLegal item List.mem_cons_self)
            (hRest item rfl) with ⟨hOwn, hName⟩
          rcases item with ⟨b, p⟩
          dsimp only at hOwn hName
          rw [List.nil_append, shownItems, hOwn, hName]
          rfl
  | cons item before ih =>
      have hLater := ih
        (fun x hx => hLegal x (List.mem_cons_of_mem _ hx))
        (fun x hx => hBefore x (List.mem_cons_of_mem _ hx))
      have hSome := itemEntry_isSome
        (hLegal item List.mem_cons_self)
        (hBefore item List.mem_cons_self)
      rcases item with ⟨b, p⟩
      rw [List.cons_append, shownItems, hLater,
        List.filterMap_cons]
      dsimp only at hSome
      unfold itemEntry at hSome ⊢
      dsimp only at hSome ⊢
      cases hDos : isDosName b p with
      | true => rfl
      | false =>
          have hName := hSome hDos
          rw [hDos] at hName
          cases hEntry : entryName b p with
          | none =>
              rw [hEntry] at hName
              cases hName
          | some name => rfl

/-
  `walk_index` gives the entries before the first one that
  it cannot represent to the callback, and fails there with
  the flag; without such an entry it gives all.
-/
theorem walkIndex_names
    {dirRef : Nat}
    {before rest : List Item}
    (hDir : DirHolds v disk dirRef (before ++ rest))
    (hBefore : ∀ item ∈ before, Representable item)
    (hRest : ∀ item, rest.head? = some item →
      ¬Representable item)
    {σ : Type}
    (cb : IdxCb σ)
    (s : σ)
    (e : Bool) :
    (∀ item ∈ before, isDosName item.1 item.2 = false →
      (itemEntry item).isSome = true) ∧
    ∃ more s',
      Presented cb (before.filterMap itemEntry) s
        (more, s') ∧
      (walkIndex v disk dirRef cb s e).1.2 = s' ∧
      (more = false →
        (walkIndex v disk dirRef cb s e).1.1 = true) ∧
      (more = true → rest ≠ [] →
        walkIndex v disk dirRef cb s e =
          ((false, s'), true)) ∧
      (more = true → rest = [] →
        (walkIndex v disk dirRef cb s e).2 = false →
        (walkIndex v disk dirRef cb s e).1.1 = true) := by
  have hShows := (dirShows_items hDir).trans
    (shownItems_split hDir.legal hBefore hRest)
  constructor
  · intro item hItem hOwn
    exact itemEntry_isSome
      (hDir.legal item (List.mem_append_left _ hItem))
      (hBefore item hItem) hOwn
  · have hWalked := @walkIndex_shown _ v disk dirRef cb s e
    generalize walkIndex v disk dirRef cb s e = out at *
    cases hWalked with
    | noRecord hRecord =>
        rcases hDir.record with ⟨base, hSome⟩
        rw [hRecord] at hSome
        cases hSome
    | @stopped s' e' hStop =>
        rw [hShows] at hStop
        exact ⟨false, s', hStop, rfl, fun _ => rfl, nofun,
          nofun⟩
    | @whole s' good e' hAll hWhole hFlag =>
        rw [hShows] at hAll hWhole
        refine ⟨true, s', hAll, rfl, nofun, ?_, ?_⟩
        · intro _ hNe
          exact absurd (by simpa using hWhole) hNe
        · intro _ _ hClear
          cases good with
          | true => rfl
          | false =>
              rw [hFlag rfl] at hClear
              cases hClear
    | @broken s' hAll hBroken =>
        rw [hShows] at hAll hBroken
        refine ⟨true, s', hAll, rfl, nofun, fun _ _ => rfl,
          ?_⟩
        rintro - rfl
        cases hBroken

end Names

/- A directory of a name with half a pair, and of `x`. -/
def halfRecord : Buf :=
  smallRecord
    [(0x4C, 24), (0x78, 88), (0x7A, 68), (0xC0, 0x0101),
      (0xC2, 0xD800), (0xD0, 88), (0xD2, 68),
      (0x118, 0x0101), (0x11A, 0x78), (0x128, 16),
      (0x12C, 2)]
    [(0x38, atIndexRoot), (0x3C, 248), (0x48, 224),
      (0x60, 16), (0x64, 208), (0x70, 6), (0xC8, 7),
      (0x130, atEnd)]

def halfDisk : NtfsDisk :=
  fun lba =>
    some (if lba = 13 then halfRecord else Buf.zero)

def halfBase : Buf :=
  (mftRecord smallVol halfDisk 5).getD Buf.zero

/- A callback that keeps every entry. -/
def keepCb : IdxCb (List NtfsEntry) :=
  fun s x => pure (true, s ++ [x])

/- The words of a node with two entries. -/
abbrev NodeWords (b : Buf) : Prop :=
  EntryAt b 0x70 (0x130 - 0x70) ∧
    EntryAt b 0xC8 (0x130 - 0xC8) ∧
    EndAt b 0x120 (0x130 - 0x120) ∧
    b.get32 0x60 = 16 ∧ b.get32 (0x60 + 4) = 208 ∧
    0x70 + b.get16 (0x70 + 0x08) = 0xC8 ∧
    0xC8 + b.get16 (0xC8 + 0x08) = 0x120

theorem halfDisk_words :
    NodeWords halfBase ∧
      findAttrIn halfBase smallVol.recordSize atIndexRoot
        0 = .found 0x38 ∧
      residentValue halfBase 0x38 smallVol.recordSize =
        some (0x50, 224) ∧
      isDosName halfBase 0x70 = false ∧
      Utf16.decode (nameUnits halfBase 0x70) = none ∧
      Utf16.decode (nameUnits halfBase 0xC8) =
        some ['x'] := by
  decide +kernel

/- The walk of it fails, with nothing presented. -/
theorem halfDisk_reads :
    (mftRecord smallVol halfDisk 5).isSome = true ∧
      (findAttrExt smallVol halfDisk halfBase atIndexAlloc
        false).1.isNone = true ∧
      (findAttrExt smallVol halfDisk halfBase atIndexAlloc
        false).2 = false ∧
      (walkIndex smallVol halfDisk 5 keepCb []
        false).1.1 = false ∧
      (walkIndex smallVol halfDisk 5 keepCb []
        false).1.2 = [] ∧
      (walkIndex smallVol halfDisk 5 keepCb []
        false).2 = true := by
  decide +kernel

theorem halfBase_node :
    NodeAt halfBase 0x60 208 [0x70, 0xC8] := by
  rcases halfDisk_words with
    ⟨⟨hHalf, hX, hEnd, hFirst, hStop, hNext, hLast⟩, -⟩
  constructor
  · rw [hFirst]
  · rw [hFirst, hStop]
    decide
  · rw [hStop]
  · rw [hFirst, hStop]
    refine .entry (by decide) hHalf ?_
    rw [hNext]
    refine .entry (by decide) hX ?_
    rw [hLast]
    exact .last (by decide) hEnd

/- The whole directory, with both entries. -/
theorem halfDisk_holds :
    DirHolds smallVol halfDisk 5
      ([0x70, 0xC8].map (halfBase, ·) ++ []) := by
  rcases halfDisk_words with ⟨-, hRoot, hValue, -⟩
  rcases halfDisk_reads with ⟨hRecord, hSome, hFlag, -⟩
  have hAlloc : findAttrExt smallVol halfDisk halfBase
      atIndexAlloc false = (none, false) :=
    Prod.ext (Option.isNone_iff_eq_none.mp hSome) hFlag
  have hFound : (findAttrExt smallVol halfDisk halfBase
      atIndexRoot false).1 = some ⟨halfBase, 0x38⟩ :=
    congrArg Prod.fst
      (findAttrExt_found smallVol halfDisk hRoot false)
  refine .dir (some_getD hRecord) hFound
    (.node hValue (by decide) halfBase_node) ?_
  change RestHolds smallVol halfDisk (findAttrExt smallVol
    halfDisk halfBase atIndexAlloc false) []
  rw [hAlloc]
  exact .none

theorem halfName_bad :
    ¬Representable (halfBase, 0x70) := by
  rcases halfDisk_words with ⟨-, -, -, hOwn, hNone, -⟩
  rintro (hDos | ⟨text, hText, -⟩)
  · cases hOwn.symm.trans hDos
  · cases hNone.symm.trans hText

/- The walk fails at the first entry. -/
theorem walkIndex_names_half :
    ∃ s', Presented keepCb [] [] (true, s') ∧
      walkIndex smallVol halfDisk 5 keepCb [] false =
        ((false, s'), true) := by
  have hDir : DirHolds smallVol halfDisk 5
      ([] ++ [(halfBase, 0x70), (halfBase, 0xC8)]) :=
    halfDisk_holds
  have hBad : ∀ item,
      [(halfBase, 0x70), (halfBase, 0xC8)].head? =
        some item → ¬Representable item := by
    intro item hItem
    cases hItem
    exact halfName_bad
  rcases (walkIndex_names hDir nofun hBad keepCb [] false).2
    with ⟨more, s', hPresented, -, -, hFails, -⟩
  cases hPresented
  exact ⟨[], .all, hFails rfl (by simp)⟩

/- The second entry is not presented. -/
theorem halfName_hides :
    DirHolds smallVol halfDisk 5
        [(halfBase, 0x70), (halfBase, 0xC8)] ∧
      ¬Representable (halfBase, 0x70) ∧
      Representable (halfBase, 0xC8) ∧
      walkIndex smallVol halfDisk 5 keepCb [] false =
        ((false, []), true) := by
  rcases halfDisk_words with ⟨-, -, -, -, -, hX⟩
  rcases halfDisk_reads with
    ⟨-, -, -, hFails, hNone, hFlag⟩
  exact ⟨halfDisk_holds, halfName_bad,
    .inr ⟨['x'], hX, by decide⟩,
    Prod.ext (Prod.ext hFails hNone) hFlag⟩

end KvantOS.Ntfs
