import KvantOS.Partition.Scan

/-
  This file models the part of `kernel/partition.c` that
  scans a disk with a table of four partitions, and proves
  when the logical partitions lie inside of their extended
  partition. What the walk sees in each link is written down
  as it goes, with the sums before they are narrowed.

  Key definitions include:
    * `MbrPart`, `mbrPart`
    * `chainLoop`, `scanPart`, `scanDisk`
    * `ChainSeen.Inside`, `recordsInside`

  Key theorems include:
    * `chainLoop_inside_iff`, `scanDisk_inside_iff`
-/

namespace KvantOS.Partition

--
-- Tables
--

/- `mbr_part_t`, as far as the scan looks at it. -/
structure MbrPart where
  type : UInt8
  start : Nat
  sectors : Nat

/- An entry of the table at `PART_TABLE_OFF`. -/
def mbrPart
    (sec : Buf)
    (i : Nat) : MbrPart where
  type := sec (0x1BE + i * 16 + 4)
  start := sec.get32 (0x1BE + i * 16 + 8)
  sectors := sec.get32 (0x1BE + i * 16 + 12)

/- The signature at `MBR_SIG_OFF`. -/
def hasTable (sec : Buf) : Bool :=
  sec 0x1FE == 0x55 && sec 0x1FF == 0xAA

/- `type_interesting`. -/
def typeInteresting (t : UInt8) : Bool :=
  match t with
  | 0x01 | 0x04 | 0x06 => true
  | 0x0B | 0x0C => true
  | 0x0E => true
  | 0x07 => true
  | 0x83 => true
  | 0x0F | 0x05 => true
  | t => t != 0

/- `is_extended`. -/
def isExtended (t : UInt8) : Bool :=
  t == 0x05 || t == 0x0F || t == 0x85

/- A protective entry declares a GUID partition table. -/
def declaresGpt (p : MbrPart) : Bool :=
  p.type == 0xEE && p.start == 1 && p.sectors != 0

--
-- Scanning
--

/- The disk, the last volume number, and what was mounted. -/
structure Progress where
  media : Media
  seq : Nat
  mounted : Nat

/- The next number names a volume, which is tried. -/
def mountNext
    (dev : BlkDisk)
    (drv : Drivers)
    (lba count : Nat)
    (s : Progress) : MountCall × Progress :=
  let name := volumeName dev.disk (s.seq + 1)
  let r := tryMount dev drv name lba count s.media
  (⟨name, lba, count⟩,
    { media := r.2
      seq := s.seq + 1
      mounted := s.mounted + (if r.1 then 1 else 0) })

/-
  A link that was read at `lba`, which `place` is narrowed
  to, and the call for its partition, which starts at
  `offset` from the link.
-/
structure LinkSeen where
  place : Nat
  lba : Nat
  offset : Nat
  call : Option MountCall

/- What the first entry of a link leads to. -/
def useLink
    (dev : BlkDisk)
    (drv : Drivers)
    (next : Nat)
    (lp : MbrPart)
    (s : Progress) : Option MountCall × Progress :=
  if lp.sectors != 0 then
    let r := mountNext dev drv (u32 (next + lp.start))
      lp.sectors s
    (some r.1, r.2)
  else
    (none, s)

/-
  The loop over a chain, with `left` links to go; `next` is
  zero at the end.
-/
def chainLoop
    (dev : BlkDisk)
    (drv : Drivers)
    (base : Nat) :
    (left place : Nat) → Progress →
      List LinkSeen × Progress
  | 0, _, s => ([], s)
  | left + 1, place, s =>
      let next := u32 place
      if next == 0 then ([], s)
      else
        match diskRead dev next 1 s.media with
        | (none, m) => ([], { s with media := m })
        | (some ebr, m) =>
            if !hasTable ebr then
              ([⟨place, next, 0, none⟩], { s with media := m })
            else
              let lp := mbrPart ebr 0
              let link := mbrPart ebr 1
              let r := useLink dev drv next lp
                { s with media := m }
              let rest := chainLoop dev drv base left
                (if link.sectors != 0 then base + link.start
                  else 0) r.2
              (⟨place, next, lp.start, r.1⟩ :: rest.1, rest.2)

/- A chain that was walked, and the state before. -/
structure ChainSeen where
  part : MbrPart
  before : Progress
  links : List LinkSeen

/- One round of the loop over the four entries. -/
def scanPart
    (dev : BlkDisk)
    (drv : Drivers)
    (s : List ChainSeen × Progress)
    (p : MbrPart) : List ChainSeen × Progress :=
  if p.sectors == 0 || !typeInteresting p.type then s
  else if isExtended p.type then
    let r := chainLoop dev drv p.start 16 p.start s.2
    (s.1 ++ [⟨p, s.2, r.1⟩], r.2)
  else
    (s.1, (mountNext dev drv p.start p.sectors s.2).2)

/- The whole disk is tried when nothing was mounted. -/
def probeWhole
    (dev : BlkDisk)
    (drv : Drivers)
    (s : Progress) : Progress :=
  if s.mounted == 0 then
    let r := tryMount dev drv (volumeName dev.disk 0) 0
      dev.sectors s.media
    { s with
      media := r.2
      mounted := if r.1 then 1 else 0 }
  else
    s

/- `scan_disk`; `held` is the static buffer of `scan_gpt`. -/
def scanDisk
    (dev : BlkDisk)
    (drv : Drivers)
    (held : Buf)
    (seq : Nat)
    (m : Media) : List ChainSeen × Progress :=
  match diskRead dev 0 1 m with
  | (none, m) => ([], ⟨m, seq, 0⟩)
  | (some sec, m) =>
      let parts := (List.range 4).map (mbrPart sec)
      if !hasTable sec then
        ([], probeWhole dev drv ⟨m, seq, 0⟩)
      else if parts.any declaresGpt then
        let g := scanGpt dev drv held m
        ([], ⟨g.media, seq, g.mounted⟩)
      else
        let s := parts.foldl (scanPart dev drv)
          ([], ⟨m, seq, 0⟩)
        (s.1, probeWhole dev drv s.2)

--
-- Staying Inside
--

/- A range that `try_mount` does not refuse. -/
def Accepts
    (dev : BlkDisk)
    (lba count : Nat) : Prop :=
  0 < count ∧ lba + count ≤ dev.sectors

variable {dev : BlkDisk} {drv : Drivers} {p : MbrPart}
variable {s : Progress} {left place : Nat}

/- The link and its partition, as sums that do not wrap. -/
structure LinkSeen.Inside
    (dev : BlkDisk)
    (p : MbrPart)
    (link : LinkSeen) : Prop where
  exact : link.lba = link.place
  bounds : p.start ≤ link.lba ∧
    link.lba < p.start + p.sectors
  range : ∀ c, link.call = some c →
    Accepts dev c.lba c.count →
      c.lba = link.lba + link.offset ∧ p.start ≤ c.lba ∧
        c.lba + c.count ≤ p.start + p.sectors

def ChainSeen.Inside
    (dev : BlkDisk)
    (chain : ChainSeen) : Prop :=
  ∀ link ∈ chain.links, link.Inside dev chain.part

/- A logical partition, in the record of a link. -/
def partInside
    (dev : BlkDisk)
    (p lp : MbrPart)
    (place : Nat) : Prop :=
  Accepts dev (u32 (place + lp.start)) lp.sectors →
    place + lp.start < 2 ^ 32 ∧
      place + lp.start + lp.sectors ≤ p.start + p.sectors

/-
  The records of a chain, each as it is found when the
  partitions before it were tried, point into the extended
  partition.
-/
def recordsInside
    (dev : BlkDisk)
    (drv : Drivers)
    (p : MbrPart) :
    (left place : Nat) → Progress → Prop
  | 0, _, _ => True
  | left + 1, place, s =>
      u32 place ≠ 0 → ∀ ebr m,
        diskRead dev (u32 place) 1 s.media = (some ebr, m) →
          (place < 2 ^ 32 ∧ place < p.start + p.sectors) ∧
            (hasTable ebr = true →
              partInside dev p (mbrPart ebr 0) place ∧
                ((mbrPart ebr 1).sectors ≠ 0 →
                  recordsInside dev drv p left
                    (p.start + (mbrPart ebr 1).start)
                    (useLink dev drv place (mbrPart ebr 0)
                      { s with media := m }).2))

theorem u32_eq_iff {n : Nat} :
    u32 n = n ↔ n < 2 ^ 32 := by
  unfold u32
  omega

theorem chainLoop_zero
    (dev : BlkDisk)
    (drv : Drivers)
    (base left : Nat)
    (s : Progress) :
    chainLoop dev drv base left 0 s = ([], s) := by
  cases left with
  | zero => rfl
  | succ left => rfl

/- The call for a partition, and its record. -/
theorem useLink_inside_iff
    (dev : BlkDisk)
    (drv : Drivers)
    (s : Progress)
    {lp : MbrPart}
    (hFrom : p.start ≤ place)
    (hExact : u32 place = place) :
    (∀ c, (useLink dev drv place lp s).1 = some c →
      Accepts dev c.lba c.count →
        c.lba = place + lp.start ∧ p.start ≤ c.lba ∧
          c.lba + c.count ≤ p.start + p.sectors) ↔
      partInside dev p lp place := by
  unfold useLink partInside
  by_cases hNone : lp.sectors = 0
  · rw [if_neg (by simp [hNone])]
    refine iff_of_true nofun ?_
    rintro ⟨hSome, -⟩
    omega
  · rw [if_pos (by simp [hNone])]
    unfold mountNext
    simp only [Option.some.injEq, forall_eq']
    refine imp_congr_right fun _ => ?_
    rw [u32_eq_iff]
    constructor
    · rintro ⟨hWhole, -, hStop⟩
      rw [u32_eq_iff.mpr hWhole] at hStop
      exact ⟨hWhole, hStop⟩
    · rintro ⟨hWhole, hStop⟩
      rw [u32_eq_iff.mpr hWhole]
      exact ⟨hWhole, by omega, hStop⟩

/- A chain stays inside as long as its records say so. -/
theorem chainLoop_inside_iff
    (hFrom : p.start ≤ place) :
    (∀ link ∈ (chainLoop dev drv p.start left place s).1,
      link.Inside dev p) ↔
      recordsInside dev drv p left place s := by
  induction left generalizing place s with
  | zero => exact iff_of_true nofun trivial
  | succ left ih =>
      rw [chainLoop, recordsInside]
      dsimp only
      by_cases hEnd : u32 place = 0
      · rw [if_pos (by simp [hEnd])]
        exact iff_of_true nofun (fun hMore => absurd hEnd hMore)
      · rw [if_neg (by simp [hEnd]), forall_prop_of_true hEnd]
        generalize diskRead dev (u32 place) 1 s.media = read
        obtain ⟨found, m⟩ := read
        cases found with
        | none => exact iff_of_true nofun (fun _ _ => nofun)
        | some ebr =>
            have hRead (q : Buf → Media → Prop) :
                (∀ ebr' m', (some ebr, m) = (some ebr', m') →
                  q ebr' m') ↔ q ebr m := by
              constructor
              · exact fun hAll => hAll ebr m rfl
              · rintro hHere ebr' m' hSame
                cases hSame
                exact hHere
            rw [hRead]
            dsimp only
            by_cases hWhole : u32 place = place
            · have hFits := u32_eq_iff.mp hWhole
              rw [hWhole]
              have hBounds : (place < 2 ^ 32 ∧
                  place < p.start + p.sectors) ↔
                    p.start ≤ place ∧
                      place < p.start + p.sectors :=
                ⟨fun hIn => ⟨hFrom, hIn.2⟩,
                  fun hIn => ⟨hFits, hIn.2⟩⟩
              rw [hBounds]
              cases hasTable ebr with
              | false =>
                  rw [Bool.not_false, if_pos rfl,
                    List.forall_mem_singleton]
                  refine ⟨fun hLink => ⟨hLink.bounds, nofun⟩,
                    fun hIn => ⟨rfl, hIn.1, nofun⟩⟩
              | true =>
                  rw [if_neg (by decide), List.forall_mem_cons,
                    forall_prop_of_true rfl,
                    ← useLink_inside_iff dev drv
                      { s with media := m } hFrom hWhole,
                    ← and_assoc]
                  refine and_congr ?_ ?_
                  · constructor
                    · exact fun hLink =>
                        ⟨hLink.bounds, hLink.range⟩
                    · exact fun hIn => ⟨rfl, hIn.1, hIn.2⟩
                  · by_cases hLast :
                        (mbrPart ebr 1).sectors = 0
                    · rw [if_neg (by simp [hLast]),
                        chainLoop_zero]
                      exact iff_of_true nofun
                        (fun hMore => absurd hLast hMore)
                    · rw [if_pos (by simp [hLast]),
                        forall_prop_of_true hLast]
                      exact ih (Nat.le_add_right _ _)
            · refine iff_of_false ?_ ?_
              · intro hAll
                refine hWhole ?_
                split at hAll
                · exact (hAll _ List.mem_cons_self).exact
                · exact (hAll _ List.mem_cons_self).exact
              · rintro ⟨⟨hFits, -⟩, -⟩
                exact hWhole (u32_eq_iff.mpr hFits)

/- The walk stops after sixteen links. -/
theorem length_chainLoop
    (dev : BlkDisk)
    (drv : Drivers)
    (base left place : Nat)
    (s : Progress) :
    (chainLoop dev drv base left place s).1.length ≤ left := by
  induction left generalizing place s with
  | zero => exact Nat.le_refl _
  | succ left ih =>
      rw [chainLoop]
      dsimp only
      split
      · exact Nat.zero_le _
      · split
        · exact Nat.zero_le _
        · split
          · exact Nat.succ_le_succ (Nat.zero_le _)
          · exact Nat.succ_le_succ (ih _ _)

--
-- Scans
--

/- A chain that starts at an extended entry of the table. -/
structure ChainSeen.Walked
    (dev : BlkDisk)
    (drv : Drivers)
    (parts : List MbrPart)
    (chain : ChainSeen) : Prop where
  entry : chain.part ∈ parts
  extended : isExtended chain.part.type = true
  some : chain.part.sectors ≠ 0
  links : chain.links =
    (chainLoop dev drv chain.part.start 16 chain.part.start
      chain.before).1

/- The chains are those of the entries, in their order. -/
theorem scanParts_walked
    (dev : BlkDisk)
    (drv : Drivers)
    {all parts : List MbrPart}
    {s : List ChainSeen × Progress}
    (hParts : ∀ p ∈ parts, p ∈ all)
    (hBefore : ∀ chain ∈ s.1, chain.Walked dev drv all) :
    ∀ chain ∈ (parts.foldl (scanPart dev drv) s).1,
      chain.Walked dev drv all := by
  induction parts generalizing s with
  | nil => exact hBefore
  | cons p parts ih =>
      rw [List.forall_mem_cons] at hParts
      rw [List.foldl_cons]
      refine ih hParts.2 ?_
      unfold scanPart
      split
      · exact hBefore
      · rename_i hUsed
        split
        · rename_i hExtended
          intro chain hMem
          rcases List.mem_append.mp hMem with hOld | hNew
          · exact hBefore chain hOld
          · obtain rfl := List.mem_singleton.mp hNew
            refine ⟨hParts.1, hExtended, ?_, rfl⟩
            intro hNone
            refine hUsed ?_
            rw [Bool.or_eq_true, beq_iff_eq]
            exact .inl hNone
        · exact hBefore

/- The records of the chain of an extended partition. -/
def ChainSeen.Records
    (dev : BlkDisk)
    (drv : Drivers)
    (chain : ChainSeen) : Prop :=
  recordsInside dev drv chain.part 16 chain.part.start
    chain.before

theorem scanDisk_walked
    (dev : BlkDisk)
    (drv : Drivers)
    (held : Buf)
    (seq : Nat)
    (m : Media) :
    ∀ chain ∈ (scanDisk dev drv held seq m).1,
      ∃ sec, (diskRead dev 0 1 m).1 = some sec ∧
        chain.Walked dev drv
          ((List.range 4).map (mbrPart sec)) := by
  unfold scanDisk
  generalize diskRead dev 0 1 m = read
  obtain ⟨found, m'⟩ := read
  cases found with
  | none => exact nofun
  | some sec =>
      dsimp only
      split
      · exact nofun
      · split
        · exact nofun
        · intro chain hMem
          exact ⟨sec, rfl, scanParts_walked dev drv
            (fun _ hIn => hIn)
            (fun _ hNone => absurd hNone List.not_mem_nil)
            chain hMem⟩

/-
  A scan walks the chains of the extended entries of the
  table, at most sixteen links each; the links and the
  partitions of all of them lie inside the extended ones just
  when the records say so.
-/
theorem scanDisk_inside_iff
    (dev : BlkDisk)
    (drv : Drivers)
    (held : Buf)
    (seq : Nat)
    (m : Media) :
    ((∀ chain ∈ (scanDisk dev drv held seq m).1,
        chain.Inside dev) ↔
      ∀ chain ∈ (scanDisk dev drv held seq m).1,
        chain.Records dev drv) ∧
      ∀ chain ∈ (scanDisk dev drv held seq m).1,
        chain.links.length ≤ 16 ∧
          ∃ sec, (diskRead dev 0 1 m).1 = some sec ∧
            chain.Walked dev drv
              ((List.range 4).map (mbrPart sec)) := by
  have hWalked := scanDisk_walked dev drv held seq m
  refine ⟨forall₂_congr fun chain hMem => ?_,
    fun chain hMem => ⟨?_, hWalked chain hMem⟩⟩
  · obtain ⟨sec, -, hChain⟩ := hWalked chain hMem
    unfold ChainSeen.Inside ChainSeen.Records
    rw [hChain.links]
    exact chainLoop_inside_iff (Nat.le_refl _)
  · obtain ⟨sec, -, hChain⟩ := hWalked chain hMem
    rw [hChain.links]
    exact length_chainLoop dev drv _ 16 _ _

/- An extended partition whose link names blocks behind it. -/
def strayMedia : Media where
  block b :=
    if b = 0 then
      (((((Buf.zero.put32 0x1FE 0xAA55).put32 0x1C2 5).put32
        0x1C6 10).put32 0x1CA 10))
    else if b = 10 then
      (((((Buf.zero.put32 0x1FE 0xAA55).put32 0x1C2 6).put32
        0x1C6 50).put32 0x1CA 5))
    else
      Buf.zero
  reads := 0

/- No driver knows any partition. -/
def noDrivers : Drivers where
  fatProbe _ _ m := (false, m)
  fatMount _ _ _ m := (false, m)
  ntfsProbe _ _ m := (false, m)
  ntfsMount _ _ _ m := (false, m)
  fatProbe_inside _ _ _ _ _ := rfl
  fatMount_inside _ _ _ _ _ _ := rfl
  ntfsProbe_inside _ _ _ _ _ := rfl
  ntfsMount_inside _ _ _ _ _ _ := rfl

/- Blocks 60 to 64 are tried, behind block 19. -/
theorem stray_partition_tried :
    ¬∀ dev drv held seq m,
      ∀ chain ∈ (scanDisk dev drv held seq m).1,
        chain.Inside dev := by
  intro hAll
  have hInside := hAll tinyDisk noDrivers Buf.zero 0 strayMedia
  have hTried : (scanDisk tinyDisk noDrivers Buf.zero 0
      strayMedia).1.map (fun chain =>
        (chain.part.start, chain.part.sectors,
          chain.links.map (fun link => link.call))) =
        [(10, 10, [some ⟨"usb0p1", 60, 5⟩])] := by
    decide +kernel
  obtain ⟨chain, hMem, hChain⟩ := List.mem_map.mp
    (hTried ▸ List.mem_singleton_self _)
  rw [Prod.mk.injEq, Prod.mk.injEq] at hChain
  obtain ⟨hStart, hSectors, hLinks⟩ := hChain
  obtain ⟨link, hIn, hCall⟩ := List.mem_map.mp
    (hLinks ▸ List.mem_singleton_self _)
  have hRange := ((hInside chain hMem link hIn).range _ hCall
    ⟨by decide, by decide⟩).2.2
  rw [hStart, hSectors] at hRange
  exact absurd hRange (by decide)

end KvantOS.Partition
