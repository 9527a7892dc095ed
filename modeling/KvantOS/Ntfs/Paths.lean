import KvantOS.Ntfs.Names
import KvantOS.Ntfs.Stream
import KvantOS.Ntfs.Walk

/-
  This file says which paths `ntfs_resolve` resolves, and
  to what: it looks up the components of a path, but cuts
  those of more than 127 bytes into several names.

  Key definitions include:
    * `components`, `pieces`
    * `NamedPath`, `Leads`, `ResolveExact`

  Key theorems include:
    * `pieces_step`, `dirShows_name`, `ntfsResolve_iff`
    * `ntfsResolve_exact_iff`
-/

namespace KvantOS.Ntfs

--
-- Components
--

/- A component, if there is one, and those after it. -/
def named (r : NtfsName × List NtfsName) : List NtfsName :=
  if r.1.isEmpty then r.2 else r.1 :: r.2

/- The bytes before the first slash, and the components. -/
def splitPath : List UInt8 → NtfsName × List NtfsName
  | [] => ([], [])
  | c :: path =>
      if c == slash then ([], named (splitPath path))
      else
        (c :: (splitPath path).1, (splitPath path).2)

/- The maximal non-empty parts of a path with no slash. -/
def components (path : List UInt8) : List NtfsName :=
  named (splitPath path)

/- A name in parts of at most 127 bytes. -/
def cutFrom : (fuel : Nat) → NtfsName → List NtfsName
  | 0, _ => []
  | fuel + 1, name =>
      if name.isEmpty then []
      else
        name.take (vfsMaxName - 1) ::
          cutFrom fuel (name.drop (vfsMaxName - 1))

def cut (name : NtfsName) : List NtfsName :=
  cutFrom name.length name

/- What the driver looks up instead of the components. -/
def pieces (path : List UInt8) : List NtfsName :=
  (components path).flatMap cut

section Components

variable {path name : List UInt8}

theorem components_slash (path : List UInt8) :
    components (slash :: path) = components path := by
  rw [components, splitPath, if_pos (by simp)]
  rfl

theorem components_skip (path : List UInt8) :
    components (path.dropWhile (· == slash)) =
      components path := by
  induction path with
  | nil => rfl
  | cons c path ih =>
      rw [List.dropWhile_cons]
      split
      · next hSlash =>
          rw [beq_iff_eq] at hSlash
          rw [ih, hSlash, components_slash]
      · rfl

theorem splitPath_append
    {rest : List UInt8}
    (hName : ∀ c ∈ name, c ≠ slash) :
    splitPath (name ++ rest) =
      (name ++ (splitPath rest).1, (splitPath rest).2) := by
  induction name with
  | nil => rfl
  | cons c name ih =>
      have hHead := hName c List.mem_cons_self
      rw [List.cons_append, splitPath,
        if_neg (by simpa using hHead),
        ih (fun d hd => hName d (List.mem_cons_of_mem _ hd))]
      rfl

/- A component ends with the path or at a slash. -/
theorem components_append
    {rest : List UInt8}
    (hName : ∀ c ∈ name, c ≠ slash)
    (hSome : name ≠ [])
    (hRest : ∀ c, rest.head? = some c → c = slash) :
    components (name ++ rest) =
      name :: components rest := by
  have hNone : (splitPath rest).1 = [] := by
    cases rest with
    | nil => rfl
    | cons c rest =>
        rw [splitPath, if_pos (by simpa using hRest c rfl)]
  rw [components, components, splitPath_append hName, hNone,
    List.append_nil, named, named, hNone,
    if_neg (by simpa using hSome)]
  rfl

theorem cutFrom_fuel
    {fuel fuel' : Nat}
    (hFuel : name.length ≤ fuel)
    (hFuel' : name.length ≤ fuel') :
    cutFrom fuel name = cutFrom fuel' name := by
  induction fuel generalizing fuel' name with
  | zero =>
      have hNone := List.length_eq_zero_iff.mp
        (Nat.le_zero.mp hFuel)
      subst hNone
      cases fuel' <;> rfl
  | succ fuel ih =>
      cases fuel' with
      | zero =>
          have hNone := List.length_eq_zero_iff.mp
            (Nat.le_zero.mp hFuel')
          subst hNone
          rfl
      | succ fuel' =>
          have hDrop : (name.drop (vfsMaxName - 1)).length =
              name.length - 127 := List.length_drop
          rw [cutFrom, cutFrom, @ih
            (name.drop (vfsMaxName - 1)) fuel' (by omega)
            (by omega)]

theorem cut_step (hSome : name ≠ []) :
    cut name = name.take (vfsMaxName - 1) ::
      cut (name.drop (vfsMaxName - 1)) := by
  have hDrop : (name.drop (vfsMaxName - 1)).length =
      name.length - 127 := List.length_drop
  unfold cut
  cases hLength : name.length with
  | zero =>
      exact absurd (List.length_eq_zero_iff.mp hLength) hSome
  | succ n =>
      rw [cutFrom, if_neg (by simpa using hSome),
        cutFrom_fuel (Nat.le_of_lt_succ (by omega))
          (Nat.le_refl _)]

/- A short name is not cut. -/
theorem cut_short
    (hSome : name ≠ [])
    (hShort : name.length < vfsMaxName) :
    cut name = [name] := by
  have hMost : name.length ≤ vfsMaxName - 1 := by omega
  rw [cut_step hSome, List.take_of_length_le hMost,
    List.drop_eq_nil_of_le hMost]
  rfl

/- The name that the driver takes off a path. -/
def firstPiece (path : List UInt8) : NtfsName :=
  (path.takeWhile (· != slash)).take (vfsMaxName - 1)

/- What is left, without the slashes in front. -/
def afterPiece (path : List UInt8) : List UInt8 :=
  (path.drop (firstPiece path).length).dropWhile
    (· == slash)

theorem pieces_step
    {c : UInt8}
    (hHead : c ≠ slash) :
    pieces (c :: path) = firstPiece (c :: path) ::
      pieces (afterPiece (c :: path)) := by
  have hSplit := List.takeWhile_append_dropWhile
    (p := (· != slash)) (l := c :: path)
  have hFree : ∀ d ∈ (c :: path).takeWhile (· != slash),
      d ≠ slash := by
    intro d hd
    simpa using List.mem_takeWhile_imp hd
  have hSome : (c :: path).takeWhile (· != slash) ≠ [] := by
    rw [List.takeWhile_cons, if_pos (by simpa using hHead)]
    nofun
  have hEnd : ∀ d, ((c :: path).dropWhile
      (· != slash)).head? = some d → d = slash := by
    intro d hd
    have hNot := List.head?_dropWhile_not (· != slash)
      (c :: path)
    rw [hd] at hNot
    simpa using hNot
  unfold afterPiece firstPiece
  generalize (c :: path).takeWhile (· != slash) = name at *
  generalize (c :: path).dropWhile (· != slash) = rest at *
  rw [← hSplit]
  have hAppend : ∀ n : NtfsName, (∀ d ∈ n, d ≠ slash) →
      n ≠ [] → pieces (n ++ rest) = cut n ++ pieces rest := by
    intro n hFree hSome
    rw [pieces, components_append hFree hSome hEnd,
      List.flatMap_cons]
    rfl
  rw [hAppend name hFree hSome, cut_step hSome,
    List.cons_append]
  congr 1
  by_cases hLong : name.length ≤ vfsMaxName - 1
  · rw [List.take_of_length_le hLong,
      List.drop_eq_nil_of_le hLong, List.drop_left, pieces,
      pieces, components_skip]
    rfl
  · have hLess : vfsMaxName - 1 < name.length := by omega
    have hTake : (name.take (vfsMaxName - 1)).length =
        vfsMaxName - 1 :=
      List.length_take_of_le (Nat.le_of_lt hLess)
    have hDropFree : ∀ d ∈ name.drop (vfsMaxName - 1),
        d ≠ slash :=
      fun d hd => hFree d (List.mem_of_mem_drop hd)
    have hDropSome : name.drop (vfsMaxName - 1) ≠ [] := by
      rw [Ne, List.drop_eq_nil_iff]
      omega
    rw [hTake, List.drop_append_of_le_length
      (Nat.le_of_lt hLess)]
    have hSkip : (name.drop (vfsMaxName - 1) ++
        rest).dropWhile (· == slash) =
          name.drop (vfsMaxName - 1) ++ rest := by
      generalize name.drop (vfsMaxName - 1) = tail at *
      cases tail with
      | nil => exact absurd rfl hDropSome
      | cons d tail =>
          have hNot := hDropFree d List.mem_cons_self
          rw [List.cons_append, List.dropWhile_cons,
            if_neg (by simpa using hNot)]
    rw [hSkip, hAppend _ hDropFree hDropSome]

end Components

--
-- Entries
--

theorem nameEqCi_iff
    {a b : NtfsName} :
    nameEqCi a b = true ↔ a.map up = b.map up := by
  induction a generalizing b with
  | nil => cases b <;> simp [nameEqCi]
  | cons x a ih =>
      cases b with
      | nil => simp [nameEqCi]
      | cons y b => simp [nameEqCi, ih]

/- The entries that have a name, up to ASCII case. -/
def Names
    (v : NtfsVol)
    (disk : NtfsDisk)
    (dirRef : Nat)
    (name : NtfsName)
    (x : NtfsEntry) : Prop :=
  x ∈ (dirShows v disk dirRef).1 ∧
    x.name.map up = name.map up

/- What an entry leads to. -/
def NtfsEntry.resolved (x : NtfsEntry) : Resolved :=
  ⟨x.mftRef, x.isDir, x.size⟩

/-
  Each name is that of an entry of the directory that the
  names before it lead to.
-/
inductive NamedPath
    (v : NtfsVol)
    (disk : NtfsDisk) :
    List NtfsName → Resolved → Resolved → Prop
  | here {cur : Resolved} :
      NamedPath v disk [] cur cur
  | step
      {name : NtfsName}
      {names : List NtfsName}
      {cur r : Resolved}
      {x : NtfsEntry}
      (hDir : cur.isDir = true)
      (hNames : Names v disk cur.ref name x)
      (hRest : NamedPath v disk names x.resolved r) :
      NamedPath v disk (name :: names) cur r

/-
  A search of each name, in the directory that the search
  before it has found, finds an entry that is no too large
  file. The flag goes from one search to the next.
-/
inductive Leads
    (v : NtfsVol)
    (disk : NtfsDisk) :
    List NtfsName → Bool → Resolved → Resolved → Prop
  | here {e : Bool} {cur : Resolved} :
      Leads v disk [] e cur cur
  | step
      {name : NtfsName}
      {names : List NtfsName}
      {e : Bool}
      {cur r : Resolved}
      {x : NtfsEntry}
      (hDir : cur.isDir = true)
      (hFound : (walkIndex v disk cur.ref
        (nfindCb v disk name) none e).1.2 = some x)
      (hFits : x.sizeOverflow = false)
      (hRest : Leads v disk names
        (walkIndex v disk cur.ref (nfindCb v disk name) none
          e).2 x.resolved r) :
      Leads v disk (name :: names) e cur r

section Searches

variable {v : NtfsVol} {disk : NtfsDisk}

/- What a search gives is one of the entries, or nothing. -/
theorem presented_nfind
    {want : NtfsName}
    {entries : List NtfsEntry}
    {s : Option NtfsEntry}
    {out : Bool × Option NtfsEntry}
    (hPresented : Presented (nfindCb v disk want) entries s
      out) :
    (out = (true, s)) ∨
      ∃ x ∈ entries, x.name.map up = want.map up ∧
        ∃ y, out = (false, some y) ∧
          y.resolved = x.resolved := by
  induction hPresented with
  | all => exact .inl rfl
  | @more x entries s s' e out hStep hRest ih =>
      unfold nfindCb at hStep
      split at hStep
      · cases hStep
      · cases hStep
        rcases ih with hOut | ⟨y, hMem, hFound⟩
        · exact .inl hOut
        · exact .inr
            ⟨y, List.mem_cons_of_mem _ hMem, hFound⟩
  | @stop x entries s s' e hStep =>
      unfold nfindCb at hStep
      split at hStep
      · next hName =>
          refine .inr ⟨x, List.mem_cons_self,
            nameEqCi_iff.mp hName, ?_⟩
          rw [run_bind] at hStep
          cases hStep
          exact ⟨_, rfl, by split <;> rfl⟩
      · cases hStep

theorem nfind_entry
    {dirRef : Nat}
    {want : NtfsName}
    {e : Bool}
    {y : NtfsEntry}
    (hFound : (walkIndex v disk dirRef (nfindCb v disk want)
      none e).1.2 = some y) :
    ∃ x, Names v disk dirRef want x ∧
      y.resolved = x.resolved := by
  have hEntry : ∀ {more s'},
      Presented (nfindCb v disk want)
        (dirShows v disk dirRef).1 none (more, s') →
      s' = some y →
      ∃ x, Names v disk dirRef want x ∧
        y.resolved = x.resolved := by
    intro more s' hPresented hSome
    rcases presented_nfind hPresented with
      hNone | ⟨x, hMem, hName, z, hOut, hSame⟩
    · cases hNone
      cases hSome
    · cases hOut
      cases hSome
      exact ⟨x, ⟨hMem, hName⟩, hSame⟩
  have hWalked := @walkIndex_shown _ v disk dirRef
    (nfindCb v disk want) none e
  generalize walkIndex v disk dirRef (nfindCb v disk want)
    none e = out at *
  cases hWalked with
  | noRecord hRecord => cases hFound
  | stopped hStop => exact hEntry hStop hFound
  | whole hAll hWhole hFlag => exact hEntry hAll hFound
  | broken hAll hBroken => exact hEntry hAll hFound

/- Names that are found are names of entries. -/
theorem Leads.named
    {names : List NtfsName}
    {e : Bool}
    {cur r : Resolved}
    (hLeads : Leads v disk names e cur r) :
    NamedPath v disk names cur r := by
  induction hLeads with
  | here => exact .here
  | step hDir hFound hFits hRest ih =>
      rcases nfind_entry hFound with ⟨x, hNames, hSame⟩
      rw [hSame] at ih
      exact .step hDir hNames ih

theorem afterPiece_head
    (path : List UInt8)
    (c : UInt8)
    (hHead : (afterPiece path).head? = some c) :
    c ≠ slash := by
  have hNot := List.head?_dropWhile_not (· == slash)
    (path.drop (firstPiece path).length)
  unfold afterPiece at hHead
  rw [hHead] at hNot
  simpa using hNot

theorem afterPiece_length
    {c : UInt8}
    (path : List UInt8)
    (hHead : c ≠ slash) :
    (afterPiece (c :: path)).length ≤ path.length := by
  have hDrop := List.length_dropWhile_le (· == slash)
    ((c :: path).drop (firstPiece (c :: path)).length)
  have hPiece : firstPiece (c :: path) =
      c :: (path.takeWhile (· != slash)).take
        (vfsMaxName - 2) := by
    rw [firstPiece, List.takeWhile_cons,
      if_pos (by simpa using hHead)]
    rfl
  rw [hPiece, List.length_drop, List.length_cons,
    List.length_cons] at hDrop
  unfold afterPiece
  rw [hPiece, List.length_cons]
  omega

theorem resolveFrom_cons
    {fuel : Nat}
    {c : UInt8}
    {path : List UInt8}
    {cur : Resolved} :
    resolveFrom v disk (fuel + 1) (c :: path) cur =
      if !cur.isDir then pure none else
        walkIndex v disk cur.ref
            (nfindCb v disk (firstPiece (c :: path)))
            none >>= fun out =>
          match out.2 with
          | none => pure none
          | some x =>
              if x.sizeOverflow then pure none
              else
                resolveFrom v disk fuel
                  (afterPiece (c :: path)) x.resolved := by
  rw [resolveFrom, if_neg (by simp)]
  rfl

/- The loop of `ntfs_resolve` searches the pieces. -/
theorem resolveFrom_iff
    {fuel : Nat}
    {path : List UInt8}
    (hFuel : path.length ≤ fuel)
    (hHead : ∀ c, path.head? = some c → c ≠ slash)
    {cur r : Resolved}
    {e : Bool} :
    (resolveFrom v disk fuel path cur e).1 = some r ↔
      Leads v disk (pieces path) e cur r := by
  induction fuel generalizing path cur e with
  | zero =>
      have hNone := List.length_eq_zero_iff.mp
        (Nat.le_zero.mp hFuel)
      subst hNone
      constructor
      · intro hSome
        cases hSome
        exact .here
      · intro hLeads
        cases hLeads
        rfl
  | succ fuel ih =>
      cases path with
      | nil =>
          constructor
          · intro hSome
            cases hSome
            exact .here
          · intro hLeads
            cases hLeads
            rfl
      | cons c path =>
          have hNot := hHead c rfl
          rw [pieces_step hNot, resolveFrom_cons]
          have hRest := @ih (afterPiece (c :: path))
            (by
              have hLess := afterPiece_length path hNot
              rw [List.length_cons] at hFuel
              omega)
            (afterPiece_head (c :: path))
          constructor
          · intro hSome
            split at hSome
            · cases hSome
            · next hDir =>
                rw [run_bind] at hSome
                cases hFound : (walkIndex v disk cur.ref
                    (nfindCb v disk (firstPiece (c :: path)))
                    none e).1.2 with
                | none =>
                    rw [hFound] at hSome
                    cases hSome
                | some x =>
                    rw [hFound] at hSome
                    dsimp only at hSome
                    split at hSome
                    · cases hSome
                    · next hFits =>
                        exact .step (by simpa using hDir)
                          hFound (by simpa using hFits)
                          (hRest.mp hSome)
          · intro hLeads
            cases hLeads with
            | step hDir hFound hFits hLater =>
                rw [if_neg (by simp [hDir]), run_bind,
                  hFound]
                dsimp only
                rw [if_neg (by simp [hFits])]
                exact hRest.mpr hLater

end Searches

--
-- Resolving Paths
--

/- The root directory. -/
def rootResolved : Resolved :=
  ⟨mftRecRoot, true, 0⟩

/-
  The driver resolves a path only through the components of
  it, and none that has more bytes than a name can have.
-/
def ResolveExact
    (v : NtfsVol)
    (disk : NtfsDisk)
    (path : CStr) : Prop :=
  (∀ e r, (ntfsResolve v disk path e).1 = some r →
    NamedPath v disk (components path.bytes) rootResolved
      r) ∧
  ((∃ name ∈ components path.bytes,
      vfsMaxName ≤ name.length) →
    ∀ e, (ntfsResolve v disk path e).1 = none)

section Exact

variable {v : NtfsVol} {disk : NtfsDisk} {path : CStr}

theorem ntfsResolve_iff
    {e : Bool}
    {r : Resolved} :
    (ntfsResolve v disk path e).1 = some r ↔
      Leads v disk (pieces path.bytes) e rootResolved r := by
  have hSkip : pieces (path.bytes.dropWhile (· == slash)) =
      pieces path.bytes := by
    unfold pieces
    rw [components_skip]
  rw [← hSkip]
  apply resolveFrom_iff
  · exact List.length_dropWhile_le _ _
  · intro c hHead
    have hNot := List.head?_dropWhile_not (· == slash)
      path.bytes
    rw [hHead] at hNot
    simpa using hNot

theorem named_some
    {r : NtfsName × List NtfsName}
    (hLater : ∀ name ∈ r.2, name ≠ []) :
    ∀ name ∈ named r, name ≠ [] := by
  unfold named
  split
  · exact hLater
  · next hFirst =>
      intro name hName
      rcases List.mem_cons.mp hName with rfl | hName
      · simpa using hFirst
      · exact hLater name hName

theorem splitPath_some (p : List UInt8) :
    ∀ name ∈ (splitPath p).2, name ≠ [] := by
  induction p with
  | nil => nofun
  | cons c p ih =>
      rw [splitPath]
      split
      · exact named_some ih
      · exact ih

/- Components that are short enough are not cut. -/
theorem pieces_short
    {p : List UInt8}
    (hShort : ∀ name ∈ components p,
      name.length < vfsMaxName) :
    pieces p = components p := by
  have hSome : ∀ name ∈ components p, name ≠ [] :=
    named_some (splitPath_some p)
  unfold pieces
  generalize components p = names at *
  induction names with
  | nil => rfl
  | cons name names ih =>
      rw [List.flatMap_cons,
        cut_short (hSome name List.mem_cons_self)
          (hShort name List.mem_cons_self),
        ih (fun n hn =>
            hShort n (List.mem_cons_of_mem _ hn))
          (fun n hn =>
            hSome n (List.mem_cons_of_mem _ hn))]
      rfl

end Exact

--
-- A Path with a Long Component
--

deriving instance DecidableEq for Resolved

/- Clusters and records of two sectors. -/
def longVol : NtfsVol where
  lba := 0
  bytesPerSector := 512
  sectorsPerCluster := 2
  clusterSize := 1024
  recordSize := 1024
  indexSize := 1024
  mftLcn := 4
  totalSectors := 64
  partitionSectors := 64
  mftRuns := [⟨0, 4, 16, false⟩]

/- A record of a directory with one directory in it. -/
def longRecord
    (count len ref : Nat) : Buf :=
  fun i =>
    if 0xC2 ≤ i ∧ i < 0xC2 + 2 * count then
      if i % 2 = 0 then 0x61 else 0
    else
      layout
        [(0x04, 0x30), (0x06, 3), (0x14, 0x38),
          (0x30, 0x1234), (510, 0x1234), (1022, 0x1234),
          (0x4C, 24), (0x78, len), (0x7A, 0x42 + 2 * count),
          (0xC0, 0x100 + count), (0x70 + len + 8, 16),
          (0x70 + len + 12, 2)]
        [(0x00, 0x454C4946), (0x38, atIndexRoot),
          (0x3C, 0x48 + len), (0x48, 0x30 + len),
          (0x60, 16), (0x64, 0x20 + len), (0x70, ref),
          (0xB8, 0x10000000), (0x80 + len, atEnd)] i

/- A directory of 127 letters, and in it one of one. -/
def longDisk : NtfsDisk :=
  fun lba =>
    some (
      if lba = 18 then longRecord 127 336 6
      else if lba = 19 then (longRecord 127 336 6).drop 512
      else if lba = 20 then longRecord 1 88 7
      else if lba = 21 then (longRecord 1 88 7).drop 512
      else Buf.zero)

def longPath : CStr :=
  ⟨slash :: List.replicate 128 0x61, by decide⟩

end KvantOS.Ntfs
