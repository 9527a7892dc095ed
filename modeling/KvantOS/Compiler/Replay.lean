import KvantOS.Compiler.Layout

/-
  This file proves that a second pass over the structs and
  typedefs of a source finds them as the first pass has left
  them: it succeeds, and changes nothing.

  Key definitions include:
    * `Tags`, `Replays`

  Key theorems include:
    * `findRecord_replays`, `fieldsLoop_replays`
    * `recordType_replays`, `translationUnit_replays`
-/

namespace KvantOS.Compiler

variable {target : Target}

/- A step that succeeds succeeds in both of its parts. -/
theorem bind_eq_ok
    {α β : Type}
    {x : Except Stop α}
    {f : α → Except Stop β}
    {b : β} :
    (x >>= f) = .ok b ↔ ∃ a, x = .ok a ∧ f a = .ok b := by
  cases x with
  | error e => exact ⟨nofun, fun ⟨_, h, _⟩ => nomatch h⟩
  | ok a =>
      constructor
      · exact fun h => ⟨a, rfl, h⟩
      · rintro ⟨a', hA, hF⟩
        cases hA
        exact hF

theorem map_eq_ok
    {α β : Type}
    {x : Except Stop α}
    {f : α → β}
    {b : β} :
    x.map f = .ok b ↔ ∃ a, x = .ok a ∧ f a = b := by
  cases x with
  | error e => exact ⟨nofun, fun ⟨_, h, _⟩ => nomatch h⟩
  | ok a =>
      constructor
      · exact fun h => ⟨a, rfl, Except.ok.inj h⟩
      · rintro ⟨a', hA, rfl⟩
        cases hA
        rfl

--
-- Tags
--

/- The tables have got tags, but nothing else. -/
structure Tags (T G : Tables) : Prop where
  grows : Grows T G
  members : G.members = T.members
  records : ∀ (id : Nat) (record : Record),
    G.records[id]? = some record →
    T.records[id]? = some record ∨
      record.complete = false ∧ record.bytes = 0 ∧
        record.align = 1

theorem Tags.refl (T : Tables) : Tags T T :=
  ⟨.refl T, rfl, fun _ _ hGet => .inl hGet⟩

theorem Tags.sound
    {T G : Tables}
    (hTags : Tags T G)
    (hSound : Sound target T) :
    Sound target G :=
  sound_of_grows hSound hTags.grows hTags.records

variable {F : Fields} {first : Nat}

/- Tags do not disturb a definition. -/
theorem Tags.building
    {T G : Tables}
    (hTags : Tags T G)
    (hSound : Sound target T)
    (hBuilding : Building target T first F) :
    Building target G first F where
  room := by
    rw [hTags.members]
    exact hBuilding.room
  laid := by
    rw [hTags.members]
    exact hBuilding.laid.grows hSound hTags.grows
  empty := hBuilding.empty
  isAlign := hBuilding.isAlign
  small := hBuilding.small
  before := by
    intro id record hGet hComplete
    rcases hTags.records id record hGet with
      hOld | ⟨hTag, -, -⟩
    · exact hBuilding.before id record hOld hComplete
    · rw [hTag] at hComplete
      cases hComplete

variable {id : Nat} {name : List UInt8}

variable {anon : Option Nat}

/- The first struct of a tag stays the first one. -/
theorem findIdx_grows
    {T G : Tables}
    (hGrows : Grows T G)
    (hFind :
      T.records.findIdx? (Record.Named name anon) = some id) :
    G.records.findIdx? (Record.Named name anon) = some id := by
  obtain ⟨hLt, hNamed, hOthers⟩ :=
    List.findIdx?_eq_some_iff_getElem.mp hFind
  have hSame :
      ∀ (j : Nat) (hj : j < T.records.length),
        ∃ hj' : j < G.records.length,
          Record.Named name anon G.records[j] =
            Record.Named name anon T.records[j] := by
    intro j hj
    obtain ⟨record, hGet, hName, hAnon, -⟩ :=
      hGrows.records j _ (List.getElem?_eq_getElem hj)
    obtain ⟨hj', rfl⟩ := List.getElem?_eq_some_iff.mp hGet
    refine ⟨hj', ?_⟩
    rw [Record.Named, Record.Named, hName, hAnon]
  refine List.findIdx?_eq_some_iff_getElem.mpr ?_
  obtain ⟨hLt', hEq⟩ := hSame id hLt
  refine ⟨hLt', hEq.trans hNamed, fun j hj => ?_⟩
  obtain ⟨hj', hEq'⟩ := hSame j (hj.trans hLt)
  rw [hEq']
  exact hOthers j hj

theorem tag_named
    (name : List UInt8)
    (anon : Option Nat) :
    Record.Named name anon (Record.tag name anon) = true := by
  rw [Record.Named]
  split
  · exact beq_self_eq_true _
  · rename_i hNil
    rw [not_not] at hNil
    subst hNil
    simp [Record.tag]

/- A new tag is the last one. -/
theorem tags_push
    (T : Tables)
    (name : List UInt8)
    (anon : Option Nat) :
    Tags T { T with records :=
      T.records ++ [Record.tag name anon] } where
  grows :=
    { records := by
        intro id record hGet
        have hLt := (List.getElem?_eq_some_iff.mp hGet).1
        exact ⟨record,
          (List.getElem?_append_left hLt).trans hGet,
          rfl, rfl, fun _ => rfl⟩
      members := List.prefix_rfl
      aliases := List.prefix_rfl }
  members := rfl
  records := by
    intro id record hGet
    rcases lt_or_ge id T.records.length with hLt | hGe
    · exact .inl
        ((List.getElem?_append_left hLt).symm.trans hGet)
    · rw [List.getElem?_append_right hGe,
        List.getElem?_singleton] at hGet
      split at hGet
      · obtain rfl := Option.some.inj hGet
        exact .inr ⟨rfl, rfl, rfl⟩
      · cases hGet

variable {T T' : Tables}

/- The number of a tag is found again. -/
theorem findRecord_replays
    (hFind : findRecord T name anon = .ok (id, T')) :
    Tags T T' ∧ (∃ record, T'.records[id]? = some record) ∧
      ∀ G, Grows T' G →
        findRecord G name anon = .ok (id, G) := by
  have hAgain :
      T'.records.findIdx? (Record.Named name anon) =
          some id →
        ∀ G, Grows T' G →
          findRecord G name anon = .ok (id, G) := by
    intro hId G hGrows
    rw [findRecord, findIdx_grows hGrows hId]
  rw [findRecord] at hFind
  split at hFind
  · rename_i hOld
    cases hFind
    obtain ⟨hLt, -⟩ :=
      List.findIdx?_eq_some_iff_getElem.mp hOld
    exact ⟨.refl T, ⟨_, List.getElem?_eq_getElem hLt⟩,
      hAgain hOld⟩
  · rename_i hNone
    split at hFind
    · cases hFind
    · cases hFind
      refine ⟨tags_push T name anon,
        ⟨_, List.getElem?_concat_length⟩, hAgain ?_⟩
      rw [List.findIdx?_append, hNone, List.findIdx?_singleton,
        tag_named, if_pos rfl, Option.map_some, Nat.zero_add]
      rfl

variable {r r' : Reader}

theorem recordTag_replays
    (hTag : recordTag T r = .ok (id, T', r')) :
    Tags T T' ∧ (∃ record, T'.records[id]? = some record) ∧
      ∀ G, Grows T' G → recordTag G r = .ok (id, G, r') := by
  obtain ⟨r₁, hNext, hTag⟩ := bind_eq_ok.mp hTag
  obtain ⟨⟨name, anon, r₂⟩, hRead, hTag⟩ := bind_eq_ok.mp hTag
  obtain ⟨⟨id', G'⟩, hFind, hTag⟩ := bind_eq_ok.mp hTag
  cases hTag
  obtain ⟨hTags, hSome, hAgain⟩ := findRecord_replays hFind
  refine ⟨hTags, hSome, fun G hGrows => ?_⟩
  exact bind_eq_ok.mpr ⟨r₁, hNext,
    bind_eq_ok.mpr ⟨_, hRead,
      bind_eq_ok.mpr ⟨_, hAgain G hGrows, rfl⟩⟩⟩

--
-- Types
--

/-
  What `f` reads, `g` reads again in all tables that grow out
  of it, and leaves them as they are.
-/
def Replays
    (target : Target)
    (R : Tables → Tables → Prop)
    (f g : Tables → Reader →
      Except Stop (Ty × Tables × Reader)) : Prop :=
  ∀ T r t T' r', Sound target T → f T r = .ok (t, T', r') →
    R T T' ∧ ∀ G, Grows T' G → g G r = .ok (t, G, r')

variable {t : Ty}

/- An alias that is there is found again. -/
theorem aliasFind_grows
    {T G : Tables}
    (hGrows : Grows T G)
    (hFind : aliasFind T name = some t) :
    aliasFind G name = some t := by
  obtain ⟨more, hMore⟩ := hGrows.aliases
  obtain ⟨a, hA, rfl⟩ := Option.map_eq_some_iff.mp hFind
  rw [aliasFind, ← hMore, List.find?_append, hA]
  rfl

theorem parseTypeWith_replays
    {R : Tables → Tables → Prop}
    {f g : Tables → Reader →
      Except Stop (Ty × Tables × Reader)}
    (hRecord : Replays target R f g)
    (hRefl : ∀ T, R T T) :
    Replays target R (parseTypeWith f) (parseTypeWith g) := by
  intro T r t T' r' hSound hParse
  obtain ⟨⟨const, r₁⟩, hConst, hParse⟩ := bind_eq_ok.mp hParse
  have hAgain (G : Tables) :
      _ → parseTypeWith g G r = .ok (t, G, r') :=
    fun hG => bind_eq_ok.mpr ⟨_, hConst, hG⟩
  dsimp only at hParse hAgain
  split at hParse
  · rename_i hToken
    obtain ⟨hR, hReplay⟩ := hRecord T r₁ t T' r' hSound hParse
    refine ⟨hR, fun G hGrows => hAgain G ?_⟩
    rw [hToken]
    exact hReplay G hGrows
  · rename_i name hToken
    split at hParse
    · rename_i old hOld
      obtain ⟨r₂, hNext, hEq⟩ := map_eq_ok.mp hParse
      cases hEq
      refine ⟨hRefl T, fun G hGrows => hAgain G ?_⟩
      rw [hToken]
      dsimp only
      rw [aliasFind_grows hGrows hOld]
      exact map_eq_ok.mpr ⟨_, hNext, rfl⟩
    · cases hParse
  all_goals
    first
      | cases hParse
      | rename_i hToken
        obtain ⟨r₂, hNext, hEq⟩ := map_eq_ok.mp hParse
        cases hEq
        refine ⟨hRefl T, fun G hGrows => hAgain G ?_⟩
        rw [hToken]
        exact map_eq_ok.mpr ⟨_, hNext, rfl⟩

/- A struct within a definition can only add its tag. -/
theorem recordWithin_replays :
    Replays target Tags recordWithin recordWithin := by
  intro T r t T' r' hSound hRecord
  obtain ⟨⟨id, T₁, r₁⟩, hTag, hRecord⟩ := bind_eq_ok.mp hRecord
  obtain ⟨⟨body, r₂⟩, hBody, hRecord⟩ := bind_eq_ok.mp hRecord
  obtain ⟨hTags, -, hAgain⟩ := recordTag_replays hTag
  cases body with
  | true => cases hRecord
  | false =>
      cases hRecord
      exact ⟨hTags, fun G hGrows => bind_eq_ok.mpr
        ⟨_, hAgain G hGrows, bind_eq_ok.mpr ⟨_, hBody, rfl⟩⟩⟩

--
-- Fields
--

theorem arrayCount_grows
    {T G : Tables}
    {limit n : Nat}
    (hSound : Sound target T)
    (hGrows : Grows T G)
    (hCount : arrayCount target T t limit r = .ok (n, r')) :
    arrayCount target G t limit r = .ok (n, r') := by
  obtain ⟨⟨array, r₁⟩, hArray, hCount⟩ := bind_eq_ok.mp hCount
  refine bind_eq_ok.mpr ⟨_, hArray, ?_⟩
  cases array with
  | false => exact hCount
  | true =>
      obtain ⟨count, hLiteral, hCount⟩ := bind_eq_ok.mp hCount
      refine bind_eq_ok.mpr ⟨count, ?_, hCount⟩
      unfold arrayLiteral at hLiteral ⊢
      split at hLiteral
      · split at hLiteral
        · cases hLiteral
        · rename_i hValid
          rw [(typeBytes_grows hSound hGrows
            (fun hZero => hValid (.inl hZero))).1]
          rw [if_neg hValid]
          exact hLiteral
      · cases hLiteral

/- A definition has gone on, up to other tables and fields. -/
structure Built
    (target : Target)
    (first : Nat)
    (T T' : Tables)
    (F F' : Fields) : Prop where
  sound : Sound target T'
  building : Building target T' first F'
  grows : Grows T T'
  counts : F.count ≤ F'.count
  records : ∀ (id : Nat) (record : Record),
    T'.records[id]? = some record →
    T.records[id]? = some record ∨ record.complete = false

theorem Built.trans
    {T T' T'' : Tables}
    {F F' F'' : Fields}
    (hLeft : Built target first T T' F F')
    (hRight : Built target first T' T'' F' F'') :
    Built target first T T'' F F'' where
  sound := hRight.sound
  building := hRight.building
  grows := hLeft.grows.trans hRight.grows
  counts := hLeft.counts.trans hRight.counts
  records := by
    intro id record hGet
    rcases hRight.records id record hGet with hOld | hOpen
    · exact hLeft.records id record hOld
    · exact .inr hOpen

theorem Tags.built
    (hTags : Tags T T')
    (hSound : Sound target T)
    (hBuilding : Building target T first F) :
    Built target first T T' F F where
  sound := hTags.sound hSound
  building := hTags.building hSound hBuilding
  grows := hTags.grows
  counts := le_rfl
  records := by
    intro id record hGet
    rcases hTags.records id record hGet with
      hOld | ⟨hOpen, -, -⟩
    · exact .inl hOld
    · exact .inr hOpen

variable {type : Ty}

/- A field is entered, and compared with itself later. -/
theorem addField_replays
    {first n : Nat}
    {F F' : Fields}
    (hSound : Sound target T)
    (hBuilding : Building target T first F)
    (hAdd :
      addField target T none first F name type n =
        .ok (T', F')) :
    Built target first T T' F F' ∧ F'.count = F.count + 1 ∧
      ∀ G record, Grows T' G → F.count < record.count →
        addField target G (some record) first F name type n =
          .ok (G, F') := by
  unfold addField at hAdd
  dsimp only at hAdd
  split at hAdd
  · cases hAdd
  rename_i hBytes
  split at hAdd
  · cases hAdd
  rename_i hFits
  split at hAdd
  · cases hAdd
  rename_i hOther
  obtain ⟨T₁, hEnter, hAdd⟩ := bind_eq_ok.mp hAdd
  cases hAdd
  unfold enterMember at hEnter
  dsimp only at hEnter
  split at hEnter
  · cases hEnter
  cases hEnter
  refine ⟨⟨sound_push hSound _,
    building_push hSound hBuilding hBytes rfl
      (not_lt.mp hFits), grows_push T _, Nat.le_succ _,
    fun _ _ hGet => .inl hGet⟩, rfl,
    fun G record hGrows hLt => ?_⟩
  have hRoom := hBuilding.room
  have hG : Grows T G := (grows_push T _).trans hGrows
  obtain ⟨hB, hA⟩ := typeBytes_grows hSound hG hBytes
  have hMember :
      F.member target G name type n =
        F.member target T name type n := by
    rw [Fields.member, Fields.member, hA]
  have hExtent :
      (F.member target T name type n).extent target G =
        (F.member target T name type n).extent target T :=
    extent_grows hSound hG hBytes
  have hPush :
      F.push target G (F.member target T name type n) =
        F.push target T (F.member target T name type n) := by
    rw [Fields.push, Fields.push, hExtent]
    exact congrArg (Fields.mk _ _ <| max _ ·) hA
  have hGet :
      G.members[first + F.count]? =
        some (F.member target T name type n) := by
    obtain ⟨more, hMore⟩ := hGrows.members
    rw [← hMore, List.append_assoc,
      List.getElem?_append_right (by omega), hRoom,
      Nat.sub_self]
    rfl
  unfold addField
  dsimp only
  rw [hMember, hB, if_neg hBytes, hExtent, if_neg hFits,
    hG.slice hRoom.ge, if_neg hOther]
  unfold enterMember
  dsimp only
  rw [if_neg (not_le.mpr hLt), if_neg (not_not.mpr hGet)]
  exact congrArg (fun F => Except.ok (G, F)) hPush

variable {base : Ty}

/- The fields of one type are read again. -/
theorem fieldLoop_replays
    {first turns : Nat}
    {F F' : Fields}
    (hSound : Sound target T)
    (hBuilding : Building target T first F)
    (hLoop :
      fieldLoop target none first base turns T F r =
        .ok (T', F', r')) :
    Built target first T T' F F' ∧
      ∀ G record, Grows T' G → F'.count ≤ record.count →
        fieldLoop target (some record) first base turns G F r =
          .ok (G, F', r') := by
  induction turns generalizing T F r with
  | zero => cases hLoop
  | succ turns ih =>
      obtain ⟨⟨type, r₁⟩, hType, hLoop⟩ := bind_eq_ok.mp hLoop
      obtain ⟨⟨name, r₂⟩, hName, hLoop⟩ := bind_eq_ok.mp hLoop
      obtain ⟨⟨n, r₃⟩, hCount, hLoop⟩ := bind_eq_ok.mp hLoop
      obtain ⟨⟨T₁, F₁⟩, hAdd, hLoop⟩ := bind_eq_ok.mp hLoop
      obtain ⟨⟨more, r₄⟩, hMore, hLoop⟩ := bind_eq_ok.mp hLoop
      obtain ⟨hBuilt, hOne, hAgain⟩ :=
        addField_replays hSound hBuilding hAdd
      -- The steps before the loop goes on, in later tables.
      have hStep :
          ∀ G record, Grows T₁ G → F₁.count ≤ record.count →
            (if more = true then
              fieldLoop target (some record) first base turns
                G F₁ r₄
            else .ok (G, F₁, r₄)) = .ok (G, F', r') →
            fieldLoop target (some record) first base
              (turns + 1) G F r = .ok (G, F', r') := by
        intro G record hGrows hLe hRest
        refine bind_eq_ok.mpr ⟨_, hType, bind_eq_ok.mpr
          ⟨_, hName, bind_eq_ok.mpr ⟨_, arrayCount_grows
            hSound (hBuilt.grows.trans hGrows) hCount,
            bind_eq_ok.mpr ⟨_, hAgain G record hGrows
              (by omega), bind_eq_ok.mpr ⟨_, hMore, hRest⟩⟩⟩⟩⟩
      cases more with
      | false =>
          cases hLoop
          exact ⟨hBuilt, fun G record hGrows hLe =>
            hStep G record hGrows hLe rfl⟩
      | true =>
          obtain ⟨hRest, hAgain'⟩ :=
            ih hBuilt.sound hBuilt.building hLoop
          exact ⟨hBuilt.trans hRest, fun G record hGrows hLe =>
            hStep G record (hRest.grows.trans hGrows)
              (hRest.counts.trans hLe)
              (hAgain' G record hGrows hLe)⟩

/- The fields of a definition are read again. -/
theorem fieldsLoop_replays
    {first turns : Nat}
    {F F' : Fields}
    (hSound : Sound target T)
    (hBuilding : Building target T first F)
    (hLoop :
      fieldsLoop target none first turns T F r =
        .ok (T', F', r')) :
    Built target first T T' F F' ∧
      ∀ G record, Grows T' G → F'.count ≤ record.count →
        fieldsLoop target (some record) first turns G F r =
          .ok (G, F', r') := by
  induction turns generalizing T F r with
  | zero => cases hLoop
  | succ turns ih =>
      rw [fieldsLoop] at hLoop
      split at hLoop
      · rename_i hEnd
        cases hLoop
        refine ⟨(Tags.refl _).built hSound hBuilding,
          fun G record _ _ => ?_⟩
        rw [fieldsLoop, if_pos hEnd]
      · rename_i hEnd
        obtain ⟨⟨base, T₁, r₁⟩, hBase, hLoop⟩ :=
          bind_eq_ok.mp hLoop
        obtain ⟨⟨T₂, F₂, r₂⟩, hFields, hLoop⟩ :=
          bind_eq_ok.mp hLoop
        obtain ⟨r₃, hExpect, hLoop⟩ := bind_eq_ok.mp hLoop
        obtain ⟨hTags, hBase'⟩ :=
          parseTypeWith_replays recordWithin_replays Tags.refl
            T r base T₁ r₁ hSound hBase
        have hBuilt := hTags.built hSound hBuilding
        obtain ⟨hBuilt', hFields'⟩ :=
          fieldLoop_replays hBuilt.sound hBuilt.building hFields
        obtain ⟨hRest, hLoop'⟩ :=
          ih hBuilt'.sound hBuilt'.building hLoop
        refine ⟨(hBuilt.trans hBuilt').trans hRest,
          fun G record hGrows hLe => ?_⟩
        have hG₂ := hRest.grows.trans hGrows
        rw [fieldsLoop, if_neg hEnd]
        exact bind_eq_ok.mpr
          ⟨_, hBase' G (hBuilt'.grows.trans hG₂), bind_eq_ok.mpr
            ⟨_, hFields' G record hG₂ (hRest.counts.trans hLe),
              bind_eq_ok.mpr ⟨_, hExpect,
                hLoop' G record hGrows hLe⟩⟩⟩

--
-- Definitions
--

/- A step keeps the tables sound, and they grow. -/
def Steps
    (target : Target)
    (T T' : Tables) : Prop :=
  Sound target T → Sound target T' ∧ Grows T T'

theorem Steps.refl (T : Tables) : Steps target T T :=
  fun hSound => ⟨hSound, .refl T⟩

/- A struct that is completed again stays as it is. -/
theorem finish_again
    {T G : Tables}
    (hGet : G.records[id]? = some (T.finished id first F)) :
    G.finish id first F = G := by
  obtain ⟨hLt, hEq⟩ := List.getElem?_eq_some_iff.mp hGet
  have hRecord : G.finished id first F = G.records[id] := by
    rw [hEq, Tables.finished, record_of_get hGet]
    rfl
  change
    { G with
      records := G.records.set id (G.finished id first F) } = G
  rw [hRecord, List.set_getElem_self]

theorem recordBody_replays
    {turns id : Nat}
    {old : Record}
    (hSound : Sound target T)
    (hGet : T.records[id]? = some old)
    (hBody :
      recordBody target .first turns id T r = .ok (t, T', r')) :
    Sound target T' ∧ Grows T T' ∧
      ∀ G, Grows T' G →
        recordBody target .second turns id G r =
          .ok (t, G, r') := by
  unfold recordBody at hBody
  dsimp only at hBody
  rw [record_of_get hGet] at hBody
  split at hBody
  · cases hBody
  rename_i hOpen
  have hOpen : old.complete = false :=
    Bool.eq_false_iff.mpr fun hComplete =>
      hOpen ⟨hComplete, rfl⟩
  simp only [hOpen, Bool.false_eq_true, if_false] at hBody
  obtain ⟨⟨T₁, F, r₁⟩, hFields, hBody⟩ := bind_eq_ok.mp hBody
  obtain ⟨r₂, hExpect, hBody⟩ := bind_eq_ok.mp hBody
  obtain ⟨T₂, hClose, hBody⟩ := bind_eq_ok.mp hBody
  cases hBody
  obtain ⟨hBuilt, hAgain⟩ := fieldsLoop_replays hSound
    (building_start hSound) hFields
  unfold closeRecord at hClose
  split at hClose
  · cases hClose
  rename_i hCount
  split at hClose
  · cases hClose
  rename_i hSmall
  cases hClose
  -- The struct has not been completed by its own fields.
  obtain ⟨record, hGet₁, -, -, -⟩ :=
    hBuilt.grows.records id old hGet
  have hOpen₁ : record.complete = false := by
    rcases hBuilt.records id record hGet₁ with hOld | hOpen₁
    · obtain rfl := Option.some.inj (hGet.symm.trans hOld)
      exact hOpen
    · exact hOpen₁
  have hGrows := @grows_finish T₁ id T.members.length F record
    hGet₁ hOpen₁
  refine ⟨sound_finish hBuilt.sound hBuilt.building hGet₁
    hOpen₁ hCount (not_lt.mp hSmall),
    hBuilt.grows.trans hGrows, fun G hG => ?_⟩
  have hDone := hG.complete (finish_get hGet₁) rfl
  have hAgain' := hAgain G (T₁.finished id T.members.length F)
    (hGrows.trans hG) le_rfl
  unfold recordBody
  dsimp only
  rw [record_of_get hDone, if_neg (by
    rintro ⟨-, hPass⟩
    cases hPass)]
  refine bind_eq_ok.mpr ⟨_, hAgain',
    bind_eq_ok.mpr ⟨_, hExpect, bind_eq_ok.mpr ⟨G, ?_, rfl⟩⟩⟩
  unfold closeRecord
  rw [if_neg hCount, if_neg hSmall, if_neg]
  · exact congrArg Except.ok (finish_again hDone)
  · simp [Tables.finished]

theorem recordType_replays
    (turns : Nat) :
    Replays target (Steps target)
      (recordType target .first turns)
      (recordType target .second turns) := by
  intro T r t T' r' hSound hType
  obtain ⟨⟨id, T₁, r₁⟩, hTag, hType⟩ := bind_eq_ok.mp hType
  obtain ⟨⟨body, r₂⟩, hBody, hType⟩ := bind_eq_ok.mp hType
  obtain ⟨hTags, ⟨record, hGet⟩, hAgain⟩ :=
    recordTag_replays hTag
  have hSound₁ := hTags.sound hSound
  cases body with
  | false =>
      cases hType
      exact ⟨fun _ => ⟨hSound₁, hTags.grows⟩,
        fun G hGrows => bind_eq_ok.mpr ⟨_, hAgain G hGrows,
          bind_eq_ok.mpr ⟨_, hBody, rfl⟩⟩⟩
  | true =>
      obtain ⟨hSound', hGrows', hAgain'⟩ :=
        recordBody_replays hSound₁ hGet hType
      exact ⟨fun _ => ⟨hSound', hTags.grows.trans hGrows'⟩,
        fun G hGrows => bind_eq_ok.mpr
          ⟨_, hAgain G (hGrows'.trans hGrows), bind_eq_ok.mpr
            ⟨_, hBody, hAgain' G hGrows⟩⟩⟩

theorem parseType_replays
    (turns : Nat) :
    Replays target (Steps target)
      (parseType target .first turns)
      (parseType target .second turns) :=
  parseTypeWith_replays (recordType_replays turns) Steps.refl

--
-- Declarations
--

theorem grows_alias
    (T : Tables)
    (a : List UInt8 × Ty) :
    Grows T { T with aliases := T.aliases ++ [a] } where
  records := (Grows.refl T).records
  members := List.prefix_rfl
  aliases := List.prefix_append _ _

variable {symbols : List (List UInt8)}

/- A typedef is its own in the second pass. -/
theorem typeAlias_replays
    (hSound : Sound target T)
    (hAlias :
      typeAlias symbols .first T name type = .ok T') :
    Sound target T' ∧ Grows T T' ∧
      ∀ G, Grows T' G →
        typeAlias symbols .second G name type = .ok G := by
  unfold typeAlias at hAlias
  split at hAlias
  · rw [if_neg (by
      rintro ⟨hPass, -⟩
      cases hPass)] at hAlias
    cases hAlias
  rename_i hNone
  split at hAlias
  · cases hAlias
  split at hAlias
  · cases hAlias
  cases hAlias
  have hGrows := grows_alias T (name, type)
  refine ⟨sound_of_grows hSound hGrows
    fun _ _ hGet => .inl hGet, hGrows, fun G hG => ?_⟩
  have hFind :
      aliasFind { T with aliases := T.aliases ++ [(name, type)] }
        name = some type := by
    rw [aliasFind, List.find?_append,
      Option.map_eq_none_iff.mp hNone, Option.none_or]
    simp
  unfold typeAlias
  rw [aliasFind_grows hG hFind]
  exact if_pos ⟨rfl, rfl⟩

variable {turns : Nat}

theorem typedefLoop_replays
    (hSound : Sound target T)
    (hLoop :
      typedefLoop symbols .first base turns T r =
        .ok (T', r')) :
    Sound target T' ∧ Grows T T' ∧
      ∀ G, Grows T' G →
        typedefLoop symbols .second base turns G r =
          .ok (G, r') := by
  induction turns generalizing T r with
  | zero => cases hLoop
  | succ turns ih =>
      obtain ⟨⟨type, r₁⟩, hType, hLoop⟩ := bind_eq_ok.mp hLoop
      obtain ⟨⟨name, r₂⟩, hName, hLoop⟩ := bind_eq_ok.mp hLoop
      dsimp only at hLoop
      split at hLoop
      · cases hLoop
      rename_i hObject
      obtain ⟨T₁, hAlias, hLoop⟩ := bind_eq_ok.mp hLoop
      obtain ⟨⟨more, r₃⟩, hMore, hLoop⟩ := bind_eq_ok.mp hLoop
      obtain ⟨hSound₁, hGrows₁, hAgain⟩ :=
        typeAlias_replays hSound hAlias
      have hStep :
          ∀ G, Grows T₁ G →
            (if more = true then
              typedefLoop symbols .second base turns G r₃
            else .ok (G, r₃)) = .ok (G, r') →
            typedefLoop symbols .second base (turns + 1) G r =
              .ok (G, r') := by
        intro G hGrows hRest
        refine bind_eq_ok.mpr ⟨_, hType, bind_eq_ok.mpr
          ⟨_, hName, ?_⟩⟩
        dsimp only
        rw [if_neg hObject]
        exact bind_eq_ok.mpr ⟨_, hAgain G hGrows,
          bind_eq_ok.mpr ⟨_, hMore, hRest⟩⟩
      cases more with
      | false =>
          cases hLoop
          exact ⟨hSound₁, hGrows₁, fun G hGrows =>
            hStep G hGrows rfl⟩
      | true =>
          obtain ⟨hSound', hGrows', hAgain'⟩ := ih hSound₁ hLoop
          exact ⟨hSound', hGrows₁.trans hGrows', fun G hGrows =>
            hStep G (hGrows'.trans hGrows) (hAgain' G hGrows)⟩

/- A second pass over the declarations changes nothing. -/
theorem translationUnit_replays
    (hSound : Sound target T)
    (hUnit :
      translationUnit target symbols .first turns T r =
        .ok (T', r')) :
    Sound target T' ∧ Grows T T' ∧
      ∀ G, Grows T' G →
        translationUnit target symbols .second turns G r =
          .ok (G, r') := by
  induction turns generalizing T r with
  | zero => cases hUnit
  | succ turns ih =>
      rw [translationUnit] at hUnit
      split at hUnit
      · rename_i hEnd
        cases hUnit
        refine ⟨hSound, .refl _, fun G _ => ?_⟩
        rw [translationUnit, if_pos hEnd]
      rename_i hEnd
      obtain ⟨⟨typedef, r₁⟩, hTypedef, hUnit⟩ :=
        bind_eq_ok.mp hUnit
      obtain ⟨⟨base, T₁, r₂⟩, hBase, hUnit⟩ :=
        bind_eq_ok.mp hUnit
      obtain ⟨hSteps, hBase'⟩ :=
        parseType_replays turns T r₁ base T₁ r₂ hSound hBase
      obtain ⟨hSound₁, hGrows₁⟩ := hSteps hSound
      cases typedef with
      | true =>
          obtain ⟨⟨T₂, r₃⟩, hNames, hUnit⟩ :=
            bind_eq_ok.mp hUnit
          obtain ⟨r₄, hExpect, hUnit⟩ := bind_eq_ok.mp hUnit
          obtain ⟨hSound₂, hGrows₂, hNames'⟩ :=
            typedefLoop_replays hSound₁ hNames
          obtain ⟨hSound', hGrows', hAgain⟩ := ih hSound₂ hUnit
          refine ⟨hSound', hGrows₁.trans (hGrows₂.trans hGrows'),
            fun G hGrows => ?_⟩
          have hG₂ := hGrows'.trans hGrows
          rw [translationUnit, if_neg hEnd]
          exact bind_eq_ok.mpr ⟨_, hTypedef, bind_eq_ok.mpr
            ⟨_, hBase' G (hGrows₂.trans hG₂), bind_eq_ok.mpr
              ⟨_, hNames' G hG₂, bind_eq_ok.mpr
                ⟨_, hExpect, hAgain G hGrows⟩⟩⟩⟩
      | false =>
          obtain ⟨⟨ends, r₃⟩, hEnds, hUnit⟩ :=
            bind_eq_ok.mp hUnit
          dsimp only at hUnit
          split at hUnit
          · cases hUnit
          rename_i hSemi
          split at hUnit
          · cases hUnit
          rename_i hIsRecord
          obtain ⟨hSound', hGrows', hAgain⟩ := ih hSound₁ hUnit
          refine ⟨hSound', hGrows₁.trans hGrows',
            fun G hGrows => ?_⟩
          rw [translationUnit, if_neg hEnd]
          refine bind_eq_ok.mpr ⟨_, hTypedef, bind_eq_ok.mpr
            ⟨_, hBase' G (hGrows'.trans hGrows), bind_eq_ok.mpr
              ⟨_, hEnds, ?_⟩⟩⟩
          dsimp only
          rw [if_neg hSemi, if_neg hIsRecord]
          exact hAgain G hGrows

end KvantOS.Compiler
