import Mathlib.Data.List.Basic

/-
  This file is about queues that join an event to a queued
  one of the same slot; events without a slot are never
  joined. A history of such a queue says which submitted
  events each queued or taken event stands for.

  It is generic in the events and their slots.

  Key definitions include:
    * `Coalesce.push`, `Coalesce.Group`, `Coalesce.History`

  Key theorems include:
    * `Coalesce.push_eq_set`, `Coalesce.push_eq_append`
    * `Coalesce.push_fused`, `Coalesce.History.submit`
    * `Coalesce.History.take`, `Coalesce.History.plain`
-/

namespace Coalesce

variable {E K : Type}

/- The new event is joined to the queued one. -/
def Joins
    (slot : E → Option K)
    (a e : E) : Prop :=
  slot e ≠ none ∧ slot a = slot e

instance
    [DecidableEq K]
    (slot : E → Option K)
    (a e : E) :
    Decidable (Joins slot a e) := by
  unfold Joins
  infer_instance

/- Join the event to the first of its slot, or queue it. -/
def push
    [DecidableEq K]
    (slot : E → Option K)
    (merge : E → E → E) :
    List E → E → List E
  | [], e => [e]
  | a :: q, e =>
      if Joins slot a e then merge a e :: q
      else a :: push slot merge q e

--
-- Groups
--

/- The submitted events that one event stands for. -/
structure Group (E : Type) where
  first : E
  rest : List E

namespace Group

def members (g : Group E) : List E :=
  g.first :: g.rest

/- The event that stands for the group. -/
def fused
    (merge : E → E → E)
    (g : Group E) : E :=
  g.rest.foldl merge g.first

/- The group with another member. -/
def add
    (g : Group E)
    (e : E) : Group E :=
  ⟨g.first, g.rest ++ [e]⟩

/- Only events of one slot are joined. -/
structure Uniform
    (slot : E → Option K)
    (g : Group E) : Prop where
  same : ∀ e ∈ g.rest, slot e = slot g.first
  plain : slot g.first = none → g.rest = []

end Group

/- All members of some groups, in order. -/
def members (gs : List (Group E)) : List E :=
  gs.flatMap Group.members

/- The queue of groups that `push` stands for. -/
def join
    [DecidableEq K]
    (slot : E → Option K) :
    List (Group E) → E → List (Group E)
  | [], e => [⟨e, []⟩]
  | g :: gs, e =>
      if Joins slot g.first e then g.add e :: gs
      else g :: join slot gs e

/- No two queued groups have the same slot. -/
def Apart
    (slot : E → Option K)
    (gs : List (Group E)) : Prop :=
  gs.Pairwise (fun g h =>
    slot g.first ≠ none → slot h.first ≠ slot g.first)

section Queues

variable {slot : E → Option K} {merge : E → E → E}
variable {g : Group E} {gs : List (Group E)} {e : E}

theorem Group.fused_add
    (g : Group E)
    (e : E) :
    (g.add e).fused merge = merge (g.fused merge) e := by
  simp [Group.fused, Group.add]

theorem Group.members_add
    (g : Group E)
    (e : E) :
    (g.add e).members = g.members ++ [e] :=
  rfl

/- An event that stands for a group has its slot. -/
theorem Group.Uniform.slot_fused
    (hMerge : ∀ a e, slot e = slot a →
      slot (merge a e) = slot a)
    (hUniform : g.Uniform slot) :
    slot (g.fused merge) = slot g.first := by
  rcases g with ⟨first, rest⟩
  have hSame := hUniform.same
  change ∀ e ∈ rest, slot e = slot first at hSame
  change slot (rest.foldl merge first) = slot first
  clear hUniform
  have hAll : ∀ a, slot a = slot first →
      slot (rest.foldl merge a) = slot first := by
    induction rest with
    | nil => exact fun _ hA => hA
    | cons b rest ih =>
        intro a hA
        have hB := hSame b List.mem_cons_self
        apply ih fun c hC =>
          hSame c (List.mem_cons_of_mem _ hC)
        rw [hMerge a b (hB.trans hA.symm), hA]
  exact hAll first rfl

theorem uniform_single (e : E) :
    (⟨e, []⟩ : Group E).Uniform slot where
  same := fun _ hMem => absurd hMem List.not_mem_nil
  plain := fun _ => rfl

theorem Group.Uniform.add
    (hUniform : g.Uniform slot)
    (hJoins : Joins slot g.first e) :
    (g.add e).Uniform slot where
  same := by
    intro b hMem
    rcases List.mem_append.mp hMem with hOld | hNew
    · exact hUniform.same b hOld
    · rw [List.mem_singleton.mp hNew]
      exact hJoins.2.symm
  plain := by
    intro hNone
    exact absurd (hJoins.2.symm.trans hNone) hJoins.1

/- The events without a slot, among some events. -/
def plains
    (slot : E → Option K)
    (es : List E) : List E :=
  es.filter (slot · = none)

/- Groups of an event without a slot are that event. -/
theorem plains_fused
    (hMerge : ∀ a e, slot e = slot a →
      slot (merge a e) = slot a)
    (hUniform : ∀ g ∈ gs, g.Uniform slot) :
    plains slot (gs.map (Group.fused merge)) =
      plains slot (Coalesce.members gs) := by
  induction gs with
  | nil => rfl
  | cons g gs ih =>
      have hG := hUniform g List.mem_cons_self
      have hSlot := hG.slot_fused hMerge
      have hTail := ih fun h hMem =>
        hUniform h (List.mem_cons_of_mem _ hMem)
      simp only [plains, Coalesce.members, List.map_cons,
        List.flatMap_cons, List.filter_append] at hTail ⊢
      by_cases hNone : slot g.first = none
      · have hRest := hG.plain hNone
        rw [List.filter_cons_of_pos
          (by simpa [hSlot] using hNone), hTail]
        simp [Group.members, Group.fused, hRest, hNone]
      · have hMembers : g.members.filter (slot · = none) =
            [] := by
          rw [List.filter_eq_nil_iff]
          intro b hB hSlotB
          apply hNone
          rw [decide_eq_true_eq] at hSlotB
          rcases List.mem_cons.mp hB with rfl | hLate
          · exact hSlotB
          · rw [← hG.same b hLate]
            exact hSlotB
        rw [List.filter_cons_of_neg
          (by simpa [hSlot] using hNone), hTail, hMembers,
          List.nil_append]

/- Queued events of one slot are at most one. -/
theorem length_slot_le_one
    {q : List E}
    (hApart : q.Pairwise (fun a b =>
      slot a ≠ none → slot b ≠ slot a))
    {p : E → Bool}
    {k : K}
    (hSlot : ∀ a, p a = true → slot a = some k) :
    (q.filter p).length ≤ 1 := by
  have hKept := hApart.filter p
  have hSame : ∀ a ∈ q.filter p, slot a = some k :=
    fun a hMem => hSlot a (List.mem_filter.mp hMem).2
  cases hList : q.filter p with
  | nil => exact Nat.zero_le 1
  | cons a rest =>
      cases rest with
      | nil => exact Nat.le_refl 1
      | cons b rest =>
          rw [hList] at hKept hSame
          have hA := hSame a (by simp)
          have hB := hSame b (by simp)
          have hNe := (List.pairwise_cons.mp hKept).1 b
            (by simp)
          exact absurd (hB.trans hA.symm)
            (hNe (by simp [hA]))

variable [DecidableEq K]

/- The groups of a slot, by their members. -/
theorem filter_members
    (hUniform : ∀ g ∈ gs, g.Uniform slot)
    (k : K) :
    (members gs).filter (slot · = some k) =
      members (gs.filter (slot ·.first = some k)) := by
  induction gs with
  | nil => rfl
  | cons g gs ih =>
      have hG := hUniform g List.mem_cons_self
      have hTail := ih fun h hMem =>
        hUniform h (List.mem_cons_of_mem _ hMem)
      have hSlots : ∀ b ∈ g.members,
          slot b = slot g.first := by
        intro b hB
        rcases List.mem_cons.mp hB with rfl | hLate
        · rfl
        · exact hG.same b hLate
      simp only [members, List.flatMap_cons,
        List.filter_append] at hTail ⊢
      rw [hTail, List.filter_cons]
      by_cases hKind : slot g.first = some k
      · rw [if_pos (decide_eq_true hKind),
          List.flatMap_cons]
        congr 1
        rw [List.filter_eq_self]
        intro b hB
        exact decide_eq_true ((hSlots b hB).trans hKind)
      · rw [if_neg (by simpa using hKind)]
        have hNone : g.members.filter (slot · = some k) =
            [] := by
          rw [List.filter_eq_nil_iff]
          intro b hB hSlot
          apply hKind
          rw [← hSlots b hB]
          exact of_decide_eq_true hSlot
        rw [hNone, List.nil_append]

/- The groups of a slot, by the events they stand for. -/
theorem filter_fused
    (hMerge : ∀ a e, slot e = slot a →
      slot (merge a e) = slot a)
    (hUniform : ∀ g ∈ gs, g.Uniform slot)
    (k : K) :
    (gs.map (Group.fused merge)).filter (slot · = some k) =
      (gs.filter (slot ·.first = some k)).map
        (Group.fused merge) := by
  rw [List.filter_map]
  congr 1
  apply List.filter_congr
  intro g hMem
  simp only [Function.comp_apply,
    (hUniform g hMem).slot_fused hMerge]

theorem push_ne_nil
    {q : List E} :
    push slot merge q e ≠ [] := by
  cases q with
  | nil => exact List.cons_ne_nil _ _
  | cons a q =>
      rw [push]
      split <;> exact List.cons_ne_nil _ _

/- A push that finds an event to join changes it in place. -/
theorem push_eq_set
    {q : List E}
    {i : Nat}
    (hI : i < q.length)
    (hFind : q.findIdx (fun a => decide (Joins slot a e)) =
      i) :
    push slot merge q e = q.set i (merge q[i] e) := by
  induction q generalizing i with
  | nil => cases hI
  | cons a q ih =>
      rw [push]
      rw [List.findIdx_cons] at hFind
      by_cases hJoins : Joins slot a e
      · rw [if_pos hJoins]
        simp only [hJoins, decide_true, cond_true] at hFind
        subst i
        rfl
      · rw [if_neg hJoins]
        simp only [hJoins, decide_false,
          cond_false] at hFind
        subst i
        rw [ih (Nat.lt_of_succ_lt_succ hI) rfl]
        rfl

/- Any other push adds the event at the end. -/
theorem push_eq_append
    {q : List E}
    (hFind : q.findIdx (fun a => decide (Joins slot a e)) =
      q.length) :
    push slot merge q e = q ++ [e] := by
  induction q with
  | nil => rfl
  | cons a q ih =>
      rw [push]
      rw [List.findIdx_cons] at hFind
      by_cases hJoins : Joins slot a e
      · simp [hJoins] at hFind
      · rw [if_neg hJoins]
        simp only [hJoins, decide_false, cond_false,
          List.length_cons, Nat.succ_inj] at hFind
        rw [ih hFind]
        rfl

/- The queue of groups stands for the queue. -/
theorem push_fused
    (hMerge : ∀ a e, slot e = slot a →
      slot (merge a e) = slot a)
    (hUniform : ∀ g ∈ gs, g.Uniform slot)
    (e : E) :
    push slot merge (gs.map (Group.fused merge)) e =
      (join slot gs e).map (Group.fused merge) := by
  induction gs with
  | nil => rfl
  | cons g gs ih =>
      have hSlot := (hUniform g List.mem_cons_self).slot_fused
        hMerge
      have hIff : Joins slot (g.fused merge) e ↔
          Joins slot g.first e := by
        rw [Joins, Joins, hSlot]
      rw [List.map_cons, push, join]
      by_cases hJoins : Joins slot g.first e
      · rw [if_pos (hIff.mpr hJoins), if_pos hJoins,
          List.map_cons, g.fused_add e]
      · rw [if_neg (mt hIff.mp hJoins), if_neg hJoins,
          List.map_cons, ih fun h hMem =>
            hUniform h (List.mem_cons_of_mem _ hMem)]

theorem join_uniform
    (hUniform : ∀ g ∈ gs, g.Uniform slot)
    (e : E) :
    ∀ g ∈ join slot gs e, g.Uniform slot := by
  induction gs with
  | nil =>
      intro g hMem
      rw [List.mem_singleton.mp hMem]
      exact uniform_single e
  | cons h gs ih =>
      have hRest := ih fun g hMem =>
        hUniform g (List.mem_cons_of_mem _ hMem)
      have hFirst := hUniform h List.mem_cons_self
      rw [join]
      split
      · rename_i hJoins
        intro g hMem
        rcases List.mem_cons.mp hMem with rfl | hIn
        · exact hFirst.add hJoins
        · exact hUniform g (List.mem_cons_of_mem _ hIn)
      · intro g hMem
        rcases List.mem_cons.mp hMem with rfl | hIn
        · exact hFirst
        · exact hRest g hIn

/- The slots after a join are those before, and the new. -/
theorem slot_of_join
    (hMem : g ∈ join slot gs e) :
    (∃ h ∈ gs, slot g.first = slot h.first) ∨
      slot g.first = slot e := by
  induction gs with
  | nil =>
      rw [List.mem_singleton.mp hMem]
      exact .inr rfl
  | cons h gs ih =>
      rw [join] at hMem
      split at hMem
      · rcases List.mem_cons.mp hMem with rfl | hIn
        · exact .inl ⟨h, List.mem_cons_self, rfl⟩
        · exact .inl ⟨g, List.mem_cons_of_mem _ hIn, rfl⟩
      · rcases List.mem_cons.mp hMem with rfl | hIn
        · exact .inl ⟨g, List.mem_cons_self, rfl⟩
        · rcases ih hIn with ⟨k, hK, hSame⟩ | hNew
          · exact .inl ⟨k, List.mem_cons_of_mem _ hK, hSame⟩
          · exact .inr hNew

theorem join_apart
    (hApart : Apart slot gs)
    (e : E) :
    Apart slot (join slot gs e) := by
  induction gs with
  | nil => exact List.pairwise_singleton ..
  | cons g gs ih =>
      rcases List.pairwise_cons.mp hApart with
        ⟨hFirst, hRest⟩
      rw [join]
      split
      · exact List.pairwise_cons.mpr ⟨hFirst, hRest⟩
      · rename_i hNot
        refine List.pairwise_cons.mpr ⟨?_, ih hRest⟩
        intro h hMem hSome hSame
        rcases slot_of_join hMem with ⟨k, hK, hOld⟩ | hNew
        · exact hFirst k hK hSome (hOld.symm.trans hSame)
        · apply hNot
          rw [hNew] at hSame
          exact ⟨hSame ▸ hSome, hSame.symm⟩

/- What a join adds, among the events of each slot. -/
theorem members_join
    (hUniform : ∀ g ∈ gs, g.Uniform slot)
    (hApart : Apart slot gs)
    (e : E)
    (k : Option K) :
    (members (join slot gs e)).filter (slot · = k) =
      (members gs).filter (slot · = k) ++
        [e].filter (slot · = k) := by
  induction gs with
  | nil => simp [join, members, Group.members]
  | cons g gs ih =>
      rcases List.pairwise_cons.mp hApart with
        ⟨hFirst, hRest⟩
      have hOthers : ∀ h ∈ gs, h.Uniform slot :=
        fun h hMem =>
          hUniform h (List.mem_cons_of_mem _ hMem)
      rw [join]
      split
      · rename_i hJoins
        by_cases hKind : slot e = k
        · have hNone : (members gs).filter (slot · = k) =
              [] := by
            rw [List.filter_eq_nil_iff]
            intro b hB hSlot
            rcases List.mem_flatMap.mp hB with ⟨h, hH, hIn⟩
            have hSame : slot b = slot h.first := by
              rcases List.mem_cons.mp hIn with rfl | hLate
              · rfl
              · exact (hOthers h hH).same b hLate
            apply hFirst h hH
            · rw [hJoins.2]
              exact hJoins.1
            · rw [← hSame, hJoins.2, hKind]
              exact of_decide_eq_true hSlot
          simp only [members, List.flatMap_cons,
            List.filter_append] at hNone ⊢
          rw [hNone, g.members_add, List.filter_append,
            List.append_nil, List.append_nil]
        · have hNew : [e].filter (slot · = k) = [] := by
            simp [hKind]
          simp only [members, List.flatMap_cons]
          rw [g.members_add, List.filter_append,
            List.filter_append, List.filter_append, hNew,
            List.append_nil, List.append_nil]
      · have hTail := ih hOthers hRest
        simp only [members, List.flatMap_cons,
          List.filter_append, List.append_assoc] at hTail ⊢
        rw [hTail]

--
-- Histories
--

/-
  What was submitted is in the groups that were taken and in
  those that are queued: of each slot, all of it in order.
-/
structure History
    (slot : E → Option K)
    (submitted : List E)
    (taken queued : List (Group E)) : Prop where
  uniform : ∀ g ∈ taken ++ queued, g.Uniform slot
  apart : Apart slot queued
  members : ∀ k,
    (members (taken ++ queued)).filter (slot · = k) =
      submitted.filter (slot · = k)

variable {submitted : List E} {taken queued : List (Group E)}

theorem History.empty :
    History slot ([] : List E) [] [] where
  uniform := fun _ hMem => by cases hMem
  apart := .nil
  members := fun _ => rfl

theorem History.submit
    (hHistory : History slot submitted taken queued)
    (e : E) :
    History slot (submitted ++ [e]) taken
      (join slot queued e) where
  uniform := by
    intro g hMem
    rcases List.mem_append.mp hMem with hOld | hNew
    · exact hHistory.uniform g
        (List.mem_append_left _ hOld)
    · exact join_uniform (fun h hIn => hHistory.uniform h
        (List.mem_append_right _ hIn)) e g hNew
  apart := join_apart hHistory.apart e
  members := by
    intro k
    have hOld := hHistory.members k
    have hJoin := members_join (fun h hIn =>
      hHistory.uniform h (List.mem_append_right _ hIn))
      hHistory.apart e k
    simp only [Coalesce.members, List.flatMap_append,
      List.filter_append] at hOld hJoin ⊢
    rw [hJoin, ← List.append_assoc, hOld]

theorem History.take
    (hHistory : History slot submitted taken (g :: queued)) :
    History slot submitted (taken ++ [g]) queued where
  uniform := by
    intro h hMem
    apply hHistory.uniform
    simpa using hMem
  apart := (List.pairwise_cons.mp hHistory.apart).2
  members := by
    intro k
    rw [List.append_assoc]
    exact hHistory.members k

/- Nothing without a slot is lost, doubled or reordered. -/
theorem History.plain
    (hMerge : ∀ a e, slot e = slot a →
      slot (merge a e) = slot a)
    (hHistory : History slot submitted taken queued) :
    plains slot (taken.map (Group.fused merge)) ++
        plains slot (queued.map (Group.fused merge)) =
      plains slot submitted := by
  have hAll := hHistory.members none
  have hFused := plains_fused hMerge hHistory.uniform
  rw [List.map_append] at hFused
  unfold plains at hFused ⊢
  rw [← List.filter_append, hFused]
  exact hAll

/- What was taken of a slot, out of what was submitted. -/
theorem History.taken_prefix
    (hHistory : History slot submitted taken queued)
    (k : K) :
    Coalesce.members
        (taken.filter (slot ·.first = some k)) <+:
      submitted.filter (slot · = some k) := by
  have hTaken : ∀ g ∈ taken, g.Uniform slot :=
    fun g hMem =>
      hHistory.uniform g (List.mem_append_left _ hMem)
  have hAll := hHistory.members (some k)
  rw [Coalesce.members, List.flatMap_append,
    List.filter_append] at hAll
  rw [← filter_members hTaken k, ← hAll]
  exact List.prefix_append _ _

/- The queue has each slot at most once. -/
theorem History.queued_apart
    (hMerge : ∀ a e, slot e = slot a →
      slot (merge a e) = slot a)
    (hHistory : History slot submitted taken queued) :
    (queued.map (Group.fused merge)).Pairwise (fun a b =>
      slot a ≠ none → slot b ≠ slot a) := by
  have hSlot : ∀ g ∈ queued,
      slot (g.fused merge) = slot g.first :=
    fun g hMem => (hHistory.uniform g
      (List.mem_append_right _ hMem)).slot_fused hMerge
  rw [List.pairwise_map]
  refine hHistory.apart.imp_of_mem ?_
  intro g h hG hH hApart
  rw [hSlot g hG, hSlot h hH]
  exact hApart

end Queues

end Coalesce
