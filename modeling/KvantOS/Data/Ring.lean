import Mathlib.Data.List.Basic
import Mathlib.Data.List.Nodup

/-
  This file describes circular singly linked lists: a function
  gives the successor of each node, and the nodes from one on
  come back to it.

  Key definitions include:
    * `Ring.Path`, `Ring.IsRing`

  Key theorems include:
    * `Ring.path_append`, `Ring.Path.redirect`
    * `Ring.Path.unique`, `Ring.IsRing.rotate`
    * `Ring.IsRing.insert`, `Ring.IsRing.remove`
-/

namespace KvantOS.Ring

variable {α : Type} {next next' : α → α} {a b c n t : α}
variable {xs ys rest : List α}

/- From a node over the nodes of a list to another one. -/
def Path (next : α → α) : α → List α → α → Prop
  | a, [], b => next a = b
  | a, x :: xs, b => next a = x ∧ Path next x xs b

theorem path_append :
    Path next a (xs ++ n :: ys) b ↔
      Path next a xs n ∧ Path next n ys b := by
  induction xs generalizing a with
  | nil => exact Iff.rfl
  | cons x xs ih =>
      rw [List.cons_append]
      simp only [Path]
      rw [ih, and_assoc]

theorem Path.congr
    (hPath : Path next a xs b)
    (hSame : ∀ x ∈ a :: xs, next' x = next x) :
    Path next' a xs b := by
  induction xs generalizing a with
  | nil =>
      exact (hSame a List.mem_cons_self).trans hPath
  | cons x xs ih =>
      refine ⟨(hSame a List.mem_cons_self).trans hPath.1, ?_⟩
      exact ih hPath.2 (fun y hMem =>
        hSame y (List.mem_cons_of_mem a hMem))

/- The last node leads to the end. -/
theorem Path.last
    (hPath : Path next a xs b) :
    next ((a :: xs).getLast (List.cons_ne_nil a xs)) = b := by
  induction xs generalizing a with
  | nil => exact hPath
  | cons x xs ih =>
      rw [List.getLast_cons (List.cons_ne_nil x xs)]
      exact ih hPath.2

/- A path ends elsewhere when its last node does. -/
theorem Path.redirect
    (hPath : Path next a xs b)
    (hNodup : (a :: xs).Nodup)
    (hSame : ∀ x ∈ a :: xs,
      x ≠ (a :: xs).getLast (List.cons_ne_nil a xs) →
      next' x = next x)
    (hLast :
      next' ((a :: xs).getLast (List.cons_ne_nil a xs)) = c) :
    Path next' a xs c := by
  induction xs generalizing a with
  | nil => exact hLast
  | cons x xs ih =>
      have hTail := List.getLast_cons (a := a)
        (List.cons_ne_nil x xs)
      rw [hTail] at hLast hSame
      have hHead : a ≠
          (x :: xs).getLast (List.cons_ne_nil x xs) := by
        intro hEq
        exact (List.nodup_cons.mp hNodup).1
          (hEq ▸ List.getLast_mem (List.cons_ne_nil x xs))
      refine ⟨(hSame a List.mem_cons_self hHead).trans
        hPath.1, ?_⟩
      exact ih hPath.2 (List.nodup_cons.mp hNodup).2
        (fun y hMem => hSame y (List.mem_cons_of_mem a hMem))
        hLast

/- A path that does not pass its end is the only one. -/
theorem Path.unique
    (hPath : Path next a xs c)
    (hPath' : Path next a ys c)
    (hXs : c ∉ xs)
    (hYs : c ∉ ys) :
    xs = ys := by
  induction xs generalizing a ys with
  | nil =>
      cases ys with
      | nil => rfl
      | cons y ys =>
          have hNext : next a = c := hPath
          rw [← hNext, hPath'.1] at hYs
          exact absurd List.mem_cons_self hYs
  | cons x xs ih =>
      cases ys with
      | nil =>
          have hNext : next a = c := hPath'
          rw [← hNext, hPath.1] at hXs
          exact absurd List.mem_cons_self hXs
      | cons y ys =>
          have hEq : x = y := hPath.1.symm.trans hPath'.1
          subst hEq
          exact congrArg (x :: ·) (ih hPath.2 hPath'.2
            (fun hIn => hXs (List.mem_cons_of_mem x hIn))
            fun hIn => hYs (List.mem_cons_of_mem x hIn))

/- The nodes of a list follow the first one and lead back. -/
structure IsRing
    (next : α → α)
    (c : α)
    (rest : List α) : Prop where
  path : Path next c rest c
  nodup : (c :: rest).Nodup

/- A ring may be read from any of its nodes. -/
theorem IsRing.rotate
    (hRing : IsRing next c (xs ++ n :: ys)) :
    IsRing next n (ys ++ c :: xs) := by
  obtain ⟨hFirst, hSecond⟩ := path_append.mp hRing.path
  refine ⟨path_append.mpr ⟨hSecond, hFirst⟩, ?_⟩
  have hPerm : (c :: (xs ++ n :: ys)).Perm
      (n :: (ys ++ c :: xs)) :=
    @List.perm_append_comm _ (c :: xs) (n :: ys)
  exact hPerm.nodup_iff.mp hRing.nodup

/- A new node is put behind the first one. -/
theorem IsRing.insert
    (hRing : IsRing next c rest)
    (hFresh : t ∉ c :: rest)
    (hNew : next' t = next c)
    (hHead : next' c = t)
    (hSame : ∀ x ∈ rest, next' x = next x) :
    IsRing next' c (t :: rest) := by
  constructor
  · refine ⟨hHead, ?_⟩
    cases rest with
    | nil => exact hNew.trans hRing.path
    | cons x xs =>
        exact ⟨hNew.trans hRing.path.1,
          hRing.path.2.congr hSame⟩
  · have hCons := List.nodup_cons.mp hRing.nodup
    rw [List.mem_cons, not_or] at hFresh
    refine List.nodup_cons.mpr ⟨?_,
      List.nodup_cons.mpr ⟨hFresh.2, hCons.2⟩⟩
    rw [List.mem_cons, not_or]
    exact ⟨Ne.symm hFresh.1, hCons.1⟩

/- A node is taken out when the one before it skips it. -/
theorem IsRing.remove
    (hRing : IsRing next c (xs ++ n :: ys))
    (hSkip :
      next' ((c :: xs).getLast (List.cons_ne_nil c xs)) =
        next n)
    (hSame : ∀ x ∈ c :: (xs ++ ys),
      x ≠ (c :: xs).getLast (List.cons_ne_nil c xs) →
      next' x = next x) :
    IsRing next' c (xs ++ ys) := by
  obtain ⟨hFirst, hSecond⟩ := path_append.mp hRing.path
  have hAll : (c :: xs ++ n :: ys).Nodup := hRing.nodup
  have hApart := List.nodup_append.mp hAll
  have hNotLast : ∀ x ∈ ys,
      x ≠ (c :: xs).getLast (List.cons_ne_nil c xs) :=
    fun x hMem hEq => hApart.2.2 _
      (List.getLast_mem (List.cons_ne_nil c xs)) x
      (List.mem_cons_of_mem n hMem) hEq.symm
  have hStart : ∀ {d}, next n = d → Path next' c xs d := by
    intro d hNext
    refine hFirst.redirect hApart.1 ?_ (hSkip.trans hNext)
    intro x hMem hNe
    refine hSame x ?_ hNe
    rcases List.mem_cons.mp hMem with rfl | hIn
    · exact List.mem_cons_self
    · exact List.mem_cons_of_mem c
        (List.mem_append_left ys hIn)
  constructor
  · cases ys with
    | nil =>
        rw [List.append_nil]
        exact hStart hSecond
    | cons y ys =>
        refine path_append.mpr ⟨hStart hSecond.1, ?_⟩
        refine hSecond.2.congr (fun x hMem => ?_)
        exact hSame x (List.mem_cons_of_mem c
          (List.mem_append_right xs hMem)) (hNotLast x hMem)
  · have hSub : (c :: (xs ++ ys)).Sublist
        (c :: (xs ++ n :: ys)) :=
      ((List.sublist_cons_self n ys).append_left xs).cons_cons c
    exact hRing.nodup.sublist hSub

/- Every node is reached, and leads to one of the ring. -/
theorem IsRing.next_mem
    (hRing : IsRing next c rest)
    (hMem : a ∈ c :: rest) :
    next a ∈ c :: rest := by
  rcases List.mem_cons.mp hMem with rfl | hIn
  · cases rest with
    | nil =>
        have hSelf : next a = a := hRing.path
        rw [hSelf]
        exact List.mem_cons_self
    | cons x xs =>
        rw [hRing.path.1]
        exact List.mem_cons_of_mem a List.mem_cons_self
  · obtain ⟨xs, ys, rfl⟩ := List.append_of_mem hIn
    have hSecond := (path_append.mp hRing.path).2
    cases ys with
    | nil =>
        have hBack : next a = c := hSecond
        rw [hBack]
        exact List.mem_cons_self
    | cons y ys =>
        rw [hSecond.1]
        simp

end KvantOS.Ring
