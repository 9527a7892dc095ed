import Mathlib.Data.List.Infix
import Mathlib.Logic.Relation

/-
  This file studies singly linked chains of nodes: every
  node names its successor, ends the chain, or is broken.

  It is generic in the nodes, and in the table of links.

  Key definitions include:
    * `Link`, `ChainFrom`, `Follows`

  Key theorems include:
    * `ChainFrom.unique`, `ChainFrom.nodup`
-/

/- What a node says of the node after it. -/
inductive Link (α : Type) where
  | last
  | broken
  | next (node : α)
  deriving DecidableEq

/-
  The nodes of the chain that starts at a node, in order,
  when it runs to its end.
-/
inductive ChainFrom
    {α : Type}
    (link : α → Link α) :
    α → List α → Prop where
  | last
      {a : α}
      (hLast : link a = .last) :
      ChainFrom link a [a]
  | next
      {a b : α}
      {nodes : List α}
      (hNext : link a = .next b)
      (hRest : ChainFrom link b nodes) :
      ChainFrom link a (a :: nodes)

/- The second node comes after the first in its chain. -/
def Follows
    {α : Type}
    (link : α → Link α) :
    α → α → Prop :=
  Relation.ReflTransGen (fun a b => link a = .next b)

namespace ChainFrom

variable {α : Type} {link link' : α → Link α} {a b : α}
variable {nodes nodes' : List α}

theorem ne_nil
    (hChain : ChainFrom link a nodes) :
    nodes ≠ [] := by
  cases hChain <;> simp

theorem head_mem
    (hChain : ChainFrom link a nodes) :
    a ∈ nodes := by
  cases hChain <;> simp

theorem head_eq
    (hChain : ChainFrom link a nodes) :
    nodes.head? = some a := by
  cases hChain <;> rfl

/- The links determine the chain. -/
theorem unique
    (hChain : ChainFrom link a nodes)
    (hChain' : ChainFrom link a nodes') :
    nodes = nodes' := by
  induction hChain generalizing nodes' with
  | last hLast =>
      cases hChain' with
      | last _ => rfl
      | next hNext _ =>
          rw [hLast] at hNext
          cases hNext
  | next hNext hRest ih =>
      cases hChain' with
      | last hLast =>
          rw [hNext] at hLast
          cases hLast
      | next hNext' hRest' =>
          rw [hNext] at hNext'
          cases hNext'
          rw [ih hRest']

/- No node of a chain is broken. -/
theorem not_broken
    (hChain : ChainFrom link a nodes)
    (hMem : b ∈ nodes) :
    link b ≠ .broken := by
  induction hChain with
  | last hLast =>
      rw [List.mem_singleton.mp hMem, hLast]
      simp
  | next hNext hRest ih =>
      rcases List.mem_cons.mp hMem with rfl | hMem
      · rw [hNext]
        simp
      · exact ih hMem

/- From each of its nodes a chain runs to the same end. -/
theorem of_mem
    (hChain : ChainFrom link a nodes)
    (hMem : b ∈ nodes) :
    ∃ rest, ChainFrom link b rest ∧ rest <:+ nodes := by
  induction hChain with
  | last hLast =>
      rw [List.mem_singleton.mp hMem]
      exact ⟨_, .last hLast, List.suffix_refl _⟩
  | next hNext hRest ih =>
      rcases List.mem_cons.mp hMem with rfl | hMem
      · exact ⟨_, .next hNext hRest, List.suffix_refl _⟩
      · rcases ih hMem with ⟨rest, hRest, hSuffix⟩
        exact ⟨rest, hRest,
          hSuffix.trans (List.suffix_cons _ _)⟩

/- A chain that ends has no cycle. -/
theorem nodup
    (hChain : ChainFrom link a nodes) :
    nodes.Nodup := by
  induction hChain with
  | last hLast => simp
  | @next a b nodes hNext hRest ih =>
      refine List.nodup_cons.mpr ⟨?_, ih⟩
      intro hMem
      rcases hRest.of_mem hMem with ⟨rest, hAgain, hSuffix⟩
      have hEq := unique (.next hNext hRest) hAgain
      have hLength := hSuffix.length_le
      rw [← hEq, List.length_cons] at hLength
      omega

/- A chain depends on the links of its nodes only. -/
theorem congr
    (hChain : ChainFrom link a nodes)
    (hSame : ∀ c ∈ nodes, link' c = link c) :
    ChainFrom link' a nodes := by
  induction hChain with
  | @last a hLast =>
      apply ChainFrom.last
      rw [hSame a (by simp), hLast]
  | @next a b nodes hNext hRest ih =>
      apply ChainFrom.next
      · rw [hSame a (by simp), hNext]
      · exact ih (fun c hc =>
          hSame c (List.mem_cons_of_mem _ hc))

/- The last node of a chain ends it. -/
theorem link_getLast
    (hChain : ChainFrom link a nodes) :
    link (nodes.getLast hChain.ne_nil) = .last := by
  induction hChain with
  | last hLast => exact hLast
  | next hNext hRest ih =>
      rw [List.getLast_cons hRest.ne_nil]
      exact ih

/- A chain can be picked up at a later node. -/
theorem of_follows
    (hFollows : Follows link a b)
    (hChain : ChainFrom link b nodes) :
    ∃ all, ChainFrom link a all ∧ nodes <:+ all := by
  induction hFollows using
      Relation.ReflTransGen.head_induction_on with
  | refl => exact ⟨nodes, hChain, List.suffix_refl _⟩
  | head hNext _ ih =>
      rcases ih with ⟨all, hAll, hSuffix⟩
      exact ⟨_, .next hNext hAll,
        hSuffix.trans (List.suffix_cons _ _)⟩

end ChainFrom
