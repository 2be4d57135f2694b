import Mathlib

/-! Intrusive singly linked lists: each node holds the link to the next one, and what else a
memory holds is no node. The nodes behind a head are determined by the links, so none of
them can come twice. -/
namespace Linked

variable {A : Type} {link link' : A → Option (Option A)} {head : Option A} {a : A}
  {nodes others front back : List A}

/-- The nodes met from a head on until a null link. -/
def Chain (link : A → Option (Option A)) : Option A → List A → Prop
  | head, [] => head = none
  | head, a :: nodes => head = some a ∧ ∃ next, link a = some next ∧ Chain link next nodes

theorem Chain.unique (chain : Chain link head nodes) (chain' : Chain link head others) :
    nodes = others := by
  induction nodes generalizing head others with
  | nil =>
    obtain rfl : head = none := chain
    cases others with
    | nil => rfl
    | cons b others => cases chain'.1
  | cons a nodes ih =>
    obtain ⟨rfl, next, links, rest⟩ := chain
    cases others with
    | nil => cases chain'
    | cons b others =>
      obtain ⟨is, next', links', rest'⟩ := chain'
      cases is
      cases links.symm.trans links'
      rw [ih rest rest']

/-- The list from one of its nodes on. -/
theorem Chain.suffix (chain : Chain link head (front ++ a :: back)) :
    Chain link (some a) (a :: back) := by
  induction front generalizing head with
  | nil =>
    obtain ⟨rfl, rest⟩ := chain
    exact ⟨rfl, rest⟩
  | cons b front ih =>
    obtain ⟨-, next, -, rest⟩ := chain
    exact ih rest

/-- Going on from a node that came before would never reach the null link. -/
theorem Chain.nodup (chain : Chain link head nodes) : nodes.Nodup := by
  induction nodes generalizing head with
  | nil => exact List.nodup_nil
  | cons a nodes ih =>
    obtain ⟨rfl, next, links, rest⟩ := chain
    refine List.nodup_cons.mpr ⟨fun again => ?_, ih rest⟩
    obtain ⟨front, back, rfl⟩ := List.append_of_mem again
    have whole : Chain link (some a) (a :: (front ++ a :: back)) := ⟨rfl, next, links, rest⟩
    have lengths := congrArg List.length (rest.suffix.unique whole)
    simp only [List.length_cons, List.length_append] at lengths
    omega

/-- Only the links of the nodes matter. -/
theorem Chain.congr (chain : Chain link head nodes) (same : ∀ a ∈ nodes, link' a = link a) :
    Chain link' head nodes := by
  induction nodes generalizing head with
  | nil => exact chain
  | cons a nodes ih =>
    obtain ⟨here, others⟩ := List.forall_mem_cons.mp same
    obtain ⟨rfl, next, links, rest⟩ := chain
    exact ⟨rfl, next, here.trans links, ih rest others⟩

theorem Chain.push (chain : Chain link head nodes) (new : a ∉ nodes)
    (links : link' a = some head) (same : ∀ b, b ≠ a → link' b = link b) :
    Chain link' (some a) (a :: nodes) := by
  refine ⟨rfl, head, links, chain.congr fun b there => same b ?_⟩
  rintro rfl
  exact new there

end Linked
