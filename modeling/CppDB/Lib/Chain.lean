import Mathlib

/-! Singly linked lists in a memory, as the cells in their order behind a first address. What
holds between neighbours is stated over the pairs of each cell with the address in front. -/
namespace Chain

variable {A C : Type} (node : C → A)

/-- Every cell with the address in front of it. -/
def neighbours : A → List C → List (A × C)
  | _, [] => []
  | x, c :: cs => (x, c) :: neighbours (node c) cs

/-- The address at the end. -/
def last : A → List C → A
  | x, [] => x
  | _, c :: cs => last (node c) cs

variable {node} {x y : A} {c d : C} {cs : List C}

theorem neighbours_append : neighbours node x (cs ++ [c]) =
    neighbours node x cs ++ [(last node x cs, c)] := by
  induction cs generalizing x with
  | nil => rfl
  | cons d cs ih => rw [List.cons_append, neighbours, ih, neighbours, last, List.cons_append]

theorem last_append : last node x (cs ++ [c]) = node c := by
  induction cs generalizing x with
  | nil => rfl
  | cons d cs ih => rw [List.cons_append, last, ih]

/-- The addresses in front of the cells, then the last one, are all of them. -/
theorem fronts (x : A) (cs : List C) :
    (neighbours node x cs).map Prod.fst ++ [last node x cs] = x :: cs.map node := by
  induction cs generalizing x with
  | nil => rfl
  | cons c cs ih => rw [neighbours, last, List.map_cons, List.cons_append, ih, List.map_cons]

theorem exists_front (there : c ∈ cs) : ∃ y, (y, c) ∈ neighbours node x cs := by
  induction cs generalizing x with
  | nil => cases there
  | cons d cs ih =>
    rcases List.mem_cons.mp there with rfl | there
    · exact ⟨x, List.mem_cons_self⟩
    · obtain ⟨y, pair⟩ := ih there (x := node d)
      exact ⟨y, List.mem_cons_of_mem _ pair⟩

theorem mem_of_neighbours (pair : (y, c) ∈ neighbours node x cs) : c ∈ cs := by
  induction cs generalizing x with
  | nil => cases pair
  | cons d cs ih =>
    rcases List.mem_cons.mp pair with is | pair
    · cases is
      exact List.mem_cons_self
    · exact List.mem_cons_of_mem d (ih pair)

theorem front_mem (pair : (y, c) ∈ neighbours node x cs) : y ∈ x :: cs.map node := by
  rw [← fronts]
  exact List.mem_append_left _ (List.mem_map_of_mem pair)

theorem last_mem : last node x cs ∈ x :: cs.map node := by
  rw [← fronts]
  exact List.mem_append_right _ List.mem_cons_self

theorem front_ne_last (nodup : (x :: cs.map node).Nodup) (pair : (y, c) ∈ neighbours node x cs) :
    y ≠ last node x cs := by
  rw [← fronts, List.nodup_append] at nodup
  exact nodup.2.2 y (List.mem_map_of_mem pair) _ List.mem_cons_self

theorem eq_of_front (nodup : (x :: cs.map node).Nodup) (first : (y, c) ∈ neighbours node x cs)
    (second : (y, d) ∈ neighbours node x cs) : c = d := by
  rw [← fronts, List.nodup_append] at nodup
  have same := List.inj_on_of_nodup_map nodup.1 first second rfl
  exact congrArg Prod.snd same

end Chain
