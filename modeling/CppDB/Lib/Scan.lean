import Mathlib

/-! Filtering a list with a predicate that may throw: the elements are visited in
order and the first exception ends the visit. -/
namespace Scan

variable {α E : Type} {p : α → Except E Bool} {l found : List α}

def scan (p : α → Except E Bool) : List α → Except E (List α)
  | [] => .ok []
  | x :: l => do
    let keep ← p x
    let found ← scan p l
    return if keep then x :: found else found

/-- Whether the predicate holds, where throwing counts as not. -/
def holds (p : α → Except E Bool) (x : α) : Bool :=
  match p x with
  | .ok b => b
  | .error _ => false

/-- A scan that returns has asked every element and kept those that hold. -/
theorem scan_eq_ok : scan p l = .ok found ↔
    (∀ x ∈ l, ∃ b, p x = .ok b) ∧ found = l.filter (holds p) := by
  induction l generalizing found with
  | nil => simp [scan, eq_comm]
  | cons x l ih =>
    cases asked : p x with
    | error e => simp [scan, asked, bind, Except.bind]
    | ok b =>
      cases rest : scan p l with
      | error e =>
        have fails : ¬ ∀ x ∈ l, ∃ b, p x = .ok b := fun all => by
          cases rest.symm.trans (ih.mpr ⟨all, rfl⟩)
        simp only [scan, asked, rest, bind, Except.bind, List.forall_mem_cons, reduceCtorEq,
          fails, and_false, false_and]
      | ok found' =>
        obtain ⟨all, rfl⟩ := ih.mp rest
        have here : holds p x = b := by simp only [holds, asked]
        simp only [scan, asked, rest, bind, Except.bind, pure, Except.pure, Except.ok.injEq,
          List.forall_mem_cons, List.filter_cons, here]
        constructor
        · rintro rfl
          exact ⟨⟨⟨b, rfl⟩, all⟩, rfl⟩
        · rintro ⟨_, rfl⟩
          rfl

theorem scan_of_total (total : ∀ x ∈ l, ∃ b, p x = .ok b) : scan p l = .ok (l.filter (holds p)) :=
  scan_eq_ok.mpr ⟨total, rfl⟩

theorem scan_map {β : Type} (f : β → α) (l : List β) :
    scan p (l.map f) = (scan (p ∘ f) l).map (List.map f) := by
  induction l with
  | nil => rfl
  | cons x l ih =>
    simp only [List.map_cons, scan, ih, Function.comp_apply]
    cases p (f x) with
    | error e => rfl
    | ok b =>
      cases scan (p ∘ f) l with
      | error e => rfl
      | ok found => cases b <;> rfl

end Scan
