import Mathlib

/-! A condition variable, as the set of the threads that are blocked on it. -/
namespace CondVar

variable {T : Type} [DecidableEq T]

/-- `notify_one`: some waiter leaves, if there is one. -/
def notifyOne (cv : Finset T) : Option T → Option (Finset T)
  | none => if cv = ∅ then some cv else none
  | some t => if t ∈ cv then some (cv.erase t) else none

theorem notifyOne_cases {cv cv' : Finset T} {woken : Option T}
    (notifies : notifyOne cv woken = some cv') :
    cv' = ∅ ∧ cv = ∅ ∨ ∃ t ∈ cv, cv' = cv.erase t := by
  cases woken with
  | none =>
    rw [notifyOne, Option.ite_none_right_eq_some] at notifies
    obtain ⟨empty, same⟩ := notifies
    cases same
    exact .inl ⟨empty, empty⟩
  | some t =>
    rw [notifyOne, Option.ite_none_right_eq_some] at notifies
    obtain ⟨waits, same⟩ := notifies
    cases same
    exact .inr ⟨t, waits, rfl⟩

/-- Some waiter can be named for every `notify_one`. -/
theorem exists_notifyOne (cv : Finset T) : ∃ woken, (notifyOne cv woken).isSome = true := by
  by_cases empty : cv = ∅
  · exact ⟨none, by simp [notifyOne, empty]⟩
  · obtain ⟨u, waits⟩ := Finset.nonempty_iff_ne_empty.mpr empty
    exact ⟨some u, by simp [notifyOne, waits]⟩

end CondVar
