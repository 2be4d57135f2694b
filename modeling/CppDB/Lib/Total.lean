import Mathlib

/-! Partial operations on a state become total ones on the subtype of states that
satisfy an invariant, once each call is known to return and to keep it. -/
namespace Total

variable {S α : Type} {inv : S → Prop}

/-- What a call promises that never gets stuck on a valid state. -/
def Returns (inv : S → Prop) (call : Option (S × α)) : Prop :=
  ∃ s a, call = some (s, a) ∧ inv s

/-- The state and the answer of such a call. -/
def keep (call : Option (S × α)) (returns : Returns inv call) : { s : S // inv s } × α :=
  match call, returns with
  | some (s, a), returns => (⟨s, by
      obtain ⟨s', a', same, valid⟩ := returns
      cases same
      exact valid⟩, a)
  | none, returns => absurd returns (by simp [Returns])

theorem keep_state {call : Option (S × α)} (returns : Returns inv call) {s : S} {a : α}
    (is : call = some (s, a)) : (keep call returns).1.val = s := by
  subst is
  rfl

theorem keep_answer {call : Option (S × α)} (returns : Returns inv call) {s : S} {a : α}
    (is : call = some (s, a)) : (keep call returns).2 = a := by
  subst is
  rfl

theorem keep_eq {call : Option (S × α)} (returns : Returns inv call) {s : S} {a : α}
    (is : call = some (s, a)) (valid : inv s) : keep call returns = (⟨s, valid⟩, a) := by
  subst is
  rfl

end Total
