import Mathlib

/-! Machines driven from outside. An action may be refused; one that is taken leaves
events behind. A guard on the actions says which runs are meant. -/
namespace Trace

variable {S A E : Type}

/-- The runs from a state whose every action meets the guard, which may look at the events
so far. -/
inductive Run (step : S → A → Option (S × List E)) (guard : List E → S → A → Prop) (start : S) :
    List E → S → Prop where
  | start : Run step guard start [] start
  | next {es es' : List E} {s s' : S} {a : A} (before : Run step guard start es s)
      (meets : guard es s a) (takes : step s a = some (s', es')) :
      Run step guard start (es ++ es') s'

/-- No action is ruled out. -/
def free (_ : List E) (_ : S) (_ : A) : Prop := True

/-- Take a list of actions, if none is refused. -/
def exec (step : S → A → Option (S × List E)) : S → List A → Option (S × List E)
  | s, [] => some (s, [])
  | s, a :: as => do
    let (s, es) ← step s a
    let (s, es') ← exec step s as
    return (s, es ++ es')

namespace Run

variable {step : S → A → Option (S × List E)} {guard : List E → S → A → Prop} {start s : S}
  {es : List E}

/-- What holds at the start and is kept by every guarded step holds all along. -/
theorem invariant (inv : List E → S → Prop) (run : Run step guard start es s) (first : inv [] start)
    (keeps : ∀ {es es' s s' a}, inv es s → guard es s a → step s a = some (s', es') →
      inv (es ++ es') s') : inv es s := by
  induction run with
  | start => exact first
  | next _ meets takes ih => exact keeps ih meets takes

/-- Go on with a list of actions that meet the guard wherever they are taken. -/
theorem exec {s' : S} {es' : List E} {as : List A} (run : Run step guard start es s)
    (execs : Trace.exec step s as = some (s', es')) (meets : ∀ a ∈ as, ∀ es s, guard es s a) :
    Run step guard start (es ++ es') s' := by
  induction as generalizing es s es' with
  | nil =>
    cases execs
    rwa [List.append_nil]
  | cons a as ih =>
    simp only [Trace.exec, Option.bind_eq_bind, Option.bind_eq_some_iff] at execs
    obtain ⟨⟨s₁, es₁⟩, takes, ⟨s₂, es₂⟩, execs, ends⟩ := execs
    cases ends
    have next := run.next (meets a List.mem_cons_self es s) takes
    rw [← List.append_assoc]
    exact ih next execs fun a there => meets a (List.mem_cons_of_mem _ there)

end Run

end Trace
