import CppDB.Lib.Scan

/-! How a computation that may throw can end. -/
namespace Outcome

variable {α β E : Type} {kind : E → Prop} {post : α → Prop} {post' : β → Prop} {x : Except E α}

/-- It returns a value that meets the one condition, or throws what meets the other. -/
def Ends (kind : E → Prop) (post : α → Prop) : Except E α → Prop
  | .ok a => post a
  | .error e => kind e

namespace Ends

theorem bind {f : α → Except E β} (first : Ends kind post x)
    (next : ∀ a, post a → Ends kind post' (f a)) : Ends kind post' (x >>= f) := by
  cases x with
  | error e => exact first
  | ok a => exact next a first

theorem map {f : α → β} (first : Ends kind post x) (next : ∀ a, post a → post' (f a)) :
    Ends kind post' (x.map f) := by
  cases x with
  | error e => exact first
  | ok a => exact next a first

/-- Only the exceptions of a scan are those of its predicate. -/
theorem scan {p : α → Except E Bool} (asks : ∀ a, Ends kind (fun _ => True) (p a)) (l : List α) :
    Ends kind (fun _ => True) (Scan.scan p l) := by
  induction l with
  | nil => trivial
  | cons a l ih =>
    apply (asks a).bind
    intro keep _
    apply ih.bind
    intro found _
    trivial

end Ends
end Outcome
