import Mathlib

/-! Computations that may fail and that keep a log of what they did until then. -/

/-- The result, if there is one, and the log, which is there in any case. -/
structure Logged (E α : Type) where
  result : Option α
  log : List E

namespace Logged

variable {E α β : Type}

/-- A computation that logs nothing. -/
def lift (x : Option α) : Logged E α := ⟨x, []⟩

/-- Log an event and go on. -/
def note (e : E) (x : Logged E α) : Logged E α := ⟨x.result, e :: x.log⟩

/-- What comes after a failure is neither run nor logged. -/
protected def bind (x : Logged E α) (f : α → Logged E β) : Logged E β :=
  match x.result with
  | none => ⟨none, x.log⟩
  | some a => ⟨(f a).result, x.log ++ (f a).log⟩

instance instMonad : Monad (Logged E) where
  pure a := lift (some a)
  bind := Logged.bind

@[simp] theorem result_lift (x : Option α) : (lift x : Logged E α).result = x := rfl

@[simp] theorem result_note (e : E) (x : Logged E α) : (note e x).result = x.result := rfl

@[simp] theorem result_pure (a : α) : (pure a : Logged E α).result = some a := rfl

/-- Without the log, computations are put together as those that only may fail. -/
@[simp] theorem result_bind (x : Logged E α) (f : α → Logged E β) :
    (x >>= f).result = x.result.bind fun a => (f a).result := by
  obtain ⟨result, log⟩ := x
  cases result with
  | none => rfl
  | some a => rfl

@[simp] theorem result_ite (p : Prop) [Decidable p] (x y : Logged E α) :
    (if p then x else y).result = if p then x.result else y.result :=
  apply_ite Logged.result p x y

/-- What comes after a success is logged behind it. -/
theorem log_bind {x : Logged E α} {a : α} (is : x.result = some a) (f : α → Logged E β) :
    (x >>= f).log = x.log ++ (f a).log := by
  obtain ⟨result, log⟩ := x
  cases is
  rfl

theorem log_bind_pure (x : Logged E α) (f : α → β) : (x >>= fun a => pure (f a)).log = x.log := by
  obtain ⟨result, log⟩ := x
  cases result with
  | none => rfl
  | some a => exact List.append_nil log

theorem lift_bind (a : α) (f : α → Logged E β) : (lift (some a) : Logged E α) >>= f = f a := rfl

theorem done_bind (a : α) (log : List E) (f : α → Logged E β) :
    (⟨some a, log⟩ : Logged E α) >>= f = ⟨(f a).result, log ++ (f a).log⟩ := rfl

end Logged
