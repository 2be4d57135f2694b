import CppDB.Lib.Machine

/-! Objects in a heap, reached through a catalog that maps names to handles. A statement
either works on the catalog alone, or looks a name up and then acts on the object it
finds. A handle is never bound again once it is unbound, so an action on an object no
name leads to any more commutes with every later statement. -/
namespace Registry

open Machine

variable {C T N O R : Type}

structure Store (C T : Type) where
  catalog : C
  heap : List T

/-- What a statement does. A change of the catalog is given the handle that is free next,
and may add an object under it. -/
inductive Plan (C T N R : Type) where
  | catalog (change : C → Nat → C × Option T × R)
  | object (name : N) (missing : R) (act : T → T × R)

def Store.change (s : Store C T) (change : C → Nat → C × Option T × R) : Store C T × R :=
  let (catalog, added, reply) := change s.catalog s.heap.length
  (⟨catalog, s.heap ++ added.toList⟩, reply)

def Store.put (s : Store C T) (h : Nat) (t : T) : Store C T := { s with heap := s.heap.set h t }

def Store.act (s : Store C T) (h : Nat) (act : T → T × R) : Option (Store C T × R) :=
  s.heap[h]?.map fun t => (s.put h (act t).1, (act t).2)

/-- All that a statement does, with no other in between. -/
def Store.exec (lookup : C → N → Option Nat) (s : Store C T) :
    Plan C T N R → Option (Store C T × R)
  | .catalog change => some (s.change change)
  | .object name missing act =>
    match lookup s.catalog name with
    | none => some (s, missing)
    | some h => s.act h act

/-- The same statement with its reply rewritten. -/
def Plan.map {R' : Type} (f : R → R') : Plan C T N R → Plan C T N R'
  | .catalog change => .catalog fun c free =>
    ((change c free).1, (change c free).2.1, f (change c free).2.2)
  | .object name missing act => .object name (f missing) fun t => ((act t).1, f (act t).2)

theorem Store.exec_map {R' : Type} (lookup : C → N → Option Nat) (s : Store C T)
    (plan : Plan C T N R) (f : R → R') :
    s.exec lookup (plan.map f) = (s.exec lookup plan).map fun p => (p.1, f p.2) := by
  cases plan with
  | catalog change => rfl
  | object name missing act =>
    simp only [Plan.map, exec]
    cases lookup s.catalog name with
    | none => rfl
    | some h => cases held : s.heap[h]? <;> simp [Store.act, held]

/-- A change binds at most one name anew, to an object it adds. -/
def Plan.Lawful (lookup : C → N → Option Nat) : Plan C T N R → Prop
  | .catalog change => ∀ c free, ∃ name, ∀ n h, lookup (change c free).1 n = some h →
      lookup c n = some h ∨ n = name ∧ h = free ∧ (change c free).2.1.isSome
  | .object _ _ _ => True

theorem Plan.Lawful.map {R' : Type} {lookup : C → N → Option Nat} {plan : Plan C T N R}
    (lawful : plan.Lawful lookup) (f : R → R') : (plan.map f).Lawful lookup := by
  cases plan with
  | catalog change => exact lawful
  | object name missing act => trivial

/-- The statements and how they read the catalog. -/
structure System (C T N O R : Type) where
  lookup : C → N → Option Nat
  plan : O → Plan C T N R
  lawful : ∀ o, (plan o).Lawful lookup

/-- Every name is bound to an object of its own. -/
structure WellNamed (lookup : C → N → Option Nat) (s : Store C T) : Prop where
  bound : ∀ n h, lookup s.catalog n = some h → h < s.heap.length
  apart : ∀ n n' h, lookup s.catalog n = some h → lookup s.catalog n' = some h → n = n'

/-- What every step keeps: objects are not removed, and a binding to an object that was
there before is an old binding. -/
structure Extends (lookup : C → N → Option Nat) (s s' : Store C T) : Prop where
  grows : s.heap.length ≤ s'.heap.length
  old : ∀ n h, h < s.heap.length → lookup s'.catalog n = some h → lookup s.catalog n = some h

theorem Extends.refl (lookup : C → N → Option Nat) (s : Store C T) : Extends lookup s s :=
  ⟨Nat.le_refl _, fun _ _ _ => id⟩

theorem Extends.trans {lookup : C → N → Option Nat} {s s' s'' : Store C T}
    (first : Extends lookup s s') (second : Extends lookup s' s'') : Extends lookup s s'' where
  grows := first.grows.trans second.grows
  old n h inside found := first.old n h inside (second.old n h (inside.trans_le first.grows) found)

namespace System

variable (sys : System C T N O R)

def step (s : Store C T) (o : O) : Option (Store C T × R) := s.exec sys.lookup (sys.plan o)

variable {sys} {s s' : Store C T} {o : O} {r : R} {rs : List R} {os : List O} {h : Nat}

theorem step_catalog {change : C → Nat → C × Option T × R} (plans : sys.plan o = .catalog change) :
    sys.step s o = some (s.change change) := by
  simp only [step, Store.exec, plans]

theorem step_missing {name : N} {missing : R} {act : T → T × R}
    (plans : sys.plan o = .object name missing act) (absent : sys.lookup s.catalog name = none) :
    sys.step s o = some (s, missing) := by
  simp only [step, Store.exec, plans, absent]

theorem step_object {name : N} {missing : R} {act : T → T × R} {t : T}
    (plans : sys.plan o = .object name missing act) (found : sys.lookup s.catalog name = some h)
    (held : s.heap[h]? = some t) : sys.step s o = some (s.put h (act t).1, (act t).2) := by
  simp only [step, Store.exec, plans, found, Store.act, held, Option.map_some]

/-- What a step can do, once for all the invariants below. -/
theorem step_cases (steps : sys.step s o = some (s', r)) :
    (∃ change, sys.plan o = .catalog change ∧ s.change change = (s', r)) ∨
      (∃ name missing act, sys.plan o = .object name missing act ∧
        sys.lookup s.catalog name = none ∧ s' = s ∧ r = missing) ∨
      ∃ name missing act g t, sys.plan o = .object name missing act ∧
        sys.lookup s.catalog name = some g ∧ s.heap[g]? = some t ∧ s' = s.put g (act t).1 ∧
        r = (act t).2 := by
  cases plans : sys.plan o with
  | catalog change =>
    rw [step_catalog plans] at steps
    exact .inl ⟨change, rfl, Option.some.inj steps⟩
  | object name missing act =>
    cases found : sys.lookup s.catalog name with
    | none =>
      rw [step_missing plans found] at steps
      cases steps
      exact .inr (.inl ⟨name, _, act, rfl, found, rfl, rfl⟩)
    | some g =>
      simp only [step, Store.exec, plans, found, Store.act, Option.map_eq_some_iff] at steps
      obtain ⟨t, held, same⟩ := steps
      cases same
      exact .inr (.inr ⟨name, missing, act, g, t, rfl, found, held, rfl, rfl⟩)

theorem wellNamed_put (named : WellNamed sys.lookup s) (g : Nat) (t : T) :
    WellNamed sys.lookup (s.put g t) where
  bound n h found := by
    rw [Store.put, List.length_set]
    exact named.bound n h found
  apart := named.apart

theorem extends_put (g : Nat) (t : T) : Extends sys.lookup s (s.put g t) where
  grows := by rw [Store.put, List.length_set]
  old _ _ _ := id

theorem step_extends (named : WellNamed sys.lookup s) (steps : sys.step s o = some (s', r)) :
    WellNamed sys.lookup s' ∧ Extends sys.lookup s s' := by
  obtain ⟨change, plans, changes⟩ | ⟨_, _, _, -, -, rfl, -⟩ | ⟨_, _, _, g, t, -, -, -, rfl, -⟩ :=
    step_cases steps
  · have lawful := sys.lawful o
    rw [plans] at lawful
    obtain ⟨name, only⟩ := lawful s.catalog s.heap.length
    cases changes
    refine ⟨⟨?_, ?_⟩, by simp, ?_⟩
    · intro n h found
      rw [List.length_append]
      obtain found | ⟨-, rfl, added⟩ := only n h found
      · exact Nat.lt_add_right _ (named.bound n h found)
      · obtain ⟨t, is⟩ := Option.isSome_iff_exists.mp added
        simp [is]
    · intro n n' h found found'
      obtain old | ⟨rfl, rfl, -⟩ := only n h found
      · obtain old' | ⟨-, rfl, -⟩ := only n' h found'
        · exact named.apart n n' h old old'
        · exact absurd (named.bound n _ old) (Nat.lt_irrefl _)
      · obtain old' | ⟨rfl, -, -⟩ := only n' _ found'
        · exact absurd (named.bound n' _ old') (Nat.lt_irrefl _)
        · rfl
    · intro n h inside found
      obtain old | ⟨-, rfl, -⟩ := only n h found
      · exact old
      · exact absurd inside (Nat.lt_irrefl _)
  · exact ⟨named, .refl _ _⟩
  · exact ⟨wellNamed_put named g _, extends_put g _⟩

theorem run_extends (named : WellNamed sys.lookup s) (runs : run sys.step s os = some (s', rs)) :
    WellNamed sys.lookup s' ∧ Extends sys.lookup s s' := by
  induction os generalizing s rs with
  | nil =>
    cases runs
    exact ⟨named, .refl _ _⟩
  | cons o os ih =>
    obtain ⟨t, r, rs', steps, rest, rfl⟩ := run_cons_eq.mp runs
    obtain ⟨named, first⟩ := step_extends named steps
    obtain ⟨named, others⟩ := ih named rest
    exact ⟨named, first.trans others⟩

/-! ### Acting on an object that no statement reaches -/

variable (sys) in
/-- The statement does not act on the object with this handle. -/
def Spares (h : Nat) (s : Store C T) (o : O) : Prop :=
  ∀ name missing act, sys.plan o = .object name missing act → sys.lookup s.catalog name ≠ some h

variable (sys) in
/-- No statement of the list acts on the object, run from this store. -/
def Untouched (h : Nat) : Store C T → List O → Prop
  | _, [] => True
  | s, o :: os => sys.Spares h s o ∧ ∀ s' r, sys.step s o = some (s', r) → Untouched h s' os

theorem untouched_append {os' : List O} (runs : run sys.step s os = some (s', rs)) :
    sys.Untouched h s (os ++ os') ↔ sys.Untouched h s os ∧ sys.Untouched h s' os' := by
  induction os generalizing s rs with
  | nil =>
    cases runs
    exact (and_iff_right trivial).symm
  | cons o os ih =>
    obtain ⟨t, r, rs', steps, rest, rfl⟩ := run_cons_eq.mp runs
    have follows : ∀ {P : Store C T → Prop},
        (∀ s' r, sys.step s o = some (s', r) → P s') ↔ P t := by
      intro P
      constructor
      · intro all
        exact all t r steps
      · intro holds s' r' steps'
        cases steps.symm.trans steps'
        exact holds
    simp only [List.cons_append, Untouched, follows, ih rest, and_assoc]

/-- A statement that spares an object answers the same whatever the object is. -/
theorem step_put (inside : h < s.heap.length) (spares : sys.Spares h s o)
    (steps : sys.step s o = some (s', r)) (t : T) :
    sys.step (s.put h t) o = some (s'.put h t, r) ∧ s'.heap[h]? = s.heap[h]? := by
  obtain ⟨change, plans, changes⟩ | ⟨name, missing, act, plans, absent, rfl, rfl⟩ |
    ⟨name, missing, act, g, u, plans, found, held, rfl, rfl⟩ := step_cases steps
  · cases changes
    rw [step_catalog plans]
    simp only [Store.change, Store.put, List.length_set]
    refine ⟨?_, List.getElem?_append_left inside⟩
    rw [List.set_append_left _ _ inside]
  · exact ⟨step_missing plans absent, rfl⟩
  · have apart : g ≠ h := by
      rintro rfl
      exact spares name missing act plans found
    have held' : (s.put h t).heap[g]? = some u := by
      rw [Store.put, List.getElem?_set_ne apart.symm, held]
    have steps' : sys.step (s.put h t) o = _ := step_object plans found held'
    refine ⟨?_, List.getElem?_set_ne apart⟩
    rw [steps', Store.put, Store.put, Store.put, Store.put, List.set_comm _ _ apart.symm]

theorem run_put (named : WellNamed sys.lookup s) (inside : h < s.heap.length)
    (untouched : sys.Untouched h s os) (runs : run sys.step s os = some (s', rs)) (t : T) :
    run sys.step (s.put h t) os = some (s'.put h t, rs) ∧ s'.heap[h]? = s.heap[h]? := by
  induction os generalizing s rs with
  | nil =>
    cases runs
    exact ⟨rfl, rfl⟩
  | cons o os ih =>
    obtain ⟨s₁, r, rs', steps, rest, rfl⟩ := run_cons_eq.mp runs
    obtain ⟨spares, untouched⟩ := untouched
    obtain ⟨steps', same⟩ := step_put inside spares steps t
    obtain ⟨named₁, extend⟩ := step_extends named steps
    obtain ⟨rest', same'⟩ := ih named₁ (inside.trans_le extend.grows) (untouched s₁ r steps) rest
    exact ⟨run_cons_eq.mpr ⟨_, r, rs', steps', rest', rfl⟩, same'.trans same⟩

/-- Two stores in which the same names lead to the same handles. -/
def Alike (s s₂ : Store C T) : Prop :=
  s.catalog = s₂.catalog ∧ s.heap.length = s₂.heap.length

theorem alike_put (s : Store C T) (g : Nat) (t : T) : Alike s (s.put g t) :=
  ⟨rfl, (List.length_set ..).symm⟩

theorem step_alike {s₂ s₂' : Store C T} {r₂ : R} (alike : Alike s s₂)
    (steps : sys.step s₂ o = some (s₂', r₂)) :
    ∃ s' r, sys.step s o = some (s', r) ∧ Alike s' s₂' := by
  obtain ⟨sameCatalog, sameLength⟩ := alike
  obtain ⟨change, plans, changes⟩ | ⟨name, missing, act, plans, absent, rfl, rfl⟩ |
    ⟨name, missing, act, g, u, plans, found, held, rfl, rfl⟩ := step_cases steps
  · cases changes
    refine ⟨_, _, step_catalog plans, ?_, ?_⟩
    · simp only [sameCatalog, sameLength]
    · simp only [sameCatalog, sameLength, List.length_append]
  · exact ⟨s, _, step_missing plans (sameCatalog ▸ absent), sameCatalog, sameLength⟩
  · have inside : g < s.heap.length := by
      rw [sameLength]
      exact (List.getElem?_eq_some_iff.mp held).1
    refine ⟨_, _, step_object plans (sameCatalog ▸ found) (List.getElem?_eq_getElem inside),
      sameCatalog, ?_⟩
    simp only [Store.put, List.length_set, sameLength]

/-- Which objects a run touches does not depend on what the objects are. -/
theorem untouched_alike {s₂ : Store C T} (alike : Alike s s₂) (untouched : sys.Untouched h s os) :
    sys.Untouched h s₂ os := by
  induction os generalizing s s₂ with
  | nil => trivial
  | cons o os ih =>
    obtain ⟨spares, untouched⟩ := untouched
    refine ⟨?_, ?_⟩
    · intro name missing act plans
      rw [← alike.1]
      exact spares name missing act plans
    · intro s₂' r₂ steps
      obtain ⟨s', r, steps', alike'⟩ := step_alike alike steps
      exact ih alike' (untouched s' r steps')

/-- A statement on an object may come anywhere before statements that do not touch the
object: it finds there what it finds at the end. -/
theorem run_insert {s₀ s₁ s₂ : Store C T} {before after : List O} {rs₁ rs₂ : List R} {name : N}
    {missing : R} {act : T → T × R} {t : T} (named : WellNamed sys.lookup s₁)
    (runs₁ : run sys.step s₀ before = some (s₁, rs₁))
    (runs₂ : run sys.step s₁ after = some (s₂, rs₂))
    (plans : sys.plan o = .object name missing act) (found : sys.lookup s₁.catalog name = some h)
    (untouched : sys.Untouched h s₁ after) (held : s₂.heap[h]? = some t) :
    run sys.step s₀ (before ++ o :: after) =
      some (s₂.put h (act t).1, rs₁ ++ (act t).2 :: rs₂) := by
  obtain ⟨runs₂', same⟩ := run_put named (named.bound name h found) untouched runs₂ (act t).1
  rw [same] at held
  exact run_append_eq.mpr ⟨s₁, rs₁, (act t).2 :: rs₂, runs₁,
    run_cons_eq.mpr ⟨_, _, rs₂, step_object plans found held, runs₂', rfl⟩, rfl⟩

end System
end Registry
