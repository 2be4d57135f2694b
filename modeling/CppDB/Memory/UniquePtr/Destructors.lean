import CppDB.Memory.UniquePtr.Ownership

/-! The destructors go through what an object owns, and through nothing else. Over whole runs
every object is deleted once. -/
namespace CppDB.UniquePtr

open Relation

variable {H A M : Type}

section Destructors

variable [DecidableEq H] [DecidableEq A] [FinEnum M] {s s' s'' : State H A M}
  {es es' : List (Event A)} {a : A}

/-- The ways a destructor goes on: the next member is destroyed, or the object is gone. -/
inductive Unwinding (s : State H A M) : State H A M → List (Event A) → Prop where
  | member {a : A} {rest : List A} {m : M} {old : Option A} {s' : State H A M}
      (busy : s.destructors = a :: rest) (holds : s.slot (.member a m) = .held old)
      (slots : s'.slot = Function.update s.slot (.member a m) .absent)
      (destructors : s'.destructors = old.toList ++ s.destructors)
      (objects : ∀ b, s'.object b = if old = some b then .dying else s.object b) :
      Unwinding s s' []
  | free {a : A} {s' : State H A M} (busy : s.destructors = a :: s'.destructors)
      (bare : ∀ m, s.slot (.member a m) = .absent) (slots : s'.slot = s.slot)
      (objects : s'.object = Function.update s.object a .deleted) :
      Unwinding s s' [.deleted a]

omit [DecidableEq H] [FinEnum M] in
theorem Owned.free (owned : Owned s) {rest : List A} (busy : s.destructors = a :: rest)
    (bare : ∀ m, s.slot (.member a m) = .absent) :
    Owned { s with object := Function.update s.object a .deleted, destructors := rest } := by
  have dying : s.object a = .dying := (owned.dying a).mpr (busy ▸ List.mem_cons_self)
  have other {b : A} (alive : s.object b = .alive) : b ≠ a := by
    rintro rfl
    cases alive.symm.trans dying
  have once := owned.once
  rw [busy, List.nodup_cons] at once
  constructor <;> dsimp only
  · intro x b holds
    obtain ⟨alive, unheld⟩ := owned.alive x b holds
    exact ⟨(Function.update_of_ne (other alive) _ _).trans alive, unheld⟩
  · exact owned.only
  · intro b held
    have alive := owned.raw b held
    exact (Function.update_of_ne (other alive) _ _).trans alive
  · intro b alive
    obtain ⟨-, is⟩ | ⟨-, alive⟩ := Census.stands_cases alive
    · cases is
    · exact owned.kept b alive
  · intro b m present
    have apart : b ≠ a := by
      rintro rfl
      exact present (bare m)
    rw [Function.update_of_ne apart]
    exact owned.inside b m present
  · intro b
    by_cases is : b = a
    · subst is
      simp [once.1]
    · rw [Function.update_of_ne is, owned.dying, busy, List.mem_cons, or_iff_right is]
  · exact once.2
  · exact owned.finite
  · exact owned.forest

theorem Owned.run (owned : Owned s) (busy : s.destructors ≠ []) :
    ∃ s' es', step s .run = some (s', es') ∧ Owned s' ∧ Unwinding s s' es' := by
  obtain ⟨a, rest, busy⟩ := List.exists_cons_of_ne_nil busy
  have dying : s.object a = .dying := (owned.dying a).mpr (busy ▸ List.mem_cons_self)
  cases left : s.members a with
  | cons m others =>
    have present : s.slot (.member a m) ≠ .absent := by
      have there : m ∈ s.members a := left ▸ List.mem_cons_self
      simpa [State.members] using there
    cases holds : s.slot (.member a m) with
    | absent => exact absurd holds present
    | held old =>
      obtain ⟨s', destroys, owned', slots, destructors, objects⟩ := owned.destroy holds
      refine ⟨s', [], ?_, owned', .member busy holds slots destructors objects⟩
      simp only [step, busy, left, destroys, Option.map_some]
  | nil =>
    have bare (m : M) : s.slot (.member a m) = .absent := by
      have none : m ∉ s.members a := by simp [left]
      simpa [State.members] using none
    refine ⟨_, _, ?_, owned.free busy bare, .free busy bare rfl rfl⟩
    simp only [step, busy, left, dying]

/-- What will be gone when all destructors are done. -/
def Doomed (s : State H A M) (b : A) : Prop := ∃ d ∈ s.destructors, s.Within d b

/-- All of that is gone, and nothing else has changed. -/
structure Unwound (s s' : State H A M) : Prop where
  deleted : ∀ b, Doomed s b → s'.object b = .deleted
  members : ∀ b m, Doomed s b → s'.slot (.member b m) = .absent
  objects : ∀ b, ¬ Doomed s b → s'.object b = s.object b
  slots : ∀ x, (∀ b m, x = .member b m → ¬ Doomed s b) → s'.slot x = s.slot x
  done : s'.destructors = []

omit [DecidableEq H] [DecidableEq A] [FinEnum M] in
/-- An object without members is all there is in it. -/
theorem eq_of_within {b : A} (bare : ∀ m, s.slot (.member a m) = .absent) (within : s.Within a b) :
    b = a := by
  obtain rfl | ⟨c, ⟨m, owns⟩, -⟩ := within.cases_head
  · rfl
  · cases (bare m).symm.trans owns

theorem doomed_of_member {rest : List A} {m : M} {old : Option A} (busy : s.destructors = a :: rest)
    (holds : s.slot (.member a m) = .held old)
    (slots : s'.slot = Function.update s.slot (.member a m) .absent)
    (destructors : s'.destructors = old.toList ++ s.destructors) (b : A) :
    Doomed s' b ↔ Doomed s b := by
  have top : a ∈ s.destructors := busy ▸ List.mem_cons_self
  constructor
  · rintro ⟨d, there, within⟩
    rw [State.Within, slots] at within
    replace within : s.Within d b :=
      ReflTransGen.mono (fun _ _ => owns_of_empty (.inl rfl)) _ _ within
    rw [destructors, List.mem_append, Option.mem_toList] at there
    obtain rfl | there := there
    · exact ⟨a, top, .head ⟨m, holds⟩ within⟩
    · exact ⟨d, there, within⟩
  · rintro ⟨d, there, within⟩
    induction within with
    | refl => exact ⟨d, destructors ▸ List.mem_append_right _ there, .refl⟩
    | @tail b c _ edge ih =>
      obtain ⟨n, owns⟩ := edge
      by_cases is : (.member b n : Place H A M) = .member a m
      · -- the pointer that goes was the owner
        rw [is, holds] at owns
        cases owns
        exact ⟨c, destructors ▸ List.mem_cons_self, .refl⟩
      · obtain ⟨d', there', within'⟩ := ih
        exact ⟨d', there', within'.tail ⟨n, by rw [slots, Function.update_of_ne is, owns]⟩⟩

omit [DecidableEq H] [DecidableEq A] [FinEnum M] in
theorem doomed_of_free (busy : s.destructors = a :: s'.destructors)
    (bare : ∀ m, s.slot (.member a m) = .absent) (slots : s'.slot = s.slot) (b : A) :
    Doomed s b ↔ b = a ∨ Doomed s' b := by
  have same : s'.Within = s.Within := by rw [State.Within, State.Within, slots]
  rw [Doomed, Doomed, same]
  constructor
  · rintro ⟨d, there, within⟩
    rw [busy, List.mem_cons] at there
    obtain rfl | there := there
    · exact .inl (eq_of_within bare within)
    · exact .inr ⟨d, there, within⟩
  · rintro (rfl | ⟨d, there, within⟩)
    · exact ⟨b, busy ▸ List.mem_cons_self, .refl⟩
    · exact ⟨d, busy ▸ List.mem_cons_of_mem a there, within⟩

/-- What is unwound after a step is unwound. -/
theorem Unwinding.unwound (first : Unwinding s s' es) (rest : Unwound s' s'') : Unwound s s'' := by
  cases first with
  | @member a _ m old _ busy holds slots destructors objects =>
    have doomed := doomed_of_member busy holds slots destructors
    have top : Doomed s a := ⟨a, busy ▸ List.mem_cons_self, .refl⟩
    constructor
    · exact fun b gone => rest.deleted b ((doomed b).mpr gone)
    · exact fun b m gone => rest.members b m ((doomed b).mpr gone)
    · intro b stays
      rw [rest.objects b (mt (doomed b).mp stays), objects, if_neg]
      rintro rfl
      exact stays ⟨a, busy ▸ List.mem_cons_self, .single ⟨m, holds⟩⟩
    · intro x stays
      rw [rest.slots x fun b m is => mt (doomed b).mp (stays b m is), slots, Function.update_of_ne]
      rintro rfl
      exact stays a m rfl top
    · exact rest.done
  | @free a _ busy bare slots objects =>
    have doomed := doomed_of_free busy bare slots
    constructor
    · intro b gone
      by_cases later : Doomed s' b
      · exact rest.deleted b later
      · obtain rfl := ((doomed b).mp gone).resolve_right later
        rw [rest.objects b later, objects, Function.update_self]
    · intro b m gone
      by_cases later : Doomed s' b
      · exact rest.members b m later
      · obtain rfl := ((doomed b).mp gone).resolve_right later
        rw [rest.slots (.member b m) (by rintro _ _ ⟨⟩; exact later), slots, bare]
    · intro b stays
      rw [doomed b, not_or] at stays
      rw [rest.objects b stays.2, objects, Function.update_of_ne stays.1]
    · intro x stays
      rw [rest.slots x fun b m is later => stays b m is ((doomed b).mpr (.inr later)), slots]
    · exact rest.done

/-- The members that destructors can destroy and the destructors that can end. -/
noncomputable def weight (s : State H A M) : Nat :=
  2 * {x | s.slot x ≠ .absent}.ncard + s.destructors.length

theorem Unwinding.weight_lt (owned : Owned s) (unwinding : Unwinding s s' es) :
    weight s' < weight s := by
  cases unwinding with
  | @member a _ m old _ busy holds slots destructors objects =>
    have present : Place.member a m ∈ {x | s.slot x ≠ .absent} := by simp [holds]
    have fewer : {x | s'.slot x ≠ .absent} = {x | s.slot x ≠ .absent} \ {.member a m} := by
      ext x
      by_cases is : x = .member a m <;> simp [slots, is]
    have count := Set.ncard_sdiff_singleton_add_one present owned.finite
    have one : old.toList.length ≤ 1 := by cases old <;> simp
    rw [weight, weight, fewer, destructors, List.length_append]
    omega
  | free busy bare slots objects =>
    rw [weight, weight, busy, slots, List.length_cons]
    omega

/-- The destructors end. -/
theorem Owned.unwinds (owned : Owned s) :
    ∃ n s' es', Trace.exec step s (List.replicate n .run) = some (s', es') ∧ Unwound s s' := by
  induction k : weight s using Nat.strong_induction_on generalizing s with
  | _ k ih =>
    by_cases busy : s.destructors = []
    · have nobody (b : A) : ¬ Doomed s b := by simp [Doomed, busy]
      exact ⟨0, s, [], rfl, fun b gone => absurd gone (nobody b),
        fun b _ gone => absurd gone (nobody b), fun _ _ => rfl, fun _ _ => rfl, busy⟩
    · obtain ⟨s₁, es₁, steps, owned₁, unwinding⟩ := owned.run busy
      obtain ⟨n, s', es', execs, unwound⟩ := ih _ (k ▸ unwinding.weight_lt owned) owned₁ rfl
      refine ⟨n + 1, s', es₁ ++ es', ?_, unwinding.unwound unwound⟩
      simp only [List.replicate_succ, Trace.exec, steps, execs, Option.bind_eq_bind,
        Option.bind_some, Option.pure_def]

end Destructors

/-! ### Whole runs -/

def Event.createdObject : Event A → Option A
  | .created a => some a
  | .deleted _ => none

def Event.deletedObject : Event A → Option A
  | .created _ => none
  | .deleted a => some a

def createdIn (es : List (Event A)) : List A := es.filterMap Event.createdObject

def deletedIn (es : List (Event A)) : List A := es.filterMap Event.deletedObject

/-- The events so far tell what has become of every object. -/
structure Recorded (es : List (Event A)) (s : State H A M) : Prop where
  created : ∀ a, a ∈ createdIn es ↔ s.object a ≠ .unborn
  deleted : Census.Lists .deleted (deletedIn es) s.object

section Runs

variable [DecidableEq H] [DecidableEq A] [FinEnum M] {s s' : State H A M}
  {es es' : List (Event A)} {a : A}

omit [DecidableEq H] [DecidableEq A] [FinEnum M] in
theorem Recorded.fates (recorded : Recorded es s) (fates : Fates s s') : Recorded es s' := by
  refine ⟨fun a => ?_, recorded.deleted.nodup, fun a => ?_⟩
  · rw [recorded.created]
    obtain same | ⟨before, after⟩ := fates a
    · rw [same]
    · simp [before, after]
  · rw [recorded.deleted.mem_iff]
    obtain same | ⟨before, after⟩ := fates a
    · rw [same]
    · simp [before, after]

omit [DecidableEq H] [FinEnum M] in
theorem Recorded.allocate (recorded : Recorded es s) (unborn : s.object a = .unborn)
    (objects : s'.object = Function.update s.object a .alive) :
    Recorded (es ++ [.created a]) s' := by
  have created : createdIn (es ++ [.created a]) = createdIn es ++ [a] := List.filterMap_append
  have deleted : deletedIn (es ++ [.created a]) = deletedIn es :=
    List.filterMap_append.trans (List.append_nil _)
  constructor
  · intro b
    rw [created, List.mem_append, recorded.created, List.mem_singleton, objects]
    by_cases is : b = a <;> simp [is]
  · rw [deleted, objects]
    exact recorded.deleted.set (by simp [unborn]) (by simp)

omit [DecidableEq H] [FinEnum M] in
theorem Recorded.free (recorded : Recorded es s) (dying : s.object a = .dying)
    (objects : s'.object = Function.update s.object a .deleted) :
    Recorded (es ++ [.deleted a]) s' := by
  have created : createdIn (es ++ [.deleted a]) = createdIn es :=
    List.filterMap_append.trans (List.append_nil _)
  have deleted : deletedIn (es ++ [.deleted a]) = deletedIn es ++ [a] := List.filterMap_append
  constructor
  · intro b
    rw [created, recorded.created, objects]
    by_cases is : b = a <;> simp [is, dying]
  · rw [deleted, objects]
    exact recorded.deleted.add (by simp [dying])

omit [DecidableEq H] [FinEnum M] in
theorem Owned.allocate (owned : Owned s) (unborn : s.object a = .unborn) :
    Owned { s with object := Function.update s.object a .alive,
                   raw := inHand s.raw (some a) true } := by
  have other {b : A} (born : s.object b ≠ .unborn) : b ≠ a := by
    rintro rfl
    exact born unborn
  constructor <;> dsimp only
  · intro x b holds
    obtain ⟨alive, unheld⟩ := owned.alive x b holds
    have apart := other (b := b) (by simp [alive])
    rw [Function.update_of_ne apart, inHand_of_ne (by simpa using apart.symm)]
    exact ⟨alive, unheld⟩
  · exact owned.only
  · intro b held
    by_cases is : b = a
    · subst is
      exact Function.update_self ..
    · rw [inHand_of_ne (by simpa using Ne.symm is)] at held
      exact (Function.update_of_ne is _ _).trans (owned.raw b held)
  · intro b alive
    by_cases is : b = a
    · subst is
      exact .inl (inHand_self ..)
    · rw [Function.update_of_ne is] at alive
      rw [inHand_of_ne (by simpa using Ne.symm is)]
      exact owned.kept b alive
  · intro b m present
    have lives := owned.inside b m present
    rw [Function.update_of_ne (other (by rcases lives with alive | dying <;> simp [*]))]
    exact lives
  · intro b
    by_cases is : b = a
    · subst is
      rw [← owned.dying, unborn, Function.update_self]
      simp
    · rw [Function.update_of_ne is]
      exact owned.dying b
  · exact owned.once
  · exact owned.finite
  · exact owned.forest

omit [DecidableEq H] [DecidableEq A] [FinEnum M] in
theorem Owned.create : Owned (create : State H A M) where
  alive x a holds := by cases holds
  only x y a holds := by cases holds
  raw a held := by cases held
  kept a alive := by cases alive
  inside a m present := absurd rfl present
  dying a := by simp [UniquePtr.create]
  once := List.nodup_nil
  finite := by simp [UniquePtr.create]
  forest := ⟨fun a => .intro a fun b ⟨m, holds⟩ => by cases holds⟩

omit [DecidableEq H] [DecidableEq A] [FinEnum M] in
theorem Recorded.create : Recorded [] (create : State H A M) :=
  ⟨fun a => by simp [createdIn, UniquePtr.create], List.nodup_nil,
    fun a => by simp [deletedIn, UniquePtr.create]⟩

theorem Owned.next {action : Action H A M} (owned : Owned s) (recorded : Recorded es s)
    (contract : Contract es s action) (steps : step s action = some (s', es')) :
    Owned s' ∧ Recorded (es ++ es') s' := by
  cases action with
  | allocate a =>
    rw [step] at steps
    split at steps
    case h_1 idle unborn =>
      cases steps
      exact ⟨owned.allocate unborn, recorded.allocate unborn rfl⟩
    case h_2 => cases steps
  | call op =>
    obtain ⟨s'', performs, owned', fates⟩ := owned.perform contract
    rw [step] at steps
    split at steps
    case h_1 idle =>
      rw [performs] at steps
      cases steps
      rw [List.append_nil]
      exact ⟨owned', recorded.fates fates⟩
    case h_2 => cases steps
  | run =>
    have busy : s.destructors ≠ [] := by
      intro idle
      simp [step, idle] at steps
    obtain ⟨s'', es'', steps', owned', unwinding⟩ := owned.run busy
    cases steps.symm.trans steps'
    refine ⟨owned', ?_⟩
    cases unwinding with
    | @member a _ m old _ busy holds slots destructors objects =>
      rw [List.append_nil]
      exact recorded.fates (owned.fates holds objects)
    | @free a _ busy bare slots objects =>
      exact recorded.free ((owned.dying a).mpr (busy ▸ List.mem_cons_self)) objects

omit [DecidableEq H] [DecidableEq A] [FinEnum M] in
/-- Nothing is left of a program that holds nothing any more. -/
theorem Owned.not_alive (owned : Owned s) (idle : s.destructors = []) (loose : ∀ a, s.raw a = false)
    (unheld : ∀ h a, s.slot (.handle h) ≠ .held (some a)) (a : A) : s.object a ≠ .alive := by
  induction a using owned.forest.induction with
  | _ a ih =>
    intro alive
    obtain held | ⟨x, holds⟩ := owned.kept a alive
    · cases (loose a).symm.trans held
    · cases x with
      | handle h => exact unheld h a holds
      | member owner m =>
        obtain lives | dying := owned.inside owner m (by simp [holds])
        · exact ih owner ⟨m, holds⟩ lives
        · rw [owned.dying, idle] at dying
          cases dying

/-- Whatever is done with the pointers: an object that one of them points to is alive, and no
other one points to it. No object is deleted twice. No operation is stopped, also not one that
moves a pointer out of the object it then deletes. The destructors end; what their objects
owned is then gone as well, and nothing else has changed. A program that has let go of all it
held leaves no object behind. -/
theorem uniquePtr_deletes_once (run : Trace.Run step Contract (create : State H A M) es s) :
    (∀ x a, s.slot x = .held (some a) →
      s.object a = .alive ∧ s.raw a = false ∧ ∀ y, s.slot y = .held (some a) → y = x) ∧
    ((deletedIn es).Nodup ∧ ∀ a ∈ deletedIn es, a ∈ createdIn es ∧ s.object a = .deleted) ∧
    (∀ op : Op (Place H A M) A, s.destructors = [] → op.Meets s →
      ∃ s', step s (.call op) = some (s', [])) ∧
    (∃ n s' es', Trace.exec step s (List.replicate n .run) = some (s', es') ∧ Unwound s s') ∧
    (s.destructors = [] → (∀ a, s.raw a = false) →
      (∀ h a, s.slot (.handle h) ≠ .held (some a)) → ∀ a ∈ createdIn es, a ∈ deletedIn es) := by
  have both : Owned s ∧ Recorded es s := by
    apply run.invariant fun es s => Owned s ∧ Recorded es s
    · exact ⟨.create, .create⟩
    · intro es es' s s' action ⟨owned, recorded⟩ contract steps
      exact owned.next recorded contract steps
  obtain ⟨owned, recorded⟩ := both
  refine ⟨?_, ⟨recorded.deleted.nodup, ?_⟩, ?_, owned.unwinds, ?_⟩
  · intro x a holds
    obtain ⟨alive, unheld⟩ := owned.alive x a holds
    exact ⟨alive, unheld, fun y holds' => owned.only y x a holds' holds⟩
  · intro a there
    have deleted := (recorded.deleted.mem_iff a).mp there
    exact ⟨(recorded.created a).mpr (by simp [deleted]), deleted⟩
  · intro op idle meets
    obtain ⟨s', performs, -⟩ := owned.perform meets
    exact ⟨s', by simp only [step, idle, performs, Option.map_some]⟩
  · intro idle loose unheld a there
    have born := (recorded.created a).mp there
    have dead := owned.not_alive idle loose unheld a
    have undying : s.object a ≠ .dying := by simp [owned.dying, idle]
    rw [recorded.deleted.mem_iff]
    cases now : s.object a with
    | unborn => exact absurd now born
    | alive => exact absurd now dead
    | dying => exact absurd now undying
    | deleted => rfl

end Runs

/-- A variable is moved to from a member of the object it owns, as `BTree::remove` does with the
root of its tree. The object goes, what its member owned stays until the variable goes. -/
theorem uniquePtr_deletes_once_nested :
    ∃ (es : List (Event Nat)) (s : State Unit Nat Unit) (es' : List (Event Nat))
        (s' : State Unit Nat Unit),
      Trace.Run step Contract create es s ∧ s.destructors = [1] ∧
      s.slot (.handle ()) = .held (some 2) ∧ s.object 2 = .alive ∧
      Trace.Run step Contract create (es ++ es') s' ∧ createdIn (es ++ es') = [1, 2] ∧
      ∀ a ∈ [1, 2], a ∈ deletedIn (es ++ es') := by
  have first : Trace.Run step Contract (create : State Unit Nat Unit) _ _ :=
    (Trace.Run.start.next (a := .allocate 1) trivial rfl).next
      (a := .call (.construct (.handle ()) (some 1)))
      ⟨rfl, rfl, by rintro _ ⟨⟩; rfl, by rintro _ _ _ _ ⟨⟩⟩ rfl
  have second : Trace.Run step Contract (create : State Unit Nat Unit) _ _ :=
    first.next (a := .allocate 2) (by trivial) rfl
  have third : Trace.Run step Contract (create : State Unit Nat Unit) _ _ :=
    second.next (a := .call (.construct (.member 1 ()) (some 2)))
      ⟨rfl, rfl, by rintro _ ⟨⟩; rfl, by
        rintro _ _ _ ⟨⟩ ⟨⟩ within
        cases eq_of_within (fun _ => rfl) within⟩ rfl
  have moved : Trace.Run step Contract (create : State Unit Nat Unit) _ _ :=
    third.next (a := .call (.moveAssign (.handle ()) (.member 1 ())))
      ⟨by decide, some 2, rfl, by rintro _ _ _ _ ⟨⟩⟩ rfl
  have unwound : Trace.Run step Contract (create : State Unit Nat Unit) _ _ :=
    (moved.next (a := .run) (by trivial) rfl).next (a := .run) (by trivial) rfl
  have ended : Trace.Run step Contract (create : State Unit Nat Unit) _ _ :=
    (unwound.next (a := .call (.destroy (.handle ()))) (by rintro ⟨⟩) rfl).next (a := .run)
      (by trivial) rfl
  have empty := (uniquePtr_deletes_once ended).2.2.2.2 rfl
    (by rintro (_ | _ | _ | _) <;> rfl) (by rintro _ _ ⟨⟩)
  exact ⟨_, _, _, _, moved, rfl, rfl, ((uniquePtr_deletes_once moved).1 (.handle ()) 2 rfl).1,
    ended, rfl, empty⟩

end CppDB.UniquePtr
