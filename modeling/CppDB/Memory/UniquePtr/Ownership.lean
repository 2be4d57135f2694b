import CppDB.Lib.Census
import CppDB.Lib.Forest
import CppDB.Memory.UniquePtr.Model

/-! Every object has one owner, and none owns itself. The operations are made of three parts: a
pointer is let go of, taken over, and what it points to is deleted. -/
namespace CppDB.UniquePtr

open Relation

variable {H A M : Type}

structure Owned (s : State H A M) : Prop where
  alive : ∀ x a, s.slot x = .held (some a) → s.object a = .alive ∧ s.raw a = false
  only : ∀ x y a, s.slot x = .held (some a) → s.slot y = .held (some a) → x = y
  raw : ∀ a, s.raw a = true → s.object a = .alive
  kept : ∀ a, s.object a = .alive → s.raw a = true ∨ ∃ x, s.slot x = .held (some a)
  inside : ∀ a m, s.slot (.member a m) ≠ .absent → s.object a = .alive ∨ s.object a = .dying
  dying : ∀ a, s.object a = .dying ↔ a ∈ s.destructors
  once : s.destructors.Nodup
  finite : {x | s.slot x ≠ .absent}.Finite
  forest : WellFounded (Owns s.slot)

section Primitives

variable [DecidableEq H] [DecidableEq A] [FinEnum M] {s : State H A M} {x y : Place H A M}
  {ptr : Option A} {content : Slot A} {a : A}

theorem inHand_of_ne {raw : A → Bool} {now : Bool} (other : ptr ≠ some a) :
    inHand raw ptr now a = raw a := if_neg other

theorem inHand_self (raw : A → Bool) (now : Bool) : inHand raw (some a) now a = now := if_pos rfl

/-- A member that owns is a member that did, or the place that was written to. -/
theorem owns_of_update {slot : Place H A M → Slot A} {owner : A}
    (owns : Owns (Function.update slot x content) owner a) :
    Owns slot owner a ∨ content = .held (some a) ∧ ∃ m, x = .member owner m := by
  obtain ⟨m, holds⟩ := owns
  obtain ⟨rfl, here⟩ | ⟨-, there⟩ := Census.stands_cases holds
  · exact .inr ⟨here, m, rfl⟩
  · exact .inl ⟨m, there⟩

theorem owns_of_empty {slot : Place H A M → Slot A} (empty : content = .absent ∨ content = .held none)
    {b c : A} (owns : Owns (Function.update slot x content) b c) : Owns slot b c := by
  obtain old | ⟨is, -⟩ := owns_of_update owns
  · exact old
  · obtain rfl | rfl := empty <;> cases is

theorem finite_update {slot : Place H A M → Slot A} (finite : {x | slot x ≠ .absent}.Finite) :
    {y | Function.update slot x content y ≠ .absent}.Finite := by
  refine (finite.insert x).subset fun y present => ?_
  by_cases is : y = x
  · exact .inl is
  · exact .inr (by simpa [is] using present)

/-- A `UniquePtr` without object appears, is emptied, or goes. -/
theorem Owned.clear (owned : Owned s) (empty : content = .absent ∨ content = .held none)
    (room : content = .absent ∨ s.slot x ≠ .absent ∨ s.standing x = true)
    (holds : s.slot x = .held ptr ∨ s.slot x = .absent ∧ ptr = none) :
    Owned { s with slot := Function.update s.slot x content, raw := inHand s.raw ptr true } := by
  have kept {y : Place H A M} {b : A} (now : Function.update s.slot x content y = .held (some b)) :
      y ≠ x ∧ s.slot y = .held (some b) := by
    obtain ⟨-, is⟩ | there := Census.stands_cases now
    · obtain rfl | rfl := empty <;> cases is
    · exact there
  constructor <;> dsimp only
  · intro y b now
    obtain ⟨other, there⟩ := kept now
    obtain ⟨alive, unheld⟩ := owned.alive y b there
    refine ⟨alive, ?_⟩
    rw [inHand_of_ne, unheld]
    rintro rfl
    obtain here | ⟨-, none⟩ := holds
    · exact other (owned.only y x b there here)
    · cases none
  · exact fun y z b first second => owned.only y z b (kept first).2 (kept second).2
  · intro b held
    by_cases is : ptr = some b
    · subst is
      obtain here | ⟨-, none⟩ := holds
      · exact (owned.alive x b here).1
      · cases none
    · rw [inHand_of_ne is] at held
      exact owned.raw b held
  · intro b alive
    by_cases is : ptr = some b
    · subst is
      exact .inl (inHand_self ..)
    · rw [inHand_of_ne is]
      obtain held | ⟨y, there⟩ := owned.kept b alive
      · exact .inl held
      · refine .inr ⟨y, ?_⟩
        rw [Function.update_of_ne, there]
        rintro rfl
        obtain here | ⟨here, -⟩ := holds
        · cases here.symm.trans there
          exact is rfl
        · cases here.symm.trans there
  · intro b m present
    obtain rfl | other := eq_or_ne (.member b m) x
    · rw [Function.update_self] at present
      obtain none | before | room := room
      · exact absurd none present
      · exact owned.inside b m before
      · exact .inl (by simpa [State.standing] using room)
    · rw [Function.update_of_ne other] at present
      exact owned.inside b m present
  · exact owned.dying
  · exact owned.once
  · exact finite_update owned.finite
  · exact Subrelation.wf (owns_of_empty empty) owned.forest

theorem Owned.emptied (owned : Owned s) (holds : s.slot x = .held ptr) :
    Owned { s with slot := Function.update s.slot x (.held none),
                   raw := inHand s.raw ptr true } :=
  owned.clear (.inr rfl) (.inr (.inl (by simp [holds]))) (.inl holds)

theorem Owned.constructed (owned : Owned s) (absent : s.slot x = .absent)
    (standing : s.standing x = true) :
    Owned { s with slot := Function.update s.slot x (.held none) } := by
  have same : inHand s.raw none true = s.raw := funext fun _ => inHand_of_ne (by simp)
  rw [← same]
  exact owned.clear (.inr rfl) (.inr (.inr standing)) (.inr ⟨absent, rfl⟩)

/-- A pointer in hand is taken over. -/
theorem Owned.adopt (owned : Owned s) (ptr : Option A) (empty : s.slot x = .held none)
    (loose : s.Loose ptr) (outside : s.Outside x ptr) :
    Owned { s with slot := Function.update s.slot x (.held ptr),
                   raw := inHand s.raw ptr false } := by
  have stays {y : Place H A M} {b : A} (holds : s.slot y = .held (some b)) : y ≠ x := by
    rintro rfl
    cases empty.symm.trans holds
  have apart {y : Place H A M} {b : A} (holds : s.slot y = .held (some b)) : ptr ≠ some b := by
    intro is
    cases (owned.alive y b holds).2.symm.trans (loose b is)
  have present : s.slot x ≠ .absent := by simp [empty]
  constructor <;> dsimp only
  · intro y b now
    obtain ⟨rfl, is⟩ | ⟨other, there⟩ := Census.stands_cases now
    · cases is
      exact ⟨owned.raw b (loose b rfl), inHand_self ..⟩
    · rw [inHand_of_ne (apart there)]
      exact owned.alive y b there
  · intro y z b first second
    obtain ⟨rfl, is⟩ | ⟨-, there⟩ := Census.stands_cases first
    · obtain ⟨rfl, -⟩ | ⟨-, there'⟩ := Census.stands_cases second
      · rfl
      · cases is
        exact absurd rfl (apart there')
    · obtain ⟨rfl, is⟩ | ⟨-, there'⟩ := Census.stands_cases second
      · cases is
        exact absurd rfl (apart there)
      · exact owned.only y z b there there'
  · intro b held
    by_cases is : ptr = some b
    · rw [is, inHand_self] at held
      cases held
    · rw [inHand_of_ne is] at held
      exact owned.raw b held
  · intro b alive
    by_cases is : ptr = some b
    · exact .inr ⟨x, by rw [Function.update_self, is]⟩
    · rw [inHand_of_ne is]
      refine (owned.kept b alive).imp_right fun ⟨y, there⟩ => ⟨y, ?_⟩
      rw [Function.update_of_ne (stays there), there]
  · intro b m now
    obtain rfl | other := eq_or_ne (.member b m) x
    · exact owned.inside b m present
    · rw [Function.update_of_ne other] at now
      exact owned.inside b m now
  · exact owned.dying
  · exact owned.once
  · exact finite_update owned.finite
  · cases x with
    | handle h =>
      refine Subrelation.wf (fun {b c} owns => ?_) owned.forest
      obtain old | ⟨-, m, is⟩ := owns_of_update owns
      · exact old
      · cases is
    | member owner m =>
      cases ptr with
      | none => exact Subrelation.wf (owns_of_empty (.inr rfl)) owned.forest
      | some part =>
        have hung := Forest.wellFounded_hang owned.forest (outside part owner m rfl rfl)
        refine Subrelation.wf (fun {b c} owns => ?_) hung
        obtain old | ⟨is, m', place⟩ := owns_of_update owns
        · exact .inl old
        · cases is
          cases place
          exact .inr ⟨rfl, rfl⟩

omit [DecidableEq H] [FinEnum M] in
/-- A `delete` finds its object and begins its destructor. -/
theorem Owned.delete (owned : Owned s) (ptr : Option A) (loose : s.Loose ptr) :
    ∃ s', s.delete ptr = some s' ∧ Owned s' ∧ s'.slot = s.slot ∧
      s'.destructors = ptr.toList ++ s.destructors ∧
      ∀ b, s'.object b = if ptr = some b then .dying else s.object b := by
  cases ptr with
  | none => exact ⟨s, rfl, owned, rfl, rfl, fun b => rfl⟩
  | some a =>
    have held := loose a rfl
    have alive := owned.raw a held
    have deletes : s.delete (some a) = some { s with
        object := Function.update s.object a .dying
        raw := inHand s.raw (some a) false
        destructors := a :: s.destructors } := by
      simp only [State.delete, alive]
    refine ⟨_, deletes, ?_, rfl, rfl, fun b => ?_⟩
    · constructor <;> dsimp only
      · intro y b there
        obtain ⟨lives, unheld⟩ := owned.alive y b there
        have other : a ≠ b := by
          rintro rfl
          cases held.symm.trans unheld
        rw [inHand_of_ne (by simpa using other)]
        exact ⟨(Function.update_of_ne other.symm _ _).trans lives, unheld⟩
      · exact owned.only
      · intro b held'
        by_cases is : a = b
        · subst is
          rw [inHand_self] at held'
          cases held'
        · rw [inHand_of_ne (by simpa using is)] at held'
          exact (Function.update_of_ne (Ne.symm is) _ _).trans (owned.raw b held')
      · intro b lives
        obtain ⟨rfl, is⟩ | ⟨other, lives⟩ := Census.stands_cases lives
        · cases is
        · rw [inHand_of_ne (by simpa using other.symm)]
          exact owned.kept b lives
      · intro b m present
        by_cases is : b = a
        · subst is
          exact .inr (Function.update_self ..)
        · rw [Function.update_of_ne is]
          exact owned.inside b m present
      · intro b
        rw [List.mem_cons, ← owned.dying, Function.update_apply]
        by_cases is : b = a <;> simp [is]
      · refine List.nodup_cons.mpr ⟨fun there => ?_, owned.once⟩
        cases alive.symm.trans ((owned.dying a).mpr there)
      · exact owned.finite
      · exact owned.forest
    · simp only [Function.update_apply, Option.some.injEq, eq_comm]

end Primitives

/-! ### The operations -/

section Operations

variable [DecidableEq H] [DecidableEq A] [FinEnum M] {s s' : State H A M} {x y : Place H A M}
  {ptr old : Option A} {content : Slot A} {a : A}

/-- Objects stay as they are, or begin to die. -/
def Fates (s s' : State H A M) : Prop :=
  ∀ a, s'.object a = s.object a ∨ s.object a = .alive ∧ s'.object a = .dying

theorem reaches_of_emptied {slot : Place H A M → Slot A} {b c : A}
    (reaches : ReflTransGen (Owns (Function.update slot y (.held none))) b c) :
    ReflTransGen (Owns slot) b c :=
  ReflTransGen.mono (fun _ _ => owns_of_empty (.inr rfl)) _ _ reaches

theorem outside_emptied (outside : s.Outside x ptr) {raw : A → Bool} :
    State.Outside { s with slot := Function.update s.slot y (.held none), raw := raw } x ptr := by
  intro b owner m is place within
  exact outside b owner m is place (reaches_of_emptied within)

omit [DecidableEq H] [FinEnum M] in
/-- A pointer that was let go of is in hand. -/
theorem loose_inHand {slot : Place H A M → Slot A} :
    State.Loose { s with slot := slot, raw := inHand s.raw ptr true } ptr := by
  rintro a rfl
  exact inHand_self ..

/-- What can be reached after a write could be before, or is below what was written. -/
theorem reaches_of_update {slot : Place H A M → Slot A} {b c : A}
    (reaches : ReflTransGen (Owns (Function.update slot x (.held ptr))) b c) :
    ReflTransGen (Owns slot) b c ∨ ∃ part, ptr = some part ∧ ReflTransGen (Owns slot) part c := by
  induction reaches with
  | refl => exact .inl .refl
  | tail _ edge ih =>
    obtain old | ⟨is, -⟩ := owns_of_update edge
    · exact ih.imp (·.tail old) fun ⟨part, is, below⟩ => ⟨part, is, below.tail old⟩
    · cases is
      exact .inr ⟨_, rfl, .refl⟩

theorem Owned.destroy (owned : Owned s) (holds : s.slot x = .held old) :
    ∃ s', s.destroy x = some s' ∧ Owned s' ∧ s'.slot = Function.update s.slot x .absent ∧
      s'.destructors = old.toList ++ s.destructors ∧
      ∀ b, s'.object b = if old = some b then .dying else s.object b := by
  have gone := owned.clear (.inl rfl) (.inl rfl) (.inl holds)
  obtain ⟨s', deletes, owned', slots, rest⟩ := gone.delete old loose_inHand
  refine ⟨s', ?_, owned', slots, rest⟩
  simp only [State.destroy, State.release, holds, State.vanish, Option.bind_eq_bind,
    Option.bind_some, Function.update_self, Function.update_idem, deletes]

theorem Owned.reset (owned : Owned s) (ptr : Option A) (holds : s.slot x = .held old)
    (loose : s.Loose ptr) (outside : s.Outside x ptr) :
    ∃ s', s.reset x ptr = some s' ∧ Owned s' ∧
      ∀ b, s'.object b = if old = some b then .dying else s.object b := by
  have emptied := owned.emptied holds
  have adopted := emptied.adopt (x := x) ptr (Function.update_self ..)
    (by
      rintro a rfl
      by_cases is : old = some a
      · simp [is, inHand]
      · exact (inHand_of_ne is).trans (loose a rfl))
    (outside_emptied outside)
  obtain ⟨s', deletes, owned', -, -, objects⟩ := adopted.delete old (by
    rintro a rfl
    have other : ptr ≠ some a := by
      intro is
      cases (owned.alive x a holds).2.symm.trans (loose a is)
    exact (inHand_of_ne other).trans (inHand_self ..))
  refine ⟨s', ?_, owned', objects⟩
  simp only [State.reset, State.release, holds, State.adopt, Option.bind_eq_bind,
    Option.bind_some, Function.update_self, deletes]

omit [DecidableEq H] [FinEnum M] in
/-- What was owned or in hand and begins to die was alive. -/
theorem fates_of_delete (objects : ∀ b, s'.object b = if old = some b then .dying else s.object b)
    (alive : ∀ b, old = some b → s.object b = .alive) : Fates s s' := by
  intro b
  rw [objects]
  by_cases is : old = some b
  · exact .inr ⟨alive b is, if_pos is⟩
  · exact .inl (if_neg is)

omit [DecidableEq H] [FinEnum M] in
theorem Owned.fates (owned : Owned s) (holds : s.slot x = .held old)
    (objects : ∀ b, s'.object b = if old = some b then .dying else s.object b) : Fates s s' := by
  refine fates_of_delete objects ?_
  rintro b rfl
  exact (owned.alive x b holds).1

theorem Owned.moveAssign (owned : Owned s) (holds : s.slot x = .held old)
    (holds' : s.slot y = .held ptr) (outside : s.Outside x ptr) (other : x ≠ y) :
    ∃ s', s.perform (.moveAssign x y) = some s' ∧ Owned s' ∧ Fates s s' := by
  have emptied := owned.emptied holds'
  obtain ⟨s', resets, owned', objects⟩ := emptied.reset ptr
    ((Function.update_of_ne other _ _).trans holds)
    loose_inHand (outside_emptied outside)
  refine ⟨s', ?_, owned', owned.fates holds objects⟩
  simp only [State.perform, if_neg other, State.release, holds', Option.bind_eq_bind,
    Option.bind_some, resets]

/-- What was taken from the other pointer does not contain that pointer. -/
theorem Owned.outside_swapped (owned : Owned s) (holds' : s.slot y = .held ptr)
    (outside' : s.Outside y old) {raw : A → Bool} :
    State.Outside { s with
      slot := Function.update (Function.update (Function.update s.slot x (.held none)) y
        (.held none)) x (.held ptr)
      raw := raw } y old := by
  rintro a owner m rfl rfl within
  obtain below | ⟨part, rfl, below⟩ := reaches_of_update within
  · exact outside' a owner m rfl rfl (reaches_of_emptied (reaches_of_emptied below))
  · exact Forest.not_reaches_owner owned.forest ⟨m, holds'⟩
      (reaches_of_emptied (reaches_of_emptied below))

theorem Owned.swap (owned : Owned s) (holds : s.slot x = .held old) (holds' : s.slot y = .held ptr)
    (outside : s.Outside x ptr) (outside' : s.Outside y old) :
    ∃ s', s.perform (.swap x y) = some s' ∧ Owned s' ∧ Fates s s' := by
  have emptied := owned.emptied holds
  by_cases is : x = y
  · subst is
    have again := emptied.emptied (x := x) (Function.update_self ..)
    have adopted := again.adopt (x := x) none (Function.update_self ..) (by simp [State.Loose])
      (by simp [State.Outside])
    have back := adopted.adopt (x := x) old (Function.update_self ..)
      (by
        rintro a rfl
        simp [inHand])
      (outside_emptied (outside_emptied (outside_emptied outside')))
    refine ⟨_, ?_, back, fun _ => .inl rfl⟩
    simp only [State.perform, State.release, holds, State.adopt, Option.bind_eq_bind,
      Option.bind_some, Function.update_self]
  · have both := emptied.emptied (x := y) ((Function.update_of_ne (Ne.symm is) _ _).trans holds')
    have adopted := both.adopt (x := x) ptr
      ((Function.update_of_ne is _ _).trans (Function.update_self ..))
      loose_inHand (outside_emptied (outside_emptied outside))
    have swapped := adopted.adopt (x := y) old
      ((Function.update_of_ne (Ne.symm is) _ _).trans (Function.update_self ..))
      (by
        rintro a rfl
        have other : ptr ≠ some a := by
          rintro rfl
          exact is (owned.only x y a holds holds')
        simp [inHand, other])
      (owned.outside_swapped holds' outside')
    refine ⟨_, ?_, swapped, fun _ => .inl rfl⟩
    simp only [State.perform, State.release, holds, holds', State.adopt, Option.bind_eq_bind,
      Option.bind_some, Function.update_self, Function.update_of_ne is,
      Function.update_of_ne (Ne.symm is)]

theorem Owned.perform {op : Op (Place H A M) A} (owned : Owned s) (meets : op.Meets s) :
    ∃ s', s.perform op = some s' ∧ Owned s' ∧ Fates s s' := by
  have held {x : Place H A M} (present : s.slot x ≠ .absent) : ∃ ptr, s.slot x = .held ptr := by
    cases here : s.slot x with
    | absent => exact absurd here present
    | held ptr => exact ⟨ptr, rfl⟩
  cases op with
  | construct x ptr =>
    obtain ⟨absent, standing, loose, outside⟩ := meets
    have adopted := (owned.constructed absent standing).adopt ptr (Function.update_self ..) loose
      (outside_emptied outside)
    refine ⟨_, ?_, adopted, fun _ => .inl rfl⟩
    simp only [State.perform, State.construct, absent, standing, if_true, Option.bind_eq_bind,
      Option.bind_some, State.adopt, Function.update_self]
  | move x other =>
    obtain ⟨absent, standing, ptr, holds, outside⟩ := meets
    have apart : x ≠ other := by
      rintro rfl
      cases absent.symm.trans holds
    have absent' := (Function.update_of_ne apart (Slot.held none) s.slot).trans absent
    have adopted := ((owned.emptied holds).constructed absent' (by cases x <;> exact standing)).adopt
      ptr (Function.update_self ..)
      loose_inHand (outside_emptied (outside_emptied outside))
    refine ⟨_, ?_, adopted, fun _ => .inl rfl⟩
    have standing' : State.standing { s with
        slot := Function.update s.slot other (.held none), raw := inHand s.raw ptr true } x := by
      cases x <;> exact standing
    simp only [State.perform, State.release, holds, State.construct, absent', standing', if_true,
      Option.bind_eq_bind, Option.bind_some, State.adopt, Function.update_self]
  | moveAssign x other =>
    obtain ⟨present, ptr, holds', outside⟩ := meets
    obtain ⟨old, holds⟩ := held present
    by_cases is : x = other
    · exact ⟨s, by simp only [State.perform, if_pos is], owned, fun _ => .inl rfl⟩
    · exact owned.moveAssign holds holds' outside is
  | reset x ptr =>
    obtain ⟨present, loose, outside⟩ := meets
    obtain ⟨old, holds⟩ := held present
    obtain ⟨s', resets, owned', objects⟩ := owned.reset ptr holds loose outside
    exact ⟨s', resets, owned', owned.fates holds objects⟩
  | release x =>
    obtain ⟨ptr, holds⟩ := held meets
    refine ⟨_, ?_, owned.emptied holds, fun _ => .inl rfl⟩
    simp only [State.perform, State.release, holds, Option.map_some]
  | swap x other =>
    obtain ⟨ptr, ptr', holds, holds', outside, outside'⟩ := meets
    exact owned.swap holds holds' outside outside'
  | destroy x =>
    obtain ⟨old, holds⟩ := held meets
    obtain ⟨s', destroys, owned', -, -, objects⟩ := owned.destroy holds
    exact ⟨s', destroys, owned', owned.fates holds objects⟩
  | delete a =>
    obtain ⟨s', deletes, owned', -, -, objects⟩ := owned.delete (some a) (by
      rintro b ⟨⟩
      exact meets)
    refine ⟨s', deletes, owned', fates_of_delete objects ?_⟩
    rintro b ⟨⟩
    exact owned.raw a meets

end Operations

end CppDB.UniquePtr
