import CppDB.Memory.SharedPtr.Counting

/-! The threads that use the handles. As long as no handle is changed by one thread while
another one uses it, every operation finds the places as it needs them and can go on. -/
namespace CppDB.SharedPtr

variable {T H A C X : Type}

inductive Kind where
  | absent
  | held
  | released
deriving DecidableEq

def Slot.kind : Slot A C → Kind
  | .absent => .absent
  | .held _ => .held
  | .released _ => .released

def Memory.kinds (m : Memory X A C) (x : X) : Kind := (m.slot x).kind

namespace Instr

/-- The places an instruction changes. -/
def writes : Instr X → List X
  | .null x => [x]
  | .construct x => [x]
  | .copy x _ => [x]
  | .move x other => [x, other]
  | .swap x other => [x, other]
  | .release x => [x]
  | .clear x => [x]
  | .vanish x => [x]

/-- The places an instruction changes or looks at. -/
def touches : Instr X → List X
  | .copy x other => [x, other]
  | i => i.writes

/-- How an instruction needs its places. -/
def Needs (kinds : X → Kind) : Instr X → Prop
  | .null x => kinds x = .absent
  | .construct x => kinds x = .absent
  | .copy x other => kinds x = .absent ∧ kinds other = .held
  | .move x other => kinds x = .absent ∧ kinds other = .held
  | .swap x other => kinds x = .held ∧ kinds other = .held
  | .release x => kinds x = .held
  | .clear x => kinds x = .released
  | .vanish x => kinds x = .released

/-- How an instruction leaves the places. -/
def effect [DecidableEq X] (kinds : X → Kind) : Instr X → X → Kind
  | .null x => Function.update kinds x .held
  | .construct x => Function.update kinds x .held
  | .copy x _ => Function.update kinds x .held
  | .move x _ => Function.update kinds x .held
  | .swap _ _ => kinds
  | .release x => Function.update kinds x .released
  | .clear x => Function.update kinds x .held
  | .vanish x => Function.update kinds x .absent

end Instr

def writes (program : List (Instr X)) : List X := program.flatMap Instr.writes

def touches (program : List (Instr X)) : List X := program.flatMap Instr.touches

/-- Neither program changes a place that the other one uses. -/
def Apart (p q : List (Instr X)) : Prop :=
  (∀ x ∈ writes p, x ∉ touches q) ∧ ∀ x ∈ writes q, x ∉ touches p

/-- Outside every operation a handle is not half released and no local is left. -/
def Place.Rests : Place H T → Kind → Prop
  | .handle _, kind => kind ≠ .released
  | .temporary _, kind => kind = .absent

/-- The handles whose lifetime an operation begins. -/
def Op.creates : Op H → List H
  | .construct h _ => [h]
  | .copy h _ => [h]
  | .move h _ => [h]
  | .copyAssign _ _ => []
  | .moveAssign _ _ => []
  | .swap _ _ => []
  | .reset _ => []
  | .resetTo _ _ => []
  | .destroy _ => []

/-- The handles an operation is called on. -/
def Op.uses : Op H → List H
  | .construct _ _ => []
  | .copy _ other => [other]
  | .move _ other => [other]
  | .copyAssign h other => [h, other]
  | .moveAssign h other => [h, other]
  | .swap h other => [h, other]
  | .reset h => [h]
  | .resetTo h _ => [h]
  | .destroy h => [h]

/-- What the callers have to see to: a handle is used between its construction and its
destruction, and is not changed by one thread while another one uses it. Any number of
threads may copy one handle at a time. -/
def Contract (_ : List (Event A C)) (s : State T H A C) : Action T H A C → Prop
  | .call t op =>
    (∀ h ∈ op.creates, s.memory.slot (.handle h) = .absent) ∧
    (∀ h ∈ op.uses, s.memory.slot (.handle h) ≠ .absent) ∧
    ∀ t', t' ≠ t → ∀ h,
      (.handle h ∈ writes (op.program t) → .handle h ∉ touches (s.program t')) ∧
      (.handle h ∈ writes (s.program t') → .handle h ∉ touches (op.program t))
  | .allocate _ _ _ => True
  | .run _ => True

variable [DecidableEq T] [DecidableEq H]

instance decidableContract [Fintype T] [Fintype H] [DecidableEq A] [DecidableEq C]
    (es : List (Event A C)) (s : State T H A C) (action : Action T H A C) :
    Decidable (Contract es s action) := by
  cases action <;> unfold Contract <;> infer_instance

/-- From places of these kinds a program finds at every instruction what it needs, and
leaves everything at rest. -/
def Checks (kinds : Place H T → Kind) : List (Instr (Place H T)) → Prop
  | [] => ∀ x, Place.Rests x (kinds x)
  | i :: rest => i.Needs kinds ∧ Checks (i.effect kinds) rest

/-! ### The kinds of the places -/

section Kinds

variable {kinds kinds' : X → Kind} {m m' : Memory X A C} {i : Instr X} {x : X}

theorem slot_of_absent (kind : m.kinds x = .absent) : m.slot x = .absent := by
  rw [Memory.kinds] at kind
  cases slot : m.slot x with
  | absent => rfl
  | held fields | released fields => simp [slot, Slot.kind] at kind

theorem slot_of_held (kind : m.kinds x = .held) : ∃ fields, m.slot x = .held fields := by
  rw [Memory.kinds] at kind
  cases slot : m.slot x with
  | held fields => exact ⟨fields, rfl⟩
  | absent | released fields => simp [slot, Slot.kind] at kind

theorem slot_of_released (kind : m.kinds x = .released) :
    ∃ fields, m.slot x = .released fields := by
  rw [Memory.kinds] at kind
  cases slot : m.slot x with
  | released fields => exact ⟨fields, rfl⟩
  | absent | held fields => simp [slot, Slot.kind] at kind

theorem Instr.mem_touches (there : x ∈ i.writes) : x ∈ i.touches := by
  cases i with
  | copy y other =>
    obtain rfl := List.mem_singleton.mp there
    exact List.mem_cons_self
  | _ => exact there

theorem mem_touches_of_writes {program : List (Instr X)} (there : x ∈ writes program) :
    x ∈ touches program := by
  obtain ⟨i, inside, changes⟩ := List.mem_flatMap.mp there
  exact List.mem_flatMap.mpr ⟨i, inside, Instr.mem_touches changes⟩

theorem Instr.needs_congr (same : ∀ x ∈ i.touches, kinds x = kinds' x) (needs : i.Needs kinds) :
    i.Needs kinds' := by
  cases i with
  | null y | construct y | release y | clear y | vanish y =>
    exact (same y List.mem_cons_self).symm.trans needs
  | copy y other | move y other | swap y other =>
    exact ⟨(same y List.mem_cons_self).symm.trans needs.1,
      (same other (List.mem_cons_of_mem _ List.mem_cons_self)).symm.trans needs.2⟩

variable [DecidableEq X]

theorem Instr.effect_of_not_mem (outside : x ∉ i.writes) : i.effect kinds x = kinds x := by
  cases i with
  | swap y other => rfl
  | move y other => exact Function.update_of_ne (List.ne_of_not_mem_cons outside) _ _
  | _ => exact Function.update_of_ne (fun is => outside (List.mem_singleton.mpr is)) _ _

/-- The effect on a place depends on that place only. -/
theorem Instr.effect_congr (same : kinds x = kinds' x) : i.effect kinds x = i.effect kinds' x := by
  cases i with
  | swap y other => exact same
  | _ => simp only [Instr.effect, Function.update_apply, same]

theorem kinds_update (m : Memory X A C) (x : X) (content : Slot A C) :
    (fun y => (Function.update m.slot x content y).kind) =
      Function.update m.kinds x content.kind := by
  funext y
  by_cases is : y = x
  · subst is
    simp
  · simp [is, Memory.kinds]

variable [DecidableEq C]

theorem exec_kinds {d : Doomed A C} (takes : m.Takes i m' d) : m'.kinds = i.effect m.kinds := by
  cases takes with
  | null x here => exact kinds_update m x _
  | copyNull x other here there => exact kinds_update m x _
  | copy x other a c n here there live => exact kinds_update m x _
  | releaseNull x here => exact kinds_update m x _
  | release x a c n here live => exact kinds_update m x _
  | clear x fields here => exact kinds_update m x _
  | vanish x fields here => exact kinds_update m x _
  | move x other fields here there =>
    funext y
    by_cases is : y = other
    · subst is
      simp [Memory.kinds, Instr.effect, Function.update_apply, there, Slot.kind]
    · by_cases first : y = x
      · subst first
        simp [Memory.kinds, Instr.effect, is, Slot.kind]
      · simp [Memory.kinds, Instr.effect, is, first]
  | swap x other fields fields' here there =>
    funext y
    by_cases is : y = other
    · subst is
      simp [Memory.kinds, Instr.effect, there, Slot.kind]
    · by_cases first : y = x
      · subst first
        simp [Memory.kinds, Instr.effect, is, here, Slot.kind]
      · simp [Memory.kinds, Instr.effect, is, first]

omit [DecidableEq T] in
/-- With the counts right and the places as needed, nothing stops an instruction. -/
theorem Counted.exec_isSome {madeFor : C → Option A} {doomed : T → Doomed A C}
    (counted : Counted madeFor m doomed) (needs : i.Needs m.kinds) (other : ∀ x, i ≠ .construct x) :
    (m.exec i).isSome := by
  cases i with
  | null x => simp [Memory.exec, slot_of_absent needs]
  | construct x => exact absurd rfl (other x)
  | copy x y =>
    have here := slot_of_absent needs.1
    obtain ⟨fields, there⟩ := slot_of_held needs.2
    rcases fields with _ | ⟨a, c⟩
    · simp [Memory.exec, here, there]
    · obtain ⟨n, live⟩ := counted.live_of_held there
      simp [Memory.exec, here, there, live]
  | move x y =>
    have here := slot_of_absent needs.1
    obtain ⟨fields, there⟩ := slot_of_held needs.2
    simp [Memory.exec, here, there]
  | swap x y =>
    obtain ⟨fields, here⟩ := slot_of_held needs.1
    obtain ⟨fields', there⟩ := slot_of_held needs.2
    simp [Memory.exec, here, there]
  | release x =>
    obtain ⟨fields, here⟩ := slot_of_held needs
    rcases fields with _ | ⟨a, c⟩
    · simp [Memory.exec, here]
    · obtain ⟨n, live⟩ := counted.live_of_held here
      simp [Memory.exec, here, live]
  | clear x =>
    obtain ⟨fields, here⟩ := slot_of_released needs
    simp [Memory.exec, here]
  | vanish x =>
    obtain ⟨fields, here⟩ := slot_of_released needs
    simp [Memory.exec, here]

end Kinds

/-! ### The threads -/

/-- Every thread finds its places as the rest of its operation needs them. -/
structure Disciplined (m : Memory (Place H T) A C) (program : T → List (Instr (Place H T))) :
    Prop where
  follows : ∀ t, ∃ kinds, Checks kinds (program t) ∧ ∀ x ∈ touches (program t), kinds x = m.kinds x
  rests : ∀ x, (∀ t, x ∉ writes (program t)) → Place.Rests x (m.kinds x)
  apart : ∀ t t', t' ≠ t → Apart (program t) (program t')
  own : ∀ t t', .temporary t' ∈ touches (program t) → t' = t

variable {kinds : Place H T → Kind} {m m' : Memory (Place H T) A C} {i : Instr (Place H T)}
  {rest : List (Instr (Place H T))} {program : T → List (Instr (Place H T))} {x : Place H T} {t : T}

theorem Checks.rests (checks : Checks kinds rest) (outside : x ∉ writes rest) :
    x.Rests (kinds x) := by
  induction rest generalizing kinds with
  | nil => exact checks x
  | cons i rest ih =>
    rw [writes, List.flatMap_cons, List.mem_append, not_or] at outside
    have rests := ih checks.2 outside.2
    rwa [Instr.effect_of_not_mem outside.1] at rests

omit [DecidableEq H] in
/-- What is left of the programs uses nothing new. -/
theorem mem_of_pop {t' : T} {f : Instr (Place H T) → List (Place H T)}
    (stands : program t = i :: rest) (there : x ∈ (Function.update program t rest t').flatMap f) :
    x ∈ (program t').flatMap f := by
  by_cases is : t' = t
  · subst is
    rw [Function.update_self] at there
    rw [stands, List.flatMap_cons]
    exact List.mem_append_right _ there
  · rwa [Function.update_of_ne is] at there

namespace Disciplined

theorem create : Disciplined (SharedPtr.create : State T H A C).memory fun _ => [] where
  follows t := by
    refine ⟨fun | .handle _ => .held | .temporary _ => .absent, ?_, ?_⟩
    · intro x
      cases x with
      | handle h => simp [Place.Rests]
      | temporary t => rfl
    · intro x there
      cases there
  rests x _ := by
    cases x with
    | handle h => simp [Place.Rests, Memory.kinds, SharedPtr.create, Slot.kind]
    | temporary t => rfl
  apart t t' _ := by
    constructor
    · intro x there
      cases there
    · intro x there
      cases there
  own t t' there := by cases there

/-- A thread goes past the instruction it stands at. -/
theorem pop (disciplined : Disciplined m program) (stands : program t = i :: rest)
    (effect : m'.kinds = i.effect m.kinds) :
    Disciplined m' (Function.update program t rest) := by
  have written {x : Place H T} : x ∈ writes (program t) ↔ x ∈ i.writes ∨ x ∈ writes rest := by
    rw [stands, writes, List.flatMap_cons, List.mem_append, ← writes]
  have touched {x : Place H T} : x ∈ touches (program t) ↔ x ∈ i.touches ∨ x ∈ touches rest := by
    rw [stands, touches, List.flatMap_cons, List.mem_append, ← touches]
  obtain ⟨kinds, checks, same⟩ := disciplined.follows t
  rw [stands] at checks
  constructor
  · intro t'
    by_cases is : t' = t
    · subst is
      rw [Function.update_self]
      refine ⟨i.effect kinds, checks.2, fun x there => ?_⟩
      rw [effect]
      exact Instr.effect_congr (same x (touched.mpr (.inr there)))
    · obtain ⟨kinds', checks', same'⟩ := disciplined.follows t'
      rw [Function.update_of_ne is]
      refine ⟨kinds', checks', fun x there => ?_⟩
      -- the other thread does not use what is changed here
      have outside : x ∉ i.writes := fun changes =>
        (disciplined.apart t t' is).1 x (written.mpr (.inl changes)) there
      rw [effect, Instr.effect_of_not_mem outside]
      exact same' x there
  · intro x outside
    have behind := outside t
    rw [Function.update_self] at behind
    rw [effect]
    by_cases changes : x ∈ i.writes
    · rw [← Instr.effect_congr (same x (touched.mpr (.inl (Instr.mem_touches changes))))]
      exact checks.2.rests behind
    · rw [Instr.effect_of_not_mem changes]
      apply disciplined.rests x
      intro t' there
      by_cases is : t' = t
      · subst is
        exact (written.mp there).elim changes behind
      · exact outside t' (by rwa [Function.update_of_ne is])
  · intro t₁ t₂ other
    obtain ⟨first, second⟩ := disciplined.apart t₁ t₂ other
    constructor
    · exact fun x there used => first x (mem_of_pop stands there) (mem_of_pop stands used)
    · exact fun x there used => second x (mem_of_pop stands there) (mem_of_pop stands used)
  · exact fun t₁ t₂ there => disciplined.own t₁ t₂ (mem_of_pop stands there)

end Disciplined

/-! ### The operations -/

section Operations

variable {op : Op H} {h : H}

omit [DecidableEq T] [DecidableEq H] in
/-- An operation uses its local and the handles it creates or is called on. -/
theorem Op.touches_subset (op : Op H) (t : T) :
    touches (op.program t) ⊆ .temporary t :: (op.creates ++ op.uses).map .handle := by
  cases op with
  | construct h ptr | resetTo h ptr =>
    cases ptr <;> simp [program, touches, swapAndDrop, Pointer.instr, Instr.touches, Instr.writes,
      creates, uses]
  | _ => simp [program, touches, swapAndDrop, Instr.touches, Instr.writes, creates, uses]

/-- How an operation expects the handles. -/
def Op.expects (op : Op H) : Place H T → Kind
  | .handle h => if h ∈ op.creates then .absent else .held
  | .temporary _ => .absent

omit [DecidableEq T] in
theorem Op.rests_expects (op : Op H) (x : Place H T) : x.Rests (op.expects x) := by
  cases x with
  | handle h =>
    rw [expects, Place.Rests]
    split <;> simp
  | temporary t => rfl

theorem rests_update {kind : Kind} (rests : ∀ x, Place.Rests x (kinds x))
    (after : x.Rests kind) (y : Place H T) : y.Rests (Function.update kinds x kind y) := by
  by_cases is : y = x
  · subst is
    rwa [Function.update_self]
  · rw [Function.update_of_ne is]
    exact rests y

/-- From the moment the local of an operation is there. -/
theorem checks_swapAndDrop (rests : ∀ x, Place.Rests x (kinds x))
    (held : kinds (.handle h) = .held) :
    Checks (Function.update kinds (.temporary t) .held) (swapAndDrop t h) := by
  have handle : Function.update kinds (.temporary t) .held (.handle h) = .held := by
    rw [Function.update_of_ne (by simp), held]
  refine ⟨⟨handle, Function.update_self _ _ _⟩, Function.update_self _ _ _,
    Function.update_self _ _ _, ?_⟩
  simp only [Instr.effect, Function.update_idem]
  exact rests_update rests rfl

/-- A handle is released and then made a null pointer or destroyed. -/
theorem checks_release {kind : Kind} {last : Instr (Place H T)}
    (rests : ∀ x, Place.Rests x (kinds x)) (held : kinds (.handle h) = .held)
    (needs : last.Needs (Function.update kinds (.handle h) .released))
    (effect : last.effect (Function.update kinds (.handle h) .released) =
      Function.update (Function.update kinds (.handle h) .released) (.handle h) kind)
    (after : kind ≠ .released) : Checks kinds [.release (.handle h), last] := by
  refine ⟨held, needs, ?_⟩
  rw [Instr.effect, effect, Function.update_idem]
  exact rests_update rests after

/-- An operation that finds the handles as it expects them goes through. -/
theorem Op.checks (op : Op H) (t : T) (distinct : ∀ h ∈ op.creates, h ∉ op.uses) :
    Checks op.expects (op.program t) := by
  have rests := op.rests_expects (T := T)
  have fresh (h : H) (there : h ∈ op.creates) : op.expects (T := T) (.handle h) = .absent :=
    if_pos there
  have used (h : H) (there : h ∈ op.uses) : op.expects (T := T) (.handle h) = .held :=
    if_neg fun created => distinct h created there
  cases op with
  | construct h ptr =>
    have here := fresh h List.mem_cons_self
    cases ptr with
    | null => exact ⟨here, rests_update rests (by simp [Place.Rests])⟩
    | fresh => exact ⟨here, rests_update rests (by simp [Place.Rests])⟩
  | copy h other =>
    exact ⟨⟨fresh h List.mem_cons_self, used other List.mem_cons_self⟩,
      rests_update rests (by simp [Place.Rests])⟩
  | move h other =>
    exact ⟨⟨fresh h List.mem_cons_self, used other List.mem_cons_self⟩,
      rests_update rests (by simp [Place.Rests])⟩
  | copyAssign h other =>
    exact ⟨⟨rfl, used other (List.mem_cons_of_mem _ List.mem_cons_self)⟩,
      checks_swapAndDrop rests (used h List.mem_cons_self)⟩
  | moveAssign h other =>
    exact ⟨⟨rfl, used other (List.mem_cons_of_mem _ List.mem_cons_self)⟩,
      checks_swapAndDrop rests (used h List.mem_cons_self)⟩
  | swap h other =>
    exact ⟨⟨used h List.mem_cons_self, used other (List.mem_cons_of_mem _ List.mem_cons_self)⟩,
      rests⟩
  | reset h =>
    exact checks_release rests (used h List.mem_cons_self) (Function.update_self _ _ _) rfl
      (by simp)
  | resetTo h ptr =>
    have tail := checks_swapAndDrop (t := t) rests (used h List.mem_cons_self)
    cases ptr with
    | null => exact ⟨rfl, tail⟩
    | fresh => exact ⟨rfl, tail⟩
  | destroy h =>
    exact checks_release rests (used h List.mem_cons_self) (Function.update_self _ _ _) rfl
      (by simp)

/-- A thread enters an operation. -/
theorem Disciplined.call (disciplined : Disciplined m program) (idle : program t = [])
    (creates : ∀ h ∈ op.creates, m.slot (.handle h) = .absent)
    (uses : ∀ h ∈ op.uses, m.slot (.handle h) ≠ .absent)
    (unshared : ∀ t', t' ≠ t → ∀ h,
      (.handle h ∈ writes (op.program t) → .handle h ∉ touches (program t')) ∧
      (.handle h ∈ writes (program t') → .handle h ∉ touches (op.program t))) :
    Disciplined m (Function.update program t (op.program t)) := by
  have own {t' : T} (there : .temporary t' ∈ touches (op.program t)) : t' = t := by
    simpa using op.touches_subset t there
  have apart (t' : T) (other : t' ≠ t) : Apart (op.program t) (program t') := by
    constructor
    · intro x changes used
      cases x with
      | handle h => exact (unshared t' other h).1 changes used
      | temporary t₂ =>
        exact other ((disciplined.own t' t₂ used).symm.trans (own (mem_touches_of_writes changes)))
    · intro x changes used
      cases x with
      | handle h => exact (unshared t' other h).2 changes used
      | temporary t₂ =>
        exact other ((disciplined.own t' t₂ (mem_touches_of_writes changes)).symm.trans (own used))
  have quiet {x : Place H T} : x ∉ writes (program t) := by
    rw [idle]
    exact List.not_mem_nil
  -- nobody is in the middle of changing what the operation uses
  have rests {x : Place H T} (there : x ∈ touches (op.program t)) : x.Rests (m.kinds x) := by
    apply disciplined.rests x
    intro t' changes
    by_cases is : t' = t
    · exact quiet (is ▸ changes)
    · exact (apart t' is).2 x changes there
  constructor
  · intro t'
    by_cases is : t' = t
    · subst is
      rw [Function.update_self]
      refine ⟨op.expects, op.checks t' fun h created used => uses h used (creates h created), ?_⟩
      intro x there
      have resting := rests there
      cases x with
      | temporary t₂ => exact resting.symm
      | handle h =>
        rw [Op.expects]
        split
        case isTrue created => rw [Memory.kinds, creates h created, Slot.kind]
        case isFalse old =>
          have used : h ∈ op.uses := by
            have named := op.touches_subset t' there
            simpa [old] using named
          cases kind : m.kinds (.handle h) with
          | absent => exact absurd (slot_of_absent kind) (uses h used)
          | held => rfl
          | released => exact absurd kind resting
    · rw [Function.update_of_ne is]
      exact disciplined.follows t'
  · intro x outside
    apply disciplined.rests x
    intro t' changes
    by_cases is : t' = t
    · exact quiet (is ▸ changes)
    · exact outside t' (by rwa [Function.update_of_ne is])
  · intro t₁ t₂ other
    by_cases is₁ : t₁ = t
    · subst is₁
      rw [Function.update_self, Function.update_of_ne other]
      exact apart t₂ other
    · rw [Function.update_of_ne is₁]
      by_cases is₂ : t₂ = t
      · subst is₂
        rw [Function.update_self]
        exact (apart t₁ is₁).symm
      · rw [Function.update_of_ne is₂]
        exact disciplined.apart t₁ t₂ other
  · intro t₁ t₂ there
    by_cases is : t₁ = t
    · subst is
      rw [Function.update_self] at there
      exact own there
    · rw [Function.update_of_ne is] at there
      exact disciplined.own t₁ t₂ there

end Operations

section Steps

variable [DecidableEq A] [DecidableEq C] {s s' : State T H A C} {es es' : List (Event A C)}

theorem Disciplined.next {action : Action T H A C} (disciplined : Disciplined s.memory s.program)
    (contract : Contract es s action) (takes : Takes s action s' es') :
    Disciplined s'.memory s'.program := by
  cases takes with
  | call t op idle rests => exact disciplined.call rests contract.1 contract.2.1 contract.2.2
  | construct t x rest a c idle stands here object control =>
    exact disciplined.pop stands (kinds_update s.memory x _)
  | instr t i rest memory doomed idle stands takes =>
    exact disciplined.pop stands (exec_kinds takes)
  | deleteObject t a c stands alive =>
    exact ⟨disciplined.follows, disciplined.rests, disciplined.apart, disciplined.own⟩
  | deleteControl t c n stands live =>
    exact ⟨disciplined.follows, disciplined.rests, disciplined.apart, disciplined.own⟩

/-- A thread inside an operation can go on: it never stands at a deleted object or block. -/
theorem goes_on (kept : Kept s es) (disciplined : Disciplined s.memory s.program)
    (busy : s.program t ≠ [] ∨ s.doomed t ≠ .nothing) :
    (∃ s' es', step s (.run t) = some (s', es')) ∨
      ∀ a c, s.memory.object a = .unborn → s.memory.control c = .unborn →
        ∃ s' es', step s (.allocate t a c) = some (s', es') := by
  obtain ⟨madeFor, counted, -⟩ := kept
  cases doomed : s.doomed t with
  | both a c =>
    obtain ⟨-, alive⟩ := counted.both t a c doomed
    simp [step, doomed, alive]
  | block c =>
    have zero := counted.zero_of_block doomed
    simp [step, doomed, zero]
  | nothing =>
    cases stands : s.program t with
    | nil => exact absurd (busy.resolve_right (not_not.mpr doomed)) (not_not.mpr stands)
    | cons i rest =>
      obtain ⟨kinds, checks, same⟩ := disciplined.follows t
      rw [stands] at checks same
      have needs : i.Needs s.memory.kinds := Instr.needs_congr
        (fun x there => same x (List.mem_append_left _ there)) checks.1
      by_cases constructs : ∃ x, i = .construct x
      · obtain ⟨x, rfl⟩ := constructs
        right
        intro a c object control
        have absent := slot_of_absent needs
        simp [step, doomed, stands, Memory.construct, absent, object, control]
      · left
        obtain ⟨⟨memory, d⟩, execs⟩ := Option.isSome_iff_exists.mp
          (counted.exec_isSome needs (not_exists.mp constructs))
        simp [step, doomed, stands, execs]

/-- Every strong count is the number of places that refer to the block. What is referred to is
not deleted; what was constructed is referred to, or has the thread that will delete it, or
is deleted, the object and the block once each. A handle has stale fields only inside the
operation that lets it go, and no operation is ever stopped. -/
theorem sharedPtr_counts_references
    (run : Trace.Run step Contract (create : State T H A C) es s) :
    (∀ c, Census.Counts s.memory.slot (Slot.refersTo c) (s.memory.control c).strong) ∧
    (∀ x a c, s.memory.slot x = .held (some (a, c)) →
      s.memory.object a = .alive ∧ (∃ n, s.memory.control c = .live (n + 1)) ∧
      a ∉ deletedObjects es ∧ c ∉ deletedControls es ∧ ∀ t, (s.doomed t).dooms c = false) ∧
    ((deletedObjects es).Nodup ∧ (deletedControls es).Nodup) ∧
    (∀ a c, (a, c) ∈ constructedIn es →
      (∃ x, s.memory.slot x = .held (some (a, c))) ∨
      (∃ t, s.doomed t = .both a c ∨ s.doomed t = .block c) ∨
      a ∈ deletedObjects es ∧ c ∈ deletedControls es) ∧
    (∀ h fields, s.memory.slot (.handle h) = .released fields →
      ∃ t, .handle h ∈ writes (s.program t)) ∧
    ∀ t, s.program t ≠ [] ∨ s.doomed t ≠ .nothing →
      (∃ s' es', step s (.run t) = some (s', es')) ∨
      ∀ a c, s.memory.object a = .unborn → s.memory.control c = .unborn →
        ∃ s' es', step s (.allocate t a c) = some (s', es') := by
  have both : Kept s es ∧ Disciplined s.memory s.program := by
    apply run.invariant fun es s => Kept s es ∧ Disciplined s.memory s.program
    · exact ⟨⟨_, .create, .create⟩, .create⟩
    · intro es es' s s' action ⟨kept, disciplined⟩ contract steps
      exact ⟨kept.next (step_takes steps), disciplined.next contract (step_takes steps)⟩
  obtain ⟨kept, disciplined⟩ := both
  obtain ⟨madeFor, counted, recorded⟩ := kept
  refine ⟨counted.counts, ?_, ⟨recorded.objects.nodup, recorded.controls.nodup⟩, ?_, ?_, ?_⟩
  · intro x a c held
    obtain ⟨n, live⟩ := counted.live_of_held held
    obtain ⟨a', made, alive⟩ := counted.alive c n live
    cases (counted.held x a c held).symm.trans made
    refine ⟨alive, ⟨n, live⟩, ?_, ?_, ?_⟩
    · intro deleted
      cases alive.symm.trans ((recorded.objects.mem_iff a).mp deleted)
    · intro deleted
      cases live.symm.trans ((recorded.controls.mem_iff c).mp deleted)
    · intro t
      by_contra dooms
      rw [Bool.not_eq_false] at dooms
      cases live.symm.trans (counted.zero_of_dooms dooms)
  · intro a c constructed
    rw [recorded.objects.mem_iff, recorded.controls.mem_iff]
    exact counted.fate (recorded.constructed a c constructed)
  · intro h fields released
    by_contra nobody
    have rests := disciplined.rests (.handle h) (not_exists.mp nobody)
    rw [Memory.kinds, released] at rests
    exact rests rfl
  · exact fun t busy => goes_on ⟨madeFor, counted, recorded⟩ disciplined busy

end Steps

/-- One thread destroys the handle that another one has copied. That one is in a self-move
assignment, and the only reference left is in its local. -/
theorem sharedPtr_counts_references_stolen :
    ∃ (es : List (Event Nat Nat)) (s : State Bool Bool Nat Nat),
      Trace.Run step Contract create es s ∧ constructedIn es = [(5, 6)] ∧
      s.memory.slot (.handle true) = .released (some (5, 6)) ∧
      s.memory.slot (.handle false) = .held none ∧
      s.memory.slot (.temporary false) = .held (some (5, 6)) ∧
      Census.Counts s.memory.slot (Slot.refersTo 6) 1 ∧ s.memory.object 5 = .alive := by
  have constructed : Trace.Run step Contract (create : State Bool Bool Nat Nat) _ _ :=
    (Trace.Run.start.next (a := .call true (.construct true .fresh)) (by decide) rfl).next
      (a := .allocate true 5 6) trivial rfl
  have copied : Trace.Run step Contract (create : State Bool Bool Nat Nat) _ _ :=
    (constructed.next (a := .call false (.copy false true)) (by decide) rfl).next
      (a := .run false) trivial rfl
  have stolen : Trace.Run step Contract (create : State Bool Bool Nat Nat) _ _ :=
    (copied.next (a := .call false (.moveAssign false false)) (by decide) rfl).next
      (a := .run false) trivial rfl
  have run : Trace.Run step Contract (create : State Bool Bool Nat Nat) _ _ :=
    (stolen.next (a := .call true (.destroy true)) (by decide) rfl).next
      (a := .run true) trivial rfl
  obtain ⟨counts, held, -⟩ := sharedPtr_counts_references run
  exact ⟨_, _, run, rfl, rfl, rfl, rfl, counts 6, (held (.temporary false) 5 6 rfl).1⟩

end CppDB.SharedPtr
