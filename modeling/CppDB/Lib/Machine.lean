import Mathlib

/-! Deterministic machines that answer operations, and refinement between two of
them over whole runs. The concrete machine may get stuck (`none`); the abstract
one is total. -/
namespace Machine

variable {S M O R Q : Type}

/-- Run a list of operations, collecting the answers; stuck as soon as one step is. -/
def run (step : S → O → Option (S × R)) : S → List O → Option (S × List R)
  | s, [] => some (s, [])
  | s, o :: os => do
    let (s, r) ← step s o
    let (s, rs) ← run step s os
    return (s, r :: rs)

/-- The same for a machine that always answers. -/
def runTotal (step : M → O → M × Q) : M → List O → M × List Q
  | m, [] => (m, [])
  | m, o :: os =>
    let (m, q) := step m o
    let (m, qs) := runTotal step m os
    (m, q :: qs)

theorem runTotal_cons (step : M → O → M × Q) (m : M) (o : O) (os : List O) :
    runTotal step m (o :: os) = ((runTotal step (step m o).1 os).1,
      (step m o).2 :: (runTotal step (step m o).1 os).2) := rfl

/-- A run goes on where another one has ended. -/
theorem runTotal_append {step : M → O → M × Q} {m m' m'' : M} {os os' : List O} {qs qs' : List Q}
    (first : runTotal step m os = (m', qs)) (second : runTotal step m' os' = (m'', qs')) :
    runTotal step m (os ++ os') = (m'', qs ++ qs') := by
  induction os generalizing m qs with
  | nil =>
    cases first
    exact second
  | cons o os ih =>
    rw [runTotal_cons] at first
    cases first
    rw [List.cons_append, runTotal_cons, ih rfl]
    rfl

theorem run_cons_eq {step : S → O → Option (S × R)} {s s' : S} {o : O} {os : List O} {rs : List R} :
    run step s (o :: os) = some (s', rs) ↔
      ∃ t r rs', step s o = some (t, r) ∧ run step t os = some (s', rs') ∧ rs = r :: rs' := by
  cases first : step s o with
  | none => simp [run, first]
  | some answer =>
    obtain ⟨t, r⟩ := answer
    cases others : run step t os with
    | none => simp [run, first, others]
    | some answers => simp [run, first, others, Prod.ext_iff, eq_comm]

/-- Operations that stand for others. -/
theorem run_map {O' : Type} (step : S → O → Option (S × R)) (f : O' → O) (s : S) (os : List O') :
    run (fun s o => step s (f o)) s os = run step s (os.map f) := by
  induction os generalizing s with
  | nil => rfl
  | cons o os ih => simp only [List.map_cons, run, ih]

/-- A run of two lists is a run of the first and one of the second behind it. -/
theorem run_append_eq {step : S → O → Option (S × R)} {s s' : S} {os os' : List O} {rs : List R} :
    run step s (os ++ os') = some (s', rs) ↔
      ∃ t rs₁ rs₂, run step s os = some (t, rs₁) ∧ run step t os' = some (s', rs₂) ∧
        rs = rs₁ ++ rs₂ := by
  induction os generalizing s rs with
  | nil =>
    constructor
    · intro runs
      exact ⟨s, [], rs, rfl, runs, rfl⟩
    · rintro ⟨t, _, rs₂, ⟨⟩, runs, rfl⟩
      exact runs
  | cons o os ih =>
    rw [List.cons_append, run_cons_eq]
    constructor
    · rintro ⟨t, r, rs', steps, runs, rfl⟩
      obtain ⟨t', rs₁, rs₂, runs₁, runs₂, rfl⟩ := ih.mp runs
      exact ⟨t', r :: rs₁, rs₂, run_cons_eq.mpr ⟨t, r, rs₁, steps, runs₁, rfl⟩, runs₂, rfl⟩
    · rintro ⟨t', rs₁, rs₂, runs₁, runs₂, rfl⟩
      obtain ⟨t, r, rs', steps, runs, rfl⟩ := run_cons_eq.mp runs₁
      exact ⟨t, r, rs' ++ rs₂, steps, ih.mpr ⟨t', rs', rs₂, runs, runs₂, rfl⟩, rfl⟩

theorem run_length {step : S → O → Option (S × R)} {s s' : S} {os : List O} {rs : List R}
    (runs : run step s os = some (s', rs)) : rs.length = os.length := by
  induction os generalizing s rs with
  | nil =>
    cases runs
    rfl
  | cons o os ih =>
    obtain ⟨t, r, rs', -, rest, rfl⟩ := run_cons_eq.mp runs
    rw [List.length_cons, List.length_cons, ih rest]

/-- A step-wise simulation: related states answer in agreement and stay related. -/
def Simulates (step : S → O → Option (S × R)) (spec : M → O → M × Q) (related : S → M → Prop)
    (agree : R → Q → Prop) : Prop :=
  ∀ s m o, related s m →
    ∃ s' r, step s o = some (s', r) ∧ related s' (spec m o).1 ∧ agree r (spec m o).2

/-- A simulated machine never gets stuck, and its answers agree all along the run. -/
theorem Simulates.run {step : S → O → Option (S × R)} {spec : M → O → M × Q}
    {related : S → M → Prop} {agree : R → Q → Prop}
    (simulates : Simulates step spec related agree) (os : List O) {s : S} {m : M}
    (start : related s m) :
    ∃ s' rs, run step s os = some (s', rs) ∧ related s' (runTotal spec m os).1 ∧
      List.Forall₂ agree rs (runTotal spec m os).2 := by
  induction os generalizing s m with
  | nil => exact ⟨s, [], rfl, start, .nil⟩
  | cons o os ih =>
    obtain ⟨s', r, steps, related', agrees⟩ := simulates s m o start
    obtain ⟨s'', rs, runs, related'', agree'⟩ := ih related'
    refine ⟨s'', r :: rs, ?_, related'', .cons agrees agree'⟩
    simp only [Machine.run, steps, runs, Option.bind_eq_bind, Option.bind_some]
    rfl

/-- The case in which answers are compared by equality. -/
theorem Simulates.run_eq {step : S → O → Option (S × R)} {spec : M → O → M × R}
    {related : S → M → Prop} (simulates : Simulates step spec related Eq) (os : List O) {s : S}
    {m : M} (start : related s m) :
    ∃ s', Machine.run step s os = some (s', (runTotal spec m os).2) ∧
      related s' (runTotal spec m os).1 := by
  obtain ⟨s', rs, runs, related', agree⟩ := simulates.run os start
  rw [List.forall₂_eq_eq_eq] at agree
  exact ⟨s', agree ▸ runs, related'⟩

/-- An invariant under which good operations are answered well, and which they keep, holds
after every run of good operations, and all of them are answered well. -/
theorem run_answers {step : S → O → Option (S × R)} {inv : S → Prop} {good : O → Prop}
    {agree : O → R → Prop}
    (keeps : ∀ s o, inv s → good o → ∃ s' r, step s o = some (s', r) ∧ inv s' ∧ agree o r)
    {os : List O} (all : ∀ o ∈ os, good o) {s : S} (start : inv s) :
    ∃ s' rs, run step s os = some (s', rs) ∧ inv s' ∧ List.Forall₂ agree os rs := by
  induction os generalizing s with
  | nil => exact ⟨s, [], rfl, start, .nil⟩
  | cons o os ih =>
    obtain ⟨here, others⟩ := List.forall_mem_cons.mp all
    obtain ⟨s', r, steps, kept, agrees⟩ := keeps s o start here
    obtain ⟨s'', rs, runs, kept', agree'⟩ := ih others kept
    exact ⟨s'', r :: rs, run_cons_eq.mpr ⟨s', r, rs, steps, runs, rfl⟩, kept', .cons agrees agree'⟩

/-- An invariant kept by every step of a machine that never gets stuck from it holds
after every run. -/
theorem run_invariant {step : S → O → Option (S × R)} {inv : S → Prop}
    (keeps : ∀ s o, inv s → ∃ s' r, step s o = some (s', r) ∧ inv s') (os : List O) {s : S}
    (start : inv s) : ∃ s' rs, run step s os = some (s', rs) ∧ inv s' := by
  have answers : ∀ s o, inv s → True → ∃ s' r, step s o = some (s', r) ∧ inv s' ∧ True := by
    intro s o held _
    obtain ⟨s', r, steps, kept⟩ := keeps s o held
    exact ⟨s', r, steps, kept, trivial⟩
  obtain ⟨s', rs, runs, kept, -⟩ := run_answers answers (fun o (_ : o ∈ os) => trivial) start
  exact ⟨s', rs, runs, kept⟩

/-- Two machines that take the same operations. A relation between their states that every
operation keeps, and under which they answer in agreement, holds along every run. -/
theorem run_lockstep {step : S → O → Option (S × R)} {step' : M → O → Option (M × Q)}
    {related : S → M → Prop} {agree : R → Q → Prop}
    (keeps : ∀ s m o, related s m → ∃ s' r m' q, step s o = some (s', r) ∧
      step' m o = some (m', q) ∧ related s' m' ∧ agree r q)
    (os : List O) {s : S} {m : M} (start : related s m) :
    ∃ s' rs m' qs, run step s os = some (s', rs) ∧ run step' m os = some (m', qs) ∧
      related s' m' ∧ List.Forall₂ agree rs qs := by
  induction os generalizing s m with
  | nil => exact ⟨s, [], m, [], rfl, rfl, start, .nil⟩
  | cons o os ih =>
    obtain ⟨s', r, m', q, steps, steps', related', agrees⟩ := keeps s m o start
    obtain ⟨s'', rs, m'', qs, runs, runs', related'', agree'⟩ := ih related'
    exact ⟨s'', r :: rs, m'', q :: qs, run_cons_eq.mpr ⟨s', r, rs, steps, runs, rfl⟩,
      run_cons_eq.mpr ⟨m', q, qs, steps', runs', rfl⟩, related'', .cons agrees agree'⟩

/-- Leave out operations that do not matter to an observer. If two related states stay
related when only the first takes an operation that is left out, and stay related with the same
answer when both take one that is kept, then the kept ones are answered as if they were alone. -/
theorem runTotal_filter (step : M → O → M × Q) (related : M → M → Prop) (kept : O → Bool)
    (skips : ∀ m m' o, related m m' → kept o = false → related (step m o).1 m')
    (keeps : ∀ m m' o, related m m' → kept o = true →
      related (step m o).1 (step m' o).1 ∧ (step m o).2 = (step m' o).2)
    (os : List O) {m m' : M} (start : related m m') :
    related (runTotal step m os).1 (runTotal step m' (os.filter kept)).1 ∧
      ((os.zip (runTotal step m os).2).filter fun p => kept p.1).map Prod.snd =
        (runTotal step m' (os.filter kept)).2 := by
  induction os generalizing m m' with
  | nil => exact ⟨start, rfl⟩
  | cons o os ih =>
    cases is : kept o with
    | false =>
      obtain ⟨ends, answers⟩ := ih (skips m m' o start is)
      rw [List.filter_cons_of_neg (by simp [is])]
      refine ⟨ends, ?_⟩
      rw [← answers, runTotal_cons, List.zip_cons_cons, List.filter_cons_of_neg (by simp [is])]
    | true =>
      obtain ⟨next, same⟩ := keeps m m' o start is
      obtain ⟨ends, answers⟩ := ih next
      rw [List.filter_cons_of_pos is]
      refine ⟨ends, ?_⟩
      rw [runTotal_cons, runTotal_cons, ← answers, ← same, List.zip_cons_cons,
        List.filter_cons_of_pos (by simp [is]), List.map_cons]

/-- Operations that lead to the same state and are answered in agreement may replace each other
in a run. -/
theorem runTotal_forall₂ {step : M → O → M × Q} {alike : O → O → Prop} {agree : Q → Q → Prop}
    (same : ∀ m o o', alike o o' →
      (step m o).1 = (step m o').1 ∧ agree (step m o).2 (step m o').2)
    {os os' : List O} (all : List.Forall₂ alike os os') (m : M) :
    (runTotal step m os).1 = (runTotal step m os').1 ∧
      List.Forall₂ agree (runTotal step m os).2 (runTotal step m os').2 := by
  induction all generalizing m with
  | nil => exact ⟨rfl, .nil⟩
  | cons first _ ih =>
    obtain ⟨leaves, answers⟩ := same m _ _ first
    simp only [runTotal_cons, leaves]
    exact ⟨(ih _).1, .cons answers (ih _).2⟩

/-- A machine that only takes operations, and does not answer, reaches what it folds to. -/
theorem reaches_of_foldlM {step : S → O → Option S} {s s' : S} {os : List O}
    (runs : os.foldlM step s = some s') :
    Relation.ReflTransGen (fun a b => ∃ o, step a o = some b) s s' := by
  induction os generalizing s with
  | nil =>
    cases runs
    exact .refl
  | cons o os ih =>
    rw [List.foldlM_cons, Option.bind_eq_bind, Option.bind_eq_some_iff] at runs
    obtain ⟨mid, steps, runs⟩ := runs
    exact .head ⟨o, steps⟩ (ih runs)

/-- A run without end in which every step lowers a well-founded rank, or is idle and changes
nothing, is idle from some point on. -/
theorem eventually_idle {W : Type} [Preorder W] [WellFoundedLT W] (rank : S → W)
    {states : Nat → S} {idle : Nat → Prop}
    (step : ∀ n, rank (states (n + 1)) < rank (states n) ∨
      idle n ∧ states (n + 1) = states n) :
    ∃ n, ∀ m, n ≤ m → idle m ∧ states m = states n := by
  -- from a state of the least rank on
  obtain ⟨_, ⟨n, rfl⟩, least⟩ := wellFounded_lt.has_min (Set.range fun n => rank (states n))
    ⟨rank (states 0), 0, rfl⟩
  have idles (m : Nat) (same : states m = states n) :
      idle m ∧ states (m + 1) = states m := by
    refine (step m).resolve_left fun lower => ?_
    rw [same] at lower
    exact least _ ⟨m + 1, rfl⟩ lower
  have stays (m : Nat) (late : n ≤ m) : states m = states n := by
    induction m, late using Nat.le_induction with
    | base => rfl
    | succ m late ih => exact (idles m ih).2.trans ih
  exact ⟨n, fun m late => ⟨(idles m (stays m late)).1, stays m late⟩⟩

end Machine
