import CppDB.Lib.Linearize

/-! Clients that issue one statement after the other. The order that explains a run of all
clients together shows each of them its own statements in the order it issued them. -/
namespace Registry

variable {Client C T N O R : Type}

/-- A list that never contradicts the order of another with the same elements is that
other. -/
theorem eq_of_not_contradicting {α : Type} {R : α → α → Prop} {l l' : List α} (nodup : l.Nodup)
    (nodup' : l'.Nodup) (same : ∀ a, a ∈ l ↔ a ∈ l') (keeps : l.Pairwise fun a b => ¬ R b a)
    (ordered : l'.Pairwise R) : l = l' := by
  have symm : Std.Symm fun a b => ¬ (R a b ∧ R b a) := ⟨fun _ _ apart both => apart both.symm⟩
  have symm' : Std.Symm fun a b => R a b ∨ R b a := ⟨fun _ _ => Or.symm⟩
  have asymmetric : l.Pairwise fun a b => ¬ (R a b ∧ R b a) :=
    keeps.imp fun apart both => apart both.2
  have decided : l'.Pairwise fun a b => R a b ∨ R b a := ordered.imp Or.inl
  refine ((List.perm_ext_iff_of_nodup nodup nodup').mpr same).eq_of_pairwise ?_ keeps ?_
  · intro a b inside inside' notAfter notBefore
    by_contra differ
    obtain before | after := decided.forall ((same a).mp inside) inside' differ
    · exact notBefore before
    · exact notAfter after
  · refine (ordered.and nodup').imp_of_mem fun {a b} inside inside' both after => ?_
    exact asymmetric.forall ((same a).mpr inside) ((same b).mpr inside') both.2 ⟨both.1, after⟩

/-- How many sections and returns a statement is from its end. -/
def Phase.left : Phase O R → Nat
  | .idle => 3
  | .issued _ _ => 2
  | .holding _ _ _ => 1
  | .answered _ _ => 0

theorem Before.append {history : List (Event O R)} {b a : Nat} (before : Before history b a)
    (event : Event O R) : Before (history ++ [event]) b a := by
  obtain ⟨early, late, r, o, rfl, replied, issued⟩ := before
  exact ⟨early, late ++ [event], r, o, List.append_assoc .., replied,
    List.mem_append_left _ issued⟩

/-- The object a statement holds is there, whether a name leads to it or not. -/
theorem Fits.inside {sys : System C T N O R} {start store : Store C T}
    {history : List (Event O R)} {order : List (Entry O R)} {id h : Nat} {name : N} {rs : List R}
    (fits : Fits sys start history order id name h) (named : WellNamed sys.lookup start)
    (replays : Machine.run sys.step start (order.map Entry.op) = some (store, rs)) :
    h < store.heap.length := by
  obtain ⟨front, back, s, rs₁, rfl, runs, found, -, -⟩ := fits
  rw [List.map_append] at replays
  obtain ⟨s', _, rs₂, runs', rest, -⟩ := Machine.run_append_eq.mp replays
  cases runs.symm.trans runs'
  obtain ⟨named', -⟩ := System.run_extends named runs
  obtain ⟨-, extends_⟩ := System.run_extends named' rest
  exact (named'.bound name h found).trans_le extends_.grows

section Runs

variable [DecidableEq Client] (sys : System C T N O R) (owner : O → Client) (start : Store C T)

/-- The runs in which each client issues statements of its own, with those that were replied
to it so far. -/
inductive Sessions : Config Client C T O R → (Client → List (Entry O R)) → Prop where
  | start : Sessions (Config.initial start) fun _ => []
  | issue {cfg done} (before : Sessions cfg done) (o : O) (free : cfg.phase (owner o) = .idle) :
      Sessions { cfg.enter (owner o) (.issued cfg.history.length o) with
        history := cfg.history ++ [.issue cfg.history.length o] } done
  | work {cfg cfg' done} (before : Sessions cfg done) (steps : Step sys cfg cfg')
      (silent : cfg'.history = cfg.history) : Sessions cfg' done
  | reply {cfg done} {c : Client} {id o r} (before : Sessions cfg done)
      (is : cfg.phase c = .answered id r) (issued : .issue id o ∈ cfg.history) :
      Sessions { cfg.enter c .idle with history := cfg.history ++ [.reply id r] }
        (Function.update done c (done c ++ [⟨id, o, r⟩]))

variable {sys owner start}
variable {cfg cfg' : Config Client C T O R} {done : Client → List (Entry O R)} {c : Client}

theorem Sessions.reaches (sessions : Sessions sys owner start cfg done) :
    Relation.ReflTransGen (Step sys) (Config.initial start) cfg := by
  induction sessions with
  | start => exact .refl
  | issue _ o free ih => exact ih.tail (.issue (owner o) o free)
  | work _ steps _ ih => exact ih.tail steps
  | reply _ is _ ih => exact ih.tail (.reply is)

/-- A section neither ends the statement of a client nor changes it. -/
theorem current_of_silent (steps : Step sys cfg cfg') (silent : cfg'.history = cfg.history)
    (c : Client) : (cfg'.phase c).current = (cfg.phase c).current := by
  cases steps with
  | issue | reply => simp at silent
  | @catalog c' id o change is | @miss c' id o name missing act is
  | @find c' id o name missing act h is | @act c' id o name missing act h t is =>
    exact cfg.enter_alike _ Phase.current (by rw [is]; rfl) c

variable (owner) in
/-- The statements `done` are those of one client that have replied, each issued after the
reply to the one before, and what it has issued besides is under way. -/
structure Session (cfg : Config Client C T O R) (c : Client) (done : List (Entry O R)) : Prop where
  replied : ∀ e ∈ done,
    .issue e.id e.op ∈ cfg.history ∧ .reply e.id e.reply ∈ cfg.history ∧ owner e.op = c
  distinct : (done.map Entry.id).Nodup
  inTurn : done.Pairwise fun a b => Before cfg.history a.id b.id
  mine : ∀ id o, .issue id o ∈ cfg.history → owner o = c →
    (∃ e ∈ done, e.id = id) ∨ (cfg.phase c).current = some id
  last : ∀ id, (cfg.phase c).current = some id →
    (∃ o, .issue id o ∈ cfg.history ∧ owner o = c) ∧ ∀ e ∈ done, Before cfg.history e.id id

namespace Session

variable {mine : List (Entry O R)}

omit [DecidableEq Client] in
/-- What other clients do. -/
theorem frame (session : Session owner cfg c mine) (event : Event O R)
    (foreign : ∀ id o, event = .issue id o → owner o ≠ c)
    (phase : cfg'.phase c = cfg.phase c) (history : cfg'.history = cfg.history ++ [event]) :
    Session owner cfg' c mine where
  replied e there := by
    obtain ⟨issued, replied, owned⟩ := session.replied e there
    rw [history]
    exact ⟨List.mem_append_left _ issued, List.mem_append_left _ replied, owned⟩
  distinct := session.distinct
  inTurn := by
    rw [history]
    exact session.inTurn.imp fun before => before.append event
  mine id o issued owned := by
    rw [history, List.mem_append, List.mem_singleton] at issued
    rw [phase]
    obtain issued | new := issued
    · exact session.mine id o issued owned
    · exact absurd owned (foreign id o new.symm)
  last id is := by
    rw [phase] at is
    obtain ⟨⟨o, issued, owned⟩, after⟩ := session.last id is
    rw [history]
    exact ⟨⟨o, List.mem_append_left _ issued, owned⟩, fun e there => (after e there).append event⟩

omit [DecidableEq Client] in
theorem work (session : Session owner cfg c mine)
    (current : (cfg'.phase c).current = (cfg.phase c).current)
    (history : cfg'.history = cfg.history) : Session owner cfg' c mine where
  replied := by rw [history]; exact session.replied
  distinct := session.distinct
  inTurn := by rw [history]; exact session.inTurn
  mine := by rw [history, current]; exact session.mine
  last := by rw [history, current]; exact session.last

theorem issue {o : O} (session : Session owner cfg c mine) (free : cfg.phase c = .idle)
    (owned : owner o = c) :
    Session owner { cfg.enter c (.issued cfg.history.length o) with
      history := cfg.history ++ [.issue cfg.history.length o] } c mine where
  replied e there := by
    obtain ⟨issued, replied, owned⟩ := session.replied e there
    exact ⟨List.mem_append_left _ issued, List.mem_append_left _ replied, owned⟩
  distinct := session.distinct
  inTurn := session.inTurn.imp fun before => before.append _
  mine id o' issued owned' := by
    rw [cfg.enter_self]
    obtain issued | new := List.mem_append.mp issued
    · obtain listed | current := session.mine id o' issued owned'
      · exact .inl listed
      · rw [free] at current
        cases current
    · cases List.mem_singleton.mp new
      exact .inr rfl
  last id is := by
    rw [cfg.enter_self] at is
    cases is
    refine ⟨⟨o, List.mem_append_right _ (List.mem_singleton.mpr rfl), owned⟩, fun e there => ?_⟩
    -- all that was replied before is before what is issued now
    exact ⟨cfg.history, _, e.reply, o, rfl, (session.replied e there).2.1,
      List.mem_singleton.mpr rfl⟩

theorem reply {id : Nat} {o : O} {r : R} (session : Session owner cfg c mine)
    (is : cfg.phase c = .answered id r) (issued : .issue id o ∈ cfg.history)
    (unique : ∀ o', .issue id o' ∈ cfg.history → o' = o)
    (silent : ∀ r', .reply id r' ∉ cfg.history) :
    Session owner { cfg.enter c .idle with history := cfg.history ++ [.reply id r] } c
      (mine ++ [⟨id, o, r⟩]) := by
  obtain ⟨⟨o', issued', owned⟩, after⟩ := session.last id (by rw [is]; rfl)
  obtain rfl := unique o' issued'
  constructor
  case replied =>
    intro e there
    obtain there | new := List.mem_append.mp there
    · obtain ⟨issued, replied, owned⟩ := session.replied e there
      exact ⟨List.mem_append_left _ issued, List.mem_append_left _ replied, owned⟩
    · cases List.mem_singleton.mp new
      exact ⟨List.mem_append_left _ issued, List.mem_append_right _ (List.mem_singleton.mpr rfl),
        owned⟩
  case distinct =>
    rw [List.map_append, List.map_singleton, List.nodup_append_comm, List.singleton_append,
      List.nodup_cons]
    refine ⟨fun there => ?_, session.distinct⟩
    obtain ⟨e, listed, same⟩ := List.mem_map.mp there
    have replied := (session.replied e listed).2.1
    rw [same] at replied
    exact silent e.reply replied
  case inTurn =>
    refine List.pairwise_append.mpr
      ⟨session.inTurn.imp fun before => before.append _, List.pairwise_singleton _ _, ?_⟩
    intro e there e' last
    cases List.mem_singleton.mp last
    exact (after e there).append _
  case mine =>
    intro id' o'' there owned'
    obtain there | new := List.mem_append.mp there
    · refine .inl ?_
      obtain ⟨e, listed, same⟩ | current := session.mine id' o'' there owned'
      · exact ⟨e, List.mem_append_left _ listed, same⟩
      · rw [is] at current
        cases current
        exact ⟨_, List.mem_append_right _ (List.mem_singleton.mpr rfl), rfl⟩
    · cases List.mem_singleton.mp new
  case last =>
    intro id' current
    rw [cfg.enter_self] at current
    cases current

end Session

theorem Sessions.session (named : WellNamed sys.lookup start)
    (sessions : Sessions sys owner start cfg done) (c : Client) :
    Session owner cfg c (done c) := by
  induction sessions with
  | start =>
    exact {
      replied := fun _ none => nomatch none
      distinct := .nil
      inTurn := .nil
      mine := fun _ _ none => nomatch none
      last := fun _ none => nomatch none }
  | @issue cfg done before o free ih =>
    by_cases is : c = owner o
    · subst is
      exact ih.issue free rfl
    · refine ih.frame _ ?_ (cfg.enter_of_ne is _) rfl
      rintro id o' ⟨⟩ rfl
      exact is rfl
  | work before steps silent ih => exact ih.work (current_of_silent steps silent c) silent
  | @reply cfg done c' id o r before is issued ih =>
    obtain ⟨order, lin⟩ := Linearizes.run named before.reaches
    by_cases same : c = c'
    · subst same
      rw [Function.update_self]
      exact ih.reply is issued (fun o' issued' => lin.unique id o' o issued' issued)
        (lin.answered c id r is).2
    · rw [Function.update_of_ne same]
      refine ih.frame _ ?_ (cfg.enter_of_ne same _) rfl
      rintro _ _ ⟨⟩

omit [DecidableEq Client] in
/-- A statement is in the order once. -/
theorem Linearizes.eq_of_id {order : List (Entry O R)} (lin : Linearizes sys start cfg order)
    {e e' : Entry O R} (there : e ∈ order) (there' : e' ∈ order) (same : e.id = e'.id) : e = e' :=
  List.inj_on_of_nodup_map lin.distinct there there' same

/-- The order in which all statements that had their last section explain each other gives,
to each client, its own ones in the order they were replied to it, and at most one more, the
one whose reply it waits for. -/
theorem sessions_linearizable (named : WellNamed sys.lookup start)
    (sessions : Sessions sys owner start cfg done) :
    ∃ order, Linearizes sys start cfg order ∧ ∀ c,
      order.filter (fun e => owner e.op = c) = done c ∨
      ∃ e, cfg.phase c = .answered e.id e.reply ∧
        order.filter (fun e => owner e.op = c) = done c ++ [e] := by
  obtain ⟨order, lin⟩ := Linearizes.run named sessions.reaches
  refine ⟨order, lin, fun c => ?_⟩
  have session := sessions.session named c
  have nodup : (order.filter fun e => owner e.op = c).Nodup :=
    (List.Nodup.of_map _ lin.distinct).filter _
  have keeps : (order.filter fun e => owner e.op = c).Pairwise
      fun a b => ¬ Before cfg.history b.id a.id := lin.realtime.filter _
  have listed {e : Entry O R} (there : e ∈ done c) :
      e ∈ order.filter fun e => owner e.op = c := by
    obtain ⟨issued, replied, owned⟩ := session.replied e there
    obtain ⟨⟨id, op, reply⟩, there', rfl, rfl⟩ := lin.replied _ _ replied
    obtain rfl := lin.unique _ _ _ (lin.issued _ there') issued
    exact List.mem_filter.mpr ⟨there', decide_eq_true owned⟩
  have doneNodup : (done c).Nodup := .of_map _ session.distinct
  have known {e : Entry O R} (there : e ∈ order.filter fun e => owner e.op = c) :
      e ∈ done c ∨ (cfg.phase c).current = some e.id := by
    obtain ⟨inside, owned⟩ := List.mem_filter.mp there
    refine (session.mine e.id e.op (lin.issued e inside) (of_decide_eq_true owned)).imp_left ?_
    rintro ⟨e', there', same⟩
    exact lin.eq_of_id (List.mem_of_mem_filter (listed there')) inside same ▸ there'
  by_cases all : ∀ e ∈ order.filter (fun e => owner e.op = c), e ∈ done c
  · exact .inl (eq_of_not_contradicting nodup doneNodup (fun e => ⟨all e, listed⟩) keeps
      session.inTurn)
  · simp only [not_forall] at all
    obtain ⟨e, there, unlisted⟩ := all
    have current := (known there).resolve_left unlisted
    have inside := List.mem_of_mem_filter there
    refine .inr ⟨e, ?_, ?_⟩
    · obtain ⟨o, waits⟩ | ⟨r, is⟩ := Phase.current_cases current
      · exact absurd rfl ((lin.waiting c e.id o waits).2 e inside)
      · obtain ⟨⟨e', inside', same, rfl⟩, -⟩ := lin.answered c e.id r is
        cases lin.eq_of_id inside' inside same
        exact is
    · refine eq_of_not_contradicting nodup ?_ (fun e' => ?_) keeps ?_
      · exact List.nodup_append_comm.mpr (List.nodup_cons.mpr ⟨unlisted, doneNodup⟩)
      · rw [List.mem_append, List.mem_singleton]
        constructor
        · intro there'
          refine (known there').imp_right fun current' => ?_
          exact lin.eq_of_id (List.mem_of_mem_filter there') inside
            (Option.some.inj (current'.symm.trans current))
        · rintro (there' | rfl)
          · exact listed there'
          · exact there
      · refine List.pairwise_append.mpr ⟨session.inTurn, List.pairwise_singleton _ _, ?_⟩
        intro e' there' _ last
        cases List.mem_singleton.mp last
        exact (session.last e.id current).2 e' there'

end Runs

end Registry
