import CppDB.Lib.Registry

/-! Clients that run statements on one store at the same time. A statement is issued,
takes its one section on the catalog, and, if it found an object there, one section on
that object; then it replies. Between its two sections the name may be unbound, or bound
to another object. Every such run is linearizable. -/
namespace Registry

open Machine

variable {Client C T N O R : Type}

/-- Where a client is. Statements are numbered by the time they were issued. -/
inductive Phase (O R : Type) where
  | idle
  | issued (id : Nat) (o : O)
  | holding (id : Nat) (o : O) (h : Nat)
  | answered (id : Nat) (r : R)

namespace Phase

/-- The statement that has not had its last section yet. -/
def pending : Phase O R → Option (Nat × O)
  | .idle => none
  | .issued id o => some (id, o)
  | .holding id o _ => some (id, o)
  | .answered _ _ => none

/-- The statement that is under way. -/
def current : Phase O R → Option Nat
  | .idle => none
  | .issued id _ => some id
  | .holding id _ _ => some id
  | .answered id _ => some id

theorem current_of_pending {phase : Phase O R} {id : Nat} {o : O}
    (is : phase.pending = some (id, o)) : phase.current = some id := by
  cases phase <;> simp_all [pending, current]

theorem current_cases {phase : Phase O R} {id : Nat} (is : phase.current = some id) :
    (∃ o, phase.pending = some (id, o)) ∨ ∃ r, phase = .answered id r := by
  cases phase <;> simp_all [pending, current]

end Phase

inductive Event (O R : Type) where
  | issue (id : Nat) (o : O)
  | reply (id : Nat) (r : R)

structure Config (Client C T O R : Type) where
  store : Store C T
  phase : Client → Phase O R
  history : List (Event O R)

/-- No statement issued yet. -/
def Config.initial (store : Store C T) : Config Client C T O R :=
  ⟨store, fun _ => .idle, []⟩

section Steps

variable [DecidableEq Client]

def Config.enter (cfg : Config Client C T O R) (c : Client) (phase : Phase O R) :
    Config Client C T O R :=
  { cfg with phase := Function.update cfg.phase c phase }

/-- One section of one client, or the issue or reply of a statement. -/
inductive Step (sys : System C T N O R) :
    Config Client C T O R → Config Client C T O R → Prop where
  | issue {cfg} (c : Client) (o : O) (free : cfg.phase c = .idle) :
      Step sys cfg { cfg.enter c (.issued cfg.history.length o) with
        history := cfg.history ++ [.issue cfg.history.length o] }
  | catalog {cfg} {c : Client} {id o change} (at_ : cfg.phase c = .issued id o)
      (plans : sys.plan o = .catalog change) :
      Step sys cfg { cfg.enter c (.answered id (cfg.store.change change).2) with
        store := (cfg.store.change change).1 }
  | miss {cfg} {c : Client} {id o name missing act} (at_ : cfg.phase c = .issued id o)
      (plans : sys.plan o = .object name missing act)
      (absent : sys.lookup cfg.store.catalog name = none) :
      Step sys cfg (cfg.enter c (.answered id missing))
  | find {cfg} {c : Client} {id o name missing act h} (at_ : cfg.phase c = .issued id o)
      (plans : sys.plan o = .object name missing act)
      (found : sys.lookup cfg.store.catalog name = some h) :
      Step sys cfg (cfg.enter c (.holding id o h))
  | act {cfg} {c : Client} {id o name missing act h t} (at_ : cfg.phase c = .holding id o h)
      (plans : sys.plan o = .object name missing act) (held : cfg.store.heap[h]? = some t) :
      Step sys cfg { cfg.enter c (.answered id (act t).2) with store := cfg.store.put h (act t).1 }
  | reply {cfg} {c : Client} {id r} (at_ : cfg.phase c = .answered id r) :
      Step sys cfg { cfg.enter c .idle with history := cfg.history ++ [.reply id r] }

theorem Config.enter_self (cfg : Config Client C T O R) (c : Client) (phase : Phase O R) :
    (cfg.enter c phase).phase c = phase :=
  Function.update_self ..

theorem Config.enter_of_ne (cfg : Config Client C T O R) {c c' : Client} (other : c' ≠ c)
    (phase : Phase O R) : (cfg.enter c phase).phase c' = cfg.phase c' :=
  Function.update_of_ne other ..

/-- What is the same of a client's phase before and behind is so of every client's. -/
theorem Config.enter_alike {β : Sort*} (cfg : Config Client C T O R) {c : Client}
    (phase : Phase O R) (f : Phase O R → β) (same : f (cfg.phase c) = f phase) (c' : Client) :
    f ((cfg.enter c phase).phase c') = f (cfg.phase c') := by
  by_cases is : c' = c
  · rw [is, cfg.enter_self, same]
  · rw [cfg.enter_of_ne is]

end Steps

/-- Statement `b` had replied when statement `a` was issued. -/
def Before (history : List (Event O R)) (b a : Nat) : Prop :=
  ∃ early late r o, history = early ++ late ∧ .reply b r ∈ early ∧ .issue a o ∈ late

/-- A statement in a sequential order, with its reply. -/
structure Entry (O R : Type) where
  id : Nat
  op : O
  reply : R

section Histories

variable {history : List (Event O R)} {a b id : Nat} {o : O} {r : R}

theorem reply_of_before (before : Before history b a) : ∃ r, .reply b r ∈ history := by
  obtain ⟨early, late, r, o, rfl, replied, -⟩ := before
  exact ⟨r, List.mem_append_left _ replied⟩

/-- A new event puts statements before another one only if it issues that one. -/
theorem before_append {event : Event O R} (other : ∀ o, event ≠ .issue a o)
    (before : Before (history ++ [event]) b a) : Before history b a := by
  obtain ⟨early, late, r, o, split, replied, issued⟩ := before
  obtain rfl | ⟨late, last, rfl⟩ := List.eq_nil_or_concat late
  · contradiction
  · rw [List.concat_eq_append] at issued split
    rw [← List.append_assoc] at split
    obtain ⟨rfl, same⟩ := List.append_inj' split rfl
    obtain rfl := List.singleton_injective same
    obtain issued | issued := List.mem_append.mp issued
    · exact ⟨early, late, r, o, rfl, replied, issued⟩
    · exact absurd (List.mem_singleton.mp issued).symm (other o)

end Histories

section Invariant

variable {sys : System C T N O R} {start : Store C T} {cfg : Config Client C T O R}
  {order : List (Entry O R)}

variable (sys start) in
/-- A place in the order where a statement on the object `h` fits: the name leads to the
object there, no later entry touches it, and none had replied before the statement was
issued. -/
def Fits (history : List (Event O R)) (order : List (Entry O R)) (id : Nat) (name : N) (h : Nat) :
    Prop :=
  ∃ front back s rs, order = front ++ back ∧
    run sys.step start (front.map Entry.op) = some (s, rs) ∧
    sys.lookup s.catalog name = some h ∧ sys.Untouched h s (back.map Entry.op) ∧
    ∀ e ∈ back, ¬ Before history e.id id

variable (sys start) in
/-- The order is a sequential run of the statements that have had their last section. -/
structure Linearizes (cfg : Config Client C T O R) (order : List (Entry O R)) : Prop where
  replays : run sys.step start (order.map Entry.op) = some (cfg.store, order.map Entry.reply)
  realtime : order.Pairwise fun a b => ¬ Before cfg.history b.id a.id
  distinct : (order.map Entry.id).Nodup
  issued : ∀ e ∈ order, .issue e.id e.op ∈ cfg.history
  numbered : ∀ id o, .issue id o ∈ cfg.history → id < cfg.history.length
  unique : ∀ id o o', .issue id o ∈ cfg.history → .issue id o' ∈ cfg.history → o = o'
  covered : ∀ id o, .issue id o ∈ cfg.history →
    (∃ e ∈ order, e.id = id) ∨ ∃ c, (cfg.phase c).pending = some (id, o)
  replied : ∀ id r, .reply id r ∈ cfg.history → ∃ e ∈ order, e.id = id ∧ e.reply = r
  delivered : ∀ e ∈ order, .reply e.id e.reply ∈ cfg.history ∨
    ∃ c, cfg.phase c = .answered e.id e.reply
  waiting : ∀ c id o, (cfg.phase c).pending = some (id, o) →
    .issue id o ∈ cfg.history ∧ ∀ e ∈ order, e.id ≠ id
  answered : ∀ c id r, cfg.phase c = .answered id r →
    (∃ e ∈ order, e.id = id ∧ e.reply = r) ∧ ∀ r', .reply id r' ∉ cfg.history
  apart : ∀ c c' id, (cfg.phase c).current = some id → (cfg.phase c').current = some id → c = c'
  held : ∀ c id o h, cfg.phase c = .holding id o h → ∃ name missing act,
    sys.plan o = .object name missing act ∧ Fits sys start cfg.history order id name h

section Places

variable {history : List (Event O R)} {id h g : Nat} {name name' : N} {store : Store C T}
  {rs : List R} {x : Entry O R}

theorem Fits.record {event : Event O R} (fits : Fits sys start history order id name h)
    (other : ∀ o, event ≠ .issue id o) : Fits sys start (history ++ [event]) order id name h := by
  obtain ⟨front, back, s, rs, split, runs, found, untouched, earlier⟩ := fits
  exact ⟨front, back, s, rs, split, runs, found, untouched,
    fun e member before => earlier e member (before_append other before)⟩

/-- A statement that does not act on the object may come behind all others. -/
theorem Fits.append (fits : Fits sys start history order id name h)
    (replays : run sys.step start (order.map Entry.op) = some (store, rs))
    (spares : sys.Spares h store x.op) (later : ¬ Before history x.id id) :
    Fits sys start history (order ++ [x]) id name h := by
  obtain ⟨front, back, s, rs₁, rfl, runs, found, untouched, earlier⟩ := fits
  rw [List.map_append] at replays
  obtain ⟨s', _, rs₂, runs', rest, -⟩ := run_append_eq.mp replays
  cases runs.symm.trans runs'
  refine ⟨front, back ++ [x], s, rs₁, List.append_assoc .., runs, found, ?_, ?_⟩
  · rw [List.map_append, System.untouched_append rest]
    exact ⟨untouched, spares, fun _ _ _ => trivial⟩
  · intro e member
    obtain member | member := List.mem_append.mp member
    · exact earlier e member
    · exact List.mem_singleton.mp member ▸ later

/-- A statement on an object, put where it fits, leaves room for the other statements:
for those on the same object, right behind it. -/
theorem Fits.insert (named : WellNamed sys.lookup start)
    {front back : List (Entry O R)} {s : Store C T} {rs₁ rs₂ : List R} {missing : R}
    {act : T → T × R} (fits : Fits sys start history (front ++ back) id name h)
    (runs : run sys.step start (front.map Entry.op) = some (s, rs₁))
    (rest : run sys.step s (back.map Entry.op) = some (store, rs₂))
    (plans : sys.plan x.op = .object name' missing act)
    (found : sys.lookup s.catalog name' = some g)
    (untouched : sys.Untouched g s (back.map Entry.op)) (later : ¬ Before history x.id id) :
    Fits sys start history (front ++ x :: back) id name h := by
  obtain ⟨named_s, -⟩ := System.run_extends named runs
  have inside := named_s.bound name' g found
  have steps : ∀ s' r, sys.step s x.op = some (s', r) → System.Alike s s' := by
    intro s' r steps
    rw [System.step_object plans found (List.getElem?_eq_getElem inside)] at steps
    cases steps
    exact System.alike_put ..
  obtain ⟨front', back', s', rs', split, runs', found', untouched', earlier⟩ := fits
  obtain ⟨middle, rfl, rfl⟩ | ⟨middle, rfl, rfl⟩ := List.append_eq_append_iff.mp split
  · -- the other place is further back, behind the new entry
    rw [List.map_append] at runs' untouched
    obtain ⟨_, _, rs₃, runs'', between, -⟩ := run_append_eq.mp runs'
    cases runs.symm.trans runs''
    have inside' := inside.trans_le (System.run_extends named_s between).2.grows
    have replays := System.run_insert named_s runs between plans found
      ((System.untouched_append between).mp untouched).1 (List.getElem?_eq_getElem inside')
    refine ⟨front ++ x :: middle, back', s'.put g (act s'.heap[g]).1,
      rs₁ ++ (act s'.heap[g]).2 :: rs₃, ?_, ?_, found', System.untouched_alike (System.alike_put ..)
      untouched', earlier⟩
    · rw [List.append_assoc, List.cons_append]
    · rw [List.map_append, List.map_cons]
      exact replays
  · -- the other place is further ahead
    rw [List.map_append] at runs untouched'
    obtain ⟨_, _, rs₃, runs'', between, -⟩ := run_append_eq.mp runs
    cases runs'.symm.trans runs''
    obtain ⟨named', -⟩ := System.run_extends named runs'
    obtain ⟨-, extend⟩ := System.run_extends named' between
    obtain ⟨ahead, behind⟩ := (System.untouched_append between).mp untouched'
    by_cases same : g = h
    · -- both act on one object, which has had one name all the time
      subst same
      obtain rfl := named'.apart name name' g found'
        (extend.old name' g (named'.bound name g found') found)
      refine ⟨front' ++ middle ++ [x], back, s.put g (act s.heap[g]).1, rs₁ ++ [(act s.heap[g]).2],
        ?_, ?_, found, System.untouched_alike (System.alike_put ..) untouched, ?_⟩
      · rw [List.append_assoc _ [x], List.singleton_append]
      · rw [List.map_append, List.map_append]
        refine run_append_eq.mpr ⟨s, rs₁, [_], runs, ?_, rfl⟩
        exact run_cons_eq.mpr ⟨_, _, [], System.step_object plans found
          (List.getElem?_eq_getElem inside), rfl, rfl⟩
      · intro e member
        exact earlier e (List.mem_append_right _ member)
    · refine ⟨front', middle ++ x :: back, s', rs', List.append_assoc .., runs', found', ?_, ?_⟩
      · rw [List.map_append, List.map_cons, System.untouched_append between]
        refine ⟨ahead, ?_, fun s₁ r steps' => System.untouched_alike (steps s₁ r steps') behind⟩
        intro n m a plans'
        cases plans.symm.trans plans'
        rw [found]
        exact fun is => same (Option.some.inj is)
      · intro e member
        obtain member | member := List.mem_append.mp member
        · exact earlier e (List.mem_append_left _ member)
        · obtain rfl | member := List.mem_cons.mp member
          · exact later
          · exact earlier e (List.mem_append_right _ member)

end Places

namespace Linearizes

/-- A statement that waits has not replied, so nothing was issued after it. -/
theorem not_replied (lin : Linearizes sys start cfg order) {c : Client} {id : Nat} {o : O}
    (waits : (cfg.phase c).pending = some (id, o)) (r : R) : .reply id r ∉ cfg.history := by
  intro replied
  obtain ⟨e, member, same, -⟩ := lin.replied id r replied
  exact (lin.waiting c id o waits).2 e member same

theorem not_before (lin : Linearizes sys start cfg order) {c : Client} {id : Nat} {o : O}
    (waits : (cfg.phase c).pending = some (id, o)) (a : Nat) : ¬ Before cfg.history id a := by
  intro before
  obtain ⟨r, replied⟩ := reply_of_before before
  exact lin.not_replied waits r replied

theorem current_issued (lin : Linearizes sys start cfg order) {c : Client} {id : Nat}
    (is : (cfg.phase c).current = some id) : ∃ o, .issue id o ∈ cfg.history := by
  obtain ⟨o, waits⟩ | ⟨r, is⟩ := Phase.current_cases is
  · exact ⟨o, (lin.waiting c id o waits).1⟩
  · obtain ⟨⟨e, member, rfl, -⟩, -⟩ := lin.answered c id r is
    exact ⟨e.op, lin.issued e member⟩

variable [DecidableEq Client]

/-- The last section of a statement: it takes its place in the order. -/
theorem commit (lin : Linearizes sys start cfg order) {c : Client} {id : Nat} {o : O} {r : R}
    {store : Store C T} {front back : List (Entry O R)}
    (waits : (cfg.phase c).pending = some (id, o)) (split : order = front ++ back)
    (replays : run sys.step start ((front ++ ⟨id, o, r⟩ :: back).map Entry.op) =
      some (store, (front ++ ⟨id, o, r⟩ :: back).map Entry.reply))
    (later : ∀ e ∈ back, ¬ Before cfg.history e.id id)
    (held : ∀ c' id' o' h, cfg.phase c' = .holding id' o' h → ∃ name missing act,
      sys.plan o' = .object name missing act ∧
        Fits sys start cfg.history (front ++ ⟨id, o, r⟩ :: back) id' name h) :
    Linearizes sys start { cfg.enter c (.answered id r) with store }
      (front ++ ⟨id, o, r⟩ :: back) := by
  have member : ∀ e, e ∈ front ++ ⟨id, o, r⟩ :: back ↔ e = ⟨id, o, r⟩ ∨ e ∈ order := by
    intro e
    rw [split, List.mem_append, List.mem_cons, List.mem_append]
    tauto
  have notAnswered : ∀ c' id' r', cfg.phase c' = .answered id' r' → c' ≠ c := by
    rintro c' id' r' is rfl
    rw [is] at waits
    contradiction
  have sameCurrent :=
    cfg.enter_alike (.answered id r) Phase.current (Phase.current_of_pending waits)
  constructor
  case replays => exact replays
  case realtime =>
    have ordered := lin.realtime
    rw [split, List.pairwise_append] at ordered
    rw [List.pairwise_append, List.pairwise_cons]
    refine ⟨ordered.1, ⟨later, ordered.2.1⟩, ?_⟩
    intro a inFront b inBack
    obtain rfl | inBack := List.mem_cons.mp inBack
    · exact lin.not_before waits a.id
    · exact ordered.2.2 a inFront b inBack
  case distinct =>
    have perm : (front ++ ⟨id, o, r⟩ :: back).Perm (⟨id, o, r⟩ :: order) := by
      rw [split]
      exact List.perm_middle
    rw [(perm.map Entry.id).nodup_iff, List.map_cons, List.nodup_cons]
    refine ⟨?_, lin.distinct⟩
    intro listed
    obtain ⟨e, there, same⟩ := List.mem_map.mp listed
    exact (lin.waiting c id o waits).2 e there same
  case issued =>
    intro e there
    obtain rfl | there := (member e).mp there
    · exact (lin.waiting c id o waits).1
    · exact lin.issued e there
  case numbered => exact lin.numbered
  case unique => exact lin.unique
  case covered =>
    intro id' o' there
    obtain ⟨e, listed, rfl⟩ | ⟨c', waits'⟩ := lin.covered id' o' there
    · exact .inl ⟨e, (member e).mpr (.inr listed), rfl⟩
    · by_cases same : c' = c
      · subst same
        obtain ⟨rfl, rfl⟩ := Prod.mk.inj (Option.some.inj (waits.symm.trans waits'))
        exact .inl ⟨_, (member _).mpr (.inl rfl), rfl⟩
      · refine .inr ⟨c', ?_⟩
        rw [cfg.enter_of_ne same]
        exact waits'
  case replied =>
    intro id' r' there
    obtain ⟨e, listed, same⟩ := lin.replied id' r' there
    exact ⟨e, (member e).mpr (.inr listed), same⟩
  case delivered =>
    intro e there
    obtain rfl | there := (member e).mp there
    · exact .inr ⟨c, cfg.enter_self ..⟩
    · refine (lin.delivered e there).imp_right ?_
      rintro ⟨c', is⟩
      exact ⟨c', (cfg.enter_of_ne (notAnswered c' _ _ is) _).trans is⟩
  case waiting =>
    intro c' id' o' waits'
    by_cases same : c' = c
    · rw [same, cfg.enter_self] at waits'
      contradiction
    · rw [cfg.enter_of_ne same] at waits'
      obtain ⟨there, fresh⟩ := lin.waiting c' id' o' waits'
      refine ⟨there, fun e listed => ?_⟩
      obtain rfl | listed := (member e).mp listed
      · rintro rfl
        exact same (lin.apart c' c id (Phase.current_of_pending waits')
          (Phase.current_of_pending waits))
      · exact fresh e listed
  case answered =>
    intro c' id' r' is
    by_cases same : c' = c
    · rw [same, cfg.enter_self] at is
      cases is
      exact ⟨⟨_, (member _).mpr (.inl rfl), rfl, rfl⟩, lin.not_replied waits⟩
    · rw [cfg.enter_of_ne same] at is
      obtain ⟨⟨e, listed, here⟩, silent⟩ := lin.answered c' id' r' is
      exact ⟨⟨e, (member e).mpr (.inr listed), here⟩, silent⟩
  case apart =>
    intro c₁ c₂ id' is₁ is₂
    rw [sameCurrent] at is₁ is₂
    exact lin.apart c₁ c₂ id' is₁ is₂
  case held =>
    intro c' id' o' h is
    by_cases same : c' = c
    · rw [same, cfg.enter_self] at is
      contradiction
    · rw [cfg.enter_of_ne same] at is
      exact held c' id' o' h is

/-- A statement that only takes a section on the catalog comes last in the order. -/
theorem commitLast (lin : Linearizes sys start cfg order) {c : Client} {id : Nat} {o : O} {r : R}
    {store : Store C T} (waits : (cfg.phase c).pending = some (id, o))
    (steps : sys.step cfg.store o = some (store, r))
    (spares : ∀ h, sys.Spares h cfg.store o) :
    Linearizes sys start { cfg.enter c (.answered id r) with store } (order ++ [⟨id, o, r⟩]) := by
  refine lin.commit waits (List.append_nil _).symm ?_ (fun e none => by cases none) ?_
  · rw [List.map_append, List.map_append]
    exact run_append_eq.mpr ⟨cfg.store, _, [r], lin.replays,
      run_cons_eq.mpr ⟨store, r, [], steps, rfl, rfl⟩, rfl⟩
  · intro c' id' o' h holds
    obtain ⟨name, missing, act, plans, fits⟩ := lin.held c' id' o' h holds
    exact ⟨name, missing, act, plans, fits.append lin.replays (spares h) (lin.not_before waits id')⟩

omit [DecidableEq Client] in
theorem initial (start : Store C T) :
    Linearizes sys start (Config.initial start : Config Client C T O R) [] where
  replays := rfl
  realtime := .nil
  distinct := .nil
  issued _ none := by cases none
  numbered _ _ none := by cases none
  unique _ _ _ none := by cases none
  covered _ _ none := by cases none
  replied _ _ none := by cases none
  delivered _ none := by cases none
  waiting _ _ _ none := by cases none
  answered _ _ _ none := by cases none
  apart _ _ _ none := by cases none
  held _ _ _ _ none := by cases none

/-- A statement takes its section on the object, which may have lost its name since. -/
theorem commitAct (named : WellNamed sys.lookup start) (lin : Linearizes sys start cfg order)
    {c : Client} {id h : Nat} {o : O} {name : N} {missing : R} {act : T → T × R} {t : T}
    (holds : cfg.phase c = .holding id o h) (plans : sys.plan o = .object name missing act)
    (held : cfg.store.heap[h]? = some t) :
    ∃ order', Linearizes sys start
      { cfg.enter c (.answered id (act t).2) with store := cfg.store.put h (act t).1 } order' := by
  have waits : (cfg.phase c).pending = some (id, o) := by rw [holds]; rfl
  obtain ⟨_, _, _, plans', front, back, s, rs, rfl, runs, found, untouched, later⟩ :=
    lin.held c id o h holds
  cases plans.symm.trans plans'
  have replays := lin.replays
  rw [List.map_append, List.map_append] at replays
  obtain ⟨_, _, rs₂, runs', rest, replies⟩ := run_append_eq.mp replays
  cases runs.symm.trans runs'
  have sameLength : (front.map Entry.reply).length = rs.length := by
    rw [run_length runs, List.length_map, List.length_map]
  obtain ⟨rfl, rfl⟩ := List.append_inj replies sameLength
  refine ⟨_, lin.commit waits rfl ?_ later ?_⟩
  · rw [List.map_append, List.map_cons, List.map_append, List.map_cons]
    exact System.run_insert (System.run_extends named runs).1 runs rest plans found untouched held
  · intro c' id' o' h' holds'
    obtain ⟨name', missing', act', plans', fits⟩ := lin.held c' id' o' h' holds'
    exact ⟨name', missing', act', plans', fits.insert named runs rest plans found untouched
      (lin.not_before waits id')⟩

theorem issue (lin : Linearizes sys start cfg order) {c : Client} {o : O}
    (free : cfg.phase c = .idle) :
    Linearizes sys start { cfg.enter c (.issued cfg.history.length o) with
      history := cfg.history ++ [Event.issue cfg.history.length o] } order := by
  have fresh : ∀ id o', .issue id o' ∈ cfg.history → id ≠ cfg.history.length :=
    fun id o' there => (lin.numbered id o' there).ne
  have other : ∀ id o', .issue id o' ∈ cfg.history →
      ∀ o'', Event.issue cfg.history.length o ≠ (.issue id o'' : Event O R) := by
    rintro id o' there o'' ⟨⟩
    exact fresh _ o' there rfl
  have notIdle : ∀ {c' id}, (cfg.phase c').current = some id → c' ≠ c := by
    rintro c' id is rfl
    rw [free] at is
    contradiction
  have recorded : ∀ {e}, e ∈ cfg.history → e ∈ cfg.history ++ [Event.issue cfg.history.length o] :=
    fun there => List.mem_append_left _ there
  constructor
  case replays => exact lin.replays
  case realtime =>
    refine lin.realtime.imp_of_mem fun {a b} inA _ apart before => apart ?_
    exact before_append (other a.id a.op (lin.issued a inA)) before
  case distinct => exact lin.distinct
  case issued => exact fun e there => recorded (lin.issued e there)
  case numbered =>
    intro id o' there
    rw [List.length_append]
    obtain there | there := List.mem_append.mp there
    · exact Nat.lt_add_right _ (lin.numbered id o' there)
    · cases List.mem_singleton.mp there
      exact Nat.lt_succ_self _
  case unique =>
    intro id o₁ o₂ there₁ there₂
    obtain there₁ | there₁ := List.mem_append.mp there₁
    · obtain there₂ | there₂ := List.mem_append.mp there₂
      · exact lin.unique id o₁ o₂ there₁ there₂
      · exact absurd (List.mem_singleton.mp there₂).symm (other id o₁ there₁ o₂)
    · obtain there₂ | there₂ := List.mem_append.mp there₂
      · exact absurd (List.mem_singleton.mp there₁).symm (other id o₂ there₂ o₁)
      · cases List.mem_singleton.mp there₁
        cases List.mem_singleton.mp there₂
        rfl
  case covered =>
    intro id o' there
    obtain there | there := List.mem_append.mp there
    · refine (lin.covered id o' there).imp_right ?_
      rintro ⟨c', waits⟩
      refine ⟨c', ?_⟩
      rw [cfg.enter_of_ne (notIdle (Phase.current_of_pending waits))]
      exact waits
    · cases List.mem_singleton.mp there
      exact .inr ⟨c, by rw [cfg.enter_self]; rfl⟩
  case replied =>
    intro id r there
    obtain there | there := List.mem_append.mp there
    · exact lin.replied id r there
    · cases List.mem_singleton.mp there
  case delivered =>
    intro e there
    obtain replied | ⟨c', is⟩ := lin.delivered e there
    · exact .inl (recorded replied)
    · refine .inr ⟨c', ?_⟩
      rw [cfg.enter_of_ne (notIdle (by rw [is]; rfl))]
      exact is
  case waiting =>
    intro c' id o' waits
    by_cases same : c' = c
    · rw [same, cfg.enter_self] at waits
      cases waits
      refine ⟨List.mem_append_right _ (List.mem_singleton.mpr rfl), ?_⟩
      exact fun e there => fresh e.id e.op (lin.issued e there)
    · rw [cfg.enter_of_ne same] at waits
      obtain ⟨there, fresh⟩ := lin.waiting c' id o' waits
      exact ⟨recorded there, fresh⟩
  case answered =>
    intro c' id r is
    by_cases same : c' = c
    · rw [same, cfg.enter_self] at is
      contradiction
    · rw [cfg.enter_of_ne same] at is
      obtain ⟨entry, silent⟩ := lin.answered c' id r is
      refine ⟨entry, fun r' there => ?_⟩
      obtain there | there := List.mem_append.mp there
      · exact silent r' there
      · cases List.mem_singleton.mp there
  case apart =>
    intro c₁ c₂ id is₁ is₂
    have old : ∀ {c'}, ((cfg.enter c (.issued cfg.history.length o)).phase c').current = some id →
        c' ≠ c → (cfg.phase c').current = some id ∧ id ≠ cfg.history.length := by
      intro c' is other
      rw [cfg.enter_of_ne other] at is
      obtain ⟨o', there⟩ := lin.current_issued is
      exact ⟨is, fresh id o' there⟩
    have new : ((cfg.enter c (.issued cfg.history.length o)).phase c).current = some id →
        id = cfg.history.length := by
      intro is
      rw [cfg.enter_self] at is
      exact (Option.some.inj is).symm
    by_cases same₁ : c₁ = c
    · by_cases same₂ : c₂ = c
      · exact same₁.trans same₂.symm
      · subst same₁
        exact absurd (new is₁) (old is₂ same₂).2
    · by_cases same₂ : c₂ = c
      · subst same₂
        exact absurd (new is₂) (old is₁ same₁).2
      · exact lin.apart c₁ c₂ id (old is₁ same₁).1 (old is₂ same₂).1
  case held =>
    intro c' id o' h is
    by_cases same : c' = c
    · rw [same, cfg.enter_self] at is
      contradiction
    · rw [cfg.enter_of_ne same] at is
      have waits : (cfg.phase c').pending = some (id, o') := by rw [is]; rfl
      obtain ⟨name, missing, act, plans, fits⟩ := lin.held c' id o' h is
      exact ⟨name, missing, act, plans,
        fits.record (other id o' (lin.waiting c' id o' waits).1)⟩

/-- The name is bound, so behind all entries so far is a place for the statement. -/
theorem find (lin : Linearizes sys start cfg order) {c : Client} {id h : Nat} {o : O} {name : N}
    {missing : R} {act : T → T × R} (is : cfg.phase c = .issued id o)
    (plans : sys.plan o = .object name missing act)
    (found : sys.lookup cfg.store.catalog name = some h) :
    Linearizes sys start (cfg.enter c (.holding id o h)) order := by
  -- to hold the handle is still to wait for the reply
  have pending : (cfg.phase c).pending = some (id, o) := by rw [is]; rfl
  have samePending := cfg.enter_alike (.holding id o h) Phase.pending pending
  have sameCurrent :=
    cfg.enter_alike (.holding id o h) Phase.current (Phase.current_of_pending pending)
  have sameAnswered (id' : Nat) (r : R) :
      ∀ c', ((cfg.enter c (.holding id o h)).phase c' = .answered id' r) =
        (cfg.phase c' = .answered id' r) :=
    cfg.enter_alike (.holding id o h) (· = .answered id' r) (by simp [is])
  constructor
  case replays => exact lin.replays
  case realtime => exact lin.realtime
  case distinct => exact lin.distinct
  case issued => exact lin.issued
  case numbered => exact lin.numbered
  case unique => exact lin.unique
  case covered =>
    intro id' o' there
    simp only [samePending]
    exact lin.covered id' o' there
  case replied => exact lin.replied
  case delivered =>
    intro e there
    simp only [sameAnswered]
    exact lin.delivered e there
  case waiting =>
    intro c' id' o' waits
    rw [samePending] at waits
    exact lin.waiting c' id' o' waits
  case answered =>
    intro c' id' r' is'
    rw [sameAnswered] at is'
    exact lin.answered c' id' r' is'
  case apart =>
    intro c₁ c₂ id' is₁ is₂
    rw [sameCurrent] at is₁ is₂
    exact lin.apart c₁ c₂ id' is₁ is₂
  case held =>
    intro c' id' o' h' holds
    by_cases same : c' = c
    · rw [same, cfg.enter_self] at holds
      cases holds
      exact ⟨name, missing, act, plans, order, [], cfg.store, _, (List.append_nil _).symm,
        lin.replays, found, trivial, fun e none => by cases none⟩
    · rw [cfg.enter_of_ne same] at holds
      exact lin.held c' id' o' h' holds

theorem reply (lin : Linearizes sys start cfg order) {c : Client} {id : Nat} {r : R}
    (is : cfg.phase c = .answered id r) :
    Linearizes sys start { cfg.enter c .idle with history := cfg.history ++ [Event.reply id r] }
      order := by
  have current : (cfg.phase c).current = some id := by rw [is]; rfl
  have other : ∀ a o', (.reply id r : Event O R) ≠ .issue a o' := fun a o' => by simp
  have old : ∀ {a o'}, .issue a o' ∈ cfg.history ++ [Event.reply id r] →
      .issue a o' ∈ cfg.history := by
    intro a o' there
    obtain there | there := List.mem_append.mp there
    · exact there
    · cases List.mem_singleton.mp there
  have notPending : ∀ {c' id' o'}, (cfg.phase c').pending = some (id', o') → c' ≠ c := by
    rintro c' id' o' waits rfl
    rw [is] at waits
    contradiction
  constructor
  case replays => exact lin.replays
  case realtime =>
    exact lin.realtime.imp fun {a b} apart before => apart (before_append (other a.id) before)
  case distinct => exact lin.distinct
  case issued => exact fun e there => List.mem_append_left _ (lin.issued e there)
  case numbered =>
    intro id' o' there
    rw [List.length_append]
    exact Nat.lt_add_right _ (lin.numbered id' o' (old there))
  case unique => exact fun id' o₁ o₂ there₁ there₂ => lin.unique id' o₁ o₂ (old there₁) (old there₂)
  case covered =>
    intro id' o' there
    refine (lin.covered id' o' (old there)).imp_right ?_
    rintro ⟨c', waits⟩
    refine ⟨c', ?_⟩
    rw [cfg.enter_of_ne (notPending waits)]
    exact waits
  case replied =>
    intro id' r' there
    obtain there | there := List.mem_append.mp there
    · exact lin.replied id' r' there
    · cases List.mem_singleton.mp there
      exact (lin.answered c id r is).1
  case delivered =>
    intro e there
    obtain replied | ⟨c', is'⟩ := lin.delivered e there
    · exact .inl (List.mem_append_left _ replied)
    · by_cases same : c' = c
      · rw [same, is] at is'
        cases is'
        exact .inl (List.mem_append_right _ (List.mem_singleton.mpr rfl))
      · exact .inr ⟨c', (cfg.enter_of_ne same _).trans is'⟩
  case waiting =>
    intro c' id' o' waits
    by_cases same : c' = c
    · rw [same, cfg.enter_self] at waits
      contradiction
    · rw [cfg.enter_of_ne same] at waits
      obtain ⟨there, fresh⟩ := lin.waiting c' id' o' waits
      exact ⟨List.mem_append_left _ there, fresh⟩
  case answered =>
    intro c' id' r' is'
    by_cases same : c' = c
    · rw [same, cfg.enter_self] at is'
      contradiction
    · rw [cfg.enter_of_ne same] at is'
      obtain ⟨entry, silent⟩ := lin.answered c' id' r' is'
      refine ⟨entry, fun r'' there => ?_⟩
      obtain there | there := List.mem_append.mp there
      · exact silent r'' there
      · cases List.mem_singleton.mp there
        exact same (lin.apart c' c id (by rw [is']; rfl) current)
  case apart =>
    intro c₁ c₂ id' is₁ is₂
    have still : ∀ {c'}, ((cfg.enter c .idle).phase c').current = some id' →
        (cfg.phase c').current = some id' := by
      intro c' is'
      by_cases same : c' = c
      · rw [same, cfg.enter_self] at is'
        contradiction
      · rwa [cfg.enter_of_ne same] at is'
    exact lin.apart c₁ c₂ id' (still is₁) (still is₂)
  case held =>
    intro c' id' o' h holds
    by_cases same : c' = c
    · rw [same, cfg.enter_self] at holds
      contradiction
    · rw [cfg.enter_of_ne same] at holds
      obtain ⟨name, missing, act, plans, fits⟩ := lin.held c' id' o' h holds
      exact ⟨name, missing, act, plans, fits.record (other id')⟩

theorem step (named : WellNamed sys.lookup start) (lin : Linearizes sys start cfg order)
    {cfg' : Config Client C T O R} (steps : Step sys cfg cfg') :
    ∃ order', Linearizes sys start cfg' order' := by
  cases steps with
  | issue c o free => exact ⟨order, lin.issue free⟩
  | @catalog c id o change is plans =>
    have waits : (cfg.phase c).pending = some (id, o) := by rw [is]; rfl
    refine ⟨_, lin.commitLast waits (System.step_catalog plans) ?_⟩
    intro h name missing act plans'
    cases plans.symm.trans plans'
  | @miss c id o name missing act is plans absent =>
    have waits : (cfg.phase c).pending = some (id, o) := by rw [is]; rfl
    refine ⟨_, lin.commitLast waits (System.step_missing plans absent) ?_⟩
    intro h name missing act plans'
    cases plans.symm.trans plans'
    rw [absent]
    exact (Option.some_ne_none h).symm
  | find is plans found => exact ⟨order, lin.find is plans found⟩
  | act holds plans held => exact lin.commitAct named holds plans held
  | reply is => exact ⟨order, lin.reply is⟩

theorem run (named : WellNamed sys.lookup start)
    (reaches : Relation.ReflTransGen (Step sys) (Config.initial start) cfg) :
    ∃ order, Linearizes sys start cfg order := by
  induction reaches with
  | refl => exact ⟨[], initial start⟩
  | tail _ steps ih =>
    obtain ⟨order, lin⟩ := ih
    exact lin.step named steps

end Linearizes

variable (sys start) in
/-- A sequential order of the statements of a history: each was issued and got the reply it
has in the order, none comes behind one issued after its reply, and running them one by
one gives these replies and this store. -/
structure Linearization (history : List (Event O R)) (store : Store C T)
    (order : List (Entry O R)) : Prop where
  once : (order.map Entry.id).Nodup
  statements : ∀ id o, .issue id o ∈ history ↔ ∃ e ∈ order, e.id = id ∧ e.op = o
  replies : ∀ id r, .reply id r ∈ history ↔ ∃ e ∈ order, e.id = id ∧ e.reply = r
  realtime : order.Pairwise fun a b => ¬ Before history b.id a.id
  replays : Machine.run sys.step start (order.map Entry.op) = some (store, order.map Entry.reply)

/-- Every run in which all statements have replied has a linearization. -/
theorem linearizable [DecidableEq Client] (named : WellNamed sys.lookup start)
    (reaches : Relation.ReflTransGen (Step sys) (Config.initial start) cfg)
    (quiet : ∀ c, cfg.phase c = .idle) :
    ∃ order, Linearization sys start cfg.history cfg.store order := by
  obtain ⟨order, lin⟩ := Linearizes.run named reaches
  refine ⟨order, lin.distinct, fun id o => ⟨fun there => ?_, ?_⟩,
    fun id r => ⟨lin.replied id r, ?_⟩, lin.realtime, lin.replays⟩
  · obtain ⟨e, listed, rfl⟩ | ⟨c, waits⟩ := lin.covered id o there
    · exact ⟨e, listed, rfl, lin.unique e.id e.op o (lin.issued e listed) there⟩
    · rw [quiet c] at waits
      contradiction
  · rintro ⟨e, listed, rfl, rfl⟩
    exact lin.issued e listed
  · rintro ⟨e, listed, rfl, rfl⟩
    obtain replied | ⟨c, is⟩ := lin.delivered e listed
    · exact replied
    · rw [quiet c] at is
      contradiction

end Invariant

end Registry
