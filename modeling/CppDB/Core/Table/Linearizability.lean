import CppDB.Core.Table.Progress
import CppDB.Lib.Trace

/-! Calls on one table that run at the same time, section by section, are linearizable: in
the order in which they give up the lock they are answered as one finite map answers them one
after the other. -/
namespace CppDB.Table
open Assoc Relation

/-! ### The map under a call -/

section Reference

variable {schema : Schema} {m : Finmap fun _ : Int64 => Row} {op : Op}

theorem Reference.step_of_refused {e : Exn} (refused : op.refused schema = some e) :
    Reference.step schema m op = (m, .thrown e) := by
  cases op with
  | insert row =>
    rw [Op.refused] at refused
    cases checks : checkRow schema row with
    | error e' =>
      rw [checks] at refused
      cases refused
      simp only [Reference.step, checks]
    | ok id =>
      rw [checks] at refused
      cases refused
  | updateWhere predicate assignments =>
    rw [Op.refused] at refused
    cases checks : checkAssignments schema assignments with
    | error e' =>
      rw [checks] at refused
      cases refused
      simp only [Reference.step, checks]
    | ok =>
      rw [checks] at refused
      cases refused
  | _ => cases refused

theorem Reference.step_of_reads (reads : op.writes = false) : (Reference.step schema m op).1 = m := by
  cases op with
  | insert | deleteById | deleteWhere | updateWhere => cases reads
  | _ => rfl

end Reference

section Sections

variable [StdHash Int64] {table table' : Table} {op : Op} {stage stage' : Stage}

/-- A call leaves its first section and does not come back to it. -/
theorem not_entered_of_work (works : table.work op stage = some (table', stage')) :
    stage' ≠ .entered := by
  rintro rfl
  have less := left_of_work works
  cases stage <;> simp [Stage.left] at less

/-- A call that only reads returns what the map under the stored pairs says. -/
theorem result_of_reads (valid : ValidBut stage.stale table) (justified : Justified table op stage)
    (reads : op.writes = false) {result : Result}
    (works : table.work op stage = some (table', .returning result)) :
    result = (Reference.step table.schema (toMap table.contents) op).2 := by
  by_cases looksUp : ∃ id, op = .findById id
  · obtain ⟨id, rfl⟩ := looksUp
    have advances := work_advances valid justified works
    rw [advances.justified id rfl, advances.reads reads, Reference.step, lookup_toMap]
  · -- the other calls that read have one section
    have first : stage = .entered := by
      cases stage with
      | entered => rfl
      | missed id => exact absurd ⟨id, justified⟩ looksUp
      | found id => exact absurd ⟨id, justified.1⟩ looksUp
      | doomed | erasing => cases reads.symm.trans justified
      | matched => cases reads.symm.trans justified.1
      | returning => cases works
    subst first
    obtain ⟨table'', result', steps, -, answer⟩ :=
      step_simulates table.schema table _ op ⟨valid.valid, rfl, rfl⟩
    rw [← answer]
    cases op with
    | findById id => exact absurd ⟨id, rfl⟩ looksUp
    | rowCount | selectAll | selectWhere | selectIdRange =>
      cases works
      cases steps
      rfl
    | _ => cases reads

/-- What a writing call has done when it is about to return, if nobody came in between. -/
theorem step_of_works {start : Table} (valid : start.Valid)
    (accepted : op.refused start.schema = none) {result : Result}
    (works : ReflTransGen (Works op) (start, .entered) (table, .returning result)) :
    start.step op = some (table, result) := by
  obtain ⟨table', result', steps, -⟩ := step_simulates start.schema start _ op ⟨valid, rfl, rfl⟩
  have computes := sections_compute accepted steps
  have unique : Relator.RightUnique (Works op) := by
    intro a b c first second
    exact Option.some.inj (first.symm.trans second)
  have final {table : Table} {result : Result} {b : Table × Stage}
      (on : ReflTransGen (Works op) (table, .returning result) b) : b = (table, .returning result) := by
    obtain rfl | ⟨c, next, -⟩ := on.cases_head
    · rfl
    · cases next
  have same : (table, Stage.returning result) = (table', .returning result') := by
    obtain ahead | behind := ReflTransGen.total_of_right_unique unique works computes
    · exact (final ahead).symm
    · exact final behind
  cases same
  exact steps

namespace Shared

variable {T : Type} [DecidableEq T] {s s' : Shared T} {t u : T}

/-- A call that has returned, with its result. -/
structure Return (T : Type) where
  thread : T
  op : Op
  result : Result

/-- What the callers see of a section: a call that throws at once, or one that returns. -/
def returns (s : Shared T) : Action T → List (Return T)
  | .call t op =>
    match s.job t, op.refused s.table.schema with
    | none, some e => [⟨t, op, .thrown e⟩]
    | _, _ => []
  | .finish t _ =>
    match s.job t with
    | some (op, .returning result) => [⟨t, op, result⟩]
    | _ => []
  | _ => []

def watched (s : Shared T) (a : Action T) : Option (Shared T × List (Return T)) :=
  (s.step a).map fun s' => (s', s.returns a)

/-- No call that writes is in the middle of its body. -/
def Settled (s : Shared T) : Prop :=
  ∀ t op stage, s.job t = some (op, stage) → op.writes = true → stage = .entered

/-- The map is the one under the table, but for what the call that writes has done since. -/
structure Tracks (schema : Schema) (m : Finmap fun _ : Int64 => Row) (s : Shared T) : Prop where
  schema_eq : s.table.schema = schema
  settled : s.Settled → m = toMap s.table.contents
  writer : ∀ t op stage, s.job t = some (op, stage) → op.writes = true → stage ≠ .entered →
    ∃ start : Table, start.Valid ∧ start.schema = schema ∧ m = toMap start.contents ∧
      op.refused schema = none ∧ ReflTransGen (Works op) (start, .entered) (s.table, stage)
  reader : ∀ t op result, s.job t = some (op, .returning result) → op.writes = false →
    result = (Reference.step schema m op).2

omit [DecidableEq T] in
theorem tracks_fresh (table : Table) :
    Tracks table.schema (toMap table.contents) (fresh table : Shared T) where
  schema_eq := rfl
  settled _ := rfl
  writer _ _ _ is := nomatch is
  reader _ _ _ is := nomatch is

namespace Tracks

variable {schema : Schema} {m : Finmap fun _ : Int64 => Row}

/-- A section that only concerns the lock, and perhaps starts a call. -/
theorem relock (tracks : Tracks schema m s) {lock : RWLock T}
    (idle : s.job t = none) (op : Op) :
    Tracks schema m { s.setJob t (some (op, .entered)) with lock } := by
  have old {u : T} {op' : Op} {stage : Stage}
      (is : Function.update s.job t (some (op, .entered)) u = some (op', stage))
      (past : stage ≠ .entered) : s.job u = some (op', stage) := by
    obtain ⟨-, new⟩ | ⟨-, old⟩ := job_of_update is
    · cases new
      exact absurd rfl past
    · exact old
  refine ⟨tracks.schema_eq, fun settled => tracks.settled ?_, ?_, ?_⟩
  · intro u op' stage is writes
    have other : u ≠ t := by
      rintro rfl
      cases idle.symm.trans is
    exact settled u op' stage ((Function.update_of_ne other _ _).trans is) writes
  · exact fun u op' stage is writes past => tracks.writer u op' stage (old is past) writes past
  · exact fun u op' result is => tracks.reader u op' result (old is (by simp))

/-- The next section of a call that writes. -/
theorem write (tracks : Tracks schema m s) (sound : s.Sound) (is : s.job t = some (op, stage))
    (runs : s.lock.place t = op.held) (writes : op.writes = true)
    (works : s.table.work op stage = some (table', stage')) :
    Tracks schema m { s.setJob t (some (op, stage')) with table := table' } := by
  have writing : s.lock.place t = .writing := by rw [runs, Op.held, if_pos writes]
  have past := not_entered_of_work works
  have advances := work_advances (sound.validBut is runs) (sound.justified t op stage is) works
  -- nobody else is past the first section
  have mine {u : T} {op' : Op} {later : Stage}
      (is' : Function.update s.job t (some (op, stage')) u = some (op', later))
      (past' : later ≠ .entered) : op' = op ∧ later = stage' := by
    obtain ⟨-, new⟩ | ⟨other, old⟩ := job_of_update is'
    · cases new
      exact ⟨rfl, rfl⟩
    · exact absurd (sound.entered_of_writing writing old other) past'
  refine ⟨advances.schema_eq.trans tracks.schema_eq, fun settled => ?_, ?_, ?_⟩
  · exact absurd (settled t op stage' (Function.update_self _ _ _) writes) past
  · intro u op' later is' writes' past'
    obtain ⟨rfl, rfl⟩ := mine is' past'
    have one : ReflTransGen (Works op') (s.table, stage) (table', later) := .single works
    by_cases first : stage = .entered
    · subst first
      have settled : s.Settled := by
        intro v other here isv writesv
        by_cases same : v = t
        · subst same
          cases is.symm.trans isv
          rfl
        · exact sound.entered_of_writing writing isv same
      refine ⟨s.table, (sound.validBut is runs).valid, tracks.schema_eq, tracks.settled settled, ?_,
        one⟩
      rw [← tracks.schema_eq]
      exact sound.justified t op' _ is
    · obtain ⟨start, valid, schema_eq, same, accepted, before⟩ :=
        tracks.writer t op' stage is writes' first
      exact ⟨start, valid, schema_eq, same, accepted, before.trans one⟩
  · intro u op' result is' reads
    obtain ⟨rfl, -⟩ := mine is' (by simp)
    cases writes.symm.trans reads

omit [DecidableEq T] in
/-- Beside a call that reads, no call that writes is past its first section. -/
theorem settled_of_reading (sound : s.Sound) (reading : s.lock.place t = .reading) : s.Settled := by
  intro u op' stage' is writes
  by_contra past
  have runs := sound.held u op' stage' is past
  rw [Op.held, if_pos writes] at runs
  exact sound.lock.reading_excludes_writing reading runs

/-- The next section of a call that reads. -/
theorem read (tracks : Tracks schema m s) (sound : s.Sound) (is : s.job t = some (op, stage))
    (runs : s.lock.place t = op.held) (reads : op.writes = false)
    (works : s.table.work op stage = some (table', stage')) :
    Tracks schema m { s.setJob t (some (op, stage')) with table := table' } := by
  have reading : s.lock.place t = .reading := by
    rw [runs, Op.held, if_neg (by rw [reads]; exact Bool.false_ne_true)]
  have settled := settled_of_reading sound reading
  have valid := sound.validBut is runs
  have justified := sound.justified t op stage is
  have advances := work_advances valid justified works
  have same := tracks.settled settled
  refine ⟨advances.schema_eq.trans tracks.schema_eq, fun _ => ?_, ?_, ?_⟩
  · rw [same]
    exact congrArg toMap (advances.reads reads).symm
  · intro u op' later is' writes past
    obtain ⟨-, new⟩ | ⟨-, old⟩ := job_of_update is'
    · cases new
      cases writes.symm.trans reads
    · exact absurd (settled u op' later old writes) past
  · intro u op' result is' reads'
    obtain ⟨-, new⟩ | ⟨-, old⟩ := job_of_update is'
    · cases new
      rw [same, ← tracks.schema_eq]
      exact result_of_reads valid justified reads works
    · exact tracks.reader u op' result old reads'

/-- A call returns. -/
theorem finish (tracks : Tracks schema m s) (sound : s.Sound) {result : Result}
    (is : s.job t = some (op, .returning result)) (lock : RWLock T) :
    result = (Reference.step schema m op).2 ∧
      Tracks schema (Reference.step schema m op).1 { s.setJob t none with lock } := by
  have runs := sound.held t op _ is (by simp)
  have old {u : T} {op' : Op} {stage : Stage}
      (is' : Function.update s.job t none u = some (op', stage)) :
      u ≠ t ∧ s.job u = some (op', stage) := by
    obtain ⟨-, new⟩ | kept := job_of_update is'
    · cases new
    · exact kept
  cases writes : op.writes with
  | false =>
    have reading : s.lock.place t = .reading := by
      rw [runs, Op.held, if_neg (by rw [writes]; exact Bool.false_ne_true)]
    rw [Reference.step_of_reads writes]
    refine ⟨tracks.reader t op result is writes, tracks.schema_eq,
      fun _ => tracks.settled (settled_of_reading sound reading), ?_, ?_⟩
    · exact fun u op' stage' is' => tracks.writer u op' stage' (old is').2
    · exact fun u op' result' is' => tracks.reader u op' result' (old is').2
  | true =>
    have writing : s.lock.place t = .writing := by rw [runs, Op.held, if_pos writes]
    obtain ⟨start, valid, rfl, rfl, accepted, works⟩ := tracks.writer t op _ is writes (by simp)
    have steps := step_of_works valid accepted works
    obtain ⟨table', result', steps', ⟨-, schema_eq, contents_eq⟩, answer⟩ :=
      step_simulates start.schema start _ op ⟨valid, rfl, rfl⟩
    cases steps.symm.trans steps'
    -- the others are still outside
    have outside {u : T} {op' : Op} {stage' : Stage}
        (is' : Function.update s.job t none u = some (op', stage')) : stage' = .entered :=
      sound.entered_of_writing writing (old is').2 (old is').1
    refine ⟨answer, tracks.schema_eq, fun _ => contents_eq, ?_, ?_⟩
    · exact fun u op' stage' is' _ past => absurd (outside is') past
    · intro u op' result' is'
      cases outside is'

/-- One section, and the answers it gives. -/
theorem step (tracks : Tracks schema m s) (sound : s.Sound) {a : Action T} {es : List (Return T)}
    (sees : s.watched a = some (s', es)) :
    ∃ m', Machine.runTotal (Reference.step schema) m (es.map Return.op) =
        (m', es.map Return.result) ∧ Tracks schema m' s' := by
  obtain ⟨next, steps, same⟩ := Option.map_eq_some_iff.mp sees
  obtain ⟨rfl, rfl⟩ := Prod.mk.inj same
  cases a with
  | call t op =>
    rw [Shared.step] at steps
    cases idle : s.job t with
    | some job =>
      rw [idle] at steps
      cases steps
    | none =>
      cases refused : op.refused s.table.schema with
      | some e =>
        simp only [idle, refused] at steps
        cases steps
        have answer : Reference.step schema m op = (m, .thrown e) :=
          Reference.step_of_refused (tracks.schema_eq ▸ refused)
        refine ⟨m, ?_, tracks⟩
        simp only [returns, idle, refused, List.map_cons, List.map_nil, Machine.runTotal, answer]
      | none =>
        simp only [idle, refused] at steps
        obtain ⟨lock, -, rfl⟩ := Option.map_eq_some_iff.mp steps
        refine ⟨m, ?_, tracks.relock idle op⟩
        simp only [returns, idle, refused]
        rfl
  | recheck t =>
    obtain ⟨lock, -, rfl⟩ := Option.map_eq_some_iff.mp steps
    exact ⟨m, rfl, tracks.schema_eq, tracks.settled, tracks.writer, tracks.reader⟩
  | wakeSpuriously t =>
    rw [Shared.step] at steps
    obtain ⟨lock, -, rfl⟩ := Option.map_eq_some_iff.mp steps
    exact ⟨m, rfl, tracks.schema_eq, tracks.settled, tracks.writer, tracks.reader⟩
  | work t =>
    rw [Shared.step] at steps
    cases is : s.job t with
    | none =>
      rw [is] at steps
      cases steps
    | some job =>
      obtain ⟨op, stage⟩ := job
      simp only [is, Option.ite_none_right_eq_some] at steps
      obtain ⟨runs, steps⟩ := steps
      obtain ⟨⟨table', stage'⟩, works, rfl⟩ := Option.map_eq_some_iff.mp steps
      refine ⟨m, rfl, ?_⟩
      cases writes : op.writes with
      | true => exact tracks.write sound is runs writes works
      | false => exact tracks.read sound is runs writes works
  | finish t woken =>
    rw [Shared.step] at steps
    split at steps
    case h_1 op result is =>
      obtain ⟨lock, -, rfl⟩ := Option.map_eq_some_iff.mp steps
      obtain ⟨answer, tracks'⟩ := tracks.finish sound is lock
      refine ⟨_, ?_, tracks'⟩
      simp only [returns, is, List.map_cons, List.map_nil, Machine.runTotal, answer]
    case h_2 => cases steps

end Tracks

/-- On a new table, whatever calls any number of threads make and however their sections
interleave: the calls that have returned, in the order of their returns, got the answers of
one finite map, and when no call that writes is in the middle of its body, that map is the one
under the table. -/
theorem calls_linearizable {schema : Schema} {cacheCapacity : Nat} {table : Table}
    (creates : create schema cacheCapacity = .ok table) {es : List (Return T)}
    (run : Trace.Run watched Trace.free (fresh table) es s) :
    ∃ m, Machine.runTotal (Reference.step schema) ∅ (es.map Return.op) =
        (m, es.map Return.result) ∧
      (s.Settled → toMap s.table.contents = m) := by
  obtain ⟨keyed, positive⟩ := create_eq_ok creates
  obtain ⟨table', creates', valid, schema_eq, empty⟩ := create_spec keyed positive
  cases creates.symm.trans creates'
  suffices s.Sound ∧ ∃ m, Machine.runTotal (Reference.step schema) ∅ (es.map Return.op) =
      (m, es.map Return.result) ∧ Tracks schema m s by
    obtain ⟨-, m, runs, tracks⟩ := this
    exact ⟨m, runs, fun settled => (tracks.settled settled).symm⟩
  induction run with
  | start =>
    have tracks := tracks_fresh (T := T) table
    rw [schema_eq, empty] at tracks
    exact ⟨.fresh valid, ∅, rfl, tracks⟩
  | next _ _ sees ih =>
    obtain ⟨sound, m, runs, tracks⟩ := ih
    obtain ⟨m', answers, tracks'⟩ := tracks.step sound sees
    obtain ⟨next, steps, same⟩ := Option.map_eq_some_iff.mp sees
    cases same
    refine ⟨sound.next steps, m', ?_, tracks'⟩
    rw [List.map_append, List.map_append]
    exact Machine.runTotal_append runs answers

end Shared

end Sections

section Witness

open scoped OneBucket

/-- Two lookups of one row overlap, a deletion waits for both, and an update without a
column to assign to is refused beside them. -/
theorem calls_linearizable_overlapping :
    ∃ (table : Table) (es : List (Shared.Return Nat)) (s : Shared Nat),
      create idSchema 1 = .ok table ∧
      Trace.Run Shared.watched Trace.free (Shared.fresh table) es s ∧ es.length = 5 ∧
      ∃ m, Machine.runTotal (Reference.step idSchema) ∅ (es.map Shared.Return.op) =
          (m, es.map Shared.Return.result) ∧
        (s.Settled → toMap s.table.contents = m) := by
  have runs : (((create idSchema 1).toOption.bind fun table =>
      Trace.exec Shared.watched (Shared.fresh table : Shared Nat)
        [.call 0 (.insert ((Row.blank idSchema).assign idColumn ['5'])), .work 0, .finish 0 none,
        .call 1 (.findById 5), .call 2 (.findById 5), .call 3 (.deleteById 5), .work 1, .work 2,
        .call 4 (.updateWhere (fun _ => .ok true) [("n".toList, "1".toList)]), .work 1, .work 2,
        .work 2, .finish 2 none, .work 1, .finish 1 (some 3), .recheck 3, .work 3, .work 3,
        .finish 3 none]).any fun r => r.2.length == 5) = true := by
    decide +kernel
  rw [Option.any_eq_true] at runs
  obtain ⟨⟨s, es⟩, ends, five⟩ := runs
  obtain ⟨table, creates, execs⟩ := Option.bind_eq_some_iff.mp ends
  have made : create idSchema 1 = .ok table := create_of_toOption creates
  have run := Trace.Run.start.exec execs fun _ _ _ _ => trivial
  exact ⟨table, es, s, made, run, beq_iff_eq.mp five, Shared.calls_linearizable made run⟩

end Witness

end CppDB.Table
