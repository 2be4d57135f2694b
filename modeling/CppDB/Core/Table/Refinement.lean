import CppDB.Core.Table.Coherence
import CppDB.Lib.Machine

/-! The table against a finite map from id to row that has no cache: the same answers
and exceptions over every run of the public operations. -/
namespace CppDB.Table
open Assoc

namespace Reference

/-- The rows of the map in ascending id order. -/
def rows (m : Finmap fun _ : Int64 => Row) : List Row := (ascending m).map Prod.snd

/-- The map the table stands for. A scan asks the predicate about every row of the map
before anything changes; whatever throws leaves the map as it was. -/
def step (schema : Schema) (m : Finmap fun _ : Int64 => Row) :
    Op → (Finmap fun _ : Int64 => Row) × Result
  | .insert row =>
    match checkRow schema row with
    | .error e => (m, .thrown e)
    | .ok id => if id ∈ m then (m, .flag false) else (m.insert id row, .flag true)
  | .findById id => (m, .row (m.lookup id))
  | .deleteById id => (m.erase id, .flag (decide (id ∈ m)))
  | .rowCount => (m, .count m.keys.card)
  | .selectAll => (m, .rows (rows m))
  | .selectWhere predicate => (m, .of .rows (Scan.scan predicate (rows m)))
  | .selectIdRange lo hi =>
    (m, .rows (((ascending m).filter fun entry => lo ≤ entry.1 ∧ entry.1 ≤ hi).map Prod.snd))
  | .deleteWhere predicate =>
    match Scan.scan predicate (rows m) with
    | .error e => (m, .thrown e)
    | .ok doomed =>
      (toMap ((ascending m).filter fun entry => !keeps predicate entry), .count doomed.length)
  | .updateWhere predicate assignments =>
    match checkAssignments schema assignments with
    | .error e => (m, .thrown e)
    | .ok () =>
      match Scan.scan predicate (rows m) with
      | .error e => (m, .thrown e)
      | .ok matched =>
        (toMap ((ascending m).map fun entry =>
          if keeps predicate entry then (entry.1, entry.2.assignAll assignments) else entry),
          .count matched.length)

theorem step_thrown {schema : Schema} {m : Finmap fun _ : Int64 => Row} {op : Op} {e : Exn}
    (throws : (step schema m op).2 = .thrown e) : (step schema m op).1 = m := by
  cases op with
  | insert row =>
    simp only [step] at throws ⊢
    split at throws
    · rfl
    · split at throws <;> cases throws
  | findById id => cases throws
  | deleteById id => cases throws
  | rowCount => cases throws
  | selectAll => rfl
  | selectWhere predicate => rfl
  | selectIdRange lo hi => rfl
  | deleteWhere predicate =>
    simp only [step] at throws ⊢
    split at throws
    · rfl
    · cases throws
  | updateWhere predicate assignments =>
    simp only [step] at throws ⊢
    split at throws
    · rfl
    · split at throws
      · rfl
      · cases throws

end Reference

section Simulation
variable [StdHash Int64]

/-- A valid table over the schema, and the map its stored pairs denote. -/
def Represents (schema : Schema) (table : Table) (m : Finmap fun _ : Int64 => Row) : Prop :=
  table.Valid ∧ table.schema = schema ∧ m = toMap table.contents

/-- Scanning the entries is scanning their rows. -/
theorem matching_map (table : Table) (predicate : Predicate) :
    (table.matching predicate).map (List.map Prod.snd) =
      Scan.scan predicate (Reference.rows (toMap table.contents)) := by
  rw [matching_eq, Reference.rows, ascending_toMap table.ascending_contents, Scan.scan_map]
  rfl

theorem step_insert {table : Table} (valid : table.Valid) (row : Row) :
    ∃ table' r, step table (.insert row) = some (table', r) ∧
      Represents table.schema table'
        (Reference.step table.schema (toMap table.contents) (.insert row)).1 ∧
      r = (Reference.step table.schema (toMap table.contents) (.insert row)).2 := by
  refine ⟨(table.insert row).2, .of .flag (table.insert row).1, rfl,
    ⟨valid.insert row, ?_, ?_⟩, ?_⟩
  all_goals
    cases checks : checkRow table.schema row with
    | error e => simp only [insert_of_error checks, Reference.step, checks, Result.of]
    | ok id => ?_
  · simp only [insert, checks]
  · obtain ⟨_, contents_eq⟩ := insert_of_ok checks
    rw [contents_eq]
    by_cases present : id ∈ keys table.contents
    · simp [Reference.step, checks, mem_toMap, present, BTree.inserted]
    · simp [Reference.step, checks, mem_toMap, present, BTree.inserted,
        toMap_insertAscending table.ascending_contents present]
  · obtain ⟨flag_eq, _⟩ := insert_of_ok checks
    rw [flag_eq]
    by_cases present : id ∈ keys table.contents <;>
      simp [Reference.step, checks, mem_toMap, present, Result.of]

theorem step_simulates (schema : Schema) :
    Machine.Simulates step (Reference.step schema) (Represents schema) Eq := by
  rintro table m op ⟨valid, rfl, rfl⟩
  have sorted := ascending_toMap table.ascending_contents
  cases op with
  | insert row => exact step_insert valid row
  | findById id =>
    obtain ⟨answer, valid', schema_eq, contents_eq⟩ := valid.findById id
    refine ⟨(table.findById id).2, .row (table.findById id).1, rfl, ⟨valid', schema_eq, ?_⟩, ?_⟩
    · rw [contents_eq]
      rfl
    · rw [answer, Reference.step, lookup_toMap]
  | deleteById id =>
    obtain ⟨answer, schema_eq, contents_eq⟩ := deleteById_spec table id
    refine ⟨(table.deleteById id).2, .flag (table.deleteById id).1, rfl,
      ⟨valid.deleteById id, schema_eq, ?_⟩, ?_⟩
    · rw [contents_eq, toMap_without]
      rfl
    · rw [answer]
      simp [Reference.step, mem_toMap]
  | rowCount =>
    refine ⟨table, .count table.rowCount, rfl, ⟨valid, rfl, rfl⟩, ?_⟩
    rw [rowCount, BTree.Sound.size_eq, Reference.step, ← contents,
      card_toMap table.ascending_contents.nodup]
  | selectAll =>
    refine ⟨table, .of .rows table.selectAll, rfl, ⟨valid, rfl, rfl⟩, ?_⟩
    rw [selectAll, selectWhere, matching_map, Scan.scan_of_total (fun _ _ => ⟨true, rfl⟩)]
    simp [Result.of, Reference.step, Scan.holds]
  | selectWhere predicate =>
    refine ⟨table, .of .rows (table.selectWhere predicate), rfl, ⟨valid, rfl, rfl⟩, ?_⟩
    rw [selectWhere, matching_map, Reference.step]
  | selectIdRange lo hi =>
    refine ⟨table, .rows (table.selectIdRange lo hi), rfl, ⟨valid, rfl, rfl⟩, ?_⟩
    rw [selectIdRange, BTree.Sound.forEachRange_eq, Reference.step, sorted]
    rfl
  | deleteWhere predicate =>
    have scan := matching_map table predicate
    refine ⟨(table.deleteWhere predicate).2, .of .count (table.deleteWhere predicate).1, rfl, ?_⟩
    cases scans : table.matching predicate with
    | error e =>
      rw [scans] at scan
      simp only [Reference.step, ← scan, Except.map, deleteWhere_of_error scans, Result.of, and_true]
      exact ⟨valid, rfl, rfl⟩
    | ok doomed =>
      rw [scans] at scan
      obtain ⟨answer, schema_eq, contents_eq⟩ := deleteWhere_of_ok scans
      simp only [Reference.step, ← scan, Except.map, answer, Result.of, List.length_map, and_true]
      refine ⟨valid.deleteWhere predicate, schema_eq, ?_⟩
      rw [contents_eq, sorted]
  | updateWhere predicate assignments =>
    have scan := matching_map table predicate
    cases checks : checkAssignments table.schema assignments with
    | error e =>
      refine ⟨table, .thrown e, ?_, ?_⟩
      · simp only [step, updateWhere, checks, Option.bind_eq_bind, Option.bind_some]
        rfl
      · simp only [Reference.step, checks, and_true]
        exact ⟨valid, rfl, rfl⟩
    | ok =>
      cases scans : table.matching predicate with
      | error e =>
        rw [scans] at scan
        refine ⟨table, .thrown e, ?_, ?_⟩
        · simp only [step, updateWhere, checks, scans, Option.bind_eq_bind, Option.bind_some]
          rfl
        · simp only [Reference.step, checks, ← scan, Except.map, and_true]
          exact ⟨valid, rfl, rfl⟩
      | ok matched =>
        rw [scans] at scan
        obtain ⟨table', updates, valid', schema_eq, contents_eq⟩ := valid.updateWhere checks scans
        refine ⟨table', .count matched.length, ?_, ?_⟩
        · simp only [step, updates, Option.bind_eq_bind, Option.bind_some]
          rfl
        · simp only [Reference.step, checks, ← scan, Except.map, List.length_map, and_true]
          refine ⟨valid', schema_eq, ?_⟩
          rw [contents_eq, sorted]

/-- From a fresh table over any schema with a primary key and with any cache, every run
answers as the cache-less map does and ends with the map's rows stored; a call that
throws then leaves the stored rows as they are. -/
theorem table_refines_map (schema : Schema) (keyed : hasPrimaryKey schema = true)
    {cacheCapacity : Nat} (positive : 1 ≤ cacheCapacity) (ops : List Op) :
    ∃ start table, create schema cacheCapacity = .ok start ∧
      Machine.run step start ops =
        some (table, (Machine.runTotal (Reference.step schema) ∅ ops).2) ∧
      table.contents = ascending (Machine.runTotal (Reference.step schema) ∅ ops).1 ∧
      ∀ op table' e, step table op = some (table', .thrown e) →
        table'.contents = table.contents := by
  obtain ⟨start, creates, valid, schema_eq, empty⟩ := create_spec keyed positive
  have initial : Represents schema start ∅ := ⟨valid, schema_eq, by rw [empty]; rfl⟩
  obtain ⟨table, runs, related⟩ := (step_simulates schema).run_eq ops initial
  refine ⟨start, table, creates, runs, ?_, ?_⟩
  · rw [related.2.2, ascending_toMap table.ascending_contents]
  · intro op table' e throws
    obtain ⟨table'', r, steps, related', agrees⟩ := step_simulates schema table _ op related
    cases steps.symm.trans throws
    rw [Reference.step_thrown agrees.symm, related.2.2] at related'
    have same := congrArg ascending related'.2.2
    rwa [ascending_toMap table.ascending_contents, ascending_toMap table'.ascending_contents,
      eq_comm] at same

/-- Every run from a table that was constructed ends, in a valid table over its schema. -/
theorem run_valid {schema : Schema} {cacheCapacity : Nat} {start : Table}
    (creates : create schema cacheCapacity = .ok start) (ops : List Op) :
    ∃ table answers, Machine.run step start ops = some (table, answers) ∧ table.Valid ∧
      table.schema = schema := by
  obtain ⟨keyed, positive⟩ := create_eq_ok creates
  obtain ⟨start', creates', valid, schema_eq, empty⟩ := create_spec keyed positive
  cases creates.symm.trans creates'
  have initial : Represents schema start ∅ := ⟨valid, schema_eq, by rw [empty]; rfl⟩
  obtain ⟨table, runs, related⟩ := (step_simulates schema).run_eq ops initial
  exact ⟨table, _, runs, related.1, related.2.1⟩

/-- The tables the public interface can produce. -/
def Reachable (table : Table) : Prop :=
  ∃ schema cacheCapacity start ops answers, create schema cacheCapacity = .ok start ∧
    Machine.run step start ops = some (table, answers)

theorem Reachable.valid {table : Table} (reachable : table.Reachable) : table.Valid := by
  obtain ⟨schema, cacheCapacity, start, ops, answers, creates, runs⟩ := reachable
  obtain ⟨table', answers', runs', valid, -⟩ := run_valid creates ops
  cases runs.symm.trans runs'
  exact valid

theorem reachable_of_run {schema : Schema} {cacheCapacity : Nat} {ops : List Op} {table : Table}
    {answers : List Result}
    (runs : ((create schema cacheCapacity).toOption.bind fun start => Machine.run step start ops) =
      some (table, answers)) :
    table.Reachable ∧ table.schema = schema := by
  obtain ⟨start, creates, runs⟩ := Option.bind_eq_some_iff.mp runs
  replace creates := create_of_toOption creates
  obtain ⟨table', answers', runs', -, schema_eq⟩ := run_valid creates ops
  cases runs.symm.trans runs'
  exact ⟨⟨schema, cacheCapacity, start, ops, answers, creates, runs⟩, schema_eq⟩

end Simulation

section Witness

open scoped OneBucket

/-- A table of ids only. -/
def idSchema : Schema := ⟨[⟨idColumn, .int⟩], by decide, by decide⟩

/-- An id and a text. -/
def nameSchema : Schema := ⟨[⟨idColumn, .int⟩, ⟨"name".toList, .text⟩], by decide, by decide⟩

def nameRow (id name : Str) : Row :=
  ((Row.blank nameSchema).assign idColumn id).assign "name".toList name

/-- Beside a cache for one row: a miss, a hit, a miss that evicts, and two changes that drop
what was cached. -/
def turnover : List Op :=
  [.insert (nameRow ['5'] ['A']), .insert (nameRow ['6'] ['B']), .insert (nameRow ['5'] ['C']),
    .findById 5, .findById 5, .findById 6, .updateWhere (fun _ => .ok true) [("name".toList, ['D'])],
    .findById 6, .deleteById 6, .findById 6, .selectAll]

theorem table_refines_map_tiny_cache :
    ∃ start table, create nameSchema 1 = .ok start ∧
      Machine.run step start turnover =
        some (table, (Machine.runTotal (Reference.step nameSchema) ∅ turnover).2) ∧
      table.contents = ascending (Machine.runTotal (Reference.step nameSchema) ∅ turnover).1 ∧
      (table.cache.val.hits, table.cache.val.misses) = (1, 4) ∧
      ∀ op table' e, step table op = some (table', .thrown e) →
        table'.contents = table.contents := by
  obtain ⟨start, table, creates, runs, contents, thrown⟩ :=
    table_refines_map nameSchema (by decide) (by decide : 1 ≤ 1) turnover
  refine ⟨start, table, creates, runs, contents, ?_, thrown⟩
  have counts : ((create nameSchema 1).toOption.bind fun start =>
      (Machine.run step start turnover).map fun ended =>
        (ended.1.cache.val.hits, ended.1.cache.val.misses)) = some (1, 4) := by
    decide +kernel
  rw [creates, Except.toOption, Option.bind_some, runs, Option.map_some] at counts
  exact Option.some.inj counts

end Witness

end CppDB.Table
