import CppDB.Query.Executor.Meaning

/-! The statements on one table: what `run` of `query/query_executor.cpp` does with the
handle it has looked up. -/
namespace CppDB.Executor

open Assoc
open Table (idColumn)

/-- The text a statement returns, or the exception it throws. -/
abbrev Answer := Except Exn Str

def done : Str := "OK".toList

/-- `3 rows`, `1 row`. -/
def rowsSuffix (n : Nat) : Str := decimal n ++ if n = 1 then " row".toList else " rows".toList

def duplicateId (id : Int64) (table : Str) : Exn :=
  .queryError ("duplicate id ".toList ++ numeral id ++ " in table '".toList ++ table ++ "'".toList)

/-- The calls of `set` in order, up to the first that throws. -/
def fillRow (row : Row) : List (Str × Str) → Except Exn Row
  | [] => .ok row
  | (column, value) :: rest => do
    let row ← row.set column value
    fillRow row rest

/-- The row of an `INSERT` and its id. -/
def buildRow (row : Row) (stmt : InsertStatement) : Except Exn (Row × Int64) := do
  let row ← fillRow row (stmt.columns.zip stmt.values)
  let id ← row.getInt idColumn
  return (row, id)

def checkColumns (schema : Schema) : List Str → Except Exn Unit
  | [] => .ok ()
  | column :: rest =>
    if schema.hasColumn column then checkColumns schema rest else .error (noSuchColumn column)

/-- `name=value` for each column asked for. -/
def formatCells (row : Row) : List Str → Except Exn (List Str)
  | [] => .ok []
  | column :: rest => do
    let value ← row.get column
    let cells ← formatCells row rest
    return (column ++ "=".toList ++ value) :: cells

def formatRow (columns : List Str) (row : Row) : Except Exn Str :=
  if columns = [] then .ok row.print
  else (formatCells row columns).map (", ".toList.intercalate ·)

def formatRows (columns : List Str) : List Row → Except Exn Str
  | [] => .ok []
  | row :: rest => do
    let line ← formatRow columns row
    let lines ← formatRows columns rest
    return line ++ "\n".toList ++ lines

def noRows : Str := "(0 rows)".toList

def footer (n : Nat) : Str := "(".toList ++ rowsSuffix n ++ ")".toList

/-- The reply to a `SELECT`: a line per row and their number. -/
def printRows (columns : List Str) (rows : List Row) : Answer :=
  if rows = [] then .ok noRows
  else (formatRows columns rows).map (· ++ footer rows.length)

/-- The predicate of an `UPDATE` or a `DELETE`. -/
def predicateFor (schema : Schema) (conditions : WhereList) : Except Exn Predicate :=
  if conditions = [] then .ok fun _ => .ok true else makeConjunction schema conditions

/-- `catch (const std::invalid_argument& e) { throw QueryError(e.what()); }` -/
def rethrow : Exn → Exn
  | .invalidArgument message => .queryError (Exn.what (.invalidArgument message))
  | e => e

def updatedReply (n : Nat) : Str := "OK (".toList ++ rowsSuffix n ++ " updated)".toList

def deletedReply (n : Nat) : Str := "OK (".toList ++ rowsSuffix n ++ " deleted)".toList

/-- The id of a `DELETE` whose only condition is `id = literal`. -/
def pointDelete : WhereList → Option Int64
  | [clause] =>
    if clause.column = idColumn && clause.op = .eq && isValidValueFor .int clause.value then
      some (parseInt clause.value)
    else none
  | _ => none

variable [StdHash Int64]

def runInsert (stmt : InsertStatement) (table : Table) : Option (Table × Answer) :=
  match buildRow table.makeRow stmt with
  | .error e => some (table, .error e)
  | .ok (row, id) =>
    match table.insert row with
    | (.error e, table) => some (table, .error e)
    | (.ok true, table) => some (table, .ok done)
    | (.ok false, table) => some (table, .error (duplicateId id stmt.table))

def runSelect (stmt : SelectStatement) (table : Table) : Option (Table × Answer) :=
  match checkColumns table.schema stmt.columns with
  | .error e => some (table, .error e)
  | .ok () =>
    match fetchRows table stmt.conditions with
    | (.error e, table) => some (table, .error e)
    | (.ok rows, table) => some (table, printRows stmt.columns rows)

def runUpdate (stmt : UpdateStatement) (table : Table) : Option (Table × Answer) :=
  match predicateFor table.schema stmt.conditions with
  | .error e => some (table, .error e)
  | .ok predicate => do
    let (updated, table) ← table.updateWhere predicate stmt.assignments
    match updated with
    | .error e => return (table, .error (rethrow e))
    | .ok n => return (table, .ok (updatedReply n))

def runDelete (stmt : DeleteStatement) (table : Table) : Option (Table × Answer) :=
  match pointDelete stmt.conditions with
  | some id =>
    let (removed, table) := table.deleteById id
    some (table, .ok (deletedReply (if removed then 1 else 0)))
  | none =>
    match predicateFor table.schema stmt.conditions with
    | .error e => some (table, .error e)
    | .ok predicate =>
      let (deleted, table) := table.deleteWhere predicate
      some (table, deleted.map deletedReply)

/-! ### What every statement keeps -/

/-- The call returns and keeps the table's invariant and schema; if it throws, it keeps the
stored rows as well. -/
def Safe (table : Table) (call : Option (Table × Answer)) : Prop :=
  ∃ table' answer, call = some (table', answer) ∧ table'.Valid ∧ table'.schema = table.schema ∧
    ∀ e, answer = .error e → table'.contents = table.contents

variable {table : Table}

theorem runInsert_safe (valid : table.Valid) (stmt : InsertStatement) :
    Safe table (runInsert stmt table) := by
  cases builds : buildRow table.makeRow stmt with
  | error e => exact ⟨table, .error e, by simp only [runInsert, builds], valid, rfl, fun _ _ => rfl⟩
  | ok built =>
    obtain ⟨row, id⟩ := built
    cases checks : Table.checkRow table.schema row with
    | error e =>
      refine ⟨table, .error e, ?_, valid, rfl, fun _ _ => rfl⟩
      simp only [runInsert, builds, Table.insert_of_error checks]
    | ok key =>
      obtain ⟨flag, contents_eq⟩ := Table.insert_of_ok checks
      have schema_eq : (table.insert row).2.schema = table.schema := by
        simp only [Table.insert, checks]
      have answers : table.insert row = (.ok _, (table.insert row).2) := Prod.ext flag rfl
      by_cases present : key ∈ keys table.contents
      · rw [decide_eq_false (not_not.mpr present)] at answers
        refine ⟨(table.insert row).2, .error (duplicateId id stmt.table), ?_, valid.insert row,
          schema_eq, fun _ _ => ?_⟩
        · rw [runInsert, builds]
          dsimp only
          rw [answers]
        · rw [contents_eq, BTree.inserted, if_pos present]
      · rw [decide_eq_true present] at answers
        refine ⟨(table.insert row).2, .ok done, ?_, valid.insert row, schema_eq, ?_⟩
        · rw [runInsert, builds]
          dsimp only
          rw [answers]
        · rintro e ⟨⟩

theorem runSelect_safe (valid : table.Valid) (stmt : SelectStatement) :
    Safe table (runSelect stmt table) := by
  obtain ⟨valid', schema_eq, contents_eq⟩ := fetchRows_state valid stmt.conditions
  simp only [runSelect]
  split
  · exact ⟨table, _, rfl, valid, rfl, fun _ _ => rfl⟩
  · split
    · rename_i fetched
      rw [fetched] at valid' schema_eq contents_eq
      exact ⟨_, _, rfl, valid', schema_eq, fun _ _ => contents_eq⟩
    · rename_i fetched
      rw [fetched] at valid' schema_eq contents_eq
      exact ⟨_, _, rfl, valid', schema_eq, fun _ _ => contents_eq⟩

/-- Whatever `updateWhere` answers, it returns on a valid table. -/
theorem updateWhere_safe (valid : table.Valid) (predicate : Predicate) (assignments : Assignments) :
    ∃ updated table', table.updateWhere predicate assignments = some (updated, table') ∧
      table'.Valid ∧ table'.schema = table.schema ∧
      ∀ e, updated = .error e → table'.contents = table.contents := by
  cases checks : Table.checkAssignments table.schema assignments with
  | error e =>
    exact ⟨.error e, table, by simp only [Table.updateWhere, checks], valid, rfl, fun _ _ => rfl⟩
  | ok =>
    cases scans : table.matching predicate with
    | error e =>
      exact ⟨.error e, table, by simp only [Table.updateWhere, checks, scans], valid, rfl,
        fun _ _ => rfl⟩
    | ok matched =>
      obtain ⟨table', updates, valid', schema_eq, -⟩ := valid.updateWhere checks scans
      refine ⟨.ok matched.length, table', updates, valid', schema_eq, ?_⟩
      rintro e ⟨⟩

theorem runUpdate_safe (valid : table.Valid) (stmt : UpdateStatement) :
    Safe table (runUpdate stmt table) := by
  cases compiles : predicateFor table.schema stmt.conditions with
  | error e =>
    exact ⟨table, .error e, by simp only [runUpdate, compiles], valid, rfl, fun _ _ => rfl⟩
  | ok predicate =>
    obtain ⟨updated, table', updates, valid', schema_eq, unchanged⟩ :=
      updateWhere_safe valid predicate stmt.assignments
    cases updated with
    | error e =>
      refine ⟨table', .error (rethrow e), ?_, valid', schema_eq, fun _ _ => unchanged e rfl⟩
      simp only [runUpdate, compiles, updates, Option.bind_eq_bind, Option.bind_some]
      rfl
    | ok n =>
      refine ⟨table', .ok (updatedReply n), ?_, valid', schema_eq, ?_⟩
      · simp only [runUpdate, compiles, updates, Option.bind_eq_bind, Option.bind_some]
        rfl
      · rintro e ⟨⟩

theorem runDelete_safe (valid : table.Valid) (stmt : DeleteStatement) :
    Safe table (runDelete stmt table) := by
  cases point : pointDelete stmt.conditions with
  | some id =>
    refine ⟨(table.deleteById id).2, _, by simp only [runDelete, point]; rfl, valid.deleteById id,
      (Table.deleteById_spec table id).2.1, ?_⟩
    rintro e ⟨⟩
  | none =>
    cases compiles : predicateFor table.schema stmt.conditions with
    | error e =>
      exact ⟨table, .error e, by simp only [runDelete, point, compiles], valid, rfl, fun _ _ => rfl⟩
    | ok predicate =>
      cases scans : table.matching predicate with
      | error e =>
        refine ⟨table, .error e, ?_, valid, rfl, fun _ _ => rfl⟩
        simp only [runDelete, point, compiles, Table.deleteWhere_of_error scans]
        rfl
      | ok doomed =>
        obtain ⟨answer, schema_eq, -⟩ := Table.deleteWhere_of_ok scans
        refine ⟨(table.deleteWhere predicate).2, .ok (deletedReply doomed.length), ?_,
          valid.deleteWhere predicate, schema_eq, ?_⟩
        · simp only [runDelete, point, compiles, answer]
          rfl
        · rintro e ⟨⟩

end CppDB.Executor
