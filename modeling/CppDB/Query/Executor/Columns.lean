import CppDB.Query.Executor.Failure

/-! `SELECT *` leaves the printing to the row, any other `SELECT` goes through the columns it
names. On stored rows, which have a value in every column, the two print the same text when
all columns are named in order. -/
namespace CppDB.Executor

open Registry
open Table (Stored)

/-- The text of a cell in a printed row. -/
def cellText (row : Row) (column : Str) : Str :=
  match row.cell column with
  | some value => value.toString
  | none => "NULL".toList

/-- A row prints its columns in order, each under its name. -/
theorem print_eq (row : Row) :
    row.print = ", ".toList.intercalate ((row.schema.columns.map Column.name).map fun column =>
      column ++ "=".toList ++ cellText row column) := by
  rw [Row.print]
  congr 1
  apply List.ext_getElem
  · rw [List.length_map, List.length_zip, row.length_values, List.length_map, List.length_map,
      min_self]
  · intro i inside inside'
    have there : i < row.schema.columns.length := by simpa using inside'
    have held : i < row.values.length := row.length_values ▸ there
    have cell : row.cell row.schema.columns[i].name = row.values[i] := by
      have index : row.schema.columnIndex row.schema.columns[i].name = some ⟨i, there⟩ :=
        Schema.columnIndex_eq_some.mpr rfl
      rw [Row.cell_of_index index, List.getElem?_eq_getElem held, Option.join_some]
    cases value : row.values[i] with
    | none => simp only [List.getElem_map, List.getElem_zip, cellText, cell, value]
    | some v => simp only [List.getElem_map, List.getElem_zip, cellText, cell, value]

theorem formatCells_eq {row : Row} {columns : List Str}
    (set : ∀ column ∈ columns, row.has column = true) :
    formatCells row columns = .ok (columns.map fun column =>
      column ++ "=".toList ++ cellText row column) := by
  induction columns with
  | nil => rfl
  | cons column columns ih =>
    obtain ⟨here, others⟩ := List.forall_mem_cons.mp set
    obtain ⟨value, held⟩ := Option.isSome_iff_exists.mp here
    rw [formatCells, ih others, Row.get, Row.value, held, List.map_cons, cellText, held]
    rfl

/-- A complete row reads the same with all its columns asked for as with none. -/
theorem formatRow_all {row : Row} {schema : Schema} {id : Int64} (stored : Stored schema id row)
    (keyed : schema.columns ≠ []) :
    formatRow (schema.columns.map Column.name) row = formatRow [] row := by
  have set : ∀ column ∈ schema.columns.map Column.name, row.has column = true := by
    intro name there
    obtain ⟨column, listed, rfl⟩ := List.mem_map.mp there
    exact stored.complete column listed
  rw [formatRow, if_neg (by simpa using keyed), formatCells_eq set, formatRow, if_pos rfl, print_eq,
    stored.schema_eq]
  rfl

theorem formatRows_all {schema : Schema} (keyed : schema.columns ≠ []) {rows : List Row}
    (stored : ∀ row ∈ rows, ∃ id, Stored schema id row) :
    formatRows (schema.columns.map Column.name) rows = formatRows [] rows := by
  induction rows with
  | nil => rfl
  | cons row rows ih =>
    obtain ⟨⟨id, here⟩, others⟩ := List.forall_mem_cons.mp stored
    rw [formatRows, formatRow_all here keyed, ih others, formatRows]

theorem checkColumns_all (schema : Schema) : ∀ columns : List Column,
    (∀ column ∈ columns, column ∈ schema.columns) →
      checkColumns schema (columns.map Column.name) = .ok () := by
  intro columns
  induction columns with
  | nil => exact fun _ => rfl
  | cons column columns ih =>
    intro listed
    obtain ⟨here, others⟩ := List.forall_mem_cons.mp listed
    rw [List.map_cons, checkColumns,
      if_pos (Schema.hasColumn_eq_true.mpr (List.mem_map_of_mem here)), ih others]

section Databases

variable [StdHash Int64] {table : Table}

theorem columns_ne_nil (valid : table.Valid) : table.schema.columns ≠ [] := by
  intro none
  have there := Schema.hasColumn_eq_true.mp (hasColumn_id valid)
  rw [none] at there
  cases there

/-- On a table the two statements do the same and answer the same. -/
theorem runSelect_all (valid : table.Valid) (name : Str) (conditions : WhereList) :
    runSelect ⟨name, table.schema.columns.map Column.name, conditions⟩ table =
      runSelect ⟨name, [], conditions⟩ table := by
  rw [runSelect, checkColumns_all _ _ fun _ => id, runSelect, checkColumns]
  cases fetches : fetchRows table conditions with
  | mk fetched table' =>
    cases fetched with
    | error e => rfl
    | ok rows =>
      have stored : ∀ row ∈ rows, ∃ id, Stored table.schema id row := by
        intro row there
        obtain ⟨id, entry⟩ := mem_of_fetched valid (congrArg Prod.fst fetches) row there
        exact ⟨id, valid.stored _ entry⟩
      simp only [printRows, formatRows_all (columns_ne_nil valid) stored]

variable [StdHash Str] {db : Database} {name : Str}

/-- Two statements that do the same to the table under a name do the same to the database. -/
theorem exec_onTable_congr (found : db.table name = some table)
    {action action' : Table → Option (Table × Answer)}
    (safe : ∀ table : Table, table.Valid → Safe table (action table))
    (safe' : ∀ table : Table, table.Valid → Safe table (action' table))
    (same : table.Valid → action' table = action table) :
    ∃ db' answer, db.exec Database.getTable (onTable name action safe) = some (db', answer) ∧
      db.exec Database.getTable (onTable name action' safe') = some (db', answer) := by
  obtain ⟨handle, bound, reads⟩ := Option.bind_eq_some_iff.mp found
  obtain ⟨sound, held, rfl⟩ := Option.map_eq_some_iff.mp reads
  obtain ⟨table', answer, returns, valid, -⟩ := safe sound.val sound.property
  have returns' : action' sound.val = some (table', answer) :=
    (same sound.property).trans returns
  refine ⟨db.put handle ⟨table', valid⟩, answer, ?_, ?_⟩
  · simp only [onTable, Store.exec, bound, Store.act, held, Option.map_some,
      Total.keep_eq _ returns valid]
  · simp only [onTable, Store.exec, bound, Store.act, held, Option.map_some,
      Total.keep_eq _ returns' valid]

theorem execute_of_compile {query : Str} {stmt : Statement} (compiles : compile query = .ok stmt) :
    execute db query =
      (db.exec Database.getTable (run stmt)).map fun p => (p.1, reply p.2) := by
  rw [execute_eq, perform, plan, compiles]

/-- `SELECT *` from a table answers as the `SELECT` of all its columns in order, whatever
the conditions are: as statements, thrown exceptions included, and as queries, in every
character of the reply. -/
theorem select_star_eq_select_columns (found : db.table name = some table)
    (conditions : WhereList) :
    (∃ db' answer,
      db.exec Database.getTable (run (.select ⟨name, [], conditions⟩)) = some (db', answer) ∧
      db.exec Database.getTable
          (run (.select ⟨name, table.schema.columns.map Column.name, conditions⟩)) =
        some (db', answer)) ∧
      ∀ query query', compile query = .ok (.select ⟨name, [], conditions⟩) →
        compile query' =
          .ok (.select ⟨name, table.schema.columns.map Column.name, conditions⟩) →
        ∃ db' text, execute db query = some (db', text) ∧ execute db query' = some (db', text) := by
  obtain ⟨db', answer, star, columns⟩ := exec_onTable_congr found
    (fun _ valid => runSelect_safe valid ⟨name, [], conditions⟩)
    (fun _ valid => runSelect_safe valid
      ⟨name, table.schema.columns.map Column.name, conditions⟩)
    fun valid => runSelect_all valid name conditions
  refine ⟨⟨db', answer, star, columns⟩, fun query query' compiles compiles' => ?_⟩
  refine ⟨db', reply answer, ?_, ?_⟩
  · rw [execute_of_compile compiles, run, star, Option.map_some]
  · rw [execute_of_compile compiles', run, columns, Option.map_some]

end Databases

section Witness

open scoped OneBucket

/-- A text column that holds a comma, selected both ways. -/
theorem select_star_eq_select_columns_comma :
    ∃ (db : Database) (table : Table), Reachable db ∧ db.table ['t'] = some table ∧
      ∃ db' text, execute db "SELECT * FROM t WHERE id > 1".toList = some (db', text) ∧
        execute db "SELECT id, n FROM t WHERE id > 1".toList = some (db', text) := by
  have built : ((Machine.run execute Database.empty
      (["CREATE TABLE t (id INT, n TEXT)", "INSERT INTO t (id, n) VALUES (7, 'a, b')"].map
        String.toList)).map fun p => (p.1.table ['t']).map fun table =>
          table.schema.columns.map Column.name) = some (some [['i', 'd'], ['n']]) := by
    decide +kernel
  obtain ⟨⟨db, replies⟩, runs, is⟩ := Option.map_eq_some_iff.mp built
  obtain ⟨table, found, names⟩ := Option.map_eq_some_iff.mp is
  have star : compile "SELECT * FROM t WHERE id > 1".toList =
      .ok (.select ⟨['t'], [], [⟨['i', 'd'], .gt, ['1']⟩]⟩) := by decide +kernel
  have columns : compile "SELECT id, n FROM t WHERE id > 1".toList =
      .ok (.select ⟨['t'], table.schema.columns.map Column.name, [⟨['i', 'd'], .gt, ['1']⟩]⟩) := by
    rw [names]
    decide +kernel
  exact ⟨db, table, ⟨_, _, runs⟩, found,
    (select_star_eq_select_columns found _).2 _ _ star columns⟩

end Witness

end CppDB.Executor
