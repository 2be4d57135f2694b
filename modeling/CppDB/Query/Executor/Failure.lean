import CppDB.Query.Executor.Agreement
import CppDB.Query.Executor.Execute

/-! A failed query changes nothing, and only a failed query is answered as one. -/
namespace CppDB.Executor

open Registry Lexer

/-! ### Replies that are no errors -/

/-- The text does not read as an error. -/
def NotError (text : Str) : Prop := ¬ errorTag <+: text

theorem notError_of_head {c : Char} {rest : Str} (other : c ≠ 'E') : NotError (c :: rest) := by
  rintro ⟨behind, same⟩
  exact other (List.cons.inj same).1.symm

theorem intercalate_cons (sep first : Str) (others : List Str) :
    ∃ rest, sep.intercalate (first :: others) = first ++ rest := by
  cases others with
  | nil => exact ⟨[], by simp [List.intercalate]⟩
  | cons second others => exact ⟨_, by simp [List.intercalate, List.intersperse]; rfl⟩

/-- The names of the columns are words, as those of a `CREATE TABLE` are. -/
def Worded (schema : Schema) : Prop :=
  ∀ column ∈ schema.columns, ∀ c ∈ column.name, isIdentChar c

theorem word_of_hasColumn {schema : Schema} (worded : Worded schema) {name : Str}
    (known : schema.hasColumn name) : ∀ c ∈ name, isIdentChar c := by
  obtain ⟨column, there, rfl⟩ := List.mem_map.mp (Schema.hasColumn_eq_true.mp known)
  exact worded column there

/-- The text begins with the name of a column and an equal sign. -/
def BeginsNamed (text : Str) : Prop :=
  ∃ name rest, text = name ++ '=' :: rest ∧ ∀ c ∈ name, isIdentChar c

theorem BeginsNamed.append {text : Str} (begins : BeginsNamed text) (behind : Str) :
    BeginsNamed (text ++ behind) := by
  obtain ⟨name, rest, rfl, word⟩ := begins
  exact ⟨name, rest ++ behind, by rw [List.append_assoc, List.cons_append], word⟩

/-- Behind its letters comes the equal sign. -/
theorem BeginsNamed.dropWhile {text : Str} (begins : BeginsNamed text) :
    ∃ rest, text.dropWhile isIdentChar = '=' :: rest := by
  obtain ⟨name, rest, rfl, word⟩ := begins
  refine ⟨rest, ?_⟩
  rw [List.dropWhile_append_of_pos word]
  rfl

/-- The tag of an error has a colon behind its letters. -/
theorem BeginsNamed.notError {text : Str} (begins : BeginsNamed text) : NotError text := by
  obtain ⟨rest, drops⟩ := begins.dropWhile
  rintro ⟨behind, rfl⟩
  cases drops

/-- A list of cells begins as its first cell does. -/
theorem beginsNamed_intercalate {sep cell : Str} {cells : List Str} (begins : BeginsNamed cell) :
    BeginsNamed (sep.intercalate (cell :: cells)) := by
  obtain ⟨rest, same⟩ := intercalate_cons sep cell cells
  exact same ▸ begins.append rest

theorem beginsNamed_cell {name value : Str} (word : ∀ c ∈ name, isIdentChar c) :
    BeginsNamed (name ++ "=".toList ++ value) :=
  ⟨name, value, List.append_assoc .., word⟩

theorem beginsNamed_print {row : Row} (worded : Worded row.schema) {name : Str}
    (known : row.schema.hasColumn name) : BeginsNamed row.print := by
  have length := row.length_values
  cases columns : row.schema.columns with
  | nil =>
    have there := Schema.hasColumn_eq_true.mp known
    rw [columns] at there
    contradiction
  | cons column others =>
    cases values : row.values with
    | nil =>
      rw [columns, values] at length
      contradiction
    | cons value rest =>
      rw [Row.print, columns, values, List.zip_cons_cons, List.map_cons]
      exact beginsNamed_intercalate
        (beginsNamed_cell (worded column (columns ▸ List.mem_cons_self ..)))

theorem beginsNamed_formatRow {row : Row} {columns : List Str} {line : Str}
    (worded : Worded row.schema) (keyed : row.schema.hasColumn Table.idColumn)
    (known : ∀ column ∈ columns, row.schema.hasColumn column)
    (formats : formatRow columns row = .ok line) : BeginsNamed line := by
  cases columns with
  | nil =>
    cases formats
    exact beginsNamed_print worded keyed
  | cons column others =>
    rw [formatRow, if_neg (List.cons_ne_nil _ _), formatCells] at formats
    cases gets : row.get column with
    | error e =>
      rw [gets] at formats
      cases formats
    | ok value =>
      cases others' : formatCells row others with
      | error e =>
        rw [gets, others'] at formats
        cases formats
      | ok cells =>
        rw [gets, others'] at formats
        cases formats
        exact beginsNamed_intercalate
          (beginsNamed_cell (word_of_hasColumn worded (known column (List.mem_cons_self ..))))

theorem notError_printRows {rows : List Row} {columns : List Str} {text : Str} {schema : Schema}
    (worded : Worded schema) (keyed : schema.hasColumn Table.idColumn)
    (known : ∀ column ∈ columns, schema.hasColumn column) (alike : ∀ row ∈ rows, row.schema = schema)
    (prints : printRows columns rows = .ok text) : NotError text := by
  cases rows with
  | nil =>
    cases prints
    exact notError_of_head (by decide)
  | cons row rest =>
    obtain rfl := alike row (List.mem_cons_self ..)
    rw [printRows, if_neg (List.cons_ne_nil _ _), formatRows] at prints
    cases formats : formatRow columns row with
    | error e =>
      rw [formats] at prints
      cases prints
    | ok line =>
      cases others : formatRows columns rest with
      | error e =>
        rw [formats, others] at prints
        cases prints
      | ok lines =>
        rw [formats, others] at prints
        cases prints
        have begins := beginsNamed_formatRow worded keyed known formats
        exact (((begins.append _).append _).append _).notError

theorem known_of_checkColumns {schema : Schema} {columns : List Str}
    (checks : checkColumns schema columns = .ok ()) :
    ∀ column ∈ columns, schema.hasColumn column := by
  induction columns with
  | nil => exact fun _ none => by cases none
  | cons column rest ih =>
    rw [checkColumns] at checks
    split_ifs at checks with known
    exact List.forall_mem_cons.mpr ⟨known, ih checks⟩

section Tables

variable [StdHash Int64] {table table' : Table} {text : Str}

theorem hasColumn_id (valid : table.Valid) : table.schema.hasColumn Table.idColumn := by
  have keyed := valid.keyed
  rw [Table.hasPrimaryKey] at keyed
  rw [Schema.hasColumn]
  split at keyed
  · rename_i found
    rw [found]
    rfl
  · contradiction

/-- The rows of a fetch are rows of the table. -/
theorem mem_of_fetched (valid : table.Valid) {conditions : WhereList} {rows : List Row}
    (fetches : (fetchRows table conditions).1 = .ok rows) :
    ∀ row ∈ rows, ∃ id, (id, row) ∈ table.contents := by
  by_cases good : ∀ clause ∈ conditions, clause.WellFormed table.schema
  · rw [fetchRows_of_wellFormed valid good] at fetches
    cases fetches
    intro row chosen
    obtain ⟨entry, kept, rfl⟩ := List.mem_map.mp chosen
    exact ⟨entry.1, (List.mem_filter.mp kept).1⟩
  · push Not at good
    obtain ⟨e, fails⟩ := fetchRows_of_not_wellFormed valid good
    cases fails.symm.trans fetches

theorem schema_of_fetched (valid : table.Valid) {conditions : WhereList} {rows : List Row}
    (fetches : (fetchRows table conditions).1 = .ok rows) :
    ∀ row ∈ rows, row.schema = table.schema := by
  intro row there
  obtain ⟨id, stored⟩ := mem_of_fetched valid fetches row there
  exact (valid.stored _ stored).schema_eq

theorem notError_runSelect (valid : table.Valid) (worded : Worded table.schema)
    {stmt : SelectStatement} (runs : runSelect stmt table = some (table', .ok text)) :
    NotError text := by
  rw [runSelect] at runs
  split at runs
  · cases runs
  · rename_i checks
    split at runs
    · cases runs
    · rename_i rows table'' fetches
      obtain ⟨rfl, prints⟩ := Prod.mk.inj (Option.some.inj runs)
      exact notError_printRows worded (hasColumn_id valid) (known_of_checkColumns checks)
        (schema_of_fetched valid (congrArg Prod.fst fetches)) prints

theorem notError_runInsert {stmt : InsertStatement}
    (runs : runInsert stmt table = some (table', .ok text)) : NotError text := by
  rw [runInsert] at runs
  split at runs
  · cases runs
  · split at runs
    · cases runs
    · cases runs
      exact notError_of_head (by decide)
    · cases runs

theorem notError_runUpdate {stmt : UpdateStatement}
    (runs : runUpdate stmt table = some (table', .ok text)) : NotError text := by
  rw [runUpdate] at runs
  split at runs
  · cases runs
  · rename_i predicate _
    cases updates : table.updateWhere predicate stmt.assignments with
    | none =>
      rw [updates] at runs
      cases runs
    | some answer =>
      rw [updates] at runs
      obtain ⟨updated, table''⟩ := answer
      cases updated with
      | error e => cases runs
      | ok n =>
        cases runs
        exact notError_of_head (by decide)

theorem notError_runDelete {stmt : DeleteStatement}
    (runs : runDelete stmt table = some (table', .ok text)) : NotError text := by
  rw [runDelete] at runs
  split at runs
  · cases runs
    exact notError_of_head (by decide)
  · split at runs
    · cases runs
    · rename_i predicate _
      cases deletes : (table.deleteWhere predicate).1 with
      | error e =>
        simp only [deletes] at runs
        cases runs
      | ok n =>
        simp only [deletes] at runs
        cases runs
        exact notError_of_head (by decide)

end Tables

/-! ### One query -/

theorem worded_addColumns {definitions : List ColumnDef} {schema schema' : Schema}
    (words : ∀ definition ∈ definitions, ∀ c ∈ definition.name, isIdentChar c)
    (worded : Worded schema) (adds : addColumns schema definitions = .ok schema') :
    Worded schema' := by
  induction definitions generalizing schema with
  | nil =>
    cases adds
    exact worded
  | cons definition rest ih =>
    rw [addColumns] at adds
    obtain ⟨here, others⟩ := List.forall_mem_cons.mp words
    cases first : schema.addColumn definition.name definition.type with
    | error e =>
      rw [first] at adds
      cases adds
    | ok schema₁ =>
      rw [first] at adds
      refine ih others ?_ adds
      rw [Schema.addColumn] at first
      split_ifs at first
      cases first
      intro column there
      obtain there | there := List.mem_append.mp there
      · exact worded column there
      · rw [List.mem_singleton.mp there]
        exact here

section Databases

variable [StdHash Str] [StdHash Int64] {db db' : Database}

/-- The databases queries can make: every name leads to a table of its own, and the names
of columns are words. -/
structure Sane (db : Database) : Prop where
  named : WellNamed Database.getTable db
  worded : ∀ table ∈ db.heap, Worded table.val.schema

/-- What a query promises: if it throws, every table is stored as before, and if it does
not, its text is no error. -/
def Fine (db : Database) (call : Option (Database × Answer)) : Prop :=
  ∃ db' answer, call = some (db', answer) ∧ (∀ table ∈ db'.heap, Worded table.val.schema) ∧
    (∀ e, answer = .error e → ∀ name, db'.stored name = db.stored name) ∧
    ∀ text, answer = .ok text → NotError text

theorem fine_of_error (sane : Sane db) (e : Exn) : Fine db (some (db, .error e)) :=
  ⟨db, .error e, rfl, sane.worded, fun _ _ _ => rfl, fun _ impossible => by cases impossible⟩

theorem stored_congr (sameNames : ∀ name,
      Database.getTable db'.catalog name = Database.getTable db.catalog name)
    (sameHeap : db'.heap = db.heap) (name : Str) : db'.stored name = db.stored name := by
  rw [Database.stored, Database.stored, Database.table, Database.table, sameNames, sameHeap]

theorem stored_put {handle : Nat} {table : Table.Sound} (table' : Table.Sound)
    (held : db.heap[handle]? = some table)
    (sameSchema : table'.val.schema = table.val.schema)
    (sameContents : table'.val.contents = table.val.contents) (name : Str) :
    Database.stored (db.put handle table') name = db.stored name := by
  rw [Database.stored, Database.stored, Database.table, Database.table]
  cases found : Database.getTable db.catalog name with
  | none => simp only [Store.put, found, Option.bind_none]
  | some other =>
    simp only [Store.put, found, Option.bind_some]
    by_cases same : handle = other
    · subst same
      have inside := (List.getElem?_eq_some_iff.mp held).1
      rw [List.getElem?_set_self inside, held]
      simp only [Option.map_some, sameSchema, sameContents]
    · rw [List.getElem?_set_ne same]

/-- A statement on a table. -/
theorem fine_onTable (sane : Sane db) {name : Str} {action : Table → Option (Table × Answer)}
    (safe : ∀ table : Table, table.Valid → Safe table (action table))
    (plain : ∀ table table' text, table.Valid → Worded table.schema →
      action table = some (table', .ok text) → NotError text) :
    Fine db (db.exec Database.getTable (onTable name action safe)) := by
  cases found : Database.getTable db.catalog name with
  | none =>
    simp only [onTable, Store.exec, found]
    exact fine_of_error sane _
  | some handle =>
    have inside := sane.named.bound name handle found
    have held := List.getElem?_eq_getElem inside
    generalize db.heap[handle] = table at held
    obtain ⟨raw, answer, returns, valid, sameSchema, unchanged⟩ := safe table.val table.property
    have member : table ∈ db.heap := List.mem_of_getElem? held
    refine ⟨db.put handle ⟨raw, valid⟩, answer, ?_, ?_, ?_, ?_⟩
    · simp only [onTable, Store.exec, found, Store.act, held, Option.map_some,
        Total.keep_eq _ returns valid]
    · intro table' there
      obtain there | rfl := List.mem_or_eq_of_mem_set there
      · exact sane.worded table' there
      · rw [sameSchema]
        exact sane.worded table member
    · intro e is
      exact stored_put ⟨raw, valid⟩ held sameSchema (unchanged e is)
    · rintro text rfl
      exact plain table.val raw text table.property (sane.worded table member) returns

theorem fine_create (sane : Sane db) {stmt : CreateTableStatement}
    (words : ∀ column ∈ stmt.columns, ∀ c ∈ column.name, isIdentChar c) :
    Fine db (some (db.change (runCreate stmt))) := by
  obtain ⟨e, runs⟩ | ⟨table, builds, -, runs⟩ | ⟨present, runs⟩ :=
    runCreate_cases stmt db.catalog db.heap.length
  · rw [Store.change, runs]
    simp only [Option.toList_none, List.append_nil]
    exact fine_of_error sane e
  · rw [Store.change, runs]
    refine ⟨_, _, rfl, ?_, fun _ impossible => (by cases impossible), ?_⟩
    · intro table' there
      obtain there | there := List.mem_append.mp there
      · exact sane.worded table' there
      · rw [Option.toList_some, List.mem_singleton] at there
        subst there
        exact worded_addColumns words (fun _ none => by cases none) builds
    · rintro _ ⟨⟩
      exact notError_of_head (by decide)
  · rw [Store.change, runs]
    simp only [Option.toList_none, List.append_nil]
    refine ⟨_, _, rfl, sane.worded, fun _ _ => ?_, fun _ impossible => by cases impossible⟩
    refine stored_congr (fun name => ?_) rfl
    rw [Database.getTable_insert, if_neg fun new => present new.2]

theorem fine_drop (sane : Sane db) (stmt : DropTableStatement) :
    Fine db (some (db.change (runDrop stmt))) := by
  rw [Store.change, runDrop_eq]
  simp only [Option.toList_none, List.append_nil]
  refine ⟨_, _, rfl, sane.worded, fun e is => ?_, fun text is => ?_⟩
  · split_ifs at is with present
    have absent := Option.not_isSome_iff_eq_none.mp present
    refine stored_congr (fun name => ?_) rfl
    rw [Database.getTable_erase]
    split_ifs with same
    · rw [same, absent]
    · rfl
  · split_ifs at is
    cases is
    exact notError_of_head (by decide)

theorem fine_perform (sane : Sane db) (query : Str) : Fine db (perform db query) := by
  rw [perform, plan]
  split
  · rename_i e _
    have unchanged : db.exec Database.getTable
        (.catalog fun catalog _ => (catalog, none, .error e)) = some (db, (.error e : Answer)) := by
      simp only [Store.exec, Store.change, Option.toList_none, List.append_nil]
    rw [unchanged]
    exact fine_of_error sane e
  · rename_i stmt compiles
    cases stmt with
    | create stmt => exact fine_create sane (compile_create compiles)
    | drop stmt => exact fine_drop sane stmt
    | insert stmt =>
      exact fine_onTable sane (fun _ valid => runInsert_safe valid stmt)
        fun _ _ _ _ _ runs => notError_runInsert runs
    | select stmt =>
      exact fine_onTable sane (fun _ valid => runSelect_safe valid stmt)
        fun _ _ _ valid worded runs => notError_runSelect valid worded runs
    | update stmt =>
      exact fine_onTable sane (fun _ valid => runUpdate_safe valid stmt)
        fun _ _ _ _ _ runs => notError_runUpdate runs
    | delete stmt =>
      exact fine_onTable sane (fun _ valid => runDelete_safe valid stmt)
        fun _ _ _ _ _ runs => notError_runDelete runs

/-! ### Whole runs -/

theorem sane_execute (sane : Sane db) (query : Str) :
    ∃ db' text, execute db query = some (db', text) ∧ Sane db' := by
  obtain ⟨db', answer, performs, worded, -⟩ := fine_perform sane query
  have executes : execute db query = some (db', reply answer) := by
    rw [execute_eq, performs]
    rfl
  rw [← system_step] at executes
  exact ⟨db', reply answer, executes, (System.step_extends sane.named executes).1, worded⟩

/-- The databases queries lead to. -/
def Reachable (db : Database) : Prop :=
  ∃ queries replies, Machine.run execute Database.empty queries = some (db, replies)

theorem sane_empty : Sane Database.empty where
  named := ⟨fun _ _ found => by simp [Database.empty, Database.getTable] at found,
    fun _ _ _ found => by simp [Database.empty, Database.getTable] at found⟩
  worded _ none := by cases none

theorem Reachable.sane (reachable : Reachable db) : Sane db := by
  obtain ⟨queries, replies, runs⟩ := reachable
  obtain ⟨db', replies', runs', sane⟩ :=
    Machine.run_invariant (fun _ query sane => sane_execute sane query) queries sane_empty
  cases runs.symm.trans runs'
  exact sane

/-- In every database queries lead to, every query returns. Its reply is an error exactly
when it was thrown for, in the lexer, the parser or the statement, and then every name
still leads to the same schema and the same rows, or to no table as before. -/
theorem failed_query_changes_nothing (reachable : Reachable db) (query : Str) :
    ∃ db' answer, perform db query = some (db', answer) ∧
      execute db query = some (db', reply answer) ∧
      (errorTag <+: reply answer ↔ ∃ e, answer = .error e) ∧
      (errorTag <+: reply answer → ∀ name, db'.stored name = db.stored name) := by
  obtain ⟨db', answer, performs, -, unchanged, plain⟩ := fine_perform reachable.sane query
  have tagged : errorTag <+: reply answer ↔ ∃ e, answer = .error e := by
    cases answer with
    | error e => exact ⟨fun _ => ⟨e, rfl⟩, fun _ => List.prefix_append _ _⟩
    | ok text => exact ⟨fun is => (plain text rfl is).elim, fun ⟨e, impossible⟩ => by cases impossible⟩
  refine ⟨db', answer, performs, ?_, tagged, fun is => ?_⟩
  · rw [execute_eq, performs]
    rfl
  · obtain ⟨e, is⟩ := tagged.mp is
    exact unchanged e is

end Databases

section Witness

open scoped OneBucket

def twoStored : List Str :=
  ["CREATE TABLE t (id INT, n INT)".toList, "INSERT INTO t (id, n) VALUES (1, 10)".toList,
    "INSERT INTO t (id, n) VALUES (2, 20)".toList]

/-- Two rows are stored, and an `UPDATE` of both fails at the second column it assigns. -/
theorem failed_query_changes_nothing_update :
    ∃ db : Database, Reachable db ∧
      (db.stored "t".toList).map (fun held => Assoc.keys held.2) = some [1, 2] ∧
      ∃ db', execute db "UPDATE t SET n = 5, m = 7".toList =
          some (db', "ERROR: Table: unknown column 'm'".toList) ∧
        ∀ name, db'.stored name = db.stored name := by
  have runs : ((Machine.run execute Database.empty twoStored).any fun ended =>
      (ended.1.stored "t".toList).map (fun held => Assoc.keys held.2) == some [1, 2] &&
        (execute ended.1 "UPDATE t SET n = 5, m = 7".toList).any
          (·.2 == "ERROR: Table: unknown column 'm'".toList)) = true := by
    decide +kernel
  rw [Option.any_eq_true] at runs
  obtain ⟨⟨db, replies⟩, runs, holds⟩ := runs
  rw [Bool.and_eq_true, beq_iff_eq, Option.any_eq_true] at holds
  obtain ⟨rows, ⟨db', text⟩, fails, reads⟩ := holds
  obtain rfl := beq_iff_eq.mp reads
  have reachable : Reachable db := ⟨twoStored, replies, runs⟩
  obtain ⟨db₁, answer, -, executes, -, unchanged⟩ :=
    failed_query_changes_nothing reachable "UPDATE t SET n = 5, m = 7".toList
  obtain ⟨rfl, is⟩ := Prod.mk.inj (Option.some.inj (fails.symm.trans executes))
  refine ⟨db, reachable, rows, db', fails, unchanged ?_⟩
  rw [← is]
  decide

end Witness

end CppDB.Executor
