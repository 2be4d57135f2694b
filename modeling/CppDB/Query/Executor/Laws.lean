import CppDB.Query.Executor.Columns
import CppDB.Query.Executor.Relational

/-! What clients may rely on, whatever they have executed before. Each law is shown of the
database without tree, cache and catalog and holds of the code because that refines it. -/
namespace CppDB

open Assoc Executor Relational

/-! ### Assignments to a row -/

/-- What an assignment writes to a column. -/
def writtenBy (schema : Schema) (assignment : Str × Str) (column : Str) : Option Value :=
  if assignment.1 = column then
    (schema.findColumn column).bind fun definition =>
      if isValidValueFor definition.type assignment.2 then
        some (cellFor definition.type assignment.2)
      else none
  else none

/-- What the last of the assignments that writes to a column leaves there. -/
def written (schema : Schema) : Assignments → Str → Option Value
  | [], _ => none
  | assignment :: rest, column =>
    (written schema rest column).or (writtenBy schema assignment column)

namespace Row

theorem cell_assign (row : Row) (assignment : Str × Str) (column : Str) :
    (row.assign assignment.1 assignment.2).schema = row.schema ∧
      (row.assign assignment.1 assignment.2).cell column =
        (writtenBy row.schema assignment column).or (row.cell column) := by
  obtain ⟨name, value⟩ := assignment
  rw [assign, writtenBy]
  cases sets : row.set name value with
  | ok row' =>
    obtain ⟨definition, found, valid⟩ := set_eq_ok_iff.mp ⟨row', sets⟩
    obtain ⟨schema_eq, here, elsewhere⟩ := set_spec sets
    refine ⟨schema_eq, ?_⟩
    by_cases same : name = column
    · subst same
      simp only [if_true, found, Option.bind_some, valid, Option.some_or]
      exact here definition found
    · rw [if_neg same, Option.none_or]
      exact elsewhere column (Ne.symm same)
  | error e =>
    refine ⟨rfl, ?_⟩
    by_cases same : name = column
    · subst same
      rw [if_pos rfl]
      cases found : row.schema.findColumn name with
      | none => rfl
      | some definition =>
        have invalid : ¬ isValidValueFor definition.type value = true := by
          intro valid
          obtain ⟨row', succeeds⟩ := set_eq_ok_iff.mpr ⟨definition, found, valid⟩
          cases sets.symm.trans succeeds
        rw [Option.bind_some, if_neg invalid, Option.none_or]
    · rw [if_neg same, Option.none_or]

theorem cell_assignAll (row : Row) (assignments : Assignments) (column : Str) :
    (row.assignAll assignments).schema = row.schema ∧
      (row.assignAll assignments).cell column =
        (written row.schema assignments column).or (row.cell column) := by
  induction assignments generalizing row with
  | nil => exact ⟨rfl, rfl⟩
  | cons assignment rest ih =>
    obtain ⟨schema_eq, cell_eq⟩ := cell_assign row assignment column
    obtain ⟨schema_eq', cell_eq'⟩ := ih (row.assign assignment.1 assignment.2)
    refine ⟨schema_eq'.trans schema_eq, cell_eq'.trans ?_⟩
    rw [schema_eq, cell_eq, written, Option.or_assoc]

/-- Rows over one schema are the same if their cells are. -/
theorem ext_cells {row row' : Row} (schema_eq : row.schema = row'.schema)
    (same : ∀ column, row.cell column = row'.cell column) : row = row' := by
  refine Row.ext schema_eq (List.ext_getElem ?_ fun i inside inside' => ?_)
  · rw [row.length_values, row'.length_values, schema_eq]
  · have there : i < row.schema.columns.length := row.length_values ▸ inside
    have there' : i < row'.schema.columns.length := row'.length_values ▸ inside'
    have index : row.schema.columnIndex row.schema.columns[i].name = some ⟨i, there⟩ :=
      Schema.columnIndex_eq_some.mpr rfl
    have index' : row'.schema.columnIndex row'.schema.columns[i].name = some ⟨i, there'⟩ :=
      Schema.columnIndex_eq_some.mpr rfl
    have name : row.schema.columns[i].name = row'.schema.columns[i].name := by simp only [schema_eq]
    have cells := same row.schema.columns[i].name
    rw [cell_of_index index, name, cell_of_index index'] at cells
    simpa [List.getElem?_eq_getElem inside, List.getElem?_eq_getElem inside'] using cells

/-- Assigning a second time changes nothing. -/
theorem assignAll_assignAll (row : Row) (assignments : Assignments) :
    (row.assignAll assignments).assignAll assignments = row.assignAll assignments := by
  have schema_eq := fun column => (cell_assignAll row assignments column).1
  refine ext_cells (cell_assignAll _ assignments []).1 fun column => ?_
  rw [(cell_assignAll _ assignments column).2, (cell_assignAll row assignments column).2,
    schema_eq column, ← Option.or_assoc, Option.or_self]

end Row

namespace Relational

/-! ### Executing a query again -/

namespace Extent

theorem revise_revise (conditions : WhereList) (assignments : Assignments)
    (entry : Int64 × Row) :
    revise conditions assignments (revise conditions assignments entry) =
      revise conditions assignments entry := by
  by_cases chosen : satisfies conditions entry.2 = true
  · have once : revise conditions assignments entry = (entry.1, entry.2.assignAll assignments) :=
      if_pos chosen
    rw [once, revise]
    split
    · rw [Row.assignAll_assignAll]
    · rfl
  · have once : revise conditions assignments entry = entry := if_neg chosen
    rw [once, once]

theorem assign_assign (extent : Extent) (conditions : WhereList) (assignments : Assignments)
    (checks : Table.checkAssignments extent.schema assignments = .ok ()) :
    (extent.assign conditions assignments checks).assign conditions assignments checks =
      extent.assign conditions assignments checks := by
  refine Extent.ext rfl ?_
  simp only [assign, List.map_map]
  exact List.map_congr_left fun entry _ => revise_revise conditions assignments entry

theorem remove_remove (extent : Extent) (conditions : WhereList) :
    (extent.remove conditions).remove conditions = extent.remove conditions := by
  refine Extent.ext rfl ?_
  simp only [remove, List.filter_filter, Bool.and_self]

/-- What changes nothing changes nothing when it is done again. -/
theorem again_of_unchanged {α β : Type} {f : α → α × β} {a : α} (unchanged : (f a).1 = a) :
    (f (f a).1).1 = (f a).1 := by
  rw [unchanged, unchanged]

theorem insert_insert (stmt : InsertStatement) (extent : Extent) :
    ((extent.insert stmt).1.insert stmt).1 = (extent.insert stmt).1 := by
  obtain ⟨e, -, inserts⟩ | ⟨row, id, builds, ⟨e, -, inserts⟩ | ⟨key, checks, ⟨-, inserts⟩ |
    ⟨absent, inserts⟩⟩⟩ := extent.insert_cases stmt
  · exact again_of_unchanged (f := Extent.insert stmt) (by rw [inserts])
  · exact again_of_unchanged (f := Extent.insert stmt) (by rw [inserts])
  · exact again_of_unchanged (f := Extent.insert stmt) (by rw [inserts])
  · -- now the key is there
    rw [inserts]
    have present : key ∈ keys (extent.add key row absent (Table.stored_of_checkRow checks)).rows :=
      mem_keys_of_mem (mem_insertAscending.mpr (.inl rfl))
    obtain ⟨e, -, again⟩ | ⟨row', id', builds', ⟨e, -, again⟩ | ⟨key', checks', ⟨-, again⟩ |
      ⟨absent', again⟩⟩⟩ := (extent.add key row absent _).insert_cases stmt
    · rw [again]
    · rw [again]
    · rw [again]
    · cases builds.symm.trans builds'
      cases checks.symm.trans checks'
      exact absurd present absent'

theorem update_update (stmt : UpdateStatement) (extent : Extent) :
    ((extent.update stmt).1.update stmt).1 = (extent.update stmt).1 := by
  obtain ⟨e, -, updates⟩ | ⟨-, ⟨e, -, updates⟩ | ⟨checks, updates⟩⟩ := extent.update_cases stmt
  · exact again_of_unchanged (f := Extent.update stmt) (by rw [updates])
  · exact again_of_unchanged (f := Extent.update stmt) (by rw [updates])
  · rw [updates]
    obtain ⟨e, -, again⟩ | ⟨-, ⟨e, -, again⟩ | ⟨checks', again⟩⟩ :=
      (extent.assign stmt.conditions stmt.assignments checks).update_cases stmt
    · rw [again]
    · rw [again]
    · rw [again]
      exact assign_assign extent stmt.conditions stmt.assignments checks

theorem delete_delete (stmt : DeleteStatement) (extent : Extent) :
    ((extent.delete stmt).1.delete stmt).1 = (extent.delete stmt).1 := by
  cases checks : checkClauses extent.schema stmt.conditions with
  | error e => exact again_of_unchanged (f := Extent.delete stmt) (by simp only [delete, checks])
  | ok =>
    have deletes : (extent.delete stmt).1 = extent.remove stmt.conditions := by
      simp only [delete, checks]
    have checks' : checkClauses (extent.remove stmt.conditions).schema stmt.conditions = .ok () :=
      checks
    rw [deletes, delete, checks']
    exact remove_remove extent stmt.conditions

end Extent

/-- A table that is there is not created again. -/
theorem create_some (stmt : CreateTableStatement) (extent : Extent) :
    (create stmt (some extent)).1 = some extent := by
  rw [create]
  split
  · rfl
  · split_ifs <;> rfl

/-- What a statement leaves under its name it leaves alone when it is executed again. -/
theorem act_act (stmt : Statement) (held : Option Extent) :
    (act stmt (act stmt held).1).1 = (act stmt held).1 := by
  have onExtent_onExtent {name : Str} {action : Extent → Extent × Answer}
      (again : ∀ extent, (action (action extent).1).1 = (action extent).1) :
      (onExtent name action (onExtent name action held).1).1 = (onExtent name action held).1 := by
    cases held with
    | none => rfl
    | some extent => simp only [onExtent, again]
  cases stmt with
  | create stmt =>
    change (create stmt (create stmt held).1).1 = (create stmt held).1
    cases held with
    | some extent => rw [create_some, create_some]
    | none =>
      cases made : (create stmt none).1 with
      | none => exact made
      | some extent => exact create_some stmt extent
  | drop stmt => cases held <;> rfl
  | insert stmt => exact onExtent_onExtent (Extent.insert_insert stmt)
  | select stmt => exact onExtent_onExtent fun _ => rfl
  | update stmt => exact onExtent_onExtent (Extent.update_update stmt)
  | delete stmt => exact onExtent_onExtent (Extent.delete_delete stmt)

theorem run_run (state : State) (stmt : Statement) :
    ((state.run stmt).1.run stmt).1 = (state.run stmt).1 := by
  simp only [State.run, Function.update_self, act_act, Function.update_idem]

theorem execute_execute (state : State) (query : Str) :
    ((state.execute query).1.execute query).1 = (state.execute query).1 := by
  simp only [State.execute, State.perform]
  cases compile query with
  | error e => rfl
  | ok stmt => exact run_run state stmt

/-! ### Leaving queries out -/

/-- The query does not change anything: it is a `SELECT`, or no statement at all. -/
def onlyReads (query : Str) : Bool :=
  match compile query with
  | .error _ => true
  | .ok (.select _) => true
  | .ok _ => false

/-- The query is a statement about this table. -/
def isAbout (name query : Str) : Bool :=
  match compile query with
  | .error _ => false
  | .ok stmt => target stmt = name

theorem execute_of_reads {query : Str} (reads : onlyReads query = true) (state : State) :
    (state.execute query).1 = state := by
  simp only [State.execute, State.perform]
  rw [onlyReads] at reads
  cases compiles : compile query with
  | error e => rfl
  | ok stmt =>
    rw [compiles] at reads
    cases stmt with
    | select stmt =>
      refine Function.update_eq_self_iff.mpr ?_
      simp only [act, onExtent, target]
      cases state stmt.table <;> rfl
    | _ => cases reads

theorem execute_at (state : State) {name query : Str} (about : isAbout name query = true)
    {state' : State} (same : state name = state' name) :
    (state.execute query).1 name = (state'.execute query).1 name ∧
      (state.execute query).2 = (state'.execute query).2 := by
  simp only [State.execute, State.perform]
  rw [isAbout] at about
  cases compiles : compile query with
  | error e =>
    rw [compiles] at about
    cases about
  | ok stmt =>
    rw [compiles] at about
    obtain rfl := of_decide_eq_true about
    simp only [State.run, Function.update_self, same, and_self]

theorem execute_elsewhere (state : State) {name query : Str} (other : isAbout name query = false) :
    (state.execute query).1 name = state name := by
  simp only [State.execute, State.perform]
  rw [isAbout] at other
  cases compiles : compile query with
  | error e => rfl
  | ok stmt =>
    rw [compiles] at other
    exact Function.update_of_ne (Ne.symm (of_decide_eq_false other)) _ _

section Databases

variable [StdHash Str] [StdHash Int64] {db : Database}

/-- One query, as the refinement gives it. -/
theorem execute_spec (sane : Sane db) (query : Str) :
    ∃ db', execute db query = some (db', ((State.of db).execute query).2) ∧ Sane db' ∧
      State.of db' = ((State.of db).execute query).1 := by
  obtain ⟨db', text, executes, ⟨sane', leaves⟩, rfl⟩ :=
    execute_simulates db (State.of db) query ⟨sane, rfl⟩
  exact ⟨db', executes, sane', leaves⟩

theorem reachable_of_execute {query text : Str}
    (executes : execute Database.empty query = some (db, text)) : Reachable db :=
  ⟨[query], [text], Machine.run_cons_eq.mpr ⟨db, text, [], executes, rfl, rfl⟩⟩

/-- A query that is sent again changes nothing: not an `INSERT`, which then fails, nor an
`UPDATE` that assigns to the columns of its own conditions. -/
theorem resent_query_changes_nothing (reachable : Reachable db) (query : Str) :
    ∃ db₁ db₂ first second, execute db query = some (db₁, first) ∧
      execute db₁ query = some (db₂, second) ∧ State.of db₂ = State.of db₁ := by
  obtain ⟨db₁, executes, sane, leaves⟩ := execute_spec reachable.sane query
  obtain ⟨db₂, executes', -, leaves'⟩ := execute_spec sane query
  refine ⟨db₁, db₂, _, _, executes, executes', ?_⟩
  rw [leaves', leaves, execute_execute]

/-- Leaving out of a run of queries all those that only read changes neither what the
others reply nor what is stored in the end, though reads go through the cache and change
it. -/
theorem reads_are_silent (queries : List Str) :
    ∃ db db' replies, Machine.run execute Database.empty queries = some (db, replies) ∧
      Machine.run execute Database.empty (queries.filter fun query => !onlyReads query) =
        some (db', ((queries.zip replies).filter fun p => !onlyReads p.1).map Prod.snd) ∧
      State.of db = State.of db' := by
  have start : Represents Database.empty .empty := ⟨sane_empty, State.of_empty⟩
  obtain ⟨db, runs, represents⟩ := execute_simulates.run_eq queries start
  obtain ⟨db', runs', represents'⟩ := execute_simulates.run_eq
    (queries.filter fun query => !onlyReads query) start
  obtain ⟨ends, answers⟩ := Machine.runTotal_filter State.execute Eq
    (fun query => !onlyReads query)
    (by
      rintro state _ query rfl reads
      exact execute_of_reads (by simpa using reads) state)
    (by
      rintro state _ query rfl _
      exact ⟨rfl, rfl⟩)
    queries (rfl : State.empty = State.empty)
  rw [← answers] at runs'
  exact ⟨db, db', _, runs, runs', represents.eq.trans (ends.trans represents'.eq.symm)⟩

/-- The queries about one table are answered as if there were no others, and leave the table
as if there were none. -/
theorem tables_are_independent (queries : List Str) (name : Str) :
    ∃ db db' replies, Machine.run execute Database.empty queries = some (db, replies) ∧
      Machine.run execute Database.empty (queries.filter (isAbout name)) =
        some (db', ((queries.zip replies).filter fun p => isAbout name p.1).map Prod.snd) ∧
      State.of db name = State.of db' name := by
  have start : Represents Database.empty .empty := ⟨sane_empty, State.of_empty⟩
  obtain ⟨db, runs, represents⟩ := execute_simulates.run_eq queries start
  obtain ⟨db', runs', represents'⟩ := execute_simulates.run_eq (queries.filter (isAbout name)) start
  obtain ⟨ends, answers⟩ := Machine.runTotal_filter State.execute
    (fun state state' => state name = state' name) (isAbout name)
    (by
      intro state state' query same other
      rw [execute_elsewhere state other, same])
    (by
      intro state state' query same about
      exact execute_at state about same)
    queries (rfl : State.empty name = State.empty name)
  rw [← answers] at runs'
  refine ⟨db, db', _, runs, runs', ?_⟩
  rw [represents.eq, represents'.eq]
  exact ends

end Databases

/-! ### Reading back what was inserted -/

theorem written_of_not_mem {schema : Schema} {pairs : Assignments} {column : Str}
    (absent : column ∉ pairs.map Prod.fst) : written schema pairs column = none := by
  induction pairs with
  | nil => rfl
  | cons pair rest ih =>
    rw [List.map_cons, List.mem_cons, not_or] at absent
    rw [written, ih absent.2, writtenBy, if_neg (Ne.symm absent.1)]
    rfl

/-- The value that is given last for a column. -/
def lastGiven (column : Str) : Assignments → Option Str
  | [] => none
  | pair :: rest => (lastGiven column rest).or (if pair.1 = column then some pair.2 else none)

theorem lastGiven_eq_none {pairs : Assignments} {column : Str} :
    lastGiven column pairs = none ↔ column ∉ pairs.map Prod.fst := by
  induction pairs with
  | nil => simp [lastGiven]
  | cons pair rest ih =>
    rw [lastGiven, Option.or_eq_none_iff, ih, List.map_cons, List.mem_cons, not_or, and_comm,
      ite_eq_right_iff, eq_comm]
    simp

theorem lastGiven_of_mem {pairs : Assignments} {column : Str}
    (there : column ∈ pairs.map Prod.fst) : ∃ value, lastGiven column pairs = some value := by
  rw [← Option.isSome_iff_exists, Option.isSome_iff_ne_none]
  exact fun never => lastGiven_eq_none.mp never there

theorem mem_of_lastGiven {pairs : Assignments} {column value : Str}
    (given : lastGiven column pairs = some value) : (column, value) ∈ pairs := by
  induction pairs with
  | nil => cases given
  | cons pair rest ih =>
    rw [lastGiven, Option.or_eq_some_iff] at given
    obtain later | ⟨-, here⟩ := given
    · exact List.mem_cons_of_mem pair (ih later)
    · rw [Option.ite_none_right_eq_some, Option.some.injEq] at here
      obtain ⟨rfl, rfl⟩ := here
      exact List.mem_cons_self

theorem written_of_lastGiven {schema : Schema} {pairs : Assignments} {column value : Str}
    (given : lastGiven column pairs = some value) {definition : Column}
    (found : schema.findColumn column = some definition)
    (valid : isValidValueFor definition.type value = true) :
    written schema pairs column = some (cellFor definition.type value) := by
  induction pairs with
  | nil => cases given
  | cons pair rest ih =>
    rw [lastGiven, Option.or_eq_some_iff] at given
    rw [written]
    obtain later | ⟨never, here⟩ := given
    · rw [ih later, Option.some_or]
    · rw [Option.ite_none_right_eq_some, Option.some.injEq] at here
      obtain ⟨rfl, rfl⟩ := here
      rw [written_of_not_mem (lastGiven_eq_none.mp never), writtenBy, if_pos rfl, found,
        Option.bind_some, if_pos valid, Option.none_or]

/-- A row that could be filled has the values in its cells. -/
theorem fillRow_eq {row row' : Row} {pairs : Assignments} (fills : fillRow row pairs = .ok row') :
    row' = row.assignAll pairs ∧ ∀ pair ∈ pairs, ∃ definition,
      row.schema.findColumn pair.1 = some definition ∧
        isValidValueFor definition.type pair.2 = true := by
  induction pairs generalizing row with
  | nil =>
    cases fills
    exact ⟨rfl, fun _ none => by cases none⟩
  | cons pair rest ih =>
    obtain ⟨column, value⟩ := pair
    rw [fillRow] at fills
    cases sets : row.set column value with
    | error e =>
      rw [sets] at fills
      cases fills
    | ok row₁ =>
      rw [sets] at fills
      obtain ⟨rfl, valid⟩ := ih fills
      have schema_eq := (Row.set_spec sets).1
      refine ⟨by simp only [Row.assignAll, List.foldl_cons, Row.assign, sets], ?_⟩
      rw [schema_eq] at valid
      exact List.forall_mem_cons.mpr ⟨Row.set_eq_ok_iff.mp ⟨row₁, sets⟩, valid⟩

/-- The columns a `SELECT` shows: those it names, or with `*` all of them. -/
def shownColumns (schema : Schema) (columns : List Str) : List Str :=
  if columns = [] then schema.columns.map Column.name else columns

/-- How the value given last for a column reads when it was stored: a number without leading
zeros. -/
def shown (schema : Schema) (pairs : Assignments) (column : Str) : Str :=
  match schema.findColumn column, lastGiven column pairs with
  | some definition, some value => (cellFor definition.type value).toString
  | _, _ => []

/-- The one row with an id that a `SELECT` prints. -/
def shownRow (schema : Schema) (stmt : InsertStatement) (columns : List Str) : Str :=
  ", ".toList.intercalate ((shownColumns schema columns).map fun column =>
    column ++ "=".toList ++ shown schema (stmt.columns.zip stmt.values) column)

/-- The conditions that select the row with an id. -/
def byId (literal : Str) : WhereList := [⟨Table.idColumn, .eq, literal⟩]

theorem cell_of_filled {schema : Schema} {row : Row} {pairs : Assignments} {column value : Str}
    (fills : fillRow (Row.blank schema) pairs = .ok row)
    (given : lastGiven column pairs = some value) :
    ∃ definition, schema.findColumn column = some definition ∧
      isValidValueFor definition.type value = true ∧
      row.cell column = some (cellFor definition.type value) := by
  obtain ⟨rfl, valid⟩ := fillRow_eq fills
  obtain ⟨definition, found, literal⟩ := valid _ (mem_of_lastGiven given)
  replace found : schema.findColumn column = some definition := found
  refine ⟨definition, found, literal, ?_⟩
  have schema_eq : (Row.blank schema).schema = schema := rfl
  rw [(Row.cell_assignAll _ pairs column).2, schema_eq, written_of_lastGiven given found literal,
    Option.some_or]

/-- Only what was given is in the cells. -/
theorem given_of_filled {schema : Schema} {row : Row} {pairs : Assignments} {column : Str}
    (fills : fillRow (Row.blank schema) pairs = .ok row) (held : row.has column = true) :
    ∃ value, lastGiven column pairs = some value := by
  apply lastGiven_of_mem
  by_contra never
  obtain ⟨rfl, -⟩ := fillRow_eq fills
  rw [Row.has, (Row.cell_assignAll _ pairs column).2, written_of_not_mem never, Option.none_or,
    Row.cell_blank] at held
  cases held

namespace Extent

variable {stmt : InsertStatement} {extent extent' : Extent} {literal : Str}

/-- The row a successful `INSERT` has added. -/
theorem insert_eq_ok (inserts : extent.insert stmt = (extent', .ok done)) :
    ∃ key row absent fits, extent' = extent.add key row absent fits ∧
      fillRow (Row.blank extent.schema) (stmt.columns.zip stmt.values) = .ok row := by
  obtain ⟨e, -, fails⟩ | ⟨row, id, builds, ⟨e, -, fails⟩ | ⟨key, checks, ⟨-, fails⟩ |
    ⟨absent, adds⟩⟩⟩ := extent.insert_cases stmt
  · cases inserts.symm.trans fails
  · cases inserts.symm.trans fails
  · cases inserts.symm.trans fails
  · cases inserts.symm.trans adds
    refine ⟨key, row, absent, _, rfl, ?_⟩
    rw [buildRow] at builds
    cases fills : fillRow (Row.blank extent.schema) (stmt.columns.zip stmt.values) with
    | error e =>
      rw [fills] at builds
      cases builds
    | ok row' =>
      rw [fills] at builds
      cases reads : row'.getInt Table.idColumn with
      | error e =>
        simp only [bind, Except.bind, reads] at builds
        cases builds
      | ok id' =>
        simp only [bind, Except.bind, reads] at builds
        cases builds
        rfl

theorem selected_byId (extent : Extent) (literal : Str) :
    extent.selected (byId literal) = (find (parseInt literal) extent.rows).toList := by
  rw [← map_snd_filter_key extent.ascending.nodup, selected]
  refine congrArg (List.map Prod.snd) (List.filter_congr fun entry there => ?_)
  simp only [satisfies, byId, List.all_cons, List.all_nil, Bool.and_true]
  exact holds_of_stored (extent.stored entry there) rfl

theorem shownColumns_ne_nil (extent : Extent) (columns : List Str) :
    shownColumns extent.schema columns ≠ [] := by
  rw [shownColumns]
  split
  · intro none
    have keyed := extent.keyed
    rw [List.map_eq_nil_iff] at none
    simp [Table.hasPrimaryKey, Schema.findColumn, none] at keyed
  · assumption

/-- The cells of an inserted row as they are printed. -/
theorem formatRow_inserted {row : Row} {key : Int64} {columns : List Str} (extent : Extent)
    (stored : Table.Stored extent.schema key row)
    (held : ∀ column ∈ columns, row.has column = true)
    (fills : fillRow (Row.blank extent.schema) (stmt.columns.zip stmt.values) = .ok row) :
    formatRow columns row = .ok (shownRow extent.schema stmt columns) := by
  have some_ := extent.shownColumns_ne_nil columns
  have asks : formatRow columns row = formatRow (shownColumns extent.schema columns) row := by
    by_cases all : columns = []
    · subst all
      have named : extent.schema.columns ≠ [] := by simpa [shownColumns] using some_
      exact (formatRow_all stored named).symm
    · rw [shownColumns, if_neg all]
  have set : ∀ column ∈ shownColumns extent.schema columns, row.has column = true := by
    rw [shownColumns]
    split
    · intro name there
      obtain ⟨column, listed, rfl⟩ := List.mem_map.mp there
      exact stored.complete column listed
    · exact held
  rw [asks, formatRow, if_neg some_, formatCells_eq set, shownRow]
  refine congrArg (fun cells => Except.ok (", ".toList.intercalate cells)) ?_
  refine List.map_congr_left fun column there => ?_
  obtain ⟨value, given⟩ := given_of_filled fills (set column there)
  obtain ⟨definition, found, -, cell⟩ := cell_of_filled fills given
  simp only [cellText, cell, shown, found, given]

theorem idColumn_type (extent : Extent) {definition : Column}
    (found : extent.schema.findColumn Table.idColumn = some definition) :
    definition.type = .int := by
  have keyed := extent.keyed
  rw [Table.hasPrimaryKey, found] at keyed
  exact of_decide_eq_true keyed

theorem checkClauses_byId {definition : Column}
    (found : extent.schema.findColumn Table.idColumn = some definition)
    (valid : isValidValueFor .int literal = true) :
    checkClauses extent.schema (keyFirst (byId literal)) = .ok () := by
  refine checks_of_wellFormed fun clause there => ?_
  obtain rfl := List.mem_singleton.mp (mem_keyFirst.mp there)
  exact ⟨definition, found, extent.idColumn_type found ▸ valid⟩

theorem select_inserted {columns : List Str} {id : Str}
    (named : ∀ column ∈ columns, column ∈ stmt.columns)
    (keyed : lastGiven Table.idColumn (stmt.columns.zip stmt.values) = some id)
    (valid : isValidValueFor .int literal = true) (same : parseInt literal = parseInt id)
    (inserts : extent.insert stmt = (extent', .ok done)) :
    extent'.select ⟨stmt.table, columns, byId literal⟩ =
      .ok (shownRow extent.schema stmt columns ++ "\n".toList ++ footer 1) := by
  obtain ⟨key, row, absent, fits, rfl, fills⟩ := insert_eq_ok inserts
  have names : (stmt.columns.zip stmt.values).map Prod.fst = stmt.columns :=
    List.map_fst_zip stmt.parallel.le
  have cells : ∀ column ∈ columns, row.has column = true ∧ extent.schema.hasColumn column := by
    intro column there
    obtain ⟨value, given⟩ := lastGiven_of_mem (names.symm ▸ named column there)
    obtain ⟨definition, found, -, cell⟩ := cell_of_filled fills given
    rw [Row.has, cell, Schema.hasColumn, found]
    exact ⟨rfl, rfl⟩
  obtain ⟨definition, found, -, cell⟩ := cell_of_filled fills keyed
  -- the id under which the row is filed is the one asked for
  replace same : key = parseInt literal := by
    rw [extent.idColumn_type found, cellFor] at cell
    cases fits.filed.symm.trans cell
    exact same.symm
  have chosen : (extent.add key row absent fits).selected (byId literal) = [row] := by
    rw [selected_byId, ← same]
    exact congrArg Option.toList (find_insertAscending_self extent.ascending absent)
  have formats : formatRows columns [row] =
      .ok (shownRow extent.schema stmt columns ++ "\n".toList) := by
    rw [formatRows, formatRows,
      formatRow_inserted extent fits (fun column there => (cells column there).1) fills]
    simp only [bind, Except.bind, pure, Except.pure, List.append_nil]
  have known : checkColumns (extent.add key row absent fits).schema columns = .ok () :=
    checkColumns_of_known fun column there => (cells column there).2
  have clauses : checkClauses (extent.add key row absent fits).schema (keyFirst (byId literal)) =
    .ok () := checkClauses_byId found valid
  rw [select, known, clauses, chosen]
  exact printRows_eq formats

end Extent

theorem onExtent_insert_eq_done {stmt : InsertStatement} {held : Option Extent}
    (replies : reply (act (.insert stmt) held).2 = done) :
    ∃ extent extent', held = some extent ∧ extent.insert stmt = (extent', .ok done) ∧
      (act (.insert stmt) held).1 = some extent' := by
  have failed (e : Exn) : reply (.error e) ≠ done := by
    intro same
    cases same
  cases held with
  | none => exact absurd replies (failed _)
  | some extent =>
    refine ⟨extent, (extent.insert stmt).1, rfl, ?_, rfl⟩
    replace replies : reply (extent.insert stmt).2 = done := replies
    cases answer : (extent.insert stmt).2 with
    | error e =>
      rw [answer] at replies
      exact absurd replies (failed e)
    | ok text =>
      rw [answer] at replies
      exact Prod.ext rfl (answer.trans (congrArg Except.ok replies))

/-- Queries that only read or are about other tables. -/
theorem runTotal_elsewhere {name : Str} {queries : List Str}
    (others : ∀ query ∈ queries, onlyReads query = true ∨ isAbout name query = false)
    (state : State) : (Machine.runTotal State.execute state queries).1 name = state name := by
  induction queries generalizing state with
  | nil => rfl
  | cons query rest ih =>
    obtain ⟨here, others⟩ := List.forall_mem_cons.mp others
    rw [Machine.runTotal_cons]
    refine (ih others _).trans ?_
    obtain reads | elsewhere := here
    · rw [execute_of_reads reads]
    · exact execute_elsewhere state elsewhere

section ReadBack

variable [StdHash Str] [StdHash Int64] {db db₁ : Database}

/-- After an `INSERT` that succeeded, and any queries that only read or are about other
tables, the `SELECT` of any of its columns, or of all with `*`, by a numeral of the row's id
prints one row, with the value that was given last for every column. -/
theorem inserted_row_reads_back (reachable : Reachable db) {insertion selection literal id : Str}
    {stmt : InsertStatement} {columns : List Str}
    (inserts : compile insertion = .ok (.insert stmt))
    (selects : compile selection = .ok (.select ⟨stmt.table, columns, byId literal⟩))
    (named : ∀ column ∈ columns, column ∈ stmt.columns)
    (keyed : lastGiven Table.idColumn (stmt.columns.zip stmt.values) = some id)
    (valid : isValidValueFor .int literal = true) (same : parseInt literal = parseInt id)
    (succeeds : execute db insertion = some (db₁, done)) {between : List Str}
    (others : ∀ query ∈ between, onlyReads query = true ∨ isAbout stmt.table query = false) :
    ∃ extent db₂ replies, State.of db stmt.table = some extent ∧
      Machine.run execute db₁ (between ++ [selection]) =
        some (db₂, replies ++
          [shownRow extent.schema stmt columns ++ "\n".toList ++ footer 1]) := by
  obtain ⟨db', executes, sane, leaves⟩ := execute_spec reachable.sane insertion
  obtain ⟨rfl, replies⟩ := Prod.mk.inj (Option.some.inj (succeeds.symm.trans executes))
  have ran : (State.of db).perform insertion = (State.of db).run (.insert stmt) := by
    simp only [State.perform, inserts]
  rw [State.execute, ran] at replies leaves
  obtain ⟨extent, extent', holds, adds, left⟩ := onExtent_insert_eq_done replies.symm
  have there : State.of db₁ stmt.table = some extent' := by
    rw [leaves]
    exact (Function.update_self ..).trans left
  obtain ⟨db₂, runs, represents⟩ := execute_simulates.run_eq between ⟨sane, rfl⟩
  have still : State.of db₂ stmt.table = some extent' := by
    rw [represents.eq, runTotal_elsewhere others, there]
  have answers := Extent.select_inserted named keyed valid same adds
  have text : ((State.of db₂).execute selection).2 =
      shownRow extent.schema stmt columns ++ "\n".toList ++ footer 1 := by
    simp only [State.execute, State.perform, selects, State.run, target, still, act, onExtent,
      answers, reply]
  obtain ⟨db₃, reads, -⟩ := execute_spec represents.sane selection
  rw [text] at reads
  exact ⟨extent, db₃, _, holds, Machine.run_append_eq.mpr ⟨db₂, _, _, runs,
    Machine.run_cons_eq.mpr ⟨db₃, _, [], reads, rfl, rfl⟩, rfl⟩⟩

end ReadBack

section Witness

open scoped OneBucket

theorem resent_query_changes_nothing_insert :
    ∃ db : Database, Reachable db ∧ ∃ db₁ db₂ first second,
      execute db "INSERT INTO t (id) VALUES (1)".toList = some (db₁, first) ∧
      execute db₁ "INSERT INTO t (id) VALUES (1)".toList = some (db₂, second) ∧
      State.of db₂ = State.of db₁ := by
  obtain ⟨db, executes, -⟩ := execute_spec sane_empty "CREATE TABLE t (id INT)".toList
  have reachable := reachable_of_execute executes
  exact ⟨db, reachable, resent_query_changes_nothing reachable _⟩

/-- A column is given twice, and the row is asked for by another numeral of its id. -/
theorem inserted_row_reads_back_twice :
    ∃ db db₁ db₂ : Database, ∃ replies, Reachable db ∧
      execute db "INSERT INTO t (id, n, n) VALUES (007, 2, '-05')".toList = some (db₁, done) ∧
      Machine.run execute db₁ ["DROP TABLE u".toList, "SELECT n, id FROM t WHERE id = 7".toList] =
        some (db₂, replies ++ ["n=-5, id=7\n(1 row)".toList]) := by
  obtain ⟨db, executes, sane, leaves⟩ :=
    execute_spec sane_empty "CREATE TABLE t (id INT, n INT)".toList
  have reachable := reachable_of_execute executes
  obtain ⟨db₁, succeeds, -⟩ :=
    execute_spec sane "INSERT INTO t (id, n, n) VALUES (007, 2, '-05')".toList
  have accepted : ((State.of db).execute
      "INSERT INTO t (id, n, n) VALUES (007, 2, '-05')".toList).2 = done := by
    rw [leaves, State.of_empty]
    decide +kernel
  rw [accepted] at succeeds
  have inserts : compile "INSERT INTO t (id, n, n) VALUES (007, 2, '-05')".toList =
      .ok (.insert ⟨"t".toList, ["id".toList, "n".toList, "n".toList],
        ["007".toList, "2".toList, "-05".toList], rfl⟩) :=
    compile_of_parseQuery (by decide +kernel)
  have selects : compile "SELECT n, id FROM t WHERE id = 7".toList =
      .ok (.select ⟨"t".toList, ["n".toList, "id".toList], byId "7".toList⟩) :=
    compile_of_parseQuery (by decide +kernel)
  have others : ∀ query ∈ ["DROP TABLE u".toList],
      onlyReads query = true ∨ isAbout "t".toList query = false := by
    decide +kernel
  obtain ⟨extent, db₂, replies, holds, runs⟩ := inserted_row_reads_back reachable inserts selects
    (by decide) (by decide : _ = some "007".toList) (by decide +kernel) (by decide +kernel)
    succeeds others
  refine ⟨db, db₁, db₂, replies, reachable, succeeds, ?_⟩
  have reads : ((State.of db) "t".toList).map (fun extent => shownRow extent.schema
      ⟨"t".toList, ["id".toList, "n".toList, "n".toList], ["007".toList, "2".toList, "-05".toList],
        rfl⟩ ["n".toList, "id".toList]) = some "n=-5, id=7".toList := by
    rw [leaves, State.of_empty]
    decide +kernel
  rw [holds, Option.map_some, Option.some.injEq] at reads
  have line : "n=-5, id=7".toList ++ "\n".toList ++ footer 1 = "n=-5, id=7\n(1 row)".toList := by
    decide +kernel
  rw [reads, line] at runs
  exact runs

end Witness

end Relational

end CppDB
