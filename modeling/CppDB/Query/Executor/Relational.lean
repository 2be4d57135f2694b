import CppDB.Query.Executor.Failure

/-! The database as its users see it: names, and under each name a schema and rows filed
under their ids. There is no tree here, no cache, no hash table and no heap. Whatever
queries are sent, `execute` replies what this database replies and stores what it stores,
errors and their texts included. -/
namespace CppDB.Relational

open Assoc Executor Registry

/-- What a table holds. -/
@[ext] structure Extent where
  schema : Schema
  rows : List (Int64 × Row)
  keyed : Table.hasPrimaryKey schema = true
  ascending : Ascending rows
  stored : ∀ entry ∈ rows, Table.Stored schema entry.1 entry.2

/-! ### The checks of a statement -/

def checkClause (schema : Schema) (clause : WhereClause) : Except Exn Unit :=
  match schema.findColumn clause.column with
  | none => .error (noSuchColumn clause.column)
  | some column =>
    if isValidValueFor column.type clause.value then .ok ()
    else .error (wrongLiteral clause.column column.type clause.value)

def checkClauses (schema : Schema) : WhereList → Except Exn Unit
  | [] => .ok ()
  | clause :: rest => do
    checkClause schema clause
    checkClauses schema rest

/-- The order in which a `SELECT` checks its conditions: one that leads to the rows through
their ids comes first. -/
def keyFirst (conditions : WhereList) : WhereList :=
  match splitIndexable conditions with
  | none => conditions
  | some (indexable, rest) => indexable :: rest

/-- All conditions hold of the row. -/
def satisfies (conditions : WhereList) (row : Row) : Bool :=
  conditions.all fun clause => clause.holds row

/-! ### Statements on one table -/

namespace Extent

def empty (schema : Schema) (keyed : Table.hasPrimaryKey schema = true) : Extent where
  schema := schema
  rows := []
  keyed := keyed
  ascending := .nil
  stored _ none := by cases none

def add (extent : Extent) (id : Int64) (row : Row) (absent : id ∉ keys extent.rows)
    (fits : Table.Stored extent.schema id row) : Extent where
  schema := extent.schema
  rows := insertAscending id row extent.rows
  keyed := extent.keyed
  ascending := extent.ascending.insert absent
  stored entry there := by
    obtain rfl | old := mem_insertAscending.mp there
    · exact fits
    · exact extent.stored entry old

def selected (extent : Extent) (conditions : WhereList) : List Row :=
  (extent.rows.filter fun entry => satisfies conditions entry.2).map Prod.snd

/-- The entry an `UPDATE` leaves of another. -/
def revise (conditions : WhereList) (assignments : Assignments) (entry : Int64 × Row) :
    Int64 × Row :=
  if satisfies conditions entry.2 then (entry.1, entry.2.assignAll assignments) else entry

theorem fst_revise (conditions : WhereList) (assignments : Assignments) (entry : Int64 × Row) :
    (revise conditions assignments entry).1 = entry.1 := by
  rw [revise]
  split_ifs <;> rfl

def assign (extent : Extent) (conditions : WhereList) (assignments : Assignments)
    (checks : Table.checkAssignments extent.schema assignments = .ok ()) : Extent where
  schema := extent.schema
  rows := extent.rows.map (revise conditions assignments)
  keyed := extent.keyed
  ascending := by
    refine List.pairwise_map.mpr (extent.ascending.imp fun {a b} before => ?_)
    rwa [fst_revise, fst_revise]
  stored entry there := by
    obtain ⟨old, held, rfl⟩ := List.mem_map.mp there
    have fits := extent.stored old held
    rw [revise]
    split_ifs
    · exact fits.assignAll checks
    · exact fits

def remove (extent : Extent) (conditions : WhereList) : Extent where
  schema := extent.schema
  rows := extent.rows.filter fun entry => !satisfies conditions entry.2
  keyed := extent.keyed
  ascending := extent.ascending.filter _
  stored entry there := extent.stored entry (List.mem_filter.mp there).1

def insert (stmt : InsertStatement) (extent : Extent) : Extent × Answer :=
  match buildRow (Row.blank extent.schema) stmt with
  | .error e => (extent, .error e)
  | .ok built =>
    match checks : Table.checkRow extent.schema built.1 with
    | .error e => (extent, .error e)
    | .ok key =>
      if present : (find key extent.rows).isSome then
        (extent, .error (duplicateId built.2 stmt.table))
      else
        (extent.add key built.1 (mt find_isSome.mpr present) (Table.stored_of_checkRow checks),
          .ok done)

def select (stmt : SelectStatement) (extent : Extent) : Answer := do
  checkColumns extent.schema stmt.columns
  checkClauses extent.schema (keyFirst stmt.conditions)
  printRows stmt.columns (extent.selected stmt.conditions)

def update (stmt : UpdateStatement) (extent : Extent) : Extent × Answer :=
  match checkClauses extent.schema stmt.conditions with
  | .error e => (extent, .error e)
  | .ok () =>
    match checks : Table.checkAssignments extent.schema stmt.assignments with
    | .error e => (extent, .error (rethrow e))
    | .ok () =>
      (extent.assign stmt.conditions stmt.assignments checks,
        .ok (updatedReply (extent.selected stmt.conditions).length))

def delete (stmt : DeleteStatement) (extent : Extent) : Extent × Answer :=
  match checkClauses extent.schema stmt.conditions with
  | .error e => (extent, .error e)
  | .ok () =>
    (extent.remove stmt.conditions, .ok (deletedReply (extent.selected stmt.conditions).length))

/-- All that an `INSERT` can do. -/
theorem insert_cases (stmt : InsertStatement) (extent : Extent) :
    (∃ e, buildRow (Row.blank extent.schema) stmt = .error e ∧ extent.insert stmt = (extent, .error e)) ∨
      ∃ row id, buildRow (Row.blank extent.schema) stmt = .ok (row, id) ∧
        ((∃ e, Table.checkRow extent.schema row = .error e ∧
            extent.insert stmt = (extent, .error e)) ∨
          ∃ key, ∃ checks : Table.checkRow extent.schema row = .ok key,
            (key ∈ keys extent.rows ∧
                extent.insert stmt = (extent, .error (duplicateId id stmt.table))) ∨
              ∃ absent, extent.insert stmt =
                (extent.add key row absent (Table.stored_of_checkRow checks), .ok done)) := by
  cases builds : buildRow (Row.blank extent.schema) stmt with
  | error e => exact .inl ⟨e, rfl, by simp only [insert, builds]⟩
  | ok built =>
    obtain ⟨row, id⟩ := built
    refine .inr ⟨row, id, rfl, ?_⟩
    rw [insert, builds]
    dsimp only
    split
    case h_1 e fails => exact .inl ⟨e, fails, rfl⟩
    case h_2 key checks =>
      refine .inr ⟨key, checks, ?_⟩
      by_cases present : key ∈ keys extent.rows
      · exact .inl ⟨present, dif_pos (find_isSome.mpr present)⟩
      · exact .inr ⟨present, dif_neg (mt find_isSome.mp present)⟩

/-- All that an `UPDATE` can do. -/
theorem update_cases (stmt : UpdateStatement) (extent : Extent) :
    (∃ e, checkClauses extent.schema stmt.conditions = .error e ∧
        extent.update stmt = (extent, .error e)) ∨
      checkClauses extent.schema stmt.conditions = .ok () ∧
        ((∃ e, Table.checkAssignments extent.schema stmt.assignments = .error e ∧
            extent.update stmt = (extent, .error (rethrow e))) ∨
          ∃ checks, extent.update stmt = (extent.assign stmt.conditions stmt.assignments checks,
            .ok (updatedReply (extent.selected stmt.conditions).length))) := by
  cases clauses : checkClauses extent.schema stmt.conditions with
  | error e => exact .inl ⟨e, rfl, by simp only [update, clauses]⟩
  | ok =>
    refine .inr ⟨rfl, ?_⟩
    rw [update, clauses]
    dsimp only
    split
    case h_1 e fails => exact .inl ⟨e, fails, rfl⟩
    case h_2 checks => exact .inr ⟨checks, rfl⟩

end Extent

/-! ### Queries -/

/-- The name a statement is about. -/
def target : Statement → Str
  | .create stmt => stmt.table
  | .drop stmt => stmt.table
  | .insert stmt => stmt.table
  | .select stmt => stmt.table
  | .update stmt => stmt.table
  | .delete stmt => stmt.table

def create (stmt : CreateTableStatement) (held : Option Extent) : Option Extent × Answer :=
  match addColumns Schema.empty stmt.columns with
  | .error e => (held, .error e)
  | .ok schema =>
    if stmt.table = [] then (held, .error Database.emptyName)
    else if keyed : Table.hasPrimaryKey schema then
      match held with
      | none => (some (.empty schema keyed), .ok done)
      | some _ => (held, .error (tableExists stmt.table))
    else (held, .error Table.noPrimaryKey)

def drop (stmt : DropTableStatement) : Option Extent → Option Extent × Answer
  | none => (none, .error (noSuchTable stmt.table))
  | some _ => (none, .ok done)

def onExtent (name : Str) (action : Extent → Extent × Answer) :
    Option Extent → Option Extent × Answer
  | none => (none, .error (noSuchTable name))
  | some extent => (some (action extent).1, (action extent).2)

/-- What a statement does with what is stored under its name, if anything is. -/
def act : Statement → Option Extent → Option Extent × Answer
  | .create stmt => create stmt
  | .drop stmt => drop stmt
  | .insert stmt => onExtent stmt.table (Extent.insert stmt)
  | .select stmt => onExtent stmt.table fun extent => (extent, extent.select stmt)
  | .update stmt => onExtent stmt.table (Extent.update stmt)
  | .delete stmt => onExtent stmt.table (Extent.delete stmt)

/-- What is stored under each name. -/
abbrev State := Str → Option Extent

namespace State

def empty : State := fun _ => none

/-- A statement reads and writes only what is stored under its name. -/
def run (state : State) (stmt : Statement) : State × Answer :=
  (Function.update state (target stmt) (act stmt (state (target stmt))).1,
    (act stmt (state (target stmt))).2)

def perform (state : State) (query : Str) : State × Answer :=
  match compile query with
  | .error e => (state, .error e)
  | .ok stmt => state.run stmt

def execute (state : State) (query : Str) : State × Str :=
  ((state.perform query).1, reply (state.perform query).2)

end State

/-! ### The checks find what the code finds -/

section Checks

variable {schema : Schema} {clause : WhereClause} {conditions : WhereList} {e : Exn}

theorem checkClause_eq (schema : Schema) (clause : WhereClause) :
    checkClause schema clause = (makePredicate schema clause).map fun _ => () := by
  rw [checkClause, makePredicate]
  cases found : schema.findColumn clause.column with
  | none => rfl
  | some column =>
    dsimp only
    by_cases literal : isValidValueFor column.type clause.value = true
    · simp only [literal, Bool.not_true, Bool.false_eq_true, if_true, if_false]
      cases column.type <;> rfl
    · simp only [Bool.not_eq_true] at literal
      simp only [literal, Bool.not_false, Bool.false_eq_true, if_true, if_false]
      rfl

theorem checkClauses_eq (schema : Schema) (conditions : WhereList) :
    checkClauses schema conditions = (makeConjunction schema conditions).map fun _ => () := by
  rw [makeConjunction]
  induction conditions with
  | nil => rfl
  | cons clause rest ih =>
    rw [checkClauses, checkClause_eq, makePredicates, ih]
    cases makePredicate schema clause with
    | error e => rfl
    | ok predicate =>
      cases makePredicates schema rest <;> rfl

theorem makeConjunction_of_error (fails : checkClauses schema conditions = .error e) :
    makeConjunction schema conditions = .error e := by
  rw [checkClauses_eq] at fails
  cases compiles : makeConjunction schema conditions with
  | error e' =>
    rw [compiles] at fails
    cases fails
    rfl
  | ok predicate =>
    rw [compiles] at fails
    cases fails

theorem wellFormed_of_checks (checks : checkClauses schema conditions = .ok ()) :
    ∀ clause ∈ conditions, clause.WellFormed schema := by
  rw [checkClauses_eq] at checks
  cases compiles : makeConjunction schema conditions with
  | error e =>
    rw [compiles] at checks
    cases checks
  | ok predicate => exact wellFormed_of_makeConjunction compiles

theorem predicateFor_of_error (fails : checkClauses schema conditions = .error e) :
    predicateFor schema conditions = .error e := by
  rw [predicateFor, if_neg]
  · exact makeConjunction_of_error fails
  · rintro rfl
    cases fails

theorem checks_of_wellFormed (good : ∀ clause ∈ conditions, clause.WellFormed schema) :
    checkClauses schema conditions = .ok () := by
  obtain ⟨predicate, compiles, -⟩ := makeConjunction_spec good
  rw [checkClauses_eq, compiles]
  rfl

theorem mem_keyFirst {conditions : WhereList} : clause ∈ keyFirst conditions ↔ clause ∈ conditions := by
  rw [keyFirst]
  cases splits : splitIndexable conditions with
  | none => rfl
  | some parts => exact (splitIndexable_eq_some splits).2.mem_iff.symm

end Checks

/-! ### Statements on a table -/

section Tables

variable [StdHash Int64] {table : Table}

/-- What a table of the code holds. -/
def Extent.of (table : Table) (valid : table.Valid) : Extent where
  schema := table.schema
  rows := table.contents
  keyed := valid.keyed
  ascending := table.ascending_contents
  stored := valid.stored

/-- The call returns with this answer, and leaves a table that holds this. -/
def Meets (call : Option (Table × Answer)) (expected : Extent × Answer) : Prop :=
  ∃ table' valid, call = some (table', expected.2) ∧ Extent.of table' valid = expected.1

/-- It fails and leaves the table alone. -/
theorem meets_of_error (valid : table.Valid) (e : Exn) :
    Meets (some (table, .error e)) (.of table valid, .error e) :=
  ⟨table, valid, rfl, rfl⟩

/-- A call that is known to be safe meets what it is known to leave. -/
theorem meets_of_safe {call : Option (Table × Answer)} {table' : Table} {answer : Answer}
    {expected : Extent} (safe : Safe table call) (returns : call = some (table', answer))
    (schema_eq : table.schema = expected.schema) (contents_eq : table'.contents = expected.rows) :
    Meets call (expected, answer) := by
  obtain ⟨table'', answer', returns', valid, same, -⟩ := safe
  cases returns.symm.trans returns'
  exact ⟨table', valid, returns, Extent.ext (same.trans schema_eq) contents_eq⟩

/-- The one way in which a condition on the id can be wrong. -/
theorem checkClause_of_indexable (valid : table.Valid) {clause : WhereClause}
    (indexable : isIndexableIdClause clause = true) :
    checkClause table.schema clause = if isValidValueFor .int clause.value then .ok ()
      else .error (wrongLiteral Table.idColumn .int clause.value) := by
  simp only [isIndexableIdClause, Bool.and_eq_true, decide_eq_true_eq] at indexable
  have keyed := valid.keyed
  rw [Table.hasPrimaryKey] at keyed
  rw [checkClause, indexable.1]
  cases found : table.schema.findColumn Table.idColumn with
  | none =>
    rw [found] at keyed
    cases keyed
  | some column =>
    rw [found] at keyed
    have type : column.type = .int := of_decide_eq_true keyed
    simp only [type]

theorem fetchRows_of_error (valid : table.Valid) {conditions : WhereList} {e : Exn}
    (fails : checkClauses table.schema (keyFirst conditions) = .error e) :
    (fetchRows table conditions).1 = .error e := by
  have nonempty : conditions ≠ [] := by
    rintro rfl
    cases fails
  rw [fetchRows, if_neg nonempty]
  rw [keyFirst] at fails
  cases splits : splitIndexable conditions with
  | none =>
    rw [splits] at fails
    simp only [makeConjunction_of_error fails]
  | some parts =>
    obtain ⟨indexable, rest⟩ := parts
    obtain ⟨indexes, -⟩ := splitIndexable_eq_some splits
    rw [splits, checkClauses, checkClause_of_indexable valid indexes] at fails
    dsimp only
    cases literal : isValidValueFor .int indexable.value with
    | false =>
      rw [literal] at fails
      rw [rowsByIdClause_of_invalid literal]
      cases fails
      rfl
    | true =>
      rw [literal] at fails
      obtain ⟨reads, -, schema_eq, -⟩ := rowsByIdClause_spec valid indexes literal
      have returns : rowsByIdClause table indexable =
          (.ok _, (rowsByIdClause table indexable).2) := Prod.ext reads rfl
      have others : rest ≠ [] := by
        rintro rfl
        cases fails
      rw [returns]
      dsimp only
      rw [if_neg others, schema_eq, makeConjunction_of_error fails]

theorem runSelect_meets (valid : table.Valid) (stmt : SelectStatement) :
    Meets (runSelect stmt table) (.of table valid, (Extent.of table valid).select stmt) := by
  have safe := fetchRows_state valid stmt.conditions
  have selects : (Extent.of table valid).select stmt = (do
    checkColumns table.schema stmt.columns
    checkClauses table.schema (keyFirst stmt.conditions)
    printRows stmt.columns (selected table stmt.conditions)) := rfl
  rw [selects, runSelect]
  cases columns : checkColumns table.schema stmt.columns with
  | error e => exact meets_of_error valid e
  | ok =>
    dsimp only
    obtain ⟨valid', schema_eq, contents_eq⟩ := safe
    have same : Extent.of (fetchRows table stmt.conditions).2 valid' = .of table valid :=
      Extent.ext schema_eq contents_eq
    cases checks : checkClauses table.schema (keyFirst stmt.conditions) with
    | error e =>
      have fetched : fetchRows table stmt.conditions = (.error e, _) :=
        Prod.ext (fetchRows_of_error valid checks) rfl
      rw [fetched]
      exact ⟨_, valid', rfl, same⟩
    | ok =>
      have good : ∀ clause ∈ stmt.conditions, clause.WellFormed table.schema :=
        fun clause there => wellFormed_of_checks checks clause (mem_keyFirst.mpr there)
      have fetched : fetchRows table stmt.conditions = (.ok (selected table stmt.conditions), _) :=
        Prod.ext (fetchRows_of_wellFormed valid good) rfl
      rw [fetched]
      exact ⟨_, valid', rfl, same⟩

theorem runInsert_meets (valid : table.Valid) (stmt : InsertStatement) :
    Meets (runInsert stmt table) ((Extent.of table valid).insert stmt) := by
  have safe := runInsert_safe valid stmt
  obtain ⟨e, builds, inserts⟩ | ⟨row, id, builds, rest⟩ := (Extent.of table valid).insert_cases stmt
  · rw [inserts, runInsert, show buildRow table.makeRow stmt = .error e from builds]
    exact meets_of_error valid e
  replace builds : buildRow table.makeRow stmt = .ok (row, id) := builds
  obtain ⟨e, checks, inserts⟩ | ⟨key, checks, ⟨present, inserts⟩ | ⟨absent, inserts⟩⟩ := rest
  · rw [inserts, runInsert, builds]
    dsimp only
    rw [Table.insert_of_error checks]
    exact meets_of_error valid e
  all_goals
    obtain ⟨flag, contents_eq⟩ := Table.insert_of_ok checks
    have answers : table.insert row = (_, (table.insert row).2) := Prod.ext flag rfl
  · replace present : key ∈ keys table.contents := present
    rw [decide_eq_false (not_not.mpr present)] at answers
    rw [BTree.inserted, if_pos present] at contents_eq
    rw [inserts]
    refine meets_of_safe safe ?_ rfl contents_eq
    rw [runInsert, builds]
    dsimp only
    rw [answers]
  · have new : key ∉ keys table.contents := absent
    rw [decide_eq_true new] at answers
    rw [BTree.inserted, if_neg new] at contents_eq
    rw [inserts]
    refine meets_of_safe safe ?_ rfl contents_eq
    rw [runInsert, builds]
    dsimp only
    rw [answers]

theorem runDelete_meets (valid : table.Valid) (stmt : DeleteStatement) :
    Meets (runDelete stmt table) ((Extent.of table valid).delete stmt) := by
  have schema_eq : (Extent.of table valid).schema = table.schema := rfl
  rw [Extent.delete, schema_eq]
  cases checks : checkClauses table.schema stmt.conditions with
  | error e =>
    have noPoint : pointDelete stmt.conditions = none := by
      by_contra point
      obtain ⟨v, point⟩ := Option.ne_none_iff_exists'.mp point
      have fine := checks_of_wellFormed (pointDelete_spec valid point).1
      cases fine.symm.trans checks
    simp only [runDelete, noPoint, predicateFor_of_error checks]
    exact meets_of_error valid e
  | ok =>
    obtain ⟨table', returns, contents_eq⟩ :=
      runDelete_of_wellFormed valid stmt.table (wellFormed_of_checks checks)
    exact meets_of_safe (runDelete_safe valid stmt) returns rfl contents_eq

theorem runUpdate_meets (valid : table.Valid) (stmt : UpdateStatement) :
    Meets (runUpdate stmt table) ((Extent.of table valid).update stmt) := by
  obtain ⟨e, clauses, updates⟩ | ⟨clauses, rest⟩ := (Extent.of table valid).update_cases stmt
  · replace clauses : checkClauses table.schema stmt.conditions = .error e := clauses
    rw [updates, runUpdate, predicateFor_of_error clauses]
    exact meets_of_error valid e
  obtain ⟨predicate, compiles, holds⟩ := predicateFor_spec (wellFormed_of_checks clauses)
  replace compiles : predicateFor table.schema stmt.conditions = .ok predicate := compiles
  obtain ⟨e, checks, updates⟩ | ⟨checks, updates⟩ := rest
  · replace checks : Table.checkAssignments table.schema stmt.assignments = .error e := checks
    rw [updates, runUpdate, compiles]
    dsimp only
    rw [Table.updateWhere, checks]
    exact meets_of_error valid (rethrow e)
  · have total := fun entry there => holds _ _ (valid.stored entry there)
    have scans := Table.matching_of_total (satisfies stmt.conditions) total
    obtain ⟨table', returns, valid', schema_eq, contents_eq⟩ := valid.updateWhere checks scans
    rw [updates]
    refine ⟨table', valid', ?_, Extent.ext schema_eq (contents_eq.trans ?_)⟩
    · simp only [runUpdate, compiles, returns, Option.bind_eq_bind, Option.bind_some,
        Extent.selected, List.length_map]
      rfl
    · refine List.map_congr_left fun entry there => ?_
      rw [Table.keeps, Scan.holds, total entry there]
      rfl

/-- The constructor of a table throws if the schema has no primary key, and otherwise makes
an empty table. -/
theorem create_cases (schema : Schema) :
    Table.hasPrimaryKey schema = false ∧
        Table.Sound.create schema Table.defaultCacheCapacity = .error Table.noPrimaryKey ∨
      ∃ keyed table, Table.Sound.create schema Table.defaultCacheCapacity = .ok table ∧
        Extent.of table.val table.property = .empty schema keyed := by
  have positive : 0 < Table.defaultCacheCapacity := by decide
  by_cases keyed : Table.hasPrimaryKey schema = true
  · obtain ⟨table, creates, valid, schema_eq, contents_eq⟩ := Table.create_spec keyed positive
    refine .inr ⟨keyed, ⟨table, valid⟩, ?_, Extent.ext schema_eq contents_eq⟩
    rw [Table.Sound.create]
    split
    case h_1 e throws => cases throws.symm.trans creates
    case h_2 table' creates' =>
      cases creates'.symm.trans creates
      rfl
  · have fails : Table.create schema Table.defaultCacheCapacity = .error Table.noPrimaryKey := by
      obtain ⟨cache, creates, -⟩ := LRUCache.Sound.create_spec (K := Int64) (V := Row) positive
      simp only [Table.create, creates, bind, Except.bind, keyed]
      rfl
    refine .inl ⟨Bool.eq_false_iff.mpr keyed, ?_⟩
    rw [Table.Sound.create]
    split
    case h_1 e throws =>
      cases throws.symm.trans fails
      rfl
    case h_2 table creates => cases creates.symm.trans fails

end Tables

/-! ### Queries on the database -/

section Databases

variable [StdHash Str] [StdHash Int64] {db : Database}

/-- What a database of the code stores. -/
def State.of (db : Database) : State := fun name =>
  (Database.getTable db.catalog name).bind fun handle =>
    db.heap[handle]?.map fun table => .of table.val table.property

theorem State.of_empty : State.of Database.empty = .empty := by
  funext name
  simp [State.of, State.empty, Database.empty, Database.getTable]

theorem State.of_eq_none {name : Str} (missing : Database.getTable db.catalog name = none) :
    State.of db name = none := by
  rw [State.of, missing, Option.bind_none]

theorem State.of_eq_some {name : Str} {handle : Nat} {table : Table.Sound}
    (found : Database.getTable db.catalog name = some handle)
    (held : db.heap[handle]? = some table) :
    State.of db name = some (.of table.val table.property) := by
  rw [State.of, found, Option.bind_some, held, Option.map_some]

/-- A name that is bound leads to a table. -/
theorem isSome_of (named : WellNamed Database.getTable db) (name : Str) :
    (State.of db name).isSome = (Database.getTable db.catalog name).isSome := by
  cases found : Database.getTable db.catalog name with
  | none =>
    rw [State.of_eq_none found]
    rfl
  | some handle =>
    rw [State.of_eq_some found (List.getElem?_eq_getElem (named.bound name handle found))]
    rfl

theorem of_put (named : WellNamed Database.getTable db) {name : Str} {handle : Nat}
    (found : Database.getTable db.catalog name = some handle) (table : Table.Sound) :
    State.of (db.put handle table) =
      Function.update (State.of db) name (some (.of table.val table.property)) := by
  have inside := named.bound name handle found
  funext other
  by_cases same : other = name
  · subst same
    rw [Function.update_self]
    exact State.of_eq_some found (List.getElem?_set_self inside)
  · rw [Function.update_of_ne same, State.of, State.of, Store.put]
    cases found' : Database.getTable db.catalog other with
    | none => rfl
    | some handle' =>
      have apart : handle ≠ handle' := by
        rintro rfl
        exact same (named.apart other name handle found' found)
      simp only [Option.bind_some, List.getElem?_set_ne apart]

theorem of_insert (named : WellNamed Database.getTable db) {name : Str}
    (absent : Database.getTable db.catalog name = none) (table : Table.Sound) :
    State.of ⟨(db.catalog.insert name db.heap.length).1, db.heap ++ [table]⟩ =
      Function.update (State.of db) name (some (.of table.val table.property)) := by
  funext other
  by_cases same : other = name
  · subst same
    rw [Function.update_self]
    have found : Database.getTable (db.catalog.insert other db.heap.length).1 other =
        some db.heap.length := by
      rw [Database.getTable_insert, if_pos ⟨rfl, absent⟩]
    exact State.of_eq_some found List.getElem?_concat_length
  · rw [Function.update_of_ne same, State.of, State.of, Database.getTable_insert,
      if_neg fun new => same new.1]
    cases found : Database.getTable db.catalog other with
    | none => rfl
    | some handle =>
      simp only [Option.bind_some]
      rw [List.getElem?_append_left (named.bound other handle found)]

/-- The heap of tables is left alone when the name is taken, and so is the name. -/
theorem of_insert_taken {name : Str} (taken : Database.getTable db.catalog name ≠ none) :
    State.of ⟨(db.catalog.insert name db.heap.length).1, db.heap ++ []⟩ = State.of db := by
  funext other
  rw [State.of, State.of, Database.getTable_insert, if_neg fun new => taken new.2,
    List.append_nil]

theorem of_erase (db : Database) (name : Str) :
    State.of ⟨(db.catalog.erase name).1, db.heap⟩ = Function.update (State.of db) name none := by
  funext other
  rw [State.of, Database.getTable_erase]
  by_cases same : other = name
  · rw [if_pos same, same, Function.update_self, Option.bind_none]
  · rw [if_neg same, Function.update_of_ne same, State.of]

/-- The query returns with this answer, and leaves a database that stores this. -/
def Replies (call : Option (Database × Answer)) (expected : State × Answer) : Prop :=
  ∃ db', call = some (db', expected.2) ∧ State.of db' = expected.1

/-- It may leave the database alone if what is stored under the name stays. -/
theorem replies_of_unchanged {name : Str} (expected : Option Extent × Answer)
    (same : expected.1 = State.of db name) :
    Replies (some (db, expected.2))
      (Function.update (State.of db) name expected.1, expected.2) :=
  ⟨db, rfl, (Function.update_eq_self_iff.mpr same).symm⟩

theorem onTable_replies (named : WellNamed Database.getTable db) {name : Str}
    {action : Table → Option (Table × Answer)} {meaning : Extent → Extent × Answer}
    (safe : ∀ table : Table, table.Valid → Safe table (action table))
    (meets : ∀ (table : Table) (valid : table.Valid),
      Meets (action table) (meaning (.of table valid))) :
    Replies (db.exec Database.getTable (onTable name action safe))
      (Function.update (State.of db) name (onExtent name meaning (State.of db name)).1,
        (onExtent name meaning (State.of db name)).2) := by
  cases found : Database.getTable db.catalog name with
  | none =>
    have missing := State.of_eq_none found
    have executes : db.exec Database.getTable (onTable name action safe) =
        some (db, .error (noSuchTable name)) := by
      simp only [onTable, Store.exec, found]
    rw [executes, missing]
    exact replies_of_unchanged (none, _) missing.symm
  | some handle =>
    have inside := named.bound name handle found
    have held := List.getElem?_eq_getElem inside
    generalize db.heap[handle] = table at held
    obtain ⟨table', valid, returns, leaves⟩ := meets table.val table.property
    rw [State.of_eq_some found held]
    refine ⟨db.put handle ⟨table', valid⟩, ?_, ?_⟩
    · simp only [onTable, Store.exec, found, Store.act, held, Option.map_some,
        Total.keep_eq _ returns valid]
      rfl
    · refine (of_put named found ⟨table', valid⟩).trans ?_
      rw [onExtent, leaves]

theorem runCreate_replies (named : WellNamed Database.getTable db) (stmt : CreateTableStatement) :
    Replies (some (db.change (runCreate stmt)))
      (Function.update (State.of db) stmt.table (create stmt (State.of db stmt.table)).1,
        (create stmt (State.of db stmt.table)).2) := by
  have unchanged (e : Exn) (fails : runCreate stmt db.catalog db.heap.length =
      (db.catalog, none, .error e)) : db.change (runCreate stmt) = (db, .error e) := by
    rw [Store.change, fails]
    simp only [Option.toList_none, List.append_nil]
  rw [create]
  cases builds : addColumns Schema.empty stmt.columns with
  | error e =>
    rw [unchanged e (by simp only [runCreate, builds])]
    exact replies_of_unchanged (_, .error e) rfl
  | ok schema =>
    dsimp only
    by_cases unnamed : stmt.table = []
    · rw [if_pos unnamed, unchanged Database.emptyName
        (by simp only [runCreate, builds, Database.createTable, unnamed, if_true])]
      exact replies_of_unchanged (_, .error _) rfl
    rw [if_neg unnamed]
    obtain ⟨unkeyed, creates⟩ | ⟨keyed, table, creates, holds⟩ := create_cases schema
    · rw [dif_neg (by rw [unkeyed]; exact Bool.false_ne_true), unchanged Table.noPrimaryKey (by
        simp only [runCreate, builds, Database.createTable, unnamed, creates, if_false])]
      exact replies_of_unchanged (_, .error _) rfl
    rw [dif_pos keyed]
    have flag := Database.insert_flag db.catalog stmt.table db.heap.length
    cases found : Database.getTable db.catalog stmt.table with
    | none =>
      rw [found] at flag
      have returns : runCreate stmt db.catalog db.heap.length =
          ((db.catalog.insert stmt.table db.heap.length).1, some table, .ok done) := by
        simp only [runCreate, builds, Database.createTable, unnamed, creates, flag, if_false,
          Option.isNone_none, if_true]
      rw [State.of_eq_none found]
      refine ⟨_, by rw [Store.change, returns], ?_⟩
      rw [← holds]
      exact of_insert named found table
    | some handle =>
      rw [found] at flag
      have returns : runCreate stmt db.catalog db.heap.length =
          ((db.catalog.insert stmt.table db.heap.length).1, none,
            .error (tableExists stmt.table)) := by
        simp only [runCreate, builds, Database.createTable, unnamed, creates, flag, if_false,
          Option.isNone_some, Bool.false_eq_true]
      have inside := named.bound stmt.table handle found
      have held := State.of_eq_some found (List.getElem?_eq_getElem inside)
      rw [held]
      refine ⟨_, by rw [Store.change, returns], ?_⟩
      refine (of_insert_taken (by rw [found]; exact Option.some_ne_none handle)).trans ?_
      exact (Function.update_eq_self_iff.mpr held.symm).symm

theorem runDrop_replies (named : WellNamed Database.getTable db) (stmt : DropTableStatement) :
    Replies (some (db.change (runDrop stmt)))
      (Function.update (State.of db) stmt.table (drop stmt (State.of db stmt.table)).1,
        (drop stmt (State.of db stmt.table)).2) := by
  rw [Store.change, runDrop_eq]
  simp only [Option.toList_none, List.append_nil]
  cases found : Database.getTable db.catalog stmt.table with
  | none =>
    rw [State.of_eq_none found]
    exact ⟨_, rfl, of_erase db stmt.table⟩
  | some handle =>
    have inside := named.bound stmt.table handle found
    rw [State.of_eq_some found (List.getElem?_eq_getElem inside)]
    exact ⟨_, rfl, of_erase db stmt.table⟩

theorem perform_replies (named : WellNamed Database.getTable db) (query : Str) :
    Replies (perform db query) ((State.of db).perform query) := by
  rw [perform, plan, State.perform]
  cases compile query with
  | error e =>
    refine ⟨db, ?_, rfl⟩
    simp only [Store.exec, Store.change, Option.toList_none, List.append_nil]
  | ok stmt =>
    cases stmt with
    | create stmt => exact runCreate_replies named stmt
    | drop stmt => exact runDrop_replies named stmt
    | insert stmt =>
      exact onTable_replies named (fun _ valid => runInsert_safe valid stmt)
        fun _ valid => runInsert_meets valid stmt
    | select stmt =>
      exact onTable_replies named (fun _ valid => runSelect_safe valid stmt)
        fun _ valid => runSelect_meets valid stmt
    | update stmt =>
      exact onTable_replies named (fun _ valid => runUpdate_safe valid stmt)
        fun _ valid => runUpdate_meets valid stmt
    | delete stmt =>
      exact onTable_replies named (fun _ valid => runDelete_safe valid stmt)
        fun _ valid => runDelete_meets valid stmt

/-- The state a database of the code represents. -/
structure Represents (db : Database) (state : State) : Prop where
  sane : Sane db
  eq : State.of db = state

theorem execute_simulates : Machine.Simulates execute State.execute Represents Eq := by
  rintro db _ query ⟨sane, rfl⟩
  obtain ⟨db', performs, leaves⟩ := perform_replies sane.named query
  obtain ⟨db'', text, executes, sane'⟩ := sane_execute sane query
  have executes' : execute db query = some (db', ((State.of db).execute query).2) := by
    rw [execute_eq, performs]
    rfl
  cases executes.symm.trans executes'
  exact ⟨db', _, executes', ⟨sane', leaves⟩, rfl⟩

/-- Whatever queries are executed on the empty database, one after the other: they all
return, each reply is the one of the database without tree, cache and catalog, and so is
what is stored in the end. -/
theorem execution_refines_relations (queries : List Str) :
    ∃ db, Machine.run execute Database.empty queries =
        some (db, (Machine.runTotal State.execute .empty queries).2) ∧
      State.of db = (Machine.runTotal State.execute .empty queries).1 := by
  have start : Represents Database.empty .empty := ⟨sane_empty, State.of_empty⟩
  obtain ⟨db, runs, represents⟩ := execute_simulates.run_eq queries start
  exact ⟨db, runs, represents.eq⟩

/-- After any run of queries, `tableNames` lists the names of that database, each once and in
ascending order, and `tableCount` is their number. -/
theorem tableNames_after_run (queries : List Str) :
    ∃ db replies, Machine.run execute Database.empty queries = some (db, replies) ∧
      (Database.tableNames db.catalog).Pairwise (· < ·) ∧
      (∀ name, name ∈ Database.tableNames db.catalog ↔
        ((Machine.runTotal State.execute .empty queries).1 name).isSome) ∧
      Database.tableCount db.catalog = (Database.tableNames db.catalog).length := by
  have start : Represents Database.empty .empty := ⟨sane_empty, State.of_empty⟩
  obtain ⟨db, runs, represents⟩ := execute_simulates.run_eq queries start
  refine ⟨db, _, runs, Database.tableNames_ascending _, fun name => ?_, Database.tableCount_eq _⟩
  rw [Database.mem_tableNames, ← represents.eq, isSome_of represents.sane.named]

end Databases

end CppDB.Relational
