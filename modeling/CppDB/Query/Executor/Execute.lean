import CppDB.Core.Database
import CppDB.Query.Executor.Statements
import CppDB.Query.Lexer.Stream
import CppDB.Query.Parser.Correctness

/-! `QueryExecutor::execute`: a query is lexed, parsed and run; what is thrown becomes an
`ERROR: ` reply. A statement is written as the sections it takes on the shared database,
which it takes one right after the other when no other client is at work. -/
namespace CppDB.Executor

open Registry

/-! ### From the text to the statement -/

/-- Nothing if the lexer or the parser does not return. -/
def parseQuery (query : Str) : Option (Except Exn Statement) :=
  match Lexer.tokenize query with
  | none => none
  | some (.error e) => some (.error e)
  | some (.ok tokens) =>
    (Parser.parse tokens).map fun parsed => parsed.mapError fun e => .queryError e.what

theorem parseQuery_spec (query : Str) :
    ∃ parsed, parseQuery query = some parsed ∧ ∀ stmt, parsed = .ok (.create stmt) →
      ∀ column ∈ stmt.columns, ∀ c ∈ column.name, Lexer.isIdentChar c := by
  obtain ⟨lexed, lexes, shape⟩ := Lexer.tokenize_spec query
  cases lexed with
  | error e => exact ⟨.error e, by simp only [parseQuery, lexes], fun _ impossible => by cases impossible⟩
  | ok tokens =>
    obtain ⟨body, last, rfl, ends, inner⟩ := shape tokens rfl
    obtain ⟨⟨parsed, parses⟩, exactly⟩ :=
      Parser.parse_spec (fun t member => (inner t member).inner) ends
    refine ⟨parsed.mapError fun e => .queryError e.what, ?_, ?_⟩
    · simp only [parseQuery, lexes, parses, Option.map_some]
    · intro stmt is column listed
      cases parsed with
      | error e => cases is
      | ok stmt' =>
        cases is
        obtain ⟨t, member, type, value⟩ :=
          Parser.exists_token_of_create ((exactly _).mp parses) listed
        exact value ▸ (inner t member).word type

/-- The statement of a query, or the `QueryError` thrown for it. -/
def compile (query : Str) : Except Exn Statement :=
  (parseQuery query).get (by
    obtain ⟨parsed, returns, -⟩ := parseQuery_spec query
    rw [returns]
    rfl)

theorem parseQuery_eq (query : Str) : parseQuery query = some (compile query) :=
  (Option.some_get _).symm

/-- A text that compiles to a statement, as the parser computes it. -/
theorem compile_of_parseQuery {query : Str} {stmt : Statement}
    (parses : parseQuery query = some (.ok stmt)) : compile query = .ok stmt := by
  rw [← Option.some_inj, ← parseQuery_eq]
  exact parses

theorem compile_create {query : Str} {stmt : CreateTableStatement}
    (compiles : compile query = .ok (.create stmt)) :
    ∀ column ∈ stmt.columns, ∀ c ∈ column.name, Lexer.isIdentChar c := by
  obtain ⟨parsed, returns, words⟩ := parseQuery_spec query
  rw [parseQuery_eq] at returns
  exact words stmt (Option.some.inj returns ▸ compiles)

/-! ### From the statement to its sections -/

def tableExists (name : Str) : Exn :=
  .queryError ("table '".toList ++ name ++ "' already exists".toList)

def noSuchTable (name : Str) : Exn :=
  .queryError ("no such table '".toList ++ name ++ "'".toList)

def addColumns (schema : Schema) : List ColumnDef → Except Exn Schema
  | [] => .ok schema
  | definition :: rest => do
    let schema ← schema.addColumn definition.name definition.type
    addColumns schema rest

variable [StdHash Str] [StdHash Int64]

def runCreate (stmt : CreateTableStatement) (catalog : Catalog) (free : Nat) :
    Catalog × Option Table.Sound × Answer :=
  match addColumns Schema.empty stmt.columns with
  | .error e => (catalog, none, .error e)
  | .ok schema =>
    match Database.createTable stmt.table schema catalog free with
    | (catalog, added, .error e) => (catalog, added, .error e)
    | (catalog, added, .ok true) => (catalog, added, .ok done)
    | (catalog, added, .ok false) => (catalog, added, .error (tableExists stmt.table))

def runDrop (stmt : DropTableStatement) (catalog : Catalog) (_free : Nat) :
    Catalog × Option Table.Sound × Answer :=
  match Database.dropTable stmt.table catalog with
  | (catalog, true) => (catalog, none, .ok done)
  | (catalog, false) => (catalog, none, .error (noSuchTable stmt.table))

/-- `tableOrThrow`, and then what the statement does with the table. -/
def onTable (name : Str) (action : Table → Option (Table × Answer))
    (safe : ∀ table : Table, table.Valid → Safe table (action table)) :
    Plan Catalog Table.Sound Str Answer :=
  .object name (.error (noSuchTable name)) fun table =>
    Total.keep (action table.val) (by
      obtain ⟨table', answer, returns, valid, -⟩ := safe table.val table.property
      exact ⟨table', answer, returns, valid⟩)

def run : Statement → Plan Catalog Table.Sound Str Answer
  | .create stmt => .catalog (runCreate stmt)
  | .drop stmt => .catalog (runDrop stmt)
  | .insert stmt => onTable stmt.table (runInsert stmt) fun _ valid => runInsert_safe valid stmt
  | .select stmt => onTable stmt.table (runSelect stmt) fun _ valid => runSelect_safe valid stmt
  | .update stmt => onTable stmt.table (runUpdate stmt) fun _ valid => runUpdate_safe valid stmt
  | .delete stmt => onTable stmt.table (runDelete stmt) fun _ valid => runDelete_safe valid stmt

/-- A query that is no statement throws before it takes any section. -/
def plan (query : Str) : Plan Catalog Table.Sound Str Answer :=
  match compile query with
  | .error e => .catalog fun catalog _ => (catalog, none, .error e)
  | .ok stmt => run stmt

def errorTag : Str := "ERROR: ".toList

def reply : Answer → Str
  | .ok text => text
  | .error e => errorTag ++ e.what

/-- The text of the query returns, or the exception thrown for it. -/
def perform (db : Database) (query : Str) : Option (Database × Answer) :=
  db.exec Database.getTable (plan query)

def execute (db : Database) (query : Str) : Option (Database × Str) :=
  db.exec Database.getTable ((plan query).map reply)

theorem execute_eq (db : Database) (query : Str) :
    execute db query = (perform db query).map fun p => (p.1, reply p.2) :=
  Store.exec_map ..

/-! ### What the two statements on the catalog do -/

theorem runCreate_cases (stmt : CreateTableStatement) (catalog : Catalog) (free : Nat) :
    (∃ e, runCreate stmt catalog free = (catalog, none, .error e)) ∨
      (∃ table : Table.Sound, addColumns Schema.empty stmt.columns = .ok table.val.schema ∧
        Database.getTable catalog stmt.table = none ∧
        runCreate stmt catalog free =
          ((catalog.insert stmt.table free).1, some table, .ok done)) ∨
      Database.getTable catalog stmt.table ≠ none ∧
        runCreate stmt catalog free =
          ((catalog.insert stmt.table free).1, none, .error (tableExists stmt.table)) := by
  cases builds : addColumns Schema.empty stmt.columns with
  | error e => exact .inl ⟨e, by simp only [runCreate, builds]⟩
  | ok schema =>
    by_cases unnamed : stmt.table = []
    · exact .inl ⟨Database.emptyName, by simp [runCreate, builds, Database.createTable, unnamed]⟩
    · cases creates : Table.Sound.create schema Table.defaultCacheCapacity with
      | error e =>
        exact .inl ⟨e, by simp [runCreate, builds, Database.createTable, unnamed, creates]⟩
      | ok table =>
        have flag := Database.insert_flag catalog stmt.table free
        cases absent : Database.getTable catalog stmt.table with
        | none =>
          rw [absent, Option.isNone_none] at flag
          refine .inr (.inl ⟨table, ?_, rfl, ?_⟩)
          · rw [Table.Sound.schema_of_create creates]
          · simp only [runCreate, builds, Database.createTable, unnamed, creates, flag, if_false,
              if_true]
        | some h =>
          rw [absent, Option.isNone_some] at flag
          refine .inr (.inr ⟨Option.some_ne_none h, ?_⟩)
          simp only [runCreate, builds, Database.createTable, unnamed, creates, flag, if_false,
            Bool.false_eq_true]

theorem runDrop_eq (stmt : DropTableStatement) (catalog : Catalog) (free : Nat) :
    runDrop stmt catalog free = ((catalog.erase stmt.table).1, none,
      if (Database.getTable catalog stmt.table).isSome then .ok done
      else .error (noSuchTable stmt.table)) := by
  have drops : Database.dropTable stmt.table catalog =
      ((catalog.erase stmt.table).1, (Database.getTable catalog stmt.table).isSome) :=
    Prod.ext rfl (Database.erase_flag catalog stmt.table)
  rw [runDrop, drops]
  cases (Database.getTable catalog stmt.table).isSome <;> rfl

/-- Statements bind a name only to the table they add. -/
theorem plan_lawful (query : Str) : (plan query).Lawful Database.getTable := by
  rw [plan]
  split
  · exact fun _ _ => ⟨[], fun _ _ => .inl⟩
  · rename_i stmt compiles
    cases stmt with
    | create stmt =>
      intro catalog free
      refine ⟨stmt.table, fun n h found => ?_⟩
      obtain ⟨e, runs⟩ | ⟨table, -, absent, runs⟩ | ⟨present, runs⟩ :=
        runCreate_cases stmt catalog free
      · rw [runs] at found
        exact .inl found
      · rw [runs, Database.getTable_insert] at found
        rw [runs]
        split_ifs at found with new
        · exact .inr ⟨new.1, (Option.some.inj found).symm, rfl⟩
        · exact .inl found
      · rw [runs, Database.getTable_insert, if_neg fun new => present new.2] at found
        exact .inl found
    | drop stmt =>
      intro catalog free
      refine ⟨stmt.table, fun n h found => .inl ?_⟩
      rw [runDrop_eq, Database.getTable_erase] at found
      split_ifs at found
      exact found
    | _ => trivial

/-- The statements clients send, with their replies. -/
def system : System Catalog Table.Sound Str Str Str where
  lookup := Database.getTable
  plan query := (plan query).map reply
  lawful query := (plan_lawful query).map reply

theorem system_step (db : Database) (query : Str) : system.step db query = execute db query := rfl

end CppDB.Executor
