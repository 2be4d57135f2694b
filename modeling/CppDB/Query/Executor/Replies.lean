import CppDB.Lib.Lines
import CppDB.Query.Executor.Texts

/-! The replies to queries without a line feed tell where they end, so a client can cut
the stream it reads. -/
namespace CppDB.Executor

open Lexer Outcome Registry

/-! ### The shapes of a reply -/

def okTag : Str := "OK (".toList

/-- The line of a reply that says in itself how the query ended. -/
def Status (line : Str) : Prop := line = done ∨ okTag <+: line ∨ errorTag <+: line

/-- The line opens as the footer of a `SELECT` does. -/
def Parenthesized (line : Str) : Prop := "(".toList <+: line

/-- The reply to a `SELECT` that succeeds: its footer is its only line with a parenthesis in
front and says how many lines come before it, and no line is a status. -/
structure Listing (reply : Str) : Prop where
  counted : ∃ lines, reply.splitOn '\n' = lines ++ [footer lines.length] ∧
    ∀ line ∈ lines, ¬ Parenthesized line
  plain : ∀ line ∈ reply.splitOn '\n', ¬ Status line

def IsSelect (query : Str) : Prop := ∃ stmt, compile query = .ok (.select stmt)

/-- A status on one line, or the listing a `SELECT` asked for. -/
def Shaped (query reply : Str) : Prop :=
  Clean reply ∧ Status reply ∨ IsSelect query ∧ Listing reply

theorem parenthesized_footer (n : Nat) : Parenthesized (footer n) := by
  rw [footer, List.append_assoc]
  exact List.prefix_append _ _

theorem not_status_of_parenthesized {line : Str} (opens : Parenthesized line) : ¬ Status line := by
  obtain ⟨behind, rfl⟩ := opens
  rintro (same | ⟨rest, same⟩ | ⟨rest, same⟩) <;> cases same

/-- Behind the letters of a status comes no equal sign. -/
theorem BeginsNamed.not_status {line : Str} (begins : BeginsNamed line) : ¬ Status line := by
  obtain ⟨rest, drops⟩ := begins.dropWhile
  rintro (rfl | ⟨behind, rfl⟩ | ⟨behind, rfl⟩) <;> cases drops

theorem BeginsNamed.not_parenthesized {line : Str} (begins : BeginsNamed line) :
    ¬ Parenthesized line := by
  obtain ⟨rest, drops⟩ := begins.dropWhile
  rintro ⟨behind, rfl⟩
  cases drops

/-- The line at which a reply is over. -/
def Ending (line : Str) : Prop := Status line ∨ Parenthesized line

theorem Shaped.block {query reply : Str} (shaped : Shaped query reply) :
    Lines.Block Ending (reply.splitOn '\n') := by
  obtain ⟨clean, status⟩ | ⟨-, listing⟩ := shaped
  · rw [List.splitOn_eq_singleton clean]
    exact ⟨[], reply, rfl, nofun, .inl status⟩
  · obtain ⟨lines, splits, opens⟩ := listing.counted
    refine ⟨lines, footer lines.length, splits, ?_, .inr (parenthesized_footer _)⟩
    rintro line there (status | parenthesized)
    · exact listing.plain line (splits ▸ List.mem_append_left _ there) status
    · exact opens line there parenthesized

/-! ### The texts of the statements -/

theorem clean_rowsSuffix (n : Nat) : Clean (rowsSuffix n) := by
  apply Clean.append.mpr
  constructor
  · exact clean_decimal n
  · split <;> decide

theorem clean_footer (n : Nat) : Clean (footer n) :=
  Clean.between (by decide) (clean_rowsSuffix n) (by decide)

/-- Lines that begin with the name of a column, and the footer that counts them. -/
theorem listing_of_lines {lines : List Str} (all : ∀ line ∈ lines, Clean line ∧ BeginsNamed line) :
    Listing (lines.flatMap (· ++ ['\n']) ++ footer lines.length) := by
  have splits := Lines.splitOn_lines (fun line there => (all line there).1)
    (clean_footer lines.length)
  constructor
  · exact ⟨lines, splits, fun line there => (all line there).2.not_parenthesized⟩
  · rw [splits]
    intro line there
    obtain there | there := List.mem_append.mp there
    · exact (all line there).2.not_status
    · rw [List.mem_singleton.mp there]
      exact not_status_of_parenthesized (parenthesized_footer _)

section Printing

variable {schema : Schema} {columns : List Str} {rows : List Row}

theorem formatRows_tidy (worded : Worded schema) (keyed : schema.hasColumn Table.idColumn)
    (known : ∀ column ∈ columns, schema.hasColumn column)
    (all : ∀ row ∈ rows, row.schema = schema ∧ CleanRow row) :
    Tidy (fun text => ∃ lines : List Str, lines.length = rows.length ∧
        text = lines.flatMap (· ++ ['\n']) ∧ ∀ line ∈ lines, Clean line ∧ BeginsNamed line)
      (formatRows columns rows) := by
  have named : ∀ column ∈ columns, Clean column :=
    fun column there => clean_of_word (word_of_hasColumn worded (known column there))
  induction rows with
  | nil => exact ⟨[], rfl, rfl, nofun⟩
  | cons row rest ih =>
    obtain ⟨⟨rfl, clean⟩, others⟩ := List.forall_mem_cons.mp all
    have line : Tidy (fun line => Clean line ∧ BeginsNamed line) (formatRow columns row) := by
      have tidy := formatRow_tidy clean worded named
      cases formats : formatRow columns row with
      | error e =>
        rw [formats] at tidy
        exact tidy
      | ok line =>
        rw [formats] at tidy
        exact ⟨tidy, beginsNamed_formatRow worded keyed known formats⟩
    apply line.bind
    intro line first
    apply (ih others).bind
    rintro text ⟨lines, length, rfl, behind⟩
    refine ⟨line :: lines, ?_, rfl, List.forall_mem_cons.mpr ⟨first, behind⟩⟩
    rw [List.length_cons, List.length_cons, length]

theorem printRows_tidy (worded : Worded schema) (keyed : schema.hasColumn Table.idColumn)
    (known : ∀ column ∈ columns, schema.hasColumn column)
    (all : ∀ row ∈ rows, row.schema = schema ∧ CleanRow row) :
    Tidy Listing (printRows columns rows) := by
  rw [printRows]
  split
  · exact @listing_of_lines [] fun _ none => absurd none List.not_mem_nil
  · apply (formatRows_tidy worded keyed known all).map
    rintro text ⟨lines, length, rfl, behind⟩
    rw [← length]
    exact listing_of_lines behind

end Printing

/-- What a statement may reply when it throws nothing. -/
def Answers : Statement → Str → Prop
  | .select _, text => Listing text
  | _, text => Clean text ∧ Status text

theorem answers_done : Clean done ∧ Status done := ⟨by decide, .inl rfl⟩

theorem answers_counting {n : Nat} {behind : Str} (clean : Clean behind) :
    Clean (okTag ++ rowsSuffix n ++ behind) ∧ Status (okTag ++ rowsSuffix n ++ behind) := by
  constructor
  · exact Clean.between (by decide) (clean_rowsSuffix n) clean
  · rw [List.append_assoc]
    exact .inr (.inl (List.prefix_append _ _))

theorem clean_rethrow {e : Exn} (clean : Clean e.message) : Clean (rethrow e).message := by
  cases e with
  | invalidArgument message => exact clean.takeWhile _
  | _ => exact clean

/-! ### The statements on a table -/

section Tables

variable [StdHash Int64] {table table' : Table} {answer : Answer}

def CleanTable (table : Table) : Prop := ∀ entry ∈ table.contents, CleanRow entry.2

theorem runInsert_tidy {stmt : InsertStatement} (clean : CleanStatement (.insert stmt))
    (all : CleanTable table) (runs : runInsert stmt table = some (table', answer)) :
    CleanTable table' ∧ Tidy (Answers (.insert stmt)) answer := by
  have builds : Tidy (fun built => CleanRow built.1) (buildRow table.makeRow stmt) :=
    buildRow_tidy (cleanRow_blank table.schema) clean
  rw [runInsert] at runs
  cases built : buildRow table.makeRow stmt with
  | error e =>
    rw [built] at runs builds
    cases runs
    exact ⟨all, builds⟩
  | ok made =>
    obtain ⟨row, id⟩ := made
    rw [built] at runs builds
    have kept : CleanTable (table.insert row).2 := by
      cases checks : Table.checkRow table.schema row with
      | error e =>
        rw [Table.insert_of_error checks]
        exact all
      | ok key =>
        intro entry there
        rw [(Table.insert_of_ok checks).2] at there
        obtain rfl | there := Table.mem_inserted there
        · exact builds
        · exact all entry there
    have throws : Tidy (fun _ => True) (table.insert row).1 := by
      have tidy := checkRow_tidy table.schema row
      rw [Table.insert]
      cases checks : Table.checkRow table.schema row with
      | error e =>
        rw [checks] at tidy
        exact tidy
      | ok key => trivial
    dsimp only at runs
    split at runs
    · rename_i inserts
      cases runs
      rw [inserts] at kept throws
      exact ⟨kept, throws⟩
    · rename_i inserts
      cases runs
      rw [inserts] at kept
      exact ⟨kept, answers_done⟩
    · rename_i inserts
      cases runs
      rw [inserts] at kept
      constructor
      · exact kept
      · apply Clean.between _ clean.1 (by decide)
        exact Clean.between (by decide) (clean_numeral id) (by decide)

theorem runSelect_tidy {stmt : SelectStatement} (clean : CleanStatement (.select stmt))
    (valid : table.Valid) (worded : Worded table.schema) (all : CleanTable table)
    (runs : runSelect stmt table = some (table', answer)) :
    CleanTable table' ∧ Tidy (Answers (.select stmt)) answer := by
  obtain ⟨-, named, conditions⟩ := clean
  have checks : Tidy _ (checkColumns table.schema stmt.columns) := checkColumns_tidy named
  rw [runSelect] at runs
  cases checked : checkColumns table.schema stmt.columns with
  | error e =>
    rw [checked] at runs checks
    cases runs
    exact ⟨all, checks⟩
  | ok =>
    rw [checked] at runs
    have known := known_of_checkColumns checked
    have fetches : Tidy _ (fetchRows table stmt.conditions).1 := fetchRows_tidy conditions
    have same := (fetchRows_state valid stmt.conditions).2.2
    have kept : CleanTable (fetchRows table stmt.conditions).2 := by
      rw [CleanTable, same]
      exact all
    cases fetched : fetchRows table stmt.conditions with
    | mk found table'' =>
      rw [fetched] at runs fetches kept
      cases found with
      | error e =>
        cases runs
        exact ⟨kept, fetches⟩
      | ok rows =>
        have stored := mem_of_fetched valid (congrArg Prod.fst fetched)
        obtain ⟨rfl, rfl⟩ := Prod.mk.inj (Option.some.inj runs)
        refine ⟨kept, printRows_tidy worded (hasColumn_id valid) known ?_⟩
        intro row there
        obtain ⟨id, here⟩ := stored row there
        exact ⟨(valid.stored _ here).schema_eq, all _ here⟩

theorem runUpdate_tidy {stmt : UpdateStatement} (clean : CleanStatement (.update stmt))
    (valid : table.Valid) (all : CleanTable table)
    (runs : runUpdate stmt table = some (table', answer)) :
    CleanTable table' ∧ Tidy (Answers (.update stmt)) answer := by
  obtain ⟨-, pairs, conditions⟩ := clean
  have makes : Tidy TidyPredicate (predicateFor table.schema stmt.conditions) :=
    predicateFor_tidy conditions
  rw [runUpdate] at runs
  cases made : predicateFor table.schema stmt.conditions with
  | error e =>
    rw [made] at runs makes
    cases runs
    exact ⟨all, makes⟩
  | ok predicate =>
    rw [made] at runs makes
    have checks : Tidy _ (Table.checkAssignments table.schema stmt.assignments) :=
      checkAssignments_tidy pairs
    have asks := matching_tidy makes table
    cases checked : Table.checkAssignments table.schema stmt.assignments with
    | error e =>
      rw [checked] at checks
      simp only [Table.updateWhere, checked] at runs
      cases runs
      exact ⟨all, clean_rethrow checks⟩
    | ok =>
      cases scans : table.matching predicate with
      | error e =>
        rw [scans] at asks
        simp only [Table.updateWhere, checked, scans] at runs
        cases runs
        exact ⟨all, clean_rethrow asks⟩
      | ok matched =>
        obtain ⟨table'', updates, -, -, contents_eq⟩ := valid.updateWhere checked scans
        simp only [updates] at runs
        cases runs
        refine ⟨?_, answers_counting (by decide)⟩
        intro entry there
        rw [contents_eq] at there
        obtain ⟨old, stored, rfl⟩ := List.mem_map.mp there
        split
        · exact cleanRow_assignAll (all old stored) pairs
        · exact all old stored

theorem runDelete_tidy {stmt : DeleteStatement} (clean : CleanStatement (.delete stmt))
    (all : CleanTable table) (runs : runDelete stmt table = some (table', answer)) :
    CleanTable table' ∧ Tidy (Answers (.delete stmt)) answer := by
  rw [runDelete] at runs
  cases point : pointDelete stmt.conditions with
  | some id =>
    rw [point] at runs
    dsimp only at runs
    obtain ⟨rfl, rfl⟩ := Prod.mk.inj (Option.some.inj runs)
    refine ⟨?_, answers_counting (by decide)⟩
    intro entry there
    rw [(Table.deleteById_spec table id).2.2] at there
    exact all entry (List.mem_filter.mp there).1
  | none =>
    have makes : Tidy TidyPredicate (predicateFor table.schema stmt.conditions) :=
      predicateFor_tidy clean.2
    rw [point] at runs
    dsimp only at runs
    cases made : predicateFor table.schema stmt.conditions with
    | error e =>
      rw [made] at runs makes
      cases runs
      exact ⟨all, makes⟩
    | ok predicate =>
      rw [made] at runs makes
      dsimp only at runs
      have asks := matching_tidy makes table
      cases scans : table.matching predicate with
      | error e =>
        rw [scans] at asks
        rw [Table.deleteWhere_of_error scans] at runs
        cases runs
        exact ⟨all, asks⟩
      | ok doomed =>
        obtain ⟨deletes, -, contents_eq⟩ := Table.deleteWhere_of_ok scans
        rw [deletes] at runs
        obtain ⟨rfl, rfl⟩ := Prod.mk.inj (Option.some.inj runs)
        refine ⟨?_, answers_counting (by decide)⟩
        intro entry there
        rw [contents_eq] at there
        exact all entry (List.mem_filter.mp there).1

theorem create_tidy (schema : Schema) :
    Tidy (fun table : Table => table.contents = [])
      (Table.create schema Table.defaultCacheCapacity) := by
  have positive : 0 < Table.defaultCacheCapacity := by decide
  by_cases keyed : Table.hasPrimaryKey schema = true
  · obtain ⟨table, creates, -, -, empty⟩ := Table.create_spec keyed positive
    rw [creates]
    exact empty
  · obtain ⟨cache, creates, -⟩ := LRUCache.Sound.create_spec (K := Int64) (V := Row) positive
    simp only [Table.create, creates, bind, Except.bind, keyed]
    exact (by decide +kernel : Clean Table.noPrimaryKey.message)

theorem soundCreate_tidy (schema : Schema) :
    Tidy (fun table : Table.Sound => table.val.contents = [])
      (Table.Sound.create schema Table.defaultCacheCapacity) := by
  have tidy := create_tidy schema
  rw [Table.Sound.create]
  split
  · rename_i creates
    rw [creates] at tidy
    exact tidy
  · rename_i creates
    rw [creates] at tidy
    exact tidy

end Tables

/-! ### One query -/

theorem compile_tidy {query : Str} (clean : Clean query) : Tidy CleanStatement (compile query) := by
  obtain ⟨throws, makes⟩ := Lexer.clean_tokenizeFrom clean
  have parses := parseQuery_eq query
  rw [parseQuery] at parses
  split at parses
  · cases parses
  · rename_i e lexes
    rw [← Option.some.inj parses]
    exact throws e lexes
  · rename_i tokens lexes
    obtain ⟨fails, succeeds⟩ := Parser.clean_parse (makes tokens lexes)
    obtain ⟨parsed, returns, same⟩ := Option.map_eq_some_iff.mp parses
    rw [← same]
    cases parsed with
    | error e => exact fails e returns
    | ok stmt => exact succeeds stmt returns

theorem status_of_error {e : Exn} (clean : Clean e.message) :
    Clean (reply (.error e)) ∧ Status (reply (.error e)) := by
  constructor
  · exact Clean.append.mpr ⟨by decide, clean.takeWhile _⟩
  · exact .inr (.inr (List.prefix_append _ _))

theorem shaped_of_tidy {query : Str} {stmt : Statement} {answer : Answer}
    (compiles : compile query = .ok stmt) (tidy : Tidy (Answers stmt) answer) :
    Shaped query (reply answer) := by
  cases answer with
  | error e => exact .inl (status_of_error tidy)
  | ok text =>
    cases stmt with
    | select stmt => exact .inr ⟨⟨stmt, compiles⟩, tidy⟩
    | _ => exact .inl tidy

theorem clean_noSuchTable {name : Str} (named : Clean name) : Clean (noSuchTable name).message :=
  Clean.between (by decide) named (by decide)

section Databases

variable [StdHash Str] [StdHash Int64] {db db' : Database} {answer : Answer}

def CleanHeap (db : Database) : Prop := ∀ table ∈ db.heap, CleanTable table.val

theorem onTable_tidy (sane : Sane db) (all : CleanHeap db) {name : Str} (named : Clean name)
    {action : Table → Option (Table × Answer)}
    (safe : ∀ table : Table, table.Valid → Safe table (action table)) {post : Str → Prop}
    (acts : ∀ table table' answer, table.Valid → Worded table.schema → CleanTable table →
      action table = some (table', answer) → CleanTable table' ∧ Tidy post answer)
    (execs : db.exec Database.getTable (onTable name action safe) = some (db', answer)) :
    CleanHeap db' ∧ Tidy post answer := by
  simp only [onTable, Store.exec] at execs
  split at execs
  · cases execs
    exact ⟨all, clean_noSuchTable named⟩
  · obtain ⟨table, held, same⟩ := Option.map_eq_some_iff.mp execs
    obtain ⟨raw, answer', returns, valid, -⟩ := safe table.val table.property
    dsimp only at same
    rw [Total.keep_eq _ returns valid] at same
    cases same
    have member := List.mem_of_getElem? held
    obtain ⟨kept, tidy⟩ := acts table.val raw _ table.property (sane.worded table member)
      (all table member) returns
    refine ⟨?_, tidy⟩
    intro table' there
    obtain there | rfl := List.mem_or_eq_of_mem_set there
    · exact all table' there
    · exact kept

theorem runCreate_tidy {stmt : CreateTableStatement} (clean : CleanStatement (.create stmt))
    (catalog : Catalog) (free : Nat) :
    (∀ table ∈ (runCreate stmt catalog free).2.1, CleanTable table.val) ∧
      Tidy (Answers (.create stmt)) (runCreate stmt catalog free).2.2 := by
  have adds : Tidy _ (addColumns Schema.empty stmt.columns) := addColumns_tidy clean.2
  rw [runCreate]
  cases added : addColumns Schema.empty stmt.columns with
  | error e =>
    rw [added] at adds
    constructor
    · rintro table ⟨⟩
    · exact adds
  | ok schema =>
    have creates := soundCreate_tidy schema
    dsimp only
    by_cases unnamed : stmt.table = []
    · simp only [Database.createTable, unnamed, if_true]
      constructor
      · rintro table ⟨⟩
      · exact (by decide +kernel : Clean Database.emptyName.message)
    · simp only [Database.createTable, unnamed, if_false]
      cases created : Table.Sound.create schema Table.defaultCacheCapacity with
      | error e =>
        rw [created] at creates
        constructor
        · rintro table ⟨⟩
        · exact creates
      | ok table =>
        rw [created] at creates
        dsimp only
        cases (HashMap.Sound.insert catalog stmt.table free).2 with
        | false =>
          constructor
          · rintro table' ⟨⟩
          · exact Clean.between (by decide) clean.1 (by decide)
        | true =>
          constructor
          · intro table' is entry there
            cases is
            rw [creates] at there
            cases there
          · exact answers_done

theorem run_tidy (sane : Sane db) (all : CleanHeap db) {stmt : Statement}
    (clean : CleanStatement stmt)
    (execs : db.exec Database.getTable (run stmt) = some (db', answer)) :
    CleanHeap db' ∧ Tidy (Answers stmt) answer := by
  cases stmt with
  | create stmt =>
    obtain ⟨added, tidy⟩ := runCreate_tidy clean db.catalog db.heap.length
    cases execs
    refine ⟨?_, tidy⟩
    intro table there
    obtain there | there := List.mem_append.mp there
    · exact all table there
    · exact added table (Option.mem_toList.mp there)
  | drop stmt =>
    simp only [run, Store.exec, Store.change, runDrop_eq, Option.toList_none,
      List.append_nil] at execs
    cases execs
    refine ⟨all, ?_⟩
    split
    · exact answers_done
    · exact clean_noSuchTable clean
  | insert stmt =>
    apply onTable_tidy sane all clean.1 (fun _ valid => runInsert_safe valid stmt) _ execs
    intro table table' answer _ _ kept runs
    exact runInsert_tidy clean kept runs
  | select stmt =>
    apply onTable_tidy sane all clean.1 (fun _ valid => runSelect_safe valid stmt) _ execs
    intro table table' answer valid worded kept runs
    exact runSelect_tidy clean valid worded kept runs
  | update stmt =>
    apply onTable_tidy sane all clean.1 (fun _ valid => runUpdate_safe valid stmt) _ execs
    intro table table' answer valid _ kept runs
    exact runUpdate_tidy clean valid kept runs
  | delete stmt =>
    apply onTable_tidy sane all clean.1 (fun _ valid => runDelete_safe valid stmt) _ execs
    intro table table' answer _ _ kept runs
    exact runDelete_tidy clean kept runs

theorem perform_tidy (sane : Sane db) (all : CleanHeap db) {query : Str} (clean : Clean query)
    (performs : perform db query = some (db', answer)) :
    CleanHeap db' ∧ Shaped query (reply answer) := by
  have compiles := compile_tidy clean
  rw [perform, plan] at performs
  cases compiled : compile query with
  | error e =>
    rw [compiled] at compiles performs
    simp only [Store.exec, Store.change, Option.toList_none, List.append_nil] at performs
    cases performs
    exact ⟨all, .inl (status_of_error compiles)⟩
  | ok stmt =>
    rw [compiled] at compiles performs
    obtain ⟨kept, tidy⟩ := run_tidy sane all compiles performs
    exact ⟨kept, shaped_of_tidy compiled tidy⟩

/-! ### Whole runs -/

theorem shaped_execute (db : Database) (query : Str) (good : Sane db ∧ CleanHeap db)
    (clean : Clean query) :
    ∃ db' text, execute db query = some (db', text) ∧ (Sane db' ∧ CleanHeap db') ∧
      Shaped query text := by
  obtain ⟨db', text, executes, sane⟩ := sane_execute good.1 query
  rw [execute_eq] at executes
  obtain ⟨⟨after, answer⟩, performs, same⟩ := Option.map_eq_some_iff.mp executes
  obtain ⟨rfl, rfl⟩ := Prod.mk.inj same
  obtain ⟨kept, shaped⟩ := perform_tidy good.1 good.2 clean performs
  exact ⟨after, reply answer, by rw [execute_eq, performs]; rfl, ⟨sane, kept⟩, shaped⟩

theorem shaped_run {queries : List Str} (clean : ∀ query ∈ queries, Clean query) :
    ∃ db replies, Machine.run execute Database.empty queries = some (db, replies) ∧
      List.Forall₂ Shaped queries replies := by
  obtain ⟨db, replies, runs, -, shaped⟩ :=
    Machine.run_answers shaped_execute clean ⟨sane_empty, nofun⟩
  exact ⟨db, replies, runs, shaped⟩

theorem blocks_of_run {queries replies : List Str} (clean : ∀ query ∈ queries, Clean query)
    (runs : Machine.run execute Database.empty queries = some (db, replies)) :
    ∀ reply ∈ replies, Lines.Block Ending (reply.splitOn '\n') := by
  obtain ⟨db', replies', runs', shaped⟩ := shaped_run clean
  cases runs.symm.trans runs'
  clear runs runs' clean
  induction shaped with
  | nil => exact nofun
  | cons shape _ ih => exact List.forall_mem_cons.mpr ⟨shape.block, ih⟩

/-- What a client reads: a line feed is sent behind each reply. -/
def stream (replies : List Str) : Str := replies.flatMap (· ++ ['\n'])

end Databases

section Witness

open scoped OneBucket

end Witness
end CppDB.Executor
