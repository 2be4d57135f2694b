import CppDB.Lib.Outcome
import CppDB.Query.Executor.Failure
import CppDB.Query.Texts

/-! What the statements print and throw is on one line per row, when the names and the
literals they are given and the rows they find are. -/
namespace CppDB.Executor

open Outcome Lexer

variable {α : Type} {post : α → Prop} {schema : Schema} {row : Row} {column literal : Str}

/-- A text on one line is thrown, or a value returned that meets the condition. -/
abbrev Tidy (post : α → Prop) : Except Exn α → Prop := Ends (fun e => Clean e.message) post

theorem clean_of_word {name : Str} (word : ∀ c ∈ name, isIdentChar c) : Clean name :=
  fun there => absurd (word '\n' there) (by decide)

/-! ### Rows -/

/-- Every cell that is set prints on one line. -/
def CleanRow (row : Row) : Prop := ∀ value, some value ∈ row.values → Clean value.toString

theorem cleanRow_blank (schema : Schema) : CleanRow (Row.blank schema) := by
  intro value there
  cases List.eq_of_mem_replicate there

theorem clean_cellFor (type : DataType) (clean : Clean literal) :
    Clean (cellFor type literal).toString := by
  cases type with
  | int => exact clean_numeral _
  | text => exact clean

theorem set_tidy (clean : CleanRow row) (named : Clean column) (given : Clean literal) :
    Tidy CleanRow (row.set column literal) := by
  rw [Row.set]
  split
  · exact Clean.between (by decide) named (by decide)
  · dsimp only
    split
    · intro value there
      dsimp only at there
      rw [Row.padded_eq] at there
      obtain there | same := List.mem_or_eq_of_mem_set there
      · exact clean value there
      · rw [Option.some.inj same]
        exact clean_cellFor _ given
    · apply Clean.between _ named (by decide)
      apply Clean.between _ (clean_dataType _) (by decide)
      exact Clean.between (by decide) given (by decide)

theorem cleanRow_assignAll {assignments : Assignments} (clean : CleanRow row)
    (pairs : ∀ pair ∈ assignments, CleanPair pair) : CleanRow (row.assignAll assignments) := by
  induction assignments generalizing row with
  | nil => exact clean
  | cons pair rest ih =>
    obtain ⟨⟨named, given⟩, others⟩ := List.forall_mem_cons.mp pairs
    have next : CleanRow (row.assign pair.1 pair.2) := by
      have sets := set_tidy clean named given
      rw [Row.assign]
      cases set : row.set pair.1 pair.2 with
      | error e => exact clean
      | ok row' =>
        rw [set] at sets
        exact sets
    exact ih next others

theorem value_tidy (clean : CleanRow row) (named : Clean column) :
    Tidy (fun value => Clean value.toString) (row.value column) := by
  rw [Row.value]
  split
  · rename_i value is
    rw [Row.cell] at is
    split at is
    · cases is
    · rw [Option.join_eq_some_iff] at is
      exact clean value (List.mem_of_getElem? is)
  · exact Clean.between (by decide) named (by decide)

theorem get_tidy (clean : CleanRow row) (named : Clean column) : Tidy Clean (row.get column) :=
  (value_tidy clean named).map fun _ => id

theorem getInt_tidy (row : Row) (named : Clean column) :
    Tidy (fun _ => True) (row.getInt column) := by
  rw [Row.getInt]
  split
  · exact Clean.between (by decide) named (by decide)
  · rw [Row.value]
    cases row.cell column with
    | none => exact Clean.between (by decide) named (by decide)
    | some value =>
      cases value with
      | int number => trivial
      | text content => exact (by decide : Clean Exn.badVariantAccess.message)

theorem clean_idColumn : Clean Table.idColumn := by decide

/-! ### Printing -/

theorem clean_print (clean : CleanRow row) (worded : Worded row.schema) : Clean row.print := by
  apply clean_intercalate (by decide)
  intro text there
  obtain ⟨⟨column, cell⟩, listed, rfl⟩ := List.mem_map.mp there
  obtain ⟨named, held⟩ := List.of_mem_zip listed
  apply Clean.append.mpr
  constructor
  · exact Clean.append.mpr ⟨clean_of_word (worded column named), by decide⟩
  · cases cell with
    | none => decide
    | some value => exact clean value held

theorem formatCells_tidy (clean : CleanRow row) {columns : List Str}
    (named : ∀ column ∈ columns, Clean column) :
    Tidy (fun cells => ∀ cell ∈ cells, Clean cell) (formatCells row columns) := by
  induction columns with
  | nil => exact nofun
  | cons column rest ih =>
    obtain ⟨here, others⟩ := List.forall_mem_cons.mp named
    apply (get_tidy clean here).bind
    intro value good
    apply (ih others).bind
    intro cells all
    have cell : Clean (column ++ "=".toList ++ value) := by
      apply Clean.append.mpr
      exact ⟨Clean.append.mpr ⟨here, by decide⟩, good⟩
    exact List.forall_mem_cons.mpr ⟨cell, all⟩

theorem formatRow_tidy (clean : CleanRow row) (worded : Worded row.schema) {columns : List Str}
    (named : ∀ column ∈ columns, Clean column) : Tidy Clean (formatRow columns row) := by
  rw [formatRow]
  split
  · exact clean_print clean worded
  · apply (formatCells_tidy clean named).map
    intro cells all
    exact clean_intercalate (by decide) all

/-! ### Checks and predicates -/

theorem fillRow_tidy (clean : CleanRow row) {pairs : List (Str × Str)}
    (all : ∀ pair ∈ pairs, CleanPair pair) : Tidy CleanRow (fillRow row pairs) := by
  induction pairs generalizing row with
  | nil => exact clean
  | cons pair rest ih =>
    obtain ⟨⟨named, given⟩, others⟩ := List.forall_mem_cons.mp all
    apply (set_tidy clean named given).bind
    intro row' clean'
    exact ih clean' others

theorem buildRow_tidy (clean : CleanRow row) {stmt : InsertStatement}
    (worded : CleanStatement (.insert stmt)) :
    Tidy (fun built => CleanRow built.1) (buildRow row stmt) := by
  obtain ⟨-, columns, values⟩ := worded
  have pairs : ∀ pair ∈ stmt.columns.zip stmt.values, CleanPair pair := by
    intro pair there
    obtain ⟨listed, given⟩ := List.of_mem_zip there
    exact ⟨columns _ listed, values _ given⟩
  apply (fillRow_tidy clean pairs).bind
  intro row clean
  apply (getInt_tidy row clean_idColumn).bind
  intro id _
  exact clean

theorem checkRow_tidy (schema : Schema) (row : Row) :
    Tidy (fun _ => True) (Table.checkRow schema row) := by
  rw [Table.checkRow]
  split
  · exact (by decide +kernel : Clean Table.schemaMismatch.message)
  · split
    · exact (by decide +kernel : Clean Table.incompleteRow.message)
    · exact getInt_tidy row clean_idColumn

theorem clean_noSuchColumn (named : Clean column) : Clean (noSuchColumn column).message :=
  Clean.between (by decide) named (by decide)

theorem clean_wrongLiteral (named : Clean column) (type : DataType) (given : Clean literal) :
    Clean (wrongLiteral column type literal).message := by
  apply Clean.between _ given (by decide)
  apply Clean.between _ (clean_dataType type) (by decide)
  exact Clean.between (by decide) named (by decide)

theorem checkColumns_tidy {columns : List Str} (named : ∀ column ∈ columns, Clean column) :
    Tidy (fun _ => True) (checkColumns schema columns) := by
  induction columns with
  | nil => trivial
  | cons column rest ih =>
    obtain ⟨here, others⟩ := List.forall_mem_cons.mp named
    rw [checkColumns]
    split
    · exact ih others
    · exact clean_noSuchColumn here

/-- What a predicate throws is on one line. -/
def TidyPredicate (predicate : Predicate) : Prop := ∀ row, Tidy (fun _ => True) (predicate row)

/-- The text of a cell is compared, not printed, so the row may be any. -/
theorem get_throws (row : Row) (named : Clean column) : Tidy (fun _ => True) (row.get column) := by
  rw [Row.get, Row.value]
  cases row.cell column with
  | none => exact Clean.between (by decide) named (by decide)
  | some value => trivial

theorem makePredicate_tidy {clause : WhereClause} (clean : CleanClause clause) :
    Tidy TidyPredicate (makePredicate schema clause) := by
  obtain ⟨named, given⟩ := clean
  rw [makePredicate]
  split
  · exact clean_noSuchColumn named
  · split
    · exact clean_wrongLiteral named _ given
    · split
      · intro row
        apply (getInt_tidy row named).bind
        intro actual _
        trivial
      · intro row
        apply (get_throws row named).bind
        intro actual _
        trivial

theorem makePredicates_tidy {conditions : WhereList}
    (clean : ∀ clause ∈ conditions, CleanClause clause) :
    Tidy (fun predicates => ∀ predicate ∈ predicates, TidyPredicate predicate)
      (makePredicates schema conditions) := by
  induction conditions with
  | nil => exact nofun
  | cons clause rest ih =>
    obtain ⟨here, others⟩ := List.forall_mem_cons.mp clean
    apply (makePredicate_tidy here).bind
    intro predicate first
    apply (ih others).bind
    intro predicates all
    exact List.forall_mem_cons.mpr ⟨first, all⟩

theorem conjunction_tidy {predicates : List Predicate}
    (all : ∀ predicate ∈ predicates, TidyPredicate predicate) :
    TidyPredicate (conjunction predicates) := by
  intro row
  induction predicates with
  | nil => trivial
  | cons predicate rest ih =>
    obtain ⟨first, others⟩ := List.forall_mem_cons.mp all
    apply (first row).bind
    intro holds _
    cases holds with
    | false => trivial
    | true => exact ih others

theorem makeConjunction_tidy {conditions : WhereList}
    (clean : ∀ clause ∈ conditions, CleanClause clause) :
    Tidy TidyPredicate (makeConjunction schema conditions) :=
  (makePredicates_tidy clean).map fun _ => conjunction_tidy

theorem predicateFor_tidy {conditions : WhereList}
    (clean : ∀ clause ∈ conditions, CleanClause clause) :
    Tidy TidyPredicate (predicateFor schema conditions) := by
  rw [predicateFor]
  split
  · exact fun _ => trivial
  · exact makeConjunction_tidy clean

theorem checkAssignments_tidy {assignments : Assignments}
    (pairs : ∀ pair ∈ assignments, CleanPair pair) :
    Tidy (fun _ => True) (Table.checkAssignments schema assignments) := by
  induction assignments with
  | nil => trivial
  | cons pair rest ih =>
    obtain ⟨⟨named, given⟩, others⟩ := List.forall_mem_cons.mp pairs
    have first : Tidy (fun _ => True) (Table.checkAssignment schema pair.1 pair.2) := by
      rw [Table.checkAssignment]
      split
      · exact (by decide +kernel : Clean Table.primaryKeyUpdate.message)
      · split
        · exact Clean.between (by decide) named (by decide)
        · split
          · trivial
          · apply Clean.between _ named (by decide)
            apply Clean.between _ (clean_dataType _) (by decide)
            exact Clean.between (by decide) given (by decide)
    exact first.bind fun _ _ => ih others

theorem addColumns_tidy {definitions : List ColumnDef} {schema : Schema}
    (named : ∀ definition ∈ definitions, Clean definition.name) :
    Tidy (fun _ => True) (addColumns schema definitions) := by
  induction definitions generalizing schema with
  | nil => trivial
  | cons definition rest ih =>
    obtain ⟨here, others⟩ := List.forall_mem_cons.mp named
    have first : Tidy (fun _ => True) (schema.addColumn definition.name definition.type) := by
      rw [Schema.addColumn]
      split
      · exact (by decide +kernel : Clean "Schema: column name must not be empty".toList)
      · split
        · exact Clean.between (by decide) here (by decide)
        · trivial
    exact first.bind fun _ _ => ih others

/-! ### Fetching -/

section Tables

variable [StdHash Int64] {table : Table}

theorem matching_tidy {predicate : Predicate} (tidy : TidyPredicate predicate) (table : Table) :
    Tidy (fun _ => True) (table.matching predicate) :=
  Ends.scan (fun entry : Int64 × Row => tidy entry.2) _

theorem rowsByIdClause_tidy {clause : WhereClause} (clean : CleanClause clause) :
    Tidy (fun _ => True) (rowsByIdClause table clause).1 := by
  rw [rowsByIdClause]
  split
  · exact clean_wrongLiteral clean_idColumn .int clean.2
  · cases clause.op with
    | ne => exact (by decide +kernel : Clean unindexable.message)
    | _ => trivial

theorem fetchRows_tidy {conditions : WhereList}
    (clean : ∀ clause ∈ conditions, CleanClause clause) :
    Tidy (fun _ => True) (fetchRows table conditions).1 := by
  rw [fetchRows]
  split
  · rw [selectAll_eq]
    trivial
  · cases splits : splitIndexable conditions with
    | none =>
      have tidy : Tidy TidyPredicate (makeConjunction table.schema conditions) :=
        makeConjunction_tidy clean
      cases makes : makeConjunction table.schema conditions with
      | error e =>
        rw [makes] at tidy
        exact tidy
      | ok predicate =>
        rw [makes] at tidy
        exact (matching_tidy tidy table).map fun _ => id
    | some parts =>
      obtain ⟨indexable, rest⟩ := parts
      have perm := (splitIndexable_eq_some splits).2
      have first : CleanClause indexable := clean _ (perm.mem_iff.mpr List.mem_cons_self)
      have others : ∀ clause ∈ rest, CleanClause clause :=
        fun clause there => clean _ (perm.mem_iff.mpr (List.mem_cons_of_mem _ there))
      have reads : Tidy _ (rowsByIdClause table indexable).1 := rowsByIdClause_tidy first
      dsimp only
      cases fetches : rowsByIdClause table indexable with
      | mk fetched table' =>
        rw [fetches] at reads
        cases fetched with
        | error e => exact reads
        | ok candidates =>
          dsimp only
          split
          · trivial
          · have tidy : Tidy TidyPredicate (makeConjunction table'.schema rest) :=
              makeConjunction_tidy others
            cases makes : makeConjunction table'.schema rest with
            | error e =>
              rw [makes] at tidy
              exact tidy
            | ok predicate =>
              rw [makes] at tidy
              exact Ends.scan tidy candidates

end Tables
end CppDB.Executor
