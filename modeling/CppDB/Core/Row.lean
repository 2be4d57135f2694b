import CppDB.Core.Schema

/-! Records bound to a schema (`core/row.cpp`). A row holds one optional cell per
column, and a cell that is set has its column's type; that is part of the type of rows,
since every way of making one keeps it. -/
namespace CppDB

/-- A set cell holds the variant alternative its column asks for. -/
def Fits (column : Column) (cell : Option Value) : Prop :=
  ∀ value, cell = some value → value.type = column.type

@[ext] structure Row where
  schema : Schema
  values : List (Option Value)
  typed : List.Forall₂ Fits schema.columns values

namespace Row

variable {row row' : Row} {column literal : Str}

theorem length_values (row : Row) : row.values.length = row.schema.columns.length :=
  row.typed.length_eq.symm

/-- `Row(schema)`: every cell unset. -/
def blank (schema : Schema) : Row where
  schema := schema
  values := List.replicate schema.columnCount none
  typed := by
    rw [List.forall₂_iff_get]
    refine ⟨by simp [Schema.columnCount], ?_⟩
    intro i _ _ value is
    simp at is

/-- `std::vector::resize`, padding with unset cells. -/
def resize (values : List (Option Value)) (size : Nat) : List (Option Value) :=
  values.take size ++ List.replicate (size - values.length) none

/-- The cells with room for index `i`. -/
def padded (row : Row) (i : Nat) : List (Option Value) :=
  if row.values.length ≤ i then resize row.values row.schema.columnCount else row.values

theorem padded_eq (row : Row) (i : Fin row.schema.columns.length) : row.padded i = row.values := by
  rw [padded, if_neg]
  have := row.length_values
  omega

theorem typed_set (row : Row) (i : Fin row.schema.columns.length) {value : Value}
    (type : value.type = row.schema.columns[i].type) :
    List.Forall₂ Fits row.schema.columns ((row.padded i).set i (some value)) := by
  rw [padded_eq]
  have typed := row.typed
  rw [List.forall₂_iff_get] at typed ⊢
  refine ⟨by simpa using typed.1, ?_⟩
  intro j inside inside' v is
  simp only [List.get_eq_getElem, List.getElem_set] at is
  split at is
  · rename_i same
    obtain rfl := Option.some.inj is
    simpa [← same] using type
  · exact typed.2 j inside (by rwa [← typed.1]) v (by simpa using is)

def unknownColumn (column : Str) : Exn :=
  .invalidArgument ("Row: unknown column '".toList ++ column ++ "'".toList)

def notValid (value : Str) (type : DataType) (column : Str) : Exn :=
  .invalidArgument ("Row: value '".toList ++ value ++ "' is not a valid ".toList ++
    type.toString ++ " for column '".toList ++ column ++ "'".toList)

def notSet (column : Str) : Exn :=
  .outOfRange ("Row: column '".toList ++ column ++ "' is not set".toList)

def notInt (column : Str) : Exn :=
  .invalidArgument ("Row: column '".toList ++ column ++ "' is not INT".toList)

def set (row : Row) (column value : Str) : Except Exn Row :=
  match row.schema.columnIndex column with
  | none => .error (unknownColumn column)
  | some index =>
    let type := row.schema.columns[index].type
    if isValidValueFor type value then
      .ok { schema := row.schema
            values := (row.padded index).set index (some (cellFor type value))
            typed := row.typed_set index (type_cellFor _ _) }
    else .error (notValid value type column)

/-- The cell under a column name, if there is such a column and it is set. -/
def cell (row : Row) (column : Str) : Option Value :=
  match row.schema.columnIndex column with
  | none => none
  | some index => row.values[index.val]?.join

def value (row : Row) (column : Str) : Except Exn Value :=
  match row.cell column with
  | some value => .ok value
  | none => .error (notSet column)

def get (row : Row) (column : Str) : Except Exn Str := (row.value column).map Value.toString

def getInt (row : Row) (column : Str) : Except Exn Int64 :=
  match row.schema.findColumn column with
  | some ⟨_, .text⟩ => .error (notInt column)
  | _ =>
    match row.value column with
    | .ok (.int number) => .ok number
    | .ok (.text _) => .error .badVariantAccess
    | .error e => .error e

def has (row : Row) (column : Str) : Bool := (row.cell column).isSome

/-- The row after a `set` whose exception, if any, is ignored. -/
def assign (row : Row) (column value : Str) : Row :=
  match row.set column value with
  | .ok row => row
  | .error _ => row

/-- A list of assignments from left to right. -/
def assignAll (assignments : List (Str × Str)) (row : Row) : Row :=
  assignments.foldl (fun row assignment => row.assign assignment.1 assignment.2) row

/-- `operator<<`: the cells in schema order, unset ones as `NULL`. -/
def print (row : Row) : Str :=
  ", ".toList.intercalate ((row.schema.columns.zip row.values).map fun (column, cell) =>
    column.name ++ "=".toList ++ match cell with
      | some value => value.toString
      | none => "NULL".toList)

theorem cell_of_index {i : Fin row.schema.columns.length}
    (index : row.schema.columnIndex column = some i) :
    row.cell column = row.values[i.val]?.join := by
  simp only [cell, index]

theorem cell_blank (schema : Schema) (column : Str) : (blank schema).cell column = none := by
  simp only [cell, blank, List.getElem?_replicate]
  split
  · rfl
  · split <;> rfl

/-- A cell has the type of its column. -/
theorem type_of_cell {v : Value} (is : row.cell column = some v) :
    ∃ definition, row.schema.findColumn column = some definition ∧ v.type = definition.type := by
  cases index : row.schema.columnIndex column with
  | none => simp [cell, index] at is
  | some i =>
    rw [cell_of_index index] at is
    refine ⟨_, Schema.findColumn_eq_some index, ?_⟩
    have inside : i.val < row.values.length := by
      rw [row.length_values]
      exact i.isLt
    have held := row.typed.get i.isLt inside
    apply held
    simpa [List.getElem?_eq_getElem inside] using is

/-- `set` succeeds exactly on a known column and a literal of its type. -/
theorem set_eq_ok_iff :
    (∃ row', row.set column literal = .ok row') ↔
      ∃ definition, row.schema.findColumn column = some definition ∧
        isValidValueFor definition.type literal = true := by
  cases index : row.schema.columnIndex column with
  | none =>
    have unknown := Schema.columnIndex_eq_none.mp index
    simp [set, index, unknown]
  | some i =>
    rw [Schema.findColumn_eq_some index]
    simp only [set, index, Option.some.injEq, exists_eq_left']
    split <;> simp_all

/-- A successful `set` keeps the schema and touches one cell. -/
theorem set_spec (sets : row.set column literal = .ok row') :
    row'.schema = row.schema ∧
      (∀ definition, row.schema.findColumn column = some definition →
        row'.cell column = some (cellFor definition.type literal)) ∧
      ∀ other, other ≠ column → row'.cell other = row.cell other := by
  cases index : row.schema.columnIndex column with
  | none => simp [set, index] at sets
  | some i =>
    simp only [set, index] at sets
    split at sets
    · cases sets
      refine ⟨rfl, ?_, ?_⟩
      · rw [Schema.findColumn_eq_some index]
        rintro _ ⟨⟩
        have inside : i.val < row.values.length := by
          rw [row.length_values]
          exact i.isLt
        simp only [cell, index, padded_eq, List.getElem?_set_self inside, Option.join_some]
      · intro other different
        cases index' : row.schema.columnIndex other with
        | none => simp only [cell, index']
        | some j =>
          have apart : i.val ≠ j.val := by
            intro same
            rw [Schema.columnIndex_eq_some] at index index'
            obtain rfl := Fin.ext same
            exact different (index'.symm.trans index)
          simp only [cell, index', padded_eq, List.getElem?_set_ne apart]
    · cases sets

/-- Reading an `INT` cell that is set. -/
theorem getInt_of_cell {definition : Column} (found : row.schema.findColumn column = some definition)
    (type : definition.type = .int) (there : row.has column = true) :
    ∃ number, row.getInt column = .ok number ∧ row.cell column = some (.int number) := by
  obtain ⟨v, is⟩ := Option.isSome_iff_exists.mp there
  obtain ⟨definition', found', typed⟩ := type_of_cell is
  cases found.symm.trans found'
  obtain ⟨name, _⟩ := definition
  simp only at type
  subst type
  cases v with
  | int number => exact ⟨number, by simp only [getInt, found, value, is], is⟩
  | text t => cases typed

theorem getInt_eq_ok {number : Int64} (is : row.getInt column = .ok number) :
    row.cell column = some (.int number) := by
  simp only [getInt] at is
  split at is
  · cases is
  · simp only [value] at is
    cases held : row.cell column with
    | none => simp [held] at is
    | some v =>
      cases v with
      | int n => simpa [held] using is
      | text t => simp [held] at is

end Row

/-- Every column of the schema is set on the row. -/
def Schema.validate (schema : Schema) (row : Row) : Bool :=
  schema.columns.all fun column => row.has column.name

end CppDB
