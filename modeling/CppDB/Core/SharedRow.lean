import CppDB.Core.Numeral
import CppDB.Core.Row

/-! A row shares its schema with its owner, who may add columns to it afterwards; the cells
then fall short of the columns until a `set` makes up for it. Here the schema may be ahead
of the cells, and `set` returns the row as the call leaves it, thrown exceptions included.
The rows of `Row` are those that nobody's schema outgrew. -/
namespace CppDB

/-- Cells in column order, possibly for only the first columns; a cell that is set has its
column's type. -/
@[ext] structure SharedRow where
  schema : Schema
  values : List (Option Value)
  typed : ∀ (i : Nat) (value : Value), values[i]? = some (some value) →
    ∃ column : Column, schema.columns[i]? = some column ∧ value.type = column.type

/-- Columns keep their places when others are added behind them. -/
theorem Schema.column_of_grown {old new : Schema} (grew : old.columns <+: new.columns) {i : Nat}
    {column : Column} (there : old.columns[i]? = some column) :
    new.columns[i]? = some column := by
  obtain ⟨added, columns⟩ := grew
  rw [← columns, List.getElem?_append_left (List.getElem?_eq_some_iff.mp there).1, there]

namespace SharedRow

variable {row : SharedRow} {column : Str}

/-- The row once columns were added to its schema. -/
def grown (row : SharedRow) (schema : Schema) (grew : row.schema.columns <+: schema.columns) :
    SharedRow where
  schema := schema
  values := row.values
  typed := by
    intro i value is
    obtain ⟨definition, there, type⟩ := row.typed i value is
    exact ⟨definition, Schema.column_of_grown grew there, type⟩

/-- The cells with room for index `i`. -/
def padded (row : SharedRow) (i : Nat) : List (Option Value) :=
  if row.values.length ≤ i then Row.resize row.values row.schema.columnCount else row.values

/-- There is a cell for a column after the cells were made to reach it. -/
theorem padded_inside (row : SharedRow) (i : Fin row.schema.columns.length) :
    i.val < (row.padded i).length := by
  have inside := i.isLt
  rw [padded]
  split_ifs with short
  · simp only [Row.resize, Schema.columnCount, List.length_append, List.length_take,
      List.length_replicate]
    omega
  · omega

/-- Making the cells reach a column sets none of them. -/
theorem padded_join (row : SharedRow) (i : Fin row.schema.columns.length) (j : Nat) :
    (row.padded i)[j]?.join = row.values[j]?.join := by
  have inside := i.isLt
  rw [padded]
  split_ifs with short
  · have whole : row.values.take row.schema.columnCount = row.values :=
      List.take_of_length_le (by rw [Schema.columnCount]; omega)
    rw [Row.resize, whole, List.getElem?_append]
    split_ifs with old
    · rfl
    · rw [List.getElem?_replicate, List.getElem?_eq_none (by omega)]
      split_ifs
      · rfl
      · rfl
  · rfl

/-- Writing a cell, which may be one that the row does not have yet. -/
def store (row : SharedRow) (index : Fin row.schema.columns.length) (value : Value)
    (type : value.type = row.schema.columns[index].type) : SharedRow where
  schema := row.schema
  values := (row.padded index).set index (some value)
  typed := by
    intro i v is
    rw [List.getElem?_set] at is
    split_ifs at is with here inside
    · obtain rfl := Option.some.inj (Option.some.inj is)
      exact ⟨row.schema.columns[index], by simp [← here], type⟩
    · apply row.typed i v
      rw [← Option.join_eq_some_iff, ← row.padded_join index, is, Option.join_some]

/-- `set`: the row it leaves, and how it ends. -/
def set (row : SharedRow) (column value : Str) : SharedRow × Except Exn Unit :=
  match row.schema.columnIndex column with
  | none => (row, .error (Row.unknownColumn column))
  | some index =>
    let type := row.schema.columns[index].type
    if isValidValueFor type value then
      (row.store index (cellFor type value) (type_cellFor _ _), .ok ())
    else (row, .error (Row.notValid value type column))

/-- The cell under a column name, if there is such a column and it is set. -/
def cell (row : SharedRow) (column : Str) : Option Value :=
  match row.schema.columnIndex column with
  | none => none
  | some index => row.values[index.val]?.join

def value (row : SharedRow) (column : Str) : Except Exn Value :=
  match row.cell column with
  | some value => .ok value
  | none => .error (Row.notSet column)

def get (row : SharedRow) (column : Str) : Except Exn Str := (row.value column).map Value.toString

def getInt (row : SharedRow) (column : Str) : Except Exn Int64 :=
  match row.schema.findColumn column with
  | some ⟨_, .text⟩ => .error (Row.notInt column)
  | _ =>
    match row.value column with
    | .ok (.int number) => .ok number
    | .ok (.text _) => .error .badVariantAccess
    | .error e => .error e

def has (row : SharedRow) (column : Str) : Bool := (row.cell column).isSome

section Set
variable {literal : Str} {i : Fin row.schema.columns.length}

theorem set_unknown (unknown : row.schema.columnIndex column = none) :
    row.set column literal = (row, .error (Row.unknownColumn column)) := by
  simp only [set, unknown]

theorem set_refused (index : row.schema.columnIndex column = some i)
    (refused : ¬isValidValueFor row.schema.columns[i].type literal = true) :
    row.set column literal =
      (row, .error (Row.notValid literal row.schema.columns[i].type column)) := by
  simp only [set, index]
  rw [if_neg refused]

theorem set_accepted (index : row.schema.columnIndex column = some i)
    (accepted : isValidValueFor row.schema.columns[i].type literal = true) :
    row.set column literal =
      (row.store i (cellFor row.schema.columns[i].type literal) (type_cellFor _ _), .ok ()) := by
  simp only [set, index, accepted, if_true]

end Set

theorem cell_of_index {i : Fin row.schema.columns.length}
    (index : row.schema.columnIndex column = some i) :
    row.cell column = row.values[i.val]?.join := by
  simp only [cell, index]

/-- Added columns are unset, and the others read as before. -/
theorem grown_cell {schema : Schema} (grew : row.schema.columns <+: schema.columns) :
    (row.grown schema grew).cell column = row.cell column := by
  cases index : row.schema.columnIndex column with
  | some i =>
    obtain ⟨inside, same⟩ := List.getElem?_eq_some_iff.mp
      (Schema.column_of_grown grew (List.getElem?_eq_getElem i.isLt))
    have index' : (row.grown schema grew).schema.columnIndex column = some ⟨i, inside⟩ := by
      rw [Schema.columnIndex_eq_some] at index ⊢
      rw [← index]
      exact congrArg Column.name same
    rw [cell_of_index index, cell_of_index index']
    rfl
  | none =>
    have unset : row.cell column = none := by simp only [cell, index]
    rw [unset, Option.eq_none_iff_forall_ne_some]
    intro v held
    cases index' : (row.grown schema grew).schema.columnIndex column with
    | none => simp [cell, index'] at held
    | some j =>
      -- a cell that is set belongs to an old column, so the name would be an old one
      rw [cell_of_index index', Option.join_eq_some_iff] at held
      obtain ⟨definition, there, -⟩ := row.typed j v held
      have name : definition.name = column := by
        obtain ⟨inside, same⟩ :=
          List.getElem?_eq_some_iff.mp (Schema.column_of_grown grew there)
        rw [← same]
        exact Schema.columnIndex_eq_some.mp index'
      rw [Schema.columnIndex_eq_none, Schema.findColumn_eq_none] at index
      exact index (name ▸ List.mem_map_of_mem (List.mem_of_getElem? there))

theorem getInt_of_cell {name : Str} {number : Int64}
    (found : row.schema.findColumn column = some ⟨name, .int⟩)
    (held : row.cell column = some (.int number)) : row.getInt column = .ok number := by
  simp only [getInt, found, value, held]

/-- A literal is put into its own cell and into no other. -/
theorem set_cell {literal : Str} {i : Fin row.schema.columns.length}
    (index : row.schema.columnIndex column = some i)
    (accepted : isValidValueFor row.schema.columns[i].type literal = true) :
    (row.set column literal).1.cell column =
        some (cellFor row.schema.columns[i].type literal) ∧
      ∀ other, other ≠ column → (row.set column literal).1.cell other = row.cell other := by
  rw [set_accepted index accepted]
  generalize cellFor row.schema.columns[i].type literal = stored, type_cellFor _ _ = type
  have values : (row.store i stored type).values = (row.padded i).set i (some stored) := rfl
  constructor
  · have here : (row.store i stored type).schema.columnIndex column = some i := index
    rw [cell_of_index here, values, List.getElem?_set_self (row.padded_inside i),
      Option.join_some]
  · intro other different
    cases index' : row.schema.columnIndex other with
    | none =>
      have there : (row.store i stored type).schema.columnIndex other = none := index'
      simp only [cell, index', there]
    | some j =>
      have there : (row.store i stored type).schema.columnIndex other = some j := index'
      have apart : i.val ≠ j.val := by
        intro same
        rw [Schema.columnIndex_eq_some] at index index'
        obtain rfl := Fin.ext same
        exact different (index'.symm.trans index)
      rw [cell_of_index there, cell_of_index index', values, List.getElem?_set_ne apart,
        row.padded_join]

/-- Storing again what a cell holds changes nothing. -/
theorem set_same {v : Value} (held : row.cell column = some v) :
    row.set column v.toString = (row, .ok ()) := by
  cases index : row.schema.columnIndex column with
  | none => simp [cell, index] at held
  | some i =>
    rw [cell_of_index index, Option.join_eq_some_iff] at held
    obtain ⟨definition, there, type⟩ := row.typed i v held
    have same : row.schema.columns[i].type = v.type := by
      rw [List.getElem?_eq_getElem i.isLt] at there
      rw [type, ← Option.some.inj there]
      rfl
    have accepted : isValidValueFor row.schema.columns[i].type v.toString = true := by
      rw [same]
      exact isValidValueFor_toString v
    obtain ⟨inside, is⟩ := List.getElem?_eq_some_iff.mp held
    rw [set_accepted index accepted]
    congr 1
    ext1
    · rfl
    · simp only [store, padded, if_neg (Nat.not_le.mpr inside), same, cellFor_toString]
      rw [← is, List.set_getElem_self]

/-- A `set` that throws has written nothing. -/
theorem set_of_error {literal : Str} {e : Exn} (throws : (row.set column literal).2 = .error e) :
    (row.set column literal).1 = row := by
  cases index : row.schema.columnIndex column with
  | none => rw [set_unknown index]
  | some i =>
    by_cases accepted : isValidValueFor row.schema.columns[i].type literal = true
    · rw [set_accepted index accepted] at throws
      cases throws
    · rw [set_refused index accepted]

theorem columnIndex_of_mem {type : DataType} (there : ⟨column, type⟩ ∈ row.schema.columns) :
    ∃ i, row.schema.columnIndex column = some i ∧ row.schema.columns[i] = ⟨column, type⟩ := by
  obtain ⟨i, inside, is⟩ := List.getElem_of_mem there
  exact ⟨⟨i, inside⟩, Schema.columnIndex_eq_some.mpr (congrArg Column.name is), is⟩

theorem mem_of_columnIndex {i : Fin row.schema.columns.length}
    (index : row.schema.columnIndex column = some i) :
    ⟨column, row.schema.columns[i].type⟩ ∈ row.schema.columns := by
  have name := Schema.columnIndex_eq_some.mp index
  rw [← name]
  exact List.getElem_mem i.isLt

theorem isValidValueFor_iff {type : DataType} {literal : Str} :
    isValidValueFor type literal = true ↔
      (type = .int → ∃ number, Denotes literal number ∧ FitsInt64 number) := by
  cases type with
  | int => simp only [isValidValueFor_int, forall_const]
  | text => simp [isValidValueFor]

/-- A `set` that goes through was on a column, with a literal of its type. -/
theorem set_eq_ok {literal : Str} (sets : (row.set column literal).2 = .ok ()) :
    ∃ i, row.schema.columnIndex column = some i ∧
      isValidValueFor row.schema.columns[i].type literal = true := by
  cases index : row.schema.columnIndex column with
  | none =>
    rw [set_unknown index] at sets
    cases sets
  | some i =>
    by_cases accepted : isValidValueFor row.schema.columns[i].type literal = true
    · exact ⟨i, rfl, accepted⟩
    · rw [set_refused index accepted] at sets
      cases sets

theorem set_eq_ok_iff {literal : Str} :
    (row.set column literal).2 = .ok () ↔ ∃ type, ⟨column, type⟩ ∈ row.schema.columns ∧
      (type = .int → ∃ number, Denotes literal number ∧ FitsInt64 number) := by
  constructor
  · intro sets
    obtain ⟨i, index, accepted⟩ := set_eq_ok sets
    exact ⟨_, mem_of_columnIndex index, isValidValueFor_iff.mp accepted⟩
  · rintro ⟨type, there, literals⟩
    obtain ⟨i, index, is⟩ := columnIndex_of_mem there
    rw [set_accepted index (by rw [is]; exact isValidValueFor_iff.mpr literals)]

/-- What `set` and the readers do for each other. A `set` goes through exactly on a column of
the schema and, if that is an `INT`, a text that denotes a number of 64 bits; if it throws,
the row is as before. Once it went through, the column reads back as that number or text and
every other column as before. Setting a column to the text read from it changes nothing. -/
theorem cell_text_round_trip (row : SharedRow) (column literal : Str) :
    ((row.set column literal).2 = .ok () ↔ ∃ type, ⟨column, type⟩ ∈ row.schema.columns ∧
        (type = .int → ∃ number, Denotes literal number ∧ FitsInt64 number)) ∧
      (∀ e, (row.set column literal).2 = .error e → (row.set column literal).1 = row) ∧
      ((row.set column literal).2 = .ok () →
        (∀ number, ⟨column, .int⟩ ∈ row.schema.columns → Denotes literal number →
          ∃ n, (row.set column literal).1.getInt column = .ok n ∧ n.toInt = number) ∧
        (⟨column, .text⟩ ∈ row.schema.columns →
          (row.set column literal).1.get column = .ok literal) ∧
        (row.set column literal).1.schema = row.schema ∧
        ∀ other, other ≠ column →
          (row.set column literal).1.value other = row.value other) ∧
      (row.has column = true →
        ∃ text, row.get column = .ok text ∧ row.set column text = (row, .ok ())) := by
  refine ⟨set_eq_ok_iff, fun e throws => set_of_error throws, fun sets => ?_, fun held => ?_⟩
  · obtain ⟨i, index, accepted⟩ := set_eq_ok sets
    obtain ⟨here, others⟩ := set_cell index accepted
    have schema : (row.set column literal).1.schema = row.schema := by
      rw [set_accepted index accepted]
      rfl
    refine ⟨?_, ?_, schema, ?_⟩
    · intro number there denotes
      obtain ⟨j, index', is⟩ := columnIndex_of_mem there
      obtain rfl := Option.some.inj (index.symm.trans index')
      have found := Schema.findColumn_eq_some index
      rw [is] at found accepted here
      rw [← schema] at found
      obtain ⟨number', denotes', fits⟩ := isValidValueFor_int.mp accepted
      obtain rfl := denotes.unique denotes'
      exact ⟨parseInt literal, getInt_of_cell found here, denotes.parseInt fits⟩
    · intro there
      obtain ⟨j, index', is⟩ := columnIndex_of_mem there
      obtain rfl := Option.some.inj (index.symm.trans index')
      rw [is] at here
      simp only [get, value, here, cellFor, Except.map, Value.toString]
    · intro other different
      rw [value, value, others other different]
  · obtain ⟨v, is⟩ := Option.isSome_iff_exists.mp held
    exact ⟨v.toString, by simp only [get, value, is, Except.map], set_same is⟩

end SharedRow

/-! ### Rows that cover their schema -/

namespace Row

/-- A row as its owner's schema sees it. -/
def shared (row : Row) : SharedRow where
  schema := row.schema
  values := row.values
  typed := by
    intro i value is
    obtain ⟨inside, held⟩ := List.getElem?_eq_some_iff.mp is
    have covered : i < row.schema.columns.length := row.length_values ▸ inside
    exact ⟨_, List.getElem?_eq_getElem covered, row.typed.get covered inside value held⟩

theorem shared_cell (row : Row) (column : Str) : row.shared.cell column = row.cell column := by
  rw [SharedRow.cell, cell]
  cases index : row.schema.columnIndex column with
  | none => simp only [shared, index]
  | some i => simp only [shared, index]

/-- On such a row the two models of `set` are one. -/
theorem shared_set (row : Row) (column value : Str) :
    row.shared.set column value = match row.set column value with
      | .ok row' => (row'.shared, .ok ())
      | .error e => (row.shared, .error e) := by
  cases index : row.schema.columnIndex column with
  | none =>
    have unknown : row.shared.schema.columnIndex column = none := index
    rw [SharedRow.set_unknown unknown]
    simp only [set, index]
  | some i =>
    have known : row.shared.schema.columnIndex column = some i := index
    by_cases accepted : isValidValueFor row.schema.columns[i].type value = true
    · rw [SharedRow.set_accepted known accepted]
      simp only [set, index, accepted, if_true]
      rfl
    · rw [SharedRow.set_refused known accepted]
      simp only [set, index]
      rw [if_neg accepted]
      rfl

end Row
end CppDB
