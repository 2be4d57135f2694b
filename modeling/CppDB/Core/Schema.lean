import CppDB.Core.Value

/-! Column definitions of a table. -/
namespace CppDB

structure Column where
  name : Str
  type : DataType
  deriving Repr, DecidableEq

/-- An ordered set of columns; `addColumn` keeps the names non-empty and unique. -/
@[ext] structure Schema where
  columns : List Column
  named : ∀ column ∈ columns, column.name ≠ []
  distinct : (columns.map Column.name).Nodup
  deriving Repr

namespace Schema

def empty : Schema := ⟨[], by simp, List.nodup_nil⟩

def columnCount (schema : Schema) : Nat := schema.columns.length

def findColumn (schema : Schema) (name : Str) : Option Column :=
  schema.columns.find? fun column => column.name = name

def hasColumn (schema : Schema) (name : Str) : Bool := (schema.findColumn name).isSome

def columnIndex (schema : Schema) (name : Str) : Option (Fin schema.columns.length) :=
  schema.columns.findFinIdx? fun column => column.name = name

theorem findColumn_eq_none {schema : Schema} {name : Str} :
    schema.findColumn name = none ↔ name ∉ schema.columns.map Column.name := by
  simp [findColumn]

theorem hasColumn_eq_true {schema : Schema} {name : Str} :
    schema.hasColumn name = true ↔ name ∈ schema.columns.map Column.name := by
  rw [hasColumn, Option.isSome_iff_ne_none, ne_eq, findColumn_eq_none, not_not]

def addColumn (schema : Schema) (name : Str) (type : DataType) : Except Exn Schema :=
  if empty : name = [] then
    .error (.invalidArgument "Schema: column name must not be empty".toList)
  else if known : schema.hasColumn name then
    .error (.invalidArgument ("Schema: duplicate column '".toList ++ name ++ "'".toList))
  else .ok
    { columns := schema.columns ++ [⟨name, type⟩]
      named := by
        intro column there
        rcases List.mem_append.mp there with there | there
        · exact schema.named column there
        · obtain rfl := List.mem_singleton.mp there
          exact empty
      distinct := by
        rw [List.map_append, List.nodup_append]
        refine ⟨schema.distinct, by simp, ?_⟩
        rintro a there b new rfl
        obtain rfl : a = name := by simpa using new
        exact known (hasColumn_eq_true.mpr there) }

theorem columnIndex_eq_some {schema : Schema} {name : Str} {i : Fin schema.columns.length} :
    schema.columnIndex name = some i ↔ schema.columns[i].name = name := by
  rw [columnIndex, List.findFinIdx?_eq_some_iff]
  constructor
  · rintro ⟨found, _⟩
    simpa using found
  · rintro rfl
    refine ⟨by simp, ?_⟩
    intro j before same
    have distinct := List.pairwise_iff_get.mp schema.distinct
    have apart := distinct ⟨j, by simp⟩ ⟨i, by simp⟩ before
    exact apart (by simpa using same)

theorem columnIndex_eq_none {schema : Schema} {name : Str} :
    schema.columnIndex name = none ↔ schema.findColumn name = none := by
  rw [columnIndex, List.findFinIdx?_eq_none_iff, findColumn, List.find?_eq_none]

/-- The two lookups agree on the column they find. -/
theorem findColumn_eq_some {schema : Schema} {name : Str} {i : Fin schema.columns.length}
    (found : schema.columnIndex name = some i) : schema.findColumn name = some schema.columns[i] := by
  rw [columnIndex, List.findFinIdx?_eq_some_iff] at found
  rw [findColumn, List.find?_eq_some_iff_getElem]
  exact ⟨found.1, i.val, i.isLt, rfl, fun j before => by
    simpa using found.2 ⟨j, by omega⟩ before⟩

end Schema
end CppDB
