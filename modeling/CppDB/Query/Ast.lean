import CppDB.Core.Schema

/-! Statements as the parser builds them (`query/Ast.hpp`). -/
namespace CppDB

inductive CompareOp where
  | eq
  | ne
  | lt
  | le
  | gt
  | ge
  deriving Repr, DecidableEq

/-- `column op literal`; the literal stays a text until the query runs. -/
structure WhereClause where
  column : Str
  op : CompareOp
  value : Str
  deriving Repr, DecidableEq

/-- A conjunction; the empty one filters nothing. -/
abbrev WhereList := List WhereClause

structure ColumnDef where
  name : Str
  type : DataType
  deriving Repr, DecidableEq

structure CreateTableStatement where
  table : Str
  columns : List ColumnDef
  deriving Repr, DecidableEq

structure DropTableStatement where
  table : Str
  deriving Repr, DecidableEq

/-- The values are parallel to the columns. -/
structure InsertStatement where
  table : Str
  columns : List Str
  values : List Str
  parallel : columns.length = values.length
  deriving Repr, DecidableEq

/-- No columns means all of them. -/
structure SelectStatement where
  table : Str
  columns : List Str
  conditions : WhereList
  deriving Repr, DecidableEq

structure UpdateStatement where
  table : Str
  assignments : List (Str × Str)
  conditions : WhereList
  deriving Repr, DecidableEq

structure DeleteStatement where
  table : Str
  conditions : WhereList
  deriving Repr, DecidableEq

inductive Statement where
  | create (stmt : CreateTableStatement)
  | drop (stmt : DropTableStatement)
  | insert (stmt : InsertStatement)
  | select (stmt : SelectStatement)
  | update (stmt : UpdateStatement)
  | delete (stmt : DeleteStatement)
  deriving Repr, DecidableEq

end CppDB
