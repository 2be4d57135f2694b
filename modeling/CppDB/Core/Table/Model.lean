import CppDB.Core.Row
import CppDB.Lib.Scan
import CppDB.Structures.BTree.Balanced
import CppDB.Structures.LRUCache.Recency

/-! The table of `core/table.cpp`. Each public operation runs under one lock, so it is
one function on the table's state. An operation that throws returns the exception with
the state it had reached. -/
namespace CppDB

/-- The default degree of `BTree`. -/
def defaultDegree : Nat := 16

variable [StdHash Int64]

structure Table [StdHash Int64] where
  schema : Schema
  rows : BTree.Sound defaultDegree Int64 Row
  cache : LRUCache.Sound Int64 Row

/-- `std::function<bool(const Row&)>`, which may throw. -/
abbrev Predicate := Row → Except Exn Bool

/-- Assignments `column = literal`. -/
abbrev Assignments := List (Str × Str)

namespace Table

def idColumn : Str := "id".toList

def defaultCacheCapacity : Nat := 128

def noPrimaryKey : Exn :=
  .invalidArgument "Table: schema requires an INT primary-key column named 'id'".toList

def schemaMismatch : Exn := .invalidArgument "Table: row schema does not match table schema".toList

def incompleteRow : Exn := .invalidArgument "Table: row is incomplete or fails type checks".toList

def primaryKeyUpdate : Exn := .invalidArgument "Table: the primary key cannot be updated".toList

def unknownColumn (column : Str) : Exn :=
  .invalidArgument ("Table: unknown column '".toList ++ column ++ "'".toList)

def notValid (value : Str) (type : DataType) (column : Str) : Exn :=
  .invalidArgument ("Table: value '".toList ++ value ++ "' is not a valid ".toList ++
    type.toString ++ " for column '".toList ++ column ++ "'".toList)

/-- The schema has an `INT` column `id`. -/
def hasPrimaryKey (schema : Schema) : Bool :=
  match schema.findColumn idColumn with
  | some column => column.type = .int
  | none => false

/-- The constructor; the members are initialised, and may throw, before the body. -/
def create (schema : Schema) (cacheCapacity : Nat) : Except Exn Table := do
  let cache ← LRUCache.Sound.create cacheCapacity
  if hasPrimaryKey schema then
    return { schema, rows := .create (by decide), cache }
  else throw noPrimaryKey

def makeRow (table : Table) : Row := Row.blank table.schema

/-- The checks of `insert` before the lock, down to the id the row is filed under. -/
def checkRow (schema : Schema) (row : Row) : Except Exn Int64 :=
  if row.schema.columns ≠ schema.columns then .error schemaMismatch
  else if !schema.validate row then .error incompleteRow
  else row.getInt idColumn

def insert (table : Table) (row : Row) : Except Exn Bool × Table :=
  match checkRow table.schema row with
  | .error e => (.error e, table)
  | .ok id =>
    let (rows, inserted) := table.rows.insert id row
    (.ok inserted, { table with rows })

def findById (table : Table) (id : Int64) : Option Row × Table :=
  let (cache, hit) := table.cache.get id
  match hit with
  | some row => (some row, { table with cache })
  | none =>
    match table.rows.search id with
    | none => (none, { table with cache })
    | some row => (some row, { table with cache := cache.put id row })

def deleteById (table : Table) (id : Int64) : Bool × Table :=
  let (rows, removed) := table.rows.remove id
  (removed, { table with rows, cache := if removed then (table.cache.erase id).1 else table.cache })

def rowCount (table : Table) : Nat := table.rows.size

/-- The callback of the scans: the ids and rows that match. -/
def matching (table : Table) (predicate : Predicate) : Except Exn (List (Int64 × Row)) :=
  Scan.scan (fun entry => predicate entry.2) table.rows.forEachInOrder

def selectWhere (table : Table) (predicate : Predicate) : Except Exn (List Row) :=
  (table.matching predicate).map (List.map Prod.snd)

def selectAll (table : Table) : Except Exn (List Row) := table.selectWhere fun _ => .ok true

def selectIdRange (table : Table) (lo hi : Int64) : List Row :=
  (table.rows.forEachRange lo hi).map Prod.snd

/-- `rows_.remove(id); cache_.erase(id);` -/
def removeRow (table : Table) (id : Int64) : Table :=
  { table with rows := (table.rows.remove id).1, cache := (table.cache.erase id).1 }

def deleteWhere (table : Table) (predicate : Predicate) : Except Exn Nat × Table :=
  match table.matching predicate with
  | .error e => (.error e, table)
  | .ok doomed => (.ok doomed.length, (doomed.map Prod.fst).foldl removeRow table)

/-- The validation of one assignment at the start of `updateWhere`. -/
def checkAssignment (schema : Schema) (column value : Str) : Except Exn Unit :=
  if column = idColumn then .error primaryKeyUpdate
  else match schema.findColumn column with
    | none => .error (unknownColumn column)
    | some definition =>
      if isValidValueFor definition.type value then .ok ()
      else .error (notValid value definition.type column)

def checkAssignments (schema : Schema) : Assignments → Except Exn Unit
  | [] => .ok ()
  | (column, value) :: rest => do
    checkAssignment schema column value
    checkAssignments schema rest

/-- `Row* row = rows_.search(id)` and the assignments through it. A null pointer is
`none`; what was assigned before an exception stays. -/
def assignRow (id : Int64) : Assignments → BTree.Sound defaultDegree Int64 Row →
    Option (Except Exn Unit × BTree.Sound defaultDegree Int64 Row)
  | [], rows => some (.ok (), rows)
  | (column, value) :: rest, rows => do
    let row ← rows.search id
    match row.set column value with
    | .error e => return (.error e, rows)
    | .ok row => assignRow id rest (← rows.store id row)

def assignRows (assignments : Assignments) : List Int64 →
    BTree.Sound defaultDegree Int64 Row →
    Option (Except Exn Unit × BTree.Sound defaultDegree Int64 Row)
  | [], rows => some (.ok (), rows)
  | id :: ids, rows => do
    match ← assignRow id assignments rows with
    | (.error e, rows) => return (.error e, rows)
    | (.ok (), rows) => assignRows assignments ids rows

def updateWhere (table : Table) (predicate : Predicate) (assignments : Assignments) :
    Option (Except Exn Nat × Table) :=
  match checkAssignments table.schema assignments with
  | .error e => some (.error e, table)
  | .ok () =>
    match table.matching predicate with
    | .error e => some (.error e, table)
    | .ok matched => do
      let ids := matched.map Prod.fst
      match ← assignRows assignments ids table.rows with
      | (.error e, rows) => return (.error e, { table with rows })
      | (.ok (), rows) =>
        return (.ok matched.length, { table with
          rows, cache := ids.foldl (fun cache id => (cache.erase id).1) table.cache })

/-- The calls on the public interface. -/
inductive Op where
  | insert (row : Row)
  | findById (id : Int64)
  | deleteById (id : Int64)
  | rowCount
  | selectAll
  | selectWhere (predicate : Predicate)
  | selectIdRange (lo hi : Int64)
  | deleteWhere (predicate : Predicate)
  | updateWhere (predicate : Predicate) (assignments : Assignments)

inductive Result where
  | thrown (e : Exn)
  | flag (answer : Bool)
  | row (found : Option Row)
  | rows (found : List Row)
  | count (n : Nat)

/-- The result of a call that may throw. -/
def Result.of {α : Type} (result : α → Result) : Except Exn α → Result
  | .ok a => result a
  | .error e => .thrown e

def step (table : Table) : Op → Option (Table × Result)
  | .insert row =>
    let (inserted, table) := table.insert row
    some (table, .of .flag inserted)
  | .findById id =>
    let (found, table) := table.findById id
    some (table, .row found)
  | .deleteById id =>
    let (removed, table) := table.deleteById id
    some (table, .flag removed)
  | .rowCount => some (table, .count table.rowCount)
  | .selectAll => some (table, .of .rows table.selectAll)
  | .selectWhere predicate => some (table, .of .rows (table.selectWhere predicate))
  | .selectIdRange lo hi => some (table, .rows (table.selectIdRange lo hi))
  | .deleteWhere predicate =>
    let (deleted, table) := table.deleteWhere predicate
    some (table, .of .count deleted)
  | .updateWhere predicate assignments => do
    let (updated, table) ← table.updateWhere predicate assignments
    return (table, .of .count updated)

end Table
end CppDB
