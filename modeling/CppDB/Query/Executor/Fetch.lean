import CppDB.Core.Table.Model
import CppDB.Query.Ast

/-! The row selection of `query/query_executor.cpp`: predicates compiled from `WHERE`
clauses, and the path through the primary key when a clause allows it. -/
namespace CppDB.Executor

/-- The sign of `std::string::compare`: bytewise, a proper start of a text coming first. -/
def compareText : Str → Str → Int
  | [], [] => 0
  | [], _ :: _ => -1
  | _ :: _, [] => 1
  | a :: s, b :: t => if a < b then -1 else if b < a then 1 else compareText s t

def applyOp (op : CompareOp) (cmp : Int) : Bool :=
  match op with
  | .eq => cmp = 0
  | .ne => cmp ≠ 0
  | .lt => cmp < 0
  | .le => cmp ≤ 0
  | .gt => 0 < cmp
  | .ge => 0 ≤ cmp

def noSuchColumn (column : Str) : Exn :=
  .queryError ("no such column '".toList ++ column ++ "'".toList)

def wrongLiteral (column : Str) (type : DataType) (value : Str) : Exn :=
  .queryError ("column '".toList ++ column ++ "' is ".toList ++ type.toString ++
    ", got '".toList ++ value ++ "'".toList)

/-- The predicate of one clause; the column and the literal are checked here, once. -/
def makePredicate (schema : Schema) (clause : WhereClause) : Except Exn Predicate :=
  match schema.findColumn clause.column with
  | none => .error (noSuchColumn clause.column)
  | some column =>
    if !isValidValueFor column.type clause.value then
      .error (wrongLiteral clause.column column.type clause.value)
    else match column.type with
      | .int =>
        let expected := parseInt clause.value
        .ok fun row => do
          let actual ← row.getInt clause.column
          return applyOp clause.op (if actual < expected then -1 else if expected < actual then 1 else 0)
      | .text => .ok fun row => do
          let actual ← row.get clause.column
          let raw := compareText actual clause.value
          return applyOp clause.op (if raw < 0 then -1 else if 0 < raw then 1 else 0)

def makePredicates (schema : Schema) : WhereList → Except Exn (List Predicate)
  | [] => .ok []
  | clause :: rest => do
    let predicate ← makePredicate schema clause
    return predicate :: (← makePredicates schema rest)

/-- All predicates in order, up to the first that is false. -/
def conjunction : List Predicate → Predicate
  | [], _ => .ok true
  | predicate :: rest, row => do
    if ← predicate row then conjunction rest row else return false

def makeConjunction (schema : Schema) (conditions : WhereList) : Except Exn Predicate :=
  (makePredicates schema conditions).map conjunction

def isIndexableIdClause (clause : WhereClause) : Bool :=
  clause.column = Table.idColumn && clause.op != .ne

/-- The first indexable clause and the others in order. -/
def splitIndexable : WhereList → Option (WhereClause × WhereList)
  | [] => none
  | clause :: rest =>
    if isIndexableIdClause clause then some (clause, rest)
    else (splitIndexable rest).map fun (indexable, others) => (indexable, clause :: others)

def unindexable : Exn := .queryError "internal: unindexable id clause".toList

variable [StdHash Int64]

def rowsByIdClause (table : Table) (clause : WhereClause) : Except Exn (List Row) × Table :=
  if !isValidValueFor .int clause.value then
    (.error (wrongLiteral Table.idColumn .int clause.value), table)
  else
    let v := parseInt clause.value
    match clause.op with
    | .eq =>
      let (row, table) := table.findById v
      (.ok row.toList, table)
    | .lt =>
      (.ok (if v = Int64.minValue then [] else table.selectIdRange Int64.minValue (v - 1)), table)
    | .le => (.ok (table.selectIdRange Int64.minValue v), table)
    | .gt =>
      (.ok (if v = Int64.maxValue then [] else table.selectIdRange (v + 1) Int64.maxValue), table)
    | .ge => (.ok (table.selectIdRange v Int64.maxValue), table)
    | .ne => (.error unindexable, table)

def fetchRows (table : Table) (conditions : WhereList) : Except Exn (List Row) × Table :=
  if conditions = [] then (table.selectAll, table)
  else match splitIndexable conditions with
    | none =>
      match makeConjunction table.schema conditions with
      | .error e => (.error e, table)
      | .ok predicate => (table.selectWhere predicate, table)
    | some (indexable, rest) =>
      match rowsByIdClause table indexable with
      | (.error e, table) => (.error e, table)
      | (.ok candidates, table) =>
        if rest = [] then (.ok candidates, table)
        else match makeConjunction table.schema rest with
          | .error e => (.error e, table)
          | .ok predicate => (Scan.scan predicate candidates, table)

end CppDB.Executor
