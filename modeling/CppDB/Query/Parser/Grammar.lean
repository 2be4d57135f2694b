import CppDB.Query.Parser.Model

/-! The grammar of the statements, as the relation between a statement and the token
lists that spell it. -/
namespace CppDB.Grammar

open Descent CppDB.Parser

def word (keyword : String) (tokens : List Token) : Prop :=
  ∃ token, tokens = [token] ∧ isKeyword keyword.toList token

def mark (c : Char) (tokens : List Token) : Prop :=
  ∃ token, tokens = [token] ∧ isPunctuation c token

/-- A token of one of the types, with the value. -/
def spelled (types : List TokenType) (value : Str) (tokens : List Token) : Prop :=
  ∃ token, tokens = [token] ∧ token.type ∈ types ∧ token.value = value

def identifier : Str → List Token → Prop := spelled [.identifier]

def literal : Str → List Token → Prop := spelled [.number, .string]

def operator : Str → List Token → Prop := spelled [.operator]

/-- A non-empty list with commas between its items. -/
def commaList {α : Type} (item : α → List Token → Prop) : List α → List Token → Prop :=
  Separated (isPunctuation ',') item

def typeName : DataType → List Token → Prop
  | .int => word "INT"
  | .text => word "TEXT"

def columnDef (column : ColumnDef) : List Token → Prop :=
  sequence [identifier column.name, typeName column.type]

def assignment (pair : Str × Str) : List Token → Prop :=
  sequence [identifier pair.1, operator "=".toList, literal pair.2]

def symbol : CompareOp → Str
  | .eq => "=".toList
  | .ne => "!=".toList
  | .lt => "<".toList
  | .le => "<=".toList
  | .gt => ">".toList
  | .ge => ">=".toList

def condition (clause : WhereClause) : List Token → Prop :=
  sequence [identifier clause.column, operator (symbol clause.op), literal clause.value]

def optionalWhere : WhereList → List Token → Prop
  | [] => fun tokens => tokens = []
  | clause :: clauses =>
    sequence [word "WHERE", Separated (isKeyword "AND".toList) condition (clause :: clauses)]

/-- No columns are spelled by a star, and only these. -/
def selection : List Str → List Token → Prop
  | [] => mark '*'
  | column :: columns => commaList identifier (column :: columns)

def statement : Statement → List Token → Prop
  | .create stmt =>
    sequence [word "CREATE", word "TABLE", identifier stmt.table, mark '(',
      commaList columnDef stmt.columns, mark ')']
  | .drop stmt => sequence [word "DROP", word "TABLE", identifier stmt.table]
  | .insert stmt => fun tokens =>
    sequence [word "INSERT", word "INTO", identifier stmt.table, mark '(',
      commaList identifier stmt.columns, mark ')', word "VALUES", mark '(',
      commaList literal stmt.values, mark ')'] tokens ∧
      stmt.columns.length = stmt.values.length
  | .select stmt =>
    sequence [word "SELECT", selection stmt.columns, word "FROM", identifier stmt.table,
      optionalWhere stmt.conditions]
  | .update stmt =>
    sequence [word "UPDATE", identifier stmt.table, word "SET",
      commaList assignment stmt.assignments, optionalWhere stmt.conditions]
  | .delete stmt =>
    sequence [word "DELETE", word "FROM", identifier stmt.table, optionalWhere stmt.conditions]

end CppDB.Grammar
