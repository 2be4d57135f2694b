import CppDB.Lib.Descent
import CppDB.Query.Ast
import CppDB.Query.Lexer.Model

/-! The recursive-descent parser (`query/parser.cpp`). Its position in the token vector
is the list of the tokens from there on. -/
namespace CppDB.Parser

open Descent

/-- What the `QueryError`s of the parser are about. -/
inductive SyntaxError where
  | unexpected (message : Str) (found : Token)
  | unknownOperator (token : Token)
  | countMismatch (columns values : Nat)
  deriving Repr, DecidableEq

def SyntaxError.what : SyntaxError → Str
  | .unexpected message found =>
    message ++ " at position ".toList ++ decimal found.position ++
      if found.isEnd then " (end of query)".toList
      else ", got '".toList ++ found.value ++ "'".toList
  | .unknownOperator token =>
    "unknown operator '".toList ++ token.value ++ "' at position ".toList ++ decimal token.position
  | .countMismatch columns values =>
    "INSERT has ".toList ++ decimal columns ++ " columns but ".toList ++ decimal values ++
      " values".toList

abbrev ParseM := Descent.Parser Token SyntaxError

/-- The error is placed at the token the parser looks at. -/
def fail {α : Type} (message : Str) : ParseM α := do
  let found ← peek
  raise (.unexpected message found)

def isKeyword (keyword : Str) (token : Token) : Bool :=
  token.type = .keyword && token.value = keyword

def isPunctuation (c : Char) (token : Token) : Bool :=
  token.type = .punctuation && token.value = [c]

def expected (what : Str) : Str := "expected ".toList ++ what

/-- The common shape of the `expect` functions: step over a token that passes the test,
and fail at any other. -/
def demand (test : Token → Bool) (message : Str) : ParseM Token := do
  let token ← peek
  if test token then advance Token.isEnd else fail message

def expect (type : TokenType) (what : Str) : ParseM Token :=
  demand (fun token => token.type = type) (expected what)

def expectKeyword (keyword : Str) : ParseM Token :=
  demand (isKeyword keyword) (expected keyword)

def expectPunctuation (c : Char) : ParseM Token :=
  demand (isPunctuation c) (expected ['\'', c, '\''])

def trailing (token : Token) : Str :=
  "unexpected trailing input '".toList ++ token.value ++ "'".toList

def expectEnd : ParseM Unit := do
  let token ← peek
  if token.isEnd then return () else fail (trailing token)

def literalExpected : Str := "expected a literal value".toList

def parseLiteral : ParseM Str := do
  let token ← demand (fun token => token.type = .number || token.type = .string) literalExpected
  return token.value

def compareOpFromToken (token : Token) : ParseM CompareOp :=
  if token.value = "=".toList then return .eq
  else if token.value = "!=".toList then return .ne
  else if token.value = "<".toList then return .lt
  else if token.value = "<=".toList then return .le
  else if token.value = ">".toList then return .gt
  else if token.value = ">=".toList then return .ge
  else raise (.unknownOperator token)

def tableName : Str := "table name".toList

def columnName : Str := "column name".toList

def columnType : Str := "column type".toList

def equalSign : Str := "'='".toList

def comparisonOperator : Str := "comparison operator".toList

def unknownType (name : Str) : Str := "unknown column type '".toList ++ name ++ "'".toList

def equalExpected : Str := "expected '=' in SET assignment".toList

/-- The rounds of the parser's list loops: items as long as a comma follows. -/
def commaSeparated {α : Type} (item : ParseM α) : ParseM (List α) :=
  separated Token.isEnd (isPunctuation ',') item

/-- `expect(TokenType::IDENTIFIER, what).value`. -/
def expectName (what : Str) : ParseM Str := do
  let token ← expect .identifier what
  return token.value

def parseIdentifierList : ParseM (List Str) := commaSeparated (expectName columnName)

def parseColumnType : ParseM DataType := do
  let typeToken ← expect .keyword columnType
  match dataTypeFromString typeToken.value with
  | none => fail (unknownType typeToken.value)
  | some type => return type

def parseColumnDef : ParseM ColumnDef := do
  let name ← expectName columnName
  let type ← parseColumnType
  return { name, type }

def expectEqual : ParseM Unit := do
  let eq ← expect .operator equalSign
  if eq.value ≠ ['='] then fail equalExpected else return ()

def parseAssignment : ParseM (Str × Str) := do
  let column ← expectName columnName
  let _ ← expectEqual
  let literal ← parseLiteral
  return (column, literal)

def parseCompareOp : ParseM CompareOp := do
  let token ← expect .operator comparisonOperator
  compareOpFromToken token

def parseCondition : ParseM WhereClause := do
  let column ← expectName columnName
  let op ← parseCompareOp
  let literal ← parseLiteral
  return { column, op, value := literal }

def parseConditions : ParseM WhereList :=
  separated Token.isEnd (isKeyword "AND".toList) parseCondition

/-- `WHERE cond AND cond ...`, or nothing. -/
def parseOptionalWhere : ParseM WhereList := do
  let token ← peek
  if isKeyword "WHERE".toList token then do
    let _ ← advance Token.isEnd
    parseConditions
  else return []

def parseCreate : ParseM CreateTableStatement := do
  let _ ← expectKeyword "CREATE".toList
  let _ ← expectKeyword "TABLE".toList
  let table ← expectName tableName
  let _ ← expectPunctuation '('
  let columns ← commaSeparated parseColumnDef
  let _ ← expectPunctuation ')'
  let _ ← expectEnd
  return { table, columns }

def parseDrop : ParseM DropTableStatement := do
  let _ ← expectKeyword "DROP".toList
  let _ ← expectKeyword "TABLE".toList
  let table ← expectName tableName
  let _ ← expectEnd
  return { table }

def parseInsert : ParseM InsertStatement := do
  let _ ← expectKeyword "INSERT".toList
  let _ ← expectKeyword "INTO".toList
  let table ← expectName tableName
  let _ ← expectPunctuation '('
  let columns ← parseIdentifierList
  let _ ← expectPunctuation ')'
  let _ ← expectKeyword "VALUES".toList
  let _ ← expectPunctuation '('
  let values ← commaSeparated parseLiteral
  let _ ← expectPunctuation ')'
  let _ ← expectEnd
  if parallel : columns.length = values.length then return { table, columns, values, parallel }
  else raise (.countMismatch columns.length values.length)

/-- `*`, which is no columns, or a list of them. -/
def parseSelection : ParseM (List Str) := do
  let token ← peek
  if isPunctuation '*' token then do
    let _ ← advance Token.isEnd
    return []
  else parseIdentifierList

def parseSelect : ParseM SelectStatement := do
  let _ ← expectKeyword "SELECT".toList
  let columns ← parseSelection
  let _ ← expectKeyword "FROM".toList
  let table ← expectName tableName
  let conditions ← parseOptionalWhere
  let _ ← expectEnd
  return { table, columns, conditions }

def parseUpdate : ParseM UpdateStatement := do
  let _ ← expectKeyword "UPDATE".toList
  let table ← expectName tableName
  let _ ← expectKeyword "SET".toList
  let assignments ← commaSeparated parseAssignment
  let conditions ← parseOptionalWhere
  let _ ← expectEnd
  return { table, assignments, conditions }

def parseDelete : ParseM DeleteStatement := do
  let _ ← expectKeyword "DELETE".toList
  let _ ← expectKeyword "FROM".toList
  let table ← expectName tableName
  let conditions ← parseOptionalWhere
  let _ ← expectEnd
  return { table, conditions }

def statementExpected : Str :=
  "expected a statement (SELECT, INSERT, DELETE, CREATE, DROP)".toList

def unsupported (word : Str) : Str := "unsupported statement '".toList ++ word ++ "'".toList

/-- The statement the first keyword announces. -/
def parseStatement : ParseM Statement := do
  let first ← peek
  if first.type ≠ .keyword then fail statementExpected
  else if first.value = "CREATE".toList then return .create (← parseCreate)
  else if first.value = "DROP".toList then return .drop (← parseDrop)
  else if first.value = "INSERT".toList then return .insert (← parseInsert)
  else if first.value = "SELECT".toList then return .select (← parseSelect)
  else if first.value = "UPDATE".toList then return .update (← parseUpdate)
  else if first.value = "DELETE".toList then return .delete (← parseDelete)
  else fail (unsupported first.value)

/-- `Parser(tokens).parse()`: the statement, or the error thrown; nothing if the parser
reads past the last token or does not return. -/
def parse (tokens : List Token) : Option (Except SyntaxError Statement) :=
  (parseStatement tokens).map fun answer => answer.map Prod.fst

end CppDB.Parser
