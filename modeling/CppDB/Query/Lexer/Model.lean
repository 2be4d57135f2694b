import CppDB.Core.Value

/-! The lexer (`query/Token.hpp`, `query/lexer.cpp`), with the character classes of the
C locale. -/
namespace CppDB

inductive TokenType where
  | keyword
  | identifier
  | number
  | string
  | operator
  | punctuation
  | endOfInput
  deriving Repr, DecidableEq

/-- The position is the offset of the token's first byte in the query. -/
structure Token where
  type : TokenType
  value : Str
  position : Nat
  deriving Repr, DecidableEq

def Token.isEnd (token : Token) : Bool := token.type = .endOfInput

namespace Lexer

def keywords : List Str :=
  ["SELECT", "FROM", "WHERE", "INSERT", "INTO", "VALUES", "DELETE", "CREATE", "DROP", "TABLE",
    "INT", "TEXT", "AND", "UPDATE", "SET"].map String.toList

def isKeyword (upper : Str) : Bool := upper ∈ keywords

/-- `std::isspace`: blank, tab, line feed, vertical tab, form feed, carriage return. -/
def isSpace (c : Char) : Bool := c = ' ' ∨ (9 ≤ c.toNat ∧ c.toNat ≤ 13)

def isIdentStart (c : Char) : Bool := c.isAlpha || c = '_'

def isIdentChar (c : Char) : Bool := c.isAlphanum || c = '_'

def unterminated (start : Nat) : Exn :=
  .queryError ("unterminated string literal at position ".toList ++ decimal start)

def unexpectedBang (start : Nat) : Exn :=
  .queryError ("unexpected '!' at position ".toList ++ decimal start)

def unexpectedCharacter (c : Char) (start : Nat) : Exn :=
  .queryError ("unexpected character '".toList ++ [c] ++ "' at position ".toList ++ decimal start)

/-- The content of a string literal behind its opening quote, a doubled quote standing
for one, and the text behind the closing quote; nothing if no quote closes it. -/
def stringBody (quote : Char) : Str → Option (Str × Str)
  | [] => none
  | c :: rest =>
    if c = quote then
      match rest with
      | [] => some ([], [])
      | d :: behind =>
        if d = quote then (stringBody quote behind).map fun (content, text) =>
          (quote :: content, text)
        else some ([], d :: behind)
    else (stringBody quote rest).map fun (content, text) => (c :: content, text)

/-- The word that starts with `c`: a keyword in upper case, or an identifier as it is. -/
def wordToken (word : Str) (start : Nat) : Token :=
  let upper := word.map Char.toUpper
  if isKeyword upper then ⟨.keyword, upper, start⟩ else ⟨.identifier, word, start⟩

/-- One round of the loop on the text `c :: rest` at offset `start`: the token, unless a
blank is skipped, and the text behind it. -/
def scanToken (start : Nat) (c : Char) (rest : Str) : Except Exn (Option Token × Str) :=
  if isSpace c then
    .ok (none, rest)
  else if isIdentStart c then
    .ok (some (wordToken (c :: rest.takeWhile isIdentChar) start), rest.dropWhile isIdentChar)
  else if c.isDigit || (c = '-' && rest.head?.any Char.isDigit) then
    .ok (some ⟨.number, c :: rest.takeWhile Char.isDigit, start⟩, rest.dropWhile Char.isDigit)
  else if c = '\'' || c = '"' then
    match stringBody c rest with
    | some (content, text) => .ok (some ⟨.string, content, start⟩, text)
    | none => .error (unterminated start)
  else if c = '=' then
    .ok (some ⟨.operator, [c], start⟩, rest)
  else if c = '<' || c = '>' then
    if rest.head? = some '=' then .ok (some ⟨.operator, [c, '='], start⟩, rest.tail)
    else .ok (some ⟨.operator, [c], start⟩, rest)
  else if c = '!' then
    if rest.head? = some '=' then .ok (some ⟨.operator, [c, '='], start⟩, rest.tail)
    else .error (unexpectedBang start)
  else if c = '(' || c = ')' || c = ',' || c = '*' then
    .ok (some ⟨.punctuation, [c], start⟩, rest)
  else
    .error (unexpectedCharacter c start)

/-- The loop of `tokenize` for a number of rounds, from offset `start` on; nothing if
the text is not used up within them. -/
def tokenizeFrom : Nat → Nat → Str → Option (Except Exn (List Token))
  | _, start, [] => some (.ok [⟨.endOfInput, [], start⟩])
  | 0, _, _ :: _ => none
  | rounds + 1, start, c :: rest =>
    match scanToken start c rest with
    | .error e => some (.error e)
    | .ok (token, text) =>
      (tokenizeFrom rounds (start + (rest.length + 1 - text.length)) text).map fun scanned =>
        scanned.map fun tokens => token.toList ++ tokens

def tokenize (input : Str) : Option (Except Exn (List Token)) :=
  tokenizeFrom input.length 0 input

end Lexer

end CppDB
