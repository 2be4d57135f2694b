import CppDB.Basic

/-! Typed cells and their decimal texts: the free functions of `core/schema.cpp`, with
`std::from_chars` and `std::to_string` as the standard specifies them for `int64_t`. -/
namespace CppDB

instance int64LinearOrder : LinearOrder Int64 where
  le_refl := Int64.le_refl
  le_trans _ _ _ := Int64.le_trans
  lt_iff_le_not_ge _ _ := by
    rw [Int64.lt_iff_toInt_lt, Int64.le_iff_toInt_le, Int64.le_iff_toInt_le]
    omega
  le_antisymm _ _ := Int64.le_antisymm
  le_total := Int64.le_total
  toDecidableLE := inferInstance
  toDecidableLT := inferInstance
  toDecidableEq := instDecidableEqInt64

inductive DataType where
  | int
  | text
  deriving Repr, DecidableEq

/-- `std::variant<std::int64_t, std::string>`. -/
inductive Value where
  | int (number : Int64)
  | text (content : Str)
  deriving Repr, DecidableEq

/-- The alternative a variant holds. -/
def Value.type : Value → DataType
  | .int _ => .int
  | .text _ => .text

/-- The decimal digits of a number, most significant first. -/
def decimal (n : Nat) : Str :=
  if n = 0 then ['0'] else ((Nat.digits 10 n).map Nat.digitChar).reverse

/-- `std::to_string` of an `int64_t`. -/
def numeral (n : Int64) : Str :=
  if n.toInt < 0 then '-' :: decimal n.toInt.natAbs else decimal n.toInt.natAbs

def DataType.toString : DataType → Str
  | .int => "INT".toList
  | .text => "TEXT".toList

def Value.toString : Value → Str
  | .int number => numeral number
  | .text content => content

def dataTypeFromString (name : Str) : Option DataType :=
  if name = "INT".toList then some .int
  else if name = "TEXT".toList then some .text
  else none

/-- The number a digit sequence denotes. -/
def digitsValue (digits : Str) : Nat := digits.foldl (fun n c => n * 10 + (c.toNat - '0'.toNat)) 0

/-- `std::from_chars` on an `int64_t`: the longest prefix that is an optional minus sign
and at least one digit, with the text behind it; nothing if there is no such prefix or
its number does not fit. -/
def fromChars (text : Str) : Option (Int64 × Str) :=
  let negative := text.head? = some '-'
  let body := if negative then text.tail else text
  let digits := body.takeWhile Char.isDigit
  let magnitude : Int := digitsValue digits
  let number := if negative then -magnitude else magnitude
  if digits ≠ [] ∧ -2 ^ 63 ≤ number ∧ number < 2 ^ 63 then
    some (Int64.ofInt number, body.dropWhile Char.isDigit)
  else none

def isValidValueFor (type : DataType) (value : Str) : Bool :=
  match type with
  | .int =>
    match fromChars value with
    | some (_, rest) => rest.isEmpty
    | none => false
  | .text => true

/-- `std::from_chars` into a variable that was zero before. -/
def parseInt (raw : Str) : Int64 :=
  match fromChars raw with
  | some (number, _) => number
  | none => 0

/-- The cell a validated literal is stored as. -/
def cellFor (type : DataType) (value : Str) : Value :=
  match type with
  | .int => .int (parseInt value)
  | .text => .text value

theorem type_cellFor (type : DataType) (value : Str) : (cellFor type value).type = type := by
  cases type <;> rfl

end CppDB
