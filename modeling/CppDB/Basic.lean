import Mathlib

/-! Texts, exceptions and the default hash, shared by all components. A `std::string`
is the list of its bytes, each written as the character of that code. -/
namespace CppDB

abbrev Str := List Char

/-- The exceptions the code throws, with the texts they are made with. -/
inductive Exn where
  | invalidArgument (message : Str)
  | outOfRange (message : Str)
  | badVariantAccess
  | queryError (message : Str)
  deriving Repr, DecidableEq

def Exn.message : Exn → Str
  | .invalidArgument message => message
  | .outOfRange message => message
  | .badVariantAccess => "bad_variant_access".toList
  | .queryError message => message

/-- `what()` is a C string: it ends before the first null byte. -/
def Exn.what (e : Exn) : Str := e.message.takeWhile (· ≠ '\x00')

/-- `std::hash<K>`: nothing is assumed about it. -/
class StdHash (K : Type) where
  hash : K → Nat

namespace OneBucket

/-- The worst a hash can be: every key lands in one bucket. -/
scoped instance constantHash (K : Type) : StdHash K := ⟨fun _ => 0⟩

end OneBucket

end CppDB
