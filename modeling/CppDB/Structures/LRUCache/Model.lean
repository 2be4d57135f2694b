import CppDB.Basic
import CppDB.Structures.HashMap.Refinement

/-! The cache of `structures/LRUCache.hpp`. A list iterator is the identity of its
node; nodes are numbered in the order they are allocated, and following an iterator
to a node that is no longer in the list is `none`. -/
namespace CppDB

/-- A node of `std::list<Entry>`. -/
structure LRUCache.Node (K V : Type) where
  id : Nat
  key : K
  value : V
  deriving Repr, DecidableEq

/-- `items` is the recency list, hottest first; `allocated` numbers the next node. -/
structure LRUCache (K V : Type) [DecidableEq K] [StdHash K] where
  capacity : Nat
  items : List (LRUCache.Node K V)
  index : HashMap.Sound (StdHash.hash : K → Nat) Nat
  allocated : Nat
  hits : Nat
  misses : Nat

namespace LRUCache

variable {K V : Type}

/-- `it->second = value`. -/
def assignNode (it : Nat) (value : V) : List (Node K V) → Option (List (Node K V))
  | [] => none
  | node :: rest =>
    if node.id = it then some ({ node with value } :: rest)
    else (assignNode it value rest).map (node :: ·)

/-- The node an iterator points at, and the list without it. -/
def unlink (it : Nat) : List (Node K V) → Option (Node K V × List (Node K V))
  | [] => none
  | node :: rest =>
    if node.id = it then some (node, rest)
    else (unlink it rest).map fun (found, rest) => (found, node :: rest)

/-- `touch`: splice the node to the front. -/
def touch (it : Nat) (items : List (Node K V)) : Option (List (Node K V)) := do
  let (node, rest) ← unlink it items
  return node :: rest

variable [DecidableEq K] [StdHash K]

def create (capacity : Nat) : Except Exn (LRUCache K V) :=
  if capacity = 0 then .error (.invalidArgument "LRUCache: capacity must be > 0".toList)
  else .ok ⟨capacity, [], .empty, 0, 0, 0⟩

/-- Drop the coldest entry of a full cache. -/
def makeRoom (c : LRUCache K V) : Option (LRUCache K V) :=
  if c.items.length = c.capacity then do
    let (items, back) ← Vec.popBack c.items
    return { c with items, index := (c.index.erase back.key).1 }
  else some c

def put (c : LRUCache K V) (key : K) (value : V) : Option (LRUCache K V) :=
  match c.index.find key with
  | some it => do
    let items ← assignNode it value c.items
    return { c with items := ← touch it items }
  | none => do
    let c ← makeRoom c
    return { c with
      items := ⟨c.allocated, key, value⟩ :: c.items
      index := (c.index.insertOrAssign key c.allocated).1
      allocated := c.allocated + 1 }

def get (c : LRUCache K V) (key : K) : Option (LRUCache K V × Option V) :=
  match c.index.find key with
  | none => some ({ c with misses := c.misses + 1 }, none)
  | some it => do
    let items ← touch it c.items
    let front ← items.head?
    return ({ c with items, hits := c.hits + 1 }, some front.value)

def peek (c : LRUCache K V) (key : K) : Option (Option V) :=
  match c.index.find key with
  | none => some none
  | some it => (unlink it c.items).map fun (node, _) => some node.value

def contains (c : LRUCache K V) (key : K) : Bool := (c.index.find key).isSome

def erase (c : LRUCache K V) (key : K) : Option (LRUCache K V × Bool) :=
  match c.index.find key with
  | none => some (c, false)
  | some it => do
    let (_, items) ← unlink it c.items
    return ({ c with items, index := (c.index.erase key).1 }, true)

def clear (c : LRUCache K V) : LRUCache K V := { c with items := [], index := .empty }

def size (c : LRUCache K V) : Nat := c.items.length

end LRUCache
end CppDB
