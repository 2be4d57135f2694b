import CppDB.Lib.Vec

/-! The B-tree of `structures/BTree.hpp`, function by function. A `UniquePtr<Node>`
is null or owns a node, so the pointer type is the tree type itself. `none` stands
for undefined behaviour: an access outside a vector or through a null pointer, or an
`int` that overflows. The two descents that rebuild the nodes they enter
(`insertNonFull`, `removeFrom`) are not structural, so they run on fuel and are `none`
without it. The minimum degree `t_` is an `int` of 32 bits and at least 2. -/
namespace CppDB.BTree

/-- `UniquePtr<Node>`: null, or the parallel keys and values and the children
(no children in a leaf). -/
inductive Node (K V : Type) where
  | null
  | node (keys : List K) (values : List V) (children : List (Node K V))

variable {K V : Type}

namespace Node

def keys : Node K V → List K
  | .null => []
  | .node ks _ _ => ks

def values : Node K V → List V
  | .null => []
  | .node _ vs _ => vs

def children : Node K V → List (Node K V)
  | .null => []
  | .node _ _ cs => cs

def isLeaf : Node K V → Bool
  | .null => false
  | .node _ _ cs => cs.isEmpty

/-- `children[i]->keys.size()`. -/
def childSize (cs : List (Node K V)) (i : Nat) : Option Nat := do
  let .node ks _ _ ← cs[i]? | none
  return ks.length

/-- Levels counted along the leftmost path, as `height()` counts them. -/
def height : Node K V → Nat
  | .null => 0
  | .node _ _ [] => 1
  | .node _ _ (c :: _) => height c + 1

end Node

open Node (childSize)

/-- `static_cast<std::size_t>(2 * t_ - 1)`. The product is an `int`, and is taken before
anything is subtracted from it: from a degree of `2 ^ 30` on it overflows. -/
def maxKeys (t : Nat) : Option Nat := if 2 * t ≤ 2 ^ 31 - 1 then some (2 * t - 1) else none

def isFull (t size : Nat) : Option Bool := (maxKeys t).map (size == ·)

theorem maxKeys_of_small {t : Nat} (small : t < 2 ^ 30) : maxKeys t = some (2 * t - 1) :=
  if_pos (by omega)

theorem maxKeys_exact {t most : Nat} (is : maxKeys t = some most) : most = 2 * t - 1 := by
  rw [maxKeys, Option.ite_none_right_eq_some, Option.some.injEq] at is
  exact is.2.symm

theorem maxKeys_overflows {t : Nat} (big : 2 ^ 30 ≤ t) : maxKeys t = none := if_neg (by omega)

theorem isFull_of_small {t : Nat} (small : t < 2 ^ 30) (size : Nat) :
    isFull t size = some (size == 2 * t - 1) := by
  rw [isFull, maxKeys_of_small small, Option.map_some]

theorem isFull_overflows {t : Nat} (big : 2 ^ 30 ≤ t) (size : Nat) : isFull t size = none := by
  rw [isFull, maxKeys_overflows big, Option.map_none]

/-- `std::lower_bound` on an ascending key vector: the first position whose key is
not below the key looked for. -/
def lowerBound [LinearOrder K] (ks : List K) (key : K) : Nat :=
  ks.findIdx fun k => !decide (k < key)

/-- The full child `i` gives its median to the parent and its upper half to a new
right sibling. -/
def splitChild (t : Nat) (parent : Node K V) (i : Nat) : Option (Node K V) := do
  let .node pks pvs pcs ← some parent | none
  let .node ks vs cs ← pcs[i]? | none
  let (leftKeys, upperKeys) ← Vec.cut ks (t - 1)
  let (median, rightKeys) ← Vec.popFront upperKeys
  let (leftValues, upperValues) ← Vec.cut vs (t - 1)
  let (medianValue, rightValues) ← Vec.popFront upperValues
  let (leftChildren, rightChildren) ← if cs.isEmpty then some ([], []) else Vec.cut cs (t - 1 + 1)
  let pks ← Vec.insertAt pks i median
  let pvs ← Vec.insertAt pvs i medianValue
  let pcs ← Vec.setAt pcs i (.node leftKeys leftValues leftChildren)
  let pcs ← Vec.insertAt pcs (i + 1) (.node rightKeys rightValues rightChildren)
  return .node pks pvs pcs

/-- Rotate right through the separator `i - 1`. -/
def borrowFromPrev (node : Node K V) (i : Nat) : Option (Node K V) := do
  let .node ks vs cs ← some node | none
  let .node childKeys childValues childChildren ← cs[i]? | none
  let .node leftKeys leftValues leftChildren ← (if i = 0 then none else cs[i - 1]?) | none
  let separator ← ks[i - 1]?
  let separatorValue ← vs[i - 1]?
  let (leftKeys, lastKey) ← Vec.popBack leftKeys
  let (leftValues, lastValue) ← Vec.popBack leftValues
  let ks ← Vec.setAt ks (i - 1) lastKey
  let vs ← Vec.setAt vs (i - 1) lastValue
  let (leftChildren, childChildren) ←
    if leftChildren.isEmpty then some (leftChildren, childChildren)
    else (Vec.popBack leftChildren).map fun (rest, last) => (rest, last :: childChildren)
  let cs ← Vec.setAt cs i
    (.node (separator :: childKeys) (separatorValue :: childValues) childChildren)
  let cs ← Vec.setAt cs (i - 1) (.node leftKeys leftValues leftChildren)
  return .node ks vs cs

/-- Rotate left through the separator `i`. -/
def borrowFromNext (node : Node K V) (i : Nat) : Option (Node K V) := do
  let .node ks vs cs ← some node | none
  let .node childKeys childValues childChildren ← cs[i]? | none
  let .node rightKeys rightValues rightChildren ← cs[i + 1]? | none
  let separator ← ks[i]?
  let separatorValue ← vs[i]?
  let (firstKey, rightKeys) ← Vec.popFront rightKeys
  let (firstValue, rightValues) ← Vec.popFront rightValues
  let ks ← Vec.setAt ks i firstKey
  let vs ← Vec.setAt vs i firstValue
  let (childChildren, rightChildren) ←
    if rightChildren.isEmpty then some (childChildren, rightChildren)
    else (Vec.popFront rightChildren).map fun (first, rest) => (childChildren ++ [first], rest)
  let cs ← Vec.setAt cs i
    (.node (childKeys ++ [separator]) (childValues ++ [separatorValue]) childChildren)
  let cs ← Vec.setAt cs (i + 1) (.node rightKeys rightValues rightChildren)
  return .node ks vs cs

/-- Child `i`, separator `i` and child `i + 1` become child `i`. -/
def mergeChildren (node : Node K V) (i : Nat) : Option (Node K V) := do
  let .node ks vs cs ← some node | none
  let .node leftKeys leftValues leftChildren ← cs[i]? | none
  let .node rightKeys rightValues rightChildren ← cs[i + 1]? | none
  let separator ← ks[i]?
  let separatorValue ← vs[i]?
  let merged := Node.node (leftKeys ++ [separator] ++ rightKeys)
    (leftValues ++ [separatorValue] ++ rightValues)
    (if rightChildren.isEmpty then leftChildren else leftChildren ++ rightChildren)
  let ks ← Vec.eraseAt ks i
  let vs ← Vec.eraseAt vs i
  let cs ← Vec.setAt cs i merged
  let cs ← Vec.eraseAt cs (i + 1)
  return .node ks vs cs

/-- `i > 0 && children[i - 1]->keys.size() >= t`. -/
def prevHasSpare (t : Nat) (cs : List (Node K V)) (i : Nat) : Option Bool :=
  if 0 < i then (childSize cs (i - 1)).map (decide <| t ≤ ·) else some false

/-- `i < children.size() - 1 && children[i + 1]->keys.size() >= t`. -/
def nextHasSpare (t : Nat) (cs : List (Node K V)) (i : Nat) : Option Bool :=
  if i < cs.length - 1 then (childSize cs (i + 1)).map (decide <| t ≤ ·) else some false

/-- Top up child `i` to at least `t` keys: borrow from a sibling, or merge with one. -/
def fillChild (t : Nat) (node : Node K V) (i : Nat) : Option (Node K V) := do
  if ← prevHasSpare t node.children i then
    borrowFromPrev node i
  else if ← nextHasSpare t node.children i then
    borrowFromNext node i
  else if 0 < i then
    mergeChildren node (i - 1)
  else
    mergeChildren node i

/-- Run `f` on child `i` in place and keep its result beside the new parent. -/
def onChild {α : Type} (node : Node K V) (i : Nat) (f : Node K V → Option (Node K V × α)) :
    Option (Node K V × α) := do
  let .node ks vs cs ← some node | none
  let (child, result) ← f (← cs[i]?)
  let cs ← Vec.setAt cs i child
  return (.node ks vs cs, result)

def takeMax (t : Nat) : Nat → Node K V → Option (Node K V × (K × V))
  | 0, _ => none
  | _ + 1, .null => none
  | fuel + 1, .node ks vs cs =>
    if cs.isEmpty then do
      let (ks, key) ← Vec.popBack ks
      let (vs, value) ← Vec.popBack vs
      return (.node ks vs cs, (key, value))
    else do
      let last := cs.length - 1
      if (← childSize cs last) < t then
        let node ← fillChild t (.node ks vs cs) last
        -- a merge may have shrunk the children, so the last index is read again
        onChild node (node.children.length - 1) (takeMax t fuel)
      else
        onChild (.node ks vs cs) last (takeMax t fuel)

def takeMin (t : Nat) : Nat → Node K V → Option (Node K V × (K × V))
  | 0, _ => none
  | _ + 1, .null => none
  | fuel + 1, .node ks vs cs =>
    if cs.isEmpty then do
      let (key, ks) ← Vec.popFront ks
      let (value, vs) ← Vec.popFront vs
      return (.node ks vs cs, (key, value))
    else do
      if (← childSize cs 0) < t then
        onChild (← fillChild t (.node ks vs cs) 0) 0 (takeMin t fuel)
      else
        onChild (.node ks vs cs) 0 (takeMin t fuel)

/-- Write an entry over position `i` of a node. -/
def replaceEntry (node : Node K V) (i : Nat) (entry : K × V) : Option (Node K V) := do
  let .node ks vs cs ← some node | none
  let ks ← Vec.setAt ks i entry.1
  let vs ← Vec.setAt vs i entry.2
  return .node ks vs cs

section Order
variable [LinearOrder K]

/-- `i < keys.size() && keys[i] == key`. -/
def keyAt (ks : List K) (i : Nat) (key : K) : Bool := ks[i]? == some key

def insertNonFull (t : Nat) : Nat → Node K V → K → V → Option (Node K V × Bool)
  | 0, _, _, _ => none
  | _ + 1, .null, _, _ => none
  | fuel + 1, .node ks vs cs, key, value =>
    let i := lowerBound ks key
    if keyAt ks i key then
      some (.node ks vs cs, false)
    else if cs.isEmpty then do
      let ks ← Vec.insertAt ks i key
      let vs ← Vec.insertAt vs i value
      return (.node ks vs cs, true)
    else do
      if ← isFull t (← childSize cs i) then
        let node ← splitChild t (.node ks vs cs) i
        let median ← node.keys[i]?
        if median = key then
          return (node, false)
        else
          onChild node (if median < key then i + 1 else i) (insertNonFull t fuel · key value)
      else
        onChild (.node ks vs cs) i (insertNonFull t fuel · key value)

def removeFrom (t : Nat) : Nat → Node K V → K → Option (Node K V × Bool)
  | 0, _, _ => none
  | _ + 1, .null, _ => none
  | fuel + 1, .node ks vs cs, key =>
    let i := lowerBound ks key
    let present := keyAt ks i key
    if present && cs.isEmpty then do
      let ks ← Vec.eraseAt ks i
      let vs ← Vec.eraseAt vs i
      return (.node ks vs cs, true)
    else if present then do
      if t ≤ (← childSize cs i) then
        let (drained, entry) ← onChild (.node ks vs cs) i (takeMax t fuel)
        return (← replaceEntry drained i entry, true)
      else if t ≤ (← childSize cs (i + 1)) then
        let (drained, entry) ← onChild (.node ks vs cs) (i + 1) (takeMin t fuel)
        return (← replaceEntry drained i entry, true)
      else
        onChild (← mergeChildren (.node ks vs cs) i) i (removeFrom t fuel · key)
    else if cs.isEmpty then
      some (.node ks vs cs, false)
    else do
      if (← childSize cs i) < t then
        let node ← fillChild t (.node ks vs cs) i
        -- borrows move separators and merges drop one: the descent index is recomputed
        let i := lowerBound node.keys key
        if keyAt node.keys i key then
          removeFrom t fuel node key
        else
          onChild node i (removeFrom t fuel · key)
      else
        onChild (.node ks vs cs) i (removeFrom t fuel · key)

mutual

/-- One step of the `search` loop: the value at this node, or the search below. -/
def searchNode (key : K) : Node K V → Option (Option V)
  | .null => some none
  | .node ks vs cs =>
    let i := lowerBound ks key
    if keyAt ks i key then vs[i]?.map some
    else if cs.isEmpty then some none
    else (searchChildren key cs)[i]?.join

/-- What the search would answer below each child; only one of them is asked for. -/
def searchChildren (key : K) : List (Node K V) → List (Option (Option V))
  | [] => []
  | c :: cs => searchNode key c :: searchChildren key cs

end

mutual

/-- A write through the pointer that the search returns; a null pointer is `none`. -/
def storeNode (key : K) (value : V) : Node K V → Option (Node K V)
  | .null => none
  | .node ks vs cs =>
    let i := lowerBound ks key
    if keyAt ks i key then (Vec.setAt vs i value).map (.node ks · cs)
    else if cs.isEmpty then none
    else do
      let child ← (storeChildren key value cs)[i]?.join
      return .node ks vs (← Vec.setAt cs i child)

def storeChildren (key : K) (value : V) : List (Node K V) → List (Option (Node K V))
  | [] => []
  | c :: cs => storeNode key value c :: storeChildren key value cs

end

end Order

/-- The loop of `inOrder` over the keys from the current index on: `below` holds the
visits of the remaining children, `last` that of `children.back()`. -/
def inOrderLoop (leaf : Bool) (last : Option (List (K × V))) :
    List (Option (List (K × V))) → List K → List V → Option (List (K × V))
  | _, [], _ => if leaf then some [] else last
  | _, _ :: _, [] => none
  | below, k :: ks, v :: vs => do
    let visited ← if leaf then some [] else below.head?.join
    let rest ← inOrderLoop leaf last below.tail ks vs
    return visited ++ (k, v) :: rest

mutual

/-- The pairs `inOrder` hands to its callback, in order. -/
def inOrder : Node K V → Option (List (K × V))
  | .null => none
  | .node ks vs cs => inOrderLoop cs.isEmpty (inOrderChildren cs).getLast?.join
      (inOrderChildren cs) ks vs

def inOrderChildren : List (Node K V) → List (Option (List (K × V)))
  | [] => []
  | c :: cs => inOrder c :: inOrderChildren cs

end

section Order
variable [LinearOrder K]

/-- The loop of `rangeVisit` from index `i` on; it runs one position past the last
key and stops at the first key above `hi`. -/
def rangeLoop (leaf : Bool) (hi : K) :
    List (Option (List (K × V))) → List K → List V → Option (List (K × V))
  | below, [], _ => if leaf then some [] else below.head?.join
  | below, k :: ks, vs => do
    let visited ← if leaf then some [] else below.head?.join
    if hi < k then
      return visited
    else
      let (v, vs) ← Vec.popFront vs
      let rest ← rangeLoop leaf hi below.tail ks vs
      return visited ++ (k, v) :: rest

mutual

/-- The pairs `rangeVisit` hands to its callback, in order. -/
def rangeVisit (lo hi : K) : Node K V → Option (List (K × V))
  | .null => none
  | .node ks vs cs =>
    let i := lowerBound ks lo
    rangeLoop cs.isEmpty hi ((rangeChildren lo hi cs).drop i) (ks.drop i) (vs.drop i)

def rangeChildren (lo hi : K) : List (Node K V) → List (Option (List (K × V)))
  | [] => []
  | c :: cs => rangeVisit lo hi c :: rangeChildren lo hi cs

end

/-- The key loop of `checkNode`: neighbours ascend and every key is inside the limits. -/
def checkKeys (lower upper : Option K) : List K → Bool
  | [] => true
  | k :: ks =>
    (match lower with | none => true | some l => decide (l < k)) &&
    (match upper with | none => true | some u => decide (k < u)) &&
    (match ks with | [] => true | k' :: _ => decide (k < k')) &&
    checkKeys lower upper ks

/-- `if (!first) return false;` and then the rest; `some none` is the answer `false`. -/
def andThen {α : Type} (first : Option (Option α)) (rest : α → Option (Option α)) :
    Option (Option α) := do
  let some acc ← first | return none
  rest acc

mutual

/-- `checkNode` with its two reference parameters `leafDepth` and `counted` passed
along. -/
def checkNode (t : Nat) (depth : Int) (isRoot : Bool) (lower upper : Option K) :
    Node K V → Int × Nat → Option (Option (Int × Nat))
  | .null, _ => some none
  | .node ks vs cs, (leafDepth, counted) =>
    if vs.length ≠ ks.length then some none
    else if !isRoot && ks.length < t - 1 then some none
    else do
      -- computed here, behind the two tests that may have ended the call
      if (← maxKeys t) < ks.length then some none
      else if isRoot && ks.length == 0 then some none
      else if !checkKeys lower upper ks then some none
      else if cs.isEmpty then
        let leafDepth := if leafDepth = -1 then depth else leafDepth
        some (if leafDepth = depth then some (leafDepth, counted + ks.length) else none)
      else if cs.length ≠ ks.length + 1 then some none
      else checkChildren t (depth + 1) lower upper ks cs (leafDepth, counted + ks.length)

/-- The child loop: child `i` lies between separators `i - 1` and `i`. -/
def checkChildren (t : Nat) (depth : Int) (lower upper : Option K) :
    List K → List (Node K V) → Int × Nat → Option (Option (Int × Nat))
  | _, [], acc => some (some acc)
  | [], c :: cs, acc =>
    andThen (checkNode t depth false lower upper c acc) (checkChildren t depth lower upper [] cs)
  | k :: ks, c :: cs, acc =>
    andThen (checkNode t depth false lower (some k) c acc)
      (checkChildren t depth (some k) upper ks cs)

end

end Order

/-- The members `root_` and `size_`; the degree `t_` never changes and is a parameter. -/
structure Tree (K V : Type) where
  root : Node K V
  size : Nat

namespace Tree

def empty : Tree K V := ⟨.null, 0⟩

/-- The constructor rejects a minimum degree below 2. -/
def create (minDegree : Int) : Option (Tree K V) :=
  if minDegree < 2 then none else some empty

def height (tree : Tree K V) : Nat := tree.root.height

/-- The visits of `forEachInOrder`. -/
def forEachInOrder (tree : Tree K V) : Option (List (K × V)) :=
  match tree.root with
  | .null => some []
  | root => inOrder root

/-- The pre-emptive split of a full root: the tree grows in height here and only here. -/
def growRoot (t : Nat) (root : Node K V) : Option (Node K V) := do
  if ← isFull t root.keys.length then splitChild t (.node [] [] [root]) 0 else some root

/-- An empty root hands over to its only child, or leaves the tree empty. -/
def shrinkRoot (root : Node K V) : Option (Node K V) :=
  if root.keys.isEmpty then
    if root.isLeaf then some .null else root.children[0]?
  else some root

variable [LinearOrder K]

def insert (t : Nat) (tree : Tree K V) (key : K) (value : V) : Option (Tree K V × Bool) :=
  match tree.root with
  | .null => some (⟨.node [key] [value] [], 1⟩, true)
  | .node ks vs cs => do
    let root ← growRoot t (.node ks vs cs)
    let (root, inserted) ← insertNonFull t root.height root key value
    return (⟨root, if inserted then tree.size + 1 else tree.size⟩, inserted)

def search (tree : Tree K V) (key : K) : Option (Option V) := searchNode key tree.root

/-- Assignment through the pointer `search` returned. -/
def store (tree : Tree K V) (key : K) (value : V) : Option (Tree K V) := do
  return { tree with root := ← storeNode key value tree.root }

def contains (tree : Tree K V) (key : K) : Option Bool := (tree.search key).map Option.isSome

def remove (t : Nat) (tree : Tree K V) (key : K) : Option (Tree K V × Bool) :=
  match tree.root with
  | .null => some (tree, false)
  | .node ks vs cs => do
    let (root, removed) ← removeFrom t (Node.node ks vs cs).height (.node ks vs cs) key
    let root ← shrinkRoot root
    return (⟨root, if removed then tree.size - 1 else tree.size⟩, removed)

/-- The visits of `forEachRange`. -/
def forEachRange (tree : Tree K V) (lo hi : K) : Option (List (K × V)) :=
  match tree.root with
  | .null => some []
  | root => rangeVisit lo hi root

def checkInvariants (t : Nat) (tree : Tree K V) : Option Bool :=
  match tree.root with
  | .null => some (tree.size == 0)
  | root => (checkNode t 0 true none none root (-1, 0)).map (·.any (·.2 == tree.size))

/-- One call of the public interface. -/
inductive Op (K V : Type) where
  | insert (key : K) (value : V)
  | remove (key : K)
  | search (key : K)
  | contains (key : K)
  | size
  | forEachInOrder

/-- What the caller sees: a flag, the value pointed to (or null), a count, or the
pairs a visit hands over. -/
inductive Result (K V : Type) where
  | flag (answer : Bool)
  | value (found : Option V)
  | count (n : Nat)
  | visits (pairs : List (K × V))

def step (t : Nat) (tree : Tree K V) : Op K V → Option (Tree K V × Result K V)
  | .insert key value => (tree.insert t key value).map fun r => (r.1, .flag r.2)
  | .remove key => (tree.remove t key).map fun r => (r.1, .flag r.2)
  | .search key => (tree.search key).map fun r => (tree, .value r)
  | .contains key => (tree.contains key).map fun r => (tree, .flag r)
  | .size => some (tree, .count tree.size)
  | .forEachInOrder => tree.forEachInOrder.map fun r => (tree, .visits r)

/-- Calls under which a tree of degree 2 splits its root and then a child, merges two
leaves, borrows from the right and from the left, and in the end loses a level again. -/
def churn : List (Op Nat Nat) :=
  [.insert 1 10, .insert 2 20, .insert 3 30, .insert 4 40, .insert 5 50, .insert 6 60,
    .insert 6 61, .remove 1, .remove 3, .search 5, .remove 2, .insert 3 31, .remove 6, .size,
    .remove 4, .remove 4, .contains 3, .forEachInOrder]

end Tree

end CppDB.BTree
