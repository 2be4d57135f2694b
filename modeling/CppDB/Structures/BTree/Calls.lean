import CppDB.Lib.Logged
import CppDB.Structures.BTree.Model

/-! The calls that `remove` makes on its way down. Each function of the removal is run once
more, with its calls logged; without the log it is the function of the model. -/
namespace CppDB.BTree
open Node (childSize)

variable {K V : Type}

inductive Call (K V : Type) where
  | removeFrom (node : Node K V)
  | takeMax (node : Node K V)
  | takeMin (node : Node K V)
  /-- Beside the arguments: the node as the call leaves it, with the index of the child that
  the caller enters next. -/
  | fillChild (node : Node K V) (i : Nat) (filled : Option (Node K V × Nat))
  | mergeChildren (node : Node K V) (i : Nat)
  /-- The branch of `removeFrom` that enters its own node again. -/
  | surfaced (node : Node K V)

/-- The calls that recurse. -/
def Call.enters : Call K V → Bool
  | .removeFrom _ | .takeMax _ | .takeMin _ => true
  | _ => false

namespace Calls

/-- `onChild` with what the call on the child logs. -/
def onChild {α : Type} (node : Node K V) (i : Nat)
    (f : Node K V → Logged (Call K V) (Node K V × α)) : Logged (Call K V) (Node K V × α) where
  result := BTree.onChild node i fun child => (f child).result
  log := (node.children[i]?.map fun child => (f child).log).getD []

def mergeChildren (node : Node K V) (i : Nat) : Logged (Call K V) (Node K V) :=
  .note (.mergeChildren node i) (.lift (BTree.mergeChildren node i))

/-- The body of `fillChild`. -/
def topUp (t : Nat) (node : Node K V) (i : Nat) : Logged (Call K V) (Node K V) := do
  if ← .lift (prevHasSpare t node.children i) then
    .lift (borrowFromPrev node i)
  else if ← .lift (nextHasSpare t node.children i) then
    .lift (borrowFromNext node i)
  else if 0 < i then
    mergeChildren node (i - 1)
  else
    mergeChildren node i

/-- A call of `fillChild` by a caller that then enters the child at `entered`. -/
def fillChild (t : Nat) (node : Node K V) (i : Nat) (entered : Node K V → Nat) :
    Logged (Call K V) (Node K V) :=
  let filled := topUp t node i
  .note (.fillChild node i (filled.result.map fun node => (node, entered node))) filled

def takeMax (t : Nat) : Nat → Node K V → Logged (Call K V) (Node K V × (K × V))
  | 0, _ => .lift none
  | _ + 1, .null => .lift none
  | fuel + 1, .node ks vs cs => .note (.takeMax (.node ks vs cs)) <|
    if cs.isEmpty then .lift do
      let (ks, key) ← Vec.popBack ks
      let (vs, value) ← Vec.popBack vs
      return (.node ks vs cs, (key, value))
    else do
      let last := cs.length - 1
      if (← .lift (childSize cs last)) < t then
        let node ← fillChild t (.node ks vs cs) last fun node => node.children.length - 1
        onChild node (node.children.length - 1) (takeMax t fuel)
      else
        onChild (.node ks vs cs) last (takeMax t fuel)

def takeMin (t : Nat) : Nat → Node K V → Logged (Call K V) (Node K V × (K × V))
  | 0, _ => .lift none
  | _ + 1, .null => .lift none
  | fuel + 1, .node ks vs cs => .note (.takeMin (.node ks vs cs)) <|
    if cs.isEmpty then .lift do
      let (key, ks) ← Vec.popFront ks
      let (value, vs) ← Vec.popFront vs
      return (.node ks vs cs, (key, value))
    else do
      if (← .lift (childSize cs 0)) < t then
        onChild (← fillChild t (.node ks vs cs) 0 fun _ => 0) 0 (takeMin t fuel)
      else
        onChild (.node ks vs cs) 0 (takeMin t fuel)

section Erasure
variable {t : Nat}

theorem topUp_result (node : Node K V) (i : Nat) :
    (topUp t node i).result = BTree.fillChild t node i := by
  simp only [topUp, BTree.fillChild, mergeChildren, Logged.result_bind, Logged.result_ite,
    Logged.result_lift, Logged.result_note, Option.bind_eq_bind]

theorem fillChild_result (node : Node K V) (i : Nat) (entered : Node K V → Nat) :
    (fillChild t node i entered).result = BTree.fillChild t node i :=
  topUp_result node i

theorem takeMax_result (fuel : Nat) (node : Node K V) :
    (takeMax t fuel node).result = BTree.takeMax t fuel node := by
  induction fuel generalizing node with
  | zero => rfl
  | succ fuel ih =>
    cases node with
    | null => rfl
    | node ks vs cs =>
      simp only [takeMax, BTree.takeMax, onChild, fillChild_result, ih, Logged.result_bind,
        Logged.result_ite, Logged.result_lift, Logged.result_note, Option.bind_eq_bind]

theorem takeMin_result (fuel : Nat) (node : Node K V) :
    (takeMin t fuel node).result = BTree.takeMin t fuel node := by
  induction fuel generalizing node with
  | zero => rfl
  | succ fuel ih =>
    cases node with
    | null => rfl
    | node ks vs cs =>
      simp only [takeMin, BTree.takeMin, onChild, fillChild_result, ih, Logged.result_bind,
        Logged.result_ite, Logged.result_lift, Logged.result_note, Option.bind_eq_bind]

end Erasure

section Order
variable [LinearOrder K] {t : Nat}

def removeFrom (t : Nat) : Nat → Node K V → K → Logged (Call K V) (Node K V × Bool)
  | 0, _, _ => .lift none
  | _ + 1, .null, _ => .lift none
  | fuel + 1, .node ks vs cs, key => .note (.removeFrom (.node ks vs cs)) <|
    let i := lowerBound ks key
    let present := keyAt ks i key
    if present && cs.isEmpty then .lift do
      let ks ← Vec.eraseAt ks i
      let vs ← Vec.eraseAt vs i
      return (.node ks vs cs, true)
    else if present then do
      if t ≤ (← .lift (childSize cs i)) then
        let (drained, entry) ← onChild (.node ks vs cs) i (takeMax t fuel)
        return (← .lift (replaceEntry drained i entry), true)
      else if t ≤ (← .lift (childSize cs (i + 1))) then
        let (drained, entry) ← onChild (.node ks vs cs) (i + 1) (takeMin t fuel)
        return (← .lift (replaceEntry drained i entry), true)
      else
        onChild (← mergeChildren (.node ks vs cs) i) i (removeFrom t fuel · key)
    else if cs.isEmpty then
      .lift (some (.node ks vs cs, false))
    else do
      if (← .lift (childSize cs i)) < t then
        let node ← fillChild t (.node ks vs cs) i fun node => lowerBound node.keys key
        let i := lowerBound node.keys key
        if keyAt node.keys i key then
          .note (.surfaced node) (removeFrom t fuel node key)
        else
          onChild node i (removeFrom t fuel · key)
      else
        onChild (.node ks vs cs) i (removeFrom t fuel · key)

def remove (t fuel : Nat) (tree : Tree K V) (key : K) : Logged (Call K V) (Tree K V × Bool) :=
  match tree.root with
  | .null => .lift (some (tree, false))
  | .node ks vs cs => do
    let (root, removed) ← removeFrom t fuel (.node ks vs cs) key
    let root ← .lift (Tree.shrinkRoot root)
    return (⟨root, if removed then tree.size - 1 else tree.size⟩, removed)

theorem removeFrom_result (fuel : Nat) (node : Node K V) (key : K) :
    (removeFrom t fuel node key).result = BTree.removeFrom t fuel node key := by
  induction fuel generalizing node with
  | zero => rfl
  | succ fuel ih =>
    cases node with
    | null => rfl
    | node ks vs cs =>
      simp only [removeFrom, BTree.removeFrom, onChild, mergeChildren, fillChild_result,
        takeMax_result, takeMin_result, ih, Logged.result_bind, Logged.result_ite,
        Logged.result_lift, Logged.result_note, Logged.result_pure, Option.bind_eq_bind,
        Option.pure_def]

/-- The fuel that the model gives a removal is the height of the tree. -/
theorem remove_result (tree : Tree K V) (key : K) :
    (remove t tree.height tree key).result = tree.remove t key := by
  obtain ⟨root, size⟩ := tree
  cases root with
  | null => rfl
  | node ks vs cs =>
    simp only [remove, Tree.remove, Tree.height, removeFrom_result, Logged.result_bind,
      Logged.result_lift, Logged.result_pure, Option.bind_eq_bind, Option.pure_def]

end Order

end Calls

end CppDB.BTree
