import CppDB.Structures.BTree.Shape

/-! What splitting, borrowing and merging do to a node, stated on contexts: each
succeeds, keeps the shape, and moves entries across separators without changing
the in-order list. -/
namespace CppDB.BTree
open Assoc

variable {K V : Type} {t lo h : Nat}

namespace Context

variable (ctx : Context K V)

/-- The node with two adjacent children and their separator in the hole. -/
def pair (left : Node K V) (k : K) (v : V) (right : Node K V) : Node K V :=
  .node (ctx.leftKeys ++ k :: ctx.rightKeys) (ctx.leftValues ++ v :: ctx.rightValues)
    (ctx.leftChildren ++ left :: right :: ctx.rightChildren)

/-- The hole of `pair` at its right child. -/
def growLeft (left : Node K V) (k : K) (v : V) : Context K V where
  leftKeys := ctx.leftKeys ++ [k]
  leftValues := ctx.leftValues ++ [v]
  leftChildren := ctx.leftChildren ++ [left]
  rightKeys := ctx.rightKeys
  rightValues := ctx.rightValues
  rightChildren := ctx.rightChildren
  left_values := by simp [ctx.left_values]
  left_children := by simp [ctx.left_children]
  right_values := ctx.right_values
  right_children := ctx.right_children

/-- The hole of `pair` at its left child. -/
def growRight (k : K) (v : V) (right : Node K V) : Context K V where
  leftKeys := ctx.leftKeys
  leftValues := ctx.leftValues
  leftChildren := ctx.leftChildren
  rightKeys := k :: ctx.rightKeys
  rightValues := v :: ctx.rightValues
  rightChildren := right :: ctx.rightChildren
  left_values := ctx.left_values
  left_children := ctx.left_children
  right_values := by simp [ctx.right_values]
  right_children := by simp [ctx.right_children]

theorem plug_growLeft (left : Node K V) (k : K) (v : V) (right : Node K V) :
    (ctx.growLeft left k v).plug right = ctx.pair left k v right := by
  simp [plug, growLeft, pair]

theorem plug_growRight (left : Node K V) (k : K) (v : V) (right : Node K V) :
    (ctx.growRight k v right).plug left = ctx.pair left k v right := rfl

@[simp] theorem index_growLeft (left : Node K V) (k : K) (v : V) :
    (ctx.growLeft left k v).index = ctx.index + 1 := by
  simp [index, growLeft]

@[simp] theorem index_growRight (k : K) (v : V) (right : Node K V) :
    (ctx.growRight k v right).index = ctx.index := rfl

@[simp] theorem size_growLeft (left : Node K V) (k : K) (v : V) :
    (ctx.growLeft left k v).size = ctx.size + 1 := by
  simp [size, growLeft]
  omega

@[simp] theorem size_growRight (k : K) (v : V) (right : Node K V) :
    (ctx.growRight k v right).size = ctx.size + 1 := by
  simp [size, growRight]
  omega

theorem before_growLeft (left : Node K V) (k : K) (v : V) :
    (ctx.growLeft left k v).before = ctx.before ++ (entries left ++ [(k, v)]) := by
  simp only [before, growLeft, List.map_append, List.map_cons, List.map_nil]
  rw [weaveLeft_append ctx.left_values (by simpa using ctx.left_children)]
  simp [weaveLeft]

@[simp] theorem after_growLeft (left : Node K V) (k : K) (v : V) :
    (ctx.growLeft left k v).after = ctx.after := rfl

@[simp] theorem before_growRight (k : K) (v : V) (right : Node K V) :
    (ctx.growRight k v right).before = ctx.before := rfl

theorem after_growRight (k : K) (v : V) (right : Node K V) :
    (ctx.growRight k v right).after = ((k, v) :: entries right) ++ ctx.after := by
  simp [after, growRight, weave]

theorem fits_growLeft {left : Node K V} {k : K} {v : V} :
    (ctx.growLeft left k v).Fits t h ↔ ctx.Fits t h ∧ Shaped t (t - 1) h left := by
  simp only [Fits, growLeft, List.forall_mem_append, List.forall_mem_singleton]
  exact and_right_comm

theorem fits_growRight {k : K} {v : V} {right : Node K V} :
    (ctx.growRight k v right).Fits t h ↔ ctx.Fits t h ∧ Shaped t (t - 1) h right := by
  simp only [Fits, growRight, List.forall_mem_cons]
  rw [and_assoc, and_comm (a := Shaped t (t - 1) h right)]

theorem entries_pair (left : Node K V) (k : K) (v : V) (right : Node K V) :
    entries (ctx.pair left k v right) =
      ctx.before ++ (entries left ++ (k, v) :: entries right) ++ ctx.after := by
  rw [← plug_growRight, entries_plug, before_growRight, after_growRight]
  simp

/-- A hole that is not the first has a left sibling. -/
theorem exists_growLeft (h : 0 < ctx.index) :
    ∃ (outer : Context K V) (left : Node K V) (k : K) (v : V), ctx = outer.growLeft left k v := by
  obtain ⟨lks, lvs, lcs, rks, rvs, rcs, leftValues, leftChildren, rightValues, rightChildren⟩ := ctx
  simp only [index] at h
  rcases List.eq_nil_or_concat' lks with rfl | ⟨lks, k, rfl⟩
  · simp at h
  rcases List.eq_nil_or_concat' lvs with rfl | ⟨lvs, v, rfl⟩
  · simp at leftValues
  rcases List.eq_nil_or_concat' lcs with rfl | ⟨lcs, c, rfl⟩
  · simp at leftChildren
  simp only [List.length_append, List.length_singleton, Nat.add_right_cancel_iff]
    at leftValues leftChildren
  exact ⟨⟨lks, lvs, lcs, rks, rvs, rcs, leftValues, leftChildren, rightValues, rightChildren⟩,
    c, k, v, rfl⟩

/-- A hole that is not the last has a right sibling. -/
theorem exists_growRight (h : ctx.rightKeys ≠ []) :
    ∃ (outer : Context K V) (k : K) (v : V) (right : Node K V), ctx = outer.growRight k v right := by
  obtain ⟨lks, lvs, lcs, rks, rvs, rcs, leftValues, leftChildren, rightValues, rightChildren⟩ := ctx
  obtain ⟨k, rks, rfl⟩ := List.exists_cons_of_ne_nil h
  obtain ⟨v, rvs, rfl⟩ := List.exists_cons_of_length_eq_add_one rightValues
  obtain ⟨c, rcs, rfl⟩ := List.exists_cons_of_length_eq_add_one rightChildren
  simp only [List.length_cons, Nat.add_right_cancel_iff] at rightValues rightChildren
  exact ⟨⟨lks, lvs, lcs, rks, rvs, rcs, leftValues, leftChildren, rightValues, rightChildren⟩,
    k, v, c, rfl⟩

theorem length_leftValues : ctx.leftValues.length = ctx.index := ctx.left_values

theorem length_leftChildren : ctx.leftChildren.length = ctx.index := ctx.left_children

theorem children_plug (child : Node K V) :
    (ctx.plug child).children = ctx.leftChildren ++ child :: ctx.rightChildren := rfl

theorem onChild_plug {α : Type} (child : Node K V) (f : Node K V → Option (Node K V × α)) :
    onChild (ctx.plug child) ctx.index f = (f child).map fun r => (ctx.plug r.1, r.2) := by
  simp only [onChild, plug, Option.bind_eq_bind, Option.bind_some,
    Vec.getElem?_split ctx.length_leftChildren, Vec.setAt_split ctx.length_leftChildren]
  cases f child <;> rfl

theorem keys_pair (left : Node K V) (k : K) (v : V) (right : Node K V) :
    (ctx.pair left k v right).keys[ctx.index]? = some k :=
  Vec.getElem?_split rfl

theorem childSize_plug {child : Node K V} (shaped : Shaped t lo h child) :
    Node.childSize (ctx.plug child).children ctx.index = some child.keys.length := by
  obtain ⟨ks, vs, cs, rfl, _⟩ := shaped.exists_node
  simp only [Node.childSize, children_plug, Vec.getElem?_split ctx.length_leftChildren]
  rfl

end Context

open Context

/-- The two ways a shaped node can end: a leaf, or a node with a last child. -/
theorem entries_leaf (ks : List K) (vs : List V) : entries (.node ks vs []) = ks.zip vs := by
  rw [entries]

/-- Appending an entry and, in an internal node, the child to its right. -/
theorem entries_concat {ks : List K} {vs : List V} {cs : List (Node K V)} (k : K) (v : V)
    (x : Node K V) (values : vs.length = ks.length) (children : cs.length = ks.length + 1) :
    entries (.node (ks ++ [k]) (vs ++ [v]) (cs ++ [x])) =
      entries (.node ks vs cs) ++ (k, v) :: entries x := by
  obtain ⟨c, cs, rfl⟩ := List.exists_cons_of_length_eq_add_one children
  simp only [List.length_cons, Nat.add_right_cancel_iff] at children
  simp only [List.cons_append, entries, entriesOf_eq_map, List.map_append, List.map_cons,
    List.map_nil]
  rw [weave_append values (by simpa using children)]
  simp [weave]

/-- Prepending an entry and, in an internal node, the child to its left. -/
theorem entries_cons {ks : List K} {vs : List V} {cs : List (Node K V)} (k : K) (v : V)
    (x : Node K V) (nonempty : cs ≠ []) :
    entries (.node (k :: ks) (v :: vs) (x :: cs)) =
      entries x ++ (k, v) :: entries (.node ks vs cs) := by
  obtain ⟨c, cs, rfl⟩ := List.exists_cons_of_ne_nil nonempty
  simp only [entries, entriesOf_eq_map, List.map_cons, weave]

/-- Joining two runs of one node's vectors around a separator. -/
theorem entries_join {ks ks' : List K} {vs vs' : List V} {cs cs' : List (Node K V)} (k : K) (v : V)
    (values : vs.length = ks.length) (children : cs.length = ks.length + 1) (nonempty : cs' ≠ []) :
    entries (.node (ks ++ k :: ks') (vs ++ v :: vs') (cs ++ cs')) =
      entries (.node ks vs cs) ++ (k, v) :: entries (.node ks' vs' cs') := by
  obtain ⟨x, cs', rfl⟩ := List.exists_cons_of_ne_nil nonempty
  obtain ⟨c, cs, rfl⟩ := List.exists_cons_of_length_eq_add_one children
  simp only [List.length_cons, Nat.add_right_cancel_iff] at children
  simp only [List.cons_append, entries, entriesOf_eq_map, List.map_append, List.map_cons]
  rw [weave_append values (by simpa using children)]
  simp [weave]

theorem entries_join_leaf {ks ks' : List K} {vs vs' : List V} (k : K) (v : V)
    (values : vs.length = ks.length) :
    entries (.node (ks ++ k :: ks') (vs ++ v :: vs') []) =
      entries (.node ks vs []) ++ (k, v) :: entries (.node ks' vs' []) := by
  simp only [entries_leaf]
  rw [List.zip_append values.symm, List.zip_cons_cons]

/-- The split at the median, apart from what it does to the children. -/
theorem splitChild_plug (ctx : Context K V) {ks ks' : List K} {vs vs' : List V}
    {cs left right : List (Node K V)} {k : K} {v : V} (keyLength : ks.length = t - 1)
    (valueLength : vs.length = t - 1)
    (children : (if cs.isEmpty then some ([], []) else Vec.cut cs (t - 1 + 1)) =
      some (left, right)) :
    splitChild t (ctx.plug (.node (ks ++ k :: ks') (vs ++ v :: vs') cs)) ctx.index =
      some (ctx.pair (.node ks vs left) k v (.node ks' vs' right)) := by
  simp only [splitChild, plug, Option.bind_eq_bind, Option.bind_some,
    Vec.getElem?_split ctx.length_leftChildren, Vec.cut_split keyLength,
    Vec.cut_split valueLength, Vec.popFront, Vec.insertAt_split (rfl : _ = ctx.index),
    Vec.insertAt_split ctx.length_leftValues, Vec.setAt_split ctx.length_leftChildren,
    Vec.insertAt_split_succ ctx.length_leftChildren, pair]
  split at children
  case isTrue leaf =>
    cases children
    rw [if_pos leaf]
    rfl
  case isFalse inner =>
    rw [if_neg inner, children]
    rfl

theorem splitChild_spec (ctx : Context K V) {child : Node K V} (positive : 1 ≤ t)
    (shaped : Shaped t lo h child) (full : child.keys.length = 2 * t - 1) :
    ∃ left k v right,
      splitChild t (ctx.plug child) ctx.index = some (ctx.pair left k v right) ∧
      Shaped t (t - 1) h left ∧ left.keys.length = t - 1 ∧
      Shaped t (t - 1) h right ∧ right.keys.length = t - 1 ∧
      entries child = entries left ++ (k, v) :: entries right := by
  obtain ⟨ks, vs, cs, rfl, values, _⟩ := shaped.exists_node
  simp only [Node.keys] at full
  obtain ⟨ks, k, ks', rfl, keyLength⟩ := Vec.exists_split (l := ks) (i := t - 1) (by omega)
  obtain ⟨vs, v, vs', rfl, valueLength⟩ := Vec.exists_split (l := vs) (i := t - 1) (by omega)
  simp only [List.length_append, List.length_cons] at full values
  cases h with
  | zero =>
    obtain ⟨_, _, _, rfl⟩ := shaped
    refine ⟨.node ks vs [], k, v, .node ks' vs' [], ?_, ?_, keyLength, ?_, ?_, ?_⟩
    · exact splitChild_plug ctx keyLength valueLength rfl
    · exact ⟨by omega, by omega, by omega, rfl⟩
    · exact ⟨by omega, by omega, by omega, rfl⟩
    · simp only [Node.keys]; omega
    · exact entries_join_leaf k v (by omega)
  | succ h =>
    obtain ⟨_, _, _, count, below⟩ := shaped
    simp only [List.length_append, List.length_cons] at count
    obtain ⟨cs, cs', rfl, cutLength⟩ := Vec.exists_cut (l := cs) (i := t - 1 + 1) (by omega)
    simp only [List.length_append] at count
    have nonempty : (cs ++ cs').isEmpty = false := by
      cases cs with
      | nil => simp at cutLength
      | cons c cs => rfl
    refine ⟨.node ks vs cs, k, v, .node ks' vs' cs', ?_, ?_, keyLength, ?_, ?_, ?_⟩
    · apply splitChild_plug ctx keyLength valueLength
      rw [nonempty, if_neg Bool.false_ne_true, Vec.cut_split cutLength]
    · exact ⟨by omega, by omega, by omega, by omega, fun c there => below c (by simp [there])⟩
    · exact ⟨by omega, by omega, by omega, by omega, fun c there => below c (by simp [there])⟩
    · simp only [Node.keys]; omega
    · exact entries_join k v (by omega) (by omega) (by
        rintro rfl
        simp only [List.length_nil] at count
        omega)

end CppDB.BTree
