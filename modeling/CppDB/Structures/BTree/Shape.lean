import CppDB.Lib.Assoc
import CppDB.Structures.BTree.Model

/-! The contents and the shape of a subtree, kept apart. `entries` is the in-order
list of pairs; the order of keys inside nodes and between subtrees is exactly the
ascent of that list. `Shaped` is everything else: parallel vectors, occupancy,
child counts and uniform depth. Restructuring steps keep the first literally and
only have to restore the second. -/
namespace CppDB.BTree
open Assoc

variable {K V : Type} {t lo h : Nat}

/-- Separator, then child, over the parallel vectors to the right of some child. -/
def weave : List K → List V → List (List (K × V)) → List (K × V)
  | k :: ks, v :: vs, c :: cs => (k, v) :: (c ++ weave ks vs cs)
  | _, _, _ => []

/-- Child, then separator, over the parallel vectors to the left of some child. -/
def weaveLeft : List K → List V → List (List (K × V)) → List (K × V)
  | k :: ks, v :: vs, c :: cs => c ++ (k, v) :: weaveLeft ks vs cs
  | _, _, _ => []

mutual

/-- The pairs of a subtree from left to right. -/
def entries : Node K V → List (K × V)
  | .null => []
  | .node ks vs [] => ks.zip vs
  | .node ks vs (c :: cs) => entries c ++ weave ks vs (entriesOf cs)

def entriesOf : List (Node K V) → List (List (K × V))
  | [] => []
  | c :: cs => entries c :: entriesOf cs

end

theorem entriesOf_eq_map (cs : List (Node K V)) : entriesOf cs = cs.map entries := by
  induction cs with
  | nil => rfl
  | cons c cs ih => rw [entriesOf, ih, List.map_cons]

/-- `Shaped t lo h n`: `n` has between `lo` and `2t - 1` keys with parallel values,
and is the root of a subtree in which all leaves are `h` levels down and every
other node holds at least `t - 1` keys. -/
def Shaped (t : Nat) : Nat → Nat → Node K V → Prop
  | _, _, .null => False
  | lo, 0, .node ks vs cs =>
    vs.length = ks.length ∧ lo ≤ ks.length ∧ ks.length ≤ 2 * t - 1 ∧ cs = []
  | lo, h + 1, .node ks vs cs =>
    vs.length = ks.length ∧ lo ≤ ks.length ∧ ks.length ≤ 2 * t - 1 ∧
      cs.length = ks.length + 1 ∧ ∀ c ∈ cs, Shaped t (t - 1) h c

theorem Shaped.exists_node {n : Node K V} (shaped : Shaped t lo h n) :
    ∃ ks vs cs, n = .node ks vs cs ∧ vs.length = ks.length ∧ lo ≤ ks.length ∧
      ks.length ≤ 2 * t - 1 := by
  cases n with
  | null => cases h <;> exact shaped.elim
  | node ks vs cs =>
    refine ⟨ks, vs, cs, rfl, ?_⟩
    cases h with
    | zero => exact ⟨shaped.1, shaped.2.1, shaped.2.2.1⟩
    | succ h => exact ⟨shaped.1, shaped.2.1, shaped.2.2.1⟩

/-- Only the key count of the top node depends on the lower bound. -/
theorem Shaped.retune {lo' : Nat} {n : Node K V} (shaped : Shaped t lo h n)
    (enough : lo' ≤ n.keys.length) : Shaped t lo' h n := by
  cases n with
  | null => cases h <;> exact shaped.elim
  | node ks vs cs =>
    cases h with
    | zero => exact ⟨shaped.1, enough, shaped.2.2⟩
    | succ h => exact ⟨shaped.1, enough, shaped.2.2⟩

theorem Shaped.lower {n : Node K V} (shaped : Shaped t lo h n) : lo ≤ n.keys.length := by
  obtain ⟨ks, vs, cs, rfl, _, lower, _⟩ := shaped.exists_node
  exact lower

theorem Shaped.upper {n : Node K V} (shaped : Shaped t lo h n) :
    n.keys.length ≤ 2 * t - 1 := by
  obtain ⟨ks, vs, cs, rfl, _, _, upper⟩ := shaped.exists_node
  exact upper

theorem Shaped.height_eq {n : Node K V} (shaped : Shaped t lo h n) : n.height = h + 1 := by
  induction h generalizing n lo with
  | zero =>
    obtain ⟨ks, vs, cs, rfl, _⟩ := shaped.exists_node
    obtain ⟨_, _, _, rfl⟩ := shaped
    rfl
  | succ h ih =>
    obtain ⟨ks, vs, cs, rfl, _⟩ := shaped.exists_node
    obtain ⟨_, _, _, count, children⟩ := shaped
    cases cs with
    | nil => simp at count
    | cons c cs => rw [Node.height, ih (children c (by simp))]

/-- A node with a hole at one child: the vectors to its left and to its right. -/
structure Context (K V : Type) where
  leftKeys : List K
  leftValues : List V
  leftChildren : List (Node K V)
  rightKeys : List K
  rightValues : List V
  rightChildren : List (Node K V)
  left_values : leftValues.length = leftKeys.length
  left_children : leftChildren.length = leftKeys.length
  right_values : rightValues.length = rightKeys.length
  right_children : rightChildren.length = rightKeys.length

namespace Context

variable (ctx : Context K V)

/-- The node with `child` in the hole. -/
def plug (child : Node K V) : Node K V :=
  .node (ctx.leftKeys ++ ctx.rightKeys) (ctx.leftValues ++ ctx.rightValues)
    (ctx.leftChildren ++ child :: ctx.rightChildren)

/-- The position of the hole among the children. -/
def index : Nat := ctx.leftKeys.length

def size : Nat := ctx.leftKeys.length + ctx.rightKeys.length

/-- The pairs to the left of the hole. -/
def before : List (K × V) := weaveLeft ctx.leftKeys ctx.leftValues (ctx.leftChildren.map entries)

/-- The pairs to the right of the hole. -/
def after : List (K × V) := weave ctx.rightKeys ctx.rightValues (ctx.rightChildren.map entries)

/-- The children beside the hole keep the non-root occupancy and the depth. -/
def Fits (t h : Nat) : Prop :=
  (∀ c ∈ ctx.leftChildren, Shaped t (t - 1) h c) ∧ ∀ c ∈ ctx.rightChildren, Shaped t (t - 1) h c

theorem length_keys_plug (child : Node K V) : (ctx.plug child).keys.length = ctx.size := by
  simp [plug, Node.keys, size]

end Context

theorem weaveLeft_append {ks ks' : List K} {vs vs' : List V} {cs cs' : List (List (K × V))}
    (values : vs.length = ks.length) (children : cs.length = ks.length) :
    weaveLeft (ks ++ ks') (vs ++ vs') (cs ++ cs') = weaveLeft ks vs cs ++ weaveLeft ks' vs' cs' := by
  induction ks generalizing vs cs with
  | nil =>
    obtain rfl := List.length_eq_zero_iff.mp values
    obtain rfl := List.length_eq_zero_iff.mp children
    rfl
  | cons k ks ih =>
    obtain ⟨v, vs, rfl⟩ := List.exists_cons_of_length_eq_add_one values
    obtain ⟨c, cs, rfl⟩ := List.exists_cons_of_length_eq_add_one children
    simp only [List.length_cons, Nat.add_right_cancel_iff] at values children
    simp only [List.cons_append, weaveLeft, ih values children, List.append_assoc]

theorem weave_append {ks ks' : List K} {vs vs' : List V} {cs cs' : List (List (K × V))}
    (values : vs.length = ks.length) (children : cs.length = ks.length) :
    weave (ks ++ ks') (vs ++ vs') (cs ++ cs') = weave ks vs cs ++ weave ks' vs' cs' := by
  induction ks generalizing vs cs with
  | nil =>
    obtain rfl := List.length_eq_zero_iff.mp values
    obtain rfl := List.length_eq_zero_iff.mp children
    rfl
  | cons k ks ih =>
    obtain ⟨v, vs, rfl⟩ := List.exists_cons_of_length_eq_add_one values
    obtain ⟨c, cs, rfl⟩ := List.exists_cons_of_length_eq_add_one children
    simp only [List.length_cons, Nat.add_right_cancel_iff] at values children
    simp only [List.cons_append, weave, ih values children, List.append_assoc]

/-- Reading an internal node child-first on one side of child `c` and
separator-first on the other. -/
theorem weave_around {ks ks' : List K} {vs vs' : List V} {cs cs' : List (List (K × V))}
    {c first : List (K × V)} {rest : List (List (K × V))}
    (values : vs.length = ks.length) (children : cs.length = ks.length)
    (split : cs ++ c :: cs' = first :: rest) :
    first ++ weave (ks ++ ks') (vs ++ vs') rest = weaveLeft ks vs cs ++ (c ++ weave ks' vs' cs') := by
  induction ks generalizing vs cs first rest with
  | nil =>
    obtain rfl := List.length_eq_zero_iff.mp values
    obtain rfl := List.length_eq_zero_iff.mp children
    obtain ⟨rfl, rfl⟩ := List.cons.inj split
    rfl
  | cons k ks ih =>
    obtain ⟨v, vs, rfl⟩ := List.exists_cons_of_length_eq_add_one values
    obtain ⟨d, cs, rfl⟩ := List.exists_cons_of_length_eq_add_one children
    simp only [List.length_cons, Nat.add_right_cancel_iff] at values children
    obtain ⟨rfl, rest_eq⟩ := List.cons.inj split
    obtain ⟨next, rest', nonempty⟩ : ∃ next rest', cs ++ c :: cs' = next :: rest' := by
      cases cs <;> simp
    rw [← rest_eq]
    simp only [List.append_eq, nonempty, List.cons_append, weave, weaveLeft,
      ih values children nonempty, List.append_assoc]

namespace Context

variable (ctx : Context K V)

theorem entries_plug (child : Node K V) :
    entries (ctx.plug child) = ctx.before ++ entries child ++ ctx.after := by
  obtain ⟨first, rest, split⟩ :
      ∃ first rest, ctx.leftChildren ++ child :: ctx.rightChildren = first :: rest := by
    cases ctx.leftChildren <;> simp
  have mapped : ctx.leftChildren.map entries ++ entries child :: ctx.rightChildren.map entries =
      entries first :: rest.map entries := by
    simpa using congrArg (List.map entries) split
  rw [plug, split, entries, entriesOf_eq_map,
    weave_around ctx.left_values (by simpa using ctx.left_children) mapped, before, after,
    List.append_assoc]

theorem shaped_plug {child : Node K V} :
    Shaped t lo (h + 1) (ctx.plug child) ↔
      lo ≤ ctx.size ∧ ctx.size ≤ 2 * t - 1 ∧ ctx.Fits t h ∧ Shaped t (t - 1) h child := by
  have values : (ctx.leftValues ++ ctx.rightValues).length =
      (ctx.leftKeys ++ ctx.rightKeys).length := by
    simp [ctx.left_values, ctx.right_values]
  have children : (ctx.leftChildren ++ child :: ctx.rightChildren).length =
      (ctx.leftKeys ++ ctx.rightKeys).length + 1 := by
    simp [ctx.left_children, ctx.right_children, Nat.add_assoc]
  simp only [plug, Shaped, values, children, true_and, List.length_append, size, Fits,
    List.forall_mem_append, List.forall_mem_cons]
  constructor
  · rintro ⟨lower, upper, left, middle, right⟩
    exact ⟨lower, upper, ⟨left, right⟩, middle⟩
  · rintro ⟨lower, upper, ⟨left, right⟩, middle⟩
    exact ⟨lower, upper, left, middle, right⟩

end Context

/-- Every child position of a shaped internal node is the hole of a context. -/
theorem Shaped.exists_plug {n : Node K V} {i : Nat} (shaped : Shaped t lo (h + 1) n)
    (inside : i ≤ n.keys.length) :
    ∃ (ctx : Context K V) (child : Node K V), n = ctx.plug child ∧ ctx.index = i := by
  obtain ⟨ks, vs, cs, rfl, values, _⟩ := shaped.exists_node
  obtain ⟨_, _, _, count, _⟩ := shaped
  simp only [Node.keys] at inside
  obtain ⟨leftKeys, rightKeys, rfl, keyLength⟩ := Vec.exists_cut inside
  obtain ⟨leftValues, rightValues, rfl, valueLength⟩ :=
    Vec.exists_cut (l := vs) (i := i) (by omega)
  obtain ⟨leftChildren, child, rightChildren, rfl, childLength⟩ :=
    Vec.exists_split (l := cs) (i := i) (by omega)
  simp only [List.length_append, List.length_cons] at values count
  exact ⟨⟨leftKeys, leftValues, leftChildren, rightKeys, rightValues, rightChildren,
    by omega, by omega, by omega, by omega⟩, child, rfl, keyLength⟩

theorem mem_weaveLeft_of_key {ks : List K} {vs : List V} {cs : List (List (K × V))}
    (values : vs.length = ks.length) (children : cs.length = ks.length) {k : K} (there : k ∈ ks) :
    ∃ v, (k, v) ∈ weaveLeft ks vs cs := by
  induction ks generalizing vs cs with
  | nil => simp at there
  | cons k' ks ih =>
    obtain ⟨v, vs, rfl⟩ := List.exists_cons_of_length_eq_add_one values
    obtain ⟨c, cs, rfl⟩ := List.exists_cons_of_length_eq_add_one children
    simp only [List.length_cons, Nat.add_right_cancel_iff] at values children
    rcases List.mem_cons.mp there with rfl | there
    · exact ⟨v, by simp [weaveLeft]⟩
    · obtain ⟨v', found⟩ := ih values children there
      exact ⟨v', by simp [weaveLeft, found]⟩

/-- Every child to the right of a hole keeps its entries together and in order. -/
theorem sublist_weave {ks : List K} {vs : List V} {cs : List (List (K × V))}
    (values : vs.length = ks.length) (children : cs.length = ks.length) {c : List (K × V)}
    (there : c ∈ cs) : c.Sublist (weave ks vs cs) := by
  induction ks generalizing vs cs with
  | nil =>
    obtain rfl := List.length_eq_zero_iff.mp children
    simp at there
  | cons k ks ih =>
    obtain ⟨v, vs, rfl⟩ := List.exists_cons_of_length_eq_add_one values
    obtain ⟨d, cs, rfl⟩ := List.exists_cons_of_length_eq_add_one children
    simp only [List.length_cons, Nat.add_right_cancel_iff] at values children
    rw [weave]
    rcases List.mem_cons.mp there with rfl | there
    · exact (List.sublist_append_left c _).cons _
    · exact ((ih values children there).trans (List.sublist_append_right d _)).cons _

section Order
variable [LinearOrder K] {key : K}

theorem weaveLeft_below {ks : List K} {vs : List V} {cs : List (List (K × V))}
    (ascending : Ascending (weaveLeft ks vs cs)) (keys_below : ∀ k ∈ ks, k < key) :
    ∀ e ∈ weaveLeft ks vs cs, e.1 < key := by
  induction ks generalizing vs cs with
  | nil => simp [weaveLeft]
  | cons k ks ih =>
    cases vs with
    | nil => simp [weaveLeft]
    | cons v vs =>
      cases cs with
      | nil => simp [weaveLeft]
      | cons c cs =>
        obtain ⟨_, tail, crosses⟩ := ascending_append.mp ascending
        have here := keys_below k (by simp)
        intro e there
        simp only [weaveLeft, List.mem_append, List.mem_cons] at there
        rcases there with there | rfl | there
        · exact lt_trans (crosses e there (k, v) (by simp)) here
        · exact here
        · exact ih (List.pairwise_cons.mp tail).2 (fun k' h => keys_below k' (by simp [h])) e there

theorem weave_above {ks : List K} {vs : List V} {cs : List (List (K × V))}
    (ascending : Ascending (weave ks vs cs)) (head_above : ∀ k ∈ ks.head?, key < k) :
    ∀ e ∈ weave ks vs cs, key < e.1 := by
  cases ks with
  | nil => simp [weave]
  | cons k ks =>
    cases vs with
    | nil => simp [weave]
    | cons v vs =>
      cases cs with
      | nil => simp [weave]
      | cons c cs =>
        have here := head_above k (by simp)
        obtain ⟨first, _⟩ := List.pairwise_cons.mp ascending
        intro e there
        rcases List.mem_cons.mp there with rfl | there
        · exact here
        · exact lt_trans here (first e there)

theorem lowerBound_split {left right : List K} (below : ∀ k ∈ left, k < key)
    (above : ∀ k ∈ right.head?, key ≤ k) : lowerBound (left ++ right) key = left.length := by
  induction left with
  | nil =>
    cases right with
    | nil => rfl
    | cons k right =>
      have here : ¬ k < key := not_lt.mpr (above k (by simp))
      simp [lowerBound, List.findIdx_cons, here]
  | cons k left ih =>
    have here := below k (by simp)
    have tail := ih fun k' there => below k' (by simp [there])
    simp only [lowerBound] at tail
    simp [lowerBound, List.findIdx_cons, here, tail]

/-- `lower_bound` cuts any key vector into the keys below and a rest that starts at
or above the key looked for. -/
theorem lowerBound_cut (ks : List K) (key : K) :
    ∃ left right, ks = left ++ right ∧ left.length = lowerBound ks key ∧
      (∀ k ∈ left, k < key) ∧ ∀ k ∈ right.head?, key ≤ k := by
  induction ks with
  | nil => exact ⟨[], [], rfl, rfl, by simp, by simp⟩
  | cons k ks ih =>
    by_cases below : k < key
    · obtain ⟨left, right, rfl, _, lefts, rights⟩ := ih
      refine ⟨k :: left, right, rfl, ?_, ?_, rights⟩
      · rw [← List.cons_append, lowerBound_split (by simpa [below] using lefts) rights]
      · simpa [below] using lefts
    · refine ⟨[], k :: ks, rfl, ?_, by simp, by simpa using not_lt.mp below⟩
      simp [lowerBound, List.findIdx_cons, below]

theorem lowerBound_le (ks : List K) (key : K) : lowerBound ks key ≤ ks.length :=
  List.findIdx_le_length

theorem keyAt_split {left right : List K} :
    keyAt (left ++ right) left.length key = true ↔ right.head? = some key := by
  rw [keyAt, beq_iff_eq, List.getElem?_append_right (le_refl _), Nat.sub_self,
    List.head?_eq_getElem?]

end Order

end CppDB.BTree
