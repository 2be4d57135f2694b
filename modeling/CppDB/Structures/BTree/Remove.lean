import CppDB.Structures.BTree.Insert
import CppDB.Structures.BTree.Rebalance

/-! Removal. Every recursive call enters a node with at least `t` keys, so one key
can go without repair on the way back; the root alone may end up empty. -/
namespace CppDB.BTree
open Assoc Context

variable {K V : Type} {t lo h : Nat}

namespace Context

variable (ctx : Context K V)

theorem rightKeys_eq_nil (none_after : ctx.after = []) : ctx.rightKeys = [] := by
  by_contra some_right
  obtain ⟨outer, k, v, right, rfl⟩ := ctx.exists_growRight some_right
  simp [after_growRight] at none_after

theorem leftKeys_eq_nil (none_before : ctx.before = []) : ctx.leftKeys = [] := by
  by_contra some_left
  obtain ⟨outer, left, k, v, rfl⟩ := ctx.exists_growLeft (List.length_pos_of_ne_nil some_left)
  simp [before_growLeft] at none_before

theorem after_eq_nil (last : ctx.rightKeys = []) : ctx.after = [] := by
  simp [after, last, weave]

theorem before_eq_nil (first : ctx.leftKeys = []) : ctx.before = [] := by
  simp [before, first, weaveLeft]

theorem last_index (child : Node K V) (last : ctx.rightKeys = []) :
    (ctx.plug child).children.length - 1 = ctx.index := by
  have none_right : ctx.rightChildren = [] := by
    rw [← List.length_eq_zero_iff, ctx.right_children, last, List.length_nil]
  simp [children_plug, ctx.length_leftChildren, none_right]

theorem isEmpty_children_plug (child : Node K V) :
    (ctx.plug child).children.isEmpty = false := by
  rw [children_plug]
  cases ctx.leftChildren <;> rfl

/-- What a descent reads of a node before it enters the child in the hole. -/
theorem reads_plug {child : Node K V} (shaped : Shaped t lo h child) :
    Node.childSize (ctx.leftChildren ++ child :: ctx.rightChildren) ctx.index =
        some child.keys.length ∧
      (ctx.leftChildren ++ child :: ctx.rightChildren).isEmpty = false :=
  ⟨ctx.childSize_plug shaped, ctx.isEmpty_children_plug child⟩

theorem entries_refilled {ctx' : Context K V} {child child' : Node K V}
    (refilled : Refilled t h ctx child ctx' child') :
    entries (ctx'.plug child') = entries (ctx.plug child) := by
  obtain ⟨fromLeft, fromRight, left, right, middle⟩ := refilled.drift
  rw [entries_plug, entries_plug, left, right, middle]
  simp

end Context

/-- How every removal enters a child: topped up first if it is minimal, after which the
caller finds it where the hole is. -/
theorem enter_refilled {α : Type} (ctx : Context K V) {child : Node K V} (positive : 1 ≤ t)
    (fits : ctx.Fits t h) (shaped : Shaped t (t - 1) h child) (sibling : 1 ≤ ctx.size)
    (run : Node K V → Option (Node K V × α)) (next : Node K V → Option (Node K V × α))
    (finds : ∀ ctx' child', Refilled t h ctx child ctx' child' →
      next (ctx'.plug child') = onChild (ctx'.plug child') ctx'.index run) :
    ∃ ctx' child', Refilled t h ctx child ctx' child' ∧
      (if child.keys.length < t then (fillChild t (ctx.plug child) ctx.index).bind next
        else onChild (ctx.plug child) ctx.index run) =
          (run child').map fun (child'', result) => (ctx'.plug child'', result) := by
  by_cases short : child.keys.length < t
  · obtain ⟨ctx', child', fills, refilled⟩ :=
      fillChild_spec ctx positive fits shaped short sibling
    refine ⟨ctx', child', refilled, ?_⟩
    rw [if_pos short, fills, Option.bind_some, finds ctx' child' refilled, ctx'.onChild_plug]
  · refine ⟨ctx, child, .refl fits (shaped.retune (not_lt.mp short)), ?_⟩
    rw [if_neg short, ctx.onChild_plug]

/-- Topping up the last child leaves the hole at the end. -/
theorem Refilled.rightKeys_eq_nil {ctx ctx' : Context K V} {child child' : Node K V}
    (refilled : Refilled t h ctx child ctx' child') (last : ctx.rightKeys = []) :
    ctx'.rightKeys = [] := by
  obtain ⟨_, fromRight, _, right, _⟩ := refilled.drift
  rw [ctx.after_eq_nil last] at right
  exact ctx'.rightKeys_eq_nil (List.append_eq_nil_iff.mp right.symm).2

theorem Refilled.leftKeys_eq_nil {ctx ctx' : Context K V} {child child' : Node K V}
    (refilled : Refilled t h ctx child ctx' child') (first : ctx.leftKeys = []) :
    ctx'.leftKeys = [] := by
  obtain ⟨fromLeft, _, left, _, _⟩ := refilled.drift
  rw [ctx.before_eq_nil first] at left
  exact ctx'.leftKeys_eq_nil (List.append_eq_nil_iff.mp left.symm).1

theorem Refilled.index_eq_zero {ctx ctx' : Context K V} {child child' : Node K V}
    (refilled : Refilled t h ctx child ctx' child') (first : ctx.leftKeys = []) :
    ctx'.index = 0 := by
  rw [Context.index, refilled.leftKeys_eq_nil first, List.length_nil]

theorem takeMax_plug (fuel : Nat) (ctx : Context K V) (child : Node K V)
    (last : ctx.rightKeys = []) (shaped : Shaped t lo h child) :
    takeMax t (fuel + 1) (ctx.plug child) =
      if child.keys.length < t then do
        let node ← fillChild t (ctx.plug child) ctx.index
        onChild node (node.children.length - 1) (takeMax t fuel)
      else
        onChild (ctx.plug child) ctx.index (takeMax t fuel) := by
  obtain ⟨size, internal⟩ := ctx.reads_plug shaped
  have position := ctx.last_index child last
  rw [children_plug] at position
  simp only [plug, takeMax, internal, Bool.false_eq_true, if_false, position,
    Option.bind_eq_bind, size, Option.bind_some]

theorem takeMin_plug (fuel : Nat) (ctx : Context K V) (child : Node K V)
    (first : ctx.leftKeys = []) (shaped : Shaped t lo h child) :
    takeMin t (fuel + 1) (ctx.plug child) =
      if child.keys.length < t then do
        onChild (← fillChild t (ctx.plug child) ctx.index) 0 (takeMin t fuel)
      else
        onChild (ctx.plug child) ctx.index (takeMin t fuel) := by
  obtain ⟨size, internal⟩ := ctx.reads_plug shaped
  have position : ctx.index = 0 := by simp [Context.index, first]
  rw [position] at size ⊢
  simp only [plug, takeMin, internal, Bool.false_eq_true, if_false,
    Option.bind_eq_bind, size, Option.bind_some]

/-- `takeMax` splits off the last entry of a subtree it may enter. -/
theorem takeMax_spec (large : 2 ≤ t) :
    ∀ (h fuel : Nat) (n : Node K V), h < fuel → Shaped t t h n →
      ∃ n' e, takeMax t fuel n = some (n', e) ∧ Shaped t (t - 1) h n' ∧
        entries n = entries n' ++ [e] := by
  intro h
  induction h with
  | zero =>
    intro fuel n enough shaped
    obtain ⟨fuel, rfl⟩ : ∃ m, fuel = m + 1 := ⟨fuel - 1, by omega⟩
    obtain ⟨ks, vs, cs, rfl, values, lower, upper⟩ := shaped.exists_node
    obtain ⟨_, _, _, rfl⟩ := shaped
    rcases List.eq_nil_or_concat' ks with rfl | ⟨ks, k, rfl⟩
    · simp only [List.length_nil] at lower; omega
    rcases List.eq_nil_or_concat' vs with rfl | ⟨vs, v, rfl⟩
    · simp at values
    simp only [List.length_append, List.length_singleton] at values lower upper
    refine ⟨.node ks vs [], (k, v), ?_, ⟨by omega, by omega, by omega, rfl⟩, ?_⟩
    · simp only [takeMax, List.isEmpty_nil, if_true, Vec.popBack_split, Option.bind_eq_bind,
        Option.bind_some]
      rfl
    · simp only [entries_leaf]
      rw [List.zip_append (by omega)]
      rfl
  | succ h ih =>
    intro fuel n enough shaped
    obtain ⟨fuel, rfl⟩ : ∃ m, fuel = m + 1 := ⟨fuel - 1, by omega⟩
    obtain ⟨ctx, child, rfl, position⟩ := shaped.exists_plug (le_refl _)
    obtain ⟨lower, upper, fits, childShaped⟩ := ctx.shaped_plug.mp shaped
    have last : ctx.rightKeys = [] := by
      rw [length_keys_plug] at position
      simp only [Context.index, Context.size] at position
      exact List.length_eq_zero_iff.mp (by omega)
    obtain ⟨ctx', child', refilled, enters⟩ := enter_refilled ctx (by omega) fits childShaped
      (by omega) (takeMax t fuel)
      (fun node => onChild node (node.children.length - 1) (takeMax t fuel))
      fun ctx' child' refilled => by rw [ctx'.last_index child' (refilled.rightKeys_eq_nil last)]
    obtain ⟨child'', e, takes, shaped'', contents⟩ := ih fuel child' (by omega) refilled.entered
    have := refilled.lower
    have := refilled.upper
    refine ⟨ctx'.plug child'', e, ?_, ?_, ?_⟩
    · rw [takes] at enters
      exact (takeMax_plug fuel ctx child last childShaped).trans enters
    · exact ctx'.shaped_plug.mpr ⟨by omega, by omega, refilled.fits, shaped''⟩
    · rw [← ctx.entries_refilled refilled, entries_plug, entries_plug, contents,
        ctx'.after_eq_nil (refilled.rightKeys_eq_nil last)]
      simp

/-- `takeMin` splits off the first entry of a subtree it may enter. -/
theorem takeMin_spec (large : 2 ≤ t) :
    ∀ (h fuel : Nat) (n : Node K V), h < fuel → Shaped t t h n →
      ∃ n' e, takeMin t fuel n = some (n', e) ∧ Shaped t (t - 1) h n' ∧
        entries n = e :: entries n' := by
  intro h
  induction h with
  | zero =>
    intro fuel n enough shaped
    obtain ⟨fuel, rfl⟩ : ∃ m, fuel = m + 1 := ⟨fuel - 1, by omega⟩
    obtain ⟨ks, vs, cs, rfl, values, lower, upper⟩ := shaped.exists_node
    obtain ⟨_, _, _, rfl⟩ := shaped
    cases ks with
    | nil => simp only [List.length_nil] at lower; omega
    | cons k ks =>
    obtain ⟨v, vs, rfl⟩ := List.exists_cons_of_length_eq_add_one values
    simp only [List.length_cons] at values lower upper
    refine ⟨.node ks vs [], (k, v), ?_, ⟨by omega, by omega, by omega, rfl⟩, ?_⟩
    · simp only [takeMin, List.isEmpty_nil, if_true, Vec.popFront, Option.bind_eq_bind,
        Option.bind_some]
      rfl
    · simp only [entries_leaf, List.zip_cons_cons]
  | succ h ih =>
    intro fuel n enough shaped
    obtain ⟨fuel, rfl⟩ : ∃ m, fuel = m + 1 := ⟨fuel - 1, by omega⟩
    obtain ⟨ctx, child, rfl, position⟩ := shaped.exists_plug (Nat.zero_le _)
    obtain ⟨lower, upper, fits, childShaped⟩ := ctx.shaped_plug.mp shaped
    have first : ctx.leftKeys = [] := List.length_eq_zero_iff.mp position
    obtain ⟨ctx', child', refilled, enters⟩ := enter_refilled ctx (by omega) fits childShaped
      (by omega) (takeMin t fuel) (fun node => onChild node 0 (takeMin t fuel))
      fun ctx' child' refilled => by rw [refilled.index_eq_zero first]
    obtain ⟨child'', e, takes, shaped'', contents⟩ := ih fuel child' (by omega) refilled.entered
    have := refilled.lower
    have := refilled.upper
    refine ⟨ctx'.plug child'', e, ?_, ?_, ?_⟩
    · rw [takes] at enters
      exact (takeMin_plug fuel ctx child first childShaped).trans enters
    · exact ctx'.shaped_plug.mpr ⟨by omega, by omega, refilled.fits, shaped''⟩
    · rw [← ctx.entries_refilled refilled, entries_plug, entries_plug, contents,
        ctx'.before_eq_nil (refilled.leftKeys_eq_nil first)]
      simp

theorem replaceEntry_pair (ctx : Context K V) (left : Node K V) (k : K) (v : V) (right : Node K V)
    (e : K × V) :
    replaceEntry (ctx.pair left k v right) ctx.index e = some (ctx.pair left e.1 e.2 right) := by
  simp only [replaceEntry, pair, Option.bind_eq_bind, Option.bind_some,
    Vec.setAt_split (rfl : _ = ctx.index), Vec.setAt_split ctx.length_leftValues]
  rfl

section Order
variable [LinearOrder K] {key : K}

/-- A hole whose two sides bracket the key is where the search goes. -/
theorem Context.locate (ctx : Context K V) (child : Node K V) (below : ∀ e ∈ ctx.before, e.1 < key)
    (above : ∀ e ∈ ctx.after, key < e.1) :
    lowerBound (ctx.plug child).keys key = ctx.index ∧
      keyAt (ctx.plug child).keys ctx.index key = false := by
  have lefts : ∀ k ∈ ctx.leftKeys, k < key := by
    intro k there
    obtain ⟨v, found⟩ : ∃ v, (k, v) ∈ ctx.before :=
      mem_weaveLeft_of_key ctx.left_values (by simpa using ctx.left_children) there
    exact below _ found
  have rights : ∀ k ∈ ctx.rightKeys.head?, key < k := by
    intro k there
    obtain ⟨outer, k', v, right, rfl⟩ := ctx.exists_growRight (by
      intro none
      simp [none] at there)
    obtain rfl : k' = k := Option.some.inj there
    exact above (k', v) (by simp [after_growRight])
  refine ⟨lowerBound_split lefts fun k there => le_of_lt (rights k there), ?_⟩
  rw [← Bool.not_eq_true]
  intro found
  exact lt_irrefl key (rights key (keyAt_split.mp found))

/-- Entries that drift into the child leave those beside it on their side of the key. -/
theorem Refilled.bracket {ctx ctx' : Context K V} {child child' : Node K V}
    (refilled : Refilled t h ctx child ctx' child') (below : ∀ e ∈ ctx.before, e.1 < key)
    (above : ∀ e ∈ ctx.after, key < e.1) :
    (∀ e ∈ ctx'.before, e.1 < key) ∧ ∀ e ∈ ctx'.after, key < e.1 := by
  obtain ⟨fromLeft, fromRight, left, right, _⟩ := refilled.drift
  exact ⟨fun e there => below e (by simp [left, there]),
    fun e there => above e (by simp [right, there])⟩

/-- After topping up, the search goes where the hole is, and the key has not surfaced. -/
theorem Refilled.locate {ctx ctx' : Context K V} {child child' : Node K V}
    (refilled : Refilled t h ctx child ctx' child') (below : ∀ e ∈ ctx.before, e.1 < key)
    (above : ∀ e ∈ ctx.after, key < e.1) :
    lowerBound (ctx'.plug child').keys key = ctx'.index ∧
      keyAt (ctx'.plug child').keys ctx'.index key = false := by
  obtain ⟨below', above'⟩ := refilled.bracket below above
  exact ctx'.locate child' below' above'

/-- What a removal from a subtree establishes. -/
structure Removed (t lo h : Nat) (key : K) (n n' : Node K V) (flag : Bool) : Prop where
  shaped : Shaped t lo h n'
  contents : entries n' = without key (entries n)
  answer : flag = decide (key ∈ keys (entries n))

/-- Removing from a bracketed child removes from the whole node. -/
theorem Removed.plug {n : Node K V} {ctx : Context K V} {child child' : Node K V} {flag : Bool}
    (lower : lo ≤ ctx.size) (upper : ctx.size ≤ 2 * t - 1) (fits : ctx.Fits t h)
    (contents : entries n = entries (ctx.plug child)) (below : ∀ e ∈ ctx.before, e.1 < key)
    (above : ∀ e ∈ ctx.after, key < e.1) (done : Removed t (t - 1) h key child child' flag) :
    Removed t lo (h + 1) key n (ctx.plug child') flag := by
  refine ⟨ctx.shaped_plug.mpr ⟨lower, upper, fits, done.shaped⟩, ?_, ?_⟩
  · rw [contents, entries_plug, entries_plug, done.contents, without_between below above]
  · rw [contents, entries_plug, done.answer, decide_eq_decide, mem_keys_between below above]

/-- Dropping the one entry at the key from an ascending list. -/
theorem without_at {value : V} {front back : List (K × V)}
    (ascending : Ascending (front ++ (key, value) :: back)) :
    without key (front ++ (key, value) :: back) = front ++ back := by
  obtain ⟨_, tail, crosses⟩ := ascending_append.mp ascending
  have between : without key (front ++ [(key, value)] ++ back) =
      front ++ without key [(key, value)] ++ back :=
    without_between (fun e there => crosses e there (key, value) (by simp))
      (List.pairwise_cons.mp tail).1
  simpa [without] using between

theorem removeFrom_leaf {ks : List K} {vs : List V} (fuel : Nat)
    (shaped : Shaped t (lo + 1) 0 (.node ks vs []))
    (ascending : Ascending (entries (.node ks vs []))) :
    ∃ n' flag, removeFrom t (fuel + 1) (.node ks vs []) key = some (n', flag) ∧
      Removed t lo 0 key (.node ks vs []) n' flag := by
  obtain ⟨values, lower, upper, _⟩ := shaped
  rw [entries_leaf] at ascending
  obtain ⟨ks₁, ks₂, vs₁, vs₂, keysEq, valuesEq, keyLength, valueLength, below, route⟩ :=
    leaf_route values ascending key
  have contents : entries (.node ks vs []) = ks₁.zip vs₁ ++ ks₂.zip vs₂ := by
    rw [entries_leaf, keysEq, valuesEq, List.zip_append (by omega)]
  rcases route with ⟨atKey, ks₃, v, vs₃, rfl, rfl⟩ | ⟨atKey, above⟩
  · have eraseKey : Vec.eraseAt ks (lowerBound ks key) = some (ks₁ ++ ks₃) := by
      conv_lhs => arg 1; rw [keysEq]
      exact Vec.eraseAt_split keyLength
    have eraseValue : Vec.eraseAt vs (lowerBound ks key) = some (vs₁ ++ vs₃) := by
      conv_lhs => arg 1; rw [valuesEq]
      exact Vec.eraseAt_split valueLength
    have ascending' : Ascending (ks₁.zip vs₁ ++ (key, v) :: ks₃.zip vs₃) := by
      rw [← List.zip_cons_cons, ← contents, entries_leaf]
      exact ascending
    rw [keysEq, valuesEq] at values
    rw [keysEq] at lower upper
    simp only [List.length_append, List.length_cons] at values lower upper
    refine ⟨.node (ks₁ ++ ks₃) (vs₁ ++ vs₃) [], true, ?_, ⟨?_, ?_, ?_, rfl⟩, ?_, ?_⟩
    · simp only [removeFrom, atKey, List.isEmpty_nil, Bool.and_self, if_true, eraseKey, eraseValue,
        Option.bind_eq_bind, Option.bind_some]
      rfl
    · rw [List.length_append, List.length_append]; omega
    · rw [List.length_append]; omega
    · rw [List.length_append]; omega
    · rw [contents, List.zip_cons_cons, without_at ascending', entries_leaf,
        List.zip_append (by omega)]
    · rw [contents]
      simp
  · have absent : key ∉ keys (ks₁.zip vs₁ ++ ks₂.zip vs₂) := by
      rw [← find_isSome, ← List.append_nil (ks₁.zip vs₁), find_between below above]
      simp [find]
    refine ⟨.node ks vs [], false, ?_, ⟨values, by omega, upper, rfl⟩, ?_, ?_⟩
    · simp only [removeFrom, atKey, Bool.false_and, Bool.false_eq_true, if_false,
        List.isEmpty_nil, if_true]
    · rw [contents, without_eq_self absent]
    · simp only [contents, absent, decide_false]

/-- What `removeFrom` reads of a node that has the key. -/
theorem Context.reads_pair (ctx : Context K V) {left : Node K V} (key : K) (v : V)
    {right : Node K V}
    (leftShaped : Shaped t lo h left) (rightShaped : Shaped t lo h right) :
    Node.childSize (ctx.leftChildren ++ left :: right :: ctx.rightChildren) ctx.index =
        some left.keys.length ∧
      Node.childSize (ctx.leftChildren ++ left :: right :: ctx.rightChildren) (ctx.index + 1) =
        some right.keys.length ∧
      (ctx.leftChildren ++ left :: right :: ctx.rightChildren).isEmpty = false ∧
      keyAt (ctx.leftKeys ++ key :: ctx.rightKeys) ctx.index key = true := by
  have rightSize := (ctx.growLeft left key v).childSize_plug rightShaped
  rw [plug_growLeft, index_growLeft] at rightSize
  obtain ⟨leftSize, internal⟩ := (ctx.growRight key v right).reads_plug leftShaped
  exact ⟨leftSize, rightSize, internal, keyAt_split.mpr rfl⟩

/-- The three ways to remove a separator: its predecessor or its successor takes its
place, or it sinks into the merge of its two children. -/
theorem removeFrom_pair (fuel : Nat) (ctx : Context K V) (left : Node K V) (v : V) (right : Node K V)
    (position : lowerBound (ctx.pair left key v right).keys key = ctx.index)
    (leftShaped : Shaped t lo h left) (rightShaped : Shaped t lo h right) :
    removeFrom t (fuel + 1) (ctx.pair left key v right) key =
      if t ≤ left.keys.length then do
        let (drained, entry) ← onChild (ctx.pair left key v right) ctx.index (takeMax t fuel)
        return (← replaceEntry drained ctx.index entry, true)
      else if t ≤ right.keys.length then do
        let (drained, entry) ← onChild (ctx.pair left key v right) (ctx.index + 1) (takeMin t fuel)
        return (← replaceEntry drained ctx.index entry, true)
      else
        (mergeChildren (ctx.pair left key v right) ctx.index).bind
          (onChild · ctx.index (removeFrom t fuel · key)) := by
  obtain ⟨leftSize, rightSize, internal, atKey⟩ := ctx.reads_pair key v leftShaped rightShaped
  simp only [pair, Node.keys] at position
  simp only [pair, removeFrom, position, atKey, internal, Bool.and_false, Bool.false_eq_true,
    if_false, if_true, Option.bind_eq_bind, leftSize, rightSize, Option.bind_some]

/-- The descent of a removal, with the child topped up first where it is minimal. -/
theorem removeFrom_plug (fuel : Nat) (ctx : Context K V) (child : Node K V)
    (position : lowerBound (ctx.plug child).keys key = ctx.index)
    (absent : keyAt (ctx.plug child).keys ctx.index key = false)
    (shaped : Shaped t lo h child) :
    removeFrom t (fuel + 1) (ctx.plug child) key =
      if child.keys.length < t then do
        let node ← fillChild t (ctx.plug child) ctx.index
        if keyAt node.keys (lowerBound node.keys key) key then
          removeFrom t fuel node key
        else
          onChild node (lowerBound node.keys key) (removeFrom t fuel · key)
      else
        onChild (ctx.plug child) ctx.index (removeFrom t fuel · key) := by
  obtain ⟨size, internal⟩ := ctx.reads_plug shaped
  simp only [plug, Node.keys] at position absent
  simp only [plug, removeFrom, position, absent, internal, Bool.false_and, Bool.false_eq_true,
    if_false, Option.bind_eq_bind, size, Option.bind_some]

/-- Removal below a node that can spare a key always answers, and refines deletion
from the contents. -/
theorem removeFrom_spec (large : 2 ≤ t) (key : K) :
    ∀ (h fuel lo : Nat) (n : Node K V), h < fuel → Shaped t (lo + 1) h n →
      Ascending (entries n) →
      ∃ n' flag, removeFrom t fuel n key = some (n', flag) ∧ Removed t lo h key n n' flag := by
  intro h
  induction h with
  | zero =>
    intro fuel lo n enough shaped ascending
    obtain ⟨fuel, rfl⟩ : ∃ m, fuel = m + 1 := ⟨fuel - 1, by omega⟩
    obtain ⟨ks, vs, cs, rfl, _⟩ := shaped.exists_node
    obtain ⟨_, _, _, rfl⟩ := id shaped
    exact removeFrom_leaf _ shaped ascending
  | succ h ih =>
    intro fuel lo n enough shaped ascending
    obtain ⟨fuel, rfl⟩ : ∃ m, fuel = m + 1 := ⟨fuel - 1, by omega⟩
    obtain ⟨ctx, child, rfl, position, below, route⟩ := shaped.route ascending key
    obtain ⟨lower, upper, fits, childShaped⟩ := ctx.shaped_plug.mp shaped
    have minimal := childShaped.lower
    rcases route with ⟨atKey, outer, v, right, rfl⟩ | ⟨absent, above⟩
    · obtain ⟨outerFits, rightShaped⟩ := outer.fits_growRight.mp fits
      have rightMinimal := rightShaped.lower
      rw [size_growRight] at lower upper
      rw [before_growRight] at below
      have around := outer.entries_pair child key v right
      have drops : without key (entries (outer.pair child key v right)) =
          outer.before ++ (entries child ++ entries right) ++ outer.after := by
        have split : entries (outer.pair child key v right) =
            (outer.before ++ entries child) ++ (key, v) :: (entries right ++ outer.after) := by
          rw [around]
          simp
        rw [plug_growRight, split] at ascending
        rw [split, without_at ascending]
        simp
      have present : key ∈ keys (entries (outer.pair child key v right)) := by
        rw [around]
        simp
      rw [plug_growRight, index_growRight] at position
      rw [plug_growRight, removeFrom_pair fuel outer child v right position childShaped rightShaped]
      by_cases spare : t ≤ child.keys.length
      · -- the predecessor replaces the key
        obtain ⟨child', e, takes, shaped', contents⟩ :=
          takeMax_spec large h fuel child (by omega) (childShaped.retune spare)
        refine ⟨outer.pair child' e.1 e.2 right, true, ?_, ?_, ?_, ?_⟩
        · rw [if_pos spare, ← plug_growRight, ← outer.index_growRight key v right, onChild_plug,
            takes, index_growRight]
          simp only [Option.map_some, Option.bind_eq_bind, Option.bind_some, plug_growRight,
            replaceEntry_pair]
          rfl
        · rw [← plug_growRight, shaped_plug, size_growRight, fits_growRight]
          exact ⟨by omega, by omega, ⟨outerFits, rightShaped⟩, shaped'⟩
        · rw [drops, entries_pair, contents]
          simp
        · simp [present]
      · rw [if_neg spare]
        by_cases spare' : t ≤ right.keys.length
        · -- the successor replaces the key
          obtain ⟨right', e, takes, shaped', contents⟩ :=
            takeMin_spec large h fuel right (by omega) (rightShaped.retune spare')
          refine ⟨outer.pair child e.1 e.2 right', true, ?_, ?_, ?_, ?_⟩
          · rw [if_pos spare', ← plug_growLeft, ← outer.index_growLeft child key v, onChild_plug,
              takes]
            simp only [Option.map_some, Option.bind_eq_bind, Option.bind_some, plug_growLeft,
              replaceEntry_pair]
            rfl
          · rw [← plug_growRight, shaped_plug, size_growRight, fits_growRight]
            exact ⟨by omega, by omega, ⟨outerFits, shaped'⟩, childShaped⟩
          · rw [drops, entries_pair, contents]
          · simp [present]
        · obtain ⟨merged, merges, mergedShaped, joined⟩ :=
            mergeChildren_spec outer (k := key) (v := v) childShaped rightShaped (by omega)
          have same : entries (outer.pair child key v right) = entries (outer.plug merged) := by
            rw [around, entries_plug, joined]
          have ascending' : Ascending (outer.before ++ entries merged ++ outer.after) := by
            rw [← entries_plug, ← same, ← plug_growRight]
            exact ascending
          obtain ⟨ascendingLeft, _, crosses⟩ := ascending_append.mp ascending'
          have mergedAscending := (ascending_append.mp ascendingLeft).2.1
          have mergedLower := mergedShaped.lower
          obtain ⟨merged', flag, removes, done⟩ := ih fuel (t - 1) merged (by omega)
            (mergedShaped.retune (by omega)) mergedAscending
          refine ⟨_, _, ?_, done.plug (by omega) (by omega) outerFits same below ?_⟩
          · rw [if_neg spare', merges, Option.bind_some, onChild_plug, removes]
            rfl
          · exact fun e there => crosses (key, v) (by simp [joined]) e there
    · obtain ⟨ctx', child', refilled, enters⟩ := enter_refilled ctx (by omega) fits childShaped
        (by omega) (removeFrom t fuel · key)
        (fun node =>
          if keyAt node.keys (lowerBound node.keys key) key then removeFrom t fuel node key
          else onChild node (lowerBound node.keys key) (removeFrom t fuel · key))
        fun ctx' child' refilled => by
          obtain ⟨position', absent'⟩ := refilled.locate below above
          simp only [position', absent', Bool.false_eq_true, if_false]
      have same := ctx.entries_refilled refilled
      obtain ⟨below', above'⟩ := refilled.bracket below above
      rw [← same, entries_plug] at ascending
      have ascending' := (ascending_append.mp (ascending_append.mp ascending).1).2.1
      have spare := refilled.entered.lower
      obtain ⟨child'', flag, removes, done⟩ := ih fuel (t - 1) child' (by omega)
        (refilled.entered.retune (by omega)) ascending'
      have := refilled.lower
      have := refilled.upper
      refine ⟨_, _, ?_, done.plug (by omega) (by omega) refilled.fits same.symm below' above'⟩
      rw [removes] at enters
      exact (removeFrom_plug fuel ctx child position absent childShaped).trans enters

end Order

end CppDB.BTree
