import CppDB.Structures.BTree.Calls
import CppDB.Structures.BTree.Definition

/-! A removal goes down once and never back. Every node it enters below the root can spare a
key, because its parent topped it up or found it so; the children it merges are minimal; and
a key that is not at a node does not surface there when a child is topped up. -/
namespace CppDB.BTree
open Assoc Context

variable {K V : Type} {t lo h : Nat}

/-- The condition that every call below that on the root is made under. -/
def Call.Allowed (t : Nat) : Call K V → Prop
  | .removeFrom node | .takeMax node | .takeMin node => t ≤ node.keys.length
  | .fillChild node i filled =>
    i < node.children.length ∧ (0 < i ∨ i + 1 < node.children.length) ∧
      ∃ node' j child, BTree.fillChild t node i = some node' ∧ filled = some (node', j) ∧
        node'.children[j]? = some child ∧ t ≤ child.keys.length
  | .mergeChildren node i => ∃ left right, node.children[i]? = some left ∧
      node.children[i + 1]? = some right ∧ left.keys.length = t - 1 ∧ right.keys.length = t - 1
  | .surfaced _ => False

/-- Calls that are allowed and do not recurse. -/
def Quiet (t : Nat) (calls : List (Call K V)) : Prop :=
  ∀ call ∈ calls, call.Allowed t ∧ call.enters = false

/-- The calls below a node `h` levels above the leaves: one recursive call a level at most. -/
structure Orderly (t h : Nat) (calls : List (Call K V)) : Prop where
  allowed : ∀ call ∈ calls, call.Allowed t
  bounded : calls.countP Call.enters ≤ h

theorem Quiet.nil : Quiet t ([] : List (Call K V)) := by
  intro call there
  cases there

theorem Orderly.nil : Orderly t h ([] : List (Call K V)) := by
  refine ⟨?_, Nat.zero_le h⟩
  intro call there
  cases there

/-- A node's own calls, and then the one that enters a child. -/
theorem Orderly.enter {own calls : List (Call K V)} {call : Call K V} (below : Orderly t h calls)
    (quiet : Quiet t own) (allowed : call.Allowed t) :
    Orderly t (h + 1) (own ++ call :: calls) := by
  constructor
  · rw [List.forall_mem_append, List.forall_mem_cons]
    exact ⟨fun c there => (quiet c there).1, allowed, below.allowed⟩
  · have none : own.countP Call.enters = 0 := by
      rw [List.countP_eq_zero]
      intro c there
      rw [(quiet c there).2]
      exact Bool.false_ne_true
    have one := List.countP_cons (p := Call.enters) (a := call) (l := calls)
    have := below.bounded
    rw [List.countP_append, none, one]
    split <;> omega

/-- A recursive call on a node `h` levels above the leaves returns. With more fuel than that
it always returns the same, by the same calls. -/
def Settles {α : Type} (t h : Nat) (first : Call K V) (run : Nat → Logged (Call K V) α) : Prop :=
  ∃ result calls, (∀ fuel, h < fuel → run fuel = ⟨some result, first :: calls⟩) ∧
    Orderly t h calls

/-- The same of the body of such a call, on an inner node with children of height `h`. -/
def Finishes {α : Type} (t h : Nat) (body : Nat → Logged (Call K V) α) : Prop :=
  ∃ result calls, (∀ fuel, h < fuel → body fuel = ⟨some result, calls⟩) ∧ Orderly t (h + 1) calls

theorem Finishes.settles {α : Type} {first : Call K V} {run body : Nat → Logged (Call K V) α}
    (finishes : Finishes t h body) (unfolds : ∀ fuel, run (fuel + 1) = .note first (body fuel)) :
    Settles t (h + 1) first run := by
  obtain ⟨result, calls, returns, orderly⟩ := finishes
  refine ⟨result, calls, fun fuel enough => ?_, orderly⟩
  obtain ⟨fuel, rfl⟩ : ∃ m, fuel = m + 1 := ⟨fuel - 1, by omega⟩
  rw [unfolds, returns fuel (by omega)]
  rfl

theorem Settles.leaf {α : Type} {first : Call K V} {run : Nat → Logged (Call K V) α}
    (result : α) (returns : ∀ fuel, run (fuel + 1) = ⟨some result, [first]⟩) : Settles t 0 first run := by
  refine ⟨result, [], fun fuel enough => ?_, Orderly.nil⟩
  obtain ⟨fuel, rfl⟩ : ∃ m, fuel = m + 1 := ⟨fuel - 1, by omega⟩
  exact returns fuel

namespace Calls

theorem onChild_plug {α : Type} (ctx : Context K V) (child : Node K V)
    (f : Node K V → Logged (Call K V) (Node K V × α)) :
    onChild (ctx.plug child) ctx.index f =
      ⟨(f child).result.map fun (child', result) => (ctx.plug child', result), (f child).log⟩ := by
  have there : (ctx.plug child).children[ctx.index]? = some child := by
    rw [children_plug, Vec.getElem?_split ctx.length_leftChildren]
  rw [onChild, there, ctx.onChild_plug]
  rfl

/-- Going on in a child of which the recursive call settles. -/
theorem onChild_settles {α : Type} (ctx : Context K V) {child : Node K V} {first : Call K V}
    (run : Nat → Node K V → Logged (Call K V) (Node K V × α))
    (settles : Settles t h first fun fuel => run fuel child) (allowed : first.Allowed t) :
    ∃ child' result calls, (∀ fuel, h < fuel → onChild (ctx.plug child) ctx.index (run fuel) =
        ⟨some (ctx.plug child', result), first :: calls⟩) ∧
      ∀ own, Quiet t own → Orderly t (h + 1) (own ++ first :: calls) := by
  obtain ⟨⟨child', result⟩, calls, runs, orderly⟩ := settles
  refine ⟨child', result, calls, fun fuel enough => ?_,
    fun own quiet => orderly.enter quiet allowed⟩
  have runs : run fuel child = ⟨some (child', result), first :: calls⟩ := runs fuel enough
  rw [onChild_plug, runs]
  rfl

theorem mergeChildren_allowed (ctx : Context K V) {left right : Node K V} {k : K} {v : V}
    (leftShaped : Shaped t (t - 1) h left) (rightShaped : Shaped t (t - 1) h right)
    (leftShort : left.keys.length < t) (rightShort : right.keys.length < t) :
    (Call.mergeChildren (ctx.pair left k v right) ctx.index).Allowed t := by
  have leftMinimal := leftShaped.lower
  have rightMinimal := rightShaped.lower
  refine ⟨left, right, ?_, ?_, by omega, by omega⟩
  · exact Vec.getElem?_split ctx.length_leftChildren
  · exact Vec.getElem?_split_succ ctx.length_leftChildren

theorem quiet_merge {node : Node K V} {i : Nat}
    (allowed : (Call.mergeChildren node i).Allowed t) : Quiet t [.mergeChildren node i] := by
  intro call there
  cases List.mem_singleton.mp there
  exact ⟨allowed, rfl⟩

/-- `fillChild` merges only if neither the child nor a sibling has a key to spare. -/
theorem topUp_quiet (ctx : Context K V) {child : Node K V} (fits : ctx.Fits t h)
    (shaped : Shaped t (t - 1) h child) (short : child.keys.length < t) (sibling : 1 ≤ ctx.size) :
    Quiet t (topUp t (ctx.plug child) ctx.index).log := by
  obtain ⟨prev, prevTest, prevSibling⟩ := prevHasSpare_spec ctx child fits
  obtain ⟨next, nextTest, nextSibling⟩ := nextHasSpare_spec ctx child fits
  rw [topUp, prevTest, nextTest]
  simp only [Logged.lift_bind]
  cases prev with
  | true => exact Quiet.nil
  | false =>
    cases next with
    | true => exact Quiet.nil
    | false =>
      simp only [Bool.false_eq_true, if_false]
      by_cases first : 0 < ctx.index
      · obtain ⟨outer, left, k, v, rfl, spare⟩ := prevSibling (.inr first)
        have spare : left.keys.length < t := by simpa using spare.symm
        have leftShaped := (outer.fits_growLeft.mp fits).2
        rw [if_pos first, index_growLeft, Nat.add_sub_cancel, plug_growLeft]
        exact quiet_merge (mergeChildren_allowed outer leftShaped shaped spare short)
      · have last : ctx.rightKeys ≠ [] := by
          intro none
          simp only [Context.index, not_lt, Nat.le_zero] at first
          simp only [Context.size, first, none, List.length_nil] at sibling
          omega
        obtain ⟨outer, k, v, right, rfl, spare⟩ := nextSibling (.inr last)
        have spare : right.keys.length < t := by simpa using spare.symm
        have rightShaped := (outer.fits_growRight.mp fits).2
        rw [if_neg first, index_growRight, plug_growRight]
        exact quiet_merge (mergeChildren_allowed outer shaped rightShaped short spare)

/-- Topping up a minimal child, for a caller that goes on where the hole then is. -/
theorem fillChild_quiet (ctx : Context K V) {child : Node K V} (positive : 1 ≤ t)
    (fits : ctx.Fits t h) (shaped : Shaped t (t - 1) h child) (short : child.keys.length < t)
    (sibling : 1 ≤ ctx.size) (entered : Node K V → Nat) :
    ∃ ctx' child' own, fillChild t (ctx.plug child) ctx.index entered =
        ⟨some (ctx'.plug child'), own⟩ ∧
      Refilled t h ctx child ctx' child' ∧
      (entered (ctx'.plug child') = ctx'.index → Quiet t own) := by
  obtain ⟨ctx', child', fills, refilled⟩ := fillChild_spec ctx positive fits shaped short sibling
  have merges := topUp_quiet ctx fits shaped short sibling
  have result := topUp_result (t := t) (ctx.plug child) ctx.index
  rw [fills] at result
  refine ⟨ctx', child', .fillChild (ctx.plug child) ctx.index
    (some (ctx'.plug child', entered (ctx'.plug child'))) ::
      (topUp t (ctx.plug child) ctx.index).log, ?_, refilled, fun position => ?_⟩
  · rw [fillChild, Logged.note, result]
    rfl
  · rw [Quiet, List.forall_mem_cons]
    refine ⟨⟨⟨?_, ?_, ctx'.plug child', ctx'.index, child', fills, ?_, ?_, ?_⟩, rfl⟩, merges⟩
    · simp only [children_plug, List.length_append, List.length_cons, ctx.length_leftChildren]
      omega
    · simp only [children_plug, List.length_append, List.length_cons, ctx.length_leftChildren,
        ctx.right_children]
      simp only [Context.size] at sibling
      simp only [Context.index]
      omega
    · rw [position]
    · rw [children_plug, Vec.getElem?_split ctx'.length_leftChildren]
    · exact refilled.entered.lower

theorem takeMax_plug (fuel : Nat) (ctx : Context K V) (child : Node K V)
    (last : ctx.rightKeys = []) (shaped : Shaped t lo h child) :
    takeMax t (fuel + 1) (ctx.plug child) = .note (.takeMax (ctx.plug child)) (
      if child.keys.length < t then do
        let node ← fillChild t (ctx.plug child) ctx.index fun node => node.children.length - 1
        onChild node (node.children.length - 1) (takeMax t fuel)
      else
        onChild (ctx.plug child) ctx.index (takeMax t fuel)) := by
  obtain ⟨size, internal⟩ := ctx.reads_plug shaped
  have position := ctx.last_index child last
  rw [children_plug] at position
  simp only [plug, takeMax, internal, Bool.false_eq_true, if_false, position, size,
    Logged.lift_bind]

theorem takeMin_plug (fuel : Nat) (ctx : Context K V) (child : Node K V)
    (first : ctx.leftKeys = []) (shaped : Shaped t lo h child) :
    takeMin t (fuel + 1) (ctx.plug child) = .note (.takeMin (ctx.plug child)) (
      if child.keys.length < t then do
        onChild (← fillChild t (ctx.plug child) ctx.index fun _ => 0) 0 (takeMin t fuel)
      else
        onChild (ctx.plug child) ctx.index (takeMin t fuel)) := by
  obtain ⟨size, internal⟩ := ctx.reads_plug shaped
  have position : ctx.index = 0 := by simp [Context.index, first]
  rw [position] at size ⊢
  simp only [plug, takeMin, internal, Bool.false_eq_true, if_false, size, Logged.lift_bind]

/-- Topping up a child if it is minimal, and entering it. The three recursive functions differ
in where they look for the child afterwards. -/
theorem enter_finishes {α : Type} (ctx : Context K V) {child : Node K V} (positive : 1 ≤ t)
    (fits : ctx.Fits t h) (shaped : Shaped t (t - 1) h child) (sibling : 1 ≤ ctx.size)
    (first : Node K V → Call K V) {entered : Node K V → Nat}
    {run next : Nat → Node K V → Logged (Call K V) (Node K V × α)}
    (allowed : ∀ n, t ≤ n.keys.length → (first n).Allowed t)
    (refills : ∀ ctx' child', Refilled t h ctx child ctx' child' →
      entered (ctx'.plug child') = ctx'.index ∧
      (∀ fuel, next fuel (ctx'.plug child') = onChild (ctx'.plug child') ctx'.index (run fuel)) ∧
      Settles t h (first child') fun fuel => run fuel child') :
    Finishes t h fun fuel =>
      if child.keys.length < t then
        fillChild t (ctx.plug child) ctx.index entered >>= next fuel
      else
        onChild (ctx.plug child) ctx.index (run fuel) := by
  by_cases short : child.keys.length < t
  · obtain ⟨ctx', child', own, fills, refilled, quiet⟩ :=
      fillChild_quiet ctx positive fits shaped short sibling entered
    obtain ⟨position, goes, settles⟩ := refills ctx' child' refilled
    obtain ⟨child'', result, calls, enters, orderly⟩ :=
      onChild_settles ctx' run settles (allowed child' refilled.entered.lower)
    refine ⟨(ctx'.plug child'', result), own ++ first child' :: calls, fun fuel enough => ?_,
      orderly own (quiet position)⟩
    refine (if_pos short).trans ?_
    rw [fills, Logged.done_bind, goes, enters fuel enough]
  · have spare : t ≤ child.keys.length := not_lt.mp short
    obtain ⟨-, -, settles⟩ := refills ctx child (.refl fits (shaped.retune spare))
    obtain ⟨child', result, calls, enters, orderly⟩ :=
      onChild_settles ctx run settles (allowed child spare)
    refine ⟨(ctx.plug child', result), first child :: calls, fun fuel enough => ?_,
      orderly [] Quiet.nil⟩
    exact (if_neg short).trans (enters fuel enough)

theorem takeMax_settles (large : 2 ≤ t) : ∀ (h : Nat) (n : Node K V), Shaped t t h n →
    Settles t h (.takeMax n) fun fuel => takeMax t fuel n := by
  intro h
  induction h with
  | zero =>
    intro n shaped
    obtain ⟨n', e, takes, -⟩ := takeMax_spec large 0 1 n Nat.one_pos shaped
    obtain ⟨ks, vs, cs, rfl, -⟩ := shaped.exists_node
    obtain ⟨-, -, -, rfl⟩ := shaped
    refine Settles.leaf (n', e) fun fuel => ?_
    rw [← takes]
    rfl
  | succ h ih =>
    intro n shaped
    obtain ⟨ctx, child, rfl, position⟩ := shaped.exists_plug (le_refl _)
    obtain ⟨lower, -, fits, childShaped⟩ := ctx.shaped_plug.mp shaped
    have last : ctx.rightKeys = [] := by
      rw [length_keys_plug] at position
      simp only [Context.index, Context.size] at position
      exact List.length_eq_zero_iff.mp (by omega)
    refine (enter_finishes ctx (by omega) fits childShaped (by omega) .takeMax (fun _ => id)
      fun ctx' child' refilled => ?_).settles
      fun fuel => takeMax_plug fuel ctx child last childShaped
    have last' : ctx'.rightKeys = [] := refilled.rightKeys_eq_nil last
    refine ⟨ctx'.last_index child' last', fun fuel => ?_, ih child' refilled.entered⟩
    rw [ctx'.last_index child' last']

theorem takeMin_settles (large : 2 ≤ t) : ∀ (h : Nat) (n : Node K V), Shaped t t h n →
    Settles t h (.takeMin n) fun fuel => takeMin t fuel n := by
  intro h
  induction h with
  | zero =>
    intro n shaped
    obtain ⟨n', e, takes, -⟩ := takeMin_spec large 0 1 n Nat.one_pos shaped
    obtain ⟨ks, vs, cs, rfl, -⟩ := shaped.exists_node
    obtain ⟨-, -, -, rfl⟩ := shaped
    refine Settles.leaf (n', e) fun fuel => ?_
    rw [← takes]
    rfl
  | succ h ih =>
    intro n shaped
    obtain ⟨ctx, child, rfl, position⟩ := shaped.exists_plug (Nat.zero_le _)
    obtain ⟨lower, -, fits, childShaped⟩ := ctx.shaped_plug.mp shaped
    have first : ctx.leftKeys = [] := List.length_eq_zero_iff.mp position
    refine (enter_finishes ctx (by omega) fits childShaped (by omega) .takeMin (fun _ => id)
      fun ctx' child' refilled => ?_).settles
      fun fuel => takeMin_plug fuel ctx child first childShaped
    have position' := refilled.index_eq_zero first
    refine ⟨position'.symm, fun fuel => ?_, ih child' refilled.entered⟩
    rw [position']

/-- An entry of a child takes the place of the key that stands beside the child. -/
theorem replace_finishes (ctx : Context K V) {child : Node K V} {first : Call K V} {i : Nat}
    {run : Nat → Node K V → Logged (Call K V) (Node K V × (K × V))}
    (settles : Settles t h first fun fuel => run fuel child) (allowed : first.Allowed t)
    (replaces : ∀ child' entry, ∃ node, replaceEntry (ctx.plug child') i entry = some node) :
    Finishes t h fun fuel => do
      let (drained, entry) ← onChild (ctx.plug child) ctx.index (run fuel)
      return (← .lift (replaceEntry drained i entry), true) := by
  obtain ⟨child', entry, calls, enters, orderly⟩ := onChild_settles ctx run settles allowed
  obtain ⟨node, replaced⟩ := replaces child' entry
  refine ⟨(node, true), first :: calls, fun fuel enough => ?_, orderly [] Quiet.nil⟩
  simp only [enters fuel enough, Logged.done_bind, replaced, Logged.lift_bind]
  exact congrArg (Logged.mk _) (List.append_nil _)

/-- Two minimal children are merged around their separator, and the merge is entered. -/
theorem merge_finishes {α : Type} (ctx : Context K V) {left right : Node K V} {k : K} {v : V}
    (first : Node K V → Call K V) {run : Nat → Node K V → Logged (Call K V) (Node K V × α)}
    (allowed : ∀ n, t ≤ n.keys.length → (first n).Allowed t)
    (leftShaped : Shaped t (t - 1) h left) (rightShaped : Shaped t (t - 1) h right)
    (leftShort : left.keys.length < t) (rightShort : right.keys.length < t)
    (settles : ∀ merged, Shaped t t h merged →
      entries merged = entries left ++ (k, v) :: entries right →
      Settles t h (first merged) fun fuel => run fuel merged) :
    Finishes t h fun fuel =>
      mergeChildren (ctx.pair left k v right) ctx.index >>= (onChild · ctx.index (run fuel)) := by
  have leftMinimal := leftShaped.lower
  have rightMinimal := rightShaped.lower
  obtain ⟨merged, merges, mergedShaped, joined⟩ :=
    mergeChildren_spec ctx (k := k) (v := v) leftShaped rightShaped (by omega)
  have mergedLower := mergedShaped.lower
  have roomy : t ≤ merged.keys.length := by omega
  obtain ⟨merged', result, calls, enters, orderly⟩ := onChild_settles ctx run
    (settles merged (mergedShaped.retune roomy) joined) (allowed merged roomy)
  refine ⟨(ctx.plug merged', result), _, fun fuel enough => ?_, orderly _ (quiet_merge
    (mergeChildren_allowed ctx (k := k) (v := v) leftShaped rightShaped leftShort rightShort))⟩
  rw [mergeChildren, merges]
  exact congrArg (Logged.note _) (enters fuel enough)

section Order
variable [LinearOrder K] {key : K}

theorem removeFrom_leaf (fuel : Nat) (ks : List K) (vs : List V) :
    removeFrom t (fuel + 1) (.node ks vs []) key =
      ⟨BTree.removeFrom t 1 (.node ks vs []) key, [.removeFrom (.node ks vs [])]⟩ := by
  cases present : keyAt ks (lowerBound ks key) key with
  | true =>
    simp only [removeFrom, BTree.removeFrom, present, List.isEmpty_nil, Bool.and_self, if_true]
    rfl
  | false =>
    simp only [removeFrom, BTree.removeFrom, present, List.isEmpty_nil, Bool.false_and,
      Bool.false_eq_true, if_false, if_true]
    rfl

theorem removeFrom_pair (fuel : Nat) (ctx : Context K V) (left : Node K V) (v : V)
    (right : Node K V)
    (position : lowerBound (ctx.pair left key v right).keys key = ctx.index)
    (leftShaped : Shaped t lo h left) (rightShaped : Shaped t lo h right) :
    removeFrom t (fuel + 1) (ctx.pair left key v right) key =
      .note (.removeFrom (ctx.pair left key v right)) (
        if t ≤ left.keys.length then do
          let (drained, entry) ← onChild (ctx.pair left key v right) ctx.index (takeMax t fuel)
          return (← .lift (replaceEntry drained ctx.index entry), true)
        else if t ≤ right.keys.length then do
          let (drained, entry) ←
            onChild (ctx.pair left key v right) (ctx.index + 1) (takeMin t fuel)
          return (← .lift (replaceEntry drained ctx.index entry), true)
        else
          mergeChildren (ctx.pair left key v right) ctx.index >>=
            (onChild · ctx.index (removeFrom t fuel · key))) := by
  obtain ⟨leftSize, rightSize, internal, atKey⟩ := ctx.reads_pair key v leftShaped rightShaped
  simp only [pair, Node.keys] at position
  simp only [pair, removeFrom, position, atKey, internal, Bool.and_false, Bool.false_eq_true,
    if_false, if_true, leftSize, rightSize, Logged.lift_bind]

theorem removeFrom_plug (fuel : Nat) (ctx : Context K V) (child : Node K V)
    (position : lowerBound (ctx.plug child).keys key = ctx.index)
    (absent : keyAt (ctx.plug child).keys ctx.index key = false)
    (shaped : Shaped t lo h child) :
    removeFrom t (fuel + 1) (ctx.plug child) key = .note (.removeFrom (ctx.plug child)) (
      if child.keys.length < t then
        fillChild t (ctx.plug child) ctx.index (fun node => lowerBound node.keys key) >>=
          fun node => if keyAt node.keys (lowerBound node.keys key) key then
            .note (.surfaced node) (removeFrom t fuel node key)
          else
            onChild node (lowerBound node.keys key) (removeFrom t fuel · key)
      else
        onChild (ctx.plug child) ctx.index (removeFrom t fuel · key)) := by
  obtain ⟨size, internal⟩ := ctx.reads_plug shaped
  simp only [plug, Node.keys] at position absent
  simp only [plug, removeFrom, position, absent, internal, Bool.false_and, Bool.false_eq_true,
    if_false, size, Logged.lift_bind]

theorem removeFrom_settles (large : 2 ≤ t) (key : K) :
    ∀ (h lo : Nat) (n : Node K V), Shaped t (lo + 1) h n → Ascending (entries n) →
      Settles t h (.removeFrom n) fun fuel => removeFrom t fuel n key := by
  intro h
  induction h with
  | zero =>
    intro lo n shaped ascending
    obtain ⟨n', flag, removes, -⟩ := removeFrom_spec large key 0 1 lo n Nat.one_pos shaped ascending
    obtain ⟨ks, vs, cs, rfl, -⟩ := shaped.exists_node
    obtain ⟨-, -, -, rfl⟩ := shaped
    refine Settles.leaf (n', flag) fun fuel => ?_
    rw [← removes]
    exact removeFrom_leaf fuel ks vs
  | succ h ih =>
    intro lo n shaped ascending
    obtain ⟨ctx, child, rfl, position, below, route⟩ := shaped.route ascending key
    obtain ⟨lower, -, fits, childShaped⟩ := ctx.shaped_plug.mp shaped
    -- below the root a node with `t` keys is entered, and its entries ascend as the tree's do
    have enters : ∀ (ctx' : Context K V) (child' : Node K V), Shaped t t h child' →
        entries (ctx'.plug child') = entries (ctx.plug child) →
        Settles t h (.removeFrom child') fun fuel => removeFrom t fuel child' key := by
      intro ctx' child' shaped' same
      rw [← same, entries_plug] at ascending
      have ascending' := (ascending_append.mp (ascending_append.mp ascending).1).2.1
      have spare := shaped'.lower
      exact ih (t - 1) child' (shaped'.retune (by omega)) ascending'
    rcases route with ⟨atKey, outer, v, right, rfl⟩ | ⟨absent, above⟩
    · have rightShaped := (outer.fits_growRight.mp fits).2
      rw [plug_growRight, index_growRight] at position
      rw [plug_growRight] at enters ⊢
      refine Finishes.settles ?_ fun fuel =>
        removeFrom_pair fuel outer child v right position childShaped rightShaped
      by_cases spare : t ≤ child.keys.length
      · have settles := takeMax_settles large h child (childShaped.retune spare)
        have finishes := replace_finishes (i := outer.index) (outer.growRight key v right) settles
          spare fun child' entry => ⟨_, replaceEntry_pair outer child' key v right entry⟩
        rw [plug_growRight, index_growRight] at finishes
        simpa only [if_pos spare] using finishes
      · by_cases spare' : t ≤ right.keys.length
        · have settles := takeMin_settles large h right (rightShaped.retune spare')
          have finishes := replace_finishes (i := outer.index) (outer.growLeft child key v) settles
            spare' fun right' entry => ⟨_, by rw [plug_growLeft]; exact replaceEntry_pair ..⟩
          rw [plug_growLeft, index_growLeft] at finishes
          simpa only [if_neg spare, if_pos spare'] using finishes
        · simp only [if_neg spare, if_neg spare']
          refine merge_finishes outer .removeFrom (fun _ => id) childShaped rightShaped
            (not_le.mp spare) (not_le.mp spare') fun merged mergedShaped joined => ?_
          refine enters outer merged mergedShaped ?_
          rw [outer.entries_pair, entries_plug, joined]
    · refine (enter_finishes ctx (by omega) fits childShaped (by omega) .removeFrom (fun _ => id)
        fun ctx' child' refilled => ?_).settles
        fun fuel => removeFrom_plug fuel ctx child position absent childShaped
      obtain ⟨position', absent'⟩ := refilled.locate below above
      refine ⟨position', fun fuel => ?_,
        enters ctx' child' refilled.entered (ctx.entries_refilled refilled)⟩
      simp only [position', absent', Bool.false_eq_true, if_false]

/-- What `remove` does besides the call on the root makes no calls. -/
theorem remove_node {fuel : Nat} {ks : List K} {vs : List V} {cs : List (Node K V)} {size : Nat}
    {root : Node K V} {removed : Bool} {calls : List (Call K V)}
    (runs : removeFrom t fuel (.node ks vs cs) key = ⟨some (root, removed), calls⟩) :
    remove t fuel ⟨.node ks vs cs, size⟩ key =
      ⟨(Tree.shrinkRoot root).map fun root => (⟨root, if removed then size - 1 else size⟩, removed),
        calls⟩ := by
  simp only [remove, runs, Logged.done_bind]
  cases Tree.shrinkRoot root with
  | none => exact congrArg (Logged.mk _) (List.append_nil calls)
  | some root => exact congrArg (Logged.mk _) (List.append_nil calls)

end Order

end Calls

section Order
variable [LinearOrder K]

/-- A removal from a well-formed tree returns, and it makes the same calls with whatever fuel
from the tree's height on, with one recursive call a level at most. The first is on the root;
every other one enters a node with at least `t` keys. `fillChild` is called for a child that
has a sibling, and the child that is entered then has at least `t` keys. `mergeChildren` is
called on two children of `t - 1` keys each, and the branch that enters the same node again
is never taken. -/
theorem remove_single_pass {tree : Tree K V} (large : 2 ≤ t) (wellFormed : WellFormed t tree)
    (key : K) :
    ∃ answer calls, tree.remove t key = some answer ∧
      (∀ fuel, tree.height ≤ fuel → Calls.remove t fuel tree key = ⟨some answer, calls⟩) ∧
      calls.countP Call.enters ≤ tree.height ∧
      (tree.root = .null ∧ calls = [] ∨ ∃ below, calls = .removeFrom tree.root :: below ∧
        ∀ call ∈ below, call.Allowed t) := by
  have valid := wellFormed.valid
  obtain ⟨tree', removes, -⟩ := tree.remove_spec large valid key
  obtain ⟨root, size⟩ := tree
  cases root with
  | null =>
    cases removes
    exact ⟨_, [], rfl, fun _ _ => rfl, le_rfl, .inl ⟨rfl, rfl⟩⟩
  | node ks vs cs =>
    obtain ⟨h, shaped⟩ := valid.shaped.resolve_left (by simp)
    obtain ⟨⟨root', removed⟩, below, runs, orderly⟩ :=
      Calls.removeFrom_settles large key h 0 _ shaped valid.ascending
    have height : (⟨.node ks vs cs, size⟩ : Tree K V).height = h + 1 := shaped.height_eq
    have calls (fuel : Nat) (enough : h < fuel) :
        Calls.remove t fuel ⟨.node ks vs cs, size⟩ key = _ :=
      Calls.remove_node (runs fuel enough)
    -- at the model's own fuel the logged run gives the model's answer
    have answer := Calls.remove_result (t := t) ⟨.node ks vs cs, size⟩ key
    rw [height, calls (h + 1) h.lt_succ_self, removes] at answer
    refine ⟨_, _, removes, fun fuel enough => ?_, ?_, .inr ⟨below, rfl, orderly.allowed⟩⟩
    · rw [calls fuel (by omega)]
      exact congrArg (Logged.mk · _) answer
    · have := orderly.bounded
      rw [height, List.countP_cons]
      split <;> omega

/-- A root with one key, whose minimal children are merged under it before one is entered. -/
theorem remove_single_pass_merge :
    WellFormed 2 (⟨.node [2] [20] [.node [1] [10] [], .node [3] [30] []], 3⟩ : Tree Nat Nat) ∧
      ∃ calls, (Calls.remove 2 2 ⟨.node [2] [20] [.node [1] [10] [], .node [3] [30] []], 3⟩ 1).log =
        calls ∧ calls.length = 4 ∧ ∀ call ∈ calls.tail, call.Allowed 2 := by
  have wellFormed : WellFormed 2
      (⟨.node [2] [20] [.node [1] [10] [], .node [3] [30] []], 3⟩ : Tree Nat Nat) :=
    (valid_of_checkInvariants (by decide)).wellFormed
  obtain ⟨answer, calls, -, runs, -, ⟨none, -⟩ | ⟨below, rfl, allowed⟩⟩ :=
    remove_single_pass le_rfl wellFormed 1
  · cases none
  · have runs := congrArg Logged.log (runs 2 le_rfl)
    refine ⟨wellFormed, _, runs, ?_, allowed⟩
    rw [← runs]
    rfl

end Order

end CppDB.BTree
