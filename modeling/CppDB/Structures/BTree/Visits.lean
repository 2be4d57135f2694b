import CppDB.Lib.Logged
import CppDB.Structures.BTree.Definition

/-! What a range scan and an insertion do on their way down. Each is run once more, with the
nodes it enters logged. In a scan, a node that lies wholly inside the range pays for itself
with its keys, and on each level at most two nodes lie across an end of the range. An
insertion makes room in a child before it enters it. -/
namespace CppDB.BTree
open Assoc Context

variable {K V : Type} [LinearOrder K] {t h : Nat}

theorem Tree.Valid.height_le_log (large : 2 ≤ t) {tree : Tree K V} (valid : tree.Valid t) :
    tree.height ≤ Nat.log t ((tree.size + 1) / 2) + 1 := by
  obtain null | ⟨h, shaped⟩ := valid.shaped
  · rw [Tree.height, null]
    exact Nat.zero_le _
  · have bound := shaped.le_length (by omega)
    rw [valid.counted, Tree.height, shaped.height_eq]
    refine Nat.succ_le_succ (Nat.le_log_of_pow_le large ?_)
    rw [Nat.le_div_iff_mul_le Nat.two_pos]
    change _ ≤ (entries tree.root).length + 1
    omega

namespace Visits

/-- A visit of the next child, if there is one. -/
def asked {α : Type} (below : List (Logged (Node K V) α)) : Logged (Node K V) α :=
  below.headD (.lift none)

def rangeLoop (leaf : Bool) (hi : K) : List (Logged (Node K V) (List (K × V))) → List K → List V →
    Logged (Node K V) (List (K × V))
  | below, [], _ => if leaf then .lift (some []) else asked below
  | below, k :: ks, vs => do
    let visited ← if leaf then .lift (some []) else asked below
    if hi < k then
      return visited
    else
      let (v, vs) ← .lift (Vec.popFront vs)
      let rest ← rangeLoop leaf hi below.tail ks vs
      return visited ++ (k, v) :: rest

mutual

def rangeVisit (lo hi : K) : Node K V → Logged (Node K V) (List (K × V))
  | .null => .lift none
  | .node ks vs cs =>
    let i := lowerBound ks lo
    .note (.node ks vs cs)
      (rangeLoop cs.isEmpty hi ((rangeChildren lo hi cs).drop i) (ks.drop i) (vs.drop i))

def rangeChildren (lo hi : K) : List (Node K V) → List (Logged (Node K V) (List (K × V)))
  | [] => []
  | c :: cs => rangeVisit lo hi c :: rangeChildren lo hi cs

end

def forEachRange (tree : Tree K V) (lo hi : K) : Logged (Node K V) (List (K × V)) :=
  match tree.root with
  | .null => .lift (some [])
  | root => rangeVisit lo hi root

/-! ### Without the log -/

omit [LinearOrder K] in
theorem asked_result {α : Type} (below : List (Logged (Node K V) α)) :
    (asked below).result = (below.map Logged.result).head?.join := by
  cases below <;> rfl

theorem rangeLoop_result (leaf : Bool) (hi : K)
    (below : List (Logged (Node K V) (List (K × V)))) (ks : List K) (vs : List V) :
    (rangeLoop leaf hi below ks vs).result =
      BTree.rangeLoop leaf hi (below.map Logged.result) ks vs := by
  induction ks generalizing below vs with
  | nil => simp only [rangeLoop, BTree.rangeLoop, Logged.result_ite, Logged.result_lift, asked_result]
  | cons k ks ih =>
    simp only [rangeLoop, BTree.rangeLoop, Logged.result_bind, Logged.result_ite, Logged.result_lift,
      Logged.result_pure, asked_result, ih, List.map_tail, Option.bind_eq_bind, Option.pure_def]

theorem rangeChildren_eq_map (lo hi : K) (cs : List (Node K V)) :
    rangeChildren lo hi cs = cs.map (rangeVisit lo hi) := by
  induction cs with
  | nil => rfl
  | cons c cs ih => rw [rangeChildren, ih, List.map_cons]

theorem rangeVisit_result (lo hi : K) (n : Node K V) :
    (rangeVisit lo hi n).result = BTree.rangeVisit lo hi n := by
  induction n using Node.induct with
  | null => rfl
  | node ks vs cs ih =>
    have children : (rangeChildren lo hi cs).map Logged.result = BTree.rangeChildren lo hi cs := by
      rw [rangeChildren_eq_map, BTree.rangeChildren_eq_map, List.map_map]
      exact List.map_congr_left ih
    rw [rangeVisit, BTree.rangeVisit, Logged.result_note, rangeLoop_result, List.map_drop, children]

theorem forEachRange_result (tree : Tree K V) (lo hi : K) :
    (forEachRange tree lo hi).result = tree.forEachRange lo hi := by
  obtain ⟨root, size⟩ := tree
  cases root with
  | null => rfl
  | node ks vs cs => exact rangeVisit_result lo hi _

/-! ### Counting -/

/-- Whether entries of the list lie beyond an end of the range. -/
def beyond (p : K → Bool) (l : List (K × V)) : Nat := (l.any fun e => p e.1).toNat

omit [LinearOrder K] in
theorem beyond_mono {p : K → Bool} {l l' : List (K × V)} (sub : l ⊆ l') :
    beyond p l ≤ beyond p l' := by
  cases is : l.any fun e => p e.1 with
  | false => simp [beyond, is]
  | true =>
    obtain ⟨e, there, holds⟩ := List.any_eq_true.mp is
    have is' : (l'.any fun e => p e.1) = true := List.any_eq_true.mpr ⟨e, sub there, holds⟩
    simp [beyond, is, is']

omit [LinearOrder K] in
theorem beyond_eq_zero {p : K → Bool} {l : List (K × V)} :
    beyond p l = 0 ↔ ∀ e ∈ l, p e.1 = false := by
  simp [beyond]

/-- A visit enters no more nodes than it finds entries, but for `levels` at each end of the
range that the entries reach across. -/
structure Pays (lo hi : K) (levels : Nat) (visit : Logged (Node K V) (List (K × V)))
    (l : List (K × V)) : Prop where
  returns : visit.result = some (within lo hi l)
  bound : visit.log.length ≤ (within lo hi l).length +
    (beyond (· < lo) l + beyond (hi < ·) l) * levels

theorem rangeLoop_pays {lo hi : K} {levels : Nat} {ks : List K} {vs : List V}
    {visit : Logged (Node K V) (List (K × V))} {l : List (K × V)}
    {visits : List (Logged (Node K V) (List (K × V)))} {ls : List (List (K × V))}
    (first : Pays lo hi levels visit l) (others : List.Forall₂ (Pays lo hi levels) visits ls)
    (values : vs.length = ks.length) (children : ls.length = ks.length)
    (ascending : Ascending (l ++ weave ks vs ls)) (from_lo : ∀ e ∈ weave ks vs ls, lo ≤ e.1) :
    (rangeLoop false hi (visit :: visits) ks vs).log.length + ks.countP (· ≤ hi) ≤
      (within lo hi (l ++ weave ks vs ls)).length +
        (beyond (· < lo) l + beyond (hi < ·) (l ++ weave ks vs ls)) * levels := by
  induction ks generalizing vs visit l visits ls with
  | nil => simpa [rangeLoop, asked, weave] using first.bound
  | cons k ks ih =>
    obtain ⟨v, vs, rfl⟩ := List.exists_cons_of_length_eq_add_one values
    obtain ⟨l', ls, rfl⟩ := List.exists_cons_of_length_eq_add_one children
    obtain ⟨visit', visits, next, following, rfl⟩ := List.forall₂_cons_right_iff.mp others
    simp only [List.length_cons, Nat.add_right_cancel_iff] at values children
    rw [weave] at ascending from_lo ⊢
    have opens : (rangeLoop false hi (visit :: visit' :: visits) (k :: ks) (v :: vs)).log =
        visit.log ++ if hi < k then [] else
          (rangeLoop false hi (visit' :: visits) ks vs).log := by
      simp only [rangeLoop, Bool.false_eq_true, if_false, asked, List.headD_cons,
        Logged.log_bind first.returns, List.tail_cons]
      split
      · rfl
      · rw [Vec.popFront, Logged.lift_bind, Logged.log_bind_pure]
    rw [opens]
    obtain ⟨-, tail, crosses⟩ := ascending_append.mp ascending
    obtain ⟨later, tail⟩ := List.pairwise_cons.mp tail
    have here := from_lo (k, v) List.mem_cons_self
    have bound := first.bound
    by_cases past : hi < k
    · -- the separator ends the loop, and no key behind it is in the range
      have none : (k :: ks).countP (· ≤ hi) = 0 := by
        rw [List.countP_eq_zero]
        intro k' there
        rw [decide_eq_true_iff, not_le]
        obtain rfl | there := List.mem_cons.mp there
        · exact past
        · have listed := (keys_sublist_weave values children).subset there
          obtain ⟨v', listed⟩ := mem_keys.mp listed
          exact past.trans (later _ (List.mem_append_right _ listed))
      have more : beyond (hi < ·) l ≤ beyond (hi < ·) (l ++ (k, v) :: (l' ++ weave ks vs ls)) :=
        beyond_mono (List.subset_append_left _ _)
      have paid := Nat.mul_le_mul_right levels (Nat.add_le_add_left more (beyond (· < lo) l))
      rw [if_pos past, List.append_nil, none, within_append, List.length_append]
      omega
    · have inside := not_lt.mp past
      have kept : (within lo hi ((k, v) :: (l' ++ weave ks vs ls))).length =
          (within lo hi (l' ++ weave ks vs ls)).length + 1 := by
        simp [within, here, inside]
      have rest := ih next following values children tail fun e there =>
        from_lo e (List.mem_cons_of_mem _ (List.mem_append_right _ there))
      have noneBelow : beyond (· < lo) l' = 0 := by
        rw [beyond_eq_zero]
        intro e there
        have := from_lo e (List.mem_cons_of_mem _ (List.mem_append_left _ there))
        simpa using this
      have noneAbove : beyond (hi < ·) l = 0 := by
        rw [beyond_eq_zero]
        intro e there
        have := crosses e there (k, v) List.mem_cons_self
        simpa using (this.trans_le inside).le
      have more : beyond (hi < ·) (l' ++ weave ks vs ls) ≤
          beyond (hi < ·) (l ++ (k, v) :: (l' ++ weave ks vs ls)) :=
        beyond_mono fun e there => List.mem_append_right _ (List.mem_cons_of_mem _ there)
      have paid := Nat.mul_le_mul_right levels more
      rw [noneBelow, Nat.zero_add] at rest
      rw [noneAbove, Nat.add_zero] at bound
      rw [if_neg past, List.countP_cons_of_pos (by simpa using inside), within_append,
        List.length_append, List.length_append, kept, Nat.add_mul]
      omega

theorem rangeLoop_leaf_log (hi : K) (below : List (Logged (Node K V) (List (K × V))))
    (ks : List K) (vs : List V) : (rangeLoop true hi below ks vs).log = [] := by
  induction ks generalizing below vs with
  | nil => rfl
  | cons k ks ih =>
    simp only [rangeLoop, if_true, Logged.lift_bind]
    split
    · rfl
    · cases vs with
      | nil => rfl
      | cons v vs => rw [Vec.popFront, Logged.lift_bind, Logged.log_bind_pure, ih]

theorem within_eq_self {lo hi : K} {l : List (K × V)} (below : beyond (· < lo) l = 0)
    (above : beyond (hi < ·) l = 0) : within lo hi l = l := by
  rw [beyond_eq_zero] at below above
  refine List.filter_eq_self.mpr fun e there => ?_
  have low := below e there
  have high := above e there
  simp only [decide_eq_false_iff_not, not_lt] at low high
  exact decide_eq_true ⟨low, high⟩

/-- What stands behind the child that `lo` leads to is not below `lo`. -/
theorem from_lo_of_route {ctx : Context K V} {lo : K} {keys : List K}
    (ascending : Ascending ctx.after)
    (route : keyAt keys ctx.index lo = true ∧ (∃ outer v right, ctx = growRight outer lo v right) ∨
      keyAt keys ctx.index lo = false ∧ ∀ e ∈ ctx.after, lo < e.1) :
    ∀ e ∈ ctx.after, lo ≤ e.1 := by
  obtain ⟨-, outer, v, right, rfl⟩ | ⟨-, above⟩ := route
  · rw [after_growRight] at ascending ⊢
    intro e there
    obtain rfl | there := List.mem_cons.mp there
    · exact le_rfl
    · exact ((List.pairwise_cons.mp ascending).1 e there).le
  · exact fun e there => (above e there).le

theorem rangeVisit_plug {lo : K} (ctx : Context K V) (child : Node K V)
    (position : lowerBound (ctx.plug child).keys lo = ctx.index) (hi : K) :
    rangeVisit lo hi (ctx.plug child) = .note (ctx.plug child) (rangeLoop false hi
      (rangeVisit lo hi child :: ctx.rightChildren.map (rangeVisit lo hi)) ctx.rightKeys
      ctx.rightValues) := by
  have internal : (ctx.leftChildren ++ child :: ctx.rightChildren).isEmpty = false := by
    cases ctx.leftChildren <;> rfl
  have visits : (rangeChildren lo hi (ctx.leftChildren ++ child :: ctx.rightChildren)).drop
      ctx.index = rangeVisit lo hi child :: ctx.rightChildren.map (rangeVisit lo hi) := by
    rw [rangeChildren_eq_map, List.map_append, ← ctx.length_leftChildren,
      List.drop_left' (by simp), List.map_cons]
  have dropKeys : (ctx.leftKeys ++ ctx.rightKeys).drop ctx.index = ctx.rightKeys := List.drop_left
  have dropValues : (ctx.leftValues ++ ctx.rightValues).drop ctx.index = ctx.rightValues :=
    List.drop_left' ctx.length_leftValues
  simp only [plug, Node.keys] at position
  simp only [plug, rangeVisit, position, internal, visits, dropKeys, dropValues]

/-- In a node across neither end of the range, the loop hands over every key. -/
theorem keys_inside {lo hi : K} (ctx : Context K V) (child : Node K V)
    (below : ∀ e ∈ ctx.before, e.1 < lo)
    (noneBelow : beyond (· < lo) (entries (ctx.plug child)) = 0)
    (noneAbove : beyond (hi < ·) (entries (ctx.plug child)) = 0) :
    ctx.rightKeys.countP (· ≤ hi) = ctx.size := by
  rw [beyond_eq_zero, entries_plug] at noneBelow noneAbove
  have left : ctx.leftKeys = [] := by
    refine List.eq_nil_iff_forall_not_mem.mpr fun k there => ?_
    have count : (ctx.leftChildren.map entries).length = ctx.leftKeys.length := by
      simpa using ctx.left_children
    obtain ⟨v, listed⟩ := mem_weaveLeft_of_key ctx.left_values count there
    have inside := noneBelow (k, v) (List.mem_append_left _ (List.mem_append_left _ listed))
    exact of_decide_eq_false inside (below (k, v) listed)
  have right : ctx.rightKeys.countP (· ≤ hi) = ctx.rightKeys.length := by
    rw [List.countP_eq_length]
    intro k there
    have count : (ctx.rightChildren.map entries).length = ctx.rightKeys.length := by
      simpa using ctx.right_children
    have listed := (keys_sublist_weave ctx.right_values count).subset there
    obtain ⟨v, listed⟩ := mem_keys.mp listed
    have inside := noneAbove (k, v) (List.mem_append_right _ listed)
    exact decide_eq_true (not_lt.mp (of_decide_eq_false inside))
  rw [right, size, left, List.length_nil, Nat.zero_add]

/-- A node that lies across neither end of the range pays with its own keys. -/
theorem rangeVisit_pays (large : 2 ≤ t) (lo hi : K) : ∀ (h least : Nat) (n : Node K V),
    Shaped t least h n → 1 ≤ least → Ascending (entries n) →
      Pays lo hi (h + 1) (rangeVisit lo hi n) (entries n) := by
  intro h
  induction h with
  | zero =>
    intro least n shaped keyed ascending
    refine ⟨by rw [rangeVisit_result, rangeVisit_spec lo hi 0 least n shaped ascending], ?_⟩
    obtain ⟨ks, vs, cs, rfl, values, lower, -⟩ := shaped.exists_node
    obtain ⟨_, _, _, rfl⟩ := shaped
    rw [rangeVisit, Logged.note, List.isEmpty_nil, rangeLoop_leaf_log, List.length_singleton,
      entries_leaf]
    by_cases across : beyond (· < lo) (ks.zip vs) + beyond (hi < ·) (ks.zip vs) = 0
    · obtain ⟨below, above⟩ := Nat.add_eq_zero_iff.mp across
      rw [within_eq_self below above, List.length_zip, values, Nat.min_self]
      omega
    · omega
  | succ h ih =>
    intro least n shaped keyed ascending
    refine ⟨by rw [rangeVisit_result, rangeVisit_spec lo hi (h + 1) least n shaped ascending], ?_⟩
    obtain ⟨ctx, child, rfl, position, below, route⟩ := shaped.route ascending lo
    obtain ⟨lower, -, fits, childShaped⟩ := ctx.shaped_plug.mp shaped
    have contents := ctx.entries_plug child
    rw [contents, List.append_assoc] at ascending
    obtain ⟨-, tail, -⟩ := ascending_append.mp ascending
    obtain ⟨childAscending, afterAscending, -⟩ := ascending_append.mp tail
    have from_lo := from_lo_of_route afterAscending route
    have first := ih (t - 1) child childShaped (by omega) childAscending
    have others : List.Forall₂ (Pays lo hi (h + 1)) (ctx.rightChildren.map (rangeVisit lo hi))
        (ctx.rightChildren.map entries) := by
      rw [List.forall₂_map_left_iff, List.forall₂_map_right_iff, List.forall₂_same]
      intro c there
      refine ih (t - 1) c (fits.2 c there) (by omega) ?_
      exact List.Pairwise.sublist (sublist_weave ctx.right_values
        (by simpa using ctx.right_children) (List.mem_map_of_mem there)) afterAscending
    have loop := rangeLoop_pays first others ctx.right_values (by simpa using ctx.right_children)
      tail from_lo
    rw [← after] at loop
    have rest : entries child ++ ctx.after ⊆ entries (ctx.plug child) := by
      rw [contents, List.append_assoc]
      exact List.subset_append_right _ _
    have low : beyond (· < lo) (entries child) ≤ beyond (· < lo) (entries (ctx.plug child)) :=
      beyond_mono fun e there => rest (List.mem_append_left _ there)
    have high : beyond (hi < ·) (entries child ++ ctx.after) ≤
        beyond (hi < ·) (entries (ctx.plug child)) := beyond_mono rest
    have found : within lo hi (entries (ctx.plug child)) =
        within lo hi (entries child ++ ctx.after) := by
      rw [contents, List.append_assoc, within_append, within_below below, List.nil_append]
    have paid := Nat.mul_le_mul_right (h + 1) (Nat.add_le_add low high)
    rw [rangeVisit_plug ctx child position, Logged.note, List.length_cons, found]
    by_cases across : beyond (· < lo) (entries (ctx.plug child)) +
        beyond (hi < ·) (entries (ctx.plug child)) = 0
    · obtain ⟨noneBelow, noneAbove⟩ := Nat.add_eq_zero_iff.mp across
      have own := keys_inside ctx child below noneBelow noneAbove
      rw [noneBelow, noneAbove] at paid ⊢
      omega
    · rw [Nat.mul_succ]
      omega

end Visits

/-- Whatever the bounds, a range scan enters at most two nodes a level besides one for each
entry it hands over, and the levels are logarithmic in the number of entries. -/
theorem range_scan_cost (large : 2 ≤ t) {tree : Tree K V} (wellFormed : WellFormed t tree)
    (lo hi : K) :
    ∃ visits, tree.forEachRange lo hi = some visits ∧
      (Visits.forEachRange tree lo hi).result = some visits ∧
      (Visits.forEachRange tree lo hi).log.length ≤ visits.length + 2 * tree.height ∧
      tree.height ≤ Nat.log t ((tree.size + 1) / 2) + 1 := by
  have valid := wellFormed.valid
  have returns := tree.forEachRange_spec valid lo hi
  refine ⟨_, returns, (Visits.forEachRange_result tree lo hi).trans returns, ?_,
    valid.height_le_log large⟩
  obtain ⟨root, size⟩ := tree
  cases root with
  | null => exact Nat.zero_le _
  | node ks vs cs =>
    obtain ⟨h, shaped⟩ := valid.shaped.resolve_left (by simp)
    have height : (⟨.node ks vs cs, size⟩ : Tree K V).height = h + 1 := shaped.height_eq
    have pays := Visits.rangeVisit_pays large lo hi h 1 _ shaped le_rfl valid.ascending
    have low := Bool.toNat_le ((entries (.node ks vs cs)).any fun e => decide (e.1 < lo))
    have high := Bool.toNat_le ((entries (.node ks vs cs)).any fun e => decide (hi < e.1))
    have ends := Nat.mul_le_mul_right (h + 1) (Nat.add_le_add low high)
    rw [height]
    exact pays.bound.trans (Nat.add_le_add_left ends _)

/-- The child behind the range is entered although it holds nothing of it. -/
theorem range_scan_cost_two_levels :
    WellFormed 2 (⟨.node [2] [20] [.node [1] [10] [], .node [3] [30] []], 3⟩ : Tree Nat Nat) ∧
      (Visits.forEachRange (⟨.node [2] [20] [.node [1] [10] [], .node [3] [30] []], 3⟩ :
        Tree Nat Nat) 1 2).log.length = 3 ∧
      ∃ visits : List (Nat × Nat), visits = [(1, 10), (2, 20)] ∧ 3 ≤ visits.length + 2 * 2 := by
  have wellFormed : WellFormed 2
      (⟨.node [2] [20] [.node [1] [10] [], .node [3] [30] []], 3⟩ : Tree Nat Nat) :=
    (valid_of_checkInvariants (by decide)).wellFormed
  obtain ⟨visits, returns, -, bound, -⟩ := range_scan_cost le_rfl wellFormed 1 2
  exact ⟨wellFormed, rfl, visits, (Option.some.inj returns).symm, bound⟩

/-! ### Insertion -/

/-- What an insertion does on its way down. -/
inductive Touch (K V : Type) where
  | enters (node : Node K V)
  | splits (parent : Node K V) (i : Nat)

def Touch.isEntry : Touch K V → Bool
  | .enters _ => true
  | .splits _ _ => false

/-- A node is entered with room for a key, and a full child is split under a parent that has
room for its median. -/
def Touch.Allowed (t : Nat) : Touch K V → Prop
  | .enters node => node.keys.length < 2 * t - 1
  | .splits parent i => parent.keys.length < 2 * t - 1 ∧
      ∃ child, parent.children[i]? = some child ∧ child.keys.length = 2 * t - 1

namespace Visits

def onChild {α : Type} (node : Node K V) (i : Nat)
    (f : Node K V → Logged (Touch K V) (Node K V × α)) : Logged (Touch K V) (Node K V × α) where
  result := BTree.onChild node i fun child => (f child).result
  log := (node.children[i]?.map fun child => (f child).log).getD []

def splitChild (t : Nat) (parent : Node K V) (i : Nat) : Logged (Touch K V) (Node K V) :=
  .note (.splits parent i) (.lift (BTree.splitChild t parent i))

def insertNonFull (t : Nat) : Nat → Node K V → K → V → Logged (Touch K V) (Node K V × Bool)
  | 0, _, _, _ => .lift none
  | _ + 1, .null, _, _ => .lift none
  | fuel + 1, .node ks vs cs, key, value => .note (.enters (.node ks vs cs)) <|
    let i := lowerBound ks key
    if keyAt ks i key then
      .lift (some (.node ks vs cs, false))
    else if cs.isEmpty then .lift do
      let ks ← Vec.insertAt ks i key
      let vs ← Vec.insertAt vs i value
      return (.node ks vs cs, true)
    else do
      if ← .lift (isFull t (← .lift (Node.childSize cs i))) then
        let node ← splitChild t (.node ks vs cs) i
        let median ← .lift node.keys[i]?
        if median = key then
          return (node, false)
        else
          onChild node (if median < key then i + 1 else i) (insertNonFull t fuel · key value)
      else
        onChild (.node ks vs cs) i (insertNonFull t fuel · key value)

def growRoot (t : Nat) (root : Node K V) : Logged (Touch K V) (Node K V) := do
  if ← .lift (isFull t root.keys.length) then splitChild t (.node [] [] [root]) 0 else .lift (some root)

def insert (t : Nat) (tree : Tree K V) (key : K) (value : V) :
    Logged (Touch K V) (Tree K V × Bool) :=
  match tree.root with
  | .null => .lift (some (⟨.node [key] [value] [], 1⟩, true))
  | .node ks vs cs => do
    let root ← growRoot t (.node ks vs cs)
    let (root, inserted) ← insertNonFull t root.height root key value
    return (⟨root, if inserted then tree.size + 1 else tree.size⟩, inserted)

theorem insertNonFull_result (fuel : Nat) (node : Node K V) (key : K) (value : V) :
    (insertNonFull t fuel node key value).result = BTree.insertNonFull t fuel node key value := by
  induction fuel generalizing node with
  | zero => rfl
  | succ fuel ih =>
    cases node with
    | null => rfl
    | node ks vs cs =>
      simp only [insertNonFull, BTree.insertNonFull, onChild, splitChild, ih, Logged.result_bind,
        Logged.result_ite, Logged.result_lift, Logged.result_note, Logged.result_pure,
        Option.bind_eq_bind, Option.pure_def]

theorem insert_result (tree : Tree K V) (key : K) (value : V) :
    (insert t tree key value).result = tree.insert t key value := by
  obtain ⟨root, size⟩ := tree
  cases root with
  | null => rfl
  | node ks vs cs =>
    simp only [insert, Tree.insert, growRoot, Tree.growRoot, splitChild, insertNonFull_result,
      Logged.result_bind, Logged.result_ite, Logged.result_lift, Logged.result_note,
      Logged.result_pure, Option.bind_eq_bind, Option.pure_def]

/-- What an insertion does below a node `h` levels above the leaves. -/
structure Gentle (t h : Nat) (touches : List (Touch K V)) : Prop where
  allowed : ∀ touch ∈ touches, touch.Allowed t
  entries : touches.countP Touch.isEntry ≤ h + 1
  splits : touches.countP (!·.isEntry) ≤ h

namespace Gentle

variable {touches : List (Touch K V)} {node : Node K V}

omit [LinearOrder K] in
theorem none : Gentle t h ([] : List (Touch K V)) :=
  ⟨List.forall_mem_nil _, Nat.zero_le _, Nat.zero_le _⟩

omit [LinearOrder K] in
theorem alone (room : node.keys.length < 2 * t - 1) : Gentle t h [.enters node] := by
  refine ⟨?_, ?_, ?_⟩
  · intro touch there
    rw [List.mem_singleton.mp there]
    exact room
  · simp [Touch.isEntry]
  · simp [Touch.isEntry]

omit [LinearOrder K] in
theorem enter (below : Gentle t h touches) (room : node.keys.length < 2 * t - 1) :
    Gentle t (h + 1) (.enters node :: touches) := by
  have entries := below.entries
  have splits := below.splits
  refine ⟨List.forall_mem_cons.mpr ⟨room, below.allowed⟩, ?_, ?_⟩
  · rw [List.countP_cons_of_pos rfl]
    omega
  · rw [List.countP_cons_of_neg (by simp [Touch.isEntry])]
    omega

omit [LinearOrder K] in
theorem split {i : Nat} (below : Gentle t h touches) (room : node.keys.length < 2 * t - 1)
    (full : (Touch.splits node i).Allowed t) :
    Gentle t (h + 1) (.enters node :: .splits node i :: touches) := by
  have entries := below.entries
  have splits := below.splits
  refine ⟨List.forall_mem_cons.mpr ⟨room, List.forall_mem_cons.mpr ⟨full, below.allowed⟩⟩, ?_, ?_⟩
  · rw [List.countP_cons_of_pos rfl, List.countP_cons_of_neg (by simp [Touch.isEntry])]
    omega
  · rw [List.countP_cons_of_neg (by simp [Touch.isEntry]), List.countP_cons_of_pos rfl]
    omega

end Gentle

omit [LinearOrder K] in
theorem onChild_log {α : Type} (ctx : Context K V) (child : Node K V)
    (f : Node K V → Logged (Touch K V) (Node K V × α)) :
    (onChild (ctx.plug child) ctx.index f).log = (f child).log := by
  have there : (ctx.plug child).children[ctx.index]? = some child := by
    rw [children_plug, Vec.getElem?_split ctx.length_leftChildren]
  rw [onChild, there]
  rfl

theorem insertNonFull_plug (small : t < 2 ^ 30) {lo : Nat} {key : K} (fuel : Nat)
    (ctx : Context K V) (child : Node K V) (value : V)
    (position : lowerBound (ctx.plug child).keys key = ctx.index)
    (absent : keyAt (ctx.plug child).keys ctx.index key = false) (shaped : Shaped t lo h child) :
    insertNonFull t (fuel + 1) (ctx.plug child) key value =
      .note (.enters (ctx.plug child)) (if child.keys.length = 2 * t - 1 then do
        let node ← splitChild t (ctx.plug child) ctx.index
        let median ← .lift node.keys[ctx.index]?
        if median = key then
          return (node, false)
        else
          onChild node (if median < key then ctx.index + 1 else ctx.index)
            (insertNonFull t fuel · key value)
      else
        onChild (ctx.plug child) ctx.index (insertNonFull t fuel · key value)) := by
  have size := ctx.childSize_plug shaped
  have internal : (ctx.leftChildren ++ child :: ctx.rightChildren).isEmpty = false := by
    cases ctx.leftChildren <;> rfl
  rw [children_plug] at size
  simp only [plug, Node.keys] at position absent
  simp only [plug, insertNonFull, position, absent, Bool.false_eq_true, if_false, internal, size,
    Logged.lift_bind, isFull_of_small small, beq_iff_eq]

theorem insertNonFull_gentle (positive : 1 ≤ t) (small : t < 2 ^ 30) (key : K) (value : V) :
    ∀ (h fuel lo : Nat) (n : Node K V), h < fuel → Shaped t lo h n →
      n.keys.length < 2 * t - 1 → Ascending (entries n) →
      Gentle t h (insertNonFull t fuel n key value).log := by
  intro h
  induction h with
  | zero =>
    intro fuel lo n enough shaped room ascending
    obtain ⟨fuel, rfl⟩ : ∃ m, fuel = m + 1 := ⟨fuel - 1, by omega⟩
    obtain ⟨ks, vs, cs, rfl, _⟩ := shaped.exists_node
    obtain ⟨_, _, _, rfl⟩ := id shaped
    have single : (insertNonFull t (fuel + 1) (.node ks vs []) key value).log =
        [.enters (.node ks vs [])] := by
      simp only [insertNonFull, List.isEmpty_nil, if_true, Logged.note]
      split <;> rfl
    rw [single]
    exact .alone room
  | succ h ih =>
    intro fuel lo n enough shaped room ascending
    obtain ⟨fuel, rfl⟩ : ∃ m, fuel = m + 1 := ⟨fuel - 1, by omega⟩
    obtain ⟨ctx, child, rfl, position, below, route⟩ := shaped.route ascending key
    obtain ⟨lower, upper, fits, childShaped⟩ := ctx.shaped_plug.mp shaped
    rcases route with ⟨atKey, outer, v, right, rfl⟩ | ⟨absent, above⟩
    · have single : (insertNonFull t (fuel + 1) ((growRight outer key v right).plug child) key
          value).log = [.enters ((growRight outer key v right).plug child)] := by
        simp only [plug, Node.keys] at position atKey
        simp only [plug, insertNonFull, position, atKey, if_true, Logged.note]
        rfl
      rw [single]
      exact .alone room
    · have contents := ctx.entries_plug child
      have childAscending : Ascending (entries child) := by
        rw [contents] at ascending
        exact (ascending_append.mp (ascending_append.mp ascending).1).2.1
      rw [insertNonFull_plug small fuel ctx child value position absent childShaped, Logged.note]
      by_cases full : child.keys.length = 2 * t - 1
      · obtain ⟨left, k, v, right, splits, leftShaped, leftSize, rightShaped, rightSize, halves⟩ :=
          splitChild_spec ctx positive childShaped full
        rw [halves] at childAscending
        obtain ⟨leftAscending, rest, -⟩ := ascending_append.mp childAscending
        have rightAscending := (List.pairwise_cons.mp rest).2
        have allowed : (Touch.splits (ctx.plug child) ctx.index).Allowed t := by
          refine ⟨room, child, ?_, full⟩
          rw [children_plug, Vec.getElem?_split ctx.length_leftChildren]
        have made : splitChild t (ctx.plug child) ctx.index =
            .note (.splits (ctx.plug child) ctx.index) (.lift (some (ctx.pair left k v right))) := by
          rw [splitChild, splits]
        rw [if_pos full, made, Logged.log_bind rfl, keys_pair, Logged.lift_bind]
        refine Gentle.split ?_ room allowed
        by_cases same : k = key
        · rw [if_pos same]
          exact .none
        · rw [if_neg same]
          by_cases smaller : k < key
          · rw [if_pos smaller, ← plug_growLeft, ← ctx.index_growLeft left k v, onChild_log]
            exact ih fuel (t - 1) right (by omega) rightShaped (by omega) rightAscending
          · rw [if_neg smaller, ← plug_growRight, ← ctx.index_growRight k v right, onChild_log]
            exact ih fuel (t - 1) left (by omega) leftShaped (by omega) leftAscending
      · have childUpper := childShaped.upper
        rw [if_neg full, onChild_log]
        exact (ih fuel (t - 1) child (by omega) childShaped (by omega) childAscending).enter room

omit [LinearOrder K] in
/-- The split of a full root is the first thing an insertion does, and adds a level. -/
theorem growRoot_gentle (large : 2 ≤ t) (small : t < 2 ^ 30) {root : Node K V}
    (shaped : Shaped t 1 h root) :
    ∃ root' h', (growRoot t root).result = some root' ∧ Shaped t 1 h' root' ∧
      root'.keys.length < 2 * t - 1 ∧ entries root' = entries root ∧
      ((growRoot t root).log = [] ∧ h' = h ∨
        (growRoot t root).log = [.splits (.node [] [] [root]) 0] ∧ h' = h + 1 ∧
          root.keys.length = 2 * t - 1) := by
  have result : (growRoot t root).result = Tree.growRoot t root := by
    simp only [growRoot, Tree.growRoot, splitChild, Logged.result_bind, Logged.result_ite,
      Logged.result_lift, Logged.result_note, Option.bind_eq_bind]
  have logs : (growRoot t root).log =
      if root.keys.length = 2 * t - 1 then [.splits (.node [] [] [root]) 0] else [] := by
    simp only [growRoot, isFull_of_small small, Logged.lift_bind, beq_iff_eq]
    split <;> rfl
  obtain ⟨root', h', grows, shaped', room, same⟩ := Tree.growRoot_spec large small shaped
  refine ⟨root', h', result.trans grows, shaped', room, same, ?_⟩
  by_cases full : root.keys.length = 2 * t - 1
  · let ctx : Context K V := ⟨[], [], [], [], [], [], rfl, rfl, rfl, rfl⟩
    obtain ⟨left, k, v, right, splits, leftShaped, -⟩ :=
      splitChild_spec ctx (by omega) shaped full
    have made : root' = ctx.pair left k v right := by
      rw [Tree.growRoot_of_small small, if_pos full] at grows
      exact Option.some.inj (grows.symm.trans splits)
    have height : (ctx.pair left k v right).height = left.height + 1 := rfl
    rw [← made, shaped'.height_eq, leftShaped.height_eq] at height
    exact .inr ⟨by rw [logs, if_pos full], by omega, full⟩
  · rw [Tree.growRoot_of_small small, if_neg full] at grows
    cases grows
    have height := shaped.height_eq
    rw [shaped'.height_eq] at height
    exact .inl ⟨by rw [logs, if_neg full], by omega⟩

end Visits

/-- An insertion into a well-formed tree of a degree below `2 ^ 30` returns, and goes down once:
every node it enters has room for a key, a child is split only when it is full and its parent
has room for the median, and there is at most one entry and one split a level, of which a full
root adds one. -/
theorem insert_single_pass (large : 2 ≤ t) (small : t < 2 ^ 30) {tree : Tree K V}
    (wellFormed : WellFormed t tree) (key : K) (value : V) :
    ∃ answer touches, tree.insert t key value = some answer ∧
      Visits.insert t tree key value = ⟨some answer, touches⟩ ∧
      (∀ touch ∈ touches, touch.Allowed t) ∧
      touches.countP Touch.isEntry ≤ tree.height + 1 ∧
      touches.countP (!·.isEntry) ≤ tree.height + 1 := by
  have valid := wellFormed.valid
  obtain ⟨tree', inserts, -⟩ := tree.insert_spec large small valid key value
  have returns := (Visits.insert_result tree key value).trans inserts
  suffices ∃ touches, (Visits.insert t tree key value).log = touches ∧
      (∀ touch ∈ touches, touch.Allowed t) ∧ touches.countP Touch.isEntry ≤ tree.height + 1 ∧
      touches.countP (!·.isEntry) ≤ tree.height + 1 by
    obtain ⟨touches, logged, rest⟩ := this
    exact ⟨_, touches, inserts, by rw [← returns, ← logged], rest⟩
  obtain ⟨root, size⟩ := tree
  cases root with
  | null => exact ⟨[], rfl, List.forall_mem_nil _, Nat.zero_le _, Nat.zero_le _⟩
  | node ks vs cs =>
    obtain ⟨h, shaped⟩ := valid.shaped.resolve_left (by simp)
    have height : (⟨.node ks vs cs, size⟩ : Tree K V).height = h + 1 := shaped.height_eq
    obtain ⟨root', h', grows, shaped', room, same, log⟩ := Visits.growRoot_gentle large small shaped
    have ascending : Ascending (entries root') := by
      rw [same]
      exact valid.ascending
    have gentle := Visits.insertNonFull_gentle (by omega) small key value h' root'.height 1
      root' (by rw [shaped'.height_eq]; omega) shaped' room ascending
    have logged : (Visits.insert t ⟨.node ks vs cs, size⟩ key value).log =
        (Visits.growRoot t (.node ks vs cs)).log ++
          (Visits.insertNonFull t root'.height root' key value).log := by
      rw [Visits.insert, Logged.log_bind grows, Logged.log_bind_pure]
    refine ⟨_, logged, ?_⟩
    have entered := gentle.entries
    have split := gentle.splits
    rw [height]
    obtain ⟨unsplit, rfl⟩ | ⟨splits, rfl, full⟩ := log
    · rw [unsplit, List.nil_append]
      exact ⟨gentle.allowed, by omega, by omega⟩
    · rw [splits, List.singleton_append]
      refine ⟨List.forall_mem_cons.mpr ⟨⟨?_, _, rfl, full⟩, gentle.allowed⟩, ?_, ?_⟩
      · change 0 < 2 * t - 1
        omega
      · rw [List.countP_cons_of_neg (by simp [Touch.isEntry])]
        omega
      · rw [List.countP_cons_of_pos rfl]
        omega

/-- A full root is split, and then the half the key belongs to is entered. -/
theorem insert_single_pass_full_root :
    WellFormed 2 (⟨.node [1, 2, 3] [10, 20, 30] [], 3⟩ : Tree Nat Nat) ∧
      ∃ touches, (Visits.insert 2 (⟨.node [1, 2, 3] [10, 20, 30] [], 3⟩ : Tree Nat Nat) 4 40).log =
        touches ∧ touches.length = 3 ∧ ∀ touch ∈ touches, touch.Allowed 2 := by
  have wellFormed : WellFormed 2 (⟨.node [1, 2, 3] [10, 20, 30] [], 3⟩ : Tree Nat Nat) :=
    (valid_of_checkInvariants (by decide)).wellFormed
  obtain ⟨answer, touches, -, runs, allowed, -⟩ :=
    insert_single_pass le_rfl (by decide) wellFormed 4 40
  have logged : _ = touches := congrArg Logged.log runs
  refine ⟨wellFormed, touches, logged, ?_, allowed⟩
  rw [← logged]
  rfl

end CppDB.BTree
