import CppDB.Structures.BTree.Insert

/-! The read-only walks: the search loop, the in-order visit and the pruned range
visit all answer from the in-order list. -/
namespace CppDB.BTree
open Assoc Context

variable {K V : Type} {t lo h : Nat}

theorem inOrderChildren_eq_map (cs : List (Node K V)) : inOrderChildren cs = cs.map inOrder := by
  induction cs with
  | nil => rfl
  | cons c cs ih => rw [inOrderChildren, ih, List.map_cons]

theorem inOrderLoop_leaf {ks : List K} {vs : List V} (last : Option (List (K × V)))
    (below : List (Option (List (K × V)))) (values : vs.length = ks.length) :
    inOrderLoop true last below ks vs = some (ks.zip vs) := by
  induction ks generalizing vs below with
  | nil => simp [inOrderLoop]
  | cons k ks ih =>
    obtain ⟨v, vs, rfl⟩ := List.exists_cons_of_length_eq_add_one values
    simp only [List.length_cons, Nat.add_right_cancel_iff] at values
    simp only [inOrderLoop, if_true, Option.bind_eq_bind, Option.bind_some, ih _ values]
    rfl

theorem inOrderLoop_internal {ks : List K} {vs : List V} (c : List (K × V))
    {cs : List (List (K × V))} (values : vs.length = ks.length) (children : cs.length = ks.length) :
    inOrderLoop false ((c :: cs).map some).getLast?.join ((c :: cs).map some) ks vs =
      some (c ++ weave ks vs cs) := by
  induction ks generalizing vs c cs with
  | nil =>
    obtain rfl := List.length_eq_zero_iff.mp children
    simp [inOrderLoop, weave]
  | cons k ks ih =>
    obtain ⟨v, vs, rfl⟩ := List.exists_cons_of_length_eq_add_one values
    obtain ⟨c', cs, rfl⟩ := List.exists_cons_of_length_eq_add_one children
    simp only [List.length_cons, Nat.add_right_cancel_iff] at values children
    have rest := ih c' values children
    have sameLast : ((c :: c' :: cs).map some).getLast? = ((c' :: cs).map some).getLast? := by
      simp [List.getLast?_cons_cons]
    rw [sameLast]
    simp only [inOrderLoop, Bool.false_eq_true, if_false, List.map_cons, List.head?_cons,
      Option.join_some, Option.bind_eq_bind, Option.bind_some, List.tail_cons]
    simp only [List.map_cons] at rest
    rw [rest]
    simp [weave]

theorem inOrder_spec : ∀ (h lo : Nat) (n : Node K V), Shaped t lo h n → inOrder n = some (entries n) := by
  intro h
  induction h with
  | zero =>
    intro lo n shaped
    obtain ⟨ks, vs, cs, rfl, values, _⟩ := shaped.exists_node
    obtain ⟨_, _, _, rfl⟩ := shaped
    rw [inOrder, List.isEmpty_nil, inOrderLoop_leaf _ _ values, entries_leaf]
  | succ h ih =>
    intro lo n shaped
    obtain ⟨ks, vs, cs, rfl, values, _⟩ := shaped.exists_node
    obtain ⟨_, _, _, count, below⟩ := shaped
    obtain ⟨c, cs, rfl⟩ := List.exists_cons_of_length_eq_add_one count
    simp only [List.length_cons, Nat.add_right_cancel_iff] at count
    have visits : inOrderChildren (c :: cs) = (entries c :: cs.map entries).map some := by
      rw [inOrderChildren_eq_map, ← List.map_cons, List.map_map]
      exact List.map_congr_left fun d there => ih (t - 1) d (below d there)
    rw [inOrder, List.isEmpty_cons, visits,
      inOrderLoop_internal (entries c) values (by simpa using count), entries, entriesOf_eq_map]

section Order
variable [LinearOrder K] {key : K}

theorem searchChildren_eq_map (key : K) (cs : List (Node K V)) :
    searchChildren key cs = cs.map (searchNode key) := by
  induction cs with
  | nil => rfl
  | cons c cs ih => rw [searchChildren, ih, List.map_cons]

theorem find_at {value : V} {front back : List (K × V)} (below : ∀ e ∈ front, e.1 < key) :
    find key (front ++ (key, value) :: back) = some value := by
  have outside : find key front = none := by
    rw [find_eq_none, mem_keys]
    rintro ⟨v, there⟩
    exact lt_irrefl key (below _ there)
  simp [find_append, outside, find]

/-- The search loop answers with the value filed under the key. -/
theorem searchNode_spec (key : K) : ∀ (h lo : Nat) (n : Node K V), Shaped t lo h n →
    Ascending (entries n) → searchNode key n = some (find key (entries n)) := by
  intro h
  induction h with
  | zero =>
    intro lo n shaped ascending
    obtain ⟨ks, vs, cs, rfl, values, _⟩ := shaped.exists_node
    obtain ⟨_, _, _, rfl⟩ := shaped
    rw [entries_leaf] at ascending ⊢
    obtain ⟨ks₁, ks₂, vs₁, vs₂, keysEq, valuesEq, keyLength, valueLength, below, route⟩ :=
      leaf_route values ascending key
    have contents : ks.zip vs = ks₁.zip vs₁ ++ ks₂.zip vs₂ := by
      rw [keysEq, valuesEq, List.zip_append (by omega)]
    rcases route with ⟨atKey, ks₃, v, vs₃, rfl, rfl⟩ | ⟨atKey, above⟩
    · have found : vs[lowerBound ks key]? = some v := by
        conv_lhs => arg 1; rw [valuesEq]
        exact Vec.getElem?_split valueLength
      rw [contents, List.zip_cons_cons, find_at below]
      simp only [searchNode, atKey, if_true, found, Option.map_some]
    · rw [contents, ← List.append_nil (ks₁.zip vs₁), find_between below above]
      simp [searchNode, atKey, find]
  | succ h ih =>
    intro lo n shaped ascending
    obtain ⟨ctx, child, rfl, position, below, route⟩ := shaped.route ascending key
    obtain ⟨_, _, _, childShaped⟩ := ctx.shaped_plug.mp shaped
    have contents := ctx.entries_plug child
    rcases route with ⟨atKey, outer, v, right, rfl⟩ | ⟨absent, above⟩
    · have found : (outer.leftValues ++ v :: outer.rightValues)[outer.index]? = some v :=
        Vec.getElem?_split outer.length_leftValues
      rw [before_growRight] at below
      have ordered : Ascending (entries child ++ (key, v) :: entries right) := by
        rw [plug_growRight, entries_pair] at ascending
        exact (ascending_append.mp (ascending_append.mp ascending).1).2.1
      obtain ⟨_, _, crosses⟩ := ascending_append.mp ordered
      have below' : ∀ e ∈ outer.before ++ entries child, e.1 < key := by
        intro e there
        rcases List.mem_append.mp there with there | there
        · exact below e there
        · exact crosses e there (key, v) (by simp)
      have regroup : entries (outer.pair child key v right) =
          (outer.before ++ entries child) ++ (key, v) :: (entries right ++ outer.after) := by
        rw [entries_pair]
        simp
      rw [plug_growRight, index_growRight] at position atKey
      rw [plug_growRight, regroup, find_at below']
      simp only [pair, Node.keys] at position atKey
      simp only [pair, searchNode, position, atKey, if_true, found, Option.map_some]
    · have childAscending : Ascending (entries child) := by
        rw [contents] at ascending
        exact (ascending_append.mp (ascending_append.mp ascending).1).2.1
      have internal : (ctx.leftChildren ++ child :: ctx.rightChildren).isEmpty = false := by
        cases ctx.leftChildren <;> rfl
      have asked : (searchChildren key (ctx.leftChildren ++ child :: ctx.rightChildren))[ctx.index]? =
          some (searchNode key child) := by
        rw [searchChildren_eq_map, List.map_append, List.map_cons]
        exact Vec.getElem?_split (by simp [ctx.length_leftChildren])
      rw [contents, find_between below above, ← ih (t - 1) child childShaped childAscending]
      simp only [plug, Node.keys] at position absent
      simp only [plug, searchNode, position, absent, Bool.false_eq_true, if_false, internal, asked,
        Option.join_some]

theorem storeChildren_eq_map (key : K) (value : V) (cs : List (Node K V)) :
    storeChildren key value cs = cs.map (storeNode key value) := by
  induction cs with
  | nil => rfl
  | cons c cs ih => rw [storeChildren, ih, List.map_cons]

/-- A write through the pointer of a present key changes that pair and nothing else;
for an absent key the pointer is null. -/
theorem storeNode_spec (key : K) (value : V) : ∀ (h lo : Nat) (n : Node K V), Shaped t lo h n →
    Ascending (entries n) →
    (∃ n' front v back, storeNode key value n = some n' ∧ Shaped t lo h n' ∧
      entries n = front ++ (key, v) :: back ∧ entries n' = front ++ (key, value) :: back) ∨
    storeNode key value n = none ∧ key ∉ keys (entries n) := by
  intro h
  induction h with
  | zero =>
    intro lo n shaped ascending
    obtain ⟨ks, vs, cs, rfl, values, least, most⟩ := shaped.exists_node
    obtain ⟨_, _, _, rfl⟩ := shaped
    rw [entries_leaf] at ascending
    obtain ⟨ks₁, ks₂, vs₁, vs₂, keysEq, valuesEq, keyLength, valueLength, below, route⟩ :=
      leaf_route values ascending key
    have contents : ks.zip vs = ks₁.zip vs₁ ++ ks₂.zip vs₂ := by
      rw [keysEq, valuesEq, List.zip_append (by omega)]
    rcases route with ⟨atKey, ks₃, v, vs₃, rfl, rfl⟩ | ⟨atKey, above⟩
    · have sets : Vec.setAt vs (lowerBound ks key) value = some (vs₁ ++ value :: vs₃) := by
        conv_lhs => arg 1; rw [valuesEq]
        exact Vec.setAt_split valueLength
      refine .inl ⟨.node ks (vs₁ ++ value :: vs₃) [], ks₁.zip vs₁, v, ks₃.zip vs₃, ?_, ?_, ?_, ?_⟩
      · simp only [storeNode, atKey, if_true, sets, Option.map_some]
      · have same : (vs₁ ++ value :: vs₃).length = vs.length := by
          rw [valuesEq]
          simp
        exact ⟨same.trans values, least, most, rfl⟩
      · rw [entries_leaf, contents, List.zip_cons_cons]
      · rw [entries_leaf, keysEq, List.zip_append (by omega), List.zip_cons_cons]
    · have absent : find key (ks₁.zip vs₁ ++ [] ++ ks₂.zip vs₂) = none := find_between below above
      rw [List.append_nil, ← contents, find_eq_none] at absent
      refine .inr ⟨by simp [storeNode, atKey], ?_⟩
      rwa [entries_leaf]
  | succ h ih =>
    intro lo n shaped ascending
    obtain ⟨ctx, child, rfl, position, below, route⟩ := shaped.route ascending key
    obtain ⟨lower, upper, fits, childShaped⟩ := ctx.shaped_plug.mp shaped
    rcases route with ⟨atKey, outer, v, right, rfl⟩ | ⟨absent, above⟩
    · have sets : Vec.setAt (outer.leftValues ++ v :: outer.rightValues) outer.index value =
          some (outer.leftValues ++ value :: outer.rightValues) :=
        Vec.setAt_split outer.length_leftValues
      rw [plug_growRight, index_growRight] at position atKey
      refine .inl ⟨outer.pair child key value right, outer.before ++ entries child, v,
        entries right ++ outer.after, ?_, ?_, ?_, ?_⟩
      · simp only [pair, Node.keys] at position atKey
        simp only [plug_growRight, pair, storeNode, position, atKey, if_true, sets, Option.map_some]
      · rw [← plug_growRight, shaped_plug]
        rw [size_growRight] at lower upper ⊢
        rw [fits_growRight] at fits ⊢
        exact ⟨lower, upper, fits, childShaped⟩
      · rw [plug_growRight, entries_pair]
        simp
      · rw [entries_pair]
        simp
    · have contents := ctx.entries_plug child
      have childAscending : Ascending (entries child) := by
        rw [contents] at ascending
        exact (ascending_append.mp (ascending_append.mp ascending).1).2.1
      have internal : (ctx.leftChildren ++ child :: ctx.rightChildren).isEmpty = false := by
        cases ctx.leftChildren <;> rfl
      have asked : (storeChildren key value
          (ctx.leftChildren ++ child :: ctx.rightChildren))[ctx.index]? =
            some (storeNode key value child) := by
        rw [storeChildren_eq_map, List.map_append, List.map_cons]
        exact Vec.getElem?_split (by simp [ctx.length_leftChildren])
      simp only [plug, Node.keys] at position absent
      simp only [plug, storeNode, position, absent, Bool.false_eq_true, if_false, internal, asked,
        Option.join_some]
      rcases ih (t - 1) child childShaped childAscending with
        ⟨child', front, v, back, stores, shaped', before, after⟩ | ⟨null, missing⟩
      · refine .inl ⟨ctx.plug child', ctx.before ++ front, v, back ++ ctx.after, ?_, ?_, ?_, ?_⟩
        · simp only [stores, Option.bind_eq_bind, Option.bind_some,
            Vec.setAt_split ctx.length_leftChildren]
          rfl
        · exact ctx.shaped_plug.mpr ⟨lower, upper, fits, shaped'⟩
        · rw [← plug, contents, before]
          simp
        · rw [ctx.entries_plug, after]
          simp
      · refine .inr ⟨by simp only [null, Option.bind_eq_bind, Option.bind_none], ?_⟩
        rw [← plug, contents, ← find_eq_none, find_between below above, find_eq_none]
        exact missing

/-- The entries of an inclusive key range. -/
def within (lo hi : K) (l : List (K × V)) : List (K × V) :=
  l.filter fun e => lo ≤ e.1 ∧ e.1 ≤ hi

theorem within_append (lo hi : K) (l r : List (K × V)) :
    within lo hi (l ++ r) = within lo hi l ++ within lo hi r := by
  simp [within]

theorem within_below {lo hi : K} {l : List (K × V)} (below : ∀ e ∈ l, e.1 < lo) :
    within lo hi l = [] := by
  rw [within, List.filter_eq_nil_iff]
  intro e there
  simp [not_le.mpr (below e there)]

theorem within_above {lo hi : K} {l : List (K × V)} (above : ∀ e ∈ l, hi < e.1) :
    within lo hi l = [] := by
  rw [within, List.filter_eq_nil_iff]
  intro e there
  simp [not_le.mpr (above e there)]

theorem rangeChildren_eq_map (lo hi : K) (cs : List (Node K V)) :
    rangeChildren lo hi cs = cs.map (rangeVisit lo hi) := by
  induction cs with
  | nil => rfl
  | cons c cs ih => rw [rangeChildren, ih, List.map_cons]

theorem rangeLoop_leaf {lo hi : K} {ks : List K} {vs : List V} (below : List (Option (List (K × V))))
    (values : vs.length = ks.length) (ascending : Ascending (ks.zip vs))
    (from_lo : ∀ e ∈ ks.zip vs, lo ≤ e.1) :
    rangeLoop true hi below ks vs = some (within lo hi (ks.zip vs)) := by
  induction ks generalizing vs below with
  | nil => simp [rangeLoop, within]
  | cons k ks ih =>
    obtain ⟨v, vs, rfl⟩ := List.exists_cons_of_length_eq_add_one values
    simp only [List.length_cons, Nat.add_right_cancel_iff] at values
    rw [List.zip_cons_cons] at ascending from_lo ⊢
    obtain ⟨first, rest⟩ := List.pairwise_cons.mp ascending
    have here := from_lo (k, v) (by simp)
    by_cases past : hi < k
    · rw [within_above (fun e there => by
        rcases List.mem_cons.mp there with rfl | there
        · exact past
        · exact lt_trans past (first e there))]
      simp [rangeLoop, past]
    · have tail := ih below.tail values rest fun e there => from_lo e (by simp [there])
      have kept : within lo hi ((k, v) :: ks.zip vs) = (k, v) :: within lo hi (ks.zip vs) := by
        simp [within, here, not_lt.mp past]
      simp only [rangeLoop, if_true, Option.bind_eq_bind, Option.bind_some, if_neg past,
        Vec.popFront, tail, kept]
      rfl

/-- From a child on, the loop visits what the range holds of that child and of the
separators and children to its right, all of which lie above `lo`. -/
theorem rangeLoop_internal {lo hi : K} {ks : List K} {vs : List V} (c : List (K × V))
    {cs : List (List (K × V))} (values : vs.length = ks.length) (children : cs.length = ks.length)
    (ascending : Ascending (weave ks vs cs)) (from_lo : ∀ e ∈ weave ks vs cs, lo ≤ e.1) :
    rangeLoop false hi ((c :: cs).map fun l => some (within lo hi l)) ks vs =
      some (within lo hi c ++ within lo hi (weave ks vs cs)) := by
  induction ks generalizing vs c cs with
  | nil => simp [rangeLoop, weave, within]
  | cons k ks ih =>
    obtain ⟨v, vs, rfl⟩ := List.exists_cons_of_length_eq_add_one values
    obtain ⟨c', cs, rfl⟩ := List.exists_cons_of_length_eq_add_one children
    simp only [List.length_cons, Nat.add_right_cancel_iff] at values children
    rw [weave] at ascending from_lo ⊢
    obtain ⟨first, rest⟩ := List.pairwise_cons.mp ascending
    obtain ⟨_, tailAscending, _⟩ := ascending_append.mp rest
    have here := from_lo (k, v) (by simp)
    simp only [List.map_cons, rangeLoop, Bool.false_eq_true, if_false, List.head?_cons,
      Option.join_some, Option.bind_eq_bind, Option.bind_some, List.tail_cons]
    by_cases past : hi < k
    · rw [if_pos past, within_above (l := (k, v) :: _) fun e there => by
        rcases List.mem_cons.mp there with rfl | there
        · exact past
        · exact lt_trans past (first e there)]
      simp
    · have tail := ih c' values children tailAscending fun e there => from_lo e (by simp [there])
      rw [List.map_cons] at tail
      have kept : within lo hi ((k, v) :: (c' ++ weave ks vs cs)) =
          (k, v) :: (within lo hi c' ++ within lo hi (weave ks vs cs)) := by
        rw [← within_append]
        simp [within, here, not_lt.mp past]
      simp only [if_neg past, Vec.popFront, Option.bind_some, tail, kept]
      rfl

/-- The pruned visit is the in-order list filtered to the range, for any bounds. -/
theorem rangeVisit_spec (lo hi : K) : ∀ (h least : Nat) (n : Node K V), Shaped t least h n →
    Ascending (entries n) → rangeVisit lo hi n = some (within lo hi (entries n)) := by
  intro h
  induction h with
  | zero =>
    intro least n shaped ascending
    obtain ⟨ks, vs, cs, rfl, values, _⟩ := shaped.exists_node
    obtain ⟨_, _, _, rfl⟩ := shaped
    rw [entries_leaf] at ascending ⊢
    obtain ⟨ks₁, ks₂, rfl, length, below, above⟩ := lowerBound_cut ks lo
    obtain ⟨vs₁, vs₂, rfl, valueLength⟩ :=
      Vec.exists_cut (l := vs) (i := ks₁.length) (by rw [values, List.length_append]; omega)
    rw [List.zip_append valueLength.symm] at ascending ⊢
    obtain ⟨_, tail, _⟩ := ascending_append.mp ascending
    simp only [List.length_append] at values
    have from_lo : ∀ e ∈ ks₂.zip vs₂, lo ≤ e.1 := by
      cases ks₂ with
      | nil => simp
      | cons k ks₂ =>
        cases vs₂ with
        | nil => simp
        | cons v vs₂ =>
          have here := above k (by simp)
          intro e there
          rcases List.mem_cons.mp there with rfl | there
          · exact here
          · exact le_trans here (le_of_lt ((List.pairwise_cons.mp tail).1 e there))
    rw [within_append, within_below (zip_below below), List.nil_append, rangeVisit]
    simp only [List.isEmpty_nil, ← length, List.drop_left]
    rw [← valueLength, List.drop_left]
    exact rangeLoop_leaf _ (by omega) tail from_lo
  | succ h ih =>
    intro least n shaped ascending
    obtain ⟨ctx, child, rfl, position, below, route⟩ := shaped.route ascending lo
    obtain ⟨_, _, fits, childShaped⟩ := ctx.shaped_plug.mp shaped
    have ascending' := ascending
    rw [entries_plug] at ascending'
    obtain ⟨front, afterAscending, _⟩ := ascending_append.mp ascending'
    have childAscending := (ascending_append.mp front).2.1
    have from_lo : ∀ e ∈ ctx.after, lo ≤ e.1 := by
      rcases route with ⟨_, outer, v, right, rfl⟩ | ⟨_, above⟩
      · rw [after_growRight] at afterAscending ⊢
        intro e there
        rcases List.mem_cons.mp there with rfl | there
        · exact le_refl _
        · exact le_of_lt ((List.pairwise_cons.mp afterAscending).1 e there)
      · exact fun e there => le_of_lt (above e there)
    have rightVisits : ∀ c ∈ ctx.rightChildren,
        rangeVisit lo hi c = some (within lo hi (entries c)) := by
      intro c there
      refine ih (t - 1) c (fits.2 c there) ?_
      exact List.Pairwise.sublist (sublist_weave ctx.right_values
        (by simpa using ctx.right_children) (List.mem_map_of_mem there)) afterAscending
    have internal : (ctx.leftChildren ++ child :: ctx.rightChildren).isEmpty = false := by
      cases ctx.leftChildren <;> rfl
    have visits : (rangeChildren lo hi (ctx.leftChildren ++ child :: ctx.rightChildren)).drop
        ctx.index = (entries child :: ctx.rightChildren.map entries).map
          fun l => some (within lo hi l) := by
      rw [rangeChildren_eq_map, List.map_append, ← ctx.length_leftChildren,
        List.drop_left' (by simp), List.map_cons, List.map_cons, List.map_map,
        ih (t - 1) child childShaped childAscending]
      exact congrArg _ (List.map_congr_left rightVisits)
    have dropKeys : (ctx.leftKeys ++ ctx.rightKeys).drop ctx.index = ctx.rightKeys :=
      List.drop_left
    have dropValues : (ctx.leftValues ++ ctx.rightValues).drop ctx.index = ctx.rightValues :=
      List.drop_left' ctx.length_leftValues
    rw [entries_plug, within_append, within_append, within_below below, List.nil_append]
    simp only [plug, Node.keys] at position
    simp only [plug, rangeVisit, position, internal, visits, dropKeys, dropValues]
    exact rangeLoop_internal (entries child) ctx.right_values
      (by simpa using ctx.right_children) afterAscending from_lo

end Order

end CppDB.BTree
