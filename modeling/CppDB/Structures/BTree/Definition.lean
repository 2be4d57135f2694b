import CppDB.Structures.BTree.Invariant

/-! The B-tree definition, the class invariant and the answer of `checkInvariants` agree on
every tree of nodes, malformed ones included. What the definition alone then gives: the
pruned range scan is the filtered traversal, and the height is logarithmic. -/
namespace CppDB.BTree
open Assoc Node

variable {K V : Type} {t lo h : Nat}

/-- Induction over the nodes of a tree, with the hypothesis for every child. -/
theorem Node.induct {P : Node K V → Prop} (null : P .null)
    (node : ∀ ks vs cs, (∀ c ∈ cs, P c) → P (.node ks vs cs)) (n : Node K V) : P n := by
  refine @Node.rec K V P (fun cs => ∀ c ∈ cs, P c) null node ?_ ?_ n
  · intro c there
    cases there
  · intro c cs first rest d there
    rcases List.mem_cons.mp there with rfl | there
    · exact first
    · exact rest d there

theorem mem_leafDepthsOf {d d' : Nat} {cs : List (Node K V)} :
    d' ∈ leafDepthsOf d cs ↔ ∃ c ∈ cs, d' ∈ c.leafDepths d := by
  induction cs with
  | nil => simp [leafDepthsOf]
  | cons c cs ih => simp [leafDepthsOf, ih]

/-- The leaves of an internal node are those of its children. -/
theorem leafDepths_internal {d : Nat} {ks : List K} {vs : List V} {cs : List (Node K V)}
    (internal : cs ≠ []) : (Node.node ks vs cs).leafDepths d = leafDepthsOf (d + 1) cs := by
  cases cs with
  | nil => exact absurd rfl internal
  | cons c cs => rfl

section Order
variable [LinearOrder K]

/-! ### From the definition to the class invariant -/

/-- Separators around ascending children make one ascending list. -/
theorem ascending_of_separated {ks : List K} {vs : List V} {c : List (K × V)}
    {cs : List (List (K × V))} (values : vs.length = ks.length) (children : cs.length = ks.length)
    (ascending : ks.Pairwise (· < ·)) (each : ∀ l ∈ c :: cs, Ascending l)
    (separated : ∀ i l, (c :: cs)[i]? = some l → ∀ e ∈ l,
      (∀ j s, i = j + 1 → ks[j]? = some s → s < e.1) ∧ ∀ s, ks[i]? = some s → e.1 < s) :
    Ascending (c ++ weave ks vs cs) := by
  induction ks generalizing vs c cs with
  | nil =>
    have none : weave [] vs cs = [] := by simp [weave]
    rw [none, List.append_nil]
    exact each c List.mem_cons_self
  | cons k ks ih =>
    obtain ⟨v, vs, rfl⟩ := List.exists_cons_of_length_eq_add_one values
    obtain ⟨c', cs, rfl⟩ := List.exists_cons_of_length_eq_add_one children
    simp only [List.length_cons, Nat.add_right_cancel_iff] at values children
    obtain ⟨first, rest⟩ := List.pairwise_cons.mp ascending
    have tail : Ascending (c' ++ weave ks vs cs) := by
      apply ih values children rest
      · exact fun l there => each l (List.mem_cons_of_mem c there)
      · intro i l there e held
        obtain ⟨above, below⟩ := separated (i + 1) l there e held
        constructor
        · rintro j s rfl
          exact above (j + 1) s rfl
        · exact below
    -- everything behind the separator is above it: the next child by its own place,
    -- the rest because the next separator is
    have behind : ∀ e ∈ c' ++ weave ks vs cs, k < e.1 := by
      intro e there
      rcases List.mem_append.mp there with there | there
      · exact (separated 1 c' rfl e there).1 0 k rfl rfl
      · apply weave_above (ascending_append.mp tail).2.1 _ e there
        exact fun k' next => first k' (List.mem_of_mem_head? next)
    have front : ∀ e ∈ c, e.1 < k := fun e there => (separated 0 c rfl e there).2 k rfl
    rw [weave, ascending_append]
    constructor
    · exact each c List.mem_cons_self
    constructor
    · exact List.pairwise_cons.mpr ⟨behind, tail⟩
    · intro e there e' there'
      rcases List.mem_cons.mp there' with rfl | there'
      · exact front e there
      · exact lt_trans (front e there) (behind e' there')

theorem ascending_zip {ks : List K} {vs : List V} (values : vs.length = ks.length)
    (ascending : ks.Pairwise (· < ·)) : Ascending (ks.zip vs) := by
  have keys : (ks.zip vs).map Prod.fst = ks := List.map_fst_zip (by omega)
  rw [← keys, List.pairwise_map] at ascending
  exact ascending

/-- What the definition asks of the nodes of a subtree, the key count of its top and the
depths of its leaves apart. -/
structure Regular (t : Nat) (n : Node K V) : Prop where
  parallel : ∀ m ∈ n.subnodes, m.values.length = m.keys.length
  occupancy : ∀ m ∈ subnodesOf n.children, t - 1 ≤ m.keys.length ∧ m.keys.length ≤ 2 * t - 1
  ascending : ∀ m ∈ n.subnodes, m.keys.Pairwise (· < ·)
  separated : ∀ m ∈ n.subnodes, ∀ i c, m.children[i]? = some c → ∀ k ∈ c.allKeys,
    (∀ j s, i = j + 1 → m.keys[j]? = some s → s < k) ∧ ∀ s, m.keys[i]? = some s → k < s
  child_count : ∀ m ∈ n.subnodes, m.children ≠ [] →
    m.children.length = m.keys.length + 1 ∧ ∀ c ∈ m.children, c ≠ .null

omit [LinearOrder K] in
theorem self_mem_subnodes (n : Node K V) : n ∈ n.subnodes := by
  cases n <;> simp [Node.subnodes]

theorem Regular.child {ks : List K} {vs : List V} {cs : List (Node K V)}
    (regular : Regular t (.node ks vs cs)) {c : Node K V} (there : c ∈ cs) : Regular t c := by
  have below : ∀ m ∈ c.subnodes, m ∈ (Node.node ks vs cs).subnodes := by
    intro m inside
    exact List.mem_cons_of_mem _ (mem_subnodesOf.mpr ⟨c, there, inside⟩)
  constructor
  · exact fun m inside => regular.parallel m (below m inside)
  · intro m inside
    apply regular.occupancy
    apply mem_subnodesOf.mpr
    refine ⟨c, there, ?_⟩
    cases c with
    | null => cases inside
    | node ks' vs' cs' => exact List.mem_cons_of_mem _ inside
  · exact fun m inside => regular.ascending m (below m inside)
  · exact fun m inside => regular.separated m (below m inside)
  · exact fun m inside => regular.child_count m (below m inside)

/-- By induction over the nodes: the common leaf depth `deepest` fixes the height, the
separators the order. -/
theorem Regular.shaped (n : Node K V) : ∀ {lo d deepest : Nat}, n ≠ .null → Regular t n →
    lo ≤ n.keys.length → n.keys.length ≤ 2 * t - 1 → (∀ d' ∈ n.leafDepths d, d' = deepest) →
    ∃ h, deepest = d + h ∧ Shaped t lo h n ∧ Ascending (entries n) := by
  induction n using Node.induct with
  | null =>
    intro lo d deepest some
    exact absurd rfl some
  | node ks vs cs ih =>
    intro lo d deepest _ regular least most uniform
    have here := self_mem_subnodes (Node.node ks vs cs)
    have values := regular.parallel _ here
    have ascending := regular.ascending _ here
    cases cs with
    | nil =>
      refine ⟨0, (uniform d (by simp [Node.leafDepths])).symm, ⟨values, least, most, rfl⟩, ?_⟩
      rw [entries_leaf]
      exact ascending_zip values ascending
    | cons c cs =>
      obtain ⟨count, nonnull⟩ := regular.child_count _ here (List.cons_ne_nil c cs)
      have children : ∀ e ∈ c :: cs, Shaped t (t - 1) (deepest - (d + 1)) e ∧
          Ascending (entries e) ∧ d + 1 ≤ deepest := by
        intro e there
        have bounds := regular.occupancy e
          (mem_subnodesOf.mpr ⟨e, there, self_mem_subnodes e⟩)
        obtain ⟨h, depth, shaped, ascends⟩ := ih e there (nonnull e there) (regular.child there)
          bounds.1 bounds.2 (fun d' leaf => uniform d' (by
            rw [leafDepths_internal (List.cons_ne_nil c cs)]
            exact mem_leafDepthsOf.mpr ⟨e, there, leaf⟩))
        have height : deepest - (d + 1) = h := by omega
        rw [height]
        exact ⟨shaped, ascends, by omega⟩
      obtain ⟨-, -, deeper⟩ := children c List.mem_cons_self
      refine ⟨deepest - (d + 1) + 1, by omega, ?_, ?_⟩
      · exact ⟨values, least, most, count, fun e there => (children e there).1⟩
      · rw [entries, entriesOf_eq_map]
        apply ascending_of_separated values (by simpa [Node.children, Node.keys] using count) ascending
        · rw [← List.map_cons, List.forall_mem_map]
          exact fun e there => (children e there).2.1
        · intro i l found e held
          rw [← List.map_cons, List.getElem?_map, Option.map_eq_some_iff] at found
          obtain ⟨child, found, rfl⟩ := found
          apply regular.separated _ here i child found
          have shaped := (children child (List.mem_of_getElem? found)).1
          exact shaped.allKeys_perm.mem_iff.mpr (List.mem_map_of_mem held)

/-- The definition gives the class invariant. -/
theorem WellFormed.valid {tree : Tree K V} (wellFormed : WellFormed t tree) : tree.Valid t := by
  obtain ⟨root, size⟩ := tree
  cases root with
  | null => exact ⟨.inl rfl, List.Pairwise.nil, wellFormed.counted⟩
  | node ks vs cs =>
    have regular : Regular t (Node.node ks vs cs) := by
      constructor
      · exact wellFormed.parallel
      · exact wellFormed.occupancy
      · exact wellFormed.ascending
      · exact wellFormed.separated
      · exact wellFormed.child_count
    have some : Node.node ks vs cs ≠ .null := by
      rintro ⟨⟩
    obtain ⟨least, most⟩ := wellFormed.root_occupancy some
    obtain ⟨deepest, uniform⟩ := wellFormed.uniform
    obtain ⟨h, -, shaped, ascending⟩ := regular.shaped _ some least most uniform
    refine ⟨.inr ⟨h, shaped⟩, ascending, ?_⟩
    rw [Tree.contents, ← length_keys, ← shaped.allKeys_perm.length_eq]
    exact wellFormed.counted

/-! ### From the checker to the class invariant -/

theorem ascending_of_checkKeys {lower upper : Option K} {ks : List K}
    (passes : checkKeys lower upper ks = true) :
    ks.Pairwise (· < ·) ∧ ∀ k ∈ ks, AboveLimit lower k ∧ BelowLimit upper k := by
  induction ks with
  | nil => exact ⟨List.Pairwise.nil, fun k there => by cases there⟩
  | cons k ks ih =>
    simp only [checkKeys, Bool.and_eq_true] at passes
    obtain ⟨⟨⟨above, below⟩, next⟩, rest⟩ := passes
    obtain ⟨ascending, limits⟩ := ih rest
    constructor
    · rw [List.pairwise_cons]
      refine ⟨?_, ascending⟩
      cases ks with
      | nil =>
        intro k' there
        cases there
      | cons k' ks =>
        have step : k < k' := by simpa using next
        intro k'' there
        rcases List.mem_cons.mp there with rfl | there
        · exact step
        · exact lt_trans step ((List.pairwise_cons.mp ascending).1 k'' there)
    · intro k' there
      rcases List.mem_cons.mp there with rfl | there
      · constructor
        · rintro l ⟨⟩
          simpa using above
        · rintro u ⟨⟩
          simpa using below
      · exact limits k' there

/-- What the answer `true` has established about the entries `l` of a subtree of height `h`,
or of the children of one node: `ld` and `ld'` are `leafDepth` before and after. -/
structure Accepted (lower upper : Option K) (l : List (K × V)) (h : Nat) (depth ld ld' : Int) :
    Prop where
  ascending : Ascending l
  limited : Limited lower upper l
  settles : ld' = depth + h
  agrees : ld = -1 ∨ ld = ld'

/-- The leaves of two neighbouring children are at one depth: the second child met the depth
that the first had set. -/
theorem Accepted.height_eq {lower lower' upper upper' : Option K} {l l' : List (K × V)}
    {h h' : Nat} {depth ld ld₁ ld' : Int} (below : 0 ≤ depth)
    (first : Accepted lower upper l h depth ld ld₁)
    (second : Accepted lower' upper' l' h' depth ld₁ ld') : h = h' := by
  have settled := first.settles
  have settled' := second.settles
  rcases second.agrees with unset | agrees
  · omega
  · omega

/-- A child, the key behind it and what comes after the key. -/
theorem Accepted.join {lower upper : Option K} {l l' : List (K × V)} {k : K} {v : V}
    {depth ld ld₁ ld' : Int} (first : Accepted lower (some k) l h depth ld ld₁)
    (rest : Accepted (some k) upper l' h depth ld₁ ld') (above : AboveLimit lower k)
    (under : BelowLimit upper k) : Accepted lower upper (l ++ (k, v) :: l') h depth ld ld' := by
  have left : ∀ e ∈ l, e.1 < k := fun e inside => (first.limited e inside).2 k rfl
  have right : ∀ e ∈ l', k < e.1 := fun e inside => (rest.limited e inside).1 k rfl
  constructor
  · rw [ascending_append]
    refine ⟨first.ascending, List.pairwise_cons.mpr ⟨right, rest.ascending⟩, ?_⟩
    intro e inside e' inside'
    rcases List.mem_cons.mp inside' with rfl | inside'
    · exact left e inside
    · exact lt_trans (left e inside) (right e' inside')
  · intro e inside
    rcases List.mem_append.mp inside with inside | inside
    · exact ⟨(first.limited e inside).1, fun u is => lt_trans (left e inside) (under u is)⟩
    rcases List.mem_cons.mp inside with rfl | inside
    · exact ⟨above, under⟩
    · exact ⟨fun l is => lt_trans (above l is) (right e inside), (rest.limited e inside).2⟩
  · exact rest.settles
  · have settled := first.settles
    have settled' := rest.settles
    rcases first.agrees with unset | agrees
    · exact .inl unset
    · right
      omega

omit [LinearOrder K] in
theorem andThen_accepts {α : Type} {first : Option (Option α)} {rest : α → Option (Option α)}
    {result : α} (passes : andThen first rest = some (some result)) :
    ∃ acc, first = some (some acc) ∧ rest acc = some (some result) := by
  obtain _ | _ | acc := first
  · cases passes
  · cases passes
  · exact ⟨acc, rfl, passes⟩

omit [LinearOrder K] in
/-- A test that ends the call with `false` did not. -/
theorem reject_eq_accept {α : Type} {c : Prop} [Decidable c] {rest : Option (Option α)}
    {result : α} : (if c then some none else rest) = some (some result) ↔
      ¬ c ∧ rest = some (some result) := by
  split <;> simp [*]

/-- The tests of one node that passed, and what is left of the call. -/
theorem checkNode_cases {isRoot : Bool} {depth ld : Int} {lower upper : Option K} {counted : Nat}
    {ks : List K} {vs : List V} {cs : List (Node K V)} {result : Int × Nat}
    (passes : checkNode t depth isRoot lower upper (.node ks vs cs) (ld, counted) =
      some (some result)) :
    vs.length = ks.length ∧ (if isRoot then 1 else t - 1) ≤ ks.length ∧
      ks.length ≤ 2 * t - 1 ∧ checkKeys lower upper ks = true ∧
      (cs = [] ∧ (ld = -1 ∨ ld = depth) ∧ result = (depth, counted + ks.length) ∨
        cs.length = ks.length + 1 ∧
          checkChildren t (depth + 1) lower upper ks cs (ld, counted + ks.length) =
            some (some result)) := by
  simp only [checkNode, reject_eq_accept, Option.bind_eq_bind, Option.bind_eq_some_iff, not_not]
    at passes
  obtain ⟨values, notUnder, most, computed, notOver, notEmpty, keysPass, rest⟩ := passes
  obtain rfl := maxKeys_exact computed
  refine ⟨values, ?_, by omega, by simpa using keysPass, ?_⟩
  · cases isRoot with
    | true =>
      have some : ks ≠ [] := by simpa using notEmpty
      exact List.length_pos_of_ne_nil some
    | false => simpa using notUnder
  · cases cs with
    | nil =>
      simp only [List.isEmpty_nil, if_true, Option.some.injEq, Option.ite_none_right_eq_some]
        at rest
      obtain ⟨settled, rfl⟩ := rest
      rw [settled]
      refine .inl ⟨rfl, ?_, rfl⟩
      split at settled
      case isTrue unset => exact .inl unset
      case isFalse => exact .inr settled
    | cons c cs =>
      simp only [List.isEmpty_cons, Bool.false_eq_true, if_false, reject_eq_accept, not_not] at rest
      exact .inr rest

/-- The child loop, from the child at hand on. The separators `ks` still to come ascend
within the limits; the first child fixes the height of all. -/
theorem checkChildren_accepts {depth : Int} (below : 0 ≤ depth) {upper : Option K} {ks : List K} :
    ∀ {vs : List V} {c : Node K V} {cs : List (Node K V)} {lower : Option K} {ld ld' : Int}
      {counted counted' : Nat},
      (∀ d ∈ c :: cs, ∀ {lower upper : Option K} {ld ld' : Int} {counted counted' : Nat},
        checkNode t depth false lower upper d (ld, counted) = some (some (ld', counted')) →
        ∃ h, Shaped t (t - 1) h d ∧ Accepted lower upper (entries d) h depth ld ld' ∧
          counted' = counted + (entries d).length) →
      vs.length = ks.length → cs.length = ks.length → ks.Pairwise (· < ·) →
      (∀ k ∈ ks, AboveLimit lower k ∧ BelowLimit upper k) →
      checkChildren t depth lower upper ks (c :: cs) (ld, counted) = some (some (ld', counted')) →
      ∃ h, (∀ d ∈ c :: cs, Shaped t (t - 1) h d) ∧
        Accepted lower upper (entries c ++ weave ks vs (cs.map entries)) h depth ld ld' ∧
        counted' + ks.length = counted + (entries c ++ weave ks vs (cs.map entries)).length := by
  induction ks with
  | nil =>
    intro vs c cs lower ld ld' counted counted' accepts values children _ _ passes
    obtain rfl := List.length_eq_zero_iff.mp children
    rw [checkChildren] at passes
    obtain ⟨_, passes, last⟩ := andThen_accepts passes
    cases last
    obtain ⟨h, shaped, accepted, total⟩ := accepts c List.mem_cons_self passes
    simp only [weave, List.append_nil, List.mem_singleton, forall_eq, List.length_nil, Nat.add_zero]
    exact ⟨h, shaped, accepted, total⟩
  | cons k ks ih =>
    intro vs c cs lower ld ld' counted counted' accepts values children ascending limits passes
    obtain ⟨v, vs, rfl⟩ := List.exists_cons_of_length_eq_add_one values
    obtain ⟨c', cs, rfl⟩ := List.exists_cons_of_length_eq_add_one children
    simp only [List.length_cons, Nat.add_right_cancel_iff] at values children
    obtain ⟨first, rest⟩ := List.pairwise_cons.mp ascending
    obtain ⟨above, under⟩ := limits k List.mem_cons_self
    rw [checkChildren] at passes
    obtain ⟨⟨ld₁, counted₁⟩, passesFirst, passesRest⟩ := andThen_accepts passes
    obtain ⟨h, shaped, here, total⟩ := accepts c List.mem_cons_self passesFirst
    have behind : ∀ k' ∈ ks, AboveLimit (some k) k' ∧ BelowLimit upper k' := by
      intro k' there
      constructor
      · rintro l ⟨⟩
        exact first k' there
      · exact (limits k' (List.mem_cons_of_mem k there)).2
    obtain ⟨h', shapes, there, total'⟩ :=
      ih (fun d inside => accepts d (List.mem_cons_of_mem c inside)) values children rest behind
        passesRest
    obtain rfl := here.height_eq below there
    rw [List.map_cons, weave]
    refine ⟨h, List.forall_mem_cons.mpr ⟨shaped, shapes⟩, here.join there above under, ?_⟩
    · simp only [List.length_append, List.length_cons] at total' ⊢
      omega

/-- By induction over the nodes: a subtree that the checker accepts is shaped, with its
entries ascending inside the limits, and all of them were counted. -/
theorem checkNode_accepts (n : Node K V) : ∀ {isRoot : Bool} {depth ld ld' : Int}
    {lower upper : Option K} {counted counted' : Nat}, 0 ≤ depth →
    checkNode t depth isRoot lower upper n (ld, counted) = some (some (ld', counted')) →
    ∃ h, Shaped t (if isRoot then 1 else t - 1) h n ∧
      Accepted lower upper (entries n) h depth ld ld' ∧
      counted' = counted + (entries n).length := by
  induction n using Node.induct with
  | null =>
    intro isRoot depth ld ld' lower upper counted counted' _ passes
    simp [checkNode] at passes
  | node ks vs cs ih =>
    intro isRoot depth ld ld' lower upper counted counted' nonneg passes
    obtain ⟨values, least, most, keysPass, rest⟩ := checkNode_cases passes
    obtain ⟨ascending, limits⟩ := ascending_of_checkKeys keysPass
    rcases rest with ⟨rfl, agrees, settles⟩ | ⟨count, passesChildren⟩
    · obtain ⟨rfl, rfl⟩ := Prod.mk.inj settles
      refine ⟨0, ⟨values, least, most, rfl⟩, ?_, ?_⟩
      · rw [entries_leaf]
        constructor
        · exact ascending_zip values ascending
        · exact fun e there => limits e.1 (List.of_mem_zip there).1
        · simp
        · exact agrees
      · rw [entries_leaf, List.length_zip, values, Nat.min_self]
    · obtain ⟨c, cs, rfl⟩ := List.exists_cons_of_length_eq_add_one count
      have children : cs.length = ks.length := by simpa using count
      have deeper : 0 ≤ depth + 1 := by omega
      obtain ⟨h, shapes, accepted, total⟩ := checkChildren_accepts deeper
        (fun d there lower upper ld ld' counted counted' passes => by
          simpa using ih d there deeper passes) values children ascending limits passesChildren
      refine ⟨h + 1, ⟨values, least, most, count, shapes⟩, ?_, ?_⟩
      · rw [entries, entriesOf_eq_map]
        have settles := accepted.settles
        refine ⟨accepted.ascending, accepted.limited, ?_, accepted.agrees⟩
        push_cast
        omega
      · rw [entries, entriesOf_eq_map]
        omega

theorem valid_of_checkInvariants {tree : Tree K V} (passes : tree.checkInvariants t = some true) :
    tree.Valid t := by
  obtain ⟨root, size⟩ := tree
  cases root with
  | null =>
    have none : size = 0 := by simpa [Tree.checkInvariants] using passes
    exact ⟨.inl rfl, List.Pairwise.nil, none⟩
  | node ks vs cs =>
    simp only [Tree.checkInvariants, Option.map_eq_some_iff, Option.any_eq_true] at passes
    obtain ⟨_, answer, ⟨ld, counted⟩, rfl, same⟩ := passes
    obtain ⟨h, shaped, accepted, total⟩ := checkNode_accepts _ (le_refl 0) answer
    refine ⟨.inr ⟨h, by simpa using shaped⟩, accepted.ascending, ?_⟩
    have sized : counted = size := by simpa using same
    change size = (entries (.node ks vs cs)).length
    omega

/-! ### The checker always answers -/

/-- On a well-formed tree the pruned scan visits, each once and in ascending order, the
entries of the full traversal whose key lies between the bounds, whichever way round these
are. Both walks end without an access out of bounds. -/
theorem forEachRange_exact {tree : Tree K V} (wellFormed : WellFormed t tree) (lo hi : K) :
    ∃ all visits, tree.forEachInOrder = some all ∧ tree.forEachRange lo hi = some visits ∧
      (keys all).Perm tree.root.allKeys ∧ visits = within lo hi all ∧
      (∀ e, e ∈ visits ↔ e ∈ all ∧ lo ≤ e.1 ∧ e.1 ≤ hi) ∧ Ascending visits ∧
      (hi < lo → visits = []) := by
  have valid := wellFormed.valid
  refine ⟨tree.contents, within lo hi tree.contents, tree.forEachInOrder_spec valid,
    tree.forEachRange_spec valid lo hi, ?_, rfl, ?_, ?_, ?_⟩
  · rcases valid.shaped with null | ⟨h, shaped⟩
    · simp [Tree.contents, null, entries, allKeys, Node.subnodes, Node.keys]
    · exact shaped.allKeys_perm.symm
  · intro e
    simp [within]
  · exact valid.ascending.filter _
  · intro crossed
    rw [within, List.filter_eq_nil_iff]
    intro e _ inside
    simp only [decide_eq_true_eq] at inside
    exact absurd (lt_of_lt_of_le crossed inside.1) (not_lt.mpr inside.2)

/-- Three leaves under two separators, scanned between bounds that are not keys. -/
theorem forEachRange_exact_sample :
    ∃ visits, (⟨.node [3, 6] [30, 60] [.node [1, 2] [10, 20] [], .node [4, 5] [40, 50] [],
      .node [7] [70] []], 7⟩ : Tree Nat Nat).forEachRange 2 6 = some visits ∧
      keys visits = [2, 3, 4, 5, 6] := by
  have wellFormed : WellFormed 2 (⟨.node [3, 6] [30, 60] [.node [1, 2] [10, 20] [],
      .node [4, 5] [40, 50] [], .node [7] [70] []], 7⟩ : Tree Nat Nat) :=
    (valid_of_checkInvariants (by decide)).wellFormed
  obtain ⟨all, visits, traversal, scan, -, is, -⟩ := forEachRange_exact wellFormed 2 6
  refine ⟨visits, scan, ?_⟩
  rw [is]
  cases traversal
  decide

/-! ### Height -/

omit [LinearOrder K] in
/-- Separators and children of at least `m - 1` entries each. -/
theorem le_length_weave {m : Nat} {ks : List K} {vs : List V} {c : List (K × V)}
    {cs : List (List (K × V))} (values : vs.length = ks.length) (children : cs.length = ks.length)
    (each : ∀ l ∈ c :: cs, m ≤ l.length + 1) :
    (ks.length + 1) * m ≤ (c ++ weave ks vs cs).length + 1 := by
  induction ks generalizing vs c cs with
  | nil =>
    have here := each c List.mem_cons_self
    simp only [List.length_nil, List.length_append]
    omega
  | cons k ks ih =>
    obtain ⟨v, vs, rfl⟩ := List.exists_cons_of_length_eq_add_one values
    obtain ⟨c', cs, rfl⟩ := List.exists_cons_of_length_eq_add_one children
    simp only [List.length_cons, Nat.add_right_cancel_iff] at values children
    have rest := ih values children fun l there => each l (List.mem_cons_of_mem c there)
    have here := each c List.mem_cons_self
    calc ((k :: ks).length + 1) * m = m + (ks.length + 1) * m := by
          rw [List.length_cons]
          ring
      _ ≤ (c.length + 1) + ((c' ++ weave ks vs cs).length + 1) := Nat.add_le_add here rest
      _ = (c ++ weave (k :: ks) (v :: vs) (c' :: cs)).length + 1 := by
          simp only [weave, List.length_append, List.length_cons]
          omega

omit [LinearOrder K] in
/-- A subtree of `h + 1` levels holds at least `(lo + 1) * t ^ h - 1` entries. -/
theorem Shaped.le_length (large : 1 ≤ t) : ∀ {h lo : Nat} {n : Node K V}, Shaped t lo h n →
    (lo + 1) * t ^ h ≤ (entries n).length + 1 := by
  intro h
  induction h with
  | zero =>
    intro lo n shaped
    obtain ⟨ks, vs, cs, rfl, values, least, _⟩ := shaped.exists_node
    obtain ⟨_, _, _, rfl⟩ := shaped
    rw [entries_leaf, List.length_zip, values, Nat.min_self, pow_zero]
    omega
  | succ h ih =>
    intro lo n shaped
    obtain ⟨ks, vs, cs, rfl, values, least, _⟩ := shaped.exists_node
    obtain ⟨_, _, _, count, below⟩ := shaped
    obtain ⟨c, cs, rfl⟩ := List.exists_cons_of_length_eq_add_one count
    have children : (cs.map entries).length = ks.length := by simpa using count
    rw [entries, entriesOf_eq_map]
    calc (lo + 1) * t ^ (h + 1) ≤ (ks.length + 1) * t ^ (h + 1) := by gcongr
      _ ≤ (entries c ++ weave ks vs (cs.map entries)).length + 1 := by
          apply le_length_weave values children
          rw [← List.map_cons, List.forall_mem_map]
          intro d there
          have held := ih (below d there)
          rwa [Nat.sub_add_cancel large, ← pow_succ'] at held

theorem Tree.Valid.le_size (large : 1 ≤ t) {tree : Tree K V} (valid : tree.Valid t)
    (some : 1 ≤ tree.contents.length) : 2 * t ^ (tree.height - 1) - 1 ≤ tree.contents.length := by
  rcases valid.shaped with null | ⟨h, shaped⟩
  · simp [Tree.contents, null, entries] at some
  · have bound := shaped.le_length large
    rw [Tree.height, shaped.height_eq, Tree.contents, Nat.add_sub_cancel]
    omega

/-- Whatever calls were made on a tree of a degree below `2 ^ 30`, a tree that holds `n ≥ 1`
entries has a height `h` with `2 * t ^ (h - 1) - 1 ≤ n`. -/
theorem btree_height_logarithmic (large : 2 ≤ t) (small : t < 2 ^ 30) (ops : List (Tree.Op K V)) :
    ∃ tree answers, Machine.run (Tree.step t) Tree.empty ops = some (tree, answers) ∧
      tree.size = tree.contents.length ∧
      (1 ≤ tree.size → 2 * t ^ (tree.height - 1) - 1 ≤ tree.size) := by
  obtain ⟨tree, answers, runs, valid⟩ :=
    Machine.run_invariant (step_valid large small) ops Tree.valid_empty
  refine ⟨tree, answers, runs, valid.counted, ?_⟩
  rw [valid.counted]
  exact valid.le_size (by omega)

/-- Four keys at degree 2 split the root: height 2 and `2 * 2 - 1 ≤ 4`. -/
theorem btree_height_logarithmic_split :
    ∃ tree answers, Machine.run (Tree.step 2) (Tree.empty : Tree Nat Nat)
        [.insert 1 10, .insert 2 20, .insert 2 21, .insert 3 30, .insert 4 40] =
          some (tree, answers) ∧
      tree.height = 2 ∧ tree.size = 4 ∧ 2 * 2 ^ (tree.height - 1) - 1 ≤ tree.size := by
  obtain ⟨tree, answers, runs, -, bound⟩ := btree_height_logarithmic (t := 2) (by decide) (by decide)
    ([.insert 1 10, .insert 2 20, .insert 2 21, .insert 3 30, .insert 4 40] :
      List (Tree.Op Nat Nat))
  refine ⟨tree, answers, runs, ?_⟩
  cases runs
  exact ⟨rfl, rfl, bound (by decide)⟩

/-- At a degree of `2 ^ 30` no tree is reached by two insertions, also not by a refused one
behind a removal of an absent key. -/
theorem duplicate_insert_overflows :
    Machine.run (Tree.step (2 ^ 30)) (Tree.empty : Tree Nat Nat) [.insert 1 10, .remove 2] =
        some (⟨.node [1] [10] [], 1⟩, [.flag true, .flag false]) ∧
      Machine.run (Tree.step (2 ^ 30)) (Tree.empty : Tree Nat Nat)
        [.insert 1 10, .remove 2, .insert 1 11] = none :=
  ⟨rfl, rfl⟩

end Order
end CppDB.BTree
