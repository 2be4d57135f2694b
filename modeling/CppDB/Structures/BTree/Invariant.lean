import CppDB.Lib.Machine
import CppDB.Structures.BTree.Balanced

/-! The representation invariant in the words of the B-tree definition, node by node,
and the debug checker `checkInvariants`. Both follow from the class invariant that
every run keeps. -/
namespace CppDB.BTree
open Assoc Context

variable {K V : Type} {t lo h : Nat}

namespace Node

mutual

/-- A node and everything below it, null pointers included. -/
def subnodes : Node K V → List (Node K V)
  | .null => [.null]
  | .node ks vs cs => .node ks vs cs :: subnodesOf cs

def subnodesOf : List (Node K V) → List (Node K V)
  | [] => []
  | c :: cs => subnodes c ++ subnodesOf cs

end

/-- The keys of a whole subtree, node by node. -/
def allKeys (n : Node K V) : List K := n.subnodes.flatMap keys

mutual

/-- The depth of every leaf, the given node being at depth `d`. -/
def leafDepths (d : Nat) : Node K V → List Nat
  | .null => []
  | .node _ _ [] => [d]
  | .node _ _ (c :: cs) => leafDepths (d + 1) c ++ leafDepthsOf (d + 1) cs

def leafDepthsOf (d : Nat) : List (Node K V) → List Nat
  | [] => []
  | c :: cs => leafDepths d c ++ leafDepthsOf d cs

end

end Node

open Node

/-- The B-tree definition, over the nodes of the tree as they stand. -/
structure WellFormed [LinearOrder K] (t : Nat) (tree : Tree K V) : Prop where
  parallel : ∀ n ∈ tree.root.subnodes, n.values.length = n.keys.length
  occupancy : ∀ n ∈ subnodesOf tree.root.children, t - 1 ≤ n.keys.length ∧ n.keys.length ≤ 2 * t - 1
  root_occupancy : tree.root ≠ .null → 1 ≤ tree.root.keys.length ∧ tree.root.keys.length ≤ 2 * t - 1
  ascending : ∀ n ∈ tree.root.subnodes, n.keys.Pairwise (· < ·)
  /-- Every key below child `i` is above separator `i - 1` and below separator `i`. -/
  separated : ∀ n ∈ tree.root.subnodes, ∀ i c, n.children[i]? = some c → ∀ k ∈ c.allKeys,
    (∀ j s, i = j + 1 → n.keys[j]? = some s → s < k) ∧ ∀ s, n.keys[i]? = some s → k < s
  child_count : ∀ n ∈ tree.root.subnodes, n.children ≠ [] →
    n.children.length = n.keys.length + 1 ∧ ∀ c ∈ n.children, c ≠ .null
  uniform : ∃ d, ∀ d' ∈ tree.root.leafDepths 0, d' = d
  counted : tree.size = tree.root.allKeys.length

theorem mem_subnodesOf {cs : List (Node K V)} {n : Node K V} :
    n ∈ subnodesOf cs ↔ ∃ c ∈ cs, n ∈ c.subnodes := by
  induction cs with
  | nil => simp [subnodesOf]
  | cons c cs ih => simp [subnodesOf, ih]

/-- Every node below a shaped one is shaped, and its entries are a part of the
whole list in the same order. -/
theorem Shaped.subnodes : ∀ {h lo : Nat} {n : Node K V}, Shaped t lo h n →
    ∀ m ∈ n.subnodes, ∃ lo' h', Shaped t lo' h' m ∧ (m = n ∨ lo' = t - 1) ∧
      (entries m).Sublist (entries n) := by
  intro h
  induction h with
  | zero =>
    intro lo n shaped m there
    obtain ⟨ks, vs, cs, rfl, _⟩ := shaped.exists_node
    obtain ⟨_, _, _, rfl⟩ := id shaped
    simp only [Node.subnodes, subnodesOf, List.mem_singleton] at there
    subst there
    exact ⟨lo, 0, shaped, .inl rfl, List.Sublist.refl _⟩
  | succ h ih =>
    intro lo n shaped m there
    obtain ⟨ks, vs, cs, rfl, values, _⟩ := shaped.exists_node
    have shaped' := shaped
    obtain ⟨_, _, _, count, below⟩ := shaped
    simp only [Node.subnodes, List.mem_cons, mem_subnodesOf] at there
    rcases there with rfl | ⟨c, child, there⟩
    · exact ⟨lo, h + 1, shaped', .inl rfl, List.Sublist.refl _⟩
    · obtain ⟨lo', h', shapedBelow, bound, sub⟩ := ih (below c child) m there
      obtain ⟨d, ds, rfl⟩ := List.exists_cons_of_length_eq_add_one count
      simp only [List.length_cons, Nat.add_right_cancel_iff] at count
      have within : (entries c).Sublist (entries (.node ks vs (d :: ds))) := by
        rw [entries, entriesOf_eq_map]
        rcases List.mem_cons.mp child with rfl | child
        · exact List.sublist_append_left _ _
        · exact (sublist_weave values (by simpa using count)
            (List.mem_map_of_mem child)).trans (List.sublist_append_right _ _)
      refine ⟨t - 1, h', shapedBelow.retune ?_, .inr rfl, sub.trans within⟩
      rcases bound with rfl | rfl
      · exact (below m child).lower
      · exact shapedBelow.lower

theorem keys_weave_perm {ks : List K} {vs : List V} {cs : List (List (K × V))}
    (values : vs.length = ks.length) (children : cs.length = ks.length) :
    (Assoc.keys (weave ks vs cs)).Perm (ks ++ cs.flatMap Assoc.keys) := by
  induction ks generalizing vs cs with
  | nil =>
    obtain rfl := List.length_eq_zero_iff.mp children
    simp [weave]
  | cons k ks ih =>
    obtain ⟨v, vs, rfl⟩ := List.exists_cons_of_length_eq_add_one values
    obtain ⟨c, cs, rfl⟩ := List.exists_cons_of_length_eq_add_one children
    simp only [List.length_cons, Nat.add_right_cancel_iff] at values children
    simp only [weave, keys_cons, keys_append, List.cons_append, List.flatMap_cons]
    refine List.Perm.cons k ?_
    calc (Assoc.keys c ++ Assoc.keys (weave ks vs cs)).Perm
          (Assoc.keys c ++ (ks ++ cs.flatMap Assoc.keys)) := (ih values children).append_left _
      _ |>.Perm (ks ++ (Assoc.keys c ++ cs.flatMap Assoc.keys)) := by
        rw [← List.append_assoc, ← List.append_assoc]
        exact List.perm_append_comm.append_right _

theorem allKeys_node (ks : List K) (vs : List V) (cs : List (Node K V)) :
    (Node.node ks vs cs).allKeys = ks ++ cs.flatMap allKeys := by
  have below : (subnodesOf cs).flatMap Node.keys = cs.flatMap allKeys := by
    induction cs with
    | nil => rfl
    | cons c cs ih => simp only [subnodesOf, List.flatMap_append, ih, List.flatMap_cons, allKeys]
  rw [allKeys, Node.subnodes, List.flatMap_cons, below, Node.keys]

/-- The keys counted node by node are those of the in-order list. -/
theorem Shaped.allKeys_perm : ∀ {h lo : Nat} {n : Node K V}, Shaped t lo h n →
    n.allKeys.Perm (Assoc.keys (entries n)) := by
  intro h
  induction h with
  | zero =>
    intro lo n shaped
    obtain ⟨ks, vs, cs, rfl, values, _⟩ := shaped.exists_node
    obtain ⟨_, _, _, rfl⟩ := shaped
    rw [allKeys_node, entries_leaf, Assoc.keys, List.map_fst_zip (by omega)]
    simp
  | succ h ih =>
    intro lo n shaped
    obtain ⟨ks, vs, cs, rfl, values, _⟩ := shaped.exists_node
    obtain ⟨_, _, _, count, below⟩ := shaped
    obtain ⟨c, cs, rfl⟩ := List.exists_cons_of_length_eq_add_one count
    simp only [List.length_cons, Nat.add_right_cancel_iff] at count
    have rest : (cs.flatMap allKeys).Perm ((cs.map entries).flatMap Assoc.keys) := by
      rw [List.flatMap_map]
      exact List.Perm.flatMap_left cs fun d there => ih (below d (by simp [there]))
    have woven : (Assoc.keys (weave ks vs (cs.map entries))).Perm _ :=
      keys_weave_perm values (by simpa using count)
    rw [allKeys_node, entries, entriesOf_eq_map, keys_append, List.flatMap_cons]
    refine List.Perm.trans ?_ (((ih (below c (by simp))).append woven.symm))
    rw [← List.append_assoc]
    refine List.Perm.trans ((List.perm_append_comm.append_right _)) ?_
    rw [List.append_assoc]
    exact (rest.append_left _).append_left _

theorem keys_sublist_weave {ks : List K} {vs : List V} {cs : List (List (K × V))}
    (values : vs.length = ks.length) (children : cs.length = ks.length) :
    ks.Sublist (Assoc.keys (weave ks vs cs)) := by
  induction ks generalizing vs cs with
  | nil => exact List.nil_sublist _
  | cons k ks ih =>
    obtain ⟨v, vs, rfl⟩ := List.exists_cons_of_length_eq_add_one values
    obtain ⟨c, cs, rfl⟩ := List.exists_cons_of_length_eq_add_one children
    simp only [List.length_cons, Nat.add_right_cancel_iff] at values children
    simp only [weave, keys_cons, keys_append]
    exact ((ih values children).trans (List.sublist_append_right _ _)).cons_cons k

theorem Shaped.keys_sublist {n : Node K V} (shaped : Shaped t lo h n) :
    n.keys.Sublist (Assoc.keys (entries n)) := by
  obtain ⟨ks, vs, cs, rfl, values, _⟩ := shaped.exists_node
  cases h with
  | zero =>
    obtain ⟨_, _, _, rfl⟩ := shaped
    rw [entries_leaf, Assoc.keys, List.map_fst_zip (by omega)]
    exact List.Sublist.refl _
  | succ h =>
    obtain ⟨_, _, _, count, _⟩ := shaped
    obtain ⟨c, cs, rfl⟩ := List.exists_cons_of_length_eq_add_one count
    simp only [List.length_cons, Nat.add_right_cancel_iff] at count
    rw [entries, entriesOf_eq_map, keys_append]
    exact (keys_sublist_weave values (by simpa using count)).trans (List.sublist_append_right _ _)

theorem Shaped.leafDepths : ∀ {h lo : Nat} {n : Node K V}, Shaped t lo h n →
    ∀ d, ∀ d' ∈ n.leafDepths d, d' = d + h := by
  intro h
  induction h with
  | zero =>
    intro lo n shaped d d' there
    obtain ⟨ks, vs, cs, rfl, _⟩ := shaped.exists_node
    obtain ⟨_, _, _, rfl⟩ := shaped
    simpa [Node.leafDepths] using there
  | succ h ih =>
    intro lo n shaped d d' there
    obtain ⟨ks, vs, cs, rfl, _⟩ := shaped.exists_node
    obtain ⟨_, _, _, count, below⟩ := shaped
    have children : ∀ ds : List (Node K V), (∀ c ∈ ds, Shaped t (t - 1) h c) →
        ∀ d' ∈ leafDepthsOf (d + 1) ds, d' = d + 1 + h := by
      intro ds
      induction ds with
      | nil => simp [leafDepthsOf]
      | cons c ds ihs =>
        intro shapes d' there
        simp only [leafDepthsOf, List.mem_append] at there
        rcases there with there | there
        · exact ih (shapes c (by simp)) (d + 1) d' there
        · exact ihs (fun c' h' => shapes c' (by simp [h'])) d' there
    cases cs with
    | nil => simp at count
    | cons c cs =>
      have unfolded : d' ∈ leafDepthsOf (d + 1) (c :: cs) := by
        simpa [Node.leafDepths, leafDepthsOf] using there
      rw [children (c :: cs) below d' unfolded]
      omega

section Order
variable [LinearOrder K]

theorem ascending_keys {l : List (K × V)} (ascending : Ascending l) :
    (Assoc.keys l).Pairwise (· < ·) := by
  rw [Assoc.keys, List.pairwise_map]
  exact ascending

/-- In an ascending shaped node the separators bracket every key of a child. -/
theorem Shaped.separated {n : Node K V} (shaped : Shaped t lo h n)
    (ascending : Ascending (entries n)) {i : Nat} {c : Node K V} (child : n.children[i]? = some c)
    {k : K} (there : k ∈ c.allKeys) :
    (∀ j s, i = j + 1 → n.keys[j]? = some s → s < k) ∧ ∀ s, n.keys[i]? = some s → k < s := by
  cases h with
  | zero =>
    obtain ⟨ks, vs, cs, rfl, _⟩ := shaped.exists_node
    obtain ⟨_, _, _, rfl⟩ := shaped
    simp [Node.children] at child
  | succ h =>
    have inside : i ≤ n.keys.length := by
      obtain ⟨ks, vs, cs, rfl, _⟩ := shaped.exists_node
      obtain ⟨_, _, _, count, _⟩ := shaped
      obtain ⟨bound, _⟩ := List.getElem?_eq_some_iff.mp child
      simp only [Node.children] at bound
      simp only [Node.keys]
      omega
    obtain ⟨ctx, c', rfl, rfl⟩ := shaped.exists_plug inside
    rw [children_plug, Vec.getElem?_split ctx.length_leftChildren] at child
    obtain rfl := Option.some.inj child
    obtain ⟨_, _, _, childShaped⟩ := ctx.shaped_plug.mp shaped
    obtain ⟨v, held⟩ := mem_keys.mp (childShaped.allKeys_perm.mem_iff.mp there)
    rw [entries_plug] at ascending
    obtain ⟨front, _, rightOf⟩ := ascending_append.mp ascending
    obtain ⟨_, _, leftOf⟩ := ascending_append.mp front
    constructor
    · intro j s position separator
      have bound : j < ctx.leftKeys.length := by
        simp only [Context.index] at position
        omega
      simp only [plug, Node.keys, List.getElem?_append_left bound] at separator
      obtain ⟨w, found⟩ : ∃ w, (s, w) ∈ ctx.before :=
        mem_weaveLeft_of_key ctx.left_values (by simpa using ctx.left_children)
          (List.mem_of_getElem? separator)
      exact leftOf _ found _ held
    · intro s separator
      have head : ctx.rightKeys.head? = some s := by
        have found : (ctx.leftKeys ++ ctx.rightKeys)[ctx.leftKeys.length]? = some s := separator
        rwa [List.getElem?_append_right (le_refl _), Nat.sub_self, ← List.head?_eq_getElem?] at found
      obtain ⟨outer, s', w, right, rfl⟩ := ctx.exists_growRight (by
        intro none
        simp [none] at head)
      obtain rfl : s' = s := Option.some.inj head
      exact rightOf (k, v) (by simp [held]) (s', w) (by simp [after_growRight])

/-- The class invariant gives the definition. -/
theorem Tree.Valid.wellFormed {tree : Tree K V} (valid : tree.Valid t) : WellFormed t tree := by
  obtain ⟨root, size⟩ := tree
  have counted := valid.counted
  have ascending := valid.ascending
  simp only [Tree.contents] at ascending counted
  cases root with
  | null =>
    refine ⟨?_, ?_, fun some => absurd rfl some, ?_, ?_, ?_, ⟨0, ?_⟩, counted⟩ <;>
      simp [Node.subnodes, Node.values, Node.keys, Node.children, subnodesOf, Node.leafDepths]
  | node ks vs cs =>
    obtain ⟨h, shaped⟩ : ∃ h, Shaped t 1 h (.node ks vs cs) := valid.shaped.resolve_left (by simp)
    have each : ∀ n ∈ (Node.node ks vs cs).subnodes, ∃ lo' h', Shaped t lo' h' n ∧
        Ascending (entries n) := by
      intro n there
      obtain ⟨lo', h', shaped', _, sub⟩ := shaped.subnodes n there
      exact ⟨lo', h', shaped', ascending.sublist sub⟩
    refine ⟨?_, ?_, fun _ => ⟨shaped.lower, shaped.upper⟩, ?_, ?_, ?_, ⟨h, ?_⟩, ?_⟩
    · intro n there
      obtain ⟨_, _, shaped', _⟩ := each n there
      obtain ⟨ks', vs', cs', rfl, values, _⟩ := shaped'.exists_node
      exact values
    · intro n there
      obtain ⟨c, child, there⟩ := mem_subnodesOf.mp there
      cases h with
      | zero =>
        obtain ⟨_, _, _, rfl⟩ := shaped
        simp [Node.children] at child
      | succ h =>
        have childShaped := shaped.2.2.2.2 c child
        obtain ⟨lo', h', shaped', bound, _⟩ := childShaped.subnodes n there
        refine ⟨?_, shaped'.upper⟩
        rcases bound with rfl | rfl
        · exact childShaped.lower
        · exact shaped'.lower
    · intro n there
      obtain ⟨_, _, shaped', ascending'⟩ := each n there
      exact (ascending_keys ascending').sublist shaped'.keys_sublist
    · intro n there i c child k below
      obtain ⟨_, _, shaped', ascending'⟩ := each n there
      exact shaped'.separated ascending' child below
    · intro n there internal
      obtain ⟨_, h', shaped', _⟩ := each n there
      obtain ⟨ks', vs', cs', rfl, _⟩ := shaped'.exists_node
      cases h' with
      | zero => exact absurd shaped'.2.2.2 internal
      | succ h' =>
        refine ⟨shaped'.2.2.2.1, fun c child null => ?_⟩
        subst null
        obtain ⟨_, _, _, impossible, _⟩ := (shaped'.2.2.2.2 _ child).exists_node
        cases impossible
    · intro d' there
      simpa using shaped.leafDepths 0 d' there
    · rw [shaped.allKeys_perm.length_eq, length_keys]
      exact counted

/-- A limit holds vacuously where it is absent. -/
def AboveLimit (lower : Option K) (k : K) : Prop := ∀ l ∈ lower, l < k

def BelowLimit (upper : Option K) (k : K) : Prop := ∀ u ∈ upper, k < u

theorem checkKeys_of_ascending {lower upper : Option K} {ks : List K}
    (ascending : ks.Pairwise (· < ·)) (above : ∀ k ∈ ks, AboveLimit lower k)
    (below : ∀ k ∈ ks, BelowLimit upper k) : checkKeys lower upper ks = true := by
  induction ks with
  | nil => rfl
  | cons k ks ih =>
    obtain ⟨first, rest⟩ := List.pairwise_cons.mp ascending
    have tail := ih rest (fun k' there => above k' (by simp [there]))
      fun k' there => below k' (by simp [there])
    have aboveHere := above k (by simp)
    have belowHere := below k (by simp)
    simp only [checkKeys, Bool.and_eq_true, tail, and_true]
    refine ⟨⟨?_, ?_⟩, ?_⟩
    · cases lower with
      | none => rfl
      | some l => simpa using aboveHere l rfl
    · cases upper with
      | none => rfl
      | some u => simpa using belowHere u rfl
    · cases ks with
      | nil => rfl
      | cons k' ks => simpa using first k' (by simp)

/-- Entries between the limits of their place in the tree. -/
def Limited (lower upper : Option K) (l : List (K × V)) : Prop :=
  ∀ e ∈ l, AboveLimit lower e.1 ∧ BelowLimit upper e.1

theorem checkKeys_of_shaped {lower upper : Option K} {n : Node K V} (shaped : Shaped t lo h n)
    (ascending : Ascending (entries n)) (limited : Limited lower upper (entries n)) :
    checkKeys lower upper n.keys = true := by
  have held : ∀ k ∈ n.keys, ∃ v, (k, v) ∈ entries n :=
    fun k there => mem_keys.mp (shaped.keys_sublist.subset there)
  refine checkKeys_of_ascending ((ascending_keys ascending).sublist shaped.keys_sublist) ?_ ?_
  · intro k there
    obtain ⟨v, there⟩ := held k there
    exact (limited _ there).1
  · intro k there
    obtain ⟨v, there⟩ := held k there
    exact (limited _ there).2

omit [LinearOrder K] in
theorem andThen_accepted {α : Type} (acc : α) (rest : α → Option (Option α)) :
    andThen (some (some acc)) rest = rest acc := rfl

/-- What the checker does on one subtree: accept it, settle the common leaf depth
and add the number of its entries. -/
def Passes (t h : Nat) (depth leafDepth : Int) (c : Node K V) : Prop :=
  ∀ lower upper ld counted, Shaped t (t - 1) h c → Ascending (entries c) →
    Limited lower upper (entries c) → (ld = -1 ∨ ld = leafDepth) →
    checkNode t depth false lower upper c (ld, counted) =
      some (some (leafDepth, counted + (entries c).length))

/-- The child loop hands each child the separators around it as its limits. -/
theorem checkChildren_spec {depth leafDepth : Int} {upper : Option K} {ks : List K} :
    ∀ (vs : List V) (c : Node K V) (cs : List (Node K V)) (lower : Option K) (ld : Int)
      (counted : Nat), (∀ d ∈ c :: cs, Passes t h depth leafDepth d) →
      (∀ d ∈ c :: cs, Shaped t (t - 1) h d) →
      vs.length = ks.length → cs.length = ks.length → (ld = -1 ∨ ld = leafDepth) →
      Ascending (entries c ++ weave ks vs (cs.map entries)) →
      Limited lower upper (entries c ++ weave ks vs (cs.map entries)) →
      ∃ counted', checkChildren t depth lower upper ks (c :: cs) (ld, counted) =
          some (some (leafDepth, counted')) ∧
        counted' + ks.length = counted + (entries c ++ weave ks vs (cs.map entries)).length := by
  induction ks with
  | nil =>
    intro vs c cs lower ld counted passes shapes values children start ascending limited
    obtain rfl := List.length_eq_zero_iff.mp children
    simp only [weave, List.append_nil] at ascending limited ⊢
    refine ⟨counted + (entries c).length, ?_, by simp⟩
    simp only [checkChildren, passes c (by simp) lower upper ld counted (shapes c (by simp))
      ascending limited start, andThen_accepted]
  | cons k ks ih =>
    intro vs c cs lower ld counted passes shapes values children start ascending limited
    obtain ⟨v, vs, rfl⟩ := List.exists_cons_of_length_eq_add_one values
    obtain ⟨c', cs, rfl⟩ := List.exists_cons_of_length_eq_add_one children
    simp only [List.length_cons, Nat.add_right_cancel_iff] at values children
    rw [List.map_cons, weave] at ascending limited ⊢
    obtain ⟨childAscending, rest, crosses⟩ := ascending_append.mp ascending
    obtain ⟨first, tailAscending⟩ := List.pairwise_cons.mp rest
    have here := passes c (by simp) lower (some k) ld counted (shapes c (by simp)) childAscending
      (fun e there => ⟨(limited e (by simp [there])).1, fun u is => by
        obtain rfl := Option.some.inj is
        exact crosses e there (k, v) (by simp)⟩) start
    obtain ⟨counted', computes, total⟩ := ih vs c' cs (some k) leafDepth
      (counted + (entries c).length) (fun d there => passes d (by simp [List.mem_cons.mp there]))
      (fun d there => shapes d (by simp [List.mem_cons.mp there])) values children (.inr rfl)
      tailAscending (fun e there => ⟨fun l is => by
        obtain rfl := Option.some.inj is
        exact first e there, (limited e (by simp [List.mem_append.mp there])).2⟩)
    refine ⟨counted', ?_, ?_⟩
    · simp only [checkChildren, here, andThen_accepted, computes]
    · simp only [List.length_append, List.length_cons] at total ⊢
      omega

/-- The local tests of `checkNode` pass; what is left is the leaf or the child loop. -/
theorem checkNode_node (small : t < 2 ^ 30) {isRoot : Bool} {depth ld : Int}
    {lower upper : Option K} {counted : Nat} {ks : List K} {vs : List V} {cs : List (Node K V)}
    (values : vs.length = ks.length) (least : (if isRoot then 1 else t - 1) ≤ ks.length)
    (most : ks.length ≤ 2 * t - 1) (keysPass : checkKeys lower upper ks = true) :
    checkNode t depth isRoot lower upper (.node ks vs cs) (ld, counted) =
      if cs.isEmpty then
        some (if (if ld = -1 then depth else ld) = depth then
          some (if ld = -1 then depth else ld, counted + ks.length) else none)
      else if cs.length ≠ ks.length + 1 then some none
      else checkChildren t (depth + 1) lower upper ks cs (ld, counted + ks.length) := by
  have notOver : ¬ 2 * t - 1 < ks.length := by omega
  have notUnder : (!isRoot && decide (ks.length < t - 1)) = false := by
    cases isRoot with
    | true => rfl
    | false =>
      simp only [Bool.false_eq_true, if_false] at least
      simp
      omega
  have notEmpty : (isRoot && ks.length == 0) = false := by
    cases isRoot with
    | false => rfl
    | true =>
      simp only [if_true] at least
      simp
      rintro rfl
      simp at least
  simp [checkNode, maxKeys_of_small small, values, notUnder, notOver, notEmpty, keysPass]

/-- The checker accepts every shaped subtree whose entries ascend within the limits. -/
theorem checkNode_spec (small : t < 2 ^ 30) : ∀ (h : Nat) (isRoot : Bool) (depth : Int) (n : Node K V)
    (lower upper : Option K) (ld : Int) (counted : Nat), 0 ≤ depth →
    Shaped t (if isRoot then 1 else t - 1) h n → Ascending (entries n) →
    Limited lower upper (entries n) → (ld = -1 ∨ ld = depth + h) →
    checkNode t depth isRoot lower upper n (ld, counted) =
      some (some (depth + h, counted + (entries n).length)) := by
  intro h
  induction h with
  | zero =>
    intro isRoot depth n lower upper ld counted nonneg shaped ascending limited start
    have keysPass := checkKeys_of_shaped shaped ascending limited
    obtain ⟨ks, vs, cs, rfl, values, least, most⟩ := shaped.exists_node
    obtain ⟨_, _, _, rfl⟩ := shaped
    have settles : (if ld = -1 then depth else ld) = depth := by
      rcases start with rfl | rfl <;> simp
    rw [checkNode_node small values least most keysPass, List.isEmpty_nil, if_pos rfl, settles,
      if_pos rfl, entries_leaf, List.length_zip, values, Nat.min_self]
    simp
  | succ h ih =>
    intro isRoot depth n lower upper ld counted nonneg shaped ascending limited start
    have keysPass := checkKeys_of_shaped shaped ascending limited
    obtain ⟨ks, vs, cs, rfl, values, least, most⟩ := shaped.exists_node
    obtain ⟨_, _, _, count, below⟩ := shaped
    have depths : depth + 1 + (h : Int) = depth + ((h + 1 : Nat) : Int) := by
      push_cast
      omega
    obtain ⟨c, cs, rfl⟩ := List.exists_cons_of_length_eq_add_one count
    rw [checkNode_node small values least most keysPass, List.isEmpty_cons,
      if_neg Bool.false_ne_true, if_neg (not_not.mpr count)]
    simp only [List.length_cons, Nat.add_right_cancel_iff] at count
    rw [entries, entriesOf_eq_map] at ascending limited ⊢
    have passes : ∀ d ∈ c :: cs, Passes t h (depth + 1) (depth + ((h + 1 : Nat) : Int)) d := by
      intro d _ lower upper ld counted shaped' ascending' limited' start'
      have := ih false (depth + 1) d lower upper ld counted (by omega) (by simpa using shaped')
        ascending' limited' (by rwa [depths])
      rwa [depths] at this
    obtain ⟨counted', computes, total⟩ := checkChildren_spec vs c cs lower ld (counted + ks.length)
      passes below values count start ascending limited
    rw [computes]
    refine congrArg (fun counted => some (some (_, counted))) ?_
    omega

theorem Tree.Valid.checkInvariants (small : t < 2 ^ 30) {tree : Tree K V} (valid : tree.Valid t) :
    tree.checkInvariants t = some true := by
  obtain ⟨root, size⟩ := tree
  have counted := valid.counted
  cases root with
  | null => simpa [Tree.checkInvariants, Tree.contents, entries] using counted
  | node ks vs cs =>
    obtain ⟨h, shaped⟩ : ∃ h, Shaped t 1 h (.node ks vs cs) := valid.shaped.resolve_left (by simp)
    have accepted := checkNode_spec small h true 0 (.node ks vs cs) none none (-1) 0 (le_refl _)
      (by simpa using shaped) valid.ascending (fun e _ => ⟨by simp [AboveLimit],
        by simp [BelowLimit]⟩) (.inl rfl)
    simp only [Tree.checkInvariants, accepted, Nat.zero_add, Option.map_some, Option.any_some,
      Option.some.injEq, beq_iff_eq]
    exact counted.symm

theorem step_valid (large : 2 ≤ t) (small : t < 2 ^ 30) (tree : Tree K V) (op : Tree.Op K V)
    (valid : tree.Valid t) :
    ∃ tree' r, Tree.step t tree op = some (tree', r) ∧ tree'.Valid t := by
  cases op with
  | insert key value =>
    obtain ⟨tree', inserts, valid', _⟩ := tree.insert_spec large small valid key value
    exact ⟨tree', _, by rw [Tree.step, inserts, Option.map_some], valid'⟩
  | remove key =>
    obtain ⟨tree', removes, valid', _⟩ := tree.remove_spec large valid key
    exact ⟨tree', _, by rw [Tree.step, removes, Option.map_some], valid'⟩
  | search key => exact ⟨tree, _, by rw [Tree.step, tree.search_spec valid, Option.map_some], valid⟩
  | contains key =>
    exact ⟨tree, _, by rw [Tree.step, tree.contains_spec valid, Option.map_some], valid⟩
  | size => exact ⟨tree, _, rfl, valid⟩
  | forEachInOrder =>
    exact ⟨tree, _, by rw [Tree.step, tree.forEachInOrder_spec valid, Option.map_some], valid⟩

/-- For a degree below `2 ^ 30` and after every run of calls from the empty tree, the tree
satisfies the B-tree definition and its own checker says so. -/
theorem btree_well_formed (large : 2 ≤ t) (small : t < 2 ^ 30) (ops : List (Tree.Op K V)) :
    ∃ tree answers, Machine.run (Tree.step t) Tree.empty ops = some (tree, answers) ∧
      WellFormed t tree ∧ tree.checkInvariants t = some true := by
  obtain ⟨tree, answers, runs, valid⟩ :=
    Machine.run_invariant (step_valid large small) ops Tree.valid_empty
  exact ⟨tree, answers, runs, valid.wellFormed, valid.checkInvariants small⟩

theorem btree_well_formed_degree_two :
    ∃ tree answers, Machine.run (Tree.step 2) (Tree.empty : Tree Nat Nat) Tree.churn =
        some (tree, answers) ∧
      WellFormed 2 tree ∧ tree.checkInvariants 2 = some true :=
  btree_well_formed (by decide) (by decide) Tree.churn

/-- At a degree of `2 ^ 30` one insertion leaves a tree that satisfies the definition, but its
checker overflows, and so does the next insertion. -/
theorem checker_overflows_after_insert :
    ∃ tree answers, Machine.run (Tree.step (2 ^ 30)) (Tree.empty : Tree Nat Nat) [.insert 1 10] =
        some (tree, answers) ∧
      WellFormed (2 ^ 30) tree ∧ tree.checkInvariants (2 ^ 30) = none ∧
      Machine.run (Tree.step (2 ^ 30)) (Tree.empty : Tree Nat Nat)
        [.insert 1 10, .insert 1 11] = none := by
  have shaped : Shaped (2 ^ 30) 1 0 (.node [1] [10] [] : Node Nat Nat) :=
    ⟨rfl, le_rfl, by decide, rfl⟩
  have valid : (⟨.node [1] [10] [], 1⟩ : Tree Nat Nat).Valid (2 ^ 30) :=
    ⟨.inr ⟨0, shaped⟩, List.pairwise_singleton _ _, rfl⟩
  exact ⟨_, _, rfl, valid.wellFormed, rfl, rfl⟩

end Order

end CppDB.BTree
