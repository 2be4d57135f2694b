import CppDB.Lib.Total
import CppDB.Structures.BTree.Remove
import CppDB.Structures.BTree.Traverse

/-! The class invariant and one specification per public operation; on top of it
the tree type whose values carry the invariant, with total operations. -/
namespace CppDB.BTree
open Assoc Context

variable {K V : Type} [LinearOrder K] {t : Nat}

namespace Tree

/-- The pairs held by a tree, in ascending key order. -/
def contents (tree : Tree K V) : List (K × V) := entries tree.root

/-- The class invariant: a null root, or a shaped non-empty one, with the contents
ascending and counted by `size_`. -/
structure Valid (t : Nat) (tree : Tree K V) : Prop where
  shaped : tree.root = .null ∨ ∃ h, Shaped t 1 h tree.root
  ascending : Ascending tree.contents
  counted : tree.size = tree.contents.length

theorem valid_empty : (empty : Tree K V).Valid t :=
  ⟨.inl rfl, List.Pairwise.nil, rfl⟩

theorem inserted_spec (key : K) (value : V) {l : List (K × V)} (ascending : Ascending l) :
    Ascending (inserted key value l) ∧
      (inserted key value l).length = if key ∉ keys l then l.length + 1 else l.length := by
  by_cases present : key ∈ keys l
  · simp [inserted, present, ascending]
  · simp only [inserted, present, not_false_eq_true, if_true]
    exact ⟨ascending.insert present, length_insertAscending key value l⟩

omit [LinearOrder K] in
theorem growRoot_of_small (small : t < 2 ^ 30) (root : Node K V) :
    growRoot t root =
      if root.keys.length = 2 * t - 1 then splitChild t (.node [] [] [root]) 0 else some root := by
  simp only [growRoot, isFull_of_small small, Option.bind_eq_bind, Option.bind_some, beq_iff_eq]

omit [LinearOrder K] in
/-- A split root has one key, so the descent always starts below a node with room. -/
theorem growRoot_spec (large : 2 ≤ t) (small : t < 2 ^ 30) {h : Nat} {root : Node K V}
    (shaped : Shaped t 1 h root) :
    ∃ root' h', growRoot t root = some root' ∧ Shaped t 1 h' root' ∧
      root'.keys.length < 2 * t - 1 ∧ entries root' = entries root := by
  by_cases full : root.keys.length = 2 * t - 1
  · let ctx : Context K V := ⟨[], [], [], [], [], [], rfl, rfl, rfl, rfl⟩
    obtain ⟨left, k, v, right, splits, leftShaped, _, rightShaped, _, halves⟩ :=
      splitChild_spec ctx (by omega) shaped full
    refine ⟨ctx.pair left k v right, h + 1, ?_, ?_, ?_, ?_⟩
    · rw [growRoot_of_small small, if_pos full]
      exact splits
    · rw [← plug_growRight, shaped_plug, fits_growRight, size_growRight]
      have none : ctx.size = 0 := rfl
      exact ⟨by omega, by omega, ⟨⟨by simp [ctx], by simp [ctx]⟩, rightShaped⟩, leftShaped⟩
    · simp only [pair, Node.keys, ctx, List.nil_append, List.length_singleton]
      omega
    · rw [entries_pair, halves]
      simp [ctx, before, after, weave, weaveLeft]
  · have upper := shaped.upper
    exact ⟨root, h, by rw [growRoot_of_small small, if_neg full], shaped, by omega, rfl⟩

theorem insert_spec (large : 2 ≤ t) (small : t < 2 ^ 30) {tree : Tree K V} (valid : tree.Valid t)
    (key : K) (value : V) :
    ∃ tree', tree.insert t key value = some (tree', decide (key ∉ keys tree.contents)) ∧
      tree'.Valid t ∧ tree'.contents = inserted key value tree.contents := by
  obtain ⟨root, size⟩ := tree
  obtain ⟨shaped, ascending, counted⟩ := valid
  simp only [contents] at ascending counted
  cases root with
  | null =>
    refine ⟨⟨.node [key] [value] [], 1⟩, ?_, ⟨.inr ⟨0, ?_⟩, ?_, rfl⟩, ?_⟩
    · simp [insert, contents, entries]
    · exact ⟨rfl, by simp, by simp; omega, rfl⟩
    · exact List.pairwise_singleton _ _
    · simp [contents, entries, inserted, insertAscending]
  | node ks vs cs =>
    obtain ⟨h, shaped⟩ : ∃ h, Shaped t 1 h (.node ks vs cs) := shaped.resolve_left (by simp)
    obtain ⟨root, h', grows, rootShaped, room, same⟩ := growRoot_spec large small shaped
    rw [← same] at ascending
    obtain ⟨root', flag, inserts, done⟩ := insertNonFull_spec (by omega) small key value h'
      root.height 1 root (by rw [rootShaped.height_eq]; omega) rootShaped room ascending
    have contentsEq := done.contents
    have answer := done.answer
    rw [same] at contentsEq answer ascending
    obtain ⟨ascending', length⟩ := inserted_spec key value ascending
    refine ⟨⟨root', if flag then size + 1 else size⟩, ?_, ⟨.inr ⟨h', done.shaped⟩, ?_, ?_⟩, ?_⟩
    · rw [contents, ← answer]
      simp only [insert, grows, Option.bind_eq_bind, Option.bind_some, inserts]
      rfl
    · rw [contents, contentsEq]
      exact ascending'
    · rw [contents, contentsEq, length, answer]
      simp only [counted, decide_eq_true_eq]
    · exact contentsEq

/-- From a degree of `2 ^ 30` on, an insertion into a tree that holds something overflows. -/
theorem insert_overflows (big : 2 ^ 30 ≤ t) {tree : Tree K V} (some : tree.root ≠ .null) (key : K)
    (value : V) : tree.insert t key value = none := by
  obtain ⟨root, size⟩ := tree
  cases root with
  | null => exact absurd rfl some
  | node ks vs cs =>
    simp only [insert, growRoot, isFull_overflows big, Option.bind_eq_bind, Option.bind_none]

theorem without_spec (key : K) {l : List (K × V)} (ascending : Ascending l) :
    Ascending (without key l) ∧
      (without key l).length = if key ∈ keys l then l.length - 1 else l.length := by
  refine ⟨ascending.without, ?_⟩
  by_cases present : key ∈ keys l
  · have := length_without ascending.nodup present
    rw [if_pos present]
    omega
  · rw [if_neg present, without_eq_self present]

omit [LinearOrder K] in
/-- What `remove` does with the root it gets back: an empty one is replaced. -/
theorem shrinkRoot_spec (large : 2 ≤ t) {h : Nat} {root : Node K V} (shaped : Shaped t 0 h root) :
    ∃ root', shrinkRoot root = some root' ∧ (root' = .null ∨ ∃ h', Shaped t 1 h' root') ∧
      entries root' = entries root := by
  by_cases empty : root.keys = []
  · obtain ⟨ks, vs, cs, rfl, values, _⟩ := shaped.exists_node
    simp only [Node.keys] at empty
    subst empty
    cases h with
    | zero =>
      obtain ⟨_, _, _, rfl⟩ := shaped
      refine ⟨.null, by simp [shrinkRoot, Node.keys, Node.isLeaf], .inl rfl, ?_⟩
      rw [entries_leaf, List.zip_nil_left, entries]
    | succ h =>
      obtain ⟨_, _, _, count, below⟩ := shaped
      obtain ⟨c, cs, rfl⟩ := List.exists_cons_of_length_eq_add_one count
      obtain rfl : cs = [] := List.length_eq_zero_iff.mp (by simpa using count)
      have childShaped := below c (by simp)
      have minimal := childShaped.lower
      refine ⟨c, ?_, .inr ⟨h, childShaped.retune (by omega)⟩, ?_⟩
      · simp [shrinkRoot, Node.keys, Node.isLeaf, Node.children]
      · simp [entries, weave]
  · have positive : 1 ≤ root.keys.length := List.length_pos_of_ne_nil empty
    exact ⟨root, if_neg (by simpa using empty), .inr ⟨h, shaped.retune positive⟩, rfl⟩

theorem remove_spec (large : 2 ≤ t) {tree : Tree K V} (valid : tree.Valid t) (key : K) :
    ∃ tree', tree.remove t key = some (tree', decide (key ∈ keys tree.contents)) ∧
      tree'.Valid t ∧ tree'.contents = without key tree.contents := by
  obtain ⟨root, size⟩ := tree
  have valid' := valid
  obtain ⟨shaped, ascending, counted⟩ := valid
  simp only [contents] at ascending counted
  cases root with
  | null =>
    refine ⟨⟨.null, size⟩, ?_, valid', ?_⟩
    · simp [remove, contents, entries]
    · simp [contents, entries, without]
  | node ks vs cs =>
    obtain ⟨h, shaped⟩ : ∃ h, Shaped t 1 h (.node ks vs cs) := shaped.resolve_left (by simp)
    obtain ⟨root, flag, removes, done⟩ := removeFrom_spec large key h (Node.node ks vs cs).height 0
      (.node ks vs cs) (by rw [shaped.height_eq]; omega) shaped ascending
    obtain ⟨root', shrinks, shaped', same⟩ := shrinkRoot_spec large done.shaped
    obtain ⟨ascending', length⟩ := without_spec key ascending
    have contentsEq : entries root' = without key (entries (.node ks vs cs)) :=
      same.trans done.contents
    refine ⟨⟨root', if flag then size - 1 else size⟩, ?_, ⟨shaped', ?_, ?_⟩, contentsEq⟩
    · rw [contents, ← done.answer]
      simp only [remove, removes, Option.bind_eq_bind, Option.bind_some, shrinks]
      rfl
    · rw [contents, contentsEq]
      exact ascending'
    · rw [contents, contentsEq, length, done.answer]
      simp only [counted, decide_eq_true_eq]

theorem search_spec {tree : Tree K V} (valid : tree.Valid t) (key : K) :
    tree.search key = some (find key tree.contents) := by
  obtain ⟨root, size⟩ := tree
  cases root with
  | null => rfl
  | node ks vs cs =>
    obtain ⟨h, shaped⟩ := valid.shaped.resolve_left (by simp)
    exact searchNode_spec key h 1 _ shaped valid.ascending

theorem contains_spec {tree : Tree K V} (valid : tree.Valid t) (key : K) :
    tree.contains key = some (decide (key ∈ keys tree.contents)) := by
  rw [contains, search_spec valid, Option.map_some, Option.some.injEq, Bool.eq_iff_iff,
    find_isSome, decide_eq_true_eq]

theorem store_spec {tree : Tree K V} (valid : tree.Valid t) (key : K) (value : V) :
    (∃ tree', tree.store key value = some tree' ∧ tree'.Valid t ∧ key ∈ keys tree.contents ∧
      tree'.contents = assign key value tree.contents) ∨
    tree.store key value = none ∧ key ∉ keys tree.contents := by
  obtain ⟨root, size⟩ := tree
  cases root with
  | null => exact .inr ⟨rfl, by simp [contents, entries]⟩
  | node ks vs cs =>
    obtain ⟨h, shaped⟩ := valid.shaped.resolve_left (by simp)
    rcases storeNode_spec key value h 1 _ shaped valid.ascending with
      ⟨root', front, v, back, stores, shaped', before, after⟩ | ⟨null, missing⟩
    · have nodup := valid.ascending.nodup
      rw [contents, before] at nodup
      have contentsEq : entries root' = assign key value (entries (.node ks vs cs)) := by
        rw [after, before, assign_middle nodup]
      refine .inl ⟨⟨root', size⟩, ?_, ⟨.inr ⟨h, shaped'⟩, ?_, ?_⟩, ?_, contentsEq⟩
      · simp only [store, stores, Option.bind_eq_bind, Option.bind_some]
        rfl
      · rw [contents, contentsEq]
        exact valid.ascending.assign
      · rw [contents, contentsEq, assign, List.length_map]
        exact valid.counted
      · rw [contents, before]
        simp
    · exact .inr ⟨by simp only [store, null, Option.bind_eq_bind, Option.bind_none], missing⟩

theorem forEachInOrder_spec {tree : Tree K V} (valid : tree.Valid t) :
    tree.forEachInOrder = some tree.contents := by
  obtain ⟨root, size⟩ := tree
  cases root with
  | null => rfl
  | node ks vs cs =>
    obtain ⟨h, shaped⟩ := valid.shaped.resolve_left (by simp)
    exact inOrder_spec h 1 _ shaped

theorem forEachRange_spec {tree : Tree K V} (valid : tree.Valid t) (lo hi : K) :
    tree.forEachRange lo hi = some (within lo hi tree.contents) := by
  obtain ⟨root, size⟩ := tree
  cases root with
  | null => rfl
  | node ks vs cs =>
    obtain ⟨h, shaped⟩ := valid.shaped.resolve_left (by simp)
    exact rangeVisit_spec lo hi h 1 _ shaped valid.ascending

end Tree

/-- A tree that carries its class invariant, and a degree for which nothing overflows, so
that its operations are total. -/
def Sound (t : Nat) (K V : Type) [LinearOrder K] : Type :=
  { tree : Tree K V // (2 ≤ t ∧ t < 2 ^ 30) ∧ tree.Valid t }

namespace Sound

def contents (s : Sound t K V) : List (K × V) := s.val.contents

theorem degree (s : Sound t K V) : 2 ≤ t ∧ t < 2 ^ 30 := s.property.1

theorem valid (s : Sound t K V) : s.val.Valid t := s.property.2

theorem ascending (s : Sound t K V) : Ascending s.contents := s.valid.ascending

def create (degree : 2 ≤ t ∧ t < 2 ^ 30) : Sound t K V := ⟨.empty, degree, Tree.valid_empty⟩

theorem insert_spec (s : Sound t K V) (key : K) (value : V) :
    ∃ tree', s.val.insert t key value = some (tree', decide (key ∉ keys s.contents)) ∧
      tree'.Valid t ∧ tree'.contents = inserted key value s.contents :=
  s.val.insert_spec s.degree.1 s.degree.2 s.valid key value

theorem remove_spec (s : Sound t K V) (key : K) :
    ∃ tree', s.val.remove t key = some (tree', decide (key ∈ keys s.contents)) ∧
      tree'.Valid t ∧ tree'.contents = without key s.contents :=
  s.val.remove_spec s.degree.1 s.valid key

def insert (s : Sound t K V) (key : K) (value : V) : Sound t K V × Bool :=
  Total.keep (s.val.insert t key value) (by
    obtain ⟨tree', inserts, valid, _⟩ := s.insert_spec key value
    exact ⟨tree', _, inserts, s.degree, valid⟩)

def remove (s : Sound t K V) (key : K) : Sound t K V × Bool :=
  Total.keep (s.val.remove t key) (by
    obtain ⟨tree', removes, valid, _⟩ := s.remove_spec key
    exact ⟨tree', _, removes, s.degree, valid⟩)

def search (s : Sound t K V) (key : K) : Option V :=
  (s.val.search key).get (by rw [s.val.search_spec s.valid]; rfl)

def forEachInOrder (s : Sound t K V) : List (K × V) :=
  s.val.forEachInOrder.get (by rw [s.val.forEachInOrder_spec s.valid]; rfl)

def forEachRange (s : Sound t K V) (lo hi : K) : List (K × V) :=
  (s.val.forEachRange lo hi).get (by rw [s.val.forEachRange_spec s.valid]; rfl)

def size (s : Sound t K V) : Nat := s.val.size

/-- Assignment through the pointer `search` returns, which is null for an absent key. -/
def store (s : Sound t K V) (key : K) (value : V) : Option (Sound t K V) :=
  match stores : s.val.store key value with
  | none => none
  | some tree => some ⟨tree, s.degree, by
      rcases s.val.store_spec s.valid key value with ⟨tree', same, valid, _⟩ | ⟨null, _⟩
      · cases stores.symm.trans same
        exact valid
      · cases stores.symm.trans null⟩

@[simp] theorem contents_create (degree : 2 ≤ t ∧ t < 2 ^ 30) :
    (create degree : Sound t K V).contents = [] := rfl

@[simp] theorem insert_flag (s : Sound t K V) (key : K) (value : V) :
    (s.insert key value).2 = decide (key ∉ keys s.contents) := by
  obtain ⟨tree', inserts, _⟩ := s.insert_spec key value
  exact Total.keep_answer _ inserts

@[simp] theorem contents_insert (s : Sound t K V) (key : K) (value : V) :
    (s.insert key value).1.contents = inserted key value s.contents := by
  obtain ⟨tree', inserts, _, contents⟩ := s.insert_spec key value
  exact (congrArg Tree.contents (Total.keep_state _ inserts)).trans contents

@[simp] theorem remove_flag (s : Sound t K V) (key : K) :
    (s.remove key).2 = decide (key ∈ keys s.contents) := by
  obtain ⟨tree', removes, _⟩ := s.remove_spec key
  exact Total.keep_answer _ removes

@[simp] theorem contents_remove (s : Sound t K V) (key : K) :
    (s.remove key).1.contents = without key s.contents := by
  obtain ⟨tree', removes, _, contents⟩ := s.remove_spec key
  exact (congrArg Tree.contents (Total.keep_state _ removes)).trans contents

@[simp] theorem search_eq (s : Sound t K V) (key : K) : s.search key = find key s.contents := by
  simp only [search, s.val.search_spec s.valid, Option.get_some, contents]

@[simp] theorem forEachInOrder_eq (s : Sound t K V) : s.forEachInOrder = s.contents := by
  simp only [forEachInOrder, s.val.forEachInOrder_spec s.valid, Option.get_some, contents]

@[simp] theorem forEachRange_eq (s : Sound t K V) (lo hi : K) :
    s.forEachRange lo hi = within lo hi s.contents := by
  simp only [forEachRange, s.val.forEachRange_spec s.valid, Option.get_some, contents]

@[simp] theorem size_eq (s : Sound t K V) : s.size = s.contents.length := s.valid.counted

theorem store_spec (s : Sound t K V) {key : K} (present : key ∈ keys s.contents) (value : V) :
    ∃ s', s.store key value = some s' ∧ s'.contents = assign key value s.contents := by
  rcases s.val.store_spec s.valid key value with ⟨tree', stores, valid, _, contents⟩ | ⟨_, missing⟩
  · refine ⟨⟨tree', s.degree, valid⟩, ?_, contents⟩
    rw [store]
    split
    · rename_i null
      cases stores.symm.trans null
    · rename_i same
      cases stores.symm.trans same
      rfl
  · exact absurd present missing

end Sound

end CppDB.BTree
