import CppDB.Structures.BTree.Restructure

/-! Insertion. The descent splits full children before it enters them, also when
the key turns out to be present, so the shape may change although the in-order
list does not. -/
namespace CppDB.BTree
open Assoc Context

variable {K V : Type} [LinearOrder K] {t lo h : Nat} {key : K}

/-- Where `lower_bound` sends a key in an internal node: at the separator that is
the key, or into the one child whose neighbours bracket it. -/
theorem Shaped.route {n : Node K V} (shaped : Shaped t lo (h + 1) n)
    (ascending : Ascending (entries n)) (key : K) :
    ∃ (ctx : Context K V) (child : Node K V), n = ctx.plug child ∧
      lowerBound n.keys key = ctx.index ∧ (∀ e ∈ ctx.before, e.1 < key) ∧
      (keyAt n.keys ctx.index key = true ∧
          (∃ outer v right, ctx = growRight outer key v right) ∨
        keyAt n.keys ctx.index key = false ∧ ∀ e ∈ ctx.after, key < e.1) := by
  obtain ⟨ctx, child, rfl, position⟩ := shaped.exists_plug (lowerBound_le n.keys key)
  obtain ⟨left, right, cut, length, below, above⟩ := lowerBound_cut (ctx.plug child).keys key
  obtain ⟨rfl, rfl⟩ : left = ctx.leftKeys ∧ right = ctx.rightKeys := by
    have same : ctx.leftKeys ++ ctx.rightKeys = left ++ right := cut
    exact (List.append_inj same (by rw [length, ← position]; rfl)).imp Eq.symm Eq.symm
  rw [entries_plug] at ascending
  obtain ⟨ascending, afterAscending, _⟩ := ascending_append.mp ascending
  obtain ⟨beforeAscending, _⟩ := ascending_append.mp ascending
  refine ⟨ctx, child, rfl, position.symm, weaveLeft_below beforeAscending below, ?_⟩
  have atKey : keyAt (ctx.plug child).keys ctx.index key = true ↔
      ctx.rightKeys.head? = some key := keyAt_split
  by_cases present : ctx.rightKeys.head? = some key
  · refine .inl ⟨atKey.mpr present, ?_⟩
    obtain ⟨outer, k, v, right, rfl⟩ := ctx.exists_growRight (by
      intro none
      simp [none] at present)
    obtain rfl : k = key := Option.some.inj present
    exact ⟨outer, v, right, rfl⟩
  · refine .inr ⟨by rw [← Bool.not_eq_true, atKey]; exact present, ?_⟩
    refine weave_above afterAscending fun k there => ?_
    exact lt_of_le_of_ne (above k there) fun same => present (same ▸ there)

theorem zip_below {ks : List K} {vs : List V} (below : ∀ k ∈ ks, k < key) :
    ∀ e ∈ ks.zip vs, e.1 < key :=
  fun _ there => below _ (List.of_mem_zip there).1

/-- The same in a leaf, with the position spelled out on both vectors. -/
theorem leaf_route {ks : List K} {vs : List V} (values : vs.length = ks.length)
    (ascending : Ascending (ks.zip vs)) (key : K) :
    ∃ ks₁ ks₂ vs₁ vs₂, ks = ks₁ ++ ks₂ ∧ vs = vs₁ ++ vs₂ ∧ ks₁.length = lowerBound ks key ∧
      vs₁.length = lowerBound ks key ∧ (∀ e ∈ ks₁.zip vs₁, e.1 < key) ∧
      (keyAt ks (lowerBound ks key) key = true ∧
          (∃ ks₃ v vs₃, ks₂ = key :: ks₃ ∧ vs₂ = v :: vs₃) ∨
        keyAt ks (lowerBound ks key) key = false ∧ ∀ e ∈ ks₂.zip vs₂, key < e.1) := by
  obtain ⟨ks₁, ks₂, rfl, length, below, above⟩ := lowerBound_cut ks key
  have bound := lowerBound_le (ks₁ ++ ks₂) key
  obtain ⟨vs₁, vs₂, rfl, valueLength⟩ :=
    Vec.exists_cut (l := vs) (i := lowerBound (ks₁ ++ ks₂) key) (by omega)
  refine ⟨ks₁, ks₂, vs₁, vs₂, rfl, rfl, length, valueLength, zip_below below, ?_⟩
  have atKey : keyAt (ks₁ ++ ks₂) ks₁.length key = true ↔ ks₂.head? = some key := keyAt_split
  rw [length] at atKey
  simp only [List.length_append] at values
  by_cases present : ks₂.head? = some key
  · refine .inl ⟨atKey.mpr present, ?_⟩
    cases ks₂ with
    | nil => simp at present
    | cons k ks₃ =>
      obtain rfl : k = key := Option.some.inj present
      cases vs₂ with
      | nil => simp only [List.length_cons, List.length_nil] at values; omega
      | cons v vs₃ => exact ⟨ks₃, v, vs₃, rfl, rfl⟩
  · refine .inr ⟨by rw [← Bool.not_eq_true, atKey]; exact present, ?_⟩
    rw [List.zip_append (by omega)] at ascending
    obtain ⟨_, tail, _⟩ := ascending_append.mp ascending
    cases ks₂ with
    | nil => simp
    | cons k ks₃ =>
      cases vs₂ with
      | nil => simp
      | cons v vs₃ =>
        have here : key < k :=
          lt_of_le_of_ne (above k (by simp)) fun same => present (by simp [same])
        obtain ⟨first, _⟩ := List.pairwise_cons.mp tail
        intro e there
        rcases List.mem_cons.mp there with rfl | there
        · exact here
        · exact lt_trans here (first e there)

/-- The contents after an insertion that refuses a present key. -/
def inserted (key : K) (value : V) (l : List (K × V)) : List (K × V) :=
  if key ∈ keys l then l else insertAscending key value l

theorem inserted_between {value : V} {front mid back : List (K × V)}
    (below : ∀ e ∈ front, e.1 < key) (above : ∀ e ∈ back, key < e.1) :
    inserted key value (front ++ mid ++ back) = front ++ inserted key value mid ++ back := by
  have member : key ∈ keys (front ++ mid ++ back) ↔ key ∈ keys mid := by
    rw [← find_isSome, find_between below above, find_isSome]
  simp only [inserted, member, insertAscending_between below above]
  split <;> rfl

theorem mem_keys_between {front mid back : List (K × V)} (below : ∀ e ∈ front, e.1 < key)
    (above : ∀ e ∈ back, key < e.1) : key ∈ keys (front ++ mid ++ back) ↔ key ∈ keys mid := by
  rw [← find_isSome, find_between below above, find_isSome]

/-- What an insertion into a subtree establishes. -/
structure Inserted (t lo h : Nat) (key : K) (value : V) (n n' : Node K V) (flag : Bool) : Prop where
  shaped : Shaped t lo h n'
  contents : entries n' = inserted key value (entries n)
  answer : flag = decide (key ∉ keys (entries n))

/-- A refused insertion may restructure, but not change, the contents. -/
theorem Inserted.refused {value : V} {n n' : Node K V} (shaped : Shaped t lo h n')
    (same : entries n' = entries n) (present : key ∈ keys (entries n)) :
    Inserted t lo h key value n n' false :=
  ⟨shaped, by rw [same, inserted, if_pos present], by simp [present]⟩

/-- Inserting into a bracketed child inserts into the whole node. -/
theorem Inserted.plug {value : V} {n : Node K V} {ctx : Context K V} {child child' : Node K V}
    {flag : Bool} (lower : lo ≤ ctx.size) (upper : ctx.size ≤ 2 * t - 1) (fits : ctx.Fits t h)
    (contents : entries n = entries (ctx.plug child)) (below : ∀ e ∈ ctx.before, e.1 < key)
    (above : ∀ e ∈ ctx.after, key < e.1)
    (done : Inserted t (t - 1) h key value child child' flag) :
    Inserted t lo (h + 1) key value n (ctx.plug child') flag := by
  refine ⟨ctx.shaped_plug.mpr ⟨lower, upper, fits, done.shaped⟩, ?_, ?_⟩
  · rw [contents, entries_plug, entries_plug, done.contents, inserted_between below above]
  · rw [contents, entries_plug, done.answer, decide_eq_decide, not_iff_not,
      mem_keys_between below above]

section Halves

variable {value : V} {n left right half : Node K V} {ctx : Context K V} {k : K} {v : V} {flag : Bool}

/-- After a split whose median is below the key, inserting into the right half inserts into the
whole node. -/
theorem Inserted.right_half (lower : lo ≤ ctx.size) (room : ctx.size < 2 * t - 1)
    (fits : ctx.Fits t h) (leftShaped : Shaped t (t - 1) h left)
    (contents : entries (ctx.pair left k v right) = entries n)
    (ascending : Ascending (entries left ++ (k, v) :: entries right)) (smaller : k < key)
    (below : ∀ e ∈ ctx.before, e.1 < key) (above : ∀ e ∈ ctx.after, key < e.1)
    (done : Inserted t (t - 1) h key value right half flag) :
    Inserted t lo (h + 1) key value n ((ctx.growLeft left k v).plug half) flag := by
  obtain ⟨-, -, crosses⟩ := ascending_append.mp ascending
  apply done.plug
  · rw [size_growLeft]
    omega
  · rw [size_growLeft]
    omega
  · exact ctx.fits_growLeft.mpr ⟨fits, leftShaped⟩
  · rw [plug_growLeft, contents]
  · rw [before_growLeft]
    intro e there
    simp only [List.mem_append, List.mem_singleton] at there
    rcases there with there | there | rfl
    · exact below e there
    · exact lt_trans (crosses e there (k, v) List.mem_cons_self) smaller
    · exact smaller
  · exact above

/-- The same for the left half, with the median above the key. -/
theorem Inserted.left_half (lower : lo ≤ ctx.size) (room : ctx.size < 2 * t - 1)
    (fits : ctx.Fits t h) (rightShaped : Shaped t (t - 1) h right)
    (contents : entries (ctx.pair left k v right) = entries n)
    (ascending : Ascending (entries left ++ (k, v) :: entries right)) (larger : key < k)
    (below : ∀ e ∈ ctx.before, e.1 < key) (above : ∀ e ∈ ctx.after, key < e.1)
    (done : Inserted t (t - 1) h key value left half flag) :
    Inserted t lo (h + 1) key value n ((ctx.growRight k v right).plug half) flag := by
  obtain ⟨-, rest, -⟩ := ascending_append.mp ascending
  apply done.plug
  · rw [size_growRight]
    omega
  · rw [size_growRight]
    omega
  · exact ctx.fits_growRight.mpr ⟨fits, rightShaped⟩
  · rw [plug_growRight, contents]
  · exact below
  · rw [after_growRight]
    intro e there
    simp only [List.cons_append, List.mem_cons, List.mem_append] at there
    rcases there with rfl | there | there
    · exact larger
    · exact lt_trans larger ((List.pairwise_cons.mp rest).1 e there)
    · exact above e there

end Halves

theorem insertNonFull_leaf {ks : List K} {vs : List V} {value : V} (fuel : Nat)
    (shaped : Shaped t lo 0 (.node ks vs [])) (room : ks.length < 2 * t - 1)
    (ascending : Ascending (entries (.node ks vs []))) :
    ∃ n' flag, insertNonFull t (fuel + 1) (.node ks vs []) key value = some (n', flag) ∧
      Inserted t lo 0 key value (.node ks vs []) n' flag := by
  obtain ⟨values, lower, upper, _⟩ := shaped
  rw [entries_leaf] at ascending
  obtain ⟨ks₁, ks₂, vs₁, vs₂, keysEq, valuesEq, keyLength, valueLength, below, route⟩ :=
    leaf_route values ascending key
  have contents : entries (.node ks vs []) = ks₁.zip vs₁ ++ ks₂.zip vs₂ := by
    rw [entries_leaf, keysEq, valuesEq, List.zip_append (by omega)]
  simp only [insertNonFull]
  rcases route with ⟨atKey, ks₃, v, vs₃, rfl, rfl⟩ | ⟨atKey, above⟩
  · rw [if_pos atKey]
    refine ⟨_, _, rfl, .refused ⟨values, lower, upper, rfl⟩ rfl ?_⟩
    simp [contents]
  · have absent : key ∉ keys (ks₁.zip vs₁ ++ ks₂.zip vs₂) := by
      rw [← find_isSome, ← List.append_nil (ks₁.zip vs₁), find_between below above]
      simp [find]
    rw [if_neg (by simp [atKey])]
    simp only [List.isEmpty_nil, if_true, Option.bind_eq_bind]
    have insertKey : Vec.insertAt ks (lowerBound ks key) key = some (ks₁ ++ key :: ks₂) := by
      conv_lhs => arg 1; rw [keysEq]
      exact Vec.insertAt_split keyLength
    have insertValue : Vec.insertAt vs (lowerBound ks key) value = some (vs₁ ++ value :: vs₂) := by
      conv_lhs => arg 1; rw [valuesEq]
      exact Vec.insertAt_split valueLength
    rw [insertKey, insertValue]
    refine ⟨_, _, rfl, ⟨?_, ?_, ?_, rfl⟩, ?_, ?_⟩
    · rw [keysEq, valuesEq] at values
      simp only [List.length_append, List.length_cons] at values ⊢
      omega
    · rw [keysEq] at lower
      simp only [List.length_append, List.length_cons] at lower ⊢
      omega
    · rw [keysEq] at room
      simp only [List.length_append, List.length_cons] at room ⊢
      omega
    · rw [contents, inserted, if_neg absent, insertAscending_at below above, entries_leaf,
        List.zip_append (by omega), List.zip_cons_cons]
    · simp only [contents, absent, not_false_eq_true, decide_true]

theorem insertNonFull_plug (small : t < 2 ^ 30) (fuel : Nat) (ctx : Context K V)
    (child : Node K V) (value : V) (position : lowerBound (ctx.plug child).keys key = ctx.index)
    (absent : keyAt (ctx.plug child).keys ctx.index key = false)
    (shaped : Shaped t lo h child) :
    insertNonFull t (fuel + 1) (ctx.plug child) key value =
      if child.keys.length = 2 * t - 1 then do
        let node ← splitChild t (ctx.plug child) ctx.index
        let median ← node.keys[ctx.index]?
        if median = key then
          return (node, false)
        else
          onChild node (if median < key then ctx.index + 1 else ctx.index)
            (insertNonFull t fuel · key value)
      else
        onChild (ctx.plug child) ctx.index (insertNonFull t fuel · key value) := by
  have size := ctx.childSize_plug shaped
  have internal : (ctx.leftChildren ++ child :: ctx.rightChildren).isEmpty = false := by
    cases ctx.leftChildren <;> rfl
  rw [children_plug] at size
  simp only [plug, Node.keys] at position absent
  simp only [plug, insertNonFull, position, absent, Bool.false_eq_true, if_false, internal,
    Option.bind_eq_bind, size, Option.bind_some, isFull_of_small small, beq_iff_eq]

/-- Insertion below a node with room for one more key always answers, and refines
ascending insertion into the contents. -/
theorem insertNonFull_spec (positive : 1 ≤ t) (small : t < 2 ^ 30) (key : K) (value : V) :
    ∀ (h fuel lo : Nat) (n : Node K V), h < fuel → Shaped t lo h n →
      n.keys.length < 2 * t - 1 → Ascending (entries n) →
      ∃ n' flag, insertNonFull t fuel n key value = some (n', flag) ∧
        Inserted t lo h key value n n' flag := by
  intro h
  induction h with
  | zero =>
    intro fuel lo n enough shaped room ascending
    obtain ⟨fuel, rfl⟩ := Nat.exists_eq_add_of_lt enough
    obtain ⟨ks, vs, cs, rfl, _⟩ := shaped.exists_node
    obtain ⟨_, _, _, rfl⟩ := id shaped
    exact insertNonFull_leaf _ shaped room ascending
  | succ h ih =>
    intro fuel lo n enough shaped room ascending
    obtain ⟨fuel, rfl⟩ : ∃ m, fuel = m + 1 := ⟨fuel - 1, by omega⟩
    obtain ⟨ctx, child, rfl, position, below, route⟩ := shaped.route ascending key
    obtain ⟨lower, upper, fits, childShaped⟩ := ctx.shaped_plug.mp shaped
    rw [length_keys_plug] at room
    have contents := ctx.entries_plug child
    rcases route with ⟨atKey, outer, v, right, rfl⟩ | ⟨absent, above⟩
    · refine ⟨_, _, ?_, .refused shaped rfl ?_⟩
      · simp only [plug, Node.keys] at position atKey
        simp only [plug, insertNonFull, position, atKey, if_true]
      · rw [contents, after_growRight]
        simp
    · have childAscending : Ascending (entries child) := by
        rw [contents] at ascending
        exact (ascending_append.mp (ascending_append.mp ascending).1).2.1
      rw [insertNonFull_plug small fuel ctx child value position absent childShaped]
      by_cases full : child.keys.length = 2 * t - 1
      · obtain ⟨left, k, v, right, splits, leftShaped, leftSize, rightShaped, rightSize, halves⟩ :=
          splitChild_spec ctx positive childShaped full
        have contents' : entries (ctx.pair left k v right) = entries (ctx.plug child) := by
          rw [entries_pair, contents, halves]
        rw [halves] at childAscending
        obtain ⟨leftAscending, rest, -⟩ := ascending_append.mp childAscending
        have rightAscending := (List.pairwise_cons.mp rest).2
        rw [if_pos full, splits]
        simp only [Option.bind_eq_bind, Option.bind_some, keys_pair]
        by_cases same : k = key
        · subst same
          rw [if_pos rfl]
          refine ⟨_, _, rfl, .refused ?_ contents' ?_⟩
          · rw [← plug_growRight, shaped_plug, fits_growRight, size_growRight]
            exact ⟨by omega, by omega, ⟨fits, rightShaped⟩, leftShaped⟩
          · rw [contents, halves]
            simp
        · rw [if_neg same]
          by_cases smaller : k < key
          · -- the median is below the key: the right half is entered
            rw [if_pos smaller, ← plug_growLeft, ← ctx.index_growLeft left k v, onChild_plug]
            obtain ⟨right', flag, computes, done⟩ :=
              ih fuel (t - 1) right (by omega) rightShaped (by omega) rightAscending
            refine ⟨_, _, by rw [computes]; rfl, ?_⟩
            exact done.right_half lower room fits leftShaped contents' childAscending smaller below
              above
          · have larger : key < k := lt_of_le_of_ne (not_lt.mp smaller) (Ne.symm same)
            rw [if_neg smaller, ← plug_growRight, ← ctx.index_growRight k v right, onChild_plug]
            obtain ⟨left', flag, computes, done⟩ :=
              ih fuel (t - 1) left (by omega) leftShaped (by omega) leftAscending
            refine ⟨_, _, by rw [computes]; rfl, ?_⟩
            exact done.left_half lower room fits rightShaped contents' childAscending larger below
              above
      · rw [if_neg full, onChild_plug]
        have childUpper := childShaped.upper
        obtain ⟨child', flag, computes, done⟩ :=
          ih fuel (t - 1) child (by omega) childShaped (by omega) childAscending
        exact ⟨_, _, by rw [computes]; rfl, done.plug lower upper fits rfl below above⟩

end CppDB.BTree
