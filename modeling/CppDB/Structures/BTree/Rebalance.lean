import CppDB.Structures.BTree.Restructure

/-! Topping up a child before a removal enters it. Borrowing rotates one entry
through the separator, merging sinks the separator; both leave the in-order list
alone and widen only the child that will be entered. -/
namespace CppDB.BTree
open Assoc Context

variable {K V : Type} {t lo h : Nat}

/-- The rotation between two neighbours, apart from what it does to their children. -/
theorem borrowFromPrev_pair (ctx : Context K V) {ks cks : List K} {vs cvs : List V}
    {cs ccs cs' ccs' : List (Node K V)} {k k' : K} {v v' : V}
    (children : (if cs.isEmpty then some (cs, ccs)
      else (Vec.popBack cs).map fun (rest, last) => (rest, last :: ccs)) = some (cs', ccs')) :
    borrowFromPrev (ctx.pair (.node (ks ++ [k']) (vs ++ [v']) cs) k v (.node cks cvs ccs))
      (ctx.index + 1) =
        some (ctx.pair (.node ks vs cs') k' v' (.node (k :: cks) (v :: cvs) ccs')) := by
  simp only [borrowFromPrev, pair, Option.bind_eq_bind, Option.bind_some,
    Vec.getElem?_split_succ ctx.length_leftChildren, Nat.add_one_ne_zero, if_false,
    Nat.add_sub_cancel, Vec.getElem?_split ctx.length_leftChildren,
    Vec.getElem?_split (rfl : _ = ctx.index), Vec.getElem?_split ctx.length_leftValues,
    Vec.popBack_split, Vec.setAt_split (rfl : _ = ctx.index),
    Vec.setAt_split ctx.length_leftValues,
    Vec.setAt_split_succ ctx.length_leftChildren, Vec.setAt_split ctx.length_leftChildren]
  split at children
  case isTrue leaf =>
    cases children
    rw [if_pos leaf]
    rfl
  case isFalse inner =>
    obtain ⟨_, pops, same⟩ := Option.map_eq_some_iff.mp children
    cases same
    rw [if_neg inner, pops]
    rfl

theorem borrowFromNext_pair (ctx : Context K V) {ks cks : List K} {vs cvs : List V}
    {cs ccs cs' ccs' : List (Node K V)} {k k' : K} {v v' : V}
    (children : (if cs.isEmpty then some (ccs, cs)
      else (Vec.popFront cs).map fun (first, rest) => (ccs ++ [first], rest)) = some (ccs', cs')) :
    borrowFromNext (ctx.pair (.node cks cvs ccs) k v (.node (k' :: ks) (v' :: vs) cs)) ctx.index =
      some (ctx.pair (.node (cks ++ [k]) (cvs ++ [v]) ccs') k' v' (.node ks vs cs')) := by
  simp only [borrowFromNext, pair, Option.bind_eq_bind, Option.bind_some,
    Vec.getElem?_split_succ ctx.length_leftChildren, Vec.getElem?_split ctx.length_leftChildren,
    Vec.getElem?_split (rfl : _ = ctx.index), Vec.getElem?_split ctx.length_leftValues,
    Vec.popFront.eq_2, Vec.setAt_split (rfl : _ = ctx.index), Vec.setAt_split ctx.length_leftValues,
    Vec.setAt_split_succ ctx.length_leftChildren, Vec.setAt_split ctx.length_leftChildren]
  split at children
  case isTrue leaf =>
    cases children
    rw [if_pos leaf]
    rfl
  case isFalse inner =>
    obtain ⟨_, pops, same⟩ := Option.map_eq_some_iff.mp children
    cases same
    rw [if_neg inner, pops]
    rfl

theorem borrowFromPrev_spec (ctx : Context K V) {left child : Node K V} {k : K} {v : V}
    (positive : 1 ≤ t) (leftShaped : Shaped t t h left) (shaped : Shaped t (t - 1) h child)
    (room : child.keys.length < 2 * t - 1) :
    ∃ left' k' v' child' moved,
      borrowFromPrev (ctx.pair left k v child) (ctx.index + 1) =
        some (ctx.pair left' k' v' child') ∧
      Shaped t (t - 1) h left' ∧ Shaped t (child.keys.length + 1) h child' ∧
      entries left ++ [(k, v)] = entries left' ++ (k', v') :: moved ∧
      entries child' = moved ++ entries child := by
  obtain ⟨ks, vs, cs, rfl, values, lower, upper⟩ := leftShaped.exists_node
  obtain ⟨cks, cvs, ccs, rfl, childValues, childLower, childUpper⟩ := shaped.exists_node
  simp only [Node.keys] at room ⊢
  rcases List.eq_nil_or_concat' ks with rfl | ⟨ks, k', rfl⟩
  · simp only [List.length_nil] at lower; omega
  rcases List.eq_nil_or_concat' vs with rfl | ⟨vs, v', rfl⟩
  · simp at values
  simp only [List.length_append, List.length_singleton] at values lower upper
  cases h with
  | zero =>
    obtain ⟨_, _, _, rfl⟩ := leftShaped
    obtain ⟨_, _, _, rfl⟩ := shaped
    refine ⟨.node ks vs [], k', v', .node (k :: cks) (v :: cvs) [], [(k, v)], ?_, ?_, ?_, ?_, ?_⟩
    · exact borrowFromPrev_pair ctx rfl
    · exact ⟨by omega, by omega, by omega, rfl⟩
    · exact ⟨by simpa using childValues, by simp, by simp; omega, rfl⟩
    · simp only [entries_leaf]
      rw [List.zip_append (by omega)]
      simp
    · simp [entries_leaf]
  | succ h =>
    obtain ⟨_, _, _, count, below⟩ := leftShaped
    obtain ⟨_, _, _, childCount, childBelow⟩ := shaped
    simp only [List.length_append, List.length_singleton] at count
    rcases List.eq_nil_or_concat' cs with rfl | ⟨cs, last, rfl⟩
    · simp at count
    simp only [List.length_append, List.length_singleton] at count
    have nonempty : (cs ++ [last]).isEmpty = false := by cases cs <;> rfl
    have childNonempty : ccs ≠ [] := by
      rintro rfl
      simp at childCount
    refine ⟨.node ks vs cs, k', v', .node (k :: cks) (v :: cvs) (last :: ccs),
      entries last ++ [(k, v)], ?_, ?_, ?_, ?_, ?_⟩
    · apply borrowFromPrev_pair ctx
      simp only [nonempty, Bool.false_eq_true, if_false, Vec.popBack_split, Option.map_some]
    · exact ⟨by omega, by omega, by omega, by omega, fun c there => below c (by simp [there])⟩
    · refine ⟨by simpa using childValues, by simp, by simp; omega, by simp [childCount], ?_⟩
      simp only [List.forall_mem_cons]
      exact ⟨below last (by simp), childBelow⟩
    · rw [entries_concat k' v' last (by omega) (by omega)]
      simp
    · rw [entries_cons k v last childNonempty]
      simp

theorem borrowFromNext_spec (ctx : Context K V) {child right : Node K V} {k : K} {v : V}
    (positive : 1 ≤ t) (rightShaped : Shaped t t h right) (shaped : Shaped t (t - 1) h child)
    (room : child.keys.length < 2 * t - 1) :
    ∃ child' k' v' right' moved,
      borrowFromNext (ctx.pair child k v right) ctx.index =
        some (ctx.pair child' k' v' right') ∧
      Shaped t (t - 1) h right' ∧ Shaped t (child.keys.length + 1) h child' ∧
      (k, v) :: entries right = moved ++ (k', v') :: entries right' ∧
      entries child' = entries child ++ moved := by
  obtain ⟨ks, vs, cs, rfl, values, lower, upper⟩ := rightShaped.exists_node
  obtain ⟨cks, cvs, ccs, rfl, childValues, childLower, childUpper⟩ := shaped.exists_node
  simp only [Node.keys] at room ⊢
  cases ks with
  | nil => simp only [List.length_nil] at lower; omega
  | cons k' ks =>
  obtain ⟨v', vs, rfl⟩ := List.exists_cons_of_length_eq_add_one values
  simp only [List.length_cons] at values lower upper
  cases h with
  | zero =>
    obtain ⟨_, _, _, rfl⟩ := rightShaped
    obtain ⟨_, _, _, rfl⟩ := shaped
    refine ⟨.node (cks ++ [k]) (cvs ++ [v]) [], k', v', .node ks vs [], [(k, v)], ?_, ?_, ?_, ?_, ?_⟩
    · exact borrowFromNext_pair ctx rfl
    · exact ⟨by omega, by omega, by omega, rfl⟩
    · exact ⟨by simpa using childValues, by simp, by simp; omega, rfl⟩
    · simp [entries_leaf]
    · simp only [entries_leaf]
      rw [List.zip_append childValues.symm]
      simp
  | succ h =>
    obtain ⟨_, _, _, count, below⟩ := rightShaped
    obtain ⟨_, _, _, childCount, childBelow⟩ := shaped
    obtain ⟨first, cs, rfl⟩ := List.exists_cons_of_length_eq_add_one count
    simp only [List.length_cons, Nat.add_right_cancel_iff] at count
    have nonempty : cs ≠ [] := by
      rintro rfl
      simp at count
    refine ⟨.node (cks ++ [k]) (cvs ++ [v]) (ccs ++ [first]), k', v', .node ks vs cs,
      (k, v) :: entries first, ?_, ?_, ?_, ?_, ?_⟩
    · exact borrowFromNext_pair ctx rfl
    · exact ⟨by omega, by omega, by omega, by omega, fun c there => below c (by simp [there])⟩
    · refine ⟨by simpa using childValues, by simp, by simp; omega, by simp [childCount], ?_⟩
      simp only [List.forall_mem_append, List.forall_mem_singleton]
      exact ⟨childBelow, below first (by simp)⟩
    · rw [entries_cons k' v' first nonempty]
      simp
    · rw [entries_concat k v first childValues childCount]

/-- Merging two minimal siblings fills one node exactly. -/
theorem mergeChildren_spec (ctx : Context K V) {left right : Node K V} {k : K} {v : V}
    (leftShaped : Shaped t (t - 1) h left) (rightShaped : Shaped t (t - 1) h right)
    (fits : left.keys.length + right.keys.length + 1 ≤ 2 * t - 1) :
    ∃ merged, mergeChildren (ctx.pair left k v right) ctx.index = some (ctx.plug merged) ∧
      Shaped t (left.keys.length + right.keys.length + 1) h merged ∧
      entries merged = entries left ++ (k, v) :: entries right := by
  obtain ⟨ks, vs, cs, rfl, values, lower, upper⟩ := leftShaped.exists_node
  obtain ⟨rks, rvs, rcs, rfl, rightValues, rightLower, rightUpper⟩ := rightShaped.exists_node
  simp only [Node.keys] at fits ⊢
  have computes : mergeChildren (ctx.pair (.node ks vs cs) k v (.node rks rvs rcs)) ctx.index =
      some (ctx.plug (.node (ks ++ [k] ++ rks) (vs ++ [v] ++ rvs)
        (if rcs.isEmpty then cs else cs ++ rcs))) := by
    simp only [mergeChildren, pair, Option.bind_eq_bind, Option.bind_some,
      Vec.getElem?_split_succ ctx.length_leftChildren, Vec.getElem?_split ctx.length_leftChildren,
      Vec.getElem?_split (rfl : _ = ctx.index), Vec.getElem?_split ctx.length_leftValues,
      Vec.eraseAt_split (rfl : _ = ctx.index), Vec.eraseAt_split ctx.length_leftValues,
      Vec.setAt_split ctx.length_leftChildren, Vec.eraseAt_split_succ ctx.length_leftChildren]
    rfl
  have keyCount : (ks ++ [k] ++ rks).length = ks.length + 1 + rks.length := by
    simp only [List.length_append, List.length_singleton]
  have valueCount : (vs ++ [v] ++ rvs).length = vs.length + 1 + rvs.length := by
    simp only [List.length_append, List.length_singleton]
  refine ⟨_, computes, ?_, ?_⟩
  · cases h with
    | zero =>
      obtain ⟨_, _, _, rfl⟩ := leftShaped
      obtain ⟨_, _, _, rfl⟩ := rightShaped
      exact ⟨by omega, by omega, by omega, rfl⟩
    | succ h =>
      obtain ⟨_, _, _, count, below⟩ := leftShaped
      obtain ⟨_, _, _, rightCount, rightBelow⟩ := rightShaped
      have nonempty : rcs.isEmpty = false := by
        cases rcs with
        | nil => simp at rightCount
        | cons c rcs => rfl
      simp only [nonempty, Bool.false_eq_true, if_false]
      refine ⟨by omega, by omega, by omega, ?_, ?_⟩
      · rw [List.length_append]
        omega
      · simp only [List.forall_mem_append]
        exact ⟨below, rightBelow⟩
  · cases h with
    | zero =>
      obtain ⟨_, _, _, rfl⟩ := leftShaped
      obtain ⟨_, _, _, rfl⟩ := rightShaped
      rw [List.append_assoc, List.append_assoc]
      exact entries_join_leaf k v values
    | succ h =>
      obtain ⟨_, _, _, count, below⟩ := leftShaped
      obtain ⟨_, _, _, rightCount, rightBelow⟩ := rightShaped
      have nonempty : rcs ≠ [] := by
        rintro rfl
        simp at rightCount
      have nonempty' : rcs.isEmpty = false := by simpa using nonempty
      rw [List.append_assoc, List.append_assoc, nonempty', if_neg Bool.false_ne_true]
      exact entries_join k v values count nonempty

theorem fillChild_eq (ctx : Context K V) (child : Node K V) {prev next : Bool}
    (prevTest : prevHasSpare t (ctx.plug child).children ctx.index = some prev)
    (nextTest : nextHasSpare t (ctx.plug child).children ctx.index = some next) :
    fillChild t (ctx.plug child) ctx.index =
      if prev then borrowFromPrev (ctx.plug child) ctx.index
      else if next then borrowFromNext (ctx.plug child) ctx.index
      else if 0 < ctx.index then mergeChildren (ctx.plug child) (ctx.index - 1)
      else mergeChildren (ctx.plug child) ctx.index := by
  simp only [fillChild, Option.bind_eq_bind, prevTest, nextTest, Option.bind_some]

/-- The left test answers, and its answer is the left sibling's occupancy. -/
theorem prevHasSpare_spec (ctx : Context K V) (child : Node K V) (fits : ctx.Fits t h) :
    ∃ prev, prevHasSpare t (ctx.plug child).children ctx.index = some prev ∧
      (prev = true ∨ 0 < ctx.index →
        ∃ (outer : Context K V) (left : Node K V) (k : K) (v : V),
          ctx = outer.growLeft left k v ∧ prev = decide (t ≤ left.keys.length)) := by
  by_cases first : 0 < ctx.index
  · obtain ⟨outer, left, k, v, rfl⟩ := ctx.exists_growLeft first
    have shaped := (outer.fits_growLeft.mp fits).2
    refine ⟨decide (t ≤ left.keys.length), ?_, fun _ => ⟨outer, left, k, v, rfl, rfl⟩⟩
    obtain ⟨ks, vs, cs, rfl, _⟩ := shaped.exists_node
    rw [prevHasSpare, if_pos first, plug_growLeft, index_growLeft, Nat.add_sub_cancel]
    simp only [Node.childSize, pair, Node.children, Vec.getElem?_split outer.length_leftChildren]
    rfl
  · refine ⟨false, by rw [prevHasSpare, if_neg first], ?_⟩
    simp [first]

theorem nextHasSpare_spec (ctx : Context K V) (child : Node K V) (fits : ctx.Fits t h) :
    ∃ next, nextHasSpare t (ctx.plug child).children ctx.index = some next ∧
      (next = true ∨ ctx.rightKeys ≠ [] →
        ∃ (outer : Context K V) (k : K) (v : V) (right : Node K V),
          ctx = outer.growRight k v right ∧ next = decide (t ≤ right.keys.length)) := by
  have lengths : (ctx.plug child).children.length - 1 = ctx.index + ctx.rightKeys.length := by
    simp [children_plug, ctx.length_leftChildren, ctx.right_children]
  by_cases last : ctx.rightKeys ≠ []
  · have inside : ctx.index < (ctx.plug child).children.length - 1 := by
      have := List.length_pos_of_ne_nil last
      omega
    obtain ⟨outer, k, v, right, rfl⟩ := ctx.exists_growRight last
    have shaped := (outer.fits_growRight.mp fits).2
    refine ⟨decide (t ≤ right.keys.length), ?_, fun _ => ⟨outer, k, v, right, rfl, rfl⟩⟩
    obtain ⟨ks, vs, cs, rfl, _⟩ := shaped.exists_node
    rw [nextHasSpare, if_pos inside, plug_growRight, index_growRight]
    simp only [Node.childSize, pair, Node.children,
      Vec.getElem?_split_succ outer.length_leftChildren]
    rfl
  · have outside : ¬ ctx.index < (ctx.plug child).children.length - 1 := by
      rw [lengths, not_not.mp last, List.length_nil]
      omega
    refine ⟨false, by rw [nextHasSpare, if_neg outside], ?_⟩
    simp [last]

/-- `fillChild` moves the hole: entries drift from the two sides into the child to
be entered, which then has at least `t` keys. -/
structure Refilled (t h : Nat) (ctx : Context K V) (child : Node K V) (ctx' : Context K V)
    (child' : Node K V) : Prop where
  fits : ctx'.Fits t h
  lower : ctx.size ≤ ctx'.size + 1
  upper : ctx'.size ≤ ctx.size
  entered : Shaped t t h child'
  drift : ∃ fromLeft fromRight, ctx.before = ctx'.before ++ fromLeft ∧
    ctx.after = fromRight ++ ctx'.after ∧ entries child' = fromLeft ++ entries child ++ fromRight

/-- A child that can spare a key needs no topping up. -/
theorem Refilled.refl {ctx : Context K V} {child : Node K V} (fits : ctx.Fits t h)
    (entered : Shaped t t h child) : Refilled t h ctx child ctx child :=
  ⟨fits, Nat.le_succ _, le_rfl, entered, [], [], by simp, by simp, by simp⟩

theorem fillChild_spec (ctx : Context K V) {child : Node K V} (positive : 1 ≤ t)
    (fits : ctx.Fits t h) (shaped : Shaped t (t - 1) h child) (short : child.keys.length < t)
    (sibling : 1 ≤ ctx.size) :
    ∃ ctx' child', fillChild t (ctx.plug child) ctx.index = some (ctx'.plug child') ∧
      Refilled t h ctx child ctx' child' := by
  have minimal := shaped.lower
  obtain ⟨prev, prevTest, prevSibling⟩ := prevHasSpare_spec ctx child fits
  obtain ⟨next, nextTest, nextSibling⟩ := nextHasSpare_spec ctx child fits
  rw [fillChild_eq ctx child prevTest nextTest]
  cases prev with
  | true =>
    obtain ⟨outer, left, k, v, rfl, spare⟩ := prevSibling (.inl rfl)
    obtain ⟨outerFits, leftShaped⟩ := outer.fits_growLeft.mp fits
    have spare : t ≤ left.keys.length := by simpa using spare.symm
    obtain ⟨left', k', v', child', moved, computes, leftShaped', shaped', rotated, entered⟩ :=
      borrowFromPrev_spec outer (k := k) (v := v) positive (leftShaped.retune spare) shaped
        (by omega)
    have deep := shaped'.lower
    refine ⟨outer.growLeft left' k' v', child', ?_, ?_, by simp, by simp,
      shaped'.retune (by omega), moved, [], ?_, by simp, by simp [entered]⟩
    · simp only [if_true, plug_growLeft, index_growLeft, computes]
    · exact outer.fits_growLeft.mpr ⟨outerFits, leftShaped'⟩
    · rw [before_growLeft, rotated, before_growLeft]
      simp
  | false =>
    cases next with
    | true =>
      obtain ⟨outer, k, v, right, rfl, spare⟩ := nextSibling (.inl rfl)
      obtain ⟨outerFits, rightShaped⟩ := outer.fits_growRight.mp fits
      have spare : t ≤ right.keys.length := by simpa using spare.symm
      obtain ⟨child', k', v', right', moved, computes, rightShaped', shaped', rotated, entered⟩ :=
        borrowFromNext_spec outer (k := k) (v := v) positive (rightShaped.retune spare) shaped
          (by omega)
      have deep := shaped'.lower
      refine ⟨outer.growRight k' v' right', child', ?_, ?_, by simp, by simp,
        shaped'.retune (by omega), [], moved, by simp, ?_, by simp [entered]⟩
      · simp only [Bool.false_eq_true, if_false, if_true, plug_growRight, index_growRight, computes]
      · exact outer.fits_growRight.mpr ⟨outerFits, rightShaped'⟩
      · rw [after_growRight, rotated, after_growRight]
        simp
    | false =>
      by_cases first : 0 < ctx.index
      · obtain ⟨outer, left, k, v, rfl, spare⟩ := prevSibling (.inr first)
        obtain ⟨outerFits, leftShaped⟩ := outer.fits_growLeft.mp fits
        have spare : left.keys.length < t := by simpa using spare.symm
        have leftMinimal := leftShaped.lower
        obtain ⟨merged, computes, mergedShaped, joined⟩ :=
          mergeChildren_spec outer (k := k) (v := v) leftShaped shaped (by omega)
        refine ⟨outer, merged, ?_, outerFits, by simp, by simp, mergedShaped.retune ?_,
          entries left ++ [(k, v)], [], outer.before_growLeft left k v, by simp, by simp [joined]⟩
        · rw [index_growLeft] at first
          simp only [Bool.false_eq_true, if_false, index_growLeft, first, if_true,
            Nat.add_sub_cancel, plug_growLeft, computes]
        · have := mergedShaped.lower
          omega
      · have last : ctx.rightKeys ≠ [] := by
          intro none
          simp only [Context.index, not_lt, Nat.le_zero] at first
          simp only [Context.size, first, none, List.length_nil] at sibling
          omega
        obtain ⟨outer, k, v, right, rfl, spare⟩ := nextSibling (.inr last)
        obtain ⟨outerFits, rightShaped⟩ := outer.fits_growRight.mp fits
        have spare : right.keys.length < t := by simpa using spare.symm
        have rightMinimal := rightShaped.lower
        obtain ⟨merged, computes, mergedShaped, joined⟩ :=
          mergeChildren_spec outer (k := k) (v := v) shaped rightShaped (by omega)
        refine ⟨outer, merged, ?_, outerFits, by simp, by simp, mergedShaped.retune ?_,
          [], (k, v) :: entries right, by simp, outer.after_growRight k v right, by simp [joined]⟩
        · rw [index_growRight] at first
          simp only [Bool.false_eq_true, if_false, index_growRight, first, plug_growRight, computes]
        · have := mergedShaped.lower
          omega

end CppDB.BTree
