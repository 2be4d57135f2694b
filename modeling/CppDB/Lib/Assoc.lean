import Mathlib

/-! Association lists as finite maps. A list with distinct keys denotes a
`Finmap`; over a linear order the strictly ascending list is the canonical one.
The editing lemmas are local: an edit at a key that is bracketed by a prefix and
a suffix touches only the middle, which is how a search tree edits its contents. -/
namespace Assoc

variable {K V : Type}

def keys (l : List (K × V)) : List K := l.map Prod.fst

@[simp] theorem keys_nil : keys ([] : List (K × V)) = [] := rfl

@[simp] theorem keys_cons (e : K × V) (l : List (K × V)) : keys (e :: l) = e.1 :: keys l := rfl

@[simp] theorem keys_append (l r : List (K × V)) : keys (l ++ r) = keys l ++ keys r := by
  simp [keys]

@[simp] theorem length_keys (l : List (K × V)) : (keys l).length = l.length := by simp [keys]

theorem mem_keys {l : List (K × V)} {k : K} : k ∈ keys l ↔ ∃ v, (k, v) ∈ l := by
  simp [keys]

theorem mem_keys_of_mem {l : List (K × V)} {e : K × V} (h : e ∈ l) : e.1 ∈ keys l :=
  List.mem_map_of_mem h

section Map
variable [DecidableEq K]

/-- The first value filed under a key. -/
def find (k : K) : List (K × V) → Option V
  | [] => none
  | e :: l => if e.1 = k then some e.2 else find k l

/-- Drop every entry filed under a key. -/
def without (k : K) (l : List (K × V)) : List (K × V) := l.filter fun e => e.1 ≠ k

/-- Rebind a key where it is filed. -/
def assign (k : K) (v : V) (l : List (K × V)) : List (K × V) :=
  l.map fun e => if e.1 = k then (k, v) else e

theorem find_append (k : K) (l r : List (K × V)) :
    find k (l ++ r) = (find k l).or (find k r) := by
  induction l with
  | nil => simp [find]
  | cons e l ih =>
    simp only [List.cons_append, find]
    split <;> simp [ih]

theorem find_eq_none {k : K} {l : List (K × V)} : find k l = none ↔ k ∉ keys l := by
  induction l with
  | nil => simp [find]
  | cons e l ih =>
    simp only [find, keys_cons, List.mem_cons, not_or]
    split
    · simp_all
    · simp only [ih, iff_and_self]
      exact fun _ same => absurd same.symm ‹_›

theorem find_isSome {k : K} {l : List (K × V)} : (find k l).isSome ↔ k ∈ keys l := by
  rw [Option.isSome_iff_ne_none, ne_eq, find_eq_none, not_not]

theorem mem_of_find {k : K} {v : V} {l : List (K × V)} (h : find k l = some v) : (k, v) ∈ l := by
  induction l with
  | nil => simp [find] at h
  | cons e l ih =>
    simp only [find] at h
    split at h
    · simp_all [Prod.ext_iff]
    · exact List.mem_cons_of_mem _ (ih h)

theorem find_of_mem {k : K} {v : V} {l : List (K × V)} (distinct : (keys l).Nodup)
    (h : (k, v) ∈ l) : find k l = some v := by
  induction l with
  | nil => simp at h
  | cons e l ih =>
    simp only [keys_cons, List.nodup_cons] at distinct
    rcases List.mem_cons.mp h with rfl | h
    · simp [find]
    · have other : e.1 ≠ k := fun same => distinct.1 (same ▸ mem_keys_of_mem h)
      simp only [find, if_neg other, ih distinct.2 h]

theorem value_unique {k : K} {v v' : V} {l : List (K × V)} (distinct : (keys l).Nodup)
    (h : (k, v) ∈ l) (h' : (k, v') ∈ l) : v = v' :=
  Option.some.inj ((find_of_mem distinct h).symm.trans (find_of_mem distinct h'))

/-- The values filed under one key. -/
theorem map_snd_filter_key {l : List (K × V)} (distinct : (keys l).Nodup) (k : K) :
    (l.filter fun e => e.1 = k).map Prod.snd = (find k l).toList := by
  induction l with
  | nil => rfl
  | cons e rest ih =>
    rw [keys_cons, List.nodup_cons] at distinct
    by_cases same : e.1 = k
    · have absent : rest.filter (fun e => decide (e.1 = k)) = [] := by
        rw [List.filter_eq_nil_iff]
        intro other there is
        apply distinct.1
        rw [same, ← of_decide_eq_true is]
        exact mem_keys_of_mem there
      simp [find, same, absent]
    · simp [find, same, ih distinct.2]

theorem find_perm {l r : List (K × V)} (distinct : (keys l).Nodup) (h : l.Perm r) (k : K) :
    find k l = find k r := by
  have distinct' : (keys r).Nodup := (h.map Prod.fst).nodup_iff.mp distinct
  cases found : find k l with
  | none =>
    refine (find_eq_none.mpr fun there => ?_).symm
    exact find_eq_none.mp found ((h.map Prod.fst).mem_iff.mpr there)
  | some v => exact (find_of_mem distinct' (h.mem_iff.mp (mem_of_find found))).symm

theorem find_without_self (k : K) (l : List (K × V)) : find k (without k l) = none := by
  simp [find_eq_none, keys, without]

theorem find_without_of_ne {k k' : K} (h : k' ≠ k) (l : List (K × V)) :
    find k' (without k l) = find k' l := by
  induction l with
  | nil => rfl
  | cons e l ih =>
    by_cases same : e.1 = k
    · have other : e.1 ≠ k' := fun s => h (s.symm.trans same)
      have gone : without k (e :: l) = without k l := by simp [without, same]
      rw [gone, ih, find, if_neg other]
    · have kept : without k (e :: l) = e :: without k l := by simp [without, same]
      rw [kept, find, find, ih]

@[simp] theorem keys_assign (k : K) (v : V) (l : List (K × V)) : keys (assign k v l) = keys l := by
  simp only [keys, assign, List.map_map]
  apply List.map_congr_left
  intro e _
  simp only [Function.comp_apply]
  split <;> simp_all

theorem assign_eq_self {k : K} {l : List (K × V)} (v : V) (absent : k ∉ keys l) :
    assign k v l = l := by
  refine (List.map_congr_left fun e there => ?_).trans (List.map_id l)
  have other : e.1 ≠ k := fun same => absent (same ▸ mem_keys_of_mem there)
  exact if_neg other

theorem assign_middle {k : K} {v v' : V} {front back : List (K × V)}
    (distinct : (keys (front ++ (k, v') :: back)).Nodup) :
    assign k v (front ++ (k, v') :: back) = front ++ (k, v) :: back := by
  rw [keys_append, keys_cons] at distinct
  obtain ⟨_, right, crosses⟩ := List.nodup_append.mp distinct
  have left : assign k v front = front :=
    assign_eq_self v fun there => crosses k there k (by simp) rfl
  have rest : assign k v back = back := assign_eq_self v (List.nodup_cons.mp right).1
  simp only [assign] at left rest
  simp only [assign, List.map_append, List.map_cons, left, rest, if_true]

theorem assign_assign (k : K) (v v' : V) (l : List (K × V)) :
    assign k v' (assign k v l) = assign k v' l := by
  simp only [assign, List.map_map]
  apply List.map_congr_left
  intro e _
  simp only [Function.comp_apply]
  split <;> simp_all

/-- Rebinding as a map over the entries. -/
theorem assign_eq_map {k : K} {v : V} {l : List (K × V)} (distinct : (keys l).Nodup)
    (bound : find k l = some v) (f : V → V) :
    assign k (f v) l = l.map fun e => if e.1 = k then (e.1, f e.2) else e := by
  apply List.map_congr_left
  rintro ⟨k', v'⟩ there
  by_cases same : k' = k
  · subst same
    obtain rfl := Option.some.inj (bound.symm.trans (find_of_mem distinct there))
    rfl
  · simp [same]

theorem find_assign_self {k : K} {l : List (K × V)} (v : V) (present : k ∈ keys l) :
    find k (assign k v l) = some v := by
  induction l with
  | nil => simp at present
  | cons e l ih =>
    by_cases same : e.1 = k
    · simp [assign, find, same]
    · have there : k ∈ keys l := by simpa [Ne.symm same] using present
      simpa [assign, find, same] using ih there

theorem without_append (k : K) (l r : List (K × V)) :
    without k (l ++ r) = without k l ++ without k r := by
  simp [without]

theorem without_eq_self {k : K} {l : List (K × V)} (h : k ∉ keys l) : without k l = l := by
  rw [without, List.filter_eq_self]
  intro e there
  simp only [ne_eq, decide_not, Bool.not_eq_true', decide_eq_false_iff_not]
  exact fun same => h (same ▸ mem_keys_of_mem there)

theorem without_middle {k : K} {v : V} {front back : List (K × V)}
    (distinct : (keys (front ++ (k, v) :: back)).Nodup) :
    without k (front ++ (k, v) :: back) = front ++ back := by
  rw [keys_append, keys_cons] at distinct
  obtain ⟨_, right, crosses⟩ := List.nodup_append.mp distinct
  have left : without k front = front :=
    without_eq_self fun there => crosses k there k (by simp) rfl
  have rest : without k back = back := without_eq_self (List.nodup_cons.mp right).1
  have dropped : without k ((k, v) :: back) = without k back := by simp [without]
  rw [without_append, left, dropped, rest]

theorem length_without {k : K} {l : List (K × V)} (h : (keys l).Nodup) (present : k ∈ keys l) :
    (without k l).length + 1 = l.length := by
  induction l with
  | nil => simp at present
  | cons e l ih =>
    simp only [keys_cons, List.nodup_cons] at h
    by_cases same : e.1 = k
    · have kept : Assoc.without k l = l := without_eq_self (same ▸ h.1)
      have gone : Assoc.without k (e :: l) = Assoc.without k l := by simp [Assoc.without, same]
      rw [gone, kept, List.length_cons]
    · have there : k ∈ keys l := by
        simp only [keys_cons, List.mem_cons] at present
        exact present.resolve_left (Ne.symm same)
      have kept : Assoc.without k (e :: l) = e :: Assoc.without k l := by simp [Assoc.without, same]
      rw [kept, List.length_cons, ih h.2 there, List.length_cons]

/-- The finite map an association list denotes. -/
def toMap (l : List (K × V)) : Finmap (fun _ : K => V) :=
  (l.map fun e => (⟨e.1, e.2⟩ : Sigma fun _ : K => V)).toFinmap

theorem lookup_toMap (k : K) (l : List (K × V)) : (toMap l).lookup k = find k l := by
  rw [toMap, Finmap.dlookup_list_toFinmap]
  induction l with
  | nil => simp [find]
  | cons e l ih =>
    rw [List.map_cons, find]
    split
    · rename_i same
      subst same
      exact List.dlookup_cons_eq _ _ _
    · rename_i other
      rw [List.dlookup_cons_ne _ _ (Ne.symm other), ih]

theorem mem_toMap {k : K} {l : List (K × V)} : k ∈ toMap l ↔ k ∈ keys l := by
  rw [← Finmap.lookup_isSome, lookup_toMap, find_isSome]

theorem toMap_nil : toMap ([] : List (K × V)) = ∅ := rfl

theorem toMap_without (k : K) (l : List (K × V)) : toMap (without k l) = (toMap l).erase k := by
  apply Finmap.ext_lookup
  intro k'
  rw [lookup_toMap]
  by_cases same : k' = k
  · subst same
    rw [find_without_self, Finmap.lookup_erase]
  · rw [find_without_of_ne same, Finmap.lookup_erase_ne same, lookup_toMap]

/-- Any list that answers like `l` except at `k` denotes `l` with `k` rebound. -/
theorem toMap_eq_insert {k : K} {v : V} {l l' : List (K × V)} (at_key : find k l' = some v)
    (elsewhere : ∀ k', k' ≠ k → find k' l' = find k' l) :
    toMap l' = (toMap l).insert k v := by
  apply Finmap.ext_lookup
  intro k'
  rw [lookup_toMap]
  by_cases same : k' = k
  · subst same
    rw [at_key, Finmap.lookup_insert]
  · rw [elsewhere k' same, Finmap.lookup_insert_of_ne _ same, lookup_toMap]

/-- A pair filed under a key that occurs nowhere before it. -/
theorem toMap_middle {k : K} {v : V} {front back : List (K × V)} (absent : k ∉ keys front) :
    toMap (front ++ [(k, v)] ++ back) = (toMap (front ++ back)).insert k v := by
  apply toMap_eq_insert
  · simp [find_append, find_eq_none.mpr absent, find]
  · intro k' other
    simp [find_append, find, Ne.symm other]

theorem toMap_erase_middle {k : K} {v : V} {front back : List (K × V)}
    (distinct : (keys (front ++ [(k, v)] ++ back)).Nodup) :
    toMap (front ++ back) = (toMap (front ++ [(k, v)] ++ back)).erase k := by
  rw [List.append_assoc, List.singleton_append] at distinct ⊢
  rw [← toMap_without, without_middle distinct]

theorem keys_toMap (l : List (K × V)) : (toMap l).keys = (keys l).toFinset := by
  ext k
  rw [Finmap.mem_keys, mem_toMap, List.mem_toFinset]

theorem card_toMap {l : List (K × V)} (distinct : (keys l).Nodup) :
    (toMap l).keys.card = l.length := by
  rw [keys_toMap, List.toFinset_card_of_nodup distinct, length_keys]

end Map

section Order
variable [LinearOrder K]

/-- Keys strictly ascend, so each is filed once. -/
def Ascending (l : List (K × V)) : Prop := l.Pairwise fun a b => a.1 < b.1

/-- Insert a pair before the first larger key. -/
def insertAscending (k : K) (v : V) : List (K × V) → List (K × V)
  | [] => [(k, v)]
  | e :: l => if k < e.1 then (k, v) :: e :: l else e :: insertAscending k v l

theorem ascending_append {l r : List (K × V)} :
    Ascending (l ++ r) ↔ Ascending l ∧ Ascending r ∧ ∀ a ∈ l, ∀ b ∈ r, a.1 < b.1 :=
  List.pairwise_append

theorem Ascending.nodup {l : List (K × V)} (h : Ascending l) : (keys l).Nodup := by
  rw [keys, List.Nodup, List.pairwise_map]
  exact h.imp fun lt => ne_of_lt lt

/-- The middle of an ascending list that is bracketed by smaller and larger keys
is all an insertion sees. -/
theorem insertAscending_between {k : K} {v : V} {front mid back : List (K × V)}
    (below : ∀ e ∈ front, e.1 < k) (above : ∀ e ∈ back, k < e.1) :
    insertAscending k v (front ++ mid ++ back) = front ++ insertAscending k v mid ++ back := by
  induction front with
  | nil =>
    rw [List.nil_append, List.nil_append]
    induction mid with
    | nil =>
      cases back with
      | nil => rfl
      | cons e back => simp [insertAscending, above e (by simp)]
    | cons e mid ih =>
      simp only [List.cons_append, insertAscending]
      split <;> simp [ih]
  | cons e front ih =>
    have smaller := below e (by simp)
    simp only [List.cons_append, insertAscending, if_neg (not_lt_of_gt smaller)]
    rw [ih fun e' there => below e' (by simp [there])]

theorem insertAscending_at {k : K} {v : V} {front back : List (K × V)}
    (below : ∀ e ∈ front, e.1 < k) (above : ∀ e ∈ back, k < e.1) :
    insertAscending k v (front ++ back) = front ++ (k, v) :: back := by
  have between : insertAscending k v (front ++ [] ++ back) =
      front ++ insertAscending k v [] ++ back := insertAscending_between below above
  simpa [insertAscending] using between

theorem without_between {k : K} {front mid back : List (K × V)}
    (below : ∀ e ∈ front, e.1 < k) (above : ∀ e ∈ back, k < e.1) :
    without k (front ++ mid ++ back) = front ++ without k mid ++ back := by
  have outside_front : k ∉ keys front := by
    rw [mem_keys]
    rintro ⟨v, there⟩
    exact lt_irrefl k (below _ there)
  have outside_back : k ∉ keys back := by
    rw [mem_keys]
    rintro ⟨v, there⟩
    exact lt_irrefl k (above _ there)
  rw [without_append, without_append, without_eq_self outside_front, without_eq_self outside_back]

theorem find_between {k : K} {front mid back : List (K × V)}
    (below : ∀ e ∈ front, e.1 < k) (above : ∀ e ∈ back, k < e.1) :
    find k (front ++ mid ++ back) = find k mid := by
  have outside_front : find k front = none := by
    rw [find_eq_none, mem_keys]
    rintro ⟨v, there⟩
    exact lt_irrefl k (below _ there)
  have outside_back : find k back = none := by
    rw [find_eq_none, mem_keys]
    rintro ⟨v, there⟩
    exact lt_irrefl k (above _ there)
  simp [find_append, outside_front, outside_back]

theorem mem_insertAscending {k : K} {v : V} {l : List (K × V)} {e : K × V} :
    e ∈ insertAscending k v l ↔ e = (k, v) ∨ e ∈ l := by
  induction l with
  | nil => simp [insertAscending]
  | cons a l ih =>
    simp only [insertAscending]
    split
    · simp
    · simp only [List.mem_cons, ih]
      exact or_left_comm

theorem length_insertAscending (k : K) (v : V) (l : List (K × V)) :
    (insertAscending k v l).length = l.length + 1 := by
  induction l with
  | nil => rfl
  | cons e l ih =>
    simp only [insertAscending]
    split <;> simp [ih]

theorem Ascending.insert {k : K} {v : V} {l : List (K × V)} (h : Ascending l)
    (absent : k ∉ keys l) : Ascending (insertAscending k v l) := by
  induction l with
  | nil => exact List.pairwise_singleton _ _
  | cons e l ih =>
    have tail := List.pairwise_cons.mp h
    simp only [keys_cons, List.mem_cons, not_or] at absent
    simp only [insertAscending]
    split
    · rename_i smaller
      refine List.pairwise_cons.mpr ⟨?_, h⟩
      intro b there
      rcases List.mem_cons.mp there with rfl | there
      · exact smaller
      · exact lt_trans smaller (tail.1 b there)
    · rename_i larger
      refine List.pairwise_cons.mpr ⟨?_, ih tail.2 absent.2⟩
      intro b there
      rcases mem_insertAscending.mp there with rfl | there
      · exact lt_of_le_of_ne (not_lt.mp larger) (Ne.symm absent.1)
      · exact tail.1 b there

theorem Ascending.without {k : K} {l : List (K × V)} (h : Ascending l) :
    Ascending (without k l) :=
  List.Pairwise.filter _ h

theorem ascending_iff_keys {l : List (K × V)} : Ascending l ↔ (keys l).Pairwise (· < ·) := by
  rw [keys, List.pairwise_map]
  rfl

theorem Ascending.assign {k : K} {v : V} {l : List (K × V)} (h : Ascending l) :
    Ascending (assign k v l) := by
  rw [ascending_iff_keys, keys_assign, ← ascending_iff_keys]
  exact h

theorem find_insertAscending_self {k : K} {v : V} {l : List (K × V)} (h : Ascending l)
    (absent : k ∉ keys l) : find k (insertAscending k v l) = some v :=
  find_of_mem (h.insert absent).nodup (mem_insertAscending.mpr (.inl rfl))

theorem find_insertAscending_of_ne {k k' : K} (h : k' ≠ k) (v : V) (l : List (K × V)) :
    find k' (insertAscending k v l) = find k' l := by
  induction l with
  | nil => simp [insertAscending, find, Ne.symm h]
  | cons e l ih =>
    simp only [insertAscending]
    split
    · rw [find, if_neg (Ne.symm h)]
    · rw [find, find, ih]

theorem toMap_insertAscending {k : K} {v : V} {l : List (K × V)} (h : Ascending l)
    (absent : k ∉ keys l) : toMap (insertAscending k v l) = (toMap l).insert k v :=
  toMap_eq_insert (find_insertAscending_self h absent)
    fun _ other => find_insertAscending_of_ne other v l

/-- The entries of a finite map in ascending key order. -/
def ascending (m : Finmap (fun _ : K => V)) : List (K × V) :=
  (m.keys.sort (· ≤ ·)).filterMap fun k => (m.lookup k).map fun v => (k, v)

theorem ascending_toMap {l : List (K × V)} (h : Ascending l) : ascending (toMap l) = l := by
  have strict := ascending_iff_keys.mp h
  have sorted : (toMap l).keys.sort (· ≤ ·) = keys l := by
    rw [keys_toMap]
    exact List.toFinset_sort (· ≤ ·) h.nodup |>.mpr (strict.imp le_of_lt)
  have values : ∀ e ∈ l, (toMap l).lookup e.1 = some e.2 := fun e there => by
    rw [lookup_toMap]
    exact find_of_mem h.nodup there
  rw [ascending, sorted, keys, List.filterMap_map]
  calc l.filterMap (_ ∘ Prod.fst) = l.filterMap some := by
        refine List.filterMap_congr fun e there => ?_
        simp [values e there]
    _ = l := List.filterMap_some

end Order
end Assoc
