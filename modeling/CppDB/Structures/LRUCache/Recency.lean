import CppDB.Lib.Total
import CppDB.Structures.LRUCache.Model

/-! The cache as a list of pairs in order of last use, and the cache type whose
values carry the invariant: every indexed iterator points at the node of its key. -/
namespace CppDB.LRUCache
open Assoc (keys)

variable {K V : Type}

/-- The entries in order of last use, hottest first. -/
def recency (items : List (Node K V)) : List (K × V) := items.map fun node => (node.key, node.value)

def iterators (items : List (Node K V)) : List (K × Nat) := items.map fun node => (node.key, node.id)

theorem keys_iterators (items : List (Node K V)) : keys (iterators items) = keys (recency items) := by
  simp [iterators, recency, keys]

variable {front back : List (Node K V)} {node : Node K V}

theorem unlink_split (distinct : ((front ++ node :: back).map Node.id).Nodup) :
    unlink node.id (front ++ node :: back) = some (node, front ++ back) := by
  induction front with
  | nil => simp [unlink]
  | cons other front ih =>
    simp only [List.cons_append, List.map_cons, List.nodup_cons] at distinct
    have apart : other.id ≠ node.id := by
      intro same
      apply distinct.1
      simp [same]
    simp [unlink, apart, ih distinct.2]

theorem assignNode_split (distinct : ((front ++ node :: back).map Node.id).Nodup) (value : V) :
    assignNode node.id value (front ++ node :: back) =
      some (front ++ { node with value } :: back) := by
  induction front with
  | nil => simp [assignNode]
  | cons other front ih =>
    simp only [List.cons_append, List.map_cons, List.nodup_cons] at distinct
    have apart : other.id ≠ node.id := by
      intro same
      apply distinct.1
      simp [same]
    simp [assignNode, apart, ih distinct.2]

variable [DecidableEq K] [StdHash K] {c : LRUCache K V} {key : K}

def contents (c : LRUCache K V) : List (K × V) := recency c.items

/-- The class invariant. -/
structure Valid (c : LRUCache K V) : Prop where
  positive : 0 < c.capacity
  bounded : c.items.length ≤ c.capacity
  nodes : (c.items.map Node.id).Nodup
  distinct : (keys c.contents).Nodup
  indexed : c.index.toMap = Assoc.toMap (iterators c.items)
  allocated : ∀ node ∈ c.items, node.id < c.allocated

theorem create_spec {capacity : Nat} (positive : 0 < capacity) :
    ∃ c : LRUCache K V, create capacity = .ok c ∧ c.Valid ∧ c.contents = [] := by
  refine ⟨_, if_neg (by omega), ?_, rfl⟩
  exact ⟨positive, Nat.zero_le _, List.nodup_nil, List.nodup_nil, HashMap.Sound.toMap_empty,
    by simp⟩

namespace Valid

/-- An indexed iterator points at the node of its key; an unindexed key has none. -/
theorem locate (valid : c.Valid) (key : K) :
    (∃ front node back, c.items = front ++ node :: back ∧ node.key = key ∧
        c.index.find key = some node.id) ∨
      c.index.find key = none ∧ key ∉ keys c.contents := by
  have lookup : c.index.find key = Assoc.find key (iterators c.items) := by
    rw [HashMap.Sound.find_eq, valid.indexed, Assoc.lookup_toMap]
  cases found : Assoc.find key (iterators c.items) with
  | none =>
    rw [Assoc.find_eq_none, keys_iterators] at found
    exact .inr ⟨lookup.trans (Assoc.find_eq_none.mpr (by rwa [keys_iterators])), found⟩
  | some it =>
    obtain ⟨node, there, pair⟩ := List.mem_map.mp (Assoc.mem_of_find found)
    obtain ⟨rfl, rfl⟩ := Prod.mk.inj pair
    obtain ⟨front, back, split⟩ := List.append_of_mem there
    exact .inl ⟨front, node, back, split, rfl, lookup.trans found⟩

/-- Reordering nodes, or changing values, keeps the index right. -/
theorem rearrange (valid : c.Valid) {items : List (Node K V)}
    (same : (iterators items).Perm (iterators c.items)) (hits misses : Nat) :
    Valid { c with items, hits, misses } := by
  have ids : (items.map Node.id).Perm (c.items.map Node.id) := by
    have seconds := same.map Prod.snd
    simpa only [iterators, List.map_map, Function.comp_def] using seconds
  have keysPerm : (keys (iterators items)).Perm (keys (iterators c.items)) := same.map Prod.fst
  have distinct : (keys (iterators items)).Nodup := by
    rw [keysPerm.nodup_iff, keys_iterators]
    exact valid.distinct
  constructor
  · exact valid.positive
  · have length := ids.length_eq
    simp only [List.length_map] at length
    exact length ▸ valid.bounded
  · exact ids.nodup_iff.mpr valid.nodes
  · rwa [keys_iterators] at distinct
  · rw [valid.indexed]
    apply Finmap.ext_lookup
    intro k
    rw [Assoc.lookup_toMap, Assoc.lookup_toMap, Assoc.find_perm distinct same]
  · intro node there
    have known : node.id ∈ c.items.map Node.id := ids.mem_iff.mp (List.mem_map_of_mem there)
    obtain ⟨node', there', same⟩ := List.mem_map.mp known
    exact same ▸ valid.allocated node' there'

/-- Unlinking a node together with its index entry. -/
theorem drop (valid : c.Valid) (split : c.items = front ++ node :: back) :
    Valid { c with items := front ++ back, index := (c.index.erase node.key).1 } := by
  have nodes := valid.nodes
  have distinct := valid.distinct
  have bounded := valid.bounded
  simp only [contents, split] at nodes distinct bounded
  constructor
  · exact valid.positive
  · simp only [List.length_append, List.length_cons] at bounded ⊢
    omega
  · exact nodes.sublist (by simp)
  · exact distinct.sublist (by simp [contents, recency, keys])
  · rw [HashMap.Sound.toMap_erase, valid.indexed, split]
    have keysNodup : (keys (iterators front ++ [(node.key, node.id)] ++ iterators back)).Nodup := by
      rw [← keys_iterators] at distinct
      simpa [iterators] using distinct
    simpa [iterators] using (Assoc.toMap_erase_middle keysNodup).symm
  · intro other there
    apply valid.allocated
    rw [split]
    simp only [List.mem_append, List.mem_cons] at there ⊢
    exact there.imp id .inr

theorem makeRoom (valid : c.Valid) :
    ∃ c', LRUCache.makeRoom c = some c' ∧ c'.Valid ∧ c'.items.length < c.capacity ∧
      c'.capacity = c.capacity ∧
      c'.contents = if c.contents.length = c.capacity then c.contents.dropLast else c.contents := by
  have length : c.contents.length = c.items.length := by simp [contents, recency]
  by_cases full : c.items.length = c.capacity
  · have positive := valid.positive
    obtain ⟨front, back, split⟩ : ∃ front back, c.items = front ++ back :: [] := by
      rcases List.eq_nil_or_concat' c.items with none | ⟨front, back, split⟩
      · simp only [none, List.length_nil] at full
        omega
      · exact ⟨front, back, split⟩
    have dropped := valid.drop split
    rw [List.append_nil] at dropped
    refine ⟨_, ?_, dropped, ?_, rfl, ?_⟩
    · rw [LRUCache.makeRoom, if_pos full, split]
      simp only [Vec.popBack_split, Option.bind_eq_bind, Option.bind_some]
      rfl
    · rw [split, List.length_append, List.length_singleton] at full
      simp only
      omega
    · rw [if_pos (length.trans full)]
      simp [contents, recency, split]
  · have bounded := valid.bounded
    exact ⟨c, if_neg full, valid, by omega, rfl, (if_neg (by rwa [length])).symm⟩

/-- A new node at the front of a cache that has room and does not know the key. -/
theorem add (valid : c.Valid) (room : c.items.length < c.capacity) (absent : key ∉ keys c.contents)
    (value : V) :
    Valid { c with
      items := ⟨c.allocated, key, value⟩ :: c.items
      index := (c.index.insertOrAssign key c.allocated).1
      allocated := c.allocated + 1 } := by
  constructor
  · exact valid.positive
  · simpa using room
  · refine List.nodup_cons.mpr ⟨?_, valid.nodes⟩
    intro there
    obtain ⟨node, there, same⟩ := List.mem_map.mp there
    exact absurd (valid.allocated node there) (by simp [same])
  · exact List.nodup_cons.mpr ⟨absent, valid.distinct⟩
  · rw [HashMap.Sound.toMap_insertOrAssign, valid.indexed]
    have absentBefore : key ∉ keys ([] : List (K × Nat)) := List.not_mem_nil
    exact (Assoc.toMap_middle absentBefore).symm
  · intro node there
    simp only [List.mem_cons] at there ⊢
    rcases there with rfl | there
    · exact Nat.lt_succ_self _
    · exact Nat.lt_succ_of_lt (valid.allocated node there)

theorem put (valid : c.Valid) (key : K) (value : V) :
    ∃ c', LRUCache.put c key value = some c' ∧ c'.Valid ∧ c'.capacity = c.capacity ∧
      c'.contents = (key, value) ::
        if key ∈ keys c.contents then Assoc.without key c.contents
        else if c.contents.length = c.capacity then c.contents.dropLast else c.contents := by
  rcases valid.locate key with ⟨front, node, back, split, rfl, found⟩ | ⟨missing, absent⟩
  · have nodes := valid.nodes
    rw [split] at nodes
    have assigned := assignNode_split nodes value
    have nodes' : ((front ++ { node with value } :: back).map Node.id).Nodup := by
      simpa using nodes
    have unlinked : unlink node.id (front ++ { node with value } :: back) = _ := unlink_split nodes'
    have moves : (iterators ({ node with value } :: (front ++ back))).Perm (iterators c.items) := by
      rw [split]
      simpa [iterators] using List.perm_middle.symm
    refine ⟨_, ?_, valid.rearrange moves c.hits c.misses, rfl, ?_⟩
    · simp only [LRUCache.put, found, split, assigned, touch, unlinked, Option.bind_eq_bind,
        Option.bind_some]
      rfl
    · have distinct := valid.distinct
      have shape : c.contents = recency front ++ (node.key, node.value) :: recency back := by
        simp [contents, recency, split]
      rw [shape] at distinct ⊢
      rw [if_pos (by simp), Assoc.without_middle distinct]
      simp [contents, recency]
  · obtain ⟨c', makes, valid', room, capacity, shape⟩ := valid.makeRoom
    have absent' : key ∉ keys c'.contents := by
      rw [shape]
      split
      · intro there
        exact absent ((List.dropLast_sublist _).map Prod.fst |>.subset there)
      · exact absent
    refine ⟨_, ?_, valid'.add (by omega) absent' value, capacity, ?_⟩
    · simp only [LRUCache.put, missing, makes, Option.bind_eq_bind, Option.bind_some]
      rfl
    · rw [if_neg absent, ← shape]
      rfl

theorem get (valid : c.Valid) (key : K) :
    ∃ c', LRUCache.get c key = some (c', Assoc.find key c.contents) ∧ c'.Valid ∧
      c'.capacity = c.capacity ∧
      c'.contents = match Assoc.find key c.contents with
        | none => c.contents
        | some v => (key, v) :: Assoc.without key c.contents := by
  rcases valid.locate key with ⟨front, node, back, split, rfl, found⟩ | ⟨missing, absent⟩
  · have nodes := valid.nodes
    rw [split] at nodes
    have moves : (iterators (node :: (front ++ back))).Perm (iterators c.items) := by
      rw [split]
      simpa [iterators] using List.perm_middle.symm
    have distinct := valid.distinct
    have shape : c.contents = recency front ++ (node.key, node.value) :: recency back := by
      simp [contents, recency, split]
    rw [shape] at distinct ⊢
    have bound := Assoc.find_of_mem distinct (k := node.key) (v := node.value) (by simp)
    refine ⟨_, ?_, valid.rearrange moves (c.hits + 1) c.misses, rfl, ?_⟩
    · simp only [LRUCache.get, found, split, touch, unlink_split nodes, bound, Option.bind_eq_bind,
        Option.bind_some]
      rfl
    · simp only [bound, Assoc.without_middle distinct]
      simp [contents, recency]
  · have unbound := Assoc.find_eq_none.mpr absent
    refine ⟨_, ?_, valid.rearrange (List.Perm.refl _) c.hits (c.misses + 1), rfl, ?_⟩
    · simp only [LRUCache.get, missing, unbound]
    · simp only [unbound]
      rfl

theorem erase (valid : c.Valid) (key : K) :
    ∃ c', LRUCache.erase c key = some (c', decide (key ∈ keys c.contents)) ∧ c'.Valid ∧
      c'.capacity = c.capacity ∧ c'.contents = Assoc.without key c.contents := by
  rcases valid.locate key with ⟨front, node, back, split, rfl, found⟩ | ⟨missing, absent⟩
  · have nodes := valid.nodes
    rw [split] at nodes
    have distinct := valid.distinct
    have shape : c.contents = recency front ++ (node.key, node.value) :: recency back := by
      simp [contents, recency, split]
    rw [shape] at distinct ⊢
    refine ⟨_, ?_, valid.drop split, rfl, ?_⟩
    · simp only [LRUCache.erase, found, split, unlink_split nodes, Option.bind_eq_bind,
        Option.bind_some]
      simp
    · rw [Assoc.without_middle distinct]
      simp [contents, recency]
  · refine ⟨c, ?_, valid, rfl, (Assoc.without_eq_self absent).symm⟩
    simp only [LRUCache.erase, missing, absent, decide_false]

end Valid

variable (K V) in
/-- A cache that carries its class invariant, so that its operations are total. -/
def Sound : Type := { c : LRUCache K V // c.Valid }

namespace Sound

def contents (c : Sound K V) : List (K × V) := c.val.contents

def create (capacity : Nat) : Except Exn (Sound K V) :=
  match is : (LRUCache.create capacity : Except Exn (LRUCache K V)) with
  | .error e => .error e
  | .ok c => .ok ⟨c, by
      by_cases zero : capacity = 0
      · simp [LRUCache.create, zero] at is
      · obtain ⟨c', same, valid, _⟩ :=
          create_spec (K := K) (V := V) (Nat.pos_of_ne_zero zero)
        cases is.symm.trans same
        exact valid⟩

def put (c : Sound K V) (key : K) (value : V) : Sound K V :=
  (Total.keep ((c.val.put key value).map (·, ())) (by
    obtain ⟨c', puts, valid, _⟩ := c.property.put key value
    exact ⟨c', (), by rw [puts]; rfl, valid⟩)).1

def get (c : Sound K V) (key : K) : Sound K V × Option V :=
  Total.keep (c.val.get key) (by
    obtain ⟨c', gets, valid, _⟩ := c.property.get key
    exact ⟨c', _, gets, valid⟩)

def erase (c : Sound K V) (key : K) : Sound K V × Bool :=
  Total.keep (c.val.erase key) (by
    obtain ⟨c', erases, valid, _⟩ := c.property.erase key
    exact ⟨c', _, erases, valid⟩)

theorem create_spec {capacity : Nat} (positive : 0 < capacity) :
    ∃ c : Sound K V, create capacity = .ok c ∧ c.contents = [] := by
  obtain ⟨c, creates, valid, empty⟩ := LRUCache.create_spec (K := K) (V := V) positive
  refine ⟨⟨c, valid⟩, ?_, empty⟩
  rw [create]
  split
  · rename_i is
    cases is.symm.trans creates
  · rename_i is
    cases is.symm.trans creates
    rfl

@[simp] theorem get_answer (c : Sound K V) (key : K) :
    (c.get key).2 = Assoc.find key c.contents := by
  obtain ⟨c', gets, _⟩ := c.property.get key
  exact Total.keep_answer _ gets

@[simp] theorem contents_erase (c : Sound K V) (key : K) :
    (c.erase key).1.contents = Assoc.without key c.contents := by
  obtain ⟨c', erases, _, _, shape⟩ := c.property.erase key
  exact (congrArg LRUCache.contents (Total.keep_state _ erases)).trans shape

/-- A lookup reorders the entries. -/
theorem mem_contents_get (c : Sound K V) (key : K) {e : K × V}
    (there : e ∈ (c.get key).1.contents) : e ∈ c.contents := by
  obtain ⟨c', gets, _, _, shape⟩ := c.property.get key
  have same : (c.get key).1.contents = c'.contents :=
    congrArg LRUCache.contents (Total.keep_state _ gets)
  rw [same, shape] at there
  change e ∈ c.val.contents
  cases found : Assoc.find key c.val.contents with
  | none => simpa only [found] using there
  | some v =>
    simp only [found, List.mem_cons] at there
    rcases there with rfl | there
    · exact Assoc.mem_of_find found
    · exact List.mem_of_mem_filter there

/-- A write adds one entry and otherwise only drops some. -/
theorem mem_contents_put (c : Sound K V) (key : K) (value : V) {e : K × V}
    (there : e ∈ (c.put key value).contents) : e = (key, value) ∨ e ∈ c.contents := by
  obtain ⟨c', puts, _, _, shape⟩ := c.property.put key value
  have kept : (c.val.put key value).map (·, ()) = some (c', ()) := by rw [puts]; rfl
  have same : (c.put key value).contents = c'.contents :=
    congrArg LRUCache.contents (Total.keep_state _ kept)
  rw [same, shape] at there
  rcases List.mem_cons.mp there with rfl | there
  · exact .inl rfl
  · right
    change e ∈ c.val.contents
    split at there
    · exact List.mem_of_mem_filter there
    · split at there
      · exact List.mem_of_mem_dropLast there
      · exact there

end Sound
end CppDB.LRUCache
