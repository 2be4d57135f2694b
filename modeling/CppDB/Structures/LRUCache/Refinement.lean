import CppDB.Lib.Machine
import CppDB.Structures.LRUCache.Recency

/-! The cache against a list of pairs in order of last use, over whole runs. -/
namespace CppDB.LRUCache
open Assoc (keys)

/-- The calls on the public interface that read or change entries. -/
inductive Op (K V : Type) where
  | put (key : K) (value : V)
  | get (key : K)
  | peek (key : K)
  | contains (key : K)
  | erase (key : K)
  | clear

inductive Result (V : Type) where
  | done
  | got (value : Option V)
  | peeked (value : Option V)
  | flag (answer : Bool)
  deriving DecidableEq

def Result.isHit {V : Type} : Result V → Bool
  | .got (some _) => true
  | _ => false

def Result.isMiss {V : Type} : Result V → Bool
  | .got none => true
  | _ => false

variable {K V : Type} [DecidableEq K]

namespace Reference

/-- The key goes to the front, and if it is new and the list is full the last entry goes. -/
def put (capacity : Nat) (entries : List (K × V)) (key : K) (value : V) : List (K × V) :=
  (key, value) ::
    if key ∈ keys entries then Assoc.without key entries
    else if entries.length = capacity then entries.dropLast else entries

def step (capacity : Nat) (entries : List (K × V)) : Op K V → List (K × V) × Result V
  | .put key value => (put capacity entries key value, .done)
  | .get key =>
    match Assoc.find key entries with
    | none => (entries, .got none)
    | some value => ((key, value) :: Assoc.without key entries, .got (some value))
  | .peek key => (entries, .peeked (Assoc.find key entries))
  | .contains key => (entries, .flag (decide (key ∈ keys entries)))
  | .erase key => (Assoc.without key entries, .flag (decide (key ∈ keys entries)))
  | .clear => ([], .done)

end Reference

variable [StdHash K] {c c' : LRUCache K V}

/-- A call on a cache; nothing if it follows an iterator of an erased node. -/
def step (c : LRUCache K V) : Op K V → Option (LRUCache K V × Result V)
  | .put key value => (c.put key value).map fun c => (c, .done)
  | .get key => (c.get key).map fun (c, value) => (c, .got value)
  | .peek key => (c.peek key).map fun value => (c, .peeked value)
  | .contains key => some (c, .flag (c.contains key))
  | .erase key => (c.erase key).map fun (c, erased) => (c, .flag erased)
  | .clear => some (c.clear, .done)

/-! ### Counters -/

theorem makeRoom_counters (makes : makeRoom c = some c') :
    c'.hits = c.hits ∧ c'.misses = c.misses := by
  rw [makeRoom] at makes
  split at makes
  · rw [Option.bind_eq_bind, Option.bind_eq_some_iff] at makes
    obtain ⟨⟨items, back⟩, -, makes⟩ := makes
    cases makes
    exact ⟨rfl, rfl⟩
  · cases makes
    exact ⟨rfl, rfl⟩

theorem put_counters {key : K} {value : V} (puts : c.put key value = some c') :
    c'.hits = c.hits ∧ c'.misses = c.misses := by
  rw [put] at puts
  split at puts
  · simp only [Option.bind_eq_bind, Option.bind_eq_some_iff] at puts
    obtain ⟨items, -, items', -, puts⟩ := puts
    cases puts
    exact ⟨rfl, rfl⟩
  · simp only [Option.bind_eq_bind, Option.bind_eq_some_iff] at puts
    obtain ⟨roomy, makes, puts⟩ := puts
    obtain ⟨hits, misses⟩ := makeRoom_counters makes
    cases puts
    exact ⟨hits, misses⟩

theorem get_counters {key : K} {value : Option V} (gets : c.get key = some (c', value)) :
    c'.hits = c.hits + value.isSome.toNat ∧ c'.misses = c.misses + value.isNone.toNat := by
  rw [get] at gets
  split at gets
  · cases gets
    exact ⟨rfl, rfl⟩
  · simp only [Option.bind_eq_bind, Option.bind_eq_some_iff] at gets
    obtain ⟨items, -, front, -, gets⟩ := gets
    cases gets
    exact ⟨rfl, rfl⟩

theorem erase_counters {key : K} {erased : Bool} (erases : c.erase key = some (c', erased)) :
    c'.hits = c.hits ∧ c'.misses = c.misses := by
  rw [erase] at erases
  split at erases
  · cases erases
    exact ⟨rfl, rfl⟩
  · rw [Option.bind_eq_bind, Option.bind_eq_some_iff] at erases
    obtain ⟨⟨node, items⟩, -, erases⟩ := erases
    cases erases
    exact ⟨rfl, rfl⟩

/-- Each call counts what it answers. -/
theorem step_counters {op : Op K V} {result : Result V} (steps : step c op = some (c', result)) :
    c'.hits = c.hits + result.isHit.toNat ∧ c'.misses = c.misses + result.isMiss.toNat := by
  cases op with
  | put key value =>
    obtain ⟨c'', puts, same⟩ := Option.map_eq_some_iff.mp steps
    cases same
    exact put_counters puts
  | get key =>
    obtain ⟨⟨c'', value⟩, gets, same⟩ := Option.map_eq_some_iff.mp steps
    cases same
    obtain ⟨hits, misses⟩ := get_counters gets
    cases value
    · exact ⟨hits, misses⟩
    · exact ⟨hits, misses⟩
  | peek key =>
    obtain ⟨value, -, same⟩ := Option.map_eq_some_iff.mp steps
    cases same
    exact ⟨rfl, rfl⟩
  | contains key =>
    cases steps
    exact ⟨rfl, rfl⟩
  | erase key =>
    obtain ⟨⟨c'', erased⟩, erases, same⟩ := Option.map_eq_some_iff.mp steps
    cases same
    exact erase_counters erases
  | clear =>
    cases steps
    exact ⟨rfl, rfl⟩

theorem run_counters {ops : List (Op K V)} {results : List (Result V)}
    (runs : Machine.run step c ops = some (c', results)) :
    c'.hits = c.hits + results.countP Result.isHit ∧
      c'.misses = c.misses + results.countP Result.isMiss := by
  induction ops generalizing c results with
  | nil =>
    cases runs
    exact ⟨rfl, rfl⟩
  | cons op ops ih =>
    obtain ⟨mid, result, rest, steps, runs', rfl⟩ := Machine.run_cons_eq.mp runs
    obtain ⟨hits, misses⟩ := step_counters steps
    obtain ⟨hits', misses'⟩ := ih runs'
    rw [hits', hits, misses', misses, List.countP_cons, List.countP_cons]
    constructor
    · cases result.isHit <;> simp [Nat.add_assoc, Nat.add_comm]
    · cases result.isMiss <;> simp [Nat.add_assoc, Nat.add_comm]

/-! ### Simulation -/

namespace Valid

theorem peek (valid : c.Valid) (key : K) :
    LRUCache.peek c key = some (Assoc.find key c.contents) := by
  rw [LRUCache.peek]
  rcases valid.locate key with ⟨front, node, back, split, rfl, found⟩ | ⟨missing, absent⟩
  · have nodes := valid.nodes
    rw [split] at nodes
    have there : (node.key, node.value) ∈ c.contents := by simp [contents, recency, split]
    simp only [found, split, unlink_split nodes, Option.map_some,
      Assoc.find_of_mem valid.distinct there]
  · simp only [missing, Assoc.find_eq_none.mpr absent]

theorem contains (valid : c.Valid) (key : K) :
    LRUCache.contains c key = decide (key ∈ keys c.contents) := by
  rw [LRUCache.contains]
  rcases valid.locate key with ⟨front, node, back, split, rfl, found⟩ | ⟨missing, absent⟩
  · rw [found]
    simp [contents, recency, split]
  · rw [missing]
    simp [absent]

theorem clear (valid : c.Valid) : c.clear.Valid := by
  constructor
  · exact valid.positive
  · exact Nat.zero_le _
  · exact List.nodup_nil
  · exact List.nodup_nil
  · exact HashMap.Sound.toMap_empty
  · exact fun node there => absurd there List.not_mem_nil

/-- The index holds the keys of the list, each with the iterator to its own node. -/
theorem find_eq_some (valid : c.Valid) {key : K} {it : Nat} :
    c.index.find key = some it ↔ ∃ node ∈ c.items, node.key = key ∧ node.id = it := by
  constructor
  · intro found
    rcases valid.locate key with ⟨front, node, back, split, same, found'⟩ | ⟨missing, -⟩
    · exact ⟨node, by simp [split], same, Option.some.inj (found'.symm.trans found)⟩
    · cases missing.symm.trans found
  · rintro ⟨node, there, rfl, rfl⟩
    rw [HashMap.Sound.find_eq, valid.indexed, Assoc.lookup_toMap]
    apply Assoc.find_of_mem
    · rw [keys_iterators]
      exact valid.distinct
    · exact List.mem_map_of_mem there

end Valid

/-- A sound cache of a capacity whose entries, hottest first, are the given ones. -/
structure Represents (capacity : Nat) (c : LRUCache K V) (entries : List (K × V)) : Prop where
  valid : c.Valid
  fixed : c.capacity = capacity
  same : c.contents = entries

theorem Represents.bounded {capacity : Nat} {entries : List (K × V)}
    (represents : Represents capacity c entries) : entries.length ≤ capacity := by
  have length : c.contents.length = c.items.length := by simp [contents, recency]
  rw [← represents.same, ← represents.fixed, length]
  exact represents.valid.bounded

theorem step_simulates (capacity : Nat) :
    Machine.Simulates step (Reference.step (K := K) (V := V) capacity) (Represents capacity)
      Eq := by
  rintro c _ op ⟨valid, rfl, rfl⟩
  cases op with
  | put key value =>
    obtain ⟨c', puts, valid', fixed, shape⟩ := valid.put key value
    exact ⟨c', .done, by rw [step, puts, Option.map_some], ⟨valid', fixed, shape⟩, rfl⟩
  | get key =>
    obtain ⟨c', gets, valid', fixed, shape⟩ := valid.get key
    refine ⟨c', _, by rw [step, gets, Option.map_some], ?_⟩
    cases found : Assoc.find key c.contents with
    | none =>
      simp only [found] at shape
      simp only [Reference.step, found]
      exact ⟨⟨valid', fixed, shape⟩, trivial⟩
    | some value =>
      simp only [found] at shape
      simp only [Reference.step, found]
      exact ⟨⟨valid', fixed, shape⟩, trivial⟩
  | peek key =>
    exact ⟨c, .peeked (Assoc.find key c.contents), by rw [step, valid.peek, Option.map_some],
      ⟨valid, rfl, rfl⟩, rfl⟩
  | contains key =>
    exact ⟨c, .flag (decide (key ∈ keys c.contents)), by rw [step, valid.contains],
      ⟨valid, rfl, rfl⟩, rfl⟩
  | erase key =>
    obtain ⟨c', erases, valid', fixed, shape⟩ := valid.erase key
    exact ⟨c', .flag (decide (key ∈ keys c.contents)), by rw [step, erases, Option.map_some],
      ⟨valid', fixed, shape⟩, rfl⟩
  | clear => exact ⟨c.clear, .done, rfl, ⟨valid.clear, rfl, rfl⟩, rfl⟩

/-- A new cache is empty and has counted nothing. -/
theorem create_represents {capacity : Nat} (positive : 1 ≤ capacity) :
    ∃ start : LRUCache K V, create capacity = .ok start ∧ Represents capacity start [] ∧
      start.hits = 0 ∧ start.misses = 0 := by
  obtain ⟨start, creates, valid, empty⟩ := create_spec (K := K) (V := V) positive
  have fresh : start.capacity = capacity ∧ start.hits = 0 ∧ start.misses = 0 := by
    rw [create, if_neg (by omega)] at creates
    cases creates
    exact ⟨rfl, rfl, rfl⟩
  exact ⟨start, creates, ⟨valid, fresh.1, empty⟩, fresh.2⟩

/-- Every run from the constructor goes through without following a dangling iterator and
answers as the recency list does; at its end the cache is within its capacity, its index
leads from each key to the node of that key and nowhere else, and the counters are the
numbers of lookups answered and missed. -/
theorem lruCache_refines_recency {capacity : Nat} (positive : 1 ≤ capacity)
    (ops : List (Op K V)) :
    ∃ start c : LRUCache K V, create capacity = .ok start ∧
      Machine.run step start ops =
        some (c, (Machine.runTotal (Reference.step capacity) [] ops).2) ∧
      c.contents = (Machine.runTotal (Reference.step capacity) [] ops).1 ∧
      c.size ≤ capacity ∧ (keys c.contents).Nodup ∧ (c.items.map Node.id).Nodup ∧
      (∀ key it, c.index.find key = some it ↔ ∃ node ∈ c.items, node.key = key ∧ node.id = it) ∧
      c.hits = ((Machine.runTotal (Reference.step capacity) [] ops).2).countP Result.isHit ∧
      c.misses = ((Machine.runTotal (Reference.step capacity) [] ops).2).countP Result.isMiss := by
  obtain ⟨start, creates, new, noHits, noMisses⟩ :=
    create_represents (K := K) (V := V) positive
  obtain ⟨c, runs, represents⟩ := (step_simulates capacity).run_eq ops new
  obtain ⟨hits, misses⟩ := run_counters runs
  rw [noHits, Nat.zero_add] at hits
  rw [noMisses, Nat.zero_add] at misses
  refine ⟨start, c, creates, runs, represents.same, ?_, represents.valid.distinct,
    represents.valid.nodes, fun key it => represents.valid.find_eq_some, hits, misses⟩
  exact represents.fixed ▸ represents.valid.bounded

section Witness

open scoped OneBucket

theorem lruCache_refines_recency_evicting :
    1 ≤ 2 ∧ ∃ start c : LRUCache Nat Nat, create 2 = .ok start ∧
      Machine.run step start
          [.put 1 10, .put 2 20, .get 1, .put 3 30, .get 2, .peek 1, .erase 3, .contains 3] =
        some (c, [.done, .done, .got (some 10), .done, .got none, .peeked (some 10), .flag true,
          .flag false]) ∧
      c.contents = [(1, 10)] ∧ c.hits = 1 ∧ c.misses = 1 := by
  obtain ⟨start, c, creates, runs, shape, -, -, -, -, hits, misses⟩ :=
    lruCache_refines_recency (K := Nat) (V := Nat) (by decide : 1 ≤ 2)
      [.put 1 10, .put 2 20, .get 1, .put 3 30, .get 2, .peek 1, .erase 3, .contains 3]
  exact ⟨by decide, start, c, creates, runs, shape, hits, misses⟩

end Witness
end CppDB.LRUCache
