import CppDB.Structures.LRUCache.Refinement

/-! Two caches of different capacities under the same calls: the smaller one's recency list
is always a subsequence of the larger one's, so a larger cache never loses a hit. -/
namespace CppDB.LRUCache
open Assoc (keys)

variable {K V : Type} [DecidableEq K] {capacity capacity' : Nat} {entries entries' : List (K × V)}

/-- What the smaller cache finds the larger one finds as well. -/
def Kept (result result' : Result V) : Prop :=
  ∀ value, (result = .got (some value) → result' = .got (some value)) ∧
    (result = .peeked (some value) → result' = .peeked (some value))

theorem Kept.refl (result : Result V) : Kept result result := fun _ => ⟨id, id⟩

theorem Kept.of_miss (result : Result V) : Kept (.got none) result := by
  intro value
  constructor
  · rintro ⟨⟩
  · rintro ⟨⟩

theorem Kept.of_flag (answer : Bool) (result : Result V) : Kept (.flag answer) result := by
  intro value
  constructor
  · rintro ⟨⟩
  · rintro ⟨⟩

theorem Kept.isHit {result result' : Result V} (kept : Kept result result')
    (hit : result.isHit = true) : result'.isHit = true := by
  match result, hit with
  | .got (some value), _ =>
    rw [(kept value).1 rfl, Result.isHit]

theorem countP_isHit_le {results results' : List (Result V)}
    (kept : List.Forall₂ Kept results results') :
    results.countP Result.isHit ≤ results'.countP Result.isHit := by
  induction kept with
  | nil => exact le_rfl
  | @cons result result' _ _ here _ ih =>
    rw [List.countP_cons, List.countP_cons]
    split_ifs with small large
    · omega
    · exact absurd (here.isHit small) large
    · omega
    · exact ih

/-- The smaller recency list is part of the larger one, and has no more room left than it:
an entry leaves the larger cache only when one leaves the smaller. -/
structure Included (capacity capacity' : Nat) (entries entries' : List (K × V)) : Prop where
  sublist : entries.Sublist entries'
  room : capacity + entries'.length ≤ capacity' + entries.length

/-- Dropping the last entries of a list and of a part of it. -/
theorem sublist_dropLast {α : Type} {part whole : List α} (sublist : part.Sublist whole) :
    part.dropLast.Sublist whole.dropLast := by
  rw [← List.reverse_sublist, ← List.tail_reverse, ← List.tail_reverse]
  exact (List.reverse_sublist.mpr sublist).tail

namespace Included

omit [DecidableEq K] in
theorem mem_keys (included : Included capacity capacity' entries entries') {key : K}
    (there : key ∈ keys entries) : key ∈ keys entries' :=
  (included.sublist.map Prod.fst).subset there

theorem find (included : Included capacity capacity' entries entries')
    (distinct : (keys entries').Nodup) {key : K} {value : V}
    (found : Assoc.find key entries = some value) : Assoc.find key entries' = some value :=
  Assoc.find_of_mem distinct (included.sublist.subset (Assoc.mem_of_find found))

omit [DecidableEq K] in
theorem distinct (included : Included capacity capacity' entries entries')
    (distinct : (keys entries').Nodup) : (keys entries).Nodup :=
  distinct.sublist (included.sublist.map Prod.fst)

/-- Taking a key out of both lists. -/
theorem without (included : Included capacity capacity' entries entries')
    (distinct : (keys entries').Nodup) (key : K) :
    Included capacity capacity' (Assoc.without key entries) (Assoc.without key entries') := by
  refine ⟨included.sublist.filter _, ?_⟩
  have room := included.room
  by_cases large : key ∈ keys entries'
  · have shorter' := Assoc.length_without distinct large
    by_cases small : key ∈ keys entries
    · have shorter := Assoc.length_without (included.distinct distinct) small
      omega
    · rw [Assoc.without_eq_self small]
      omega
  · rw [Assoc.without_eq_self large, Assoc.without_eq_self fun small =>
      large (included.mem_keys small)]
    exact room

omit [DecidableEq K] in
/-- An entry new to both lists, or moved to the front of both. -/
theorem cons (included : Included capacity capacity' entries entries') (entry : K × V) :
    Included capacity capacity' (entry :: entries) (entry :: entries') := by
  refine ⟨included.sublist.cons_cons entry, ?_⟩
  have room := included.room
  simp only [List.length_cons]
  omega

/-- A key that only the larger list has goes to its front. -/
theorem refresh (included : Included capacity capacity' entries entries')
    (distinct : (keys entries').Nodup) {key : K} (small : key ∉ keys entries)
    (large : key ∈ keys entries') (value : V) :
    Included capacity capacity' entries ((key, value) :: Assoc.without key entries') := by
  constructor
  · rw [← Assoc.without_eq_self small]
    exact (included.sublist.filter _).cons (key, value)
  · rw [List.length_cons, Assoc.length_without distinct large]
    exact included.room

omit [DecidableEq K] in
/-- A new entry in both caches; each lets its last one go if it is full. -/
theorem enter (included : Included capacity capacity' entries entries')
    (positive : 1 ≤ capacity) (bounded : entries.length ≤ capacity)
    (bounded' : entries'.length ≤ capacity') (entry : K × V) :
    Included capacity capacity'
      (entry :: if entries.length = capacity then entries.dropLast else entries)
      (entry :: if entries'.length = capacity' then entries'.dropLast else entries') := by
  have room := included.room
  by_cases full' : entries'.length = capacity'
  · -- a full larger cache has no room, so the smaller one is full as well
    have full : entries.length = capacity := by omega
    rw [if_pos full, if_pos full']
    have shorter := included.sublist.length_le
    refine ⟨(sublist_dropLast included.sublist).cons_cons entry, ?_⟩
    simp only [List.length_cons, List.length_dropLast]
    omega
  · rw [if_neg full']
    by_cases full : entries.length = capacity
    · rw [if_pos full]
      refine ⟨((List.dropLast_sublist entries).trans included.sublist).cons_cons entry, ?_⟩
      simp only [List.length_cons, List.length_dropLast]
      omega
    · rw [if_neg full]
      exact included.cons entry

/-- A new entry for the smaller cache whose key the larger one still has. -/
theorem reenter (included : Included capacity capacity' entries entries')
    (distinct : (keys entries').Nodup) {key : K} (small : key ∉ keys entries)
    (large : key ∈ keys entries') (value : V) (positive : 1 ≤ capacity) :
    Included capacity capacity'
      ((key, value) :: if entries.length = capacity then entries.dropLast else entries)
      ((key, value) :: Assoc.without key entries') := by
  have rest := (included.without distinct key).sublist
  have length := Assoc.length_without distinct large
  have room := included.room
  rw [Assoc.without_eq_self small] at rest
  split_ifs with full
  · refine ⟨((List.dropLast_sublist entries).trans rest).cons_cons _, ?_⟩
    simp only [List.length_cons, List.length_dropLast]
    omega
  · refine ⟨rest.cons_cons _, ?_⟩
    simp only [List.length_cons]
    omega

theorem put (included : Included capacity capacity' entries entries')
    (distinct : (keys entries').Nodup) (positive : 1 ≤ capacity)
    (bounded : entries.length ≤ capacity) (bounded' : entries'.length ≤ capacity') (key : K)
    (value : V) :
    Included capacity capacity' (Reference.put capacity entries key value)
      (Reference.put capacity' entries' key value) := by
  rw [Reference.put, Reference.put]
  by_cases small : key ∈ keys entries
  · rw [if_pos small, if_pos (included.mem_keys small)]
    exact (included.without distinct key).cons _
  · rw [if_neg small]
    by_cases large : key ∈ keys entries'
    · rw [if_pos large]
      exact included.reenter distinct small large value positive
    · rw [if_neg large]
      exact included.enter positive bounded bounded' _

theorem get (included : Included capacity capacity' entries entries')
    (distinct : (keys entries').Nodup) (key : K) :
    Included capacity capacity' (Reference.step capacity entries (.get key)).1
        (Reference.step capacity' entries' (.get key)).1 ∧
      Kept (Reference.step capacity entries (.get key)).2
        (Reference.step capacity' entries' (.get key)).2 := by
  cases small : Assoc.find key entries with
  | some value =>
    simp only [Reference.step, small, included.find distinct small]
    exact ⟨(included.without distinct key).cons _, Kept.refl _⟩
  | none =>
    simp only [Reference.step, small]
    refine ⟨?_, Kept.of_miss _⟩
    cases large : Assoc.find key entries' with
    | none => exact included
    | some value =>
      exact included.refresh distinct (Assoc.find_eq_none.mp small)
        (Assoc.mem_keys_of_mem (Assoc.mem_of_find large)) value

/-- One call on both recency lists. -/
theorem step (included : Included capacity capacity' entries entries')
    (distinct : (keys entries').Nodup) (positive : 1 ≤ capacity) (larger : capacity ≤ capacity')
    (bounded : entries.length ≤ capacity) (bounded' : entries'.length ≤ capacity')
    (op : Op K V) :
    Included capacity capacity' (Reference.step capacity entries op).1
        (Reference.step capacity' entries' op).1 ∧
      Kept (Reference.step capacity entries op).2 (Reference.step capacity' entries' op).2 := by
  cases op with
  | put key value =>
    exact ⟨included.put distinct positive bounded bounded' key value, Kept.refl _⟩
  | get key => exact included.get distinct key
  | peek key =>
    refine ⟨included, fun value => ⟨by rintro ⟨⟩, fun hit => ?_⟩⟩
    rw [Reference.step, included.find distinct (Result.peeked.inj hit)]
  | contains key =>
    exact ⟨included, Kept.of_flag _ _⟩
  | erase key =>
    exact ⟨included.without distinct key, Kept.of_flag _ _⟩
  | clear => exact ⟨⟨List.Sublist.slnil, larger⟩, Kept.refl _⟩

end Included

variable [StdHash K] {small large : LRUCache K V}

/-- Two sound caches of the two capacities, the one's recency list included in the other's. -/
structure Nested (capacity capacity' : Nat) (small large : LRUCache K V) : Prop where
  smaller : Represents capacity small small.contents
  larger : Represents capacity' large large.contents
  included : Included capacity capacity' small.contents large.contents

/-- One call on both caches. -/
theorem Nested.step (nested : Nested capacity capacity' small large) (positive : 1 ≤ capacity)
    (larger : capacity ≤ capacity') (op : Op K V) :
    ∃ small' result large' result', LRUCache.step small op = some (small', result) ∧
      LRUCache.step large op = some (large', result') ∧
      Nested capacity capacity' small' large' ∧ Kept result result' := by
  obtain ⟨small', result, steps, represents, rfl⟩ :=
    step_simulates capacity small small.contents op nested.smaller
  obtain ⟨large', result', steps', represents', rfl⟩ :=
    step_simulates capacity' large large.contents op nested.larger
  obtain ⟨included, kept⟩ := nested.included.step nested.larger.valid.distinct positive larger
    nested.smaller.bounded nested.larger.bounded op
  refine ⟨small', _, large', _, steps, steps', ?_, kept⟩
  rw [← represents.same, ← represents'.same] at included
  exact ⟨⟨represents.valid, represents.fixed, rfl⟩, ⟨represents'.valid, represents'.fixed, rfl⟩,
    included⟩

/-- A run of calls on both caches. -/
theorem Nested.run (nested : Nested capacity capacity' small large) (positive : 1 ≤ capacity)
    (larger : capacity ≤ capacity') (ops : List (Op K V)) :
    ∃ small' results large' results', Machine.run LRUCache.step small ops = some (small', results) ∧
      Machine.run LRUCache.step large ops = some (large', results') ∧
      Nested capacity capacity' small' large' ∧ List.Forall₂ Kept results results' :=
  Machine.run_lockstep (fun _ _ op nested => nested.step positive larger op) ops nested

theorem Nested.start (larger : capacity ≤ capacity')
    (smaller : Represents capacity small []) (larger' : Represents capacity' large []) :
    Nested capacity capacity' small large := by
  obtain ⟨valid, fixed, empty⟩ := smaller
  obtain ⟨valid', fixed', empty'⟩ := larger'
  refine ⟨⟨valid, fixed, rfl⟩, ⟨valid', fixed', rfl⟩, ?_⟩
  rw [empty, empty']
  exact ⟨List.Sublist.slnil, larger⟩

/-- After every call of a run on two new caches, the recency list of the smaller one is a
subsequence of the other's, values included. Whatever the smaller cache found on the way,
the larger one found as well, so it counted at least as many hits. -/
theorem lruCache_inclusion (positive : 1 ≤ capacity) (larger : capacity ≤ capacity')
    (ops : List (Op K V)) :
    ∃ small large : LRUCache K V, create capacity = .ok small ∧ create capacity' = .ok large ∧
      ∀ n, ∃ small' results large' results',
        Machine.run step small (ops.take n) = some (small', results) ∧
        Machine.run step large (ops.take n) = some (large', results') ∧
        small'.contents.Sublist large'.contents ∧ List.Forall₂ Kept results results' ∧
        small'.hits ≤ large'.hits := by
  obtain ⟨small, creates, represents, noHits, -⟩ :=
    create_represents (K := K) (V := V) positive
  obtain ⟨large, creates', represents', noHits', -⟩ :=
    create_represents (K := K) (V := V) (positive.trans larger)
  refine ⟨small, large, creates, creates', fun n => ?_⟩
  obtain ⟨small', results, large', results', runs, runs', nested, kept⟩ :=
    (Nested.start larger represents represents').run positive larger (ops.take n)
  refine ⟨small', results, large', results', runs, runs', nested.included.sublist, kept, ?_⟩
  rw [(run_counters runs).1, (run_counters runs').1, noHits, noHits']
  exact Nat.add_le_add_left (countP_isHit_le kept) 0

section Witness

/-- Every key in its own bucket of the index. -/
local instance spreadHash : StdHash Nat := ⟨fun key => key⟩

theorem lruCache_inclusion_evicting :
    1 ≤ 1 ∧ 1 ≤ 2 ∧ ∃ small large : LRUCache Nat Nat, create 1 = .ok small ∧
      create 2 = .ok large ∧ ∀ n, ∃ small' results large' results',
        Machine.run step small
            ([.put 1 10, .put 2 20, .get 1, .erase 2, .put 3 30, .peek 1].take n) =
          some (small', results) ∧
        Machine.run step large
            ([.put 1 10, .put 2 20, .get 1, .erase 2, .put 3 30, .peek 1].take n) =
          some (large', results') ∧
        small'.contents.Sublist large'.contents ∧ List.Forall₂ Kept results results' ∧
        small'.hits ≤ large'.hits :=
  ⟨le_rfl, one_le_two, lruCache_inclusion le_rfl one_le_two _⟩

end Witness
end CppDB.LRUCache
