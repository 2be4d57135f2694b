import CppDB.Core.Table.Refinement
import CppDB.Structures.LRUCache.Inclusion

/-! The counters of a table's cache. A read by id asks the cache once; on a miss it files the
row, so a larger cache is told less than a smaller one. Still it has at least as many hits. -/
namespace CppDB

namespace LRUCache

variable {K V : Type} [DecidableEq K] [StdHash K] {capacity capacity' : Nat}

namespace Sound

theorem create_fresh (positive : 1 ≤ capacity) :
    ∃ c : Sound K V, create capacity = .ok c ∧ Represents capacity c.val [] ∧
      c.val.hits = 0 ∧ c.val.misses = 0 := by
  obtain ⟨start, creates, represents, counters⟩ := create_represents (K := K) (V := V) positive
  refine ⟨⟨start, represents.valid⟩, ?_, represents, counters⟩
  rw [create]
  split
  · rename_i is
    cases is.symm.trans creates
  · rename_i is
    cases is.symm.trans creates
    rfl

theorem step_get (c : Sound K V) (key : K) :
    step c.val (.get key) = some ((c.get key).1.val, .got (c.get key).2) := by
  obtain ⟨c', gets, -⟩ := c.property.get key
  have state : (c.get key).1.val = c' := Total.keep_state _ gets
  have answer : (c.get key).2 = _ := Total.keep_answer _ gets
  rw [state, answer, step, gets]
  rfl

theorem step_put (c : Sound K V) (key : K) (value : V) :
    step c.val (.put key value) = some ((c.put key value).val, .done) := by
  obtain ⟨c', puts, -⟩ := c.property.put key value
  have kept : (c.val.put key value).map (·, ()) = some (c', ()) := by rw [puts]; rfl
  have state : (c.put key value).val = c' := Total.keep_state _ kept
  rw [state, step, puts]
  rfl

theorem step_erase (c : Sound K V) (key : K) :
    step c.val (.erase key) = some ((c.erase key).1.val, .flag (c.erase key).2) := by
  obtain ⟨c', erases, -⟩ := c.property.erase key
  have state : (c.erase key).1.val = c' := Total.keep_state _ erases
  have answer : (c.erase key).2 = _ := Total.keep_answer _ erases
  rw [state, answer, step, erases]
  rfl

end Sound

namespace Nested

theorem of_steps {small large small' large' : LRUCache K V} {op : Op K V} {r r' : Result V}
    (nested : Nested capacity capacity' small large) (positive : 1 ≤ capacity)
    (larger : capacity ≤ capacity') (steps : LRUCache.step small op = some (small', r))
    (steps' : LRUCache.step large op = some (large', r')) : Nested capacity capacity' small' large' := by
  obtain ⟨_, _, _, _, same, same', nested', -⟩ := nested.step positive larger op
  cases steps.symm.trans same
  cases steps'.symm.trans same'
  exact nested'

variable {small large : Sound K V}

theorem found (nested : Nested capacity capacity' small.val large.val) {key : K} {value : V}
    (hit : Assoc.find key small.contents = some value) :
    Assoc.find key large.contents = some value :=
  nested.included.find nested.larger.valid.distinct hit

/-- The smaller cache misses and files the entry, which the larger one still has. -/
theorem refill (nested : Nested capacity capacity' small.val large.val) (positive : 1 ≤ capacity)
    {key : K} {value : V} (miss : Assoc.find key small.contents = none)
    (hit : Assoc.find key large.contents = some value) :
    Nested capacity capacity' ((small.get key).1.put key value).val (large.get key).1.val := by
  obtain ⟨asked, _, gets, asks, -⟩ := step_simulates capacity _ _ (.get key) nested.smaller
  obtain ⟨moved, _, gets', moves, -⟩ := step_simulates capacity' _ _ (.get key) nested.larger
  cases (small.step_get key).symm.trans gets
  cases (large.step_get key).symm.trans gets'
  obtain ⟨filed, _, puts, files, -⟩ := step_simulates capacity _ _ (.put key value) asks
  cases ((small.get key).1.step_put key value).symm.trans puts
  have asked : (Reference.step capacity small.val.contents (.get key)).1 = small.val.contents := by
    simp only [Reference.step, show Assoc.find key small.val.contents = none from miss]
  have moved : (Reference.step capacity' large.val.contents (.get key)).1 =
      (key, value) :: Assoc.without key large.val.contents := by
    simp only [Reference.step, show Assoc.find key large.val.contents = some value from hit]
  have absent : key ∉ Assoc.keys small.val.contents := Assoc.find_eq_none.mp miss
  refine ⟨⟨files.valid, files.fixed, rfl⟩, ⟨moves.valid, moves.fixed, rfl⟩, ?_⟩
  rw [files.same, moves.same, moved, asked, Reference.step, Reference.put, if_neg absent]
  exact nested.included.reenter nested.larger.valid.distinct absent
    (Assoc.mem_keys_of_mem (Assoc.mem_of_find hit)) value positive

end Nested

end LRUCache

namespace Table

/-- The calls that ask the cache. -/
def Op.isLookup : Op → Bool
  | .findById _ => true
  | _ => false

section Hits

variable [StdHash Int64]

def cacheHits (table : Table) : Nat := table.cache.val.hits

def cacheMisses (table : Table) : Nat := table.cache.val.misses

/-- `cache_.erase(id)` for each of the ids. -/
def eraseAll (ids : List Int64) (cache : LRUCache.Sound Int64 Row) : LRUCache.Sound Int64 Row :=
  ids.foldl (fun cache id => (cache.erase id).1) cache

theorem foldl_removeRow_cache (ids : List Int64) (table : Table)
    (cache : LRUCache.Sound Int64 Row) :
    ids.foldl removeRow { table with cache } =
      { ids.foldl removeRow table with cache := eraseAll ids cache } := by
  induction ids generalizing table cache with
  | nil => rfl
  | cons id ids ih => exact ih (table.removeRow id) (cache.erase id).1

/-- All a call that does not ask the cache does to it is to erase some ids, which depend on the
other members alone; and what it does to these and answers does not depend on the cache. -/
theorem step_cache (table : Table) {op : Op} (other : op.isLookup = false) :
    ∃ ids, ∀ cache, step { table with cache } op =
      (step table op).map fun answer => ({ answer.1 with cache := eraseAll ids cache }, answer.2) := by
  cases op with
  | findById id => cases other
  | insert row =>
    refine ⟨[], fun cache => ?_⟩
    simp only [step, insert]
    cases checkRow table.schema row <;> rfl
  | deleteById id =>
    refine ⟨if (table.rows.remove id).2 then [id] else [], fun cache => ?_⟩
    simp only [step, deleteById, Option.map_some]
    cases (table.rows.remove id).2 <;> rfl
  | rowCount | selectAll | selectWhere | selectIdRange => exact ⟨[], fun cache => rfl⟩
  | deleteWhere predicate =>
    cases scans : table.matching predicate with
    | error e =>
      refine ⟨[], fun cache => ?_⟩
      have scans' : { table with cache }.matching predicate = .error e := scans
      simp only [step, deleteWhere, scans, scans']
      rfl
    | ok doomed =>
      refine ⟨doomed.map Prod.fst, fun cache => ?_⟩
      have scans' : { table with cache }.matching predicate = .ok doomed := scans
      simp only [step, deleteWhere, scans, scans', foldl_removeRow_cache]
      rfl
  | updateWhere predicate assignments =>
    cases checks : checkAssignments table.schema assignments with
    | error e =>
      refine ⟨[], fun cache => ?_⟩
      simp only [step, updateWhere, checks]
      rfl
    | ok =>
      cases scans : table.matching predicate with
      | error e =>
        refine ⟨[], fun cache => ?_⟩
        have scans' : { table with cache }.matching predicate = .error e := scans
        simp only [step, updateWhere, checks, scans, scans']
        rfl
      | ok matched =>
        have scans' (cache) : { table with cache }.matching predicate = .ok matched := scans
        cases assigns : assignRows assignments (matched.map Prod.fst) table.rows with
        | none =>
          refine ⟨[], fun cache => ?_⟩
          simp only [step, updateWhere, checks, scans, scans', assigns]
          rfl
        | some answer =>
          obtain ⟨outcome, rows⟩ := answer
          cases outcome with
          | error e =>
            refine ⟨[], fun cache => ?_⟩
            simp only [step, updateWhere, checks, scans, scans', assigns]
            rfl
          | ok =>
            refine ⟨matched.map Prod.fst, fun cache => ?_⟩
            simp only [step, updateWhere, checks, scans, scans', assigns]
            rfl

/-! ### One table -/

theorem eraseAll_counters (ids : List Int64) (cache : LRUCache.Sound Int64 Row) :
    (eraseAll ids cache).val.hits = cache.val.hits ∧
      (eraseAll ids cache).val.misses = cache.val.misses := by
  induction ids generalizing cache with
  | nil => exact ⟨rfl, rfl⟩
  | cons id ids ih =>
    obtain ⟨hits, misses⟩ := LRUCache.step_counters (cache.step_erase id)
    obtain ⟨hits', misses'⟩ := ih (cache.erase id).1
    exact ⟨hits'.trans hits, misses'.trans misses⟩

section Lookup

variable {table : Table} {id : Int64} {row : Row}

theorem findById_hit (hit : Assoc.find id table.cache.contents = some row) :
    table.findById id = (some row, { table with cache := (table.cache.get id).1 }) := by
  simp only [findById, LRUCache.Sound.get_answer, hit]

theorem findById_miss (miss : Assoc.find id table.cache.contents = none) :
    table.findById id = (table.rows.search id, { table with
      cache := (table.rows.search id).elim (table.cache.get id).1
        fun row => (table.cache.get id).1.put id row }) := by
  simp only [findById, LRUCache.Sound.get_answer, miss]
  cases table.rows.search id <;> rfl

theorem rows_findById : (table.findById id).2.rows = table.rows := by
  cases found : Assoc.find id table.cache.contents with
  | some row => rw [findById_hit found]
  | none => rw [findById_miss found]

end Lookup

/-- A read by id counts as a hit or as a miss by what the cache holds. -/
theorem findById_counters (table : Table) (id : Int64) :
    (table.findById id).2.cacheHits =
        table.cacheHits + (Assoc.find id table.cache.contents).isSome.toNat ∧
      (table.findById id).2.cacheMisses =
        table.cacheMisses + (Assoc.find id table.cache.contents).isNone.toNat := by
  obtain ⟨hits, misses⟩ := LRUCache.step_counters (table.cache.step_get id)
  rw [LRUCache.Sound.get_answer] at hits misses
  cases found : Assoc.find id table.cache.contents with
  | some row =>
    rw [found] at hits misses
    rw [findById_hit found]
    exact ⟨hits, misses⟩
  | none =>
    rw [found] at hits misses
    rw [findById_miss found]
    cases table.rows.search id with
    | none => exact ⟨hits, misses⟩
    | some row =>
      obtain ⟨hits', misses'⟩ := LRUCache.step_counters ((table.cache.get id).1.step_put id row)
      exact ⟨hits'.trans hits, misses'.trans misses⟩

theorem step_findById (table : Table) (id : Int64) :
    step table (.findById id) = some ((table.findById id).2, .row (table.findById id).1) := rfl

variable {table table' : Table} {op : Op} {r : Result}

/-- The caches a call that does not ask the cache can leave behind. -/
theorem cache_of_step (steps : step table op = some (table', r)) (other : op.isLookup = false) :
    ∃ ids, table'.cache = eraseAll ids table.cache ∧ ∀ cache,
      step { table with cache } op = some ({ table' with cache := eraseAll ids cache }, r) := by
  obtain ⟨ids, same⟩ := table.step_cache other
  simp only [steps, Option.map_some] at same
  have own := same table.cache
  rw [show { table with cache := table.cache } = table from rfl, steps] at own
  obtain ⟨own, -⟩ := Prod.mk.inj (Option.some.inj own)
  exact ⟨ids, congrArg Table.cache own, same⟩

theorem step_counts (steps : step table op = some (table', r)) :
    table'.cacheHits + table'.cacheMisses =
      table.cacheHits + table.cacheMisses + op.isLookup.toNat := by
  cases lookup : op.isLookup with
  | false =>
    obtain ⟨ids, erased, -⟩ := cache_of_step steps lookup
    obtain ⟨hits, misses⟩ := eraseAll_counters ids table.cache
    rw [cacheHits, cacheMisses, erased, hits, misses]
    rfl
  | true =>
    cases op with
    | findById id =>
      rw [step_findById] at steps
      obtain ⟨rfl, -⟩ := Prod.mk.inj (Option.some.inj steps)
      obtain ⟨hits, misses⟩ := table.findById_counters id
      rw [hits, misses]
      cases Assoc.find id table.cache.contents <;> simp <;> omega
    | _ => cases lookup

theorem run_counts {ops : List Op} {results : List Result}
    (runs : Machine.run step table ops = some (table', results)) :
    table'.cacheHits + table'.cacheMisses =
      table.cacheHits + table.cacheMisses + ops.countP Op.isLookup := by
  induction ops generalizing table results with
  | nil =>
    cases runs
    rfl
  | cons op ops ih =>
    obtain ⟨mid, result, rest, steps, runs', -⟩ := Machine.run_cons_eq.mp runs
    rw [ih runs', step_counts steps, List.countP_cons]
    cases op.isLookup
    · simp
    · simp
      omega

/-! ### Two tables -/

/-- The tables store the same, the larger cache holds what the smaller one does and has had
at least as many hits. -/
structure Twins (capacity capacity' : Nat) (small large : Table) : Prop where
  smaller : small.Valid
  larger : large.Valid
  schema : large.schema = small.schema
  rows : large.rows = small.rows
  nested : LRUCache.Nested capacity capacity' small.cache.val large.cache.val
  hits : small.cacheHits ≤ large.cacheHits

namespace Twins

variable {capacity capacity' : Nat} {small large : Table}

theorem eraseAll {cache cache' : LRUCache.Sound Int64 Row} (positive : 1 ≤ capacity)
    (larger : capacity ≤ capacity') (ids : List Int64)
    (nested : LRUCache.Nested capacity capacity' cache.val cache'.val) :
    LRUCache.Nested capacity capacity' (Table.eraseAll ids cache).val
      (Table.eraseAll ids cache').val := by
  induction ids generalizing cache cache' with
  | nil => exact nested
  | cons id ids ih =>
    exact ih (nested.of_steps positive larger (cache.step_erase id) (cache'.step_erase id))

/-- A read by id asks both caches. The smaller one may have to file what the larger one has. -/
theorem findById (twins : Twins capacity capacity' small large) (positive : 1 ≤ capacity)
    (larger : capacity ≤ capacity') (id : Int64) :
    LRUCache.Nested capacity capacity' (small.findById id).2.cache.val
        (large.findById id).2.cache.val ∧
      (small.findById id).2.cacheHits ≤ (large.findById id).2.cacheHits := by
  have asked := twins.nested.of_steps positive larger (small.cache.step_get id)
    (large.cache.step_get id)
  have hits := twins.hits
  rw [(small.findById_counters id).1, (large.findById_counters id).1]
  cases found : Assoc.find id small.cache.contents with
  | some row =>
    have found' := twins.nested.found found
    rw [findById_hit found, findById_hit found', found']
    exact ⟨asked, Nat.add_le_add_right hits _⟩
  | none =>
    rw [findById_miss found]
    cases found' : Assoc.find id large.cache.contents with
    | none =>
      rw [findById_miss found', twins.rows]
      refine ⟨?_, Nat.add_le_add_right hits _⟩
      cases small.rows.search id with
      | none => exact asked
      | some row =>
        exact asked.of_steps positive larger ((small.cache.get id).1.step_put id row)
          ((large.cache.get id).1.step_put id row)
    | some row =>
      -- the larger cache is coherent, so the smaller one files the same row
      have there : small.rows.search id = some row := by
        have answer := (twins.larger.findById id).1
        rw [findById_hit found'] at answer
        rw [← twins.rows, BTree.Sound.search_eq]
        exact answer.symm
      rw [findById_hit found', there]
      exact ⟨twins.nested.refill positive found found', Nat.le_trans hits (Nat.le_add_right _ _)⟩

/-- One call on both tables. -/
theorem step (twins : Twins capacity capacity' small large) (positive : 1 ≤ capacity)
    (larger : capacity ≤ capacity') (op : Op) :
    ∃ small' r large' r', Table.step small op = some (small', r) ∧
      Table.step large op = some (large', r') ∧ Twins capacity capacity' small' large' ∧ r = r' := by
  -- both stand for the same map, so they answer alike
  have stored : small.contents = large.contents := by
    rw [contents, contents, twins.rows]
  obtain ⟨small', r, steps, ⟨valid, schema, -⟩, answer⟩ :=
    step_simulates small.schema small _ op ⟨twins.smaller, rfl, rfl⟩
  obtain ⟨large', r', steps', ⟨valid', schema', -⟩, answer'⟩ :=
    step_simulates small.schema large _ op ⟨twins.larger, twins.schema, rfl⟩
  have same : r = r' := by
    rw [answer, answer', stored]
  refine ⟨small', r, large', r', steps, steps', ?_, same⟩
  cases lookup : op.isLookup with
  | true =>
    cases op with
    | findById id =>
      obtain ⟨nested, hits⟩ := twins.findById positive larger id
      rw [step_findById] at steps steps'
      obtain ⟨rfl, -⟩ := Prod.mk.inj (Option.some.inj steps)
      obtain ⟨rfl, -⟩ := Prod.mk.inj (Option.some.inj steps')
      refine ⟨valid, valid', schema'.trans schema.symm, ?_, nested, hits⟩
      rw [rows_findById, rows_findById, twins.rows]
    | _ => cases lookup
  | false =>
    obtain ⟨ids, erased, others⟩ := cache_of_step steps lookup
    have twin : { small with cache := large.cache } = large := by
      obtain ⟨_, _, cache⟩ := large
      cases twins.schema
      cases twins.rows
      rfl
    have again := others large.cache
    rw [twin, steps'] at again
    obtain ⟨rfl, -⟩ := Prod.mk.inj (Option.some.inj again)
    refine ⟨valid, valid', schema'.trans schema.symm, rfl, ?_, ?_⟩
    · rw [erased]
      exact eraseAll positive larger ids twins.nested
    · rw [cacheHits, cacheHits, erased, (eraseAll_counters ids _).1, (eraseAll_counters ids _).1]
      exact twins.hits

end Twins

theorem create_fresh {schema : Schema} (keyed : hasPrimaryKey schema = true) {capacity : Nat}
    (positive : 1 ≤ capacity) :
    ∃ cache : LRUCache.Sound Int64 Row,
      create schema capacity = .ok ⟨schema, .create (by decide), cache⟩ ∧
      LRUCache.Represents capacity cache.val [] ∧ cache.val.hits = 0 ∧ cache.val.misses = 0 := by
  obtain ⟨cache, creates, fresh⟩ := LRUCache.Sound.create_fresh (K := Int64) (V := Row) positive
  refine ⟨cache, ?_, fresh⟩
  rw [create, creates]
  simp only [bind, Except.bind, keyed, if_true]
  rfl

/-- Over every run on two new tables with the same schema that differ in the capacity of their
caches: the answers are the same, each read by id counts once, and the table with the larger
cache has had at least as many hits after every call. -/
theorem larger_cache_hits_more (schema : Schema) (keyed : hasPrimaryKey schema = true)
    {capacity capacity' : Nat} (positive : 1 ≤ capacity) (larger : capacity ≤ capacity') :
    ∃ start start', create schema capacity = .ok start ∧ create schema capacity' = .ok start' ∧
      ∀ ops, ∃ small large results, Machine.run step start ops = some (small, results) ∧
        Machine.run step start' ops = some (large, results) ∧ small.rows = large.rows ∧
        small.cache.contents.Sublist large.cache.contents ∧
        small.cacheHits ≤ large.cacheHits ∧
        small.cacheHits + small.cacheMisses = ops.countP Op.isLookup ∧
        large.cacheHits + large.cacheMisses = ops.countP Op.isLookup := by
  obtain ⟨cache, creates, fresh, hits, misses⟩ := create_fresh keyed positive
  obtain ⟨cache', creates', fresh', hits', misses'⟩ := create_fresh keyed (positive.trans larger)
  obtain ⟨_, again, valid, -⟩ := create_spec keyed positive
  obtain ⟨_, again', valid', -⟩ := create_spec keyed (positive.trans larger)
  cases creates.symm.trans again
  cases creates'.symm.trans again'
  have twins : Twins capacity capacity' ⟨schema, .create (by decide), cache⟩
      ⟨schema, .create (by decide), cache'⟩ :=
    ⟨valid, valid', rfl, rfl, .start larger fresh fresh', (hits.trans hits'.symm).le⟩
  refine ⟨_, _, creates, creates', fun ops => ?_⟩
  obtain ⟨small, results, large, results', runs, runs', twins', same⟩ :=
    Machine.run_lockstep (fun _ _ op twins => twins.step positive larger op) ops twins
  rw [List.forall₂_eq_eq_eq] at same
  subst same
  refine ⟨small, large, results, runs, runs', twins'.rows.symm, twins'.nested.included.sublist,
    twins'.hits, ?_, ?_⟩
  · rw [run_counts runs, cacheHits, cacheMisses, hits, misses, Nat.zero_add]
  · rw [run_counts runs', cacheHits, cacheMisses, hits', misses', Nat.zero_add]

end Hits

section Witness

open scoped OneBucket

/-- Two rows that are read in turn. -/
def thrashing : List Op :=
  [.insert ((Row.blank idSchema).assign idColumn ['5']),
    .insert ((Row.blank idSchema).assign idColumn ['6']), .findById 5, .findById 6, .findById 5]

theorem larger_cache_hits_more_thrashing :
    (hasPrimaryKey idSchema = true ∧ 1 ≤ 1 ∧ 1 ≤ 2) ∧
      ∃ start start', create idSchema 1 = .ok start ∧ create idSchema 2 = .ok start' ∧
        ∃ small large results, Machine.run step start thrashing = some (small, results) ∧
          Machine.run step start' thrashing = some (large, results) ∧ small.rows = large.rows ∧
          small.cache.contents.Sublist large.cache.contents ∧
          small.cacheHits ≤ large.cacheHits ∧ small.cacheHits + small.cacheMisses = 3 ∧
          large.cacheHits + large.cacheMisses = 3 := by
  obtain ⟨start, start', creates, creates', runs⟩ :=
    larger_cache_hits_more idSchema (by decide) (Nat.le_refl 1) (by decide : 1 ≤ 2)
  exact ⟨by decide, start, start', creates, creates', runs thrashing⟩

/-- Room for both rows is a hit more. -/
example : [1, 2].map (fun capacity => (create idSchema capacity).toOption.bind fun start =>
      (Machine.run step start thrashing).map fun ended => ended.1.cacheHits) =
    [some 0, some 1] := by
  decide +kernel

end Witness

end Table

end CppDB
