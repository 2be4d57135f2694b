import CppDB.Concurrency.RWLock
import CppDB.Core.Table.Refinement

/-! The table's calls as threads run them: a section of the lock to get in, the sections
of the body one by one, a section to get out. The cache mutex is only ever held inside one
of these steps. -/
namespace CppDB.Table
open Assoc

/-- How far a call has got, with the locals it still needs. -/
inductive Stage where
  | entered
  | missed (id : Int64)
  | found (id : Int64)
  | doomed (ids : List Int64)
  | matched (assignments : Assignments) (ids : List Int64)
  | erasing (ids : List Int64) (result : Result)
  | returning (result : Result)

/-- The ids whose cached rows are still to be dropped. -/
def Stage.stale : Stage → List Int64
  | erasing ids _ => ids
  | _ => []

namespace Op

/-- Whether the call takes a `WriteGuard`. -/
def writes : Op → Bool
  | insert _ | deleteById _ | deleteWhere _ | updateWhere _ _ => true
  | findById _ | rowCount | selectAll | selectWhere _ | selectIdRange _ _ => false

/-- What the call throws before it takes the lock. -/
def refused (schema : Schema) : Op → Option Exn
  | insert row =>
    match checkRow schema row with
    | .error e => some e
    | .ok _ => none
  | updateWhere _ assignments =>
    match checkAssignments schema assignments with
    | .error e => some e
    | .ok () => none
  | _ => none

/-- Where the lock has the thread while the body runs. -/
def held (op : Op) : RWLock.Place := if op.writes then .writing else .reading

variable {T : Type}

def lock (op : Op) (t : T) : RWLock.Action T := if op.writes then .writeLock t else .readLock t

def unlock (op : Op) (t : T) (woken : Option T) : RWLock.Action T :=
  if op.writes then .writeUnlock t woken else .readUnlock t woken

end Op

section Sections
variable [StdHash Int64]

/-- The first section of the body. -/
def enter (table : Table) : Op → Table × Stage
  | .insert row =>
    let (inserted, table) := table.insert row
    (table, .returning (.of .flag inserted))
  | .findById id =>
    match table.cache.get id with
    | (cache, some row) => ({ table with cache }, .returning (.row (some row)))
    | (cache, none) => ({ table with cache }, .missed id)
  | .deleteById id =>
    let (rows, removed) := table.rows.remove id
    ({ table with rows }, if removed then .erasing [id] (.flag true) else .returning (.flag false))
  | .rowCount => (table, .returning (.count table.rowCount))
  | .selectAll => (table, .returning (.of .rows table.selectAll))
  | .selectWhere predicate => (table, .returning (.of .rows (table.selectWhere predicate)))
  | .selectIdRange lo hi => (table, .returning (.rows (table.selectIdRange lo hi)))
  | .deleteWhere predicate =>
    match table.matching predicate with
    | .error e => (table, .returning (.thrown e))
    | .ok doomed => (table, .doomed (doomed.map Prod.fst))
  | .updateWhere predicate assignments =>
    match table.matching predicate with
    | .error e => (table, .returning (.thrown e))
    | .ok matched => (table, .matched assignments (matched.map Prod.fst))

/-- The next section of the body; nothing if it follows a pointer to a row that is gone. -/
def work (table : Table) (op : Op) : Stage → Option (Table × Stage)
  | .entered => some (table.enter op)
  | .missed id =>
    if (table.rows.search id).isSome then some (table, .found id)
    else some (table, .returning (.row none))
  | .found id => do
    -- `*row` is read again through the pointer the search returned
    let row ← table.rows.search id
    return ({ table with cache := table.cache.put id row }, .returning (.row (some row)))
  | .doomed ids => some (ids.foldl removeRow table, .returning (.count ids.length))
  | .matched assignments ids => do
    match ← assignRows assignments ids table.rows with
    | (.error e, rows) => return ({ table with rows }, .returning (.thrown e))
    | (.ok (), rows) => return ({ table with rows }, .erasing ids (.count ids.length))
  | .erasing ids result =>
    let cache := ids.foldl (fun cache id => (cache.erase id).1) table.cache
    some ({ table with cache }, .returning result)
  | .returning _ => none

/-- A table that threads share; a thread is in at most one call. -/
structure Shared (T : Type) where
  lock : RWLock T
  table : Table
  job : T → Option (Op × Stage)

namespace Shared

variable {T : Type} [DecidableEq T]

inductive Action (T : Type) where
  | call (t : T) (op : Op)
  | recheck (t : T)
  | wakeSpuriously (t : T)
  | work (t : T)
  | finish (t : T) (woken : Option T)

def setJob (s : Shared T) (t : T) (job : Option (Op × Stage)) : Shared T :=
  { s with job := Function.update s.job t job }

def step (s : Shared T) : Action T → Option (Shared T)
  | .call t op =>
    match s.job t, op.refused s.table.schema with
    | some _, _ => none
    | none, some _ => some s
    | none, none =>
      (s.lock.step (op.lock t)).map fun lock => { s.setJob t (some (op, .entered)) with lock }
  | .recheck t => (s.lock.step (.recheck t)).map fun lock => { s with lock }
  | .wakeSpuriously t => (s.lock.step (.wakeSpuriously t)).map fun lock => { s with lock }
  | .work t =>
    match s.job t with
    | none => none
    | some (op, stage) =>
      if s.lock.place t = op.held then
        (s.table.work op stage).map fun (table, stage) =>
          { s.setJob t (some (op, stage)) with table }
      else none
  | .finish t woken =>
    match s.job t with
    | some (op, .returning _) =>
      (s.lock.step (op.unlock t woken)).map fun lock => { s.setJob t none with lock }
    | _ => none

def Steps (s s' : Shared T) : Prop := ∃ a, s.step a = some s'

/-- A new table, with nobody in a call. -/
def fresh (table : Table) : Shared T := ⟨.fresh, table, fun _ => none⟩

/-- What any interleaving reaches from a new table. -/
def Reachable (s : Shared T) : Prop :=
  ∃ schema cacheCapacity table, create schema cacheCapacity = .ok table ∧
    Relation.ReflTransGen Steps (fresh table) s

end Shared

/-! ### One section -/

variable {table table' : Table} {op : Op} {stage stage' : Stage}

/-- The table invariant, but for cached rows of the given ids. -/
structure ValidBut (ids : List Int64) (table : Table) : Prop where
  keyed : hasPrimaryKey table.schema = true
  stored : ∀ entry ∈ table.contents, Stored table.schema entry.1 entry.2
  coherent : ∀ entry ∈ table.cache.contents, entry ∈ table.contents ∨ entry.1 ∈ ids

theorem ValidBut.valid (valid : ValidBut [] table) : table.Valid := by
  refine ⟨valid.keyed, valid.stored, ?_⟩
  intro entry there
  exact (valid.coherent entry there).resolve_right List.not_mem_nil

theorem Valid.but (valid : table.Valid) (ids : List Int64) : ValidBut ids table :=
  ⟨valid.keyed, valid.stored, fun entry there => .inl (valid.coherent entry there)⟩

/-- What is known of a call at a stage. -/
def Justified (table : Table) (op : Op) : Stage → Prop
  | .entered => op.refused table.schema = none
  | .missed id => op = .findById id
  | .found id => op = .findById id ∧ id ∈ keys table.contents
  | .doomed _ => op.writes = true
  | .matched assignments ids =>
    op.writes = true ∧ checkAssignments table.schema assignments = .ok () ∧ ids.Nodup ∧
      ∀ id ∈ ids, id ∈ keys table.contents
  | .erasing _ _ => op.writes = true
  | .returning result => ∀ id, op = .findById id → result = .row (find id table.contents)

/-- It stays known while the stored rows are the same, and before the body starts in any case. -/
theorem Justified.frame (justified : Justified table op stage)
    (schema_eq : table'.schema = table.schema)
    (same : stage = .entered ∨ table'.contents = table.contents) : Justified table' op stage := by
  cases stage with
  | entered =>
    rw [Justified, schema_eq]
    exact justified
  | missed | doomed | erasing => exact justified
  | found | matched | returning =>
    have contents_eq := same.resolve_left nofun
    simp only [Justified, contents_eq, schema_eq] at justified ⊢
    exact justified

/-- What a section of a call leaves behind. -/
structure Advances (table : Table) (op : Op) (table' : Table) (stage' : Stage) : Prop where
  schema_eq : table'.schema = table.schema
  valid : ValidBut stage'.stale table'
  justified : Justified table' op stage'
  reads : op.writes = false → table'.contents = table.contents

theorem search_contents (table : Table) (id : Int64) :
    table.rows.search id = find id table.contents := BTree.Sound.search_eq _ _

/-- A call that leaves the table as it is. -/
theorem advances_same (valid : table.Valid) (fresh : stage'.stale = [])
    (justified : Justified table op stage') : Advances table op table stage' :=
  ⟨rfl, fresh ▸ valid.but _, justified, fun _ => rfl⟩

theorem insert_advances (valid : table.Valid) (row : Row) :
    Advances table (.insert row) (table.insert row).2
      (.returning (.of .flag (table.insert row).1)) := by
  constructor
  · rw [insert]
    split <;> rfl
  · exact (valid.insert row).but []
  · exact fun id is => by cases is
  · exact fun reads => by cases reads

theorem findById_advances (valid : table.Valid) (id : Int64) :
    Advances table (.findById id) (table.enter (.findById id)).1
      (table.enter (.findById id)).2 := by
  have fromCache : ∀ entry ∈ (table.cache.get id).1.contents, entry ∈ table.contents :=
    fun entry there => valid.coherent entry (table.cache.mem_contents_get id there)
  have answer := table.cache.get_answer id
  rw [enter]
  rcases is : table.cache.get id with ⟨cache, hit⟩
  rw [is] at fromCache answer
  have valid' : Valid { table with cache } := ⟨valid.keyed, valid.stored, fromCache⟩
  cases hit with
  | none =>
    constructor
    · rfl
    · exact valid'.but []
    · rfl
    · exact fun _ => rfl
  | some row =>
    constructor
    · rfl
    · exact valid'.but []
    · intro id' same
      cases same
      have held := valid.coherent _ (mem_of_find (Eq.symm answer))
      have stored : find id table.contents = some row :=
        find_of_mem table.ascending_contents.nodup held
      exact congrArg Result.row (Eq.symm stored)
    · exact fun _ => rfl

theorem deleteById_advances (valid : table.Valid) (id : Int64) :
    Advances table (.deleteById id) (table.enter (.deleteById id)).1
      (table.enter (.deleteById id)).2 := by
  have contents_eq : Table.contents { table with rows := (table.rows.remove id).1 } =
      without id table.contents := BTree.Sound.contents_remove _ _
  have stored : ∀ entry ∈ without id table.contents, Stored table.schema entry.1 entry.2 :=
    fun entry there => valid.stored entry (List.mem_of_mem_filter there)
  have flag : (table.rows.remove id).2 = decide (id ∈ keys table.contents) :=
    BTree.Sound.remove_flag _ _
  simp only [enter, flag, decide_eq_true_eq]
  split
  case isTrue present =>
    constructor
    · rfl
    · refine ⟨valid.keyed, by rwa [contents_eq], ?_⟩
      intro entry there
      rw [contents_eq, without, List.mem_filter]
      by_cases same : entry.1 = id
      · exact .inr (by simp [Stage.stale, same])
      · exact .inl ⟨valid.coherent entry there, by simpa using same⟩
    · rfl
    · exact fun reads => by cases reads
  case isFalse absent =>
    rw [without_eq_self absent] at contents_eq
    constructor
    · rfl
    · refine ⟨valid.keyed, by rw [contents_eq]; exact valid.stored, ?_⟩
      intro entry there
      rw [contents_eq]
      exact .inl (valid.coherent entry there)
    · exact fun id is => by cases is
    · exact fun reads => by cases reads

/-- The ids a scan collects are stored ids, each once. -/
theorem ids_of_matching {predicate : Predicate} {found : List (Int64 × Row)}
    (scans : table.matching predicate = .ok found) :
    (found.map Prod.fst).Nodup ∧ ∀ id ∈ found.map Prod.fst, id ∈ keys table.contents := by
  have sublist : (found.map Prod.fst).Sublist (keys table.contents) := by
    rw [matching_eq_ok scans]
    exact List.filter_sublist.map Prod.fst
  exact ⟨table.ascending_contents.nodup.sublist sublist, fun id there => sublist.subset there⟩

omit [StdHash Int64] in
theorem checks_of_accepted {schema : Schema} {predicate : Predicate} {assignments : Assignments}
    (accepted : Op.refused schema (.updateWhere predicate assignments) = none) :
    checkAssignments schema assignments = .ok () := by
  rw [Op.refused] at accepted
  split at accepted
  · cases accepted
  · assumption

theorem enter_advances (valid : table.Valid) (accepted : op.refused table.schema = none) :
    Advances table op (table.enter op).1 (table.enter op).2 := by
  cases op with
  | insert row => exact insert_advances valid row
  | findById id => exact findById_advances valid id
  | deleteById id => exact deleteById_advances valid id
  | rowCount | selectAll | selectWhere | selectIdRange =>
    exact advances_same valid rfl fun id is => by cases is
  | deleteWhere predicate =>
    rw [enter]
    split
    · exact advances_same valid rfl fun id is => by cases is
    · exact advances_same valid rfl rfl
  | updateWhere predicate assignments =>
    rw [enter]
    split
    · exact advances_same valid rfl fun id is => by cases is
    · rename_i scans
      exact advances_same valid rfl ⟨rfl, checks_of_accepted accepted, ids_of_matching scans⟩

/-- Rows are rewritten under the given ids only. -/
theorem matched_advances (valid : table.Valid) {assignments : Assignments} {ids : List Int64}
    (writes : op.writes = true)
    (checks : checkAssignments table.schema assignments = .ok ()) (distinct : ids.Nodup)
    (present : ∀ id ∈ ids, id ∈ keys table.contents)
    (works : table.work op (.matched assignments ids) = some (table', stage')) :
    Advances table op table' stage' := by
  obtain ⟨rows, assigns, contents_eq⟩ := assignRows_spec checks ids distinct present valid.stored
  simp only [work, assigns, Option.bind_eq_bind, Option.bind_some] at works
  cases works
  have revised : Table.contents { table with rows } =
      table.contents.map (revise assignments ids) := contents_eq
  constructor
  · rfl
  · constructor
    · exact valid.keyed
    · intro entry there
      rw [revised] at there
      obtain ⟨entry', there', rfl⟩ := List.mem_map.mp there
      rw [revise]
      split
      · exact (valid.stored entry' there').assignAll checks
      · exact valid.stored entry' there'
    · intro entry there
      by_cases listed : entry.1 ∈ ids
      · exact .inr listed
      · left
        rw [revised]
        exact List.mem_map.mpr ⟨entry, valid.coherent entry there, if_neg listed⟩
  · exact writes
  · exact fun reads => by cases reads.symm.trans writes

theorem erasing_advances {ids : List Int64} {result : Result} (valid : ValidBut ids table)
    (writes : op.writes = true)
    (works : table.work op (.erasing ids result) = some (table', stage')) :
    Advances table op table' stage' := by
  rw [work] at works
  cases works
  constructor
  · rfl
  · refine ⟨valid.keyed, valid.stored, ?_⟩
    intro entry there
    simp only [contents_foldl_erase, List.mem_filter, decide_eq_true_eq] at there
    exact .inl ((valid.coherent entry there.1).resolve_right there.2)
  · rintro id rfl
    cases writes
  · exact fun reads => by cases reads.symm.trans writes

theorem found_advances (valid : table.Valid) {id : Int64}
    (works : table.work (.findById id) (.found id) = some (table', stage')) :
    Advances table (.findById id) table' stage' := by
  simp only [work, search_contents, Option.bind_eq_bind, Option.bind_eq_some_iff] at works
  obtain ⟨row, stored, works⟩ := works
  cases works
  constructor
  · rfl
  · refine ⟨valid.keyed, valid.stored, ?_⟩
    intro entry there
    rcases LRUCache.Sound.mem_contents_put _ id row there with rfl | there
    · exact .inl (mem_of_find stored)
    · exact .inl (valid.coherent entry there)
  · intro id' same
    cases same
    exact congrArg Result.row stored.symm
  · exact fun _ => rfl

theorem work_advances (valid : ValidBut stage.stale table) (justified : Justified table op stage)
    (works : table.work op stage = some (table', stage')) : Advances table op table' stage' := by
  cases stage with
  | entered =>
    obtain ⟨rfl, rfl⟩ := Prod.mk.inj (Option.some.inj works)
    exact enter_advances valid.valid justified
  | missed id =>
    cases justified
    simp only [work, search_contents, find_isSome] at works
    split at works
    case isTrue present =>
      cases works
      exact advances_same valid.valid rfl ⟨rfl, present⟩
    case isFalse absent =>
      cases works
      apply advances_same valid.valid rfl
      intro id' same
      cases same
      exact congrArg Result.row (find_eq_none.mpr absent).symm
  | found id =>
    obtain ⟨rfl, -⟩ := justified
    exact found_advances valid.valid works
  | doomed ids =>
    cases works
    constructor
    · exact (contents_foldl_removeRow ids table).1
    · exact (valid.valid.foldl_removeRow ids).but []
    · rintro id rfl
      cases justified
    · exact fun reads => by cases reads.symm.trans justified
  | matched assignments ids =>
    obtain ⟨writes, checks, distinct, present⟩ := justified
    exact matched_advances valid.valid writes checks distinct present works
  | erasing ids result => exact erasing_advances valid justified works
  | returning result => cases works

/-- A section that is due can be taken. -/
theorem work_of_justified (valid : table.Valid) (justified : Justified table op stage)
    (unfinished : ∀ result, stage ≠ .returning result) : (table.work op stage).isSome = true := by
  cases stage with
  | entered => rfl
  | missed id =>
    rw [work]
    split <;> rfl
  | found id =>
    obtain ⟨row, stored⟩ := Option.isSome_iff_exists.mp (find_isSome.mpr justified.2)
    rw [work, search_contents, stored]
    rfl
  | doomed ids => rfl
  | matched assignments ids =>
    obtain ⟨-, checks, distinct, present⟩ := justified
    obtain ⟨rows, assigns, -⟩ := assignRows_spec checks ids distinct present valid.stored
    simp only [work, assigns, Option.bind_eq_bind, Option.bind_some]
    rfl
  | erasing ids result => rfl
  | returning result => exact absurd rfl (unfinished result)

/-- One section of a call after another, with nobody in between. -/
def Works (op : Op) (a b : Table × Stage) : Prop := a.1.work op a.2 = some b

theorem findById_works (table : Table) (id : Int64) :
    Relation.ReflTransGen (Works (.findById id)) (table, .entered)
      ((table.findById id).2, .returning (.row (table.findById id).1)) := by
  rcases is : table.cache.get id with ⟨cache, hit⟩
  cases hit with
  | some row =>
    apply Relation.ReflTransGen.single
    simp only [Works, work, enter, findById, is]
  | none =>
    have misses : Works (.findById id) (table, .entered) ({ table with cache }, .missed id) := by
      simp only [Works, work, enter, is]
    apply Relation.ReflTransGen.head misses
    cases found : table.rows.search id with
    | none =>
      apply Relation.ReflTransGen.single
      simp only [Works, work, findById, is, found]
      rfl
    | some row =>
      have finds : Works (.findById id) ({ table with cache }, .missed id)
          ({ table with cache }, .found id) := by
        simp only [Works, work, found, Option.isSome_some, if_true]
      apply Relation.ReflTransGen.head finds
      apply Relation.ReflTransGen.single
      simp only [Works, work, findById, is, found, Option.bind_eq_bind, Option.bind_some]
      rfl

theorem deleteById_works (table : Table) (id : Int64) :
    Relation.ReflTransGen (Works (.deleteById id)) (table, .entered)
      ((table.deleteById id).2, .returning (.flag (table.deleteById id).1)) := by
  rcases is : table.rows.remove id with ⟨rows, removed⟩
  cases removed with
  | false =>
    apply Relation.ReflTransGen.single
    simp only [Works, work, enter, deleteById, is]
    rfl
  | true =>
    have removes : Works (.deleteById id) (table, .entered)
        ({ table with rows }, .erasing [id] (.flag true)) := by
      simp only [Works, work, enter, is, if_true]
    apply Relation.ReflTransGen.head removes
    apply Relation.ReflTransGen.single
    simp only [Works, work, deleteById, is]
    rfl

theorem deleteWhere_works (table : Table) (predicate : Predicate) :
    Relation.ReflTransGen (Works (.deleteWhere predicate)) (table, .entered)
      ((table.deleteWhere predicate).2,
        .returning (.of .count (table.deleteWhere predicate).1)) := by
  cases scans : table.matching predicate with
  | error e =>
    apply Relation.ReflTransGen.single
    simp only [Works, work, enter, deleteWhere, scans, Result.of]
  | ok doomed =>
    have collects : Works (.deleteWhere predicate) (table, .entered)
        (table, .doomed (doomed.map Prod.fst)) := by
      simp only [Works, work, enter, scans]
    apply Relation.ReflTransGen.head collects
    apply Relation.ReflTransGen.single
    simp only [Works, work, deleteWhere, scans, Result.of, List.length_map]

theorem updateWhere_works {predicate : Predicate} {assignments : Assignments}
    (checks : checkAssignments table.schema assignments = .ok ()) {updated : Except Exn Nat}
    (updates : table.updateWhere predicate assignments = some (updated, table')) :
    Relation.ReflTransGen (Works (.updateWhere predicate assignments)) (table, .entered)
      (table', .returning (.of .count updated)) := by
  simp only [updateWhere, checks] at updates
  cases scans : table.matching predicate with
  | error e =>
    simp only [scans] at updates
    cases updates
    apply Relation.ReflTransGen.single
    simp only [Works, work, enter, scans, Result.of]
  | ok matched =>
    have collects : Works (.updateWhere predicate assignments) (table, .entered)
        (table, .matched assignments (matched.map Prod.fst)) := by
      simp only [Works, work, enter, scans]
    apply Relation.ReflTransGen.head collects
    simp only [scans, Option.bind_eq_bind, Option.bind_eq_some_iff] at updates
    obtain ⟨⟨outcome, rows⟩, assigns, updates⟩ := updates
    cases outcome with
    | error e =>
      cases updates
      apply Relation.ReflTransGen.single
      simp only [Works, work, assigns, Option.bind_eq_bind, Option.bind_some]
      rfl
    | ok =>
      cases updates
      have revises : Works (.updateWhere predicate assignments)
          (table, .matched assignments (matched.map Prod.fst))
          ({ table with rows }, .erasing (matched.map Prod.fst) (.count matched.length)) := by
        simp only [Works, work, assigns, Option.bind_eq_bind, Option.bind_some, List.length_map]
        rfl
      apply Relation.ReflTransGen.head revises
      exact Relation.ReflTransGen.single rfl

/-- Undisturbed, the sections of a call that is not refused do what the call does. -/
theorem sections_compute (accepted : op.refused table.schema = none) {result : Result}
    (steps : table.step op = some (table', result)) :
    Relation.ReflTransGen (Works op) (table, .entered) (table', .returning result) := by
  cases op with
  | insert | rowCount | selectAll | selectWhere | selectIdRange =>
    cases steps
    exact .single rfl
  | findById id =>
    simp only [step, Option.some.injEq, Prod.mk.injEq] at steps
    obtain ⟨rfl, rfl⟩ := steps
    exact findById_works table id
  | deleteById id =>
    simp only [step, Option.some.injEq, Prod.mk.injEq] at steps
    obtain ⟨rfl, rfl⟩ := steps
    exact deleteById_works table id
  | deleteWhere predicate =>
    simp only [step, Option.some.injEq, Prod.mk.injEq] at steps
    obtain ⟨rfl, rfl⟩ := steps
    exact deleteWhere_works table predicate
  | updateWhere predicate assignments =>
    simp only [step, Option.bind_eq_bind, Option.bind_eq_some_iff] at steps
    obtain ⟨⟨updated, table''⟩, updates, ends⟩ := steps
    cases ends
    exact updateWhere_works (checks_of_accepted accepted) updates

/-! ### All threads -/

namespace Shared

variable {T : Type} [DecidableEq T] {s s' : Shared T} {t u : T}

omit [StdHash Int64] in
/-- A job after one thread got another is that one, or it was there before. -/
theorem job_of_update {jobs : T → Option (Op × Stage)} {job : Option (Op × Stage)}
    (is : Function.update jobs t job u = some (op, stage)) :
    u = t ∧ job = some (op, stage) ∨ u ≠ t ∧ jobs u = some (op, stage) := by
  by_cases same : u = t
  · subst same
    rw [Function.update_self] at is
    exact .inl ⟨rfl, is⟩
  · rw [Function.update_of_ne same] at is
    exact .inr ⟨same, is⟩

/-- The lock is sound, calls past their first section hold it, and cached rows are the
stored ones, apart from those that a call in the middle of its body is about to drop. -/
structure Sound (s : Shared T) : Prop where
  lock : s.lock.Sound
  held : ∀ t op stage, s.job t = some (op, stage) → stage ≠ .entered → s.lock.place t = op.held
  justified : ∀ t op stage, s.job t = some (op, stage) → Justified s.table op stage
  keyed : hasPrimaryKey s.table.schema = true
  stored : ∀ entry ∈ s.table.contents, Stored s.table.schema entry.1 entry.2
  coherent : ∀ entry ∈ s.table.cache.contents, entry ∈ s.table.contents ∨
    ∃ t op stage, s.job t = some (op, stage) ∧ entry.1 ∈ stage.stale

namespace Sound

omit [DecidableEq T] in
theorem fresh {table : Table} (valid : table.Valid) : (fresh table : Shared T).Sound := by
  constructor
  · exact .fresh
  · exact fun t op stage is => by cases is
  · exact fun t op stage is => by cases is
  · exact valid.keyed
  · exact valid.stored
  · exact fun entry there => .inl (valid.coherent entry there)

omit [DecidableEq T] in
theorem writing_of_stale (sound : s.Sound) {id : Int64} (is : s.job t = some (op, stage))
    (stale : id ∈ stage.stale) : s.lock.place t = .writing := by
  cases stage with
  | erasing ids result =>
    have writes : op.writes = true := sound.justified t op _ is
    rw [sound.held t op _ is nofun, Op.held, if_pos writes]
  | _ => cases stale

omit [DecidableEq T] in
/-- Nothing is stale beside a call whose body runs, except for what it is dropping itself. -/
theorem validBut (sound : s.Sound) (is : s.job t = some (op, stage))
    (runs : s.lock.place t = op.held) : ValidBut stage.stale s.table := by
  refine ⟨sound.keyed, sound.stored, ?_⟩
  intro entry there
  apply (sound.coherent entry there).imp_right
  rintro ⟨u, op', stage', is', stale⟩
  have writing := sound.writing_of_stale is' stale
  have same : u = t := by
    rw [Op.held] at runs
    split at runs
    · exact sound.lock.writing_unique writing runs
    · exact absurd writing (sound.lock.reading_excludes_writing runs)
  subst same
  cases is.symm.trans is'
  exact stale

omit [DecidableEq T] in
/-- Beside a call that writes, every other is still outside the lock. -/
theorem entered_of_writing (sound : s.Sound) (writing : s.lock.place t = .writing)
    (is : s.job u = some (op, stage)) (other : u ≠ t) : stage = .entered := by
  by_contra past
  have runs := sound.held u op stage is past
  rw [Op.held] at runs
  split at runs
  · exact other (sound.lock.writing_unique runs writing)
  · exact sound.lock.reading_excludes_writing runs writing

/-- A section of the lock by a thread that is at most waiting for it afterwards. -/
theorem relock (sound : s.Sound) {lock : RWLock T} {job : Option (Op × Stage)}
    (takes : RWLock.Takes t s.lock lock)
    (clean : ∀ op stage, s.job t = some (op, stage) → stage.stale = [])
    (waits : ∀ op stage, job = some (op, stage) →
      stage = .entered ∧ op.refused s.table.schema = none) :
    Sound { s.setJob t job with lock } := by
  constructor
  · exact sound.lock.next takes
  · intro u op stage is past
    rcases job_of_update is with ⟨rfl, new⟩ | ⟨other, old⟩
    · exact absurd (waits op stage new).1 past
    · exact (takes.place_of_ne other).trans (sound.held u op stage old past)
  · intro u op stage is
    rcases job_of_update is with ⟨rfl, new⟩ | ⟨other, old⟩
    · obtain ⟨rfl, accepted⟩ := waits op stage new
      exact accepted
    · exact sound.justified u op stage old
  · exact sound.keyed
  · exact sound.stored
  · intro entry there
    apply (sound.coherent entry there).imp_right
    rintro ⟨u, op, stage, is, stale⟩
    have other : u ≠ t := by
      rintro rfl
      rw [clean op stage is] at stale
      cases stale
    exact ⟨u, op, stage, (Function.update_of_ne other _ _).trans is, stale⟩

/-- A section of a call's body. -/
theorem advance (sound : s.Sound) {table' : Table} (is : s.job t = some (op, stage))
    (runs : s.lock.place t = op.held) (advances : Advances s.table op table' stage') :
    Sound { s.setJob t (some (op, stage')) with table := table' } := by
  constructor
  · exact sound.lock
  · intro u op' stage'' is' past
    rcases job_of_update is' with ⟨rfl, new⟩ | ⟨other, old⟩
    · cases new
      exact runs
    · exact sound.held u op' stage'' old past
  · intro u op' stage'' is'
    rcases job_of_update is' with ⟨rfl, new⟩ | ⟨other, old⟩
    · cases new
      exact advances.justified
    · apply (sound.justified u op' stage'' old).frame advances.schema_eq
      cases writes : op.writes with
      | false => exact .inr (advances.reads writes)
      | true =>
        rw [Op.held, if_pos writes] at runs
        exact .inl (sound.entered_of_writing runs old other)
  · exact advances.valid.keyed
  · exact advances.valid.stored
  · intro entry there
    apply (advances.valid.coherent entry there).imp_right
    intro stale
    exact ⟨t, op, stage', Function.update_self _ _ _, stale⟩

theorem recheck (sound : s.Sound) {lock : RWLock T}
    (steps : s.lock.step (.recheck t) = some lock) : Sound { s with lock } := by
  have waiting := RWLock.place_of_recheck steps
  have entered : ∀ op stage, s.job t = some (op, stage) → stage = .entered := by
    intro op stage is
    by_contra past
    have runs := sound.held t op stage is past
    rw [Op.held] at runs
    split at runs <;> rw [runs] at waiting <;> simp at waiting
  have same : s.setJob t (s.job t) = s := by simp [setJob]
  rw [← same]
  apply sound.relock (RWLock.step_takes steps)
  · intro op stage is
    rw [entered op stage is]
    rfl
  · intro op stage is
    obtain rfl := entered op stage is
    exact ⟨rfl, sound.justified t op _ is⟩

theorem next (sound : s.Sound) {a : Action T} (steps : s.step a = some s') : s'.Sound := by
  cases a with
  | call t op =>
    rw [step] at steps
    split at steps
    case h_1 => cases steps
    case h_2 =>
      cases steps
      exact sound
    case h_3 idle accepted =>
      obtain ⟨lock, locks, rfl⟩ := Option.map_eq_some_iff.mp steps
      have thread : (op.lock t).thread = t := by
        rw [Op.lock]
        split <;> rfl
      have takes := RWLock.step_takes locks
      rw [thread] at takes
      apply sound.relock takes
      · intro op' stage is
        cases idle.symm.trans is
      · intro op' stage is
        cases is
        exact ⟨rfl, accepted⟩
  | recheck t =>
    obtain ⟨lock, locks, rfl⟩ := Option.map_eq_some_iff.mp steps
    exact sound.recheck locks
  | wakeSpuriously t =>
    rw [step] at steps
    obtain ⟨lock, locks, rfl⟩ := Option.map_eq_some_iff.mp steps
    have locked := sound.lock.next (RWLock.step_takes locks)
    cases locks
    exact ⟨locked, sound.held, sound.justified, sound.keyed, sound.stored, sound.coherent⟩
  | work t =>
    rw [step] at steps
    split at steps
    case h_1 => cases steps
    case h_2 op stage is =>
      rw [Option.ite_none_right_eq_some] at steps
      obtain ⟨runs, steps⟩ := steps
      obtain ⟨⟨table', stage'⟩, works, rfl⟩ := Option.map_eq_some_iff.mp steps
      exact sound.advance is runs
        (work_advances (sound.validBut is runs) (sound.justified t op stage is) works)
  | finish t woken =>
    rw [step] at steps
    split at steps
    case h_1 op result is =>
      obtain ⟨lock, locks, rfl⟩ := Option.map_eq_some_iff.mp steps
      have thread : (op.unlock t woken).thread = t := by
        rw [Op.unlock]
        split <;> rfl
      have takes := RWLock.step_takes locks
      rw [thread] at takes
      apply sound.relock takes
      · intro op' stage is'
        cases is.symm.trans is'
        rfl
      · intro op' stage is'
        cases is'
    case h_2 => cases steps

end Sound

theorem sound_of_reachable (reachable : s.Reachable) : s.Sound := by
  obtain ⟨schema, cacheCapacity, table, creates, run⟩ := reachable
  induction run with
  | refl =>
    obtain ⟨keyed, positive⟩ := create_eq_ok creates
    obtain ⟨table', creates', valid, -⟩ := create_spec keyed positive
    cases creates.symm.trans creates'
    exact .fresh valid
  | tail _ steps ih =>
    obtain ⟨a, steps⟩ := steps
    exact ih.next steps

/-- Nothing changes the stored rows while some thread reads. -/
theorem contents_of_reading (sound : s.Sound) (reading : s.lock.place t = .reading)
    {a : Action T} (steps : s.step a = some s') : s'.table.contents = s.table.contents := by
  cases a with
  | call u op =>
    rw [step] at steps
    split at steps
    case h_1 => cases steps
    case h_2 =>
      cases steps
      rfl
    case h_3 =>
      obtain ⟨lock, -, rfl⟩ := Option.map_eq_some_iff.mp steps
      rfl
  | recheck u =>
    obtain ⟨lock, -, rfl⟩ := Option.map_eq_some_iff.mp steps
    rfl
  | wakeSpuriously u =>
    rw [step] at steps
    obtain ⟨lock, -, rfl⟩ := Option.map_eq_some_iff.mp steps
    rfl
  | work u =>
    rw [step] at steps
    split at steps
    case h_1 => cases steps
    case h_2 op stage is =>
      rw [Option.ite_none_right_eq_some] at steps
      obtain ⟨runs, steps⟩ := steps
      obtain ⟨⟨table', stage'⟩, works, rfl⟩ := Option.map_eq_some_iff.mp steps
      have advances :=
        work_advances (sound.validBut is runs) (sound.justified u op stage is) works
      apply advances.reads
      by_contra writes
      rw [Op.held, if_pos (by simpa using writes)] at runs
      exact sound.lock.reading_excludes_writing reading runs
  | finish u woken =>
    rw [step] at steps
    split at steps
    case h_1 =>
      obtain ⟨lock, -, rfl⟩ := Option.map_eq_some_iff.mp steps
      rfl
    case h_2 => cases steps

/-- The thread is in `findById(id)` and has the lock. -/
def Looking (t : T) (id : Int64) (s : Shared T) : Prop :=
  s.lock.place t = .reading ∧ ∃ stage, s.job t = some (.findById id, stage)

/-- The second state is reached from the first within one such call. -/
def During (t : T) (id : Int64) : Shared T → Shared T → Prop :=
  Relation.ReflTransGen fun a b => Looking t id a ∧ Steps a b

theorem contents_during {id : Int64} (sound : s.Sound) (during : During t id s s') :
    s'.Sound ∧ s'.table.contents = s.table.contents := by
  induction during with
  | refl => exact ⟨sound, rfl⟩
  | tail _ steps ih =>
    obtain ⟨looking, a, steps⟩ := steps
    obtain ⟨sound', same⟩ := ih
    exact ⟨sound'.next steps, (contents_of_reading sound' looking.1 steps).trans same⟩

/-- In every reachable state without a writer each cached row is the stored one; what a
`findById` returns was stored all the while it had the lock; and no call in its body ever
comes to a pointer to a row that is gone. -/
theorem cache_coherent (reachable : s.Reachable) :
    ((∀ t, s.lock.place t ≠ .writing) →
      ∀ entry ∈ s.table.cache.contents, s.table.rows.search entry.1 = some entry.2) ∧
    (∀ t id s' answer, During t id s s' →
      s'.job t = some (.findById id, .returning answer) →
        answer = .row (s.table.rows.search id)) ∧
    ∀ t op stage, s.job t = some (op, stage) → s.lock.place t = op.held →
      (∀ result, stage ≠ .returning result) → (s.table.work op stage).isSome = true := by
  have sound := sound_of_reachable reachable
  constructor
  · intro unwritten entry there
    rw [search_contents]
    apply find_of_mem s.table.ascending_contents.nodup
    apply (sound.coherent entry there).resolve_right
    rintro ⟨t, op, stage, is, stale⟩
    exact unwritten t (sound.writing_of_stale is stale)
  constructor
  · intro t id s' answer during is
    obtain ⟨sound', same⟩ := contents_during sound during
    rw [search_contents, ← same]
    exact sound'.justified t _ _ is id rfl
  · intro t op stage is runs unfinished
    have valid := sound.validBut is runs
    cases stage with
    | erasing => rfl
    | _ => exact work_of_justified valid.valid (sound.justified t op _ is) unfinished

end Shared
end Sections

section Witness

open scoped OneBucket

/-- The row a thread is about to return from `findById(5)`. -/
def Shared.lookedUp {T : Type} (s : Shared T) (t : T) : Option Row :=
  match s.job t with
  | some (.findById id, .returning (.row found)) => if id = 5 then found else none
  | _ => none

/-- Two lookups of one row miss the cache together while a third thread waits to delete it. -/
theorem cache_coherent_racing :
    ∃ (s : Shared Nat) (row : Row), s.Reachable ∧ s.lock.place 3 = .inWriteLock ∧
      s.job 1 = some (.findById 5, .returning (.row (some row))) ∧
      s.table.rows.search 5 = some row := by
  have runs : (((create idSchema 1).toOption.bind fun table =>
      [.call 0 (.insert ((Row.blank idSchema).assign idColumn ['5'])), .work 0, .finish 0 none,
        .call 1 (.findById 5), .call 2 (.findById 5), .call 3 (.deleteById 5), .work 1, .work 2,
        .work 1, .work 2, .work 2, .finish 2 none, .work 1].foldlM Shared.step
          (Shared.fresh table : Shared Nat)).any fun s =>
      s.lock.place 3 == .inWriteLock && (s.lookedUp 1).isSome) = true := by
    decide +kernel
  rw [Option.any_eq_true] at runs
  obtain ⟨s, ends, holds⟩ := runs
  rw [Bool.and_eq_true, beq_iff_eq] at holds
  obtain ⟨waits, looks⟩ := holds
  obtain ⟨table, creates, runs⟩ := Option.bind_eq_some_iff.mp ends
  have reachable : s.Reachable :=
    ⟨idSchema, 1, table, create_of_toOption creates, Machine.reaches_of_foldlM runs⟩
  obtain ⟨row, is⟩ := Option.isSome_iff_exists.mp looks
  have returns : s.job 1 = some (.findById 5, .returning (.row (some row))) := by
    rw [Shared.lookedUp] at is
    split at is
    case h_1 id found job =>
      rw [Option.ite_none_right_eq_some] at is
      obtain ⟨rfl, rfl⟩ := is
      exact job
    case h_2 => cases is
  have answer := (Shared.cache_coherent reachable).2.1 1 5 s _ .refl returns
  exact ⟨s, row, reachable, waits, returns, (Result.row.inj answer).symm⟩

end Witness
end CppDB.Table
