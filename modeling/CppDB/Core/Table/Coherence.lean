import CppDB.Core.Table.Model

/-! The table invariant: every stored row is complete and filed under its own id, and
the cache holds only pairs that are stored. One specification per operation says what
it does to the stored pairs; none of them mentions the cache. -/
namespace CppDB.Table
open Assoc

variable [StdHash Int64] {table : Table} {schema : Schema} {row : Row}

/-- What a table guarantees of a row it stores under an id. -/
structure Stored (schema : Schema) (id : Int64) (row : Row) : Prop where
  schema_eq : row.schema = schema
  complete : ∀ column ∈ schema.columns, row.has column.name = true
  filed : row.cell idColumn = some (.int id)

/-- The stored pairs in ascending id order. -/
def contents (table : Table) : List (Int64 × Row) := table.rows.contents

structure Valid (table : Table) : Prop where
  keyed : hasPrimaryKey table.schema = true
  stored : ∀ entry ∈ table.contents, Stored table.schema entry.1 entry.2
  coherent : ∀ entry ∈ table.cache.contents, entry ∈ table.contents

theorem ascending_contents (table : Table) : Ascending table.contents := table.rows.ascending

omit [StdHash Int64] in
/-- A row that passes the checks of `insert` may be stored under the id they return. -/
theorem stored_of_checkRow {id : Int64} (checks : checkRow schema row = .ok id) :
    Stored schema id row := by
  simp only [checkRow] at checks
  split at checks
  · cases checks
  · rename_i same
    split at checks
    · cases checks
    · rename_i complete
      refine ⟨Schema.ext (not_not.mp same), ?_, Row.getInt_eq_ok checks⟩
      simpa [Schema.validate] using complete

omit [StdHash Int64] in
theorem Stored.getInt {id : Int64} (stored : Stored schema id row) :
    row.getInt idColumn = .ok id := by
  obtain ⟨definition, found, typed⟩ := Row.type_of_cell stored.filed
  have there : row.has idColumn = true := by
    rw [Row.has, stored.filed]
    rfl
  obtain ⟨number, reads, cell⟩ := Row.getInt_of_cell found typed.symm there
  cases stored.filed.symm.trans cell
  exact reads

omit [StdHash Int64] in
/-- Every column of a stored row is set, to an integer in `INT` columns and to a text in
`TEXT` columns. -/
theorem Stored.cell {id : Int64} (stored : Stored schema id row) {column : Column}
    (there : column ∈ schema.columns) :
    ∃ value, row.cell column.name = some value ∧ value.type = column.type := by
  obtain ⟨value, held⟩ := Option.isSome_iff_exists.mp (stored.complete column there)
  obtain ⟨definition, found, typed⟩ := Row.type_of_cell held
  have same : definition = column := by
    apply List.inj_on_of_nodup_map schema.distinct _ there
    · simpa using List.find?_some found
    · rw [← stored.schema_eq]
      exact List.mem_of_find?_eq_some found
  exact ⟨value, held, same ▸ typed⟩

theorem create_spec {cacheCapacity : Nat} (keyed : hasPrimaryKey schema = true)
    (positive : 0 < cacheCapacity) :
    ∃ table, create schema cacheCapacity = .ok table ∧ table.Valid ∧ table.schema = schema ∧
      table.contents = [] := by
  obtain ⟨cache, creates, empty⟩ := LRUCache.Sound.create_spec (K := Int64) (V := Row) positive
  refine ⟨⟨schema, .create (by decide), cache⟩, ?_, ⟨keyed, ?_, ?_⟩, rfl, rfl⟩
  · simp only [create, creates, bind, Except.bind, keyed, if_true]
    rfl
  · simp [contents]
  · simp [empty]

theorem create_eq_ok {cacheCapacity : Nat} (creates : create schema cacheCapacity = .ok table) :
    hasPrimaryKey schema = true ∧ 0 < cacheCapacity := by
  have positive : 0 < cacheCapacity := by
    apply Nat.pos_of_ne_zero
    rintro rfl
    cases creates
  obtain ⟨cache, fresh, _⟩ := LRUCache.Sound.create_spec (K := Int64) (V := Row) positive
  simp only [create, fresh, bind, Except.bind] at creates
  split at creates
  · exact ⟨‹_›, positive⟩
  · cases creates

theorem create_of_toOption {cacheCapacity : Nat}
    (creates : (create schema cacheCapacity).toOption = some table) :
    create schema cacheCapacity = .ok table := by
  cases made : create schema cacheCapacity with
  | error e =>
    rw [made] at creates
    cases creates
  | ok table' =>
    rw [made] at creates
    cases creates
    rfl

/-! ### Point operations -/

theorem insert_of_error {e : Exn} (fails : checkRow table.schema row = .error e) :
    table.insert row = (.error e, table) := by
  simp only [insert, fails]

theorem insert_of_ok {id : Int64} (checks : checkRow table.schema row = .ok id) :
    (table.insert row).1 = .ok (decide (id ∉ keys table.contents)) ∧
      (table.insert row).2.contents = BTree.inserted id row table.contents := by
  constructor
  · simp only [insert, checks, BTree.Sound.insert_flag]
    rfl
  · simp only [insert, checks, contents, BTree.Sound.contents_insert]

omit [StdHash Int64] in
theorem mem_inserted {id : Int64} {l : List (Int64 × Row)} {entry : Int64 × Row}
    (there : entry ∈ BTree.inserted id row l) : entry = (id, row) ∨ entry ∈ l := by
  simp only [BTree.inserted] at there
  split at there
  · exact .inr there
  · exact mem_insertAscending.mp there

omit [StdHash Int64] in
theorem mem_inserted_of_mem {id : Int64} {l : List (Int64 × Row)} {entry : Int64 × Row}
    (there : entry ∈ l) : entry ∈ BTree.inserted id row l := by
  simp only [BTree.inserted]
  split
  · exact there
  · exact mem_insertAscending.mpr (.inr there)

theorem Valid.insert (valid : table.Valid) (row : Row) : (table.insert row).2.Valid := by
  cases checks : checkRow table.schema row with
  | error e =>
    rw [insert_of_error checks]
    exact valid
  | ok id =>
    have schema_eq : (table.insert row).2.schema = table.schema := by simp only [Table.insert, checks]
    have cache_eq : (table.insert row).2.cache = table.cache := by simp only [Table.insert, checks]
    have contents_eq := (insert_of_ok checks).2
    constructor
    · rw [schema_eq]
      exact valid.keyed
    · intro entry there
      rw [schema_eq]
      rw [contents_eq] at there
      rcases mem_inserted there with rfl | there
      · exact stored_of_checkRow checks
      · exact valid.stored entry there
    · intro entry there
      rw [cache_eq] at there
      rw [contents_eq]
      exact mem_inserted_of_mem (valid.coherent entry there)

/-- A lookup returns the stored row, from wherever it reads it. -/
theorem Valid.findById (valid : table.Valid) (id : Int64) :
    (table.findById id).1 = find id table.contents ∧ (table.findById id).2.Valid ∧
      (table.findById id).2.schema = table.schema ∧
      (table.findById id).2.contents = table.contents := by
  have fromCache : ∀ entry ∈ (table.cache.get id).1.contents, entry ∈ table.contents :=
    fun entry there => valid.coherent entry (table.cache.mem_contents_get id there)
  simp only [Table.findById, LRUCache.Sound.get_answer]
  cases hit : find id table.cache.contents with
  | some row =>
    have held := find_of_mem table.ascending_contents.nodup (valid.coherent _ (mem_of_find hit))
    exact ⟨held.symm, ⟨valid.keyed, valid.stored, fromCache⟩, rfl, rfl⟩
  | none =>
    rw [BTree.Sound.search_eq, ← contents]
    cases found : find id table.contents with
    | none => exact ⟨rfl, ⟨valid.keyed, valid.stored, fromCache⟩, rfl, rfl⟩
    | some row =>
      refine ⟨rfl, ⟨valid.keyed, valid.stored, ?_⟩, rfl, rfl⟩
      intro entry there
      rcases LRUCache.Sound.mem_contents_put _ id row there with rfl | there
      · exact mem_of_find found
      · exact fromCache entry there

theorem Valid.removeRow (valid : table.Valid) (id : Int64) : (table.removeRow id).Valid := by
  have contents_eq : (table.removeRow id).contents = without id table.contents :=
    BTree.Sound.contents_remove _ _
  constructor
  · exact valid.keyed
  · intro entry there
    rw [contents_eq] at there
    exact valid.stored entry (List.mem_of_mem_filter there)
  · intro entry there
    simp only [Table.removeRow, LRUCache.Sound.contents_erase, without, List.mem_filter] at there
    rw [contents_eq, without, List.mem_filter]
    exact ⟨valid.coherent entry there.1, there.2⟩

theorem deleteById_spec (table : Table) (id : Int64) :
    (table.deleteById id).1 = decide (id ∈ keys table.contents) ∧
      (table.deleteById id).2.schema = table.schema ∧
      (table.deleteById id).2.contents = without id table.contents := by
  refine ⟨?_, rfl, ?_⟩
  · simp only [deleteById, BTree.Sound.remove_flag]
    rfl
  · simp only [deleteById, contents, BTree.Sound.contents_remove]

theorem Valid.deleteById (valid : table.Valid) (id : Int64) : (table.deleteById id).2.Valid := by
  by_cases present : id ∈ keys table.contents
  · have same : (table.deleteById id).2 = table.removeRow id := by
      rw [contents] at present
      simp [Table.deleteById, Table.removeRow, present]
    rw [same]
    exact valid.removeRow id
  · obtain ⟨_, _, contents_eq⟩ := deleteById_spec table id
    rw [without_eq_self present] at contents_eq
    have cache_eq : (table.deleteById id).2.cache = table.cache := by
      rw [contents] at present
      simp [Table.deleteById, present]
    constructor
    · exact valid.keyed
    · rw [contents_eq]
      exact valid.stored
    · rw [contents_eq, cache_eq]
      exact valid.coherent

/-! ### Scans -/

theorem matching_eq (table : Table) (predicate : Predicate) :
    table.matching predicate = Scan.scan (fun entry => predicate entry.2) table.contents := by
  rw [matching, BTree.Sound.forEachInOrder_eq, contents]

/-- Whether a scan with this predicate keeps an entry. -/
def keeps (predicate : Predicate) (entry : Int64 × Row) : Bool := Scan.holds predicate entry.2

/-- A scan that returns has kept the matching entries of the whole table. -/
theorem matching_eq_ok {predicate : Predicate} {found : List (Int64 × Row)}
    (scans : table.matching predicate = .ok found) :
    found = table.contents.filter (keeps predicate) := by
  rw [matching_eq, Scan.scan_eq_ok] at scans
  exact scans.2

/-- A predicate that throws on no stored row. -/
theorem matching_of_total {predicate : Predicate} (test : Row → Bool)
    (total : ∀ entry ∈ table.contents, predicate entry.2 = .ok (test entry.2)) :
    table.matching predicate = .ok (table.contents.filter fun entry => test entry.2) := by
  rw [matching_eq, Scan.scan_of_total fun entry there => ⟨_, total entry there⟩]
  refine congrArg Except.ok (List.filter_congr ?_)
  intro entry there
  simp only [Scan.holds, total entry there]

/-- The ids a filter keeps are exactly those of the entries it keeps. -/
theorem mem_ids_iff {entry : Int64 × Row} (there : entry ∈ table.contents)
    (f : Int64 × Row → Bool) :
    entry.1 ∈ (table.contents.filter f).map Prod.fst ↔ f entry = true := by
  constructor
  · intro listed
    obtain ⟨⟨id, row⟩, kept, same⟩ := List.mem_map.mp listed
    obtain ⟨there', holds⟩ := List.mem_filter.mp kept
    obtain ⟨id', row'⟩ := entry
    simp only at same
    subst same
    obtain rfl := value_unique table.ascending_contents.nodup there there'
    exact holds
  · intro holds
    exact List.mem_map_of_mem (List.mem_filter.mpr ⟨there, holds⟩)

theorem contents_foldl_removeRow (ids : List Int64) (table : Table) :
    (ids.foldl removeRow table).schema = table.schema ∧
      (ids.foldl removeRow table).contents = table.contents.filter fun entry => entry.1 ∉ ids := by
  induction ids generalizing table with
  | nil => simp
  | cons id ids ih =>
    obtain ⟨schema_eq, contents_eq⟩ := ih (table.removeRow id)
    have removed : (table.removeRow id).contents = without id table.contents :=
      BTree.Sound.contents_remove _ _
    refine ⟨schema_eq, ?_⟩
    rw [List.foldl_cons, contents_eq, removed, without, List.filter_filter]
    apply List.filter_congr
    intro entry _
    simp [Bool.and_comm]

theorem Valid.foldl_removeRow (valid : table.Valid) (ids : List Int64) :
    (ids.foldl Table.removeRow table).Valid := by
  induction ids generalizing table with
  | nil => exact valid
  | cons id ids ih => exact ih (valid.removeRow id)

theorem deleteWhere_of_error {predicate : Predicate} {e : Exn}
    (fails : table.matching predicate = .error e) :
    table.deleteWhere predicate = (.error e, table) := by
  simp only [deleteWhere, fails]

theorem deleteWhere_of_ok {predicate : Predicate} {doomed : List (Int64 × Row)}
    (scans : table.matching predicate = .ok doomed) :
    (table.deleteWhere predicate).1 = .ok doomed.length ∧
      (table.deleteWhere predicate).2.schema = table.schema ∧
      (table.deleteWhere predicate).2.contents =
        table.contents.filter fun entry => !keeps predicate entry := by
  obtain ⟨schema_eq, contents_eq⟩ := contents_foldl_removeRow (doomed.map Prod.fst) table
  have computes : table.deleteWhere predicate =
      (.ok doomed.length, (doomed.map Prod.fst).foldl removeRow table) := by
    simp only [deleteWhere, scans]
  rw [computes]
  refine ⟨rfl, schema_eq, ?_⟩
  rw [contents_eq, matching_eq_ok scans]
  apply List.filter_congr
  intro entry there
  simp only [mem_ids_iff there, decide_not, Bool.decide_eq_true]

theorem Valid.deleteWhere (valid : table.Valid) (predicate : Predicate) :
    (table.deleteWhere predicate).2.Valid := by
  cases scans : table.matching predicate with
  | error e =>
    rw [deleteWhere_of_error scans]
    exact valid
  | ok doomed =>
    simp only [Table.deleteWhere, scans]
    exact valid.foldl_removeRow _

/-! ### Updates -/

omit [StdHash Int64] in
theorem checkAssignment_eq_ok {column value : Str}
    (checks : checkAssignment schema column value = .ok ()) :
    column ≠ idColumn ∧ ∃ definition, schema.findColumn column = some definition ∧
      isValidValueFor definition.type value = true := by
  simp only [checkAssignment] at checks
  split at checks
  · cases checks
  · rename_i other
    split at checks
    · cases checks
    · rename_i definition found
      split at checks
      · rename_i valid
        exact ⟨other, definition, found, valid⟩
      · cases checks

omit [StdHash Int64] in
theorem checkAssignments_cons {column value : Str} {rest : Assignments}
    (checks : checkAssignments schema ((column, value) :: rest) = .ok ()) :
    checkAssignment schema column value = .ok () ∧ checkAssignments schema rest = .ok () := by
  simp only [checkAssignments, bind, Except.bind] at checks
  split at checks
  · cases checks
  · rename_i first
    exact ⟨first, checks⟩

omit [StdHash Int64] in
/-- A checked assignment to a stored row succeeds and leaves a row that may be stored. -/
theorem Stored.set {id : Int64} {column value : Str} (stored : Stored schema id row)
    (checks : checkAssignment schema column value = .ok ()) :
    row.set column value = .ok (row.assign column value) ∧
      Stored schema id (row.assign column value) := by
  obtain ⟨other, definition, found, valid⟩ := checkAssignment_eq_ok checks
  rw [← stored.schema_eq] at found
  obtain ⟨row', sets⟩ := Row.set_eq_ok_iff.mpr ⟨definition, found, valid⟩
  obtain ⟨schema_eq, here, elsewhere⟩ := Row.set_spec sets
  have assigned : row.assign column value = row' := by simp only [Row.assign, sets]
  rw [assigned]
  refine ⟨sets, schema_eq.trans stored.schema_eq, ?_, ?_⟩
  · intro definition' there
    by_cases same : definition'.name = column
    · rw [Row.has, same, here definition found]
      rfl
    · rw [Row.has, elsewhere _ same]
      exact stored.complete definition' there
  · rw [elsewhere _ (Ne.symm other)]
    exact stored.filed

omit [StdHash Int64] in
theorem Stored.assignAll {id : Int64} {assignments : Assignments}
    (stored : Stored schema id row) (checks : checkAssignments schema assignments = .ok ()) :
    Stored schema id (row.assignAll assignments) := by
  induction assignments generalizing row with
  | nil => exact stored
  | cons assignment rest ih =>
    obtain ⟨first, others⟩ := checkAssignments_cons checks
    exact ih (stored.set first).2 others

omit [StdHash Int64] in
/-- The loop over the assignments of one row: it does not throw, and the row under the
id is the old one with all of them applied. -/
theorem assignRow_spec {id : Int64} {assignments : Assignments}
    (checks : checkAssignments schema assignments = .ok ())
    {rows : BTree.Sound defaultDegree Int64 Row} (found : find id rows.contents = some row)
    (stored : Stored schema id row) :
    ∃ rows', assignRow id assignments rows = some (.ok (), rows') ∧
      rows'.contents = assign id (row.assignAll assignments) rows.contents := by
  induction assignments generalizing row rows with
  | nil =>
    refine ⟨rows, rfl, ?_⟩
    rw [assign_eq_map rows.ascending.nodup found (Row.assignAll [])]
    have unchanged : ∀ e ∈ rows.contents,
        (if e.1 = id then (e.1, Row.assignAll [] e.2) else e) = e := by
      intro e _
      split <;> rfl
    exact ((List.map_congr_left unchanged).trans (List.map_id' _)).symm
  | cons assignment rest ih =>
    obtain ⟨column, value⟩ := assignment
    obtain ⟨first, others⟩ := checkAssignments_cons checks
    obtain ⟨sets, stored'⟩ := stored.set first
    have present : id ∈ keys rows.contents := find_isSome.mp (by rw [found]; rfl)
    obtain ⟨rows₁, stores, contents₁⟩ := rows.store_spec present (row.assign column value)
    have found₁ : find id rows₁.contents = some (row.assign column value) := by
      rw [contents₁, find_assign_self _ present]
    obtain ⟨rows₂, assigns, contents₂⟩ := ih others found₁ stored'
    refine ⟨rows₂, ?_, ?_⟩
    · simp only [assignRow, BTree.Sound.search_eq, found, sets, stores, assigns,
        Option.bind_eq_bind, Option.bind_some]
    · rw [contents₂, contents₁, assign_assign]
      rfl

/-- An entry after the update loop over some ids. -/
def revise (assignments : Assignments) (ids : List Int64) (entry : Int64 × Row) : Int64 × Row :=
  if entry.1 ∈ ids then (entry.1, entry.2.assignAll assignments) else entry

omit [StdHash Int64] in
theorem assignRows_spec {assignments : Assignments}
    (checks : checkAssignments schema assignments = .ok ()) (ids : List Int64)
    {rows : BTree.Sound defaultDegree Int64 Row} (distinct : ids.Nodup)
    (present : ∀ id ∈ ids, id ∈ keys rows.contents)
    (stored : ∀ entry ∈ rows.contents, Stored schema entry.1 entry.2) :
    ∃ rows', assignRows assignments ids rows = some (.ok (), rows') ∧
      rows'.contents = rows.contents.map (revise assignments ids) := by
  induction ids generalizing rows with
  | nil =>
    have unchanged : ∀ entry ∈ rows.contents, revise assignments [] entry = entry :=
      fun entry _ => if_neg List.not_mem_nil
    exact ⟨rows, rfl, ((List.map_congr_left unchanged).trans (List.map_id' _)).symm⟩
  | cons id ids ih =>
    obtain ⟨fresh, distinct⟩ := List.nodup_cons.mp distinct
    obtain ⟨row, found⟩ := Option.isSome_iff_exists.mp (find_isSome.mpr (present id (by simp)))
    obtain ⟨rows₁, assigns, contents₁⟩ :=
      assignRow_spec checks found (stored _ (mem_of_find found))
    have mapped : rows₁.contents = rows.contents.map (revise assignments [id]) := by
      rw [contents₁, assign_eq_map rows.ascending.nodup found]
      apply List.map_congr_left
      intro entry _
      simp only [revise, List.mem_singleton]
    have sameKeys : keys rows₁.contents = keys rows.contents := by rw [contents₁, keys_assign]
    obtain ⟨rows₂, others, contents₂⟩ := ih distinct
      (fun id' there => by rw [sameKeys]; exact present id' (by simp [there]))
      (fun entry there => by
        rw [mapped] at there
        obtain ⟨entry', there', rfl⟩ := List.mem_map.mp there
        rw [revise]
        split
        · exact (stored entry' there').assignAll checks
        · exact stored entry' there')
    refine ⟨rows₂, ?_, ?_⟩
    · simp only [assignRows, assigns, others, Option.bind_eq_bind, Option.bind_some]
    · rw [contents₂, mapped, List.map_map]
      apply List.map_congr_left
      intro entry _
      -- the row of `id` is revised once: `id` does not occur among the later ids
      by_cases here : entry.1 = id
      · simp [revise, here, fresh]
      · simp [revise, here]

theorem contents_foldl_erase (ids : List Int64) (cache : LRUCache.Sound Int64 Row) :
    (ids.foldl (fun cache id => (cache.erase id).1) cache).contents =
      cache.contents.filter fun entry => entry.1 ∉ ids := by
  induction ids generalizing cache with
  | nil => simp
  | cons id ids ih =>
    rw [List.foldl_cons, ih, LRUCache.Sound.contents_erase, without, List.filter_filter]
    apply List.filter_congr
    intro entry _
    simp [Bool.and_comm]

theorem mem_matched_iff {predicate : Predicate} {matched : List (Int64 × Row)}
    (scans : table.matching predicate = .ok matched) {entry : Int64 × Row}
    (there : entry ∈ table.contents) :
    entry.1 ∈ matched.map Prod.fst ↔ keeps predicate entry = true := by
  rw [matching_eq_ok scans]
  exact mem_ids_iff there _

/-- The loop over the matched rows: no assignment throws. -/
theorem Valid.assignRows (valid : table.Valid) {predicate : Predicate}
    {assignments : Assignments} (checks : checkAssignments table.schema assignments = .ok ())
    {matched : List (Int64 × Row)} (scans : table.matching predicate = .ok matched) :
    ∃ rows, Table.assignRows assignments (matched.map Prod.fst) table.rows =
        some (.ok (), rows) ∧
      rows.contents = table.contents.map fun entry =>
        if keeps predicate entry then (entry.1, entry.2.assignAll assignments) else entry := by
  have sublist : (matched.map Prod.fst).Sublist (keys table.contents) := by
    rw [matching_eq_ok scans]
    exact List.filter_sublist.map Prod.fst
  obtain ⟨rows, assigns, contents_eq⟩ := assignRows_spec checks (matched.map Prod.fst)
    (table.ascending_contents.nodup.sublist sublist) (fun id there => sublist.subset there)
    valid.stored
  refine ⟨rows, assigns, contents_eq.trans (List.map_congr_left ?_)⟩
  intro entry there
  simp only [revise, mem_matched_iff scans there]

/-- `updateWhere` on matched rows: it throws nothing once the assignments are checked,
and rewrites exactly the rows that matched before the first write. -/
theorem Valid.updateWhere (valid : table.Valid) {predicate : Predicate}
    {assignments : Assignments} (checks : checkAssignments table.schema assignments = .ok ())
    {matched : List (Int64 × Row)} (scans : table.matching predicate = .ok matched) :
    ∃ table', table.updateWhere predicate assignments = some (.ok matched.length, table') ∧
      table'.Valid ∧ table'.schema = table.schema ∧
      table'.contents = table.contents.map fun entry =>
        if keeps predicate entry then (entry.1, entry.2.assignAll assignments) else entry := by
  obtain ⟨rows, assigns, revised⟩ := valid.assignRows checks scans
  refine ⟨{ table with
      rows, cache := (matched.map Prod.fst).foldl (fun cache id => (cache.erase id).1) table.cache },
    ?_, ⟨valid.keyed, ?_, ?_⟩, rfl, revised⟩
  · simp only [Table.updateWhere, checks, scans, assigns, Option.bind_eq_bind, Option.bind_some]
    rfl
  · intro entry there
    simp only [contents, revised] at there
    obtain ⟨entry', there', rfl⟩ := List.mem_map.mp there
    split
    · exact (valid.stored entry' there').assignAll checks
    · exact valid.stored entry' there'
  · intro entry there
    simp only [contents_foldl_erase, List.mem_filter, decide_eq_true_eq] at there
    have held := valid.coherent entry there.1
    simp only [contents, revised]
    refine List.mem_map.mpr ⟨entry, held, if_neg ?_⟩
    rw [← mem_matched_iff scans held]
    exact there.2

end CppDB.Table
