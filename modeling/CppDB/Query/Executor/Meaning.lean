import CppDB.Core.Table.Refinement
import CppDB.Query.Executor.Fetch

/-! What a `WHERE` list means for a row, and that the compiled predicates and the path
through the primary key compute it on every row a table can hold. -/
namespace CppDB

/-- The comparison an operator names, on any linear order. -/
def CompareOp.relates {α : Type} [LinearOrder α] (op : CompareOp) (a b : α) : Bool :=
  match op with
  | .eq => a = b
  | .ne => a ≠ b
  | .lt => a < b
  | .le => a ≤ b
  | .gt => b < a
  | .ge => b ≤ a

namespace WhereClause

/-- The column exists and the literal is one of its type. -/
def WellFormed (schema : Schema) (clause : WhereClause) : Prop :=
  ∃ column, schema.findColumn clause.column = some column ∧
    isValidValueFor column.type clause.value = true

/-- The cell compares with the literal as the operator says: numbers by value, texts
lexicographically. -/
def holds (clause : WhereClause) (row : Row) : Bool :=
  match row.cell clause.column with
  | some (.int number) => clause.op.relates number (parseInt clause.value)
  | some (.text content) => clause.op.relates content clause.value
  | none => false

end WhereClause

namespace Executor
open Assoc

/-- The sign of a comparison on a linear order. -/
def sign {α : Type} [LinearOrder α] (a b : α) : Int := if a < b then -1 else if b < a then 1 else 0

theorem applyOp_sign {α : Type} [LinearOrder α] (op : CompareOp) (a b : α) :
    applyOp op (sign a b) = op.relates a b := by
  rcases lt_trichotomy a b with less | rfl | more
  · have s : sign a b = -1 := if_pos less
    cases op <;> simp [applyOp, s, CompareOp.relates, less, less.le, less.ne, not_lt_of_gt less,
      not_le_of_gt less]
  · have s : sign a a = 0 := by simp [sign]
    cases op <;> simp [applyOp, s, CompareOp.relates]
  · have s : sign a b = 1 := by simp [sign, more, not_lt_of_gt more]
    cases op <;> simp [applyOp, s, CompareOp.relates, more, more.le, more.ne', not_lt_of_gt more,
      not_le_of_gt more]

theorem compareText_eq_sign (s t : Str) : compareText s t = sign s t := by
  induction s generalizing t with
  | nil => cases t <;> simp [compareText, sign]
  | cons a s ih =>
    cases t with
    | nil => simp [compareText, sign]
    | cons b t =>
      rcases lt_trichotomy a b with less | rfl | more
      · simp [compareText, sign, less, List.cons_lt_cons_iff]
      · have below : a :: s < a :: t ↔ s < t := by simp
        have above : a :: t < a :: s ↔ t < s := by simp
        simp only [compareText, lt_irrefl, if_false, ih, sign, below, above]
        split_ifs <;> rfl
      · simp [compareText, sign, more, not_lt_of_gt more, List.cons_lt_cons_iff, more.ne']

theorem sign_compareText (s t : Str) :
    (if compareText s t < 0 then -1 else if 0 < compareText s t then 1 else 0 : Int) =
      sign s t := by
  rw [compareText_eq_sign]
  unfold sign
  split
  · simp
  · split <;> simp

variable {schema : Schema} {clause : WhereClause} {conditions : WhereList} {id : Int64} {row : Row}

/-! ### Compiled predicates -/

theorem makePredicate_of_not_wellFormed (bad : ¬ clause.WellFormed schema) :
    ∃ e, makePredicate schema clause = .error e := by
  simp only [makePredicate]
  split
  · exact ⟨_, rfl⟩
  · rename_i column found
    have invalid : isValidValueFor column.type clause.value = false := by
      rw [← Bool.not_eq_true]
      exact fun valid => bad ⟨column, found, valid⟩
    simp [invalid]

/-- On stored rows the compiled predicate does not throw and says what the clause says. -/
theorem makePredicate_spec (good : clause.WellFormed schema) :
    ∃ predicate, makePredicate schema clause = .ok predicate ∧
      ∀ id row, Table.Stored schema id row → predicate row = .ok (clause.holds row) := by
  obtain ⟨column, found, valid⟩ := good
  have has : ∀ {id row}, Table.Stored schema id row → row.has clause.column = true := by
    intro id row stored
    have there := List.mem_of_find?_eq_some found
    have name : column.name = clause.column := by simpa using List.find?_some found
    exact name ▸ stored.complete column there
  simp only [makePredicate, found, valid, Bool.not_true, Bool.false_eq_true, if_false]
  cases type : column.type with
  | int =>
    refine ⟨_, rfl, ?_⟩
    intro id row stored
    rw [← stored.schema_eq] at found
    obtain ⟨number, reads, cell⟩ := Row.getInt_of_cell found type (has stored)
    simp only [reads, WhereClause.holds, cell, ← applyOp_sign]
    rfl
  | text =>
    refine ⟨_, rfl, ?_⟩
    intro id row stored
    obtain ⟨value, cell⟩ := Option.isSome_iff_exists.mp (has stored)
    obtain ⟨column', found', typed⟩ := Row.type_of_cell cell
    rw [stored.schema_eq] at found'
    cases found.symm.trans found'
    rw [type] at typed
    cases value with
    | int number => cases typed
    | text content =>
      have reads : row.get clause.column = .ok content := by
        simp only [Row.get, Row.value, cell, Except.map, Value.toString]
      simp only [reads, WhereClause.holds, cell, ← applyOp_sign, ← sign_compareText]
      rfl

theorem makeConjunction_of_not_wellFormed (bad : ∃ clause ∈ conditions, ¬ clause.WellFormed schema) :
    ∃ e, makeConjunction schema conditions = .error e := by
  suffices ∃ e, makePredicates schema conditions = .error e by
    obtain ⟨e, fails⟩ := this
    exact ⟨e, by rw [makeConjunction, fails]; rfl⟩
  induction conditions with
  | nil => simp at bad
  | cons clause rest ih =>
    by_cases good : clause.WellFormed schema
    · obtain ⟨predicate, compiles, _⟩ := makePredicate_spec good
      obtain ⟨e, fails⟩ := ih (by
        obtain ⟨clause', there, bad⟩ := bad
        rcases List.mem_cons.mp there with rfl | there
        · exact absurd good bad
        · exact ⟨clause', there, bad⟩)
      exact ⟨e, by simp only [makePredicates, compiles, fails]; rfl⟩
    · obtain ⟨e, fails⟩ := makePredicate_of_not_wellFormed good
      exact ⟨e, by simp only [makePredicates, fails]; rfl⟩

theorem wellFormed_of_makeConjunction {predicate : Predicate}
    (compiles : makeConjunction schema conditions = .ok predicate) :
    ∀ clause ∈ conditions, clause.WellFormed schema := by
  by_contra bad
  push Not at bad
  obtain ⟨e, fails⟩ := makeConjunction_of_not_wellFormed bad
  cases compiles.symm.trans fails

theorem makeConjunction_spec (good : ∀ clause ∈ conditions, clause.WellFormed schema) :
    ∃ predicate, makeConjunction schema conditions = .ok predicate ∧
      ∀ id row, Table.Stored schema id row →
        predicate row = .ok (conditions.all fun clause => clause.holds row) := by
  suffices ∃ predicates, makePredicates schema conditions = .ok predicates ∧
      ∀ id row, Table.Stored schema id row →
        conjunction predicates row = .ok (conditions.all fun clause => clause.holds row) by
    obtain ⟨predicates, compiles, holds⟩ := this
    exact ⟨conjunction predicates, by rw [makeConjunction, compiles]; rfl, holds⟩
  induction conditions with
  | nil => exact ⟨[], rfl, fun _ _ _ => rfl⟩
  | cons clause rest ih =>
    obtain ⟨predicate, compiles, holds⟩ := makePredicate_spec (good clause (by simp))
    obtain ⟨predicates, compiles', holds'⟩ := ih fun clause' there => good clause' (by simp [there])
    refine ⟨predicate :: predicates, by simp only [makePredicates, compiles, compiles']; rfl, ?_⟩
    intro id row stored
    simp only [conjunction, holds id row stored, List.all_cons, bind, Except.bind]
    cases clause.holds row with
    | true => simpa using holds' id row stored
    | false => rfl

/-! ### The path through the primary key -/

theorem splitIndexable_eq_some {indexable : WhereClause} {rest : WhereList}
    (splits : splitIndexable conditions = some (indexable, rest)) :
    isIndexableIdClause indexable = true ∧ conditions.Perm (indexable :: rest) := by
  induction conditions generalizing rest with
  | nil => cases splits
  | cons clause conditions ih =>
    simp only [splitIndexable] at splits
    split at splits
    · rename_i here
      obtain ⟨rfl, rfl⟩ : clause = indexable ∧ conditions = rest := by simpa using splits
      exact ⟨here, .refl _⟩
    · obtain ⟨⟨indexable', others⟩, later, pair⟩ := Option.map_eq_some_iff.mp splits
      obtain ⟨rfl, rfl⟩ := Prod.mk.inj pair
      obtain ⟨indexes, perm⟩ := ih later
      exact ⟨indexes, (perm.cons clause).trans (.swap _ _ _)⟩

theorem le_pred_iff {k v : Int64} (above : v ≠ Int64.minValue) : k ≤ v - 1 ↔ k < v := by
  have least := Int64.le_toInt v
  have most := Int64.toInt_lt v
  have strict : v.toInt ≠ -2 ^ 63 := by
    intro same
    apply above
    rw [← Int64.toInt_inj, same]
    rfl
  have pred : (v - 1).toInt = v.toInt - 1 := by
    rw [Int64.toInt_sub, Int.bmod_eq_of_le]
    all_goals
      have one : (1 : Int64).toInt = 1 := rfl
      omega
  rw [Int64.le_iff_toInt_le, Int64.lt_iff_toInt_lt, pred]
  omega

theorem succ_le_iff {k v : Int64} (below : v ≠ Int64.maxValue) : v + 1 ≤ k ↔ v < k := by
  have least := Int64.le_toInt v
  have most := Int64.toInt_lt v
  have strict : v.toInt ≠ 2 ^ 63 - 1 := by
    intro same
    apply below
    rw [← Int64.toInt_inj, same]
    rfl
  have succ : (v + 1).toInt = v.toInt + 1 := by
    rw [Int64.toInt_add, Int.bmod_eq_of_le]
    all_goals
      have one : (1 : Int64).toInt = 1 := rfl
      omega
  rw [Int64.le_iff_toInt_le, Int64.lt_iff_toInt_lt, succ]
  omega

/-- An id clause on a stored row compares the key it is filed under. -/
theorem holds_of_stored (stored : Table.Stored schema id row)
    (onId : clause.column = Table.idColumn) :
    clause.holds row = clause.op.relates id (parseInt clause.value) := by
  simp only [WhereClause.holds, onId, stored.filed]

section Tables
variable [StdHash Int64] {table : Table}

/-- The rows a test on the key keeps. -/
def rowsByKey (table : Table) (test : Int64 → Bool) : List Row :=
  (table.contents.filter fun entry => test entry.1).map Prod.snd

theorem toList_find (table : Table) (v : Int64) :
    (find v table.contents).toList = rowsByKey table fun k => k = v := by
  have distinct := table.ascending_contents.nodup
  rw [rowsByKey]
  generalize table.contents = entries at distinct ⊢
  induction entries with
  | nil => rfl
  | cons entry rest ih =>
    rw [keys_cons, List.nodup_cons] at distinct
    by_cases same : entry.1 = v
    · have none : rest.filter (fun entry => decide (entry.1 = v)) = [] := by
        rw [List.filter_eq_nil_iff]
        intro other there
        have apart : other.1 ≠ v := fun equal => distinct.1 (by
          rw [same, ← equal]
          exact mem_keys_of_mem there)
        simpa using apart
      simp [find, same, none]
    · simp [find, same, ih distinct.2]

theorem selectIdRange_eq (table : Table) (lo hi : Int64) :
    table.selectIdRange lo hi = rowsByKey table fun k => lo ≤ k ∧ k ≤ hi := by
  rw [Table.selectIdRange, BTree.Sound.forEachRange_eq]
  rfl

theorem rowsByKey_congr {f g : Int64 → Bool} (same : ∀ k, f k = g k) :
    rowsByKey table f = rowsByKey table g := by
  rw [funext same]

/-- Each operator reads exactly the keys that relate to the literal, also at the two
ends of the integer range. -/
theorem rowsByIdClause_spec (valid : table.Valid) (indexable : isIndexableIdClause clause = true)
    (literal : isValidValueFor .int clause.value = true) :
    (rowsByIdClause table clause).1 =
        .ok (rowsByKey table fun k => clause.op.relates k (parseInt clause.value)) ∧
      (rowsByIdClause table clause).2.Valid ∧
      (rowsByIdClause table clause).2.schema = table.schema ∧
      (rowsByIdClause table clause).2.contents = table.contents := by
  have least := fun k : Int64 => Int64.minValue_le k
  have most := fun k : Int64 => Int64.le_maxValue k
  simp only [rowsByIdClause, literal, Bool.not_true, Bool.false_eq_true, if_false]
  cases op : clause.op with
  | eq =>
    obtain ⟨found, valid', schema_eq, contents_eq⟩ := valid.findById (parseInt clause.value)
    refine ⟨?_, valid', schema_eq, contents_eq⟩
    simp only [found, toList_find, CompareOp.relates]
  | ne => simp [isIndexableIdClause, op] at indexable
  | lt =>
    refine ⟨congrArg Except.ok ?_, valid, rfl, rfl⟩
    by_cases atMin : parseInt clause.value = Int64.minValue
    · have none : ∀ k, CompareOp.lt.relates k (parseInt clause.value) = false := by
        intro k
        simp only [CompareOp.relates, atMin, decide_eq_false_iff_not, not_lt]
        exact least k
      rw [if_pos atMin, rowsByKey_congr none]
      simp [rowsByKey]
    · rw [if_neg atMin, selectIdRange_eq]
      apply rowsByKey_congr
      intro k
      simp [CompareOp.relates, le_pred_iff atMin]
  | le =>
    refine ⟨congrArg Except.ok ?_, valid, rfl, rfl⟩
    rw [selectIdRange_eq]
    apply rowsByKey_congr
    intro k
    simp [CompareOp.relates]
  | gt =>
    refine ⟨congrArg Except.ok ?_, valid, rfl, rfl⟩
    by_cases atMax : parseInt clause.value = Int64.maxValue
    · have none : ∀ k, CompareOp.gt.relates k (parseInt clause.value) = false := by
        intro k
        simp only [CompareOp.relates, atMax, decide_eq_false_iff_not, not_lt]
        exact most k
      rw [if_pos atMax, rowsByKey_congr none]
      simp [rowsByKey]
    · rw [if_neg atMax, selectIdRange_eq]
      apply rowsByKey_congr
      intro k
      simp [CompareOp.relates, succ_le_iff atMax]
  | ge =>
    refine ⟨congrArg Except.ok ?_, valid, rfl, rfl⟩
    rw [selectIdRange_eq]
    apply rowsByKey_congr
    intro k
    simp [CompareOp.relates]

/-! ### Fetching -/

/-- The full scan: all rows in ascending id order, those kept that satisfy every clause. -/
def selected (table : Table) (conditions : WhereList) : List Row :=
  (table.contents.filter fun entry => conditions.all fun clause => clause.holds entry.2).map Prod.snd

theorem wellFormed_of_indexable (valid : table.Valid)
    (indexable : isIndexableIdClause clause = true) :
    clause.WellFormed table.schema ↔ isValidValueFor .int clause.value = true := by
  have onId : clause.column = Table.idColumn := by
    simp only [isIndexableIdClause, Bool.and_eq_true, decide_eq_true_eq] at indexable
    exact indexable.1
  have keyed := valid.keyed
  simp only [Table.hasPrimaryKey] at keyed
  split at keyed
  · rename_i column found
    have type : column.type = .int := by simpa using keyed
    simp [WhereClause.WellFormed, onId, found, type]
  · cases keyed

theorem rowsByIdClause_of_invalid (literal : isValidValueFor .int clause.value = false) :
    rowsByIdClause table clause = (.error (wrongLiteral Table.idColumn .int clause.value), table) := by
  simp [rowsByIdClause, literal]

/-- A fetch leaves the stored rows alone, whatever it returns. -/
theorem fetchRows_state (valid : table.Valid) (conditions : WhereList) :
    (fetchRows table conditions).2.Valid ∧
      (fetchRows table conditions).2.schema = table.schema ∧
      (fetchRows table conditions).2.contents = table.contents := by
  simp only [fetchRows]
  split
  · exact ⟨valid, rfl, rfl⟩
  · split
    · split <;> exact ⟨valid, rfl, rfl⟩
    · rename_i indexable rest splits
      have indexes := (splitIndexable_eq_some splits).1
      have kept : (rowsByIdClause table indexable).2.Valid ∧
          (rowsByIdClause table indexable).2.schema = table.schema ∧
          (rowsByIdClause table indexable).2.contents = table.contents := by
        by_cases literal : isValidValueFor .int indexable.value = true
        · exact (rowsByIdClause_spec valid indexes literal).2
        · rw [rowsByIdClause_of_invalid (by simpa using literal)]
          exact ⟨valid, rfl, rfl⟩
      split
      · rename_i fails
        rwa [fails] at kept
      · rename_i reads
        rw [reads] at kept
        split
        · exact kept
        · split <;> exact kept

theorem fetchRows_of_not_wellFormed (valid : table.Valid)
    (bad : ∃ clause ∈ conditions, ¬ clause.WellFormed table.schema) :
    ∃ e, (fetchRows table conditions).1 = .error e := by
  have nonempty : conditions ≠ [] := by
    rintro rfl
    simp at bad
  rw [fetchRows, if_neg nonempty]
  cases splits : splitIndexable conditions with
  | none =>
    obtain ⟨e, fails⟩ := makeConjunction_of_not_wellFormed bad
    exact ⟨e, by simp only [fails]⟩
  | some parts =>
    obtain ⟨indexable, rest⟩ := parts
    obtain ⟨indexes, perm⟩ := splitIndexable_eq_some splits
    simp only
    by_cases literal : isValidValueFor .int indexable.value = true
    · -- the key clause is fine, so the bad one is among the rest
      have good := (wellFormed_of_indexable valid indexes).mpr literal
      obtain ⟨clause, there, malformed⟩ := bad
      have inRest : clause ∈ rest := by
        rcases List.mem_cons.mp (perm.mem_iff.mp there) with rfl | inRest
        · exact absurd good malformed
        · exact inRest
      obtain ⟨reads, _, schema_eq, _⟩ := rowsByIdClause_spec valid indexes literal
      rw [← schema_eq] at malformed
      obtain ⟨e, fails⟩ := makeConjunction_of_not_wellFormed ⟨clause, inRest, malformed⟩
      split
      · exact ⟨_, rfl⟩
      · rename_i candidates table' returns
        rw [returns] at fails
        rw [if_neg (List.ne_nil_of_mem inRest)]
        exact ⟨e, by simp only [fails]⟩
    · rw [rowsByIdClause_of_invalid (by simpa using literal)]
      exact ⟨_, rfl⟩

theorem fetchRows_of_wellFormed (valid : table.Valid)
    (good : ∀ clause ∈ conditions, clause.WellFormed table.schema) :
    (fetchRows table conditions).1 = .ok (selected table conditions) := by
  rw [fetchRows]
  split
  · rename_i none
    subst none
    have all : table.matching (fun _ => .ok true) = .ok (table.contents.filter fun _ => true) :=
      Table.matching_of_total (fun _ => true) fun _ _ => rfl
    rw [Table.selectAll, Table.selectWhere, all]
    rfl
  · cases splits : splitIndexable conditions with
    | none =>
      obtain ⟨predicate, compiles, agrees⟩ := makeConjunction_spec good
      simp only [compiles, Table.selectWhere]
      rw [Table.matching_of_total (fun row => conditions.all fun clause => clause.holds row)
        fun entry there => agrees entry.1 entry.2 (valid.stored entry there)]
      rfl
    | some parts =>
      obtain ⟨indexable, rest⟩ := parts
      obtain ⟨indexes, perm⟩ := splitIndexable_eq_some splits
      have wellFormed := good indexable (perm.mem_iff.mpr (by simp))
      have literal := (wellFormed_of_indexable valid indexes).mp wellFormed
      have onId : indexable.column = Table.idColumn := by
        simp only [isIndexableIdClause, Bool.and_eq_true, decide_eq_true_eq] at indexes
        exact indexes.1
      obtain ⟨reads, _, schema_eq, _⟩ := rowsByIdClause_spec valid indexes literal
      have candidates : rowsByKey table (fun k => indexable.op.relates k (parseInt indexable.value)) =
          (table.contents.filter fun entry => indexable.holds entry.2).map Prod.snd := by
        refine congrArg (List.map Prod.snd) (List.filter_congr ?_)
        intro entry there
        rw [holds_of_stored (valid.stored entry there) onId]
      rw [candidates] at reads
      have whole : ∀ row : Row, (conditions.all fun clause => clause.holds row) =
          (indexable.holds row && rest.all fun clause => clause.holds row) := by
        intro row
        rw [perm.all_eq, List.all_cons]
      have goodRest : ∀ clause ∈ rest, clause.WellFormed table.schema :=
        fun clause there => good clause (perm.mem_iff.mpr (by simp [there]))
      obtain ⟨predicate, compiles, agrees⟩ := makeConjunction_spec goodRest
      simp only
      split
      · rename_i fails
        rw [fails] at reads
        cases reads
      · rename_i rows table' returns
        rw [returns] at reads schema_eq
        obtain rfl := Except.ok.inj reads
        split
        · rename_i none
          subst none
          simp [selected, whole]
        · rw [schema_eq, compiles]
          have total : ∀ row ∈ (table.contents.filter fun entry => indexable.holds entry.2).map
              Prod.snd, ∃ b, predicate row = .ok b := by
            intro row there
            obtain ⟨entry, kept, rfl⟩ := List.mem_map.mp there
            exact ⟨_, agrees entry.1 entry.2 (valid.stored entry (List.mem_of_mem_filter kept))⟩
          simp only
          rw [Scan.scan_of_total total, selected, List.filter_map, List.filter_filter]
          refine congrArg (fun entries => Except.ok (List.map Prod.snd entries)) ?_
          apply List.filter_congr
          intro entry there
          simp only [Function.comp_apply, Scan.holds, whole,
            agrees entry.1 entry.2 (valid.stored entry there), Bool.and_comm]

theorem selectAll_eq (table : Table) : table.selectAll = .ok (table.contents.map Prod.snd) := by
  have all : table.matching (fun _ => .ok true) = .ok (table.contents.filter fun _ => true) :=
    Table.matching_of_total (fun _ => true) fun _ _ => rfl
  rw [Table.selectAll, Table.selectWhere, all, List.filter_true]
  rfl

/-- On every table a program can build, a fetch fails exactly on an unknown column or a
literal of the wrong type, and otherwise returns the rows of the full scan that satisfy
every clause. -/
theorem fetchRows_agrees_with_scan (reachable : table.Reachable) (conditions : WhereList) :
    ((∃ e, (fetchRows table conditions).1 = .error e) ↔
        ∃ clause ∈ conditions, ¬ clause.WellFormed table.schema) ∧
      ∃ rows, table.selectAll = .ok rows ∧
        ((∀ clause ∈ conditions, clause.WellFormed table.schema) →
          (fetchRows table conditions).1 =
            .ok (rows.filter fun row => conditions.all fun clause => clause.holds row)) := by
  have valid := reachable.valid
  refine ⟨⟨?_, fetchRows_of_not_wellFormed valid⟩, table.contents.map Prod.snd,
    selectAll_eq table, ?_⟩
  · rintro ⟨e, fails⟩
    by_contra good
    push Not at good
    rw [fetchRows_of_wellFormed valid good] at fails
    cases fails
  · intro good
    rw [fetchRows_of_wellFormed valid good, selected, List.filter_map]
    rfl

/-- Over every run of a table's operations each stored row is filed under its own id, has
the table's columns and holds a value of the column's type in every one of them. So no
compiled predicate throws on a stored row, and no assignment of `updateWhere` throws. -/
theorem stored_rows_well_typed {schema : Schema} {cacheCapacity : Nat} {start : Table}
    (creates : Table.create schema cacheCapacity = .ok start) (ops : List Table.Op) :
    ∃ table answers, Machine.run Table.step start ops = some (table, answers) ∧
      table.schema = schema ∧
      (∀ entry ∈ table.contents, entry.2.getInt Table.idColumn = .ok entry.1 ∧
        entry.2.schema.columns = schema.columns ∧
        ∀ column ∈ schema.columns, ∃ value, entry.2.cell column.name = some value ∧
          (column.type = .int ↔ ∃ number, value = .int number) ∧
          (column.type = .text ↔ ∃ content, value = .text content)) ∧
      (∀ conditions predicate, makeConjunction schema conditions = .ok predicate →
        ∀ entry ∈ table.contents, ∃ answer, predicate entry.2 = .ok answer) ∧
      ∀ predicate assignments matched, Table.checkAssignments schema assignments = .ok () →
        table.matching predicate = .ok matched →
        ∃ rows, Table.assignRows assignments (matched.map Prod.fst) table.rows =
          some (.ok (), rows) := by
  obtain ⟨table, answers, runs, valid, rfl⟩ := Table.run_valid creates ops
  refine ⟨table, answers, runs, rfl, ?_, ?_, ?_⟩
  · intro entry there
    have stored := valid.stored entry there
    refine ⟨stored.getInt, congrArg Schema.columns stored.schema_eq, ?_⟩
    intro column present
    obtain ⟨value, held, typed⟩ := stored.cell present
    refine ⟨value, held, ?_⟩
    rw [← typed]
    cases value <;> simp [Value.type]
  · intro conditions predicate compiles entry there
    obtain ⟨predicate', compiles', agrees⟩ :=
      makeConjunction_spec (wellFormed_of_makeConjunction compiles)
    cases compiles.symm.trans compiles'
    exact ⟨_, agrees entry.1 entry.2 (valid.stored entry there)⟩
  · intro predicate assignments matched checks scans
    obtain ⟨rows, assigns, -⟩ := valid.assignRows checks scans
    exact ⟨rows, assigns⟩

end Tables

section Witness

open scoped OneBucket

/-- Four rows, two of them at the ends of the id range. -/
def fourRows : List Table.Op :=
  [.insert (Table.nameRow "-9223372036854775808".toList "Ada".toList),
    .insert (Table.nameRow "5".toList "Bob".toList),
    .insert (Table.nameRow "6".toList "Ada".toList),
    .insert (Table.nameRow "9223372036854775807".toList "Ada".toList)]

/-- `name != 'Bob' AND id < 9223372036854775807 AND id >= -9223372036854775808`: the scan is
over a range that ends one before the maximum. -/
def withinBounds : WhereList :=
  [⟨"name".toList, .ne, "Bob".toList⟩, ⟨Table.idColumn, .lt, "9223372036854775807".toList⟩,
    ⟨Table.idColumn, .ge, "-9223372036854775808".toList⟩]

theorem fetchRows_agrees_with_scan_at_bounds :
    ∃ table : Table, table.Reachable ∧ ∃ rows, table.selectAll = .ok rows ∧
      (fetchRows table withinBounds).1 =
        .ok (rows.filter fun row => withinBounds.all fun clause => clause.holds row) ∧
      rows.length = 4 ∧
      (rows.filter fun row => withinBounds.all fun clause => clause.holds row).length = 2 := by
  have runs : (((Table.create Table.nameSchema 1).toOption.bind fun start =>
      Machine.run Table.step start fourRows).any fun ended =>
        ended.1.selectAll.toOption.any fun rows => rows.length == 4 &&
          (rows.filter fun row => withinBounds.all fun clause => clause.holds row).length == 2) =
      true := by
    decide +kernel
  rw [Option.any_eq_true] at runs
  obtain ⟨⟨table, answers⟩, runs, counts⟩ := runs
  obtain ⟨reachable, schema_eq⟩ := Table.reachable_of_run runs
  obtain ⟨-, rows, scans, agrees⟩ := fetchRows_agrees_with_scan reachable withinBounds
  have good : ∀ clause ∈ withinBounds, clause.WellFormed table.schema := by
    rw [schema_eq]
    intro clause there
    simp only [withinBounds, List.mem_cons, List.not_mem_nil, or_false] at there
    obtain rfl | rfl | rfl := there
    · exact ⟨⟨"name".toList, .text⟩, by decide, by decide⟩
    · exact ⟨⟨Table.idColumn, .int⟩, by decide, by decide⟩
    · exact ⟨⟨Table.idColumn, .int⟩, by decide, by decide⟩
  rw [scans, Except.toOption, Option.any_some, Bool.and_eq_true, beq_iff_eq, beq_iff_eq] at counts
  exact ⟨table, reachable, rows, scans, agrees good, counts.1, counts.2⟩

/-- A row is stored and its text column then set to a numeral: it still holds a text. -/
theorem stored_rows_well_typed_numeral :
    ∃ start table answers, Table.create Table.nameSchema 1 = .ok start ∧
      Machine.run Table.step start [.insert (Table.nameRow ['5'] ['a']),
        .updateWhere (fun _ => .ok true) [("name".toList, ['7'])]] = some (table, answers) ∧
      ∀ entry ∈ table.contents, entry.2.getInt Table.idColumn = .ok entry.1 ∧
        ∃ content, entry.2.cell "name".toList = some (.text content) := by
  have keyed : Table.hasPrimaryKey Table.nameSchema = true := by decide
  obtain ⟨start, creates, -⟩ := Table.create_spec keyed Nat.one_pos
  obtain ⟨table, answers, runs, -, filed, -⟩ := stored_rows_well_typed creates
    [.insert (Table.nameRow ['5'] ['a']),
      .updateWhere (fun _ => .ok true) [("name".toList, ['7'])]]
  refine ⟨start, table, answers, creates, runs, ?_⟩
  intro entry there
  obtain ⟨own, -, typed⟩ := filed entry there
  obtain ⟨value, held, -, text⟩ := typed ⟨"name".toList, .text⟩ (by decide)
  obtain ⟨content, rfl⟩ := text.mp rfl
  exact ⟨own, content, held⟩

end Witness

end Executor
end CppDB
