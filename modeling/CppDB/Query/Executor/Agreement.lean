import CppDB.Query.Executor.Statements

/-! `SELECT`, `UPDATE` and `DELETE` give a `WHERE` list one meaning, although each takes
its own way to the rows. -/
namespace CppDB.Executor

open Assoc
open Table (idColumn)

variable {schema : Schema} {conditions : WhereList} {columns : List Str} {row : Row} {id : Int64}

/-! ### Printing stored rows -/

theorem printRows_eq {rows : List Row} {lines : Str} (formats : formatRows columns rows = .ok lines) :
    printRows columns rows = .ok (lines ++ footer rows.length) := by
  rw [printRows]
  split
  · rename_i none
    subst none
    cases formats
    rfl
  · rw [formats]
    rfl

theorem checkColumns_of_known (known : ∀ column ∈ columns, schema.hasColumn column) :
    checkColumns schema columns = .ok () := by
  induction columns with
  | nil => rfl
  | cons column rest ih =>
    rw [checkColumns, if_pos (known column (List.mem_cons_self ..))]
    exact ih fun c there => known c (List.mem_cons_of_mem column there)

/-! ### Predicates of an `UPDATE` or a `DELETE` -/

theorem predicateFor_spec (good : ∀ clause ∈ conditions, clause.WellFormed schema) :
    ∃ predicate, predicateFor schema conditions = .ok predicate ∧
      ∀ id row, Table.Stored schema id row →
        predicate row = .ok (conditions.all fun clause => clause.holds row) := by
  rw [predicateFor]
  split
  · rename_i none
    subst none
    exact ⟨_, rfl, fun _ _ _ => rfl⟩
  · exact makeConjunction_spec good

section Tables

variable [StdHash Int64] {table : Table}

/-- The shortcut of `DELETE` is taken only on a condition that names one id. -/
theorem pointDelete_spec (valid : table.Valid) {v : Int64} (point : pointDelete conditions = some v) :
    (∀ clause ∈ conditions, clause.WellFormed table.schema) ∧
      ∀ entry ∈ table.contents,
        (conditions.all fun clause => clause.holds entry.2) = decide (entry.1 = v) := by
  rcases conditions with _ | ⟨clause, _ | ⟨_, _⟩⟩
  · cases point
  · rw [pointDelete] at point
    split_ifs at point with shortcut
    obtain rfl := Option.some.inj point
    simp only [Bool.and_eq_true, decide_eq_true_eq] at shortcut
    obtain ⟨⟨onId, op⟩, literal⟩ := shortcut
    have indexable : isIndexableIdClause clause = true := by
      simp [isIndexableIdClause, onId, op]
    constructor
    · intro clause' there
      rw [List.mem_singleton.mp there]
      exact (wellFormed_of_indexable valid indexable).mpr literal
    · intro entry there
      rw [List.all_cons, List.all_nil, Bool.and_true,
        holds_of_stored (valid.stored entry there) onId, op, CompareOp.relates]
  · cases point

theorem selected_of_point (valid : table.Valid) {v : Int64} (point : pointDelete conditions = some v) :
    selected table conditions = (find v table.contents).toList := by
  rw [toList_find, selected, rowsByKey]
  refine congrArg (List.map Prod.snd) (List.filter_congr ?_)
  exact (pointDelete_spec valid point).2

theorem runDelete_of_wellFormed (valid : table.Valid) (name : Str)
    (good : ∀ clause ∈ conditions, clause.WellFormed table.schema) :
    ∃ table', runDelete ⟨name, conditions⟩ table =
        some (table', .ok (deletedReply (selected table conditions).length)) ∧
      table'.contents = table.contents.filter fun entry =>
        !conditions.all fun clause => clause.holds entry.2 := by
  cases point : pointDelete conditions with
  | some v =>
    obtain ⟨flag, -, contents_eq⟩ := Table.deleteById_spec table v
    refine ⟨(table.deleteById v).2, ?_, ?_⟩
    · simp only [runDelete, point, flag, selected_of_point valid point]
      cases found : find v table.contents with
      | none => simp [find_eq_none.mp found]
      | some row =>
        have present : v ∈ keys table.contents := find_isSome.mp (by rw [found]; rfl)
        simp [present]
    · rw [contents_eq, without]
      apply List.filter_congr
      intro entry there
      rw [(pointDelete_spec valid point).2 entry there, decide_not]
  | none =>
    obtain ⟨predicate, compiles, holds⟩ := predicateFor_spec good
    have total := fun entry there => holds _ _ (valid.stored entry there)
    obtain ⟨answer, -, contents_eq⟩ := Table.deleteWhere_of_ok
      (Table.matching_of_total (fun row => conditions.all fun clause => clause.holds row) total)
    refine ⟨(table.deleteWhere predicate).2, ?_, ?_⟩
    · simp only [runDelete, point, compiles, answer, selected, List.length_map]
      rfl
    · rw [contents_eq]
      apply List.filter_congr
      intro entry there
      rw [Table.keeps, Scan.holds, total entry there]

end Tables

section Witness

open scoped OneBucket

end Witness

end CppDB.Executor
