import CppDB.Query.Executor.Agreement
import CppDB.Query.Executor.Laws

/-! The lists of a statement are read as sets: the conditions of a `WHERE`, whose order and
number decide which of the code's paths is taken, and the columns that are given values. -/
namespace CppDB.Relational

open Assoc Executor

/-! ### Other words for a statement -/

/-- Every column is given the same values, in the same order. -/
def Rearranged (pairs pairs' : Assignments) : Prop :=
  ∀ column, (pairs.filter fun pair => pair.1 = column) = pairs'.filter fun pair => pair.1 = column

/-- The same conditions, in any order and any number of times. -/
def SameClauses (conditions conditions' : WhereList) : Prop :=
  ∀ clause, clause ∈ conditions ↔ clause ∈ conditions'

inductive Rewording : Statement → Statement → Prop
  | refl (stmt : Statement) : Rewording stmt stmt
  | insert {stmt stmt' : InsertStatement} (table : stmt.table = stmt'.table)
      (pairs : Rearranged (stmt.columns.zip stmt.values) (stmt'.columns.zip stmt'.values)) :
      Rewording (.insert stmt) (.insert stmt')
  | select {stmt stmt' : SelectStatement} (table : stmt.table = stmt'.table)
      (columns : stmt.columns = stmt'.columns)
      (conditions : SameClauses stmt.conditions stmt'.conditions) :
      Rewording (.select stmt) (.select stmt')
  | update {stmt stmt' : UpdateStatement} (table : stmt.table = stmt'.table)
      (pairs : Rearranged stmt.assignments stmt'.assignments)
      (conditions : SameClauses stmt.conditions stmt'.conditions) :
      Rewording (.update stmt) (.update stmt')
  | delete {stmt stmt' : DeleteStatement} (table : stmt.table = stmt'.table)
      (conditions : SameClauses stmt.conditions stmt'.conditions) :
      Rewording (.delete stmt) (.delete stmt')

/-- Two texts that say the same, if they say anything. -/
inductive Reworded (query query' : Str) : Prop
  | rejected {e e' : Exn} (fails : compile query = .error e) (fails' : compile query' = .error e')
  | accepted {stmt stmt' : Statement} (compiles : compile query = .ok stmt)
      (compiles' : compile query' = .ok stmt') (same : Rewording stmt stmt')

/-! ### Results that differ at most in an error -/

def Agree {α : Type} (result result' : Except Exn α) : Prop :=
  ∀ a, result = .ok a ↔ result' = .ok a

/-- The same reply, or an error in the place of another. -/
def SameReply (text text' : Str) : Prop :=
  text = text' ∨ errorTag <+: text ∧ errorTag <+: text'

namespace Agree

variable {α β : Type} {result result' : Except Exn α}

theorem refl (result : Except Exn α) : Agree result result := fun _ => .rfl

theorem errors (e e' : Exn) : Agree (.error e : Except Exn α) (.error e') := by
  intro a
  constructor <;> intro succeeds <;> cases succeeds

/-- Two results that agree fail both, or are the same. -/
theorem cases (agree : Agree result result') :
    (∃ e e', result = .error e ∧ result' = .error e') ∨ ∃ a, result = .ok a ∧ result' = .ok a := by
  cases first : result with
  | ok a => exact .inr ⟨a, rfl, (agree a).mp first⟩
  | error e =>
    cases second : result' with
    | error e' => exact .inl ⟨e, e', rfl, rfl⟩
    | ok a => cases first.symm.trans ((agree a).mpr second)

theorem bind (agree : Agree result result') (next : α → Except Exn β) :
    Agree (result >>= next) (result' >>= next) := by
  obtain ⟨e, e', rfl, rfl⟩ | ⟨a, rfl, rfl⟩ := agree.cases
  · exact errors e e'
  · exact refl _

/-- Checks agree if they hold of the same. -/
theorem of_checks {check check' : Except Exn Unit} (same : check = .ok () ↔ check' = .ok ()) :
    Agree check check' := fun () => same

theorem reply {answer answer' : Answer} (agree : Agree answer answer') :
    SameReply (reply answer) (reply answer') := by
  obtain ⟨e, e', rfl, rfl⟩ | ⟨text, rfl, rfl⟩ := agree.cases
  · exact .inr ⟨List.prefix_append .., List.prefix_append ..⟩
  · exact .inl rfl

end Agree

/-! ### The order of assignments -/

section Assignments

variable {schema : Schema} {pairs pairs' : Assignments}

/-- Columns that are named once may be named in any order. -/
theorem Rearranged.of_perm (distinct : (pairs.map Prod.fst).Nodup) (perm : pairs.Perm pairs') :
    Rearranged pairs pairs' := by
  intro column
  induction perm with
  | nil => rfl
  | cons pair _ ih =>
    rw [List.map_cons, List.nodup_cons] at distinct
    rw [List.filter_cons, List.filter_cons, ih distinct.2]
  | swap pair pair' rest =>
    have apart : pair'.1 ≠ pair.1 := by
      intro same
      simp [same] at distinct
    by_cases here : pair.1 = column
    · subst here
      simp [apart]
    · simp [List.filter_cons, here]
  | trans first _ ih ih' =>
    exact (ih distinct).trans (ih' ((first.map Prod.fst).nodup_iff.mp distinct))

theorem Rearranged.mem_iff (same : Rearranged pairs pairs') (pair : Str × Str) :
    pair ∈ pairs ↔ pair ∈ pairs' := by
  have here (list : Assignments) : pair ∈ list ↔ pair ∈ list.filter fun p => p.1 = pair.1 := by
    simp
  rw [here pairs, same pair.1, ← here pairs']

/-- A column only depends on what is assigned to it. -/
theorem written_filter (schema : Schema) (pairs : Assignments) (column : Str) :
    written schema (pairs.filter fun pair => pair.1 = column) column =
      written schema pairs column := by
  induction pairs with
  | nil => rfl
  | cons pair rest ih =>
    by_cases here : pair.1 = column
    · rw [List.filter_cons_of_pos (by simpa using here), written, written, ih]
    · rw [List.filter_cons_of_neg (by simpa using here), ih, written, writtenBy, if_neg here,
        Option.or_none]

theorem Rearranged.assignAll (same : Rearranged pairs pairs') (row : Row) :
    row.assignAll pairs = row.assignAll pairs' := by
  have schema_eq (list : Assignments) : (row.assignAll list).schema = row.schema :=
    (Row.cell_assignAll row list []).1
  refine Row.ext_cells ((schema_eq pairs).trans (schema_eq pairs').symm) fun column => ?_
  rw [(Row.cell_assignAll row pairs column).2, (Row.cell_assignAll row pairs' column).2,
    ← written_filter _ pairs, same column, written_filter]

/-- A row can be filled if each value alone can be set. -/
theorem fillRow_of_valid {row : Row} (valid : ∀ pair ∈ pairs, ∃ definition,
      row.schema.findColumn pair.1 = some definition ∧
        isValidValueFor definition.type pair.2 = true) :
    fillRow row pairs = .ok (row.assignAll pairs) := by
  induction pairs generalizing row with
  | nil => rfl
  | cons pair rest ih =>
    obtain ⟨here, others⟩ := List.forall_mem_cons.mp valid
    obtain ⟨row₁, sets⟩ := Row.set_eq_ok_iff.mpr here
    rw [← (Row.set_spec sets).1] at others
    simp only [fillRow, sets, bind, Except.bind, ih others, Row.assignAll, List.foldl_cons,
      Row.assign]

theorem Rearranged.fillRow (same : Rearranged pairs pairs') (row : Row) :
    Agree (fillRow row pairs) (fillRow row pairs') := by
  have fills {list list' : Assignments} (same : Rearranged list list') {row' : Row}
      (fills : Executor.fillRow row list = .ok row') : Executor.fillRow row list' = .ok row' := by
    obtain ⟨rfl, valid⟩ := fillRow_eq fills
    rw [same.assignAll]
    exact fillRow_of_valid fun pair there => valid pair ((same.mem_iff pair).mpr there)
  exact fun row' => ⟨fills same, fills fun column => (same column).symm⟩

theorem checkAssignments_eq_ok_iff :
    Table.checkAssignments schema pairs = .ok () ↔
      ∀ pair ∈ pairs, Table.checkAssignment schema pair.1 pair.2 = .ok () := by
  induction pairs with
  | nil => simp [Table.checkAssignments]
  | cons pair rest ih =>
    rw [List.forall_mem_cons, ← ih]
    refine ⟨Table.checkAssignments_cons, ?_⟩
    rintro ⟨first, others⟩
    simp only [Table.checkAssignments, first, others, bind, Except.bind]

theorem Rearranged.checkAssignments (same : Rearranged pairs pairs') (schema : Schema) :
    Agree (Table.checkAssignments schema pairs) (Table.checkAssignments schema pairs') := by
  refine .of_checks ?_
  simp only [checkAssignments_eq_ok_iff, same.mem_iff]

end Assignments

/-! ### The order of conditions -/

namespace SameClauses

variable {conditions conditions' : WhereList}

theorem satisfies (same : SameClauses conditions conditions') :
    satisfies conditions = satisfies conditions' := by
  funext row
  rw [Bool.eq_iff_iff]
  simp only [Relational.satisfies, List.all_eq_true]
  exact forall_congr' fun clause => imp_congr_left (same clause)

theorem keyFirst (same : SameClauses conditions conditions') :
    SameClauses (keyFirst conditions) (keyFirst conditions') := fun clause => by
  rw [mem_keyFirst, mem_keyFirst, same clause]

/-- Which condition is found to be wrong first depends on their order, but not whether one is. -/
theorem checkClauses (same : SameClauses conditions conditions') (schema : Schema) :
    Agree (checkClauses schema conditions) (checkClauses schema conditions') := by
  refine .of_checks ⟨fun checks => ?_, fun checks => ?_⟩
  · exact checks_of_wellFormed fun clause there =>
      wellFormed_of_checks checks clause ((same clause).mpr there)
  · exact checks_of_wellFormed fun clause there =>
      wellFormed_of_checks checks clause ((same clause).mp there)

theorem selected (same : SameClauses conditions conditions') (extent : Extent) :
    extent.selected conditions = extent.selected conditions' := by
  rw [Extent.selected, Extent.selected, same.satisfies]

end SameClauses

/-! ### Statements -/

/-- The same is stored, and the answers agree. -/
def Alike {S : Type} (outcome outcome' : S × Answer) : Prop :=
  outcome.1 = outcome'.1 ∧ Agree outcome.2 outcome'.2

namespace Extent

variable (extent : Extent)

theorem insert_alike {stmt stmt' : InsertStatement} (table : stmt.table = stmt'.table)
    (pairs : Rearranged (stmt.columns.zip stmt.values) (stmt'.columns.zip stmt'.values)) :
    Alike (extent.insert stmt) (extent.insert stmt') := by
  have builds : Agree (buildRow (Row.blank extent.schema) stmt)
      (buildRow (Row.blank extent.schema) stmt') :=
    (pairs.fillRow (Row.blank extent.schema)).bind _
  obtain ⟨e, e', first, second⟩ | ⟨built, first, second⟩ := builds.cases
  · simp only [insert, first, second]
    exact ⟨rfl, .errors e e'⟩
  · have same : extent.insert stmt = extent.insert stmt' := by
      rw [insert, insert, first, second, table]
    exact ⟨congrArg Prod.fst same, same ▸ .refl _⟩

theorem select_agree {stmt stmt' : SelectStatement} (columns : stmt.columns = stmt'.columns)
    (conditions : SameClauses stmt.conditions stmt'.conditions) :
    Agree (extent.select stmt) (extent.select stmt') := by
  rw [select, select, columns, conditions.selected extent]
  cases checkColumns extent.schema stmt'.columns with
  | error e => exact .refl _
  | ok => exact (conditions.keyFirst.checkClauses extent.schema).bind _

theorem assign_eq {conditions conditions' : WhereList} {pairs pairs' : Assignments}
    (same : SameClauses conditions conditions') (rearranged : Rearranged pairs pairs')
    (checks : Table.checkAssignments extent.schema pairs = .ok ())
    (checks' : Table.checkAssignments extent.schema pairs' = .ok ()) :
    extent.assign conditions pairs checks = extent.assign conditions' pairs' checks' := by
  refine Extent.ext rfl (List.map_congr_left fun entry _ => ?_)
  rw [revise, revise, same.satisfies, rearranged.assignAll]

variable {extent} in
theorem update_of_error {stmt : UpdateStatement} {e : Exn}
    (clauses : checkClauses extent.schema stmt.conditions = .ok ())
    (fails : Table.checkAssignments extent.schema stmt.assignments = .error e) :
    extent.update stmt = (extent, .error (rethrow e)) := by
  obtain ⟨e', wrong, -⟩ | ⟨-, ⟨e', fails', updates⟩ | ⟨checks, -⟩⟩ := extent.update_cases stmt
  · cases clauses.symm.trans wrong
  · cases fails.symm.trans fails'
    exact updates
  · cases checks.symm.trans fails

variable {extent} in
theorem update_of_checks {stmt : UpdateStatement}
    (clauses : checkClauses extent.schema stmt.conditions = .ok ())
    (checks : Table.checkAssignments extent.schema stmt.assignments = .ok ()) :
    extent.update stmt = (extent.assign stmt.conditions stmt.assignments checks,
      .ok (updatedReply (extent.selected stmt.conditions).length)) := by
  obtain ⟨e, wrong, -⟩ | ⟨-, ⟨e, fails, -⟩ | ⟨_, updates⟩⟩ := extent.update_cases stmt
  · cases clauses.symm.trans wrong
  · cases checks.symm.trans fails
  · exact updates

theorem update_alike {stmt stmt' : UpdateStatement}
    (pairs : Rearranged stmt.assignments stmt'.assignments)
    (conditions : SameClauses stmt.conditions stmt'.conditions) :
    Alike (extent.update stmt) (extent.update stmt') := by
  obtain ⟨e, e', wrong, wrong'⟩ | ⟨⟨⟩, clauses, clauses'⟩ :=
    (conditions.checkClauses extent.schema).cases
  · simp only [update, wrong, wrong']
    exact ⟨rfl, .errors e e'⟩
  obtain ⟨e, e', fails, fails'⟩ | ⟨⟨⟩, checks, checks'⟩ :=
    (pairs.checkAssignments extent.schema).cases
  · rw [update_of_error clauses fails, update_of_error clauses' fails']
    exact ⟨rfl, .errors (rethrow e) (rethrow e')⟩
  · rw [update_of_checks clauses checks, update_of_checks clauses' checks',
      conditions.selected extent]
    exact ⟨extent.assign_eq conditions pairs checks checks', .refl _⟩

theorem remove_eq {conditions conditions' : WhereList} (same : SameClauses conditions conditions') :
    extent.remove conditions = extent.remove conditions' := by
  refine Extent.ext rfl ?_
  simp only [remove, same.satisfies]

theorem delete_alike {stmt stmt' : DeleteStatement}
    (conditions : SameClauses stmt.conditions stmt'.conditions) :
    Alike (extent.delete stmt) (extent.delete stmt') := by
  obtain ⟨e, e', first, second⟩ | ⟨⟨⟩, first, second⟩ :=
    (conditions.checkClauses extent.schema).cases
  · simp only [delete, first, second]
    exact ⟨rfl, .errors e e'⟩
  · simp only [delete, first, second, conditions.selected extent, extent.remove_eq conditions]
    exact ⟨rfl, .refl _⟩

end Extent

theorem onExtent_alike {name : Str} {action action' : Extent → Extent × Answer}
    (alike : ∀ extent, Alike (action extent) (action' extent)) (held : Option Extent) :
    Alike (onExtent name action held) (onExtent name action' held) := by
  cases held with
  | none => exact ⟨rfl, .refl _⟩
  | some extent => exact ⟨congrArg some (alike extent).1, (alike extent).2⟩

namespace Rewording

variable {stmt stmt' : Statement}

theorem target_eq (same : Rewording stmt stmt') : target stmt = target stmt' := by
  cases same with
  | refl => rfl
  | insert table | select table | update table | delete table => exact table

theorem act_alike (same : Rewording stmt stmt') (held : Option Extent) :
    Alike (act stmt held) (act stmt' held) := by
  cases same with
  | refl => exact ⟨rfl, .refl _⟩
  | insert table pairs =>
    simp only [act, table]
    exact onExtent_alike (fun extent => extent.insert_alike table pairs) held
  | select table columns conditions =>
    simp only [act, table]
    refine onExtent_alike (fun extent => ?_) held
    exact ⟨rfl, extent.select_agree columns conditions⟩
  | update table pairs conditions =>
    simp only [act, table]
    exact onExtent_alike (fun extent => extent.update_alike pairs conditions) held
  | delete table conditions =>
    simp only [act, table]
    exact onExtent_alike (fun extent => extent.delete_alike conditions) held

end Rewording

theorem Reworded.perform_alike {query query' : Str} (same : Reworded query query') (state : State) :
    Alike (state.perform query) (state.perform query') := by
  cases same with
  | rejected fails fails' =>
    simp only [State.perform, fails, fails']
    exact ⟨rfl, .errors _ _⟩
  | accepted compiles compiles' same =>
    simp only [State.perform, compiles, compiles', State.run, same.target_eq]
    obtain ⟨leaves, answers⟩ := same.act_alike (state (target _))
    exact ⟨by rw [leaves], answers⟩

theorem execute_alike (state : State) (query query' : Str) (same : Reworded query query') :
    (state.execute query).1 = (state.execute query').1 ∧
      SameReply (state.execute query).2 (state.execute query').2 := by
  obtain ⟨leaves, answers⟩ := same.perform_alike state
  exact ⟨leaves, answers.reply⟩

theorem Reworded.refl (query : Str) : Reworded query query := by
  cases compiles : compile query with
  | error e => exact .rejected compiles compiles
  | ok stmt => exact .accepted compiles compiles (.refl stmt)

section Databases

variable [StdHash Str] [StdHash Int64]

/-- Saying queries in other words changes nothing: whether a row is reached through its id or
by going through all of them, whether a `DELETE` takes its short way, and in which order the
columns are given their values. What is stored in the end is the same, and every reply is
the same or an error in both runs. -/
theorem reworded_queries_agree {queries queries' : List Str}
    (same : List.Forall₂ Reworded queries queries') :
    ∃ db db' replies replies',
      Machine.run execute Database.empty queries = some (db, replies) ∧
      Machine.run execute Database.empty queries' = some (db', replies') ∧
      State.of db = State.of db' ∧ List.Forall₂ SameReply replies replies' := by
  have start : Represents Database.empty .empty := ⟨sane_empty, State.of_empty⟩
  obtain ⟨db, runs, represents⟩ := execute_simulates.run_eq queries start
  obtain ⟨db', runs', represents'⟩ := execute_simulates.run_eq queries' start
  obtain ⟨ends, answers⟩ := Machine.runTotal_forall₂ execute_alike same State.empty
  exact ⟨db, db', _, _, runs, runs', represents.eq.trans (ends.trans represents'.eq.symm), answers⟩

end Databases

section Witness

open scoped OneBucket

/-- Columns in the other order, and a condition said twice, which keeps a `DELETE` from its
short way. -/
theorem reworded_queries_agree_twice :
    ∃ db db' : Database, ∃ replies replies',
      Machine.run execute Database.empty ["CREATE TABLE t (id INT, n INT)".toList,
        "INSERT INTO t (id, n) VALUES (1, 2)".toList, "DELETE FROM t WHERE id = 1".toList] =
          some (db, replies) ∧
      Machine.run execute Database.empty ["CREATE TABLE t (id INT, n INT)".toList,
        "INSERT INTO t (n, id) VALUES (2, 1)".toList,
        "DELETE FROM t WHERE id = 1 AND id = 1".toList] = some (db', replies') ∧
      State.of db = State.of db' ∧ List.Forall₂ SameReply replies replies' := by
  have insertion : Reworded "INSERT INTO t (id, n) VALUES (1, 2)".toList
      "INSERT INTO t (n, id) VALUES (2, 1)".toList := by
    have compiles : compile "INSERT INTO t (id, n) VALUES (1, 2)".toList = .ok (.insert
        ⟨"t".toList, ["id".toList, "n".toList], ["1".toList, "2".toList], rfl⟩) :=
      compile_of_parseQuery (by decide +kernel)
    have compiles' : compile "INSERT INTO t (n, id) VALUES (2, 1)".toList = .ok (.insert
        ⟨"t".toList, ["n".toList, "id".toList], ["2".toList, "1".toList], rfl⟩) :=
      compile_of_parseQuery (by decide +kernel)
    exact .accepted compiles compiles' (.insert rfl (.of_perm (by decide) (by decide)))
  have deletion : Reworded "DELETE FROM t WHERE id = 1".toList
      "DELETE FROM t WHERE id = 1 AND id = 1".toList := by
    have compiles : compile "DELETE FROM t WHERE id = 1".toList =
        .ok (.delete ⟨"t".toList, byId "1".toList⟩) :=
      compile_of_parseQuery (by decide +kernel)
    have compiles' : compile "DELETE FROM t WHERE id = 1 AND id = 1".toList =
        .ok (.delete ⟨"t".toList, byId "1".toList ++ byId "1".toList⟩) :=
      compile_of_parseQuery (by decide +kernel)
    exact .accepted compiles compiles' (.delete rfl fun clause => by simp [byId])
  exact reworded_queries_agree (.cons (.refl _) (.cons insertion (.cons deletion .nil)))

end Witness

end CppDB.Relational
