import CppDB.Lib.Linearize
import CppDB.Query.Executor.Execute

/-! Clients that execute queries on one database at the same time. Each statement takes
its section under the database lock, and, on the handle it got there, one section under
the lock of that table. The handle stays good when the table is dropped in between. -/
namespace CppDB.Executor

open Registry Relation

section Clients

variable [StdHash Str] [StdHash Int64] {Client : Type} [DecidableEq Client]

/-- Whatever the interleaving of their sections, when all statements have replied there is
an order of them that keeps a statement behind those that had replied when it was issued,
and in which executing them one by one gives the same replies and the same database. -/
theorem execution_linearizable {start : Database} (named : WellNamed Database.getTable start)
    {cfg : Config Client Catalog Table.Sound Str Str}
    (reaches : ReflTransGen (Step system) (Config.initial start) cfg)
    (quiet : ∀ client, cfg.phase client = .idle) :
    ∃ order : List (Entry Str Str), (order.map Entry.id).Nodup ∧
      (∀ id query, .issue id query ∈ cfg.history ↔ ∃ e ∈ order, e.id = id ∧ e.op = query) ∧
      (∀ id text, .reply id text ∈ cfg.history ↔ ∃ e ∈ order, e.id = id ∧ e.reply = text) ∧
      order.Pairwise (fun a b => ¬ Before cfg.history b.id a.id) ∧
      Machine.run execute start (order.map Entry.op) = some (cfg.store, order.map Entry.reply) := by
  have runs : ∃ order, Linearization system start cfg.history cfg.store order :=
    linearizable named reaches quiet
  obtain ⟨order, lin⟩ := runs
  exact ⟨order, lin.once, lin.statements, lin.replies, lin.realtime, lin.replays⟩

omit [DecidableEq Client] in
theorem plan_of_compile {query : Str} {stmt : Statement} (compiles : compile query = .ok stmt) :
    system.plan query = (run stmt).map reply := by
  simp only [system, plan, compiles]

end Clients

section Witness

open scoped OneBucket

theorem compile_select : compile "SELECT * FROM t".toList = .ok (.select ⟨"t".toList, [], []⟩) :=
  compile_of_parseQuery (by decide +kernel)

theorem compile_drop : compile "DROP TABLE t".toList = .ok (.drop ⟨"t".toList⟩) :=
  compile_of_parseQuery (by decide +kernel)

/-- One client looks a table up, another drops it, and then the first reads its rows. -/
theorem execution_linearizable_orphan :
    ∃ (start : Database) (cfg : Config Bool Catalog Table.Sound Str Str),
      WellNamed Database.getTable start ∧
      ReflTransGen (Step system) (Config.initial start) cfg ∧
      (∀ client, cfg.phase client = .idle) ∧
      ∃ order : List (Entry Str Str), (order.map Entry.id).Nodup ∧
        (∀ id query, .issue id query ∈ cfg.history ↔ ∃ e ∈ order, e.id = id ∧ e.op = query) ∧
        (∀ id text, .reply id text ∈ cfg.history ↔ ∃ e ∈ order, e.id = id ∧ e.reply = text) ∧
        order.Pairwise (fun a b => ¬ Before cfg.history b.id a.id) ∧
        Machine.run execute start (order.map Entry.op) =
          some (cfg.store, order.map Entry.reply) := by
  let schema : Schema := ⟨[⟨"id".toList, .int⟩], by decide, by decide⟩
  have keyed : Table.hasPrimaryKey schema = true := by decide
  obtain ⟨table, -, valid, -⟩ := Table.create_spec keyed Nat.one_pos
  let start : Database := ⟨(HashMap.Sound.empty.insert "t".toList 0).1, [⟨table, valid⟩]⟩
  have lookup (name : Str) : Database.getTable start.catalog name =
      if name = "t".toList then some 0 else none := by
    rw [Database.getTable_insert]
    simp [Database.getTable]
  have named : WellNamed Database.getTable start := by
    refine ⟨fun n h found => ?_, fun n n' h found found' => ?_⟩
    · rw [lookup] at found
      split_ifs at found
      cases found
      exact Nat.one_pos
    · rw [lookup] at found found'
      split_ifs at found found' with is is'
      rw [is, is']
  have select := plan_of_compile compile_select
  have drop := plan_of_compile compile_drop
  have found : Database.getTable start.catalog "t".toList = some 0 := by rw [lookup, if_pos rfl]
  let idle : Config Bool Catalog Table.Sound Str Str := Config.initial start
  have begun : ReflTransGen (Step system) idle idle := .refl
  have reaches := begun
    |>.tail (.issue true "SELECT * FROM t".toList rfl)
    |>.tail (.find (c := true) rfl select found)
    |>.tail (.issue false "DROP TABLE t".toList rfl)
    |>.tail (.catalog (c := false) rfl drop)
    |>.tail (.reply (c := false) rfl)
    |>.tail (.act (c := true) (h := 0) (t := ⟨table, valid⟩) rfl select rfl)
    |>.tail (.reply (c := true) rfl)
  refine ⟨start, _, named, reaches, ?quiet, execution_linearizable named reaches ?quiet⟩
  intro client
  cases client <;> rfl

end Witness

end CppDB.Executor
