import CppDB.Network.Service
import CppDB.Query.Executor.Printing

/-! Both ends of a connection. A client that writes its statements out one to a line has them
executed in that order, and from the bytes it reads it can cut the replies to them. -/
namespace CppDB.Network

open Executor Lines Printing Trace

/-! ### What a client reads -/

/-- The line is the last one of a reply. -/
def ending (line : Str) : Bool :=
  line = done || okTag.isPrefixOf line || errorTag.isPrefixOf line || "(".toList.isPrefixOf line

/-- The replies that are complete in the bytes read so far. -/
def decode (bytes : Str) : List Str :=
  (blocks ending (pieces '\n' bytes)).map ['\n'].intercalate

theorem ending_iff {line : Str} : ending line ↔ Ending line := by
  simp only [ending, Bool.or_eq_true, decide_eq_true_eq, List.isPrefixOf_iff_prefix, Ending, Status,
    Parenthesized, or_assoc]

theorem decode_stream {texts : List Str}
    (are : ∀ text ∈ texts, Block Ending (text.splitOn '\n')) :
    decode (texts.flatMap (· ++ ['\n'])) = texts := by
  have cut : ∀ block ∈ texts.map (List.splitOn '\n'), Block (ending ·) block := by
    intro block there
    obtain ⟨text, listed, rfl⟩ := List.mem_map.mp there
    obtain ⟨front, last, splits, goes, ends⟩ := are text listed
    exact ⟨front, last, splits, fun line there is => goes line there (ending_iff.mp is),
      ending_iff.mpr ends⟩
  rw [decode, pieces_flatMap, blocks_flatten cut, List.map_map]
  refine (List.map_congr_left fun text _ => ?_).trans (List.map_id _)
  exact List.intercalate_splitOn '\n'

theorem decode_mono {bytes more : Str} (early : bytes <+: more) :
    decode bytes <+: decode more := by
  have cut : pieces '\n' bytes <+: pieces '\n' more := pieces_mono early
  obtain ⟨lines, same⟩ := cut
  rw [decode, decode, ← same]
  exact (blocksFrom_mono [] _ lines).map _

/-! ### What a client says -/

/-- The statement can be written, and on one line. -/
def Sayable (stmt : Statement) : Prop :=
  expressible stmt ∧ ∀ value ∈ literals stmt, Clean value

/-- The statements, one to a line. -/
def say (stmts : List Statement) : Str := (stmts.map unparse).flatMap (· ++ ['\n'])

theorem framed_mono {front stream : Str} (early : front <+: stream) :
    framed front <+: framed stream :=
  ((pieces_mono early).map _).filter _

theorem framed_say {stmts : List Statement} (all : ∀ stmt ∈ stmts, Sayable stmt) :
    framed (say stmts) = stmts.map unparse := by
  induction stmts with
  | nil => rfl
  | cons stmt others ih =>
    obtain ⟨⟨can, clean⟩, rest⟩ := List.forall_mem_cons.mp all
    obtain ⟨some, last⟩ := unparse_ends can
    have strip : stripReturn (unparse stmt) = unparse stmt := if_neg last
    have ended : Ended '\n' (unparse stmt ++ ['\n']) := .inr ⟨_, rfl⟩
    rw [say, List.map_cons, List.flatMap_cons, framed_append ended,
      framed_line (clean_unparse can clean), strip, if_neg some, ← say, ih rest]
    rfl

/-- However much of the bytes has come, the lines are the first of the statements. -/
theorem compile_framed {stmts : List Statement} {bytes : Str} {asked : List Str}
    (all : ∀ stmt ∈ stmts, Sayable stmt) (early : bytes <+: say stmts)
    (first : asked <+: framed bytes) : asked.map compile <+: stmts.map .ok := by
  have texts := first.trans (framed_mono early)
  rw [framed_say all] at texts
  have means : (stmts.map unparse).map compile = stmts.map .ok := by
    rw [List.map_map]
    exact List.map_congr_left fun stmt there => compile_unparse (all stmt there).1
  exact means ▸ texts.map compile

/-! ### Queries are on one line -/

/-- Every query a connection has waiting, in execution or executed is on one line. -/
structure Strand.Legible (es : List Event) (s : Strand) : Prop where
  waiting : ∀ query ∈ s.conn.pending, Clean query
  executing : ∀ query, .executing query ∈ s.tasks → Clean query
  executed : ∀ e ∈ executions es, Clean e.1

namespace Strand.Legible

variable {s s' : Strand} {a : Action} {es es' : List Event}

theorem fresh : Legible [] Strand.fresh where
  waiting := by simp [Strand.fresh, Connection.fresh]
  executing := by simp [Strand.fresh]
  executed := by simp [executions]

theorem clean_stripReturn {raw : Str} (clean : Clean raw) : Clean (stripReturn raw) := by
  unfold stripReturn
  split
  · exact clean.of_subset (List.dropLast_subset raw)
  · exact clean

/-- Nothing new is waiting or in execution. -/
theorem keep (legible : Legible es s) (waits : s'.conn.pending ⊆ s.conn.pending)
    (executes : ∀ query, .executing query ∈ s'.tasks → .executing query ∈ s.tasks)
    (quiet : executions es' = []) : Legible (es ++ es') s' where
  waiting query there := legible.waiting query (waits there)
  executing query there := legible.executing query (executes query there)
  executed := by
    rw [executions_append, quiet, List.append_nil]
    exact legible.executed

/-- A task goes on to something that is not an execution. -/
theorem executing_of_setTask {k : Nat} {task : Task} {query : Str}
    (other : task ≠ .executing query) (there : .executing query ∈ (s.setTask k task).tasks) :
    .executing query ∈ s.tasks := by
  obtain there | same := List.mem_or_eq_of_mem_set there
  · exact there
  · exact absurd same.symm other

theorem step (legible : Legible es s) (takes : Takes s a s' es') : Legible (es ++ es') s' := by
  cases takes with
  | queue splits line full short room =>
    refine ⟨fun query there => ?_, legible.executing, ?_⟩
    · obtain there | there := List.mem_append.mp there
      · exact legible.waiting query there
      · rw [List.mem_singleton.mp there]
        exact clean_stripReturn (takeLine_eq_some line).1
    · rw [executions_append]
      simpa [executions] using legible.executed
  | @pop k query pending is next =>
    have first := legible.waiting
    rw [next, List.forall_mem_cons] at first
    refine ⟨first.2, fun query' there => ?_, ?_⟩
    · obtain there | same := List.mem_or_eq_of_mem_set there
      · exact legible.executing query' there
      · cases same
        exact first.1
    · rw [List.append_nil]
      exact legible.executed
  | @execute k query reply is =>
    refine ⟨legible.waiting, fun query' there => ?_, ?_⟩
    · exact legible.executing query' (executing_of_setTask (by simp) there)
    · rw [executions_append, List.forall_mem_append]
      refine ⟨legible.executed, ?_⟩
      simpa [executions] using legible.executing query (List.mem_of_getElem? is)
  | @dispatch wakes gone dispatches =>
    refine legible.keep (List.Subset.refl _) (fun query there => ?_) rfl
    cases wakes <;> simpa using there
  | drop | dropped | readable | read | interrupted | wouldBlock | peerClosed | noNewline | blank
  | overLimit | stall =>
    refine legible.keep (List.Subset.refl _) (fun query there => there) ?_
    first | rfl | (cases s.conn.busy <;> rfl)
  | start | fail =>
    exact legible.keep (List.Subset.refl _) (fun query => executing_of_setTask (by simp)) rfl
  | @send k rest n is nonempty fits =>
    refine legible.keep (List.Subset.refl _) (fun query => executing_of_setTask ?_) rfl
    split <;> simp
  | exit is empty =>
    refine legible.keep (List.Subset.refl _) (fun query => List.mem_of_mem_eraseIdx) ?_
    cases s.conn.closed <;> rfl
  | abort is =>
    refine legible.keep (List.nil_subset _) (fun query => List.mem_of_mem_eraseIdx) ?_
    cases s.conn.closed <;> rfl

theorem of_run (run : Trace.Run Strand.step free Strand.fresh es s) : Legible es s :=
  run.invariant Legible fresh fun legible _ takes => legible.step (step_takes takes)

end Strand.Legible

theorem Server.legible {es : List Server.Event} {s : Server} (sound : Server.Sound es s) (i : Nat) :
    (∀ query, s.Executing i query → Clean query) ∧
      ∀ e ∈ executions (Server.own i es), Clean e.1 := by
  by_cases inside : i < s.clients.length
  · have is := List.getElem?_eq_getElem inside
    obtain ⟨past, run, same⟩ := (sound.lives i _ is).runs
    have legible := Strand.Legible.of_run run
    constructor
    · rintro query ⟨client, k, there, executing⟩
      cases is.symm.trans there
      exact legible.executing query (List.mem_of_getElem? executing)
    · obtain ⟨whole, -⟩ | ⟨closed, -⟩ := same
      · rw [whole]
        exact legible.executed
      · rw [closed, executions_append]
        simpa [executions] using legible.executed
  · constructor
    · rintro query ⟨client, k, there, -⟩
      exact absurd (List.getElem?_eq_some_iff.mp there).1 inside
    · rw [sound.unborn i (not_lt.mp inside)]
      simp [executions]

section Dialogue

variable [StdHash Str] [StdHash Int64] {s : Service} {es : List Server.Event} {i : Nat}

namespace Service

/-- Every reply a connection was told ends where a client looks for its end. -/
theorem blocks_of_executions (run : Run es s) :
    ∀ e ∈ executions (Server.own i es), Block Ending (e.2.splitOn '\n') := by
  obtain ⟨done, joined⟩ := Joined.of_run run
  obtain ⟨order, lin, own⟩ := Registry.sessions_linearizable named_empty joined.sessions
  have part : ∀ j, executions (Server.own j es) ⊆ seen j order ∧
      ∀ e ∈ seen j order, Clean e.1 := by
    intro j
    obtain ⟨executing, executed⟩ := Server.legible joined.sound j
    obtain whole | ⟨query, reply, now, more⟩ := joined.seen_cases lin (own j)
    · rw [whole]
      exact ⟨List.Subset.refl _, executed⟩
    · rw [more]
      refine ⟨List.subset_append_left _ _, List.forall_mem_append.mpr ⟨executed, ?_⟩⟩
      rw [List.forall_mem_singleton]
      exact executing query now
  -- the queries of all connections are on one line
  have clean : ∀ query ∈ order.map fun e => e.op.2, Clean query := by
    rw [List.forall_mem_map]
    intro e there
    exact (part e.op.1).2 (exchange e)
      (List.mem_map_of_mem (List.mem_filter.mpr ⟨there, decide_eq_true rfl⟩))
  have ends := blocks_of_run clean (runs lin)
  intro e there
  obtain ⟨entry, listed, rfl⟩ := List.mem_map.mp ((part i).1 there)
  exact ends entry.reply (List.mem_map_of_mem (List.mem_of_mem_filter listed))

/-- Whatever the other clients do, as long as the replies to a client get through: the
replies complete in the bytes it has read are the first ones to its own queries, and all of
them once all bytes have been sent. If all that the server has read from it is the beginning
of some statements, one to a line and cut anywhere, then the lines queued for it stand for the
first of these statements, in their order, and the queries executed are the first of them. -/
theorem client_hears_its_answers (run : Run es s) (unfailed : .failed ∉ Server.own i es) :
    decode (sent (Server.own i es)) <+: (executions (Server.own i es)).map Prod.snd ∧
      (sent (Server.own i es) = replies (Server.own i es) →
        decode (sent (Server.own i es)) = (executions (Server.own i es)).map Prod.snd) ∧
      queries (Server.own i es) <+: lines (Server.own i es) ∧
      ∀ stmts, (∀ stmt ∈ stmts, Sayable stmt) → received (Server.own i es) <+: say stmts →
        (lines (Server.own i es)).map compile <+: stmts.map .ok := by
  obtain ⟨done, joined⟩ := Joined.of_run run
  obtain ⟨asked, queued, told⟩ := Server.prefixes_of_sound joined.sound unfailed
  have whole : decode (replies (Server.own i es)) =
      (executions (Server.own i es)).map Prod.snd := by
    have stream : replies (Server.own i es) =
        ((executions (Server.own i es)).map Prod.snd).flatMap (· ++ ['\n']) := by
      rw [replies, List.flatMap_map]
    rw [stream]
    exact decode_stream (List.forall_mem_map.mpr (blocks_of_executions run))
  refine ⟨whole ▸ decode_mono told, fun all => all ▸ whole, asked, fun stmts sayable early => ?_⟩
  exact compile_framed sayable early queued

end Service

end Dialogue

section Witness

open scoped OneBucket

namespace Service

def dropStatement : Statement := .drop ⟨"t".toList⟩

/-- A client sends a statement and the beginning of another one. -/
def cutRequest : List Server.Action :=
  [.run, .accept 7 true, .on 0 .readable, .on 0 (.read " DROP TABLE t\n DR".toList),
    .on 0 .wouldBlock, .on 0 .split, .on 0 .split, .on 0 .dispatch, .on 0 (.work 0 .start),
    .on 0 (.work 0 .drain)]

/-- The reply goes out in two parts. -/
theorem client_hears_its_answers_cut_line :
    ∃ es s, Run es s ∧ .failed ∉ Server.own 0 es ∧
      received (Server.own 0 es) = " DROP TABLE t\n DR".toList ∧
      sent (Server.own 0 es) = replies (Server.own 0 es) ∧
      decode (sent (Server.own 0 es)) = [dropReply] ∧
      (lines (Server.own 0 es)).map compile <+: [dropStatement, dropStatement].map .ok := by
  have sayable : ∀ stmt ∈ [dropStatement, dropStatement], Sayable stmt := by
    simp only [List.forall_mem_cons]
    have is : Sayable dropStatement := ⟨by decide +kernel, by simp [dropStatement, literals]⟩
    exact ⟨is, is, by simp⟩
  have ends : ((exec Server.step .fresh cutRequest).bind fun result =>
      (result.1.step (.on 0 (.work 0 (.execute dropReply)))).bind fun first =>
      (exec Server.step first.1 [.on 0 (.work 0 (.send 20)), .on 0 (.work 0 (.send 5))]).map
        fun last => (result.1.clients.map fun client => client.strand.tasks,
          Server.own 0 (result.2 ++ first.2 ++ last.2))) =
      some ([[.executing (unparse dropStatement)]], [.called, .read " DROP TABLE t\n DR".toList,
        .read [], .queued (unparse dropStatement), .executed (unparse dropStatement) dropReply,
        .send (dropReply.take 20), .send (dropReply.drop 20 ++ ['\n'])]) := by
    decide +kernel
  rw [Option.bind_eq_some_iff] at ends
  obtain ⟨⟨server, es⟩, execs, ends⟩ := ends
  rw [Option.bind_eq_some_iff] at ends
  obtain ⟨⟨server₁, es₁⟩, first, ends⟩ := ends
  obtain ⟨⟨server₂, es₂⟩, last, ends⟩ := Option.map_eq_some_iff.mp ends
  obtain ⟨tasks, own⟩ := Prod.mk.inj ends
  obtain ⟨executor, id, run, phase, -⟩ :=
    (Run.start.serves execs (by simp [cutRequest])).drops 0
      (compile_unparse (sayable dropStatement (by simp)).1) (executing_of_tasks tasks rfl) rfl
      (getTable_fresh _)
  have answered : executor.phase 0 = .answered id dropReply := by
    rw [phase]
    rfl
  have run := (run.next (.answer answered first)).serves last (by simp)
  have unfailed : .failed ∉ Server.own 0 (([] ++ es) ++ es₁ ++ es₂) := by
    rw [List.nil_append, own]
    decide
  obtain ⟨-, whole, -, means⟩ := client_hears_its_answers run unfailed
  rw [List.nil_append, own] at whole means
  refine ⟨_, _, run, unfailed, ?_⟩
  rw [List.nil_append, own]
  exact ⟨rfl, rfl, whole rfl, means _ sayable (by decide +kernel)⟩

end Service

end Witness

end CppDB.Network
