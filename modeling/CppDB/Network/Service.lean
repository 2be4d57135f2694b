import CppDB.Lib.Sessions
import CppDB.Network.Server
import CppDB.Query.Executor.Concurrency
import CppDB.Query.Executor.Relational

/-! The whole server: the event loop, the connections and the workers that execute their
queries on one database. While a worker is in `execute`, the loop and the other workers go
on; a query is a section under the database lock and one under the lock of its table. -/
namespace CppDB.Network

open Trace

namespace Strand

variable {s s' : Strand} {a : Action} {es es' : List Event}

/-- Only the return of `execute` ends an execution. -/
theorem executing_of_takes (serial : s.Serial) (takes : Takes s a s' es')
    (other : ∀ k reply, a ≠ .work k (.execute reply)) :
    executions es' = [] ∧ ∀ (k : Nat) (query : Str), s.tasks[k]? = some (.executing query) →
      s'.tasks[k]? = some (.executing query) := by
  have busy {k j : Nat} {task : Task} {query : Str} (is : s.tasks[j]? = some task)
      (executing : s.tasks[k]? = some (.executing query)) : task = .executing query := by
    obtain ⟨rfl, tasks, -⟩ := serial.sole is
    obtain ⟨rfl, tasks', -⟩ := serial.sole executing
    exact List.singleton_injective (tasks.symm.trans tasks')
  cases takes with
  | execute => exact absurd rfl (other _ _)
  | readable | read | interrupted | wouldBlock | peerClosed | noNewline | blank | overLimit
  | queue | dropped | stall => exact ⟨rfl, fun _ _ is => is⟩
  | drop => exact ⟨by cases s.conn.busy <;> rfl, fun _ _ is => is⟩
  | @dispatch wakes =>
    refine ⟨rfl, fun k query is => ?_⟩
    cases wakes
    · exact is
    · exact (List.getElem?_append_left (List.getElem?_eq_some_iff.mp is).1).trans is
  | start is | pop is | send is | fail is =>
    exact ⟨rfl, fun k query executing => nomatch busy is executing⟩
  | exit is | abort is =>
    exact ⟨by cases s.conn.closed <;> rfl, fun k query executing => nomatch busy is executing⟩

/-- A connection that executes a query executes no other. -/
theorem executed_of_takes {k k' : Nat} {query reply : Str} (serial : s.Serial)
    (takes : Takes s (.work k (.execute reply)) s' es')
    (executing : s.tasks[k']? = some (.executing query)) : es' = [.executed query reply] := by
  cases takes with
  | execute is =>
    have tasks := (serial.sole is).2.1
    cases List.singleton_injective (tasks.symm.trans (serial.sole executing).2.1)
    rfl

/-- A run without a failed reply. -/
theorem rests_of_unfailed (run : Run step free Strand.fresh es s) (unfailed : .failed ∉ es) :
    Run step restsAfterFailure Strand.fresh es s := by
  induction run with
  | start => exact .start
  | next before _ takes ih =>
    rw [List.mem_append, not_or] at unfailed
    exact (ih unfailed.1).next (fun failed => absurd failed unfailed.1) takes

theorem inOrder_of_unfailed (run : Run step free Strand.fresh es s) (unfailed : .failed ∉ es) :
    InOrder es s := by
  obtain ⟨⟨-, order⟩ | ⟨failed, -⟩, -⟩ := inOrder_or_cutShort (rests_of_unfailed run unfailed)
  · exact order
  · exact absurd failed unfailed

end Strand

namespace Server

variable {s s' : Server} {es es' : List Event} {i : Nat} {client : Client}

theorem serial_of_sound (sound : Sound es s) (is : s.clients[i]? = some client) :
    client.strand.Serial := by
  obtain ⟨past, run, -⟩ := (sound.lives i client is).runs
  exact Strand.serial_of_run run

/-- The client has its tasks in the second list too. -/
def KeepsTasks (i : Nat) (clients clients' : List Client) : Prop :=
  ∀ client, clients[i]? = some client →
    ∃ client', clients'[i]? = some client' ∧ client'.strand.tasks = client.strand.tasks

theorem KeepsTasks.refl (i : Nat) (clients : List Client) : KeepsTasks i clients clients :=
  fun client is => ⟨client, is, rfl⟩

theorem KeepsTasks.trans {clients clients' clients'' : List Client}
    (first : KeepsTasks i clients clients') (second : KeepsTasks i clients' clients'') :
    KeepsTasks i clients clients'' := by
  intro client is
  obtain ⟨client', is', same⟩ := first client is
  obtain ⟨client'', is'', same'⟩ := second client' is'
  exact ⟨client'', is'', same'.trans same⟩

theorem KeepsTasks.set {clients : List Client} {j : Nat} {old new : Client}
    (is : clients[j]? = some old) (same : new.strand.tasks = old.strand.tasks) (i : Nat) :
    KeepsTasks i clients (clients.set j new) := by
  intro client there
  have inside := (List.getElem?_eq_some_iff.mp is).1
  by_cases mine : j = i
  · subst mine
    cases is.symm.trans there
    exact ⟨new, List.getElem?_set_self inside, same⟩
  · exact ⟨client, (List.getElem?_set_ne mine).trans there, rfl⟩

/-- The client has its tasks, and what happened on it is none of their executions. -/
def Idles (s s' : Server) (es : List Event) (i : Nat) : Prop :=
  executions (own i es) = [] ∧ KeepsTasks i s.clients s'.clients

/-- The client takes a step of its own. -/
def Moves (s s' : Server) (es : List Event) (i : Nat) (a : Network.Action) : Prop :=
  ∃ client client', s.clients[i]? = some client ∧ s'.clients[i]? = some client' ∧
    Strand.Takes client.strand a client'.strand (own i es)

theorem quiet_on (events : List Network.Event) (quiet : executions events = []) (i j : Nat) :
    executions (own i (events.map (.on j))) = [] := by
  by_cases mine : j = i
  · rw [mine, own_on, quiet]
  · rw [own_on_of_ne mine]
    rfl

theorem drop_idles {j : Nat} (is : s.clients[j]? = some client)
    (drops : s.drop j client = some (s', es')) (i : Nat) : Idles s s' es' i := by
  rw [Server.drop] at drops
  split at drops
  case isFalse => cases drops
  case isTrue dropping =>
    cases found : Assoc.find client.fd s.connections with
    | none =>
      simp only [found] at drops
      cases drops
      exact ⟨rfl, .set is (by rfl) i⟩
    | some l =>
      simp only [found, Option.bind_eq_bind, Option.bind_eq_some_iff] at drops
      obtain ⟨other, there, drops⟩ := drops
      cases drops
      refine ⟨quiet_on _ ?_ i l, .trans (.set is ?_ i) (.set there ?_ i)⟩
      · cases busy : other.strand.conn.busy <;> simp [Connection.drop, busy, executions]
      all_goals rfl

/-- What a step of the server is to one of its clients. -/
theorem step_cases {a : Action} (steps : s.step a = some (s', es')) (i : Nat) :
    (Idles s s' es' i ∧ ∀ k move, a ≠ .on i (.work k move)) ∨
      ∃ a', a = .on i a' ∧ Moves s s' es' i a' := by
  cases a with
  | run | stop | destroy | drained | finish =>
    simp only [Server.step] at steps
    split_ifs at steps
    cases steps
    exact .inl ⟨⟨rfl, .refl i _⟩, by simp⟩
  | accept fd registered =>
    simp only [Server.step] at steps
    split_ifs at steps with ready registers
    · cases steps
      refine .inl ⟨⟨rfl, fun client is => ⟨client, ?_, rfl⟩⟩, by simp⟩
      exact (List.getElem?_append_left (List.getElem?_eq_some_iff.mp is).1).trans is
    · cases steps
      exact .inl ⟨⟨rfl, .refl i _⟩, by simp⟩
  | close fd =>
    simp only [Server.step] at steps
    split_ifs at steps with closing
    obtain ⟨j, found, same⟩ := Option.map_eq_some_iff.mp steps
    cases same
    exact .inl ⟨⟨quiet_on [.closed] rfl i j, .refl i _⟩, by simp⟩
  | on j a =>
    simp only [Server.step] at steps
    rw [Server.onClient, Option.bind_eq_bind, Option.bind_eq_some_iff] at steps
    obtain ⟨client, is, steps⟩ := steps
    split at steps
    · split at steps
      · cases steps
        exact .inl ⟨⟨quiet_on _ rfl i j, .set is (by rfl) i⟩, by simp⟩
      · cases steps
    · exact .inl ⟨drop_idles is steps i, by simp⟩
    · rw [Option.bind_eq_bind, Option.bind_eq_some_iff] at steps
      obtain ⟨⟨strand, events⟩, takes, steps⟩ := steps
      cases steps
      have inside := (List.getElem?_eq_some_iff.mp is).1
      by_cases mine : j = i
      · subst mine
        refine .inr ⟨a, rfl, client, _, is, List.getElem?_set_self inside, ?_⟩
        rw [own_on]
        exact Strand.step_takes takes
      · refine .inl ⟨⟨by rw [own_on_of_ne mine]; rfl, fun client' there => ?_⟩, ?_⟩
        · exact ⟨client', (List.getElem?_set_ne mine).trans there, rfl⟩
        · rintro k move ⟨⟩
          exact mine rfl

/-- A connection whose replies all got through has been served in order. -/
theorem inOrder_of_sound (sound : Sound es s) (is : s.clients[i]? = some client)
    (unfailed : .failed ∉ own i es) :
    Strand.InOrder (own i es) client.strand ∧
      lines (own i es) <+: framed (received (own i es)) := by
  obtain ⟨past, run, ⟨whole, -⟩ | ⟨closed, -⟩⟩ := (sound.lives i client is).runs
  · rw [whole] at unfailed ⊢
    exact ⟨Strand.inOrder_of_unfailed run unfailed, Strand.lines_prefix_of_run run⟩
  · rw [closed] at unfailed ⊢
    rw [List.mem_append, not_or] at unfailed
    refine ⟨(Strand.inOrder_of_unfailed run unfailed.1).keep rfl rfl rfl rfl rfl, ?_⟩
    rw [lines_append, received_append]
    simpa [lines, received] using Strand.lines_prefix_of_run run

theorem prefixes_of_sound (sound : Sound es s) (unfailed : .failed ∉ own i es) :
    queries (own i es) <+: lines (own i es) ∧ lines (own i es) <+: framed (received (own i es)) ∧
      sent (own i es) <+: replies (own i es) := by
  by_cases inside : i < s.clients.length
  · obtain ⟨inOrder, framed⟩ :=
      inOrder_of_sound sound (List.getElem?_eq_getElem inside) unfailed
    exact ⟨inOrder.cut.1, framed, inOrder.cut.2⟩
  · rw [sound.unborn i (not_lt.mp inside)]
    exact ⟨List.nil_prefix, List.nil_prefix, List.nil_prefix⟩

/-- A task of the connection is about to call `execute` or in it. -/
def Executing (s : Server) (i : Nat) (query : Str) : Prop :=
  ∃ (client : Client) (k : Nat), s.clients[i]? = some client ∧
    client.strand.tasks[k]? = some (.executing query)

end Server

section Service

variable [StdHash Str] [StdHash Int64]

/-- The queries, with the connections they came from. -/
def requests : Registry.System Catalog Table.Sound Str (Nat × Str) Str where
  lookup := Executor.system.lookup
  plan request := Executor.system.plan request.2
  lawful request := Executor.system.lawful request.2

/-- The server, and where its workers are with the queries they execute. -/
structure Service where
  server : Server
  executor : Registry.Config Nat Catalog Table.Sound (Nat × Str) Str

namespace Service

def fresh : Service := ⟨.fresh, .initial Database.empty⟩

/-- A step of the server, or of a worker in `execute`. -/
inductive Step (s : Service) : List Server.Event → Service → Prop where
  | serve {a server es} (other : ∀ i k reply, a ≠ .on i (.work k (.execute reply)))
      (takes : s.server.step a = some (server, es)) : Step s es { s with server }
  /-- A worker calls `execute`. -/
  | call {i query} (executing : s.server.Executing i query) (free : s.executor.phase i = .idle) :
      Step s [] { s with executor := {
        s.executor.enter i (.issued s.executor.history.length (i, query)) with
        history := s.executor.history ++ [.issue s.executor.history.length (i, query)] } }
  /-- A worker takes a section of its query. -/
  | work {executor} (steps : Registry.Step requests s.executor executor)
      (silent : executor.history = s.executor.history) : Step s [] { s with executor }
  /-- `execute` returns the reply. -/
  | answer {i k id reply server es} (is : s.executor.phase i = .answered id reply)
      (takes : s.server.step (.on i (.work k (.execute reply))) = some (server, es)) :
      Step s es ⟨server, { s.executor.enter i .idle with
        history := s.executor.history ++ [.reply id reply] }⟩

inductive Run : List Server.Event → Service → Prop where
  | start : Run [] fresh
  | next {es es' s s'} (before : Run es s) (steps : Step s es' s') : Run (es ++ es') s'

/-- A query of an order with its reply. -/
def exchange (e : Registry.Entry (Nat × Str) Str) : Str × Str := (e.op.2, e.reply)

/-- What the order holds for one connection. -/
def seen (i : Nat) (order : List (Registry.Entry (Nat × Str) Str)) : List (Str × Str) :=
  (order.filter fun e => e.op.1 = i).map exchange

variable {s s' : Service} {es es' : List Server.Event} {i : Nat}

/-- The two halves: each connection has executed the queries that replied to it, and a query
under way is the one a task of the connection executes. -/
structure Joined (es : List Server.Event) (s : Service)
    (done : Nat → List (Registry.Entry (Nat × Str) Str)) : Prop where
  sound : Server.Sound es s.server
  sessions : Registry.Sessions requests Prod.fst Database.empty s.executor done
  told : ∀ i, (done i).map exchange = executions (Server.own i es)
  busy : ∀ i id, (s.executor.phase i).current = some id →
    ∃ query, s.server.Executing i query ∧ .issue id (i, query) ∈ s.executor.history

theorem named_empty : Registry.WellNamed requests.lookup Database.empty :=
  Executor.sane_empty.named

namespace Joined

variable {done : Nat → List (Registry.Entry (Nat × Str) Str)}

theorem fresh : Joined [] Service.fresh fun _ => [] where
  sound := .fresh
  sessions := .start
  told _ := rfl
  busy _ _ none := nomatch none

/-- The executions of a connection are the same after a step that ends none. -/
theorem executing_of_step {a : Server.Action} {server : Server} (joined : Joined es s done)
    (takes : s.server.step a = some (server, es'))
    (other : ∀ k reply, a ≠ .on i (.work k (.execute reply))) :
    executions (Server.own i es') = [] ∧ ∀ query, s.server.Executing i query →
      server.Executing i query := by
  obtain ⟨⟨quiet, keeps⟩, -⟩ | ⟨a, rfl, client, client', is, is', moves⟩ :=
    Server.step_cases takes i
  · refine ⟨quiet, ?_⟩
    rintro query ⟨client, k, is, executing⟩
    obtain ⟨client', is', tasks⟩ := keeps client is
    exact ⟨client', k, is', tasks ▸ executing⟩
  · obtain ⟨quiet, keeps⟩ := Strand.executing_of_takes (Server.serial_of_sound joined.sound is)
      moves fun k reply is => other k reply (is ▸ rfl)
    refine ⟨quiet, ?_⟩
    rintro query ⟨client'', k, there, executing⟩
    cases is.symm.trans there
    exact ⟨client', k, is', keeps k query executing⟩

theorem serve {a : Server.Action} {server : Server} (joined : Joined es s done)
    (other : ∀ i k reply, a ≠ .on i (.work k (.execute reply)))
    (takes : s.server.step a = some (server, es')) :
    Joined (es ++ es') { s with server } done where
  sound := joined.sound.step takes
  sessions := joined.sessions
  told i := by
    rw [Server.own_append, executions_append, joined.told,
      (joined.executing_of_step takes (other i)).1, List.append_nil]
  busy i id is := by
    obtain ⟨query, executing, issued⟩ := joined.busy i id is
    exact ⟨query, (joined.executing_of_step takes (other i)).2 query executing, issued⟩

theorem call {query : Str} (joined : Joined es s done) (executing : s.server.Executing i query)
    (free : s.executor.phase i = .idle) :
    Joined (es ++ []) { s with executor := {
      s.executor.enter i (.issued s.executor.history.length (i, query)) with
      history := s.executor.history ++ [.issue s.executor.history.length (i, query)] } } done where
  sound := by rw [List.append_nil]; exact joined.sound
  sessions := joined.sessions.issue (i, query) free
  told := by rw [List.append_nil]; exact joined.told
  busy j id is := by
    by_cases mine : j = i
    · subst mine
      rw [s.executor.enter_self] at is
      cases is
      exact ⟨query, executing, List.mem_append_right _ (List.mem_singleton.mpr rfl)⟩
    · rw [s.executor.enter_of_ne mine] at is
      obtain ⟨query', executing', issued⟩ := joined.busy j id is
      exact ⟨query', executing', List.mem_append_left _ issued⟩

theorem work {executor : Registry.Config Nat Catalog Table.Sound (Nat × Str) Str}
    (joined : Joined es s done) (steps : Registry.Step requests s.executor executor)
    (silent : executor.history = s.executor.history) :
    Joined (es ++ []) { s with executor } done where
  sound := by rw [List.append_nil]; exact joined.sound
  sessions := joined.sessions.work steps silent
  told := by rw [List.append_nil]; exact joined.told
  busy j id is := by
    rw [Registry.current_of_silent steps silent] at is
    rw [silent]
    exact joined.busy j id is

theorem answer {k id : Nat} {reply : Str} {server : Server} (joined : Joined es s done)
    (is : s.executor.phase i = .answered id reply)
    (takes : s.server.step (.on i (.work k (.execute reply))) = some (server, es')) :
    ∃ query, Joined (es ++ es') ⟨server, { s.executor.enter i .idle with
      history := s.executor.history ++ [.reply id reply] }⟩
      (Function.update done i (done i ++ [⟨id, (i, query), reply⟩])) := by
  obtain ⟨query, ⟨client, k', there, executing⟩, issued⟩ := joined.busy i id (by rw [is]; rfl)
  have mine : executions (Server.own i es') = [(query, reply)] := by
    obtain ⟨-, other⟩ | ⟨a, same, client', after, is', -, moves⟩ := Server.step_cases takes i
    · exact absurd rfl (other k _)
    · cases same
      cases there.symm.trans is'
      have serial := Server.serial_of_sound joined.sound there
      rw [Strand.executed_of_takes serial moves executing]
      rfl
  have other {j : Nat} (differs : j ≠ i) (k' : Nat) (reply' : Str) :
      Server.Action.on i (.work k (.execute reply)) ≠ .on j (.work k' (.execute reply')) := by
    rintro ⟨⟩
    exact differs rfl
  refine ⟨query, joined.sound.step takes, joined.sessions.reply is issued, fun j => ?_, ?_⟩
  · rw [Server.own_append, executions_append, ← joined.told]
    by_cases same : j = i
    · rw [same, Function.update_self, mine, List.map_append]
      rfl
    · rw [Function.update_of_ne same, (joined.executing_of_step takes (other same)).1,
        List.append_nil]
  · intro j id' current
    by_cases same : j = i
    · subst same
      rw [s.executor.enter_self] at current
      cases current
    · rw [s.executor.enter_of_ne same] at current
      obtain ⟨query', executing', issued'⟩ := joined.busy j id' current
      exact ⟨query', (joined.executing_of_step takes (other same)).2 query' executing',
        List.mem_append_left _ issued'⟩

theorem step (joined : Joined es s done) (steps : Step s es' s') :
    ∃ done', Joined (es ++ es') s' done' := by
  cases steps with
  | serve other takes => exact ⟨done, joined.serve other takes⟩
  | call executing free => exact ⟨done, joined.call executing free⟩
  | work steps silent => exact ⟨done, joined.work steps silent⟩
  | answer is takes =>
    obtain ⟨query, joined'⟩ := joined.answer is takes
    exact ⟨_, joined'⟩

theorem of_run (run : Run es s) : ∃ done, Joined es s done := by
  induction run with
  | start => exact ⟨_, fresh⟩
  | next _ steps ih =>
    obtain ⟨done, joined⟩ := ih
    exact joined.step steps

end Joined

/-- The queries of a connection of which the order has one more than it was told have it in
execution. -/
theorem Joined.seen_cases {done : Nat → List (Registry.Entry (Nat × Str) Str)}
    {order : List (Registry.Entry (Nat × Str) Str)} (joined : Joined es s done)
    (lin : Registry.Linearizes requests Database.empty s.executor order)
    (own : order.filter (fun e => e.op.1 = i) = done i ∨
      ∃ e, s.executor.phase i = .answered e.id e.reply ∧
        order.filter (fun e => e.op.1 = i) = done i ++ [e]) :
    seen i order = executions (Server.own i es) ∨
      ∃ query reply, s.server.Executing i query ∧
        seen i order = executions (Server.own i es) ++ [(query, reply)] := by
  rw [seen, ← joined.told]
  obtain whole | ⟨e, is, more⟩ := own
  · exact .inl (by rw [whole])
  · obtain ⟨query, executing, issued⟩ := joined.busy i e.id (by rw [is]; rfl)
    have listed : e ∈ order :=
      List.mem_of_mem_filter (more ▸ List.mem_append_right _ (List.mem_singleton.mpr rfl))
    have op := lin.unique e.id e.op _ (lin.issued e listed) issued
    refine .inr ⟨query, e.reply, executing, ?_⟩
    rw [more, List.map_append, List.map_singleton, exchange, op]

/-- The order is a run of the database. -/
theorem runs {order : List (Registry.Entry (Nat × Str) Str)}
    (lin : Registry.Linearizes requests Database.empty s.executor order) :
    Machine.run Executor.execute Database.empty (order.map fun e => e.op.2) =
      some (s.executor.store, order.map Registry.Entry.reply) := by
  have replays := lin.replays
  rw [show order.map (fun e => e.op.2) = (order.map Registry.Entry.op).map Prod.snd by
    rw [List.map_map]; rfl, ← Machine.run_map]
  exact replays

open Relational in
/-- The order is a run of the database without tree, cache and catalog. -/
theorem replays {order : List (Registry.Entry (Nat × Str) Str)}
    (lin : Registry.Linearizes requests Database.empty s.executor order) :
    Machine.runTotal State.execute .empty (order.map fun e => e.op.2) =
      (State.of s.executor.store, order.map Registry.Entry.reply) := by
  have runs := runs lin
  have start : Represents Database.empty .empty := ⟨Executor.sane_empty, State.of_empty⟩
  obtain ⟨db, runs', represents⟩ := execute_simulates.run_eq (order.map fun e => e.op.2) start
  obtain ⟨rfl, replies⟩ := Prod.mk.inj (Option.some.inj (runs.symm.trans runs'))
  rw [represents.eq, replies]

open Relational in
/-- Whatever clients send, and however the network, the event loop and the sections of the
workers interleave: the queries executed on all connections are those of one run of the
database without tree, cache and catalog, with its replies, in an order that does not put a
query before one that had replied when it was called. Each connection was told its own part
of that run, but perhaps for one query it executes. As long as its replies get through, it
executes the first lines of its stream and sends the first bytes of their replies. -/
theorem service_linearizable (run : Run es s) :
    ∃ order : List (Registry.Entry (Nat × Str) Str),
      Machine.runTotal State.execute .empty (order.map fun e => e.op.2) =
        (State.of s.executor.store, order.map Registry.Entry.reply) ∧
      order.Pairwise (fun a b => ¬ Registry.Before s.executor.history b.id a.id) ∧
      ∀ i, (seen i order = executions (Server.own i es) ∨
          ∃ query reply, s.server.Executing i query ∧
            seen i order = executions (Server.own i es) ++ [(query, reply)]) ∧
        (.failed ∉ Server.own i es →
          queries (Server.own i es) <+: framed (received (Server.own i es)) ∧
          sent (Server.own i es) <+: replies (Server.own i es)) := by
  obtain ⟨done, joined⟩ := Joined.of_run run
  obtain ⟨order, lin, own⟩ := Registry.sessions_linearizable named_empty joined.sessions
  refine ⟨order, replays lin, lin.realtime, fun i => ⟨joined.seen_cases lin (own i), ?_⟩⟩
  intro unfailed
  obtain ⟨asked, queued, told⟩ := Server.prefixes_of_sound joined.sound unfailed
  exact ⟨asked.trans queued, told⟩

open Relational in
/-- Once the destructor has waited for the workers, no query is in execution on any connection.
Each was told its whole part of the run, and if no reply of it failed, then every line it had
queued was executed and every byte of the replies was sent. -/
theorem shutdown_loses_nothing (run : Run es s) (late : s.server.stage.late = true) :
    ∃ order : List (Registry.Entry (Nat × Str) Str),
      Machine.runTotal State.execute .empty (order.map fun e => e.op.2) =
        (State.of s.executor.store, order.map Registry.Entry.reply) ∧
      ∀ i, (∀ query, ¬ s.server.Executing i query) ∧
        seen i order = executions (Server.own i es) ∧
        (.failed ∉ Server.own i es →
          queries (Server.own i es) = lines (Server.own i es) ∧
          sent (Server.own i es) = replies (Server.own i es)) := by
  obtain ⟨done, joined⟩ := Joined.of_run run
  obtain ⟨order, lin, own⟩ := Registry.sessions_linearizable named_empty joined.sessions
  have drained := joined.sound.drained late
  have quiet (i : Nat) (query : Str) : ¬ s.server.Executing i query := by
    rintro ⟨client, k, is, executing⟩
    rw [drained client (List.mem_of_getElem? is)] at executing
    cases executing
  refine ⟨order, replays lin, fun i => ⟨quiet i, ?_, fun unfailed => ?_⟩⟩
  · obtain whole | ⟨query, reply, executing, -⟩ := joined.seen_cases lin (own i)
    · exact whole
    · exact absurd executing (quiet i query)
  · by_cases inside : i < s.server.clients.length
    · have is := List.getElem?_eq_getElem inside
      have none := drained _ (List.mem_of_getElem? is)
      have waits : s.server.clients[i].strand.loop = .waiting := by
        refine joined.sound.rests ?_ _ (List.mem_of_getElem? is)
        intro serving
        rw [serving] at late
        cases late
      have inOrder := (Server.inOrder_of_sound joined.sound is unfailed).1
      have serial := Server.serial_of_sound joined.sound is
      have crew := serial.crew
      rw [none, waits] at crew
      have idle := (serial.idle (Bool.toNat_eq_zero.mp crew.symm)).2.2
      constructor
      · simpa [Strand.inExecution, none, idle] using inOrder.inTurn
      · simpa [Strand.unsent, none] using inOrder.answered
    · rw [joined.sound.unborn i (not_lt.mp inside)]
      exact ⟨rfl, rfl⟩

/-- Go on with a list of actions of the server. -/
theorem Run.serves {server : Server} {actions : List Server.Action} (run : Run es s)
    (execs : exec Server.step s.server actions = some (server, es'))
    (other : ∀ a ∈ actions, ∀ i k reply, a ≠ .on i (.work k (.execute reply))) :
    Run (es ++ es') { s with server } := by
  induction actions generalizing s es es' with
  | nil =>
    cases execs
    rwa [List.append_nil]
  | cons a actions ih =>
    simp only [exec, Option.bind_eq_bind, Option.bind_eq_some_iff] at execs
    obtain ⟨⟨between, es₁⟩, takes, ⟨server', es₂⟩, execs, ends⟩ := execs
    cases ends
    rw [← List.append_assoc]
    have next := run.next (.serve (other a List.mem_cons_self) takes)
    exact ih (s := ⟨between, s.executor⟩) next execs fun a there => other a (List.mem_cons_of_mem _ there)

end Service

end Service

section Witness

open scoped OneBucket

namespace Service

/-- The query both clients send below, and the reply of the empty database to it. -/
def dropQuery : Str := "DROP TABLE t".toList

def dropReply : Str := "ERROR: no such table 't'".toList

variable {query : Str}

/-- The section of such a query on a database without tables. -/
theorem step_drop (compiles : Executor.compile query = .ok (.drop ⟨"t".toList⟩))
    (cfg : Registry.Config Nat Catalog Table.Sound (Nat × Str) Str) (i id : Nat)
    (is : cfg.phase i = .issued id (i, query))
    (absent : Database.getTable cfg.store.catalog "t".toList = none) :
    ∃ store, Registry.Step requests cfg { cfg.enter i (.answered id dropReply) with store } ∧
      Database.getTable store.catalog "t".toList = none := by
  have plan : requests.plan (i, query) =
      (Executor.run (.drop ⟨"t".toList⟩)).map Executor.reply :=
    Executor.plan_of_compile compiles
  have step := Registry.Step.catalog is plan
  have changes := Executor.runDrop_eq ⟨"t".toList⟩ cfg.store.catalog cfg.store.heap.length
  rw [absent] at changes
  simp only [Registry.Store.change, changes] at step
  refine ⟨_, step, ?_⟩
  rw [Database.getTable_erase, if_pos rfl]

/-- A worker calls `execute` with the query and has its reply. -/
theorem Run.drops {es : List Server.Event} {s : Service} (i : Nat) (run : Run es s)
    (compiles : Executor.compile query = .ok (.drop ⟨"t".toList⟩))
    (executing : s.server.Executing i query) (free : s.executor.phase i = .idle)
    (absent : Database.getTable s.executor.store.catalog "t".toList = none) :
    ∃ executor id, Run es ⟨s.server, executor⟩ ∧
      executor.phase = Function.update s.executor.phase i (.answered id dropReply) ∧
      Database.getTable executor.store.catalog "t".toList = none := by
  let id := s.executor.history.length
  obtain ⟨store, step, absent⟩ := step_drop compiles
    { s.executor.enter i (.issued id (i, query)) with
      history := s.executor.history ++ [.issue id (i, query)] } i id
    (s.executor.enter_self i _) absent
  have run := (run.next (.call executing free)).next (.work step rfl)
  rw [List.append_nil, List.append_nil] at run
  exact ⟨_, id, run, Function.update_idem .., absent⟩

theorem getTable_fresh (name : Str) :
    Database.getTable fresh.executor.store.catalog name = none := by
  simp [fresh, Registry.Config.initial, Database.empty, Database.getTable]

/-- Two connections send the query, and a task of each is about to execute it. -/
def twoRequests : List Server.Action :=
  [.run, .accept 7 true, .accept 8 true,
    .on 0 .readable, .on 0 (.read "DROP TABLE t\n".toList), .on 0 .wouldBlock, .on 0 .split,
    .on 0 .split, .on 0 .dispatch, .on 1 .readable, .on 1 (.read "DROP TABLE t\n".toList),
    .on 1 .wouldBlock, .on 1 .split, .on 1 .split, .on 1 .dispatch, .on 0 (.work 0 .start),
    .on 1 (.work 0 .start), .on 0 (.work 0 .drain), .on 1 (.work 0 .drain)]

theorem executing_of_tasks {server : Server} {i : Nat} {tasks : List (List Task)}
    (all : (server.clients.map fun client => client.strand.tasks) = tasks)
    (is : tasks[i]? = some [.executing query]) : server.Executing i query := by
  rw [← all, List.getElem?_map, Option.map_eq_some_iff] at is
  obtain ⟨client, there, tasks⟩ := is
  exact ⟨client, 0, there, by rw [tasks]; rfl⟩

/-- Both workers have had the section of their query. -/
theorem run_twoRequests :
    ∃ server es executor, exec Server.step .fresh twoRequests = some (server, es) ∧
      Run es ⟨server, executor⟩ ∧ (∃ id, executor.phase 0 = .answered id dropReply) ∧
      ∃ id, executor.phase 1 = .answered id dropReply := by
  have execs : ((exec Server.step .fresh twoRequests).map fun result =>
        (result.1.clients.map fun client => client.strand.tasks)) =
      some [[.executing dropQuery], [.executing dropQuery]] := by
    decide +kernel
  obtain ⟨⟨server, es⟩, execs, tasks⟩ := Option.map_eq_some_iff.mp execs
  obtain ⟨executor, first, run, phase, absent⟩ :=
    (Run.start.serves execs (by simp [twoRequests])).drops 1 Executor.compile_drop
      (executing_of_tasks tasks rfl) rfl (getTable_fresh _)
  obtain ⟨executor', second, run, phase', -⟩ :=
    run.drops 0 Executor.compile_drop (executing_of_tasks tasks rfl) (by rw [phase]; rfl) absent
  exact ⟨server, es, executor', execs, run, ⟨second, by rw [phase']; rfl⟩,
    first, by rw [phase', phase]; rfl⟩

/-- One worker goes on with its reply while the other is still in `execute`. -/
theorem service_linearizable_two_clients :
    ∃ es s, Run es s ∧ s.server.Executing 0 dropQuery ∧
      executions (Server.own 1 es) = [(dropQuery, dropReply)] ∧
      ∃ order : List (Registry.Entry (Nat × Str) Str),
        Machine.runTotal Relational.State.execute .empty (order.map fun e => e.op.2) =
          (Relational.State.of s.executor.store, order.map Registry.Entry.reply) ∧
        order.Pairwise (fun a b => ¬ Registry.Before s.executor.history b.id a.id) ∧
        ∀ i, (seen i order = executions (Server.own i es) ∨
            ∃ query reply, s.server.Executing i query ∧
              seen i order = executions (Server.own i es) ++ [(query, reply)]) ∧
          (.failed ∉ Server.own i es →
            queries (Server.own i es) <+: framed (received (Server.own i es)) ∧
            sent (Server.own i es) <+: replies (Server.own i es)) := by
  have answers : ((exec Server.step .fresh twoRequests).bind fun result =>
      (result.1.step (.on 1 (.work 0 (.execute dropReply)))).map fun after =>
        (after.1.clients.map fun client => client.strand.tasks,
          executions (Server.own 1 (result.2 ++ after.2)))) =
      some ([[.executing dropQuery], [.writing (dropReply ++ ['\n'])]],
        [(dropQuery, dropReply)]) := by
    decide +kernel
  obtain ⟨server, es, executor, execs, run, -, ⟨id, phase⟩⟩ := run_twoRequests
  rw [execs, Option.bind_some] at answers
  obtain ⟨⟨server', es'⟩, answers, ends⟩ := Option.map_eq_some_iff.mp answers
  obtain ⟨tasks, told⟩ := Prod.mk.inj ends
  have run := run.next (.answer phase answers)
  exact ⟨_, _, run, executing_of_tasks tasks rfl, told, service_linearizable run⟩

/-- The replies are sent, and the server is stopped and destroyed. -/
def shutdown : List Server.Action :=
  [.stop, .destroy, .on 0 (.work 0 (.send 20)), .on 1 (.work 0 (.send 25)),
    .on 1 (.work 0 .drain), .on 0 (.work 0 (.send 5)), .on 0 (.work 0 .drain), .drained, .close 7,
    .close 8, .finish]

theorem shutdown_loses_nothing_two_clients :
    ∃ es s, Run es s ∧ s.server.stage = .destroyed ∧
      executions (Server.own 0 es) = [(dropQuery, dropReply)] ∧ .failed ∉ Server.own 0 es ∧
      ∃ order : List (Registry.Entry (Nat × Str) Str),
        Machine.runTotal Relational.State.execute .empty (order.map fun e => e.op.2) =
          (Relational.State.of s.executor.store, order.map Registry.Entry.reply) ∧
        ∀ i, (∀ query, ¬ s.server.Executing i query) ∧
          seen i order = executions (Server.own i es) ∧
          (.failed ∉ Server.own i es →
            queries (Server.own i es) = lines (Server.own i es) ∧
            sent (Server.own i es) = replies (Server.own i es)) := by
  have ends : ((exec Server.step .fresh twoRequests).bind fun result =>
      (result.1.step (.on 1 (.work 0 (.execute dropReply)))).bind fun first =>
      (first.1.step (.on 0 (.work 0 (.execute dropReply)))).bind fun second =>
      (exec Server.step second.1 shutdown).map fun last =>
        (last.1.stage, executions (Server.own 0 (result.2 ++ first.2 ++ second.2 ++ last.2)),
          decide (.failed ∉ Server.own 0 (result.2 ++ first.2 ++ second.2 ++ last.2)))) =
      some (.destroyed, [(dropQuery, dropReply)], true) := by
    decide +kernel
  obtain ⟨server, es, executor, execs, run, ⟨id, phase⟩, ⟨id', phase'⟩⟩ := run_twoRequests
  rw [execs, Option.bind_some, Option.bind_eq_some_iff] at ends
  obtain ⟨⟨server₁, es₁⟩, first, ends⟩ := ends
  rw [Option.bind_eq_some_iff] at ends
  obtain ⟨⟨server₂, es₂⟩, second, ends⟩ := ends
  obtain ⟨⟨server₃, es₃⟩, last, ends⟩ := Option.map_eq_some_iff.mp ends
  obtain ⟨gone, ends⟩ := Prod.mk.inj ends
  obtain ⟨told, unfailed⟩ := Prod.mk.inj ends
  have run := ((run.next (.answer phase' first)).next
    (.answer (i := 0) phase second)).serves last (by simp [shutdown])
  exact ⟨_, _, run, gone, told, of_decide_eq_true unfailed,
    shutdown_loses_nothing run (by rw [gone]; rfl)⟩

end Service

end Witness

end CppDB.Network
