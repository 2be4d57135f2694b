import CppDB.Network.Service

/-! The workers finish. When the event loop queues nothing more, whatever the workers do in
whatever order, retries on sockets that take no byte apart, ends with every query executed and
answered; this is what the destructor waits for. -/
namespace CppDB.Network

open Trace

/-! ### One connection -/

/-- How far a task is from its end, but for the queries that wait and what happens within
`execute` and `writeAll`. -/
def Task.weight : Task → Nat
  | .submitted => 2
  | .draining => 1
  | .executing _ => 3
  | .writing _ => 2
  | .failing => 1

/-- What is left to do in `execute`, where `sections` are, and in `writeAll`. -/
def Task.left (sections : Nat) : Task → Nat
  | .executing _ => sections
  | .writing rest => rest.length
  | _ => 0

namespace Strand

def weight (s : Strand) : Nat := 3 * s.conn.pending.length + (s.tasks.map Task.weight).sum

def left (sections : Nat) (s : Strand) : Nat := (s.tasks.map (Task.left sections)).sum

variable {s s' : Strand} {a : Action} {es es' : List Event} {k : Nat}

theorem left_of_executing {query : Str} (serial : s.Serial)
    (executing : s.tasks[k]? = some (.executing query)) (sections : Nat) :
    s.left sections = sections := by
  obtain ⟨-, tasks, -⟩ := serial.sole executing
  simp [left, tasks, Task.left]

theorem less_of_takes {move : Move} (serial : s.Serial) (takes : Takes s (.work k move) s' es')
    (moves : move ≠ .stall) :
    s'.weight < s.weight ∨
      s'.weight = s.weight ∧ ∀ sections sections', s'.left sections < s.left sections' := by
  cases takes with
  | stall => exact absurd rfl moves
  | start is | execute is | fail is =>
    obtain ⟨rfl, tasks, -⟩ := serial.sole is
    refine .inl ?_
    simp [weight, tasks, setTask, Task.weight]
  | exit is empty =>
    obtain ⟨rfl, tasks, -⟩ := serial.sole is
    refine .inl ?_
    simp [weight, tasks, Task.weight]
  | abort is =>
    obtain ⟨rfl, tasks, -⟩ := serial.sole is
    refine .inl ?_
    simp [weight, tasks, Task.weight]
  | pop is next =>
    obtain ⟨rfl, tasks, -⟩ := serial.sole is
    refine .inl ?_
    simp [weight, tasks, next, setTask, Task.weight]
    omega
  | @send _ rest n is nonempty fits =>
    obtain ⟨rfl, tasks, -⟩ := serial.sole is
    by_cases all : n = rest.length
    · refine .inl ?_
      simp [weight, tasks, setTask, all, Task.weight]
    · refine .inr ⟨?_, fun sections sections' => ?_⟩
      · simp [weight, tasks, setTask, all, Task.weight]
      · simp [left, tasks, setTask, all, Task.left]
        omega

/-- `writeAll` is left once the last byte is sent. -/
def Writes (s : Strand) : Prop := ∀ rest, .writing rest ∈ s.tasks → rest ≠ []

theorem writes_setTask {task : Task} (writes : s.Writes)
    (sane : ∀ rest, task = .writing rest → rest ≠ []) (k : Nat) : (s.setTask k task).Writes := by
  intro rest there
  obtain there | same := List.mem_or_eq_of_mem_set there
  · exact writes rest there
  · exact sane rest same.symm

theorem writes_step (writes : s.Writes) (takes : Takes s a s' es') : s'.Writes := by
  cases takes with
  | readable | read | interrupted | wouldBlock | peerClosed | noNewline | blank | overLimit
  | queue | drop | dropped | stall => exact writes
  | @dispatch wakes =>
    cases wakes
    · exact writes
    · intro rest there
      obtain there | new := List.mem_append.mp there
      · exact writes rest there
      · cases List.mem_singleton.mp new
  | start | fail => exact writes_setTask writes (by simp) _
  | pop => exact writes_setTask (s := { s with conn := _ }) writes (by simp) _
  | execute => exact writes_setTask writes (by simp) _
  | @send _ rest n is nonempty fits =>
    refine writes_setTask writes ?_ _
    intro rest' is
    split_ifs at is with all
    cases is
    rw [Ne, List.drop_eq_nil_iff]
    omega
  | exit | abort => exact fun rest there => writes rest (List.mem_of_mem_eraseIdx there)

theorem writes_of_run {guard : List Event → Strand → Action → Prop}
    (run : Run step guard Strand.fresh es s) : s.Writes :=
  run.invariant (fun _ s => s.Writes) (fun _ none => nomatch none)
    fun writes _ takes => writes_step writes (step_takes takes)

/-- A task that is not in `execute` can go on. -/
theorem exists_work (writes : s.Writes) {task : Task} (is : s.tasks[k]? = some task)
    (other : ∀ query, task ≠ .executing query) :
    ∃ move, (s.step (.work k move)).isSome = true ∧ move ≠ .stall ∧ move ≠ .fail ∧
      ∀ reply, move ≠ .execute reply := by
  cases task with
  | submitted => exact ⟨.start, by simp [step, work, is], by simp, by simp, by simp⟩
  | draining =>
    refine ⟨.drain, ?_, by simp, by simp, by simp⟩
    cases next : s.conn.pending <;> simp [step, work, is, next]
  | executing query => exact absurd rfl (other query)
  | writing rest =>
    have nonempty := List.length_pos_iff.mpr (writes rest (List.mem_of_getElem? is))
    have fits : 0 < 1 ∧ 1 ≤ rest.length := ⟨Nat.one_pos, nonempty⟩
    refine ⟨.send 1, ?_, by simp, by simp, by simp⟩
    simp only [step, work, is, if_pos fits, Option.isSome_some]
  | failing => exact ⟨.abort, by simp [step, work, is], by simp, by simp, by simp⟩

end Strand

/-! ### The server -/

namespace Server

variable {s s' : Server} {es' : List Event} {i k : Nat} {move : Move}

/-- A step of a task is one of its connection, and no other connection is touched. -/
theorem step_work : s.step (.on i (.work k move)) = some (s', es') ↔
    ∃ client strand events, s.clients[i]? = some client ∧
      client.strand.step (.work k move) = some (strand, events) ∧
      s.update i client.fd { client with strand } events = (s', es') := by
  simp only [Server.step, onClient, Option.bind_eq_bind, Option.bind_eq_some_iff, Prod.exists,
    Option.pure_def, Option.some.injEq]
  constructor
  · rintro ⟨client, is, strand, events, takes, ends⟩
    exact ⟨client, strand, events, is, takes, ends⟩
  · rintro ⟨client, strand, events, is, takes, ends⟩
    exact ⟨client, is, strand, events, takes, ends⟩

theorem unfailed_on {events : List Network.Event} (unfailed : .failed ∉ events) (i j : Nat) :
    .failed ∉ own i (events.map (.on j)) := by
  by_cases mine : j = i
  · rwa [mine, own_on]
  · rw [own_on_of_ne mine]
    exact List.not_mem_nil

end Server

/-! ### The workers -/

namespace Service

variable [StdHash Str] [StdHash Int64] {s s' : Service} {es es' : List Server.Event} {i k : Nat}

/-- A step of a worker that gets on with its task. -/
inductive Advances (s : Service) : List Server.Event → Service → Prop where
  | task {i k move server es} (moves : move ≠ .stall) (other : ∀ reply, move ≠ .execute reply)
      (takes : s.server.step (.on i (.work k move)) = some (server, es)) :
      Advances s es { s with server }
  | call {i query} (executing : s.server.Executing i query) (free : s.executor.phase i = .idle) :
      Advances s [] { s with executor := {
        s.executor.enter i (.issued s.executor.history.length (i, query)) with
        history := s.executor.history ++ [.issue s.executor.history.length (i, query)] } }
  | work {executor} (steps : Registry.Step requests s.executor executor)
      (silent : executor.history = s.executor.history) : Advances s [] { s with executor }
  | answer {i k id reply server es} (is : s.executor.phase i = .answered id reply)
      (takes : s.server.step (.on i (.work k (.execute reply))) = some (server, es)) :
      Advances s es ⟨server, { s.executor.enter i .idle with
        history := s.executor.history ++ [.reply id reply] }⟩

/-- A retry in `writeAll`: `send` was interrupted, or the socket took nothing and was polled. -/
inductive Retries (s : Service) : List Server.Event → Service → Prop where
  | stall {i k server es} (takes : s.server.step (.on i (.work k .stall)) = some (server, es)) :
      Retries s es { s with server }

/-- A step of a worker. -/
def Works (s : Service) (es : List Server.Event) (s' : Service) : Prop :=
  Advances s es s' ∨ Retries s es s'

theorem step_of_advances (advances : Advances s es' s') : Step s es' s' := by
  cases advances with
  | task moves other takes =>
    refine .serve ?_ takes
    rintro i k reply ⟨⟩
    exact other reply rfl
  | call executing free => exact .call executing free
  | work steps silent => exact .work steps silent
  | answer is takes => exact .answer is takes

theorem step_of_works (works : Works s es' s') : Step s es' s' := by
  obtain advances | retries := works
  · exact step_of_advances advances
  · cases retries with
    | stall takes =>
      refine .serve ?_ takes
      rintro i k reply ⟨⟩

/-- A retry leaves everything as it is. -/
theorem eq_of_retries (retries : Retries s es' s') : s' = s := by
  cases retries with
  | stall takes =>
    obtain ⟨client, strand, events, is, moved, ends⟩ := Server.step_work.mp takes
    cases Strand.step_takes moved
    cases ends
    obtain ⟨inside, rfl⟩ := List.getElem?_eq_some_iff.mp is
    have same := List.set_getElem_self inside
    exact congrArg (fun clients => { s with server := { s.server with clients } }) same

/-- Where the workers can have come to. -/
def Reaches : Service → Service → Prop := Relation.ReflTransGen fun s s' => ∃ es, Works s es s'

/-- The weight of a connection, and what is left in the function its task is in. -/
def weightAt (s : Service) (i : Nat) : Nat :=
  (s.server.clients[i]?.map fun client => client.strand.weight).getD 0

def leftAt (s : Service) (i : Nat) : Nat :=
  (s.server.clients[i]?.map fun client => client.strand.left (s.executor.phase i).left).getD 0

/-- How much the workers have to do. A reply is as long as it is, so what is sent counts less
than any step from one function to the next. -/
def load (s : Service) : Nat ×ₗ Nat :=
  toLex (∑ i ∈ Finset.range s.server.clients.length, s.weightAt i,
    ∑ i ∈ Finset.range s.server.clients.length, s.leftAt i)

/-- One connection comes closer to its end, and the others stay where they are. -/
theorem load_lt (inside : i < s.server.clients.length)
    (length : s'.server.clients.length = s.server.clients.length)
    (others : ∀ j, j ≠ i → s'.weightAt j = s.weightAt j ∧ s'.leftAt j = s.leftAt j)
    (less : s'.weightAt i < s.weightAt i ∨
      s'.weightAt i = s.weightAt i ∧ s'.leftAt i < s.leftAt i) : s'.load < s.load := by
  have one (f f' : Nat → Nat) (others : ∀ j, j ≠ i → f' j = f j) (less : f' i < f i) :
      ∑ j ∈ Finset.range s.server.clients.length, f' j <
        ∑ j ∈ Finset.range s.server.clients.length, f j := by
    refine Finset.sum_lt_sum (fun j _ => ?_) ⟨i, Finset.mem_range.mpr inside, less⟩
    by_cases same : j = i
    · rw [same]
      exact less.le
    · exact (others j same).le
  rw [load, load, Prod.Lex.toLex_lt_toLex, length]
  obtain less | ⟨same, less⟩ := less
  · exact .inl (one _ _ (fun j other => (others j other).1) less)
  · have weights (j : Nat) : s'.weightAt j = s.weightAt j := by
      by_cases is : j = i
      · rw [is, same]
      · exact (others j is).1
    simp only [weights]
    exact .inr ⟨trivial, one _ _ (fun j other => (others j other).2) less⟩

variable {done : Nat → List (Registry.Entry (Nat × Str) Str)}

/-- A task goes on; where its worker is with the query may change with it. -/
theorem load_of_task {move : Move} {server : Server}
    {executor : Registry.Config Nat Catalog Table.Sound (Nat × Str) Str}
    (joined : Joined es s done)
    (takes : s.server.step (.on i (.work k move)) = some (server, es')) (moves : move ≠ .stall)
    (phases : ∀ j, j ≠ i → executor.phase j = s.executor.phase j) :
    load ⟨server, executor⟩ < s.load := by
  obtain ⟨client, strand, events, is, moved, ends⟩ := Server.step_work.mp takes
  cases ends
  have inside := (List.getElem?_eq_some_iff.mp is).1
  have serial := Server.serial_of_sound joined.sound is
  refine load_lt inside List.length_set (fun j other => ?_) ?_
  · simp only [weightAt, leftAt, List.getElem?_set_ne (Ne.symm other), phases j other, and_self]
  · simp only [weightAt, leftAt, List.getElem?_set_self inside, is, Option.map_some, Option.getD_some]
    exact (Strand.less_of_takes serial (Strand.step_takes moved) moves).imp_right
      fun both => ⟨both.1, both.2 _ _⟩

/-- A worker gets on within `execute`. -/
theorem load_of_section {query : Str}
    {executor : Registry.Config Nat Catalog Table.Sound (Nat × Str) Str}
    (joined : Joined es s done) (executing : s.server.Executing i query)
    (phases : ∀ j, j ≠ i → executor.phase j = s.executor.phase j)
    (less : (executor.phase i).left < (s.executor.phase i).left) :
    load { s with executor } < s.load := by
  obtain ⟨client, k, is, executing⟩ := executing
  have serial := Server.serial_of_sound joined.sound is
  refine load_lt (List.getElem?_eq_some_iff.mp is).1 rfl (fun j other => ?_) (.inr ⟨rfl, ?_⟩)
  · simp only [weightAt, leftAt, phases j other, and_self]
  · simpa only [leftAt, is, Option.map_some, Option.getD_some,
      Strand.left_of_executing serial executing] using less

theorem load_of_advances (joined : Joined es s done) (advances : Advances s es' s') :
    s'.load < s.load := by
  cases advances with
  | task moves other takes => exact load_of_task joined takes moves fun _ _ => rfl
  | answer is takes =>
    exact load_of_task joined takes (by simp) fun j other => s.executor.enter_of_ne other _
  | call executing free =>
    refine load_of_section joined executing (fun j other => s.executor.enter_of_ne other _) ?_
    simp [s.executor.enter_self, free, Registry.Phase.left]
  | @work executor steps silent =>
    have goes {c id : Nat} {phase : Registry.Phase (Nat × Str) Str}
        (current : (s.executor.phase c).current = some id)
        (phases : executor.phase = Function.update s.executor.phase c phase)
        (less : phase.left < (s.executor.phase c).left) : load { s with executor } < s.load := by
      obtain ⟨query, executing, -⟩ := joined.busy c id current
      refine load_of_section joined executing (fun j other => ?_) ?_
      · rw [phases, Function.update_of_ne other]
      · rwa [phases, Function.update_self]
    cases steps with
    | issue | reply => simp at silent
    | catalog is | miss is | find is | act is =>
      exact goes (by rw [is]; rfl) rfl (by simp [is, Registry.Phase.left])

/-- Some worker can get on with its task, and it is no reply that fails. -/
def GoesOn (s : Service) : Prop :=
  ∃ es s', Advances s es s' ∧ ∀ i, .failed ∉ Server.own i es

/-- A worker in `execute` can go on. -/
theorem goesOn_of_executing (joined : Joined es s done) {client : Client} {query : Str}
    (is : s.server.clients[i]? = some client)
    (executing : client.strand.tasks[k]? = some (.executing query)) : s.GoesOn := by
  obtain ⟨order, lin⟩ := Registry.Linearizes.run named_empty joined.sessions.reaches
  have within {s'} (advances : Advances s [] s') : s.GoesOn :=
    ⟨[], s', advances, fun _ => List.not_mem_nil⟩
  cases phase : s.executor.phase i with
  | idle => exact within (.call ⟨client, k, is, executing⟩ phase)
  | issued id o =>
    cases plans : requests.plan o with
    | catalog change => exact within (.work (.catalog phase plans) rfl)
    | object name missing act =>
      cases found : requests.lookup s.executor.store.catalog name with
      | none => exact within (.work (.miss phase plans found) rfl)
      | some h => exact within (.work (.find phase plans found) rfl)
  | holding id o h =>
    obtain ⟨name, missing, act, plans, fits⟩ := lin.held i id o h phase
    have inside := fits.inside named_empty lin.replays
    exact within (.work (.act phase plans (List.getElem?_eq_getElem inside)) rfl)
  | answered id reply =>
    have returns : client.strand.step (.work k (.execute reply)) =
        some (client.strand.setTask k (.writing (reply ++ ['\n'])), [.executed query reply]) := by
      simp only [Strand.step, Strand.work, executing]
    exact ⟨_, _, .answer phase (Server.step_work.mpr ⟨client, _, _, is, returns, rfl⟩),
      fun j => Server.unfailed_on (by simp) j i⟩

theorem goesOn_of_busy (joined : Joined es s done) {client : Client}
    (is : s.server.clients[i]? = some client) (busy : client.strand.tasks ≠ []) : s.GoesOn := by
  obtain ⟨task, rest, tasks⟩ := List.exists_cons_of_ne_nil busy
  have first : client.strand.tasks[0]? = some task := by rw [tasks]; rfl
  by_cases executing : ∃ query, task = .executing query
  · obtain ⟨query, rfl⟩ := executing
    exact goesOn_of_executing joined is first
  · obtain ⟨past, run, -⟩ := (joined.sound.lives i client is).runs
    obtain ⟨move, goes, moves, through, other⟩ :=
      Strand.exists_work (Strand.writes_of_run run) first fun query same => executing ⟨query, same⟩
    obtain ⟨⟨strand, events⟩, takes⟩ := Option.isSome_iff_exists.mp goes
    have unfailed : .failed ∉ events :=
      Strand.unfailed_of_takes (Strand.step_takes takes) fun k same => through (by cases same; rfl)
    exact ⟨_, _, .task moves other (Server.step_work.mpr ⟨client, strand, events, is, takes, rfl⟩),
      fun j => Server.unfailed_on unfailed j i⟩

/-- The event loop is not woken by a worker. -/
theorem resting_of_task {move : Move} {server : Server} (rests : s.server.Resting)
    (takes : s.server.step (.on i (.work k move)) = some (server, es')) : server.Resting := by
  obtain ⟨client, strand, events, is, moved, ends⟩ := Server.step_work.mp takes
  cases ends
  intro other there
  obtain there | rfl := List.mem_or_eq_of_mem_set there
  · exact rests other there
  · exact (Strand.waits_of_takes (rests client (List.mem_of_getElem? is)) (by simp)
      (Strand.step_takes moved)).1

theorem resting_of_reaches (rests : s.server.Resting) (reaches : Reaches s s') :
    s'.server.Resting := by
  induction reaches with
  | refl => exact rests
  | tail _ works ih =>
    obtain ⟨es, advances | retries⟩ := works
    · cases advances with
      | task _ _ takes | answer _ takes => exact resting_of_task ih takes
      | call | work => exact ih
    · rwa [eq_of_retries retries]

theorem Run.reaches (run : Run es s) (reaches : Reaches s s') : ∃ es', Run es' s' := by
  induction reaches with
  | refl => exact ⟨es, run⟩
  | tail _ works ih =>
    obtain ⟨es', run⟩ := ih
    obtain ⟨es'', works⟩ := works
    exact ⟨_, run.next (step_of_works works)⟩

/-- Of the steps of a run that does not end, all but finitely many are retries. -/
theorem retries_of_endless (run : Run es s) {states : Nat → Service} (starts : states 0 = s)
    (works : ∀ n, ∃ es', Works (states n) es' (states (n + 1))) :
    ∃ n, ∀ m, n ≤ m → (∃ es', Retries (states m) es' (states (m + 1))) ∧ states m = states n := by
  have reached (n : Nat) : Reaches s (states n) := by
    induction n with
    | zero => exact starts ▸ .refl
    | succ n ih => exact ih.tail (works n)
  -- a step lowers what is left to do, or is a retry and changes nothing
  refine Machine.eventually_idle load fun n => ?_
  obtain ⟨es', run'⟩ := run.reaches (reached n)
  obtain ⟨done, joined⟩ := Joined.of_run run'
  obtain ⟨es'', advances | retries⟩ := works n
  · exact .inl (load_of_advances joined advances)
  · exact .inr ⟨⟨es'', retries⟩, eq_of_retries retries⟩

/-- In whatever state the event loop stops queueing lines, and in whatever order the workers
then take their steps: a run that does not end consists from some point on of retries in
`writeAll`, which change nothing. Wherever the workers have come to, one of them can get on
without failing unless every task has ended and every queue is empty. So if no socket refuses
its bytes for ever, every query that was queued is executed and its reply written or failed,
and the destructor returns. -/
theorem workers_finish (run : Run es s) (rests : s.server.Resting) :
    (∀ states : Nat → Service, states 0 = s →
        (∀ n, ∃ es', Works (states n) es' (states (n + 1))) →
        ∃ n, ∀ m, n ≤ m →
          (∃ es', Retries (states m) es' (states (m + 1))) ∧ states m = states n) ∧
      ∀ s', Reaches s s' → s'.GoesOn ∨
        ∀ client ∈ s'.server.clients, client.strand.tasks = [] ∧ client.strand.conn.pending = [] := by
  refine ⟨fun states starts works => retries_of_endless run starts works, fun s' reaches => ?_⟩
  obtain ⟨es', run'⟩ := run.reaches reaches
  obtain ⟨done, joined⟩ := Joined.of_run run'
  by_cases busy : ∃ client ∈ s'.server.clients, client.strand.tasks ≠ []
  · obtain ⟨client, there, busy⟩ := busy
    obtain ⟨i, is⟩ := List.mem_iff_getElem?.mp there
    exact .inl (goesOn_of_busy joined is busy)
  · simp only [not_exists, not_and, not_not] at busy
    refine .inr fun client there => ⟨busy client there, ?_⟩
    obtain ⟨i, is⟩ := List.mem_iff_getElem?.mp there
    have serial := Server.serial_of_sound joined.sound is
    have crew := serial.crew
    rw [busy client there, resting_of_reaches rests reaches client there] at crew
    exact (serial.idle (Bool.toNat_eq_zero.mp crew.symm)).2.2

end Service

section Witness

open scoped OneBucket

/-- Two tasks are about to execute a query. -/
theorem workers_finish_two_clients :
    ∃ es s, Service.Run es s ∧ s.server.Resting ∧
      (∃ client ∈ s.server.clients, client.strand.tasks ≠ []) ∧
      (∀ states : Nat → Service, states 0 = s →
        (∀ n, ∃ es', Service.Works (states n) es' (states (n + 1))) →
        ∃ n, ∀ m, n ≤ m →
          (∃ es', Service.Retries (states m) es' (states (m + 1))) ∧ states m = states n) ∧
      ∀ s', s.Reaches s' → s'.GoesOn ∨
        ∀ client ∈ s'.server.clients, client.strand.tasks = [] ∧ client.strand.conn.pending = [] := by
  have execs : ((exec Server.step .fresh Service.twoRequests).map fun result =>
      (decide result.1.Resting, result.1.clients.map fun client => client.strand.tasks)) =
        some (true, [[.executing Service.dropQuery], [.executing Service.dropQuery]]) := by
    decide +kernel
  obtain ⟨⟨server, es⟩, execs, ends⟩ := Option.map_eq_some_iff.mp execs
  obtain ⟨rests, tasks⟩ := Prod.mk.inj ends
  have run := Service.Run.start.serves execs (by simp [Service.twoRequests])
  have busy : ∃ client ∈ server.clients, client.strand.tasks ≠ [] := by
    have listed : [.executing Service.dropQuery] ∈
        server.clients.map fun client => client.strand.tasks := by
      rw [tasks]
      exact List.mem_cons_self
    obtain ⟨client, there, is⟩ := List.mem_map.mp listed
    exact ⟨client, there, by rw [is]; simp⟩
  exact ⟨_, _, run, of_decide_eq_true rests, busy,
    Service.workers_finish run (of_decide_eq_true rests)⟩

end Witness

end CppDB.Network
