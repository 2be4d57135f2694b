import CppDB.Network.Framing

/-! The strand of a connection. One task at a time drains the queue, `busy` tells when
there is one, and while every reply gets through, queries are executed and answered in the
order their lines arrived. -/
namespace CppDB.Network

open Trace

/-- The loop has set `busy` and has yet to dispatch. -/
def Loop.shouldDispatch : Loop → Bool
  | .splitting _ shouldDispatch => shouldDispatch
  | .dispatching shouldDispatch _ => shouldDispatch
  | _ => false

/-- The next turn of the splitting loop queues a line on an idle connection. -/
def Connection.wakes (conn : Connection) : Bool :=
  match conn.nextLine with
  | (_, .queued _ wakes) => wakes
  | _ => false

def Task.query : Task → List Str
  | .executing query => [query]
  | _ => []

def Task.rest : Task → Str
  | .writing rest => rest
  | _ => []

namespace Strand

/-- The queries being executed. -/
def inExecution (s : Strand) : List Str := s.tasks.flatMap Task.query

/-- What is left to send of the replies. -/
def unsent (s : Strand) : Str := s.tasks.flatMap Task.rest

/-! ### One task at a time -/

/-- The tasks and the one about to be dispatched are one if the connection is busy, and
none otherwise; nobody needs to drain an empty queue. -/
structure Serial (s : Strand) : Prop where
  crew : s.tasks.length + s.loop.shouldDispatch.toNat = s.conn.busy.toNat
  served : s.conn.pending ≠ [] → s.conn.busy = true

variable {s s' : Strand} {a : Action} {es es' : List Event} {k : Nat} {task : Task}

@[simp] theorem conn_setTask (s : Strand) (k : Nat) (task : Task) :
    (s.setTask k task).conn = s.conn := rfl

theorem tasks_setTask {task' : Task} (tasks : s.tasks = [task]) :
    (s.setTask 0 task').tasks = [task'] := by
  rw [setTask, tasks]
  rfl

namespace Serial

theorem fresh : Strand.fresh.Serial := ⟨rfl, fun waiting => absurd rfl waiting⟩

/-- A task is the only one, and the loop does not start another. -/
theorem sole (serial : s.Serial) (is : s.tasks[k]? = some task) :
    k = 0 ∧ s.tasks = [task] ∧ s.loop.shouldDispatch = false ∧ s.conn.busy = true := by
  have crew := serial.crew
  have inside : k < s.tasks.length := (List.getElem?_eq_some_iff.mp is).1
  have one := Bool.toNat_le s.conn.busy
  have alone : s.tasks.length = 1 := by omega
  obtain ⟨only, tasks⟩ := List.length_eq_one_iff.mp alone
  have first : k = 0 := by omega
  rw [tasks, first] at is
  refine ⟨first, ?_, ?_, ?_⟩
  · rw [tasks, Option.some.inj is]
  · cases wakes : s.loop.shouldDispatch
    · rfl
    · simp only [wakes, Bool.toNat_true] at crew
      omega
  · cases busy : s.conn.busy
    · simp only [busy, Bool.toNat_false] at crew
      omega
    · rfl

/-- Nothing is left to do for a connection that is not busy. -/
theorem idle (serial : s.Serial) (idle : s.conn.busy = false) :
    s.tasks = [] ∧ s.loop.shouldDispatch = false ∧ s.conn.pending = [] := by
  have crew := serial.crew
  simp only [idle, Bool.toNat_false, Nat.add_eq_zero_iff, List.length_eq_zero_iff,
    Bool.toNat_eq_zero] at crew
  refine ⟨crew.1, crew.2, ?_⟩
  by_contra waiting
  exact absurd (serial.served waiting) (by rw [idle]; exact Bool.false_ne_true)

theorem step (serial : s.Serial) (takes : Takes s a s' es') : s'.Serial := by
  have crew := serial.crew
  have served := serial.served
  cases takes with
  | readable waits => exact ⟨by simpa [waits, Loop.shouldDispatch] using crew, served⟩
  | read => exact ⟨crew, served⟩
  | interrupted => exact serial
  | wouldBlock reads => exact ⟨by simpa [reads, Loop.shouldDispatch] using crew, served⟩
  | peerClosed reads => exact ⟨by simpa [reads, Loop.shouldDispatch] using crew, served⟩
  | noNewline splits => exact ⟨by simpa [splits, Loop.shouldDispatch] using crew, served⟩
  | blank => exact ⟨crew, served⟩
  | overLimit splits => exact ⟨by simpa [splits, Loop.shouldDispatch] using crew, served⟩
  | @queue gone wakes raw inbox splits =>
    refine ⟨?_, fun _ => rfl⟩
    -- on an idle connection this turn decides to dispatch, on a busy one nothing changes
    simp only [splits, Loop.shouldDispatch] at crew ⊢
    cases busy : s.conn.busy <;> cases wakes <;> simp_all
  | @dispatch wakes gone dispatches =>
    refine ⟨?_, served⟩
    simp only [dispatches, Loop.shouldDispatch] at crew
    cases wakes <;> cases gone <;> simpa [Loop.shouldDispatch] using crew
  | drop drops => exact ⟨by simpa [drops, Loop.shouldDispatch] using crew, served⟩
  | dropped drops => exact ⟨by simpa [drops, Loop.shouldDispatch] using crew, served⟩
  | exit is empty =>
    obtain ⟨rfl, tasks, quiet, -⟩ := serial.sole is
    refine ⟨by simp [tasks, quiet], fun waiting => absurd empty waiting⟩
  | abort is =>
    obtain ⟨rfl, tasks, quiet, -⟩ := serial.sole is
    refine ⟨by simp [tasks, quiet], fun waiting => absurd rfl waiting⟩
  | pop is next =>
    obtain ⟨-, -, -, busy⟩ := serial.sole is
    exact ⟨by simpa [setTask] using crew, fun _ => busy⟩
  | start => exact ⟨by simpa [setTask] using crew, served⟩
  | execute => exact ⟨by simpa [setTask] using crew, served⟩
  | send => exact ⟨by simpa [setTask] using crew, served⟩
  | stall => exact serial
  | fail => exact ⟨by simpa [setTask] using crew, served⟩

end Serial

/-! ### Order -/

/-- Every line queued was executed, is in execution or waits, and every reply was sent or
is being sent, all in order. -/
structure InOrder (es : List Event) (s : Strand) : Prop where
  inTurn : queries es ++ s.inExecution ++ s.conn.pending = lines es
  answered : sent es ++ s.unsent = replies es
  sound : Task.failing ∉ s.tasks

namespace InOrder

theorem fresh : InOrder [] Strand.fresh := ⟨rfl, rfl, List.not_mem_nil⟩

/-- What a step adds to both sides. -/
theorem advance (order : InOrder es s)
    (said : queries es' ++ s'.inExecution ++ s'.conn.pending =
      s.inExecution ++ s.conn.pending ++ lines es')
    (told : sent es' ++ s'.unsent = s.unsent ++ replies es')
    (sound : Task.failing ∉ s'.tasks) : InOrder (es ++ es') s' where
  inTurn := by
    have before := order.inTurn
    rw [List.append_assoc] at before
    rw [queries_append, lines_append, ← before, List.append_assoc, List.append_assoc,
      List.append_assoc, ← said, List.append_assoc]
  answered := by
    rw [sent_append, replies_append, ← order.answered, List.append_assoc, List.append_assoc, told]
  sound := sound

/-- A step that neither touches the queue and the tasks nor shows anything of them. -/
theorem keep (order : InOrder es s) (pending : s'.conn.pending = s.conn.pending)
    (tasks : s'.tasks = s.tasks) (unqueued : lines es' = []) (unexecuted : executions es' = [])
    (unsent : sent es' = []) : InOrder (es ++ es') s' := by
  apply order.advance
  · simp [queries, inExecution, pending, tasks, unqueued, unexecuted]
  · simp [replies, Strand.unsent, tasks, unexecuted, unsent]
  · rw [tasks]
    exact order.sound

/-- A step of the one task, which goes on. -/
theorem work {task' : Task} (order : InOrder es s) (before : s.tasks = [task])
    (after : s'.tasks = [task']) (works : task' ≠ .failing)
    (said : queries es' ++ task'.query ++ s'.conn.pending =
      task.query ++ s.conn.pending ++ lines es')
    (told : sent es' ++ task'.rest = task.rest ++ replies es') : InOrder (es ++ es') s' := by
  apply order.advance
  · rwa [inExecution, inExecution, before, after, List.flatMap_singleton, List.flatMap_singleton]
  · rwa [unsent, unsent, before, after, List.flatMap_singleton, List.flatMap_singleton]
  · rw [after, List.mem_singleton]
    exact works.symm

theorem step (order : InOrder es s) (serial : s.Serial) (takes : Takes s a s' es')
    (delivers : ∀ k, a ≠ .work k .fail) : InOrder (es ++ es') s' := by
  have sound := order.sound
  cases takes with
  | readable | read | interrupted | wouldBlock | peerClosed | noNewline | blank | overLimit
  | dropped | stall =>
    exact order.keep rfl rfl rfl rfl rfl
  | drop => cases s.conn.busy <;> exact order.keep rfl rfl rfl rfl rfl
  | queue =>
    refine order.advance ?_ ?_ sound
    · simp [queries, executions, lines, inExecution]
    · simp [replies, executions, sent, unsent]
  | @dispatch wakes =>
    cases wakes
    · exact order.keep rfl rfl rfl rfl rfl
    · apply order.advance
      · simp [queries, executions, lines, inExecution, Task.query]
      · simp [replies, executions, sent, unsent, Task.rest]
      · simpa using sound
  | start is =>
    obtain ⟨rfl, tasks, -⟩ := serial.sole is
    apply order.work tasks (tasks_setTask tasks) (by simp)
    · simp [queries, executions, lines, Task.query]
    · simp [replies, executions, sent, Task.rest]
  | exit is empty =>
    obtain ⟨rfl, tasks, -⟩ := serial.sole is
    apply order.advance
    · cases s.conn.closed <;>
        simp [queries, executions, lines, inExecution, tasks, Task.query]
    · cases s.conn.closed <;> simp [replies, executions, sent, unsent, tasks, Task.rest]
    · simp [tasks]
  | pop is next =>
    obtain ⟨rfl, tasks, -⟩ := serial.sole is
    apply order.work tasks (by rw [tasks_setTask]; exact tasks) (by simp)
    · simp [queries, executions, lines, next, Task.query]
    · simp [replies, executions, sent, Task.rest]
  | execute is =>
    obtain ⟨rfl, tasks, -⟩ := serial.sole is
    apply order.work tasks (tasks_setTask tasks) (by simp)
    · simp [queries, executions, lines, Task.query]
    · simp [replies, executions, sent, Task.rest]
  | @send _ rest n is nonempty fits =>
    obtain ⟨rfl, tasks, -⟩ := serial.sole is
    by_cases all : n = rest.length
    · apply order.work tasks (tasks_setTask tasks) (by simp [all])
      · simp [queries, executions, lines, all, Task.query]
      · simp [replies, executions, sent, all, Task.rest]
    · apply order.work tasks (tasks_setTask tasks) (by simp [all])
      · simp [queries, executions, lines, all, Task.query]
      · simp [replies, executions, sent, all, Task.rest]
  | fail is => exact absurd rfl (delivers _)
  | abort is =>
    obtain ⟨-, tasks, -⟩ := serial.sole is
    exact absurd (by simp [tasks]) sound

/-- When a reply fails, what was executed and what was sent is the beginning of what was
meant to be. -/
theorem cut (order : InOrder es s) : queries es <+: lines es ∧ sent es <+: replies es := by
  rw [← order.inTurn, ← order.answered, List.append_assoc]
  exact ⟨List.prefix_append _ _, List.prefix_append _ _⟩

end InOrder

/-- A reply has failed, and no task is left that would execute or send anything. -/
structure CutShort (es : List Event) (s : Strand) : Prop where
  inTurn : queries es <+: lines es
  answered : sent es <+: replies es
  stuck : ∀ task ∈ s.tasks, task = .failing
  quiet : s.loop.shouldDispatch = false

/-- Neither a query executed nor a byte sent. -/
def Mute (es : List Event) : Prop :=
  (∀ query reply, .executed query reply ∉ es) ∧ ∀ taken, .send taken ∉ es

namespace CutShort

theorem keep (cut : CutShort es s) (mute : Mute es') (stuck : ∀ task ∈ s'.tasks, task = .failing)
    (quiet : s'.loop.shouldDispatch = false) : CutShort (es ++ es') s' ∧ Mute es' := by
  have unexecuted : executions es' = [] := by
    rw [executions, List.filterMap_eq_nil_iff]
    intro e there
    cases e with
    | executed query reply => exact absurd there (mute.1 query reply)
    | _ => rfl
  have unsent : sent es' = [] := by
    rw [sent, List.flatMap_eq_nil_iff]
    intro e there
    cases e with
    | send taken => exact absurd there (mute.2 taken)
    | _ => rfl
  refine ⟨⟨?_, ?_, stuck, quiet⟩, mute⟩
  · rw [queries_append, lines_append, queries, queries, unexecuted, List.map_nil,
      List.append_nil]
    exact cut.inTurn.trans (List.prefix_append _ _)
  · rw [sent_append, replies_append, unsent, replies, replies, unexecuted,
      List.flatMap_nil, List.append_nil, List.append_nil]
    exact cut.answered

/-- Every task is the one that failed. -/
theorem only (cut : CutShort es s) (is : s.tasks[k]? = some task) : task = .failing :=
  cut.stuck task (List.mem_of_getElem? is)

theorem step (cut : CutShort es s) (takes : Takes s a s' es')
    (rests : a = .split → s.conn.wakes = false) : CutShort (es ++ es') s' ∧ Mute es' := by
  have stuck := cut.stuck
  have quiet := cut.quiet
  have nothing : Mute [] := ⟨fun _ _ => List.not_mem_nil, fun _ => List.not_mem_nil⟩
  have aCall : Mute [.called] := by simp [Mute]
  have aRead (got : Str) : Mute [.read got] := by simp [Mute]
  have aClose : Mute [.closed] := by simp [Mute]
  cases takes with
  | readable => exact cut.keep aCall stuck rfl
  | read => exact cut.keep (aRead _) stuck quiet
  | interrupted => exact cut.keep (aRead _) stuck quiet
  | wouldBlock => exact cut.keep (aRead _) stuck rfl
  | peerClosed => exact cut.keep (aRead _) stuck rfl
  | noNewline splits =>
    rw [splits] at quiet
    exact cut.keep nothing stuck quiet
  | blank => exact cut.keep nothing stuck quiet
  | overLimit splits =>
    rw [splits] at quiet
    exact cut.keep nothing stuck quiet
  | queue splits line full short room =>
    have busy : s.conn.busy = true := by
      have rests := rests rfl
      simpa [Connection.wakes, Connection.nextLine, line, full, not_lt.mpr short, not_le.mpr room]
        using rests
    rw [splits] at quiet
    refine cut.keep (by simp [Mute]) stuck ?_
    simpa [Loop.shouldDispatch, busy] using quiet
  | @dispatch wakes gone dispatches =>
    rw [dispatches] at quiet
    obtain rfl : wakes = false := quiet
    refine cut.keep nothing stuck ?_
    cases gone <;> rfl
  | drop =>
    refine cut.keep ?_ stuck rfl
    split
    · exact nothing
    · exact aClose
  | dropped => exact cut.keep nothing stuck rfl
  | abort =>
    refine cut.keep ?_ (fun task there => stuck task (List.mem_of_mem_eraseIdx there)) quiet
    split
    · exact aClose
    · exact nothing
  | start is | exit is | pop is | execute is | send is | stall is | fail is =>
    cases cut.only is

end CutShort

/-! ### Runs -/

/-- Every reply gets through. -/
def delivers (_ : List Event) (_ : Strand) (a : Action) : Prop := ∀ k, a ≠ .work k .fail

/-- After a failed reply no line is queued on the connection while it is idle. -/
def restsAfterFailure (es : List Event) (s : Strand) (a : Action) : Prop :=
  .failed ∈ es → a = .split → s.conn.wakes = false

theorem serial_of_run {guard : List Event → Strand → Action → Prop}
    (run : Run step guard Strand.fresh es s) : s.Serial :=
  run.invariant (fun _ s => s.Serial) Serial.fresh fun serial _ takes => serial.step (step_takes takes)

theorem unfailed_of_takes (takes : Takes s a s' es') (through : ∀ k, a ≠ .work k .fail) :
    .failed ∉ es' := by
  cases takes with
  | fail => exact absurd rfl (through _)
  | drop => cases s.conn.busy <;> simp
  | exit => cases s.conn.closed <;> simp
  | abort => cases s.conn.closed <;> simp
  | _ => simp

theorem unfailed_of_run (run : Run step delivers Strand.fresh es s) : .failed ∉ es := by
  refine run.invariant (fun es _ => .failed ∉ es) List.not_mem_nil ?_
  intro es es' s s' a unfailed through takes
  rw [List.mem_append, not_or]
  exact ⟨unfailed, unfailed_of_takes (step_takes takes) through⟩

theorem rests_of_delivers (run : Run step delivers Strand.fresh es s) :
    Run step restsAfterFailure Strand.fresh es s := by
  induction run with
  | start => exact .start
  | next before _ takes ih =>
    exact ih.next (fun failed => absurd failed (unfailed_of_run before)) takes

/-- Nothing is executed and nothing sent behind a failed reply. -/
def NothingFollows (es : List Event) : Prop := es.Pairwise fun a b => a = .failed → Mute [b]

theorem nothingFollows_append (before : NothingFollows es) (after : NothingFollows es')
    (mute : .failed ∈ es → Mute es') : NothingFollows (es ++ es') := by
  refine List.pairwise_append.mpr ⟨before, after, ?_⟩
  rintro _ there b there' rfl
  obtain ⟨unexecuted, unsent⟩ := mute there
  refine ⟨fun query reply is => unexecuted query reply ?_, fun taken is => unsent taken ?_⟩
  · rwa [List.mem_singleton.mp is]
  · rwa [List.mem_singleton.mp is]

/-- The events of one step. -/
theorem nothingFollows_of_takes (takes : Takes s a s' es') : NothingFollows es' := by
  cases takes with
  | drop => cases s.conn.busy <;> simp [NothingFollows]
  | exit => cases s.conn.closed <;> simp [NothingFollows]
  | abort => cases s.conn.closed <;> simp [NothingFollows]
  | _ => simp [NothingFollows]

/-- Lines are dealt with in order until a reply fails; from then on not at all. -/
theorem inOrder_or_cutShort (run : Run step restsAfterFailure Strand.fresh es s) :
    (.failed ∉ es ∧ InOrder es s ∨ .failed ∈ es ∧ CutShort es s) ∧ NothingFollows es := by
  induction run with
  | start => exact ⟨.inl ⟨List.not_mem_nil, InOrder.fresh⟩, .nil⟩
  | @next es es' s s' a before rests takes ih =>
    have serial := serial_of_run before
    have takes := step_takes takes
    have alone := nothingFollows_of_takes takes
    obtain ⟨⟨unfailed, order⟩ | ⟨failed, cut⟩, follows⟩ := ih
    · refine ⟨?_, nothingFollows_append follows alone fun failed => absurd failed unfailed⟩
      by_cases fails : ∃ k, a = .work k .fail
      · -- the one step after which the order is cut short
        obtain ⟨k, rfl⟩ := fails
        cases takes with
        | fail is =>
          obtain ⟨rfl, tasks, quiet, -⟩ := serial.sole is
          obtain ⟨inTurn, answered⟩ := order.cut
          refine .inr ⟨by simp, ?_, ?_, by simp [setTask, tasks], quiet⟩
          · simpa [queries, executions, lines] using inTurn
          · simpa [replies, executions, sent] using answered
      · have through : ∀ k, a ≠ .work k .fail := fun k is => fails ⟨k, is⟩
        refine .inl ⟨?_, order.step serial takes through⟩
        rw [List.mem_append, not_or]
        exact ⟨unfailed, unfailed_of_takes takes through⟩
    · obtain ⟨cut', mute⟩ := cut.step takes (rests failed)
      exact ⟨.inr ⟨List.mem_append_left _ failed, cut'⟩,
        nothingFollows_append follows alone fun _ => mute⟩

/-- While every reply gets through: at most one task drains the connection, `busy` tells
whether there is one or the loop is about to dispatch one, and a queue that is not empty has
one. The queries executed, the one in execution and those waiting are the lines queued, which
are the first ones of the stream, and the bytes sent and still to be sent are the replies. -/
theorem strand_serves_in_order (run : Run step delivers Strand.fresh es s) :
    s.tasks.length ≤ 1 ∧
      (s.conn.busy = true ↔ s.tasks ≠ [] ∨ s.loop.shouldDispatch = true) ∧
      (s.conn.pending ≠ [] → s.conn.busy = true) ∧
      queries es ++ s.inExecution ++ s.conn.pending = lines es ∧
      lines es <+: framed (received es) ∧
      sent es ++ s.unsent = replies es := by
  have serial := serial_of_run run
  have crew := serial.crew
  have order : InOrder es s := by
    obtain ⟨⟨-, order⟩ | ⟨failed, -⟩, -⟩ := inOrder_or_cutShort (rests_of_delivers run)
    · exact order
    · exact absurd failed (unfailed_of_run run)
  refine ⟨?_, ?_, serial.served, order.inTurn, lines_prefix_of_run run, order.answered⟩
  · have one := Bool.toNat_le s.conn.busy
    omega
  · constructor
    · intro busy
      by_contra neither
      rw [not_or, not_not, Bool.not_eq_true] at neither
      simp [busy, neither.1, neither.2] at crew
    · intro working
      by_contra idle
      obtain ⟨none, quiet, -⟩ := serial.idle (Bool.eq_false_iff.mpr idle)
      obtain some | wakes := working
      · exact some none
      · rw [quiet] at wakes
        cases wakes

/-- The peer is gone before its two queries are answered. -/
theorem strand_serves_in_order_after_eof :
    ∃ es s, Run step delivers Strand.fresh es s ∧ s.conn.closed = true ∧
      s.tasks.length ≤ 1 ∧
      (s.conn.busy = true ↔ s.tasks ≠ [] ∨ s.loop.shouldDispatch = true) ∧
      (s.conn.pending ≠ [] → s.conn.busy = true) ∧
      queries es ++ s.inExecution ++ s.conn.pending = lines es ∧
      lines es <+: framed (received es) ∧
      sent es ++ s.unsent = replies es := by
  have execs : exec step Strand.fresh [.readable, .read "a\nb\n".toList, .peerClosed, .split,
      .split, .split, .dispatch, .work 0 .start, .work 0 .drain, .drop, .work 0 (.execute "A".toList),
      .work 0 (.send 1)] = some (⟨⟨[], ["b".toList], true, true⟩, false, .waiting,
        [.writing ['\n']]⟩, [.called, .read "a\nb\n".toList, .read [], .queued "a".toList,
          .queued "b".toList, .executed "a".toList "A".toList, .send "A".toList]) := by
    decide +kernel
  have run : Run step delivers Strand.fresh _ _ := Run.start.exec execs (by simp [delivers])
  exact ⟨_, _, run, rfl, strand_serves_in_order run⟩

/-- If after a failed reply no line is queued on the idle connection, then nothing is
executed and nothing sent behind the failure. The queries executed are then the first lines
of the stream, and the bytes sent the first ones of their replies. -/
theorem failed_reply_ends_strand (run : Run step restsAfterFailure Strand.fresh es s) :
    NothingFollows es ∧ queries es <+: framed (received es) ∧ sent es <+: replies es := by
  obtain ⟨⟨-, order⟩ | ⟨-, cut⟩, follows⟩ := inOrder_or_cutShort run
  · obtain ⟨inTurn, answered⟩ := order.cut
    exact ⟨follows, inTurn.trans (lines_prefix_of_run run), answered⟩
  · exact ⟨follows, cut.inTurn.trans (lines_prefix_of_run run), cut.answered⟩

/-- A reply times out, and the client sends nothing more. -/
theorem failed_reply_ends_strand_silent_client :
    ∃ es s, Run step restsAfterFailure Strand.fresh es s ∧ .failed ∈ es ∧
      NothingFollows es ∧ queries es <+: framed (received es) ∧ sent es <+: replies es := by
  have starts : exec step Strand.fresh [.readable, .read "a\nb\n".toList, .wouldBlock, .split,
      .split, .split, .dispatch, .work 0 .start, .work 0 .drain, .work 0 (.execute "AA".toList),
      .work 0 (.send 1)] = some (⟨⟨[], ["b".toList], true, false⟩, true, .waiting,
        [.writing "A\n".toList]⟩, [.called, .read "a\nb\n".toList, .read [], .queued "a".toList,
          .queued "b".toList, .executed "a".toList "AA".toList, .send "A".toList]) := by
    decide +kernel
  have ends : exec step ⟨⟨[], ["b".toList], true, false⟩, true, .waiting,
      [.writing "A\n".toList]⟩ [.work 0 .fail, .work 0 .abort, .readable, .interrupted] =
        some (⟨⟨[], [], false, false⟩, true, .reading, []⟩,
          [.send [], .failed, .called, .read []]) := by
    decide +kernel
  have delivered : Run step delivers Strand.fresh _ _ := Run.start.exec starts (by simp [delivers])
  have run := (rests_of_delivers delivered).exec ends (by simp [restsAfterFailure])
  exact ⟨_, _, run, by simp, failed_reply_ends_strand run⟩

/-- Two queries, and the reply to the first times out half-way: the second is thrown away,
but a third one is executed, and its reply follows the bytes of the first. -/
theorem failed_reply_is_followed :
    ∃ es s, Run step free Strand.fresh es s ∧
      ¬ NothingFollows es ∧ ¬ queries es <+: framed (received es) ∧ ¬ sent es <+: replies es := by
  have execs : exec step Strand.fresh [.readable, .read "DROP TABLE a\nDROP TABLE b\n".toList,
      .wouldBlock, .split, .split, .split, .dispatch, .work 0 .start, .work 0 .drain,
      .work 0 (.execute "ERROR: no such table 'a'".toList), .work 0 (.send 3), .work 0 .stall,
      .work 0 .fail, .work 0 .abort, .readable, .read "DROP TABLE c\n".toList, .wouldBlock, .split,
      .split, .dispatch, .work 0 .start, .work 0 .drain,
      .work 0 (.execute "ERROR: no such table 'c'".toList), .work 0 (.send 25)] =
        some (⟨⟨[], [], true, false⟩, true, .waiting, [.draining]⟩, [.called,
          .read "DROP TABLE a\nDROP TABLE b\n".toList, .read [], .queued "DROP TABLE a".toList,
          .queued "DROP TABLE b".toList,
          .executed "DROP TABLE a".toList "ERROR: no such table 'a'".toList, .send "ERR".toList,
          .send [], .send [], .failed, .called, .read "DROP TABLE c\n".toList, .read [],
          .queued "DROP TABLE c".toList,
          .executed "DROP TABLE c".toList "ERROR: no such table 'c'".toList,
          .send "ERROR: no such table 'c'\n".toList]) := by
    decide +kernel
  have run : Run step free Strand.fresh _ _ := Run.start.exec execs fun _ _ _ _ => trivial
  refine ⟨_, _, run, fun follows => ?_, by decide +kernel, by decide +kernel⟩
  have mute := List.pairwise_iff_getElem.mp follows 9 14 (by decide) (by decide) (by decide) rfl
  exact mute.1 _ _ List.mem_cons_self

end Strand

end CppDB.Network
