import CppDB.Lib.Trace

/-! `TCPServer::run` against `TCPServer::stop`. The loop shares the flag `running_` and the
wake pipe with any number of `stop()` calls, made by other threads or by the signal handler.
What the loop does for clients touches neither and is one step. -/
namespace CppDB.Network

namespace EventLoop

/-- A descriptor that `kevent` reports: the wake pipe, or the listening socket or a client. -/
inductive Ready where
  | wake
  | other
  deriving DecidableEq

/-- Where `run()` is; `before` is before its first store. -/
inductive Place where
  | before
  | testing
  | waiting
  | handling (events : List Ready)
  | draining (rest : List Ready)
  | returned
  deriving DecidableEq

/-- A call of `stop()`; `stored` lies between its store and its write. -/
inductive Call where
  | outside
  | stored
  | completed
  deriving DecidableEq

end EventLoop

/-- The two members, where `run()` is and where each call of `stop()` is. -/
structure EventLoop (C : Type) where
  running : Bool
  /-- The bytes in the wake pipe. -/
  pipe : Nat
  place : EventLoop.Place
  call : C → EventLoop.Call

namespace EventLoop

variable {C : Type}

/-- The server as constructed. -/
def fresh : EventLoop C := ⟨false, 0, .before, fun _ => .outside⟩

inductive Event (C : Type) where
  | started
  | stored (c : C)
  | completed (c : C)

inductive Action (C : Type) where
  | start
  | test
  | ready (events : List Ready)
  | interrupted
  | failed
  | handle
  | drain (bytes : Nat)
  | drained
  | drainInterrupted
  | store (c : C)
  | write (c : C)
  | writeInterrupted (c : C)

/-- Completed, and yet the loop sleeps with nothing to wake it. -/
def Lost (s : EventLoop C) : Prop :=
  (∃ c, s.call c = .completed) ∧ s.place = .waiting ∧ s.running = true ∧ s.pipe = 0

variable [DecidableEq C]

def moveCall (s : EventLoop C) (c : C) (call : Call) : EventLoop C :=
  { s with call := Function.update s.call c call }

/-- One step. The pipe has room for `room + 1` bytes; its write end blocks when it is full,
and the result of a write that a signal interrupts there is ignored. Its read end does not
block, and `kevent` reports it only while there is something to read. -/
def step (room : Nat) (s : EventLoop C) : Action C → Option (EventLoop C × List (Event C))
  | .start =>
    if s.place = .before then some ({ s with running := true, place := .testing }, [.started])
    else none
  | .test =>
    if s.place = .testing then
      some ({ s with place := if s.running then .waiting else .returned }, [])
    else none
  | .ready events =>
    if s.place = .waiting ∧ events ≠ [] ∧ events.length ≤ 64 ∧ (.wake ∈ events → 0 < s.pipe) then
      some ({ s with place := .handling events }, [])
    else none
  | .interrupted => if s.place = .waiting then some ({ s with place := .testing }, []) else none
  | .failed => if s.place = .waiting then some ({ s with place := .returned }, []) else none
  | .handle =>
    match s.place with
    | .handling [] => some ({ s with place := .testing }, [])
    | .handling (.wake :: rest) => some ({ s with place := .draining rest }, [])
    | .handling (.other :: rest) => some ({ s with place := .handling rest }, [])
    | _ => none
  | .drain bytes =>
    match s.place with
    | .draining _ =>
      if 0 < bytes ∧ bytes ≤ 64 ∧ bytes ≤ s.pipe then some ({ s with pipe := s.pipe - bytes }, [])
      else none
    | _ => none
  | .drained =>
    match s.place with
    | .draining rest => if s.pipe = 0 then some ({ s with place := .handling rest }, []) else none
    | _ => none
  | .drainInterrupted =>
    match s.place with
    | .draining rest => some ({ s with place := .handling rest }, [])
    | _ => none
  | .store c =>
    if s.call c = .outside then some ({ s.moveCall c .stored with running := false }, [.stored c])
    else none
  | .write c =>
    if s.call c = .stored ∧ s.pipe ≤ room then
      some ({ s.moveCall c .completed with pipe := s.pipe + 1 }, [.completed c])
    else none
  | .writeInterrupted c =>
    if s.call c = .stored ∧ s.pipe = room + 1 then
      some (s.moveCall c .completed, [.completed c])
    else none

/-- A `stop()` that completes before the first store of `run()` is overwritten by it, and its
byte is drained in the first round of the loop. -/
theorem stop_lost_before_run : ∃ (es : List (Event Unit)) (s : EventLoop Unit),
    Trace.Run (step 0) Trace.free fresh es s ∧ s.Lost := by
  have run : Trace.Run (step 0) Trace.free _ ([] ++ _) _ := Trace.Run.start.exec
    (rfl : Trace.exec (step 0) fresh ([.store (), .write (), .start, .test, .ready [.wake], .handle,
      .drain 1, .drained, .handle, .test] : List (Action Unit)) = some (_, _)) fun _ _ _ _ => trivial
  exact ⟨_, _, run, ⟨(), rfl⟩, rfl, rfl, rfl⟩

/-- The loop empties the pipe if nothing comes in between. -/
theorem exec_drain (room pipe : Nat) (running : Bool) (rest : List Ready) (call : C → Call) :
    Trace.exec (step room) ⟨running, pipe, .draining rest, call⟩ (List.replicate pipe (.drain 1)) =
      some (⟨running, 0, .draining rest, call⟩, []) := by
  induction pipe with
  | zero => rfl
  | succ pipe ih =>
    have takes : step room ⟨running, pipe + 1, .draining rest, call⟩ (.drain 1) =
        some (⟨running, pipe, .draining rest, call⟩, []) := by
      simp [step]
    simp only [List.replicate_succ, Trace.exec, takes, ih, Option.bind_eq_bind, Option.bind_some]
    rfl

/-- So it goes for every `stop()` that completes before the first store of `run()`: if no
other call comes, the loop can end up asleep. -/
theorem lost_of_early {room : Nat} {s : EventLoop C} (early : s.place = .before)
    (completed : ∃ c, s.call c = .completed) :
    ∃ es s', Trace.Run (step room) Trace.free s es s' ∧ s'.Lost := by
  obtain ⟨running, pipe, place, call⟩ := s
  obtain rfl : place = .before := early
  have waits : Trace.Run (step room) Trace.free ⟨running, pipe, .before, call⟩ _
      ⟨true, pipe, .waiting, call⟩ :=
    Trace.Run.start.exec (rfl : Trace.exec (step room) _ [.start, .test] = _) fun _ _ _ _ => trivial
  cases pipe with
  | zero => exact ⟨_, _, waits, completed, rfl, rfl, rfl⟩
  | succ pipe =>
    have drains := waits.exec (rfl : Trace.exec (step room) _ [.ready [.wake], .handle] =
      some (⟨true, pipe + 1, .draining [], call⟩, [])) fun _ _ _ _ => trivial
    have empty := drains.exec (exec_drain room (pipe + 1) true [] call) fun _ _ _ _ => trivial
    have sleeps := empty.exec (rfl : Trace.exec (step room) _ [.drained, .handle, .test] =
      some (⟨true, 0, .waiting, call⟩, [])) fun _ _ _ _ => trivial
    exact ⟨_, _, sleeps, completed, rfl, rfl, rfl⟩

/-! ### What a step does -/

variable {room : Nat} {s s' : EventLoop C} {a : Action C} {es es' : List (Event C)}

/-- The ways a step can go, as far as the flag, the pipe and the calls are concerned. -/
inductive Takes (s : EventLoop C) (a : Action C) : EventLoop C → List (Event C) → Prop where
  | start (comes : s.place = .before) :
      Takes s a { s with running := true, place := .testing } [.started]
  | wait (comes : s.place = .testing) (running : s.running = true) :
      Takes s a { s with place := .waiting } []
  | proceed (place : Place) (comes : s.place ≠ .before) (starts : place ≠ .before)
      (awake : place ≠ .waiting) : Takes s a { s with place } []
  | drain (rest : List Ready) (pipe : Nat) (comes : s.place = .draining rest) :
      Takes s a { s with pipe } []
  | store (c : C) (calls : a = .store c) (comes : s.call c = .outside) :
      Takes s a { s.moveCall c .stored with running := false } [.stored c]
  | write (c : C) (comes : s.call c = .stored) (pipe : Nat) (some : 0 < pipe) :
      Takes s a { s.moveCall c .completed with pipe } [.completed c]

theorem handle_takes (steps : s.step room .handle = some (s', es')) :
    Takes s .handle s' es' := by
  rw [step] at steps
  split at steps
  case h_1 comes | h_2 comes | h_3 comes =>
    cases steps
    exact .proceed _ (by simp [comes]) (by simp) (by simp)
  case h_4 => cases steps

theorem drain_takes {bytes : Nat} (steps : s.step room (.drain bytes) = some (s', es')) :
    Takes s (.drain bytes) s' es' := by
  rw [step] at steps
  split at steps
  case h_1 rest comes =>
    rw [Option.ite_none_right_eq_some] at steps
    obtain ⟨-, steps⟩ := steps
    cases steps
    exact .drain rest _ comes
  case h_2 => cases steps

theorem step_takes (steps : s.step room a = some (s', es')) : Takes s a s' es' := by
  cases a with
  | start =>
    rw [step, Option.ite_none_right_eq_some] at steps
    obtain ⟨comes, steps⟩ := steps
    cases steps
    exact .start comes
  | test =>
    rw [step, Option.ite_none_right_eq_some] at steps
    obtain ⟨comes, steps⟩ := steps
    cases steps
    split
    case isTrue running => exact .wait comes running
    case isFalse => exact .proceed _ (by simp [comes]) (by simp) (by simp)
  | ready events =>
    rw [step, Option.ite_none_right_eq_some] at steps
    obtain ⟨⟨comes, -⟩, steps⟩ := steps
    cases steps
    exact .proceed _ (by simp [comes]) (by simp) (by simp)
  | interrupted | failed =>
    rw [step, Option.ite_none_right_eq_some] at steps
    obtain ⟨comes, steps⟩ := steps
    cases steps
    exact .proceed _ (by simp [comes]) (by simp) (by simp)
  | handle => exact handle_takes steps
  | drain bytes => exact drain_takes steps
  | drained =>
    rw [step] at steps
    split at steps
    case h_1 rest comes =>
      rw [Option.ite_none_right_eq_some] at steps
      obtain ⟨-, steps⟩ := steps
      cases steps
      exact .proceed _ (by simp [comes]) (by simp) (by simp)
    case h_2 => cases steps
  | drainInterrupted =>
    rw [step] at steps
    split at steps
    case h_1 rest comes =>
      cases steps
      exact .proceed _ (by simp [comes]) (by simp) (by simp)
    case h_2 => cases steps
  | store c =>
    rw [step, Option.ite_none_right_eq_some] at steps
    obtain ⟨comes, steps⟩ := steps
    cases steps
    exact .store c rfl comes
  | write c =>
    rw [step, Option.ite_none_right_eq_some] at steps
    obtain ⟨⟨comes, -⟩, steps⟩ := steps
    cases steps
    exact .write c comes _ (Nat.succ_pos _)
  | writeInterrupted c =>
    rw [step, Option.ite_none_right_eq_some] at steps
    obtain ⟨⟨comes, full⟩, steps⟩ := steps
    cases steps
    exact .write c comes s.pipe (by omega)

/-! ### When every `stop()` comes after the first store of `run()` -/

/-- A call of `stop()` does its store only once `run()` has done its first. -/
def Late (es : List (Event C)) (_ : EventLoop C) (a : Action C) : Prop :=
  ∀ c, a = .store c → .started ∈ es

/-- The flag stays down once it was taken down, and a loop that sleeps then has a byte
waiting for it or a call that is about to write one. -/
structure Heard (es : List (Event C)) (s : EventLoop C) : Prop where
  begun : .started ∈ es → s.place ≠ .before
  early : s.place = .before → ∀ c, s.call c = .outside
  stopped : ∀ c, s.call c ≠ .outside → s.running = false
  woken : s.place = .waiting → s.running = false → 0 < s.pipe ∨ ∃ c, s.call c = .stored

namespace Heard

omit [DecidableEq C] in
theorem fresh : Heard [] (fresh : EventLoop C) := by
  constructor
  · intro started
    cases started
  · exact fun _ _ => rfl
  · intro c called
    exact absurd rfl called
  · intro waiting
    cases waiting

theorem next (heard : Heard es s) (late : Late es s a) (takes : Takes s a s' es') :
    Heard (es ++ es') s' := by
  have begun (quiet : .started ∉ es') (started : .started ∈ es ++ es') : s.place ≠ .before :=
    heard.begun ((List.mem_append.mp started).resolve_right quiet)
  cases takes with
  | start comes =>
    have uncalled := heard.early comes
    constructor
    · intro _ before
      cases before
    · intro before
      cases before
    · exact fun c called => absurd (uncalled c) called
    · intro waiting
      cases waiting
  | wait comes running =>
    constructor
    · intro _ before
      cases before
    · intro before
      cases before
    · exact heard.stopped
    · intro _ stopped
      cases running.symm.trans stopped
  | proceed place comes starts awake =>
    constructor
    · exact fun _ => starts
    · exact fun before => absurd before starts
    · exact heard.stopped
    · exact fun waiting => absurd waiting awake
  | drain rest pipe comes =>
    constructor
    · exact begun (by simp)
    · exact heard.early
    · exact heard.stopped
    · intro waiting
      cases comes.symm.trans waiting
  | store c calls comes =>
    have underWay := heard.begun (late c calls)
    constructor
    · exact begun (by simp)
    · exact fun before => absurd before underWay
    · exact fun _ _ => rfl
    · exact fun _ _ => .inr ⟨c, Function.update_self _ _ _⟩
  | write c comes pipe some =>
    have called : s.call c ≠ .outside := by simp [comes]
    constructor
    · exact begun (by simp)
    · exact fun before => absurd (heard.early before c) called
    · exact fun _ _ => heard.stopped c called
    · exact fun _ _ => .inl some

theorem of_run (run : Trace.Run (step room) Late EventLoop.fresh es s) : Heard es s :=
  run.invariant Heard fresh fun heard late steps => heard.next late (step_takes steps)

end Heard

/-- If every `stop()` stores after `run()` has, then none is lost: once one has completed, a
loop that waits finds the flag down and either a byte in the pipe or a further call about to
write one. -/
theorem stop_heard_after_run (run : Trace.Run (step room) Late fresh es s) :
    ¬ s.Lost ∧ ((∃ c, s.call c = .completed) → s.place = .waiting →
      s.running = false ∧ (0 < s.pipe ∨ ∃ c, s.call c = .stored)) := by
  have heard := Heard.of_run run
  have stopped : (∃ c, s.call c = .completed) → s.running = false := by
    rintro ⟨c, completed⟩
    exact heard.stopped c (by simp [completed])
  constructor
  · rintro ⟨completed, -, running, -⟩
    cases running.symm.trans (stopped completed)
  · intro completed waiting
    exact ⟨stopped completed, heard.woken waiting (stopped completed)⟩

/-- `stop()` while the loop waits: it has its byte. -/
theorem stop_heard_after_run_waiting : ∃ (es : List (Event Unit)) (s : EventLoop Unit),
    Trace.Run (step 0) Late fresh es s ∧ s.call () = .completed ∧ s.place = .waiting ∧
      ¬ s.Lost := by
  have begun : Trace.Run (step 0) Late (fresh : EventLoop Unit) [.started]
      ⟨true, 0, .testing, fun _ => .outside⟩ :=
    .next (a := .start) .start (fun _ stores => by cases stores) rfl
  have waits : Trace.Run (step 0) Late fresh ([.started] ++ []) ⟨true, 0, .waiting, _⟩ :=
    begun.next (a := .test) (fun _ stores => by cases stores) rfl
  have stored := waits.next (a := .store ()) (fun _ _ => by simp) rfl
  have stopped := stored.next (a := .write ()) (fun _ stores => by cases stores) rfl
  exact ⟨_, _, stopped, rfl, rfl, (stop_heard_after_run stopped).1⟩

end EventLoop
end CppDB.Network
