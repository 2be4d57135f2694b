import CppDB.Basic
import CppDB.Lib.Census
import CppDB.Lib.CondVar
import CppDB.Lib.Trace

/-! The pool of `concurrency/thread_pool.cpp`, as the sections that hold `mutex_` and the
notifications, which are issued after them. The condition variable is the set of the
workers blocked on it. Submitting threads are arbitrary; a task that submits to its own
pool is one of them. -/
namespace CppDB

namespace ThreadPool

/-- Where a worker is in `workerLoop`. -/
inductive Worker (J : Type) where
  | waiting
  | running (task : J)
  | exited

/-- `notifying` lies between the section of `submit` and its `notify_one`. -/
inductive Submitter where
  | outside
  | notifying
  deriving DecidableEq

/-- The destructor: not called, between its section and `notify_all`, and joining the rest
of the workers; it has returned once no worker is left. -/
inductive Destructor (n : Nat) where
  | alive
  | notifying
  | joining (rest : List (Fin n))
  deriving DecidableEq

/-- How a task ends; `workerLoop` swallows what it throws. -/
inductive Outcome where
  | returned
  | threw
  deriving DecidableEq

end ThreadPool

/-- A pool of `n` workers with the threads that use it. -/
structure ThreadPool (n : Nat) (S J : Type) where
  tasks : List J
  stopping : Bool
  cv : Finset (Fin n)
  worker : Fin n → ThreadPool.Worker J
  submitter : S → ThreadPool.Submitter
  destructor : ThreadPool.Destructor n

namespace ThreadPool

variable {n : Nat} {S J : Type}

def noThreads : Exn := .invalidArgument "ThreadPool: threadCount must be >= 1".toList

/-- What the `std::runtime_error` of `submit` says. -/
def afterShutdown : Str := "ThreadPool: submit after shutdown".toList

def create (threadCount : Nat) : Except Exn (ThreadPool threadCount S J) :=
  if threadCount = 0 then .error noThreads
  else .ok ⟨[], false, ∅, fun _ => .waiting, fun _ => .outside, .alive⟩

/-- What a step leaves behind for an observer. -/
inductive Event (n : Nat) (S J : Type) where
  | accepted (s : S) (task : J)
  | refused (s : S) (what : Str)
  | taken (w : Fin n) (task : J)
  | ran (w : Fin n) (task : J) (outcome : Outcome)
  | exited (w : Fin n)

inductive Action (n : Nat) (S J : Type) where
  | submit (s : S) (task : J)
  | notify (s : S) (woken : Option (Fin n))
  | fetch (w : Fin n)
  | finish (w : Fin n) (outcome : Outcome)
  | shutDown
  | notifyAll
  | join
  | wakeSpuriously (w : Fin n)

def moveWorker (pool : ThreadPool n S J) (w : Fin n) (place : Worker J) : ThreadPool n S J :=
  { pool with worker := Function.update pool.worker w place }

/-- The section of `workerLoop`: wait, or leave, or take the front task. -/
def fetch (pool : ThreadPool n S J) (w : Fin n) : ThreadPool n S J × List (Event n S J) :=
  if !pool.stopping && pool.tasks.isEmpty then ({ pool with cv := insert w pool.cv }, [])
  else match pool.tasks with
    | [] => (pool.moveWorker w .exited, [.exited w])
    | task :: rest => ({ pool.moveWorker w (.running task) with tasks := rest }, [.taken w task])

theorem positive_of_create {start : ThreadPool n S J} (creates : create n = .ok start) : 0 < n := by
  rw [create] at creates
  split at creates
  case isTrue => cases creates
  case isFalse some => exact Nat.pos_of_ne_zero some

variable [DecidableEq S]

def moveSubmitter (pool : ThreadPool n S J) (s : S) (place : Submitter) : ThreadPool n S J :=
  { pool with submitter := Function.update pool.submitter s place }

/-- The section of `submit`. -/
def submit (pool : ThreadPool n S J) (s : S) (task : J) : ThreadPool n S J × List (Event n S J) :=
  if pool.stopping then (pool, [.refused s afterShutdown])
  else ({ pool.moveSubmitter s .notifying with tasks := pool.tasks ++ [task] }, [.accepted s task])

def step (pool : ThreadPool n S J) : Action n S J → Option (ThreadPool n S J × List (Event n S J))
  | .submit s task => if pool.submitter s = .outside then some (pool.submit s task) else none
  | .notify s woken =>
    if pool.submitter s = .notifying then
      (CondVar.notifyOne pool.cv woken).map fun cv => ({ pool.moveSubmitter s .outside with cv }, [])
    else none
  | .fetch w =>
    match pool.worker w with
    | .waiting => if w ∈ pool.cv then none else some (pool.fetch w)
    | _ => none
  | .finish w outcome =>
    match pool.worker w with
    | .running task => some (pool.moveWorker w .waiting, [.ran w task outcome])
    | _ => none
  | .shutDown =>
    match pool.destructor with
    | .alive => some ({ pool with stopping := true, destructor := .notifying }, [])
    | _ => none
  | .notifyAll =>
    match pool.destructor with
    | .notifying => some ({ pool with cv := ∅, destructor := .joining (List.finRange n) }, [])
    | _ => none
  | .join =>
    match pool.destructor with
    | .joining (w :: rest) =>
      match pool.worker w with
      | .exited => some ({ pool with destructor := .joining rest }, [])
      | _ => none
    | _ => none
  | .wakeSpuriously w => some ({ pool with cv := pool.cv.erase w }, [])

/-! ### What a step does -/

/-- The ways a step can go. -/
inductive Takes (pool : ThreadPool n S J) : ThreadPool n S J → List (Event n S J) → Prop where
  | refuse (s : S) (stopping : pool.stopping = true) : Takes pool pool [.refused s afterShutdown]
  | accept (s : S) (task : J) (runs : pool.stopping = false) :
      Takes pool { pool.moveSubmitter s .notifying with tasks := pool.tasks ++ [task] }
        [.accepted s task]
  | notify (s : S) (cv : Finset (Fin n)) (comes : pool.submitter s = .notifying)
      (wakes : cv = ∅ ∧ pool.cv = ∅ ∨ ∃ w ∈ pool.cv, cv = pool.cv.erase w) :
      Takes pool { pool.moveSubmitter s .outside with cv } []
  | wait (w : Fin n) (comes : pool.worker w = .waiting) (runs : pool.stopping = false)
      (empty : pool.tasks = []) : Takes pool { pool with cv := insert w pool.cv } []
  | exit (w : Fin n) (comes : pool.worker w = .waiting) (awake : w ∉ pool.cv)
      (stopping : pool.stopping = true) (empty : pool.tasks = []) :
      Takes pool (pool.moveWorker w .exited) [.exited w]
  | take (w : Fin n) (task : J) (rest : List J) (comes : pool.worker w = .waiting)
      (awake : w ∉ pool.cv) (front : pool.tasks = task :: rest) :
      Takes pool { pool.moveWorker w (.running task) with tasks := rest } [.taken w task]
  | finish (w : Fin n) (task : J) (outcome : Outcome) (comes : pool.worker w = .running task) :
      Takes pool (pool.moveWorker w .waiting) [.ran w task outcome]
  | shutDown (alive : pool.destructor = .alive) :
      Takes pool { pool with stopping := true, destructor := .notifying } []
  | notifyAll (comes : pool.destructor = .notifying) :
      Takes pool { pool with cv := ∅, destructor := .joining (List.finRange n) } []
  | join (w : Fin n) (rest : List (Fin n)) (comes : pool.destructor = .joining (w :: rest))
      (exited : pool.worker w = .exited) : Takes pool { pool with destructor := .joining rest } []
  | wakeSpuriously (w : Fin n) : Takes pool { pool with cv := pool.cv.erase w } []

variable {pool pool' : ThreadPool n S J} {es es' : List (Event n S J)}

theorem fetch_takes {w : Fin n} (comes : pool.worker w = .waiting) (awake : w ∉ pool.cv) :
    Takes pool (pool.fetch w).1 (pool.fetch w).2 := by
  rw [fetch]
  split
  case isTrue idle =>
    simp only [Bool.and_eq_true, Bool.not_eq_true', List.isEmpty_iff] at idle
    exact .wait w comes idle.1 idle.2
  case isFalse ready =>
    split
    case h_1 empty =>
      refine .exit w comes awake ?_ empty
      simpa [empty] using ready
    case h_2 task rest front => exact .take w task rest comes awake front

theorem step_takes {a : Action n S J} (steps : pool.step a = some (pool', es')) :
    Takes pool pool' es' := by
  cases a with
  | submit s task =>
    rw [step, Option.ite_none_right_eq_some] at steps
    obtain ⟨-, steps⟩ := steps
    rw [submit] at steps
    split at steps
    case isTrue stopping =>
      cases steps
      exact .refuse s stopping
    case isFalse runs =>
      cases steps
      exact .accept s task (Bool.eq_false_iff.mpr runs)
  | notify s woken =>
    rw [step, Option.ite_none_right_eq_some] at steps
    obtain ⟨comes, steps⟩ := steps
    obtain ⟨cv, wakes, same⟩ := Option.map_eq_some_iff.mp steps
    cases same
    exact .notify s cv comes (CondVar.notifyOne_cases wakes)
  | fetch w =>
    rw [step] at steps
    split at steps
    case h_1 comes =>
      rw [Option.ite_none_left_eq_some] at steps
      obtain ⟨awake, steps⟩ := steps
      have takes := fetch_takes comes awake
      rwa [Option.some.inj steps] at takes
    case h_2 => cases steps
  | finish w outcome =>
    rw [step] at steps
    split at steps
    case h_1 task comes =>
      cases steps
      exact .finish w task outcome comes
    case h_2 => cases steps
  | shutDown =>
    rw [step] at steps
    split at steps
    case h_1 alive =>
      cases steps
      exact .shutDown alive
    case h_2 => cases steps
  | notifyAll =>
    rw [step] at steps
    split at steps
    case h_1 comes =>
      cases steps
      exact .notifyAll comes
    case h_2 => cases steps
  | join =>
    rw [step] at steps
    split at steps
    case h_1 w rest comes =>
      split at steps
      case h_1 exited =>
        cases steps
        exact .join w rest comes exited
      case h_2 => cases steps
    case h_2 => cases steps
  | wakeSpuriously w =>
    cases steps
    exact .wakeSpuriously w

/-! ### The tasks of a run -/

def Event.acceptedTask : Event n S J → Option J
  | .accepted _ task => some task
  | .refused _ _ | .taken _ _ | .ran _ _ _ | .exited _ => none

def Event.takenTask : Event n S J → Option J
  | .taken _ task => some task
  | .accepted _ _ | .refused _ _ | .ran _ _ _ | .exited _ => none

def Event.ranTask : Event n S J → Option J
  | .ran _ task _ => some task
  | .accepted _ _ | .refused _ _ | .taken _ _ | .exited _ => none

/-- The tasks `submit` accepted, in the order of its sections. -/
def acceptedIn (es : List (Event n S J)) : List J := es.filterMap Event.acceptedTask

/-- The tasks that workers took, in the order of their sections. -/
def takenIn (es : List (Event n S J)) : List J := es.filterMap Event.takenTask

def ranIn (es : List (Event n S J)) : List J := es.filterMap Event.ranTask

/-- The task a worker has taken and not finished. -/
def Worker.held : Worker J → Multiset J
  | .running task => {task}
  | _ => 0

/-- Where the accepted tasks are, and who has left. -/
structure Books (es : List (Event n S J)) (pool : ThreadPool n S J) : Prop where
  queued : takenIn es ++ pool.tasks = acceptedIn es
  held : (takenIn es : Multiset J) = ranIn es + ∑ w, (pool.worker w).held
  drained : ∀ w, pool.worker w = .exited → pool.stopping = true ∧ pool.tasks = []
  flagged : pool.stopping = true ↔ pool.destructor ≠ .alive
  joined : ∀ rest, pool.destructor = .joining rest → ∀ w, w ∉ rest → pool.worker w = .exited

namespace Books

variable {start : ThreadPool n S J}

omit [DecidableEq S] in
theorem create (creates : ThreadPool.create n = .ok start) : Books [] start := by
  rw [ThreadPool.create] at creates
  split at creates
  · cases creates
  · cases creates
    constructor
    · rfl
    · simp [takenIn, ranIn, Worker.held]
    · intro w exited
      cases exited
    · simp
    · intro rest joining
      cases joining

theorem queued_next (queued : takenIn es ++ pool.tasks = acceptedIn es)
    (takes : Takes pool pool' es') :
    takenIn (es ++ es') ++ pool'.tasks = acceptedIn (es ++ es') := by
  rw [takenIn, acceptedIn, List.filterMap_append, List.filterMap_append, ← acceptedIn, ← queued]
  cases takes with
  | accept s task => simp [List.filterMap_cons, Event.takenTask, Event.acceptedTask, takenIn]
  | take w task rest _ _ front =>
    simp [List.filterMap_cons, Event.takenTask, Event.acceptedTask, takenIn, front]
  | refuse | exit | finish =>
    simp [List.filterMap_cons, Event.takenTask, Event.acceptedTask, takenIn, moveWorker]
  | _ => simp [takenIn, moveSubmitter]

omit [DecidableEq S] in
/-- A worker moves, and what it gets or gives is entered on its side. -/
theorem held_moved {taken ran got given : Multiset J}
    (held : taken = ran + ∑ w, (pool.worker w).held) {w : Fin n} {place : Worker J}
    (balance : (pool.worker w).held + got = given + place.held) :
    taken + got = ran + given + ∑ u, ((pool.moveWorker w place).worker u).held := by
  have moved := Census.sum_move Worker.held pool.worker w place
  apply add_right_cancel (b := place.held)
  calc taken + got + place.held
      = ran + (∑ u, (pool.worker u).held + place.held) + got := by rw [held]; abel
    _ = ran + ∑ u, (Function.update pool.worker w place u).held +
          ((pool.worker w).held + got) := by rw [← moved]; abel
    _ = ran + given + ∑ u, (Function.update pool.worker w place u).held + place.held := by
          rw [balance]
          abel

theorem held_next (held : (takenIn es : Multiset J) = ranIn es + ∑ w, (pool.worker w).held)
    (takes : Takes pool pool' es') :
    (takenIn (es ++ es') : Multiset J) = ranIn (es ++ es') + ∑ w, (pool'.worker w).held := by
  rw [takenIn, ranIn, List.filterMap_append, List.filterMap_append, ← Multiset.coe_add,
    ← Multiset.coe_add]
  cases takes with
  | take w task rest comes =>
    apply held_moved held
    rw [comes]
    rfl
  | finish w task outcome comes =>
    apply held_moved held
    rw [comes]
    rfl
  | exit w comes =>
    apply held_moved held
    rw [comes]
    rfl
  | _ =>
    have still : (takenIn es + 0 : Multiset J) = ranIn es + 0 + ∑ w, (pool.worker w).held := by
      rw [add_zero, add_zero]
      exact held
    exact still

/-- A worker leaves only at the end, and then nothing is added any more. -/
theorem drained_next
    (drained : ∀ w, pool.worker w = .exited → pool.stopping = true ∧ pool.tasks = [])
    (takes : Takes pool pool' es') :
    ∀ w, pool'.worker w = .exited → pool'.stopping = true ∧ pool'.tasks = [] := by
  cases takes with
  | accept s task runs =>
    intro u exited
    cases runs.symm.trans (drained u exited).1
  | exit w _ _ stopping empty => exact fun _ _ => ⟨stopping, empty⟩
  | take w task rest _ _ front =>
    intro u exited
    rcases Census.stands_cases exited with ⟨-, is⟩ | ⟨-, exited⟩
    · cases is
    · cases front.symm.trans (drained u exited).2
  | finish w =>
    intro u exited
    rcases Census.stands_cases exited with ⟨-, is⟩ | ⟨-, exited⟩
    · cases is
    · exact drained u exited
  | shutDown => exact fun u exited => ⟨rfl, (drained u exited).2⟩
  | _ => exact drained

theorem flagged_next (flagged : pool.stopping = true ↔ pool.destructor ≠ .alive)
    (takes : Takes pool pool' es') : pool'.stopping = true ↔ pool'.destructor ≠ .alive := by
  cases takes with
  | shutDown => simp
  | notifyAll comes => simpa [comes] using flagged
  | join w rest comes => simpa [comes] using flagged
  | _ => exact flagged

theorem joined_next
    (joined : ∀ rest, pool.destructor = .joining rest → ∀ w, w ∉ rest → pool.worker w = .exited)
    (takes : Takes pool pool' es') :
    ∀ rest, pool'.destructor = .joining rest → ∀ w, w ∉ rest → pool'.worker w = .exited := by
  cases takes with
  | exit w =>
    intro rest joining u out
    by_cases is : u = w
    · subst is
      exact Function.update_self u _ pool.worker
    · exact (Function.update_of_ne is _ pool.worker).trans (joined rest joining u out)
  | take w _ _ comes | finish w _ _ comes =>
    intro rest joining u out
    have exited := joined rest joining u out
    have is : u ≠ w := by
      rintro rfl
      cases comes.symm.trans exited
    exact (Function.update_of_ne is _ pool.worker).trans exited
  | shutDown =>
    intro rest joining
    cases joining
  | notifyAll =>
    rintro rest joining u out
    cases joining
    exact absurd (List.mem_finRange u) out
  | join w rest comes exited =>
    intro rest' joining u out
    cases joining
    by_cases is : u = w
    · exact is ▸ exited
    · exact joined _ comes u (by simp [is, out])
  | _ => exact joined

theorem next (books : Books es pool) (takes : Takes pool pool' es') : Books (es ++ es') pool' := by
  refine ⟨queued_next books.queued takes, held_next books.held takes, ?_, ?_, ?_⟩
  · exact drained_next books.drained takes
  · exact flagged_next books.flagged takes
  · exact joined_next books.joined takes

theorem of_run (creates : ThreadPool.create n = .ok start)
    (run : Trace.Run step Trace.free start es pool) : Books es pool :=
  run.invariant Books (create creates) fun books _ steps => books.next (step_takes steps)

omit [DecidableEq S] in
theorem ran_all (books : Books es pool) (exited : ∀ w, pool.worker w = .exited) :
    (ranIn es : Multiset J) = takenIn es := by
  have none : ∑ w, (pool.worker w).held = 0 := by
    apply Finset.sum_eq_zero
    intro w _
    rw [exited w]
    rfl
  rw [books.held, none, add_zero]

end Books

/-- Over any interleaving: the tasks taken are the first of the accepted ones in their order,
and none is taken or run twice. From the destructor's section on `submit` throws and adds
nothing. A worker that has left found the pool stopping and the queue empty, and when all
have left, as when the destructor returns, every accepted task has been run exactly once. -/
theorem threadPool_runs_each_task_once {start : ThreadPool n S J} (creates : create n = .ok start)
    (run : Trace.Run step Trace.free start es pool) :
    takenIn es <+: acceptedIn es ∧ takenIn es ++ pool.tasks = acceptedIn es ∧
    ((acceptedIn es).Nodup → (takenIn es).Nodup) ∧ (ranIn es).Subperm (takenIn es) ∧
    (pool.destructor ≠ .alive → pool.stopping = true) ∧
    (pool.stopping = true → ∀ s task pool' es', pool.step (.submit s task) = some (pool', es') →
      pool' = pool ∧ es' = [.refused s afterShutdown]) ∧
    (∀ w, pool.worker w = .exited → pool.stopping = true ∧ pool.tasks = []) ∧
    ((∀ w, pool.worker w = .exited) → (ranIn es).Perm (acceptedIn es)) ∧
    (pool.destructor = .joining [] → ∀ w, pool.worker w = .exited) := by
  have books := Books.of_run creates run
  have inOrder : takenIn es <+: acceptedIn es := ⟨pool.tasks, books.queued⟩
  refine ⟨inOrder, books.queued, ?_, ?_, books.flagged.mpr, ?_, books.drained, ?_, ?_⟩
  · exact fun distinct => distinct.sublist inOrder.sublist
  · rw [← Multiset.coe_le, books.held]
    exact Multiset.le_add_right _ _
  · intro stopping s task pool' es' steps
    rw [step, Option.ite_none_right_eq_some] at steps
    obtain ⟨-, steps⟩ := steps
    rw [submit, if_pos stopping] at steps
    cases steps
    exact ⟨rfl, rfl⟩
  · intro exited
    obtain ⟨-, empty⟩ := books.drained ⟨0, positive_of_create creates⟩ (exited _)
    have queued := books.queued
    rw [empty, List.append_nil] at queued
    rw [← queued, ← Multiset.coe_eq_coe]
    exact books.ran_all exited
  · intro joined w
    exact books.joined [] joined w List.not_mem_nil

/-- Two tasks, the first of which throws, a worker that sleeps before them, and a `submit`
that comes too late. -/
def drainingRun : List (Action 1 Unit Nat) :=
  [.fetch 0, .submit () 7, .notify () (some 0), .fetch 0, .submit () 8, .shutDown,
    .notify () none, .submit () 9, .finish 0 .threw, .notifyAll, .fetch 0, .finish 0 .returned,
    .fetch 0, .join]

theorem threadPool_runs_each_task_once_draining :
    ∃ (start pool : ThreadPool 1 Unit Nat) (es : List (Event 1 Unit Nat)),
      create 1 = .ok start ∧ Trace.Run step Trace.free start es pool ∧
      pool.destructor = .joining [] ∧ acceptedIn es = [7, 8] ∧ (ranIn es).Perm [7, 8] := by
  have run : Trace.Run step Trace.free _ ([] ++ _) _ := Trace.Run.start.exec
    (rfl : Trace.exec step ⟨[], false, ∅, fun _ => .waiting, fun _ => .outside, .alive⟩
      drainingRun = some (_, _)) fun _ _ _ _ => trivial
  obtain ⟨-, -, -, -, -, -, -, drained, joined⟩ := threadPool_runs_each_task_once rfl run
  exact ⟨_, _, _, rfl, run, rfl, rfl, drained (joined rfl)⟩

/-! ### Wake-ups -/

/-- Work in the queue has somebody to see it. -/
structure Attended (pool : ThreadPool n S J) : Prop where
  asleep : ∀ w ∈ pool.cv, pool.worker w = .waiting
  dismissed : pool.stopping = true → pool.destructor ≠ .notifying → pool.cv = ∅
  claimed : pool.tasks ≠ [] → (∃ w, pool.worker w ≠ .exited ∧ w ∉ pool.cv) ∨
    (∃ s, pool.submitter s = .notifying) ∨ pool.destructor = .notifying

namespace Attended

variable {start : ThreadPool n S J}

omit [DecidableEq S] in
theorem create (creates : ThreadPool.create n = .ok start) : Attended start := by
  rw [ThreadPool.create] at creates
  split at creates
  · cases creates
  · cases creates
    constructor
    · intro w asleep
      cases asleep
    · exact fun _ _ => rfl
    · intro some
      exact absurd rfl some

omit [DecidableEq S] in
/-- With nobody asleep any worker sees the queue. -/
theorem claimed_of_awake (drained : ∀ w, pool.worker w = .exited → pool.stopping = true ∧
    pool.tasks = []) (positive : 0 < n) (some : pool.tasks ≠ []) :
    pool.worker ⟨0, positive⟩ ≠ .exited := fun exited => some (drained _ exited).2

omit [DecidableEq S] in
theorem asleep_moved (attended : Attended pool) {w : Fin n} (awake : w ∉ pool.cv)
    (place : Worker J) : ∀ u ∈ pool.cv, (pool.moveWorker w place).worker u = .waiting := by
  intro u asleep
  have other : u ≠ w := fun is => awake (is ▸ asleep)
  exact (Function.update_of_ne other _ _).trans (attended.asleep u asleep)

theorem next (attended : Attended pool) (positive : 0 < n)
    (drained : ∀ w, pool.worker w = .exited → pool.stopping = true ∧ pool.tasks = [])
    (takes : Takes pool pool' es') : Attended pool' := by
  cases takes with
  | refuse => exact attended
  | accept s task =>
    refine ⟨attended.asleep, attended.dismissed, fun _ => ?_⟩
    exact .inr (.inl ⟨s, Function.update_self _ _ _⟩)
  | notify s cv comes wakes =>
    rcases wakes with ⟨rfl, none⟩ | ⟨w, asleep, rfl⟩
    · constructor
      · intro u there
        cases there
      · exact fun _ _ => rfl
      · intro some
        exact .inl ⟨_, claimed_of_awake drained positive some, Finset.notMem_empty _⟩
    · constructor
      · exact fun u there => attended.asleep u (Finset.mem_of_mem_erase there)
      · intro stopping notified
        have none : pool.cv = ∅ := attended.dismissed stopping notified
        rw [none] at asleep
        cases asleep
      · intro _
        refine .inl ⟨w, ?_, Finset.notMem_erase w _⟩
        intro exited
        cases (attended.asleep w asleep).symm.trans exited
  | wait w comes runs empty =>
    constructor
    · intro u there
      rcases Finset.mem_insert.mp there with rfl | there
      · exact comes
      · exact attended.asleep u there
    · intro stopping
      cases runs.symm.trans stopping
    · intro some
      exact absurd empty some
  | exit w comes awake _ empty =>
    refine ⟨attended.asleep_moved awake .exited, attended.dismissed, ?_⟩
    intro some
    exact absurd empty some
  | take w task rest comes awake =>
    refine ⟨attended.asleep_moved awake (.running task), attended.dismissed, fun _ => ?_⟩
    refine .inl ⟨w, ?_, awake⟩
    intro exited
    cases (Function.update_self w _ pool.worker).symm.trans exited
  | finish w task outcome comes =>
    have awake : w ∉ pool.cv := by
      intro asleep
      cases comes.symm.trans (attended.asleep w asleep)
    refine ⟨attended.asleep_moved awake .waiting, attended.dismissed, fun _ => ?_⟩
    refine .inl ⟨w, ?_, awake⟩
    intro exited
    cases (Function.update_self w _ pool.worker).symm.trans exited
  | shutDown =>
    constructor
    · exact attended.asleep
    · exact fun _ notified => absurd rfl notified
    · exact fun _ => .inr (.inr rfl)
  | notifyAll =>
    constructor
    · intro u there
      cases there
    · exact fun _ _ => rfl
    · intro some
      exact .inl ⟨_, claimed_of_awake drained positive some, Finset.notMem_empty _⟩
  | join w rest comes =>
    have notified : pool.destructor ≠ .notifying := by simp [comes]
    refine ⟨attended.asleep, fun stopping _ => attended.dismissed stopping notified, ?_⟩
    intro some
    rcases attended.claimed some with awake | submits | shuts
    · exact .inl awake
    · exact .inr (.inl submits)
    · exact absurd shuts notified
  | wakeSpuriously w =>
    constructor
    · exact fun u there => attended.asleep u (Finset.mem_of_mem_erase there)
    · intro stopping notified
      have none : pool.cv = ∅ := attended.dismissed stopping notified
      change pool.cv.erase w = ∅
      rw [none, Finset.erase_empty]
    · intro some
      rcases attended.claimed some with ⟨u, stays, awake⟩ | pending
      · exact .inl ⟨u, stays, fun there => awake (Finset.mem_of_mem_erase there)⟩
      · exact .inr pending

theorem of_run (creates : ThreadPool.create n = .ok start)
    (run : Trace.Run step Trace.free start es pool) : Attended pool := by
  have both := run.invariant (fun es pool => Books es pool ∧ Attended pool)
    ⟨.create creates, create creates⟩ fun both _ steps =>
      ⟨both.1.next (step_takes steps), both.2.next (positive_of_create creates) both.1.drained
        (step_takes steps)⟩
  exact both.2

end Attended

/-- No reachable state has work in the queue, or the pool stopping, while some worker has not
left, all that have not are asleep, and no notification is still to be issued. -/
theorem threadPool_strands_no_task {start : ThreadPool n S J} (creates : create n = .ok start)
    (run : Trace.Run step Trace.free start es pool) :
    ¬ ((pool.tasks ≠ [] ∨ pool.stopping = true) ∧ (∃ w, pool.worker w ≠ .exited) ∧
      (∀ w, pool.worker w ≠ .exited → w ∈ pool.cv) ∧ (∀ s, pool.submitter s ≠ .notifying) ∧
      pool.destructor ≠ .notifying) := by
  have attended := Attended.of_run creates run
  rintro ⟨work, ⟨w, stays⟩, asleep, unsubmitted, notified⟩
  rcases work with some | stopping
  · rcases attended.claimed some with ⟨u, stays, awake⟩ | ⟨s, submits⟩ | shuts
    · exact awake (asleep u stays)
    · exact unsubmitted s submits
    · exact notified shuts
  · have there := asleep w stays
    rw [attended.dismissed stopping notified] at there
    cases there

/-- Both workers sleep, with a task queued that the notification was not issued for. -/
theorem threadPool_strands_no_task_unnotified :
    ∃ (start pool : ThreadPool 2 Unit Nat) (es : List (Event 2 Unit Nat)),
      create 2 = .ok start ∧ Trace.Run step Trace.free start es pool ∧ pool.tasks = [7] ∧
      0 ∈ pool.cv ∧ ¬ ((pool.tasks ≠ [] ∨ pool.stopping = true) ∧
        (∃ w, pool.worker w ≠ .exited) ∧ (∀ w, pool.worker w ≠ .exited → w ∈ pool.cv) ∧
        (∀ s, pool.submitter s ≠ .notifying) ∧ pool.destructor ≠ .notifying) := by
  have run : Trace.Run step Trace.free _ ([] ++ _) _ := Trace.Run.start.exec
    (rfl : Trace.exec step ⟨[], false, ∅, fun _ => .waiting, fun _ => .outside, .alive⟩
      ([.fetch 0, .fetch 1, .submit () 7] : List (Action 2 Unit Nat)) = some (_, _))
      fun _ _ _ _ => trivial
  exact ⟨_, _, _, rfl, run, rfl, by decide, threadPool_strands_no_task rfl run⟩

end ThreadPool
end CppDB
