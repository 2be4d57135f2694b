import CppDB.Basic
import CppDB.Lib.Trace

/-! One connection of `network/tcp_server.cpp`: the code of the event loop on it
(`handleReadable`, `dispatch`, `dropConnection`) and the worker tasks that drain it, as a
machine whose actions are system calls and critical sections. What a system call returns,
and which thread moves next, is up to the action. -/
namespace CppDB.Network

def maxLineBytes : Nat := 64 * 1024

def maxPendingQueries : Nat := 1024

/-- The size of the buffer `handleReadable` reads into. -/
def bufferSize : Nat := 4096

/-- `find('\n')`, `substr` and `erase`: the first line, and what is behind its newline. -/
def takeLine : Str → Option (Str × Str)
  | [] => none
  | c :: rest =>
    if c = '\n' then some ([], rest) else (takeLine rest).map fun (line, rest) => (c :: line, rest)

/-- One trailing carriage return goes. -/
def stripReturn (line : Str) : Str := if line.getLast? = some '\r' then line.dropLast else line

structure Connection where
  inbox : Str
  pending : List Str
  busy : Bool
  closed : Bool
  deriving DecidableEq

/-- What can be seen of a run. `called` begins a call of `handleReadable`; `read` and `send`
are the calls on the descriptor with the bytes they moved, none if they failed. -/
inductive Event where
  | called
  | read (got : Str)
  | queued (line : Str)
  | executed (query reply : Str)
  | send (taken : Str)
  | failed
  | closed
  deriving DecidableEq

/-- Where the event loop is in `handleReadable`, with its locals. -/
inductive Loop where
  | waiting
  | reading
  | splitting (peerClosed shouldDispatch : Bool)
  | dispatching (shouldDispatch dropping : Bool)
  | dropping
  deriving DecidableEq

/-- Where a worker task is. -/
inductive Task where
  | submitted
  | draining
  | executing (query : Str)
  | writing (rest : Str)
  | failing
  deriving DecidableEq

/-- `listed` tells whether `connections_` still holds the connection. -/
structure Strand where
  conn : Connection
  listed : Bool
  loop : Loop
  tasks : List Task
  deriving DecidableEq

/-- What a worker task does next. -/
inductive Move where
  | start
  /-- The critical section at the top of the loop. -/
  | drain
  | execute (reply : Str)
  /-- `send` takes some bytes. -/
  | send (n : Nat)
  /-- `send` was interrupted, or has to wait and `poll` says that it can go on. -/
  | stall
  /-- `send` fails, or `poll` times out: `writeAll` returns false. -/
  | fail
  /-- The critical section after a failed `writeAll`. -/
  | abort
  deriving DecidableEq

inductive Action where
  /-- `run` calls `handleReadable`. -/
  | readable
  | read (got : Str)
  | interrupted
  | wouldBlock
  /-- End of file, or an error of `read`. -/
  | peerClosed
  /-- One turn of the loop that splits lines off. -/
  | split
  | dispatch
  | drop
  | work (task : Nat) (move : Move)
  deriving DecidableEq

/-- How a turn of the splitting loop ends. -/
inductive Turn where
  | noNewline
  | blank
  | overLimit
  | queued (line : Str) (shouldDispatch : Bool)
  deriving DecidableEq

namespace Connection

def fresh : Connection := ⟨[], [], false, false⟩

def nextLine (conn : Connection) : Connection × Turn :=
  match takeLine conn.inbox with
  | none => (conn, .noNewline)
  | some (raw, inbox) =>
    let conn := { conn with inbox }
    let line := stripReturn raw
    if line = [] then (conn, .blank)
    else if maxLineBytes < line.length then (conn, .overLimit)
    else if maxPendingQueries ≤ conn.pending.length then (conn, .overLimit)
    else ({ conn with pending := conn.pending ++ [line], busy := true }, .queued line !conn.busy)

/-- The critical section of `dropConnection`. -/
def drop (conn : Connection) : Connection × List Event :=
  ({ conn with closed := true }, if conn.busy then [] else [.closed])

/-- The deferred close of a task that ends. -/
def release (conn : Connection) : Connection × List Event :=
  ({ conn with busy := false }, if conn.closed then [.closed] else [])

end Connection

namespace Strand

/-- A connection that was just accepted. -/
def fresh : Strand := ⟨.fresh, true, .waiting, []⟩

def split (s : Strand) : Option (Strand × List Event) :=
  match s.loop with
  | .splitting peerClosed shouldDispatch =>
    match s.conn.nextLine with
    | (conn, .noNewline) =>
      let overLimit : Bool := maxLineBytes < conn.inbox.length
      some ({ s with conn, loop := .dispatching shouldDispatch (peerClosed || overLimit) }, [])
    | (conn, .blank) => some ({ s with conn }, [])
    | (conn, .overLimit) => some ({ s with conn, loop := .dispatching shouldDispatch true }, [])
    | (conn, .queued line wakes) =>
      some ({ s with conn, loop := .splitting peerClosed (shouldDispatch || wakes) },
        [.queued line])
  | _ => none

def dispatch (s : Strand) : Option (Strand × List Event) :=
  match s.loop with
  | .dispatching shouldDispatch dropping =>
    some ({ s with
      tasks := if shouldDispatch then s.tasks ++ [.submitted] else s.tasks
      loop := if dropping then .dropping else .waiting }, [])
  | _ => none

def dropConnection (s : Strand) : Option (Strand × List Event) :=
  match s.loop with
  | .dropping =>
    if s.listed then
      let (conn, events) := s.conn.drop
      some ({ s with conn, listed := false, loop := .waiting }, events)
    else some ({ s with loop := .waiting }, [])
  | _ => none

def setTask (s : Strand) (task : Nat) (now : Task) : Strand :=
  { s with tasks := s.tasks.set task now }

def endTask (s : Strand) (task : Nat) (conn : Connection) : Strand × List Event :=
  let (conn, events) := conn.release
  ({ s with conn, tasks := s.tasks.eraseIdx task }, events)

/-- A move of one worker task. -/
def work (s : Strand) (task : Nat) (move : Move) : Option (Strand × List Event) :=
  match s.tasks[task]?, move with
  | some .submitted, .start => some (s.setTask task .draining, [])
  | some .draining, .drain =>
    match s.conn.pending with
    | [] => some (s.endTask task s.conn)
    | query :: pending =>
      some ({ s with conn := { s.conn with pending } }.setTask task (.executing query), [])
  | some (.executing query), .execute reply =>
    some (s.setTask task (.writing (reply ++ ['\n'])), [.executed query reply])
  | some (.writing rest), .send n =>
    if 0 < n ∧ n ≤ rest.length then
      some (s.setTask task (if n = rest.length then .draining else .writing (rest.drop n)),
        [.send (rest.take n)])
    else none
  | some (.writing _), .stall => some (s, [.send []])
  | some (.writing _), .fail => some (s.setTask task .failing, [.send [], .failed])
  | some .failing, .abort => some (s.endTask task { s.conn with pending := [] })
  | _, _ => none

def step (s : Strand) : Action → Option (Strand × List Event)
  | .readable =>
    if s.loop = .waiting ∧ s.listed then some ({ s with loop := .reading }, [.called]) else none
  | .read got =>
    if s.loop = .reading ∧ 0 < got.length ∧ got.length ≤ bufferSize then
      some ({ s with conn := { s.conn with inbox := s.conn.inbox ++ got } }, [.read got])
    else none
  | .interrupted => if s.loop = .reading then some (s, [.read []]) else none
  | .wouldBlock =>
    if s.loop = .reading then some ({ s with loop := .splitting false false }, [.read []]) else none
  | .peerClosed =>
    if s.loop = .reading then some ({ s with loop := .splitting true false }, [.read []]) else none
  | .split => s.split
  | .dispatch => s.dispatch
  | .drop => s.dropConnection
  | .work task move => s.work task move

/-! ### What an action can do -/

/-- All that the actions do, with what they find. -/
inductive Takes (s : Strand) : Action → Strand → List Event → Prop where
  | readable (waits : s.loop = .waiting) (listed : s.listed = true) :
      Takes s .readable { s with loop := .reading } [.called]
  | read {got} (reads : s.loop = .reading) (nonempty : 0 < got.length) (fits : got.length ≤ bufferSize) :
      Takes s (.read got) { s with conn := { s.conn with inbox := s.conn.inbox ++ got } }
        [.read got]
  | interrupted (reads : s.loop = .reading) : Takes s .interrupted s [.read []]
  | wouldBlock (reads : s.loop = .reading) :
      Takes s .wouldBlock { s with loop := .splitting false false } [.read []]
  | peerClosed (reads : s.loop = .reading) :
      Takes s .peerClosed { s with loop := .splitting true false } [.read []]
  | noNewline {gone wakes} (splits : s.loop = .splitting gone wakes)
      (last : takeLine s.conn.inbox = none) :
      Takes s .split { s with
        loop := .dispatching wakes (gone || decide (maxLineBytes < s.conn.inbox.length)) } []
  | blank {gone wakes raw inbox} (splits : s.loop = .splitting gone wakes)
      (line : takeLine s.conn.inbox = some (raw, inbox)) (empty : stripReturn raw = []) :
      Takes s .split { s with conn := { s.conn with inbox } } []
  | overLimit {gone wakes raw inbox} (splits : s.loop = .splitting gone wakes)
      (line : takeLine s.conn.inbox = some (raw, inbox)) (full : stripReturn raw ≠ [])
      (exceeds : maxLineBytes < (stripReturn raw).length ∨ maxPendingQueries ≤ s.conn.pending.length) :
      Takes s .split { s with
        conn := { s.conn with inbox }, loop := .dispatching wakes true } []
  | queue {gone wakes raw inbox} (splits : s.loop = .splitting gone wakes)
      (line : takeLine s.conn.inbox = some (raw, inbox)) (full : stripReturn raw ≠ [])
      (short : (stripReturn raw).length ≤ maxLineBytes)
      (room : s.conn.pending.length < maxPendingQueries) :
      Takes s .split { s with
        conn := { s.conn with
          inbox, pending := s.conn.pending ++ [stripReturn raw], busy := true }
        loop := .splitting gone (wakes || !s.conn.busy) } [.queued (stripReturn raw)]
  | dispatch {wakes gone} (dispatches : s.loop = .dispatching wakes gone) :
      Takes s .dispatch { s with
        tasks := if wakes then s.tasks ++ [.submitted] else s.tasks
        loop := if gone then .dropping else .waiting } []
  | drop (drops : s.loop = .dropping) (listed : s.listed = true) :
      Takes s .drop { s with
        conn := { s.conn with closed := true }, listed := false, loop := .waiting }
        (if s.conn.busy then [] else [.closed])
  | dropped (drops : s.loop = .dropping) (unlisted : s.listed = false) :
      Takes s .drop { s with loop := .waiting } []
  | start {k} (is : s.tasks[k]? = some .submitted) :
      Takes s (.work k .start) (s.setTask k .draining) []
  | exit {k} (is : s.tasks[k]? = some .draining) (empty : s.conn.pending = []) :
      Takes s (.work k .drain)
        { s with conn := { s.conn with busy := false }, tasks := s.tasks.eraseIdx k }
        (if s.conn.closed then [.closed] else [])
  | pop {k query pending} (is : s.tasks[k]? = some .draining)
      (next : s.conn.pending = query :: pending) :
      Takes s (.work k .drain)
        ({ s with conn := { s.conn with pending } }.setTask k (.executing query)) []
  | execute {k query reply} (is : s.tasks[k]? = some (.executing query)) :
      Takes s (.work k (.execute reply)) (s.setTask k (.writing (reply ++ ['\n'])))
        [.executed query reply]
  | send {k rest n} (is : s.tasks[k]? = some (.writing rest)) (nonempty : 0 < n)
      (fits : n ≤ rest.length) :
      Takes s (.work k (.send n))
        (s.setTask k (if n = rest.length then .draining else .writing (rest.drop n)))
        [.send (rest.take n)]
  | stall {k rest} (is : s.tasks[k]? = some (.writing rest)) :
      Takes s (.work k .stall) s [.send []]
  | fail {k rest} (is : s.tasks[k]? = some (.writing rest)) :
      Takes s (.work k .fail) (s.setTask k .failing) [.send [], .failed]
  | abort {k} (is : s.tasks[k]? = some .failing) :
      Takes s (.work k .abort)
        { s with conn := { s.conn with pending := [], busy := false }, tasks := s.tasks.eraseIdx k }
        (if s.conn.closed then [.closed] else [])

theorem split_takes {s s' : Strand} {es : List Event} (takes : s.split = some (s', es)) :
    Takes s .split s' es := by
  rw [split] at takes
  split at takes
  case h_2 => cases takes
  case h_1 gone wakes splits =>
    rw [Connection.nextLine] at takes
    cases line : takeLine s.conn.inbox with
    | none =>
      simp only [line] at takes
      cases takes
      exact .noNewline splits line
    | some found =>
      obtain ⟨raw, inbox⟩ := found
      simp only [line] at takes
      split_ifs at takes with empty long crowded
      · cases takes
        exact .blank splits line empty
      · cases takes
        exact .overLimit splits line empty (.inl long)
      · cases takes
        exact .overLimit splits line empty (.inr crowded)
      · cases takes
        exact .queue splits line empty (not_lt.mp long) (not_le.mp crowded)

theorem work_takes {s s' : Strand} {k : Nat} {move : Move} {es : List Event}
    (takes : s.work k move = some (s', es)) : Takes s (.work k move) s' es := by
  unfold work at takes
  split at takes
  case h_1 is =>
    cases takes
    exact .start is
  case h_2 is =>
    split at takes
    case h_1 empty =>
      cases takes
      exact .exit is empty
    case h_2 next =>
      cases takes
      exact .pop is next
  case h_3 is =>
    cases takes
    exact .execute is
  case h_4 is =>
    split at takes
    case isTrue part =>
      cases takes
      exact .send is part.1 part.2
    case isFalse => cases takes
  case h_5 is =>
    cases takes
    exact .stall is
  case h_6 is =>
    cases takes
    exact .fail is
  case h_7 is =>
    cases takes
    exact .abort is
  case h_8 => cases takes

theorem step_takes {s s' : Strand} {a : Action} {es : List Event}
    (takes : s.step a = some (s', es)) : Takes s a s' es := by
  cases a with
  | split => exact split_takes takes
  | work k move => exact work_takes takes
  | readable =>
    simp only [step] at takes
    split_ifs at takes with ready
    cases takes
    exact .readable ready.1 ready.2
  | read got =>
    simp only [step] at takes
    split_ifs at takes with ready
    cases takes
    exact .read ready.1 ready.2.1 ready.2.2
  | interrupted =>
    simp only [step] at takes
    split_ifs at takes with reads
    cases takes
    exact .interrupted reads
  | wouldBlock =>
    simp only [step] at takes
    split_ifs at takes with reads
    cases takes
    exact .wouldBlock reads
  | peerClosed =>
    simp only [step] at takes
    split_ifs at takes with reads
    cases takes
    exact .peerClosed reads
  | dispatch =>
    simp only [step, dispatch] at takes
    split at takes
    case h_1 dispatches =>
      cases takes
      exact .dispatch dispatches
    case h_2 => cases takes
  | drop =>
    simp only [step, dropConnection] at takes
    split at takes
    case h_1 drops =>
      split_ifs at takes with listed
      · cases takes
        exact .drop drops listed
      · cases takes
        exact .dropped drops (Bool.eq_false_iff.mpr listed)
    case h_2 => cases takes

end Strand

/-! ### What a run shows -/

/-- The lines queued so far. -/
def lines (es : List Event) : List Str :=
  es.filterMap fun
    | .queued line => some line
    | _ => none

/-- The queries executed so far, each with its reply. -/
def executions (es : List Event) : List (Str × Str) :=
  es.filterMap fun
    | .executed query reply => some (query, reply)
    | _ => none

def queries (es : List Event) : List Str := (executions es).map Prod.fst

/-- The bytes the replies to the executed queries make up. -/
def replies (es : List Event) : Str := (executions es).flatMap fun e => e.2 ++ ['\n']

def received (es : List Event) : Str :=
  es.flatMap fun
    | .read got => got
    | _ => []

def sent (es : List Event) : Str :=
  es.flatMap fun
    | .send taken => taken
    | _ => []

section Appended

variable (es es' : List Event)

@[simp] theorem lines_append : lines (es ++ es') = lines es ++ lines es' := List.filterMap_append

@[simp] theorem executions_append : executions (es ++ es') = executions es ++ executions es' :=
  List.filterMap_append

@[simp] theorem queries_append : queries (es ++ es') = queries es ++ queries es' := by
  simp [queries, executions]

@[simp] theorem replies_append : replies (es ++ es') = replies es ++ replies es' := by
  simp [replies, executions]

@[simp] theorem received_append : received (es ++ es') = received es ++ received es' :=
  List.flatMap_append

@[simp] theorem sent_append : sent (es ++ es') = sent es ++ sent es' := List.flatMap_append

end Appended

end CppDB.Network
