import CppDB.Lib.Assoc
import CppDB.Network.Strand

/-! The server: its connections, the table `connections_` that finds them by descriptor, and
the descriptors, whose numbers are given out again once they are closed. -/
namespace CppDB.Network

open Trace

/-! ### The close of one connection -/

/-- The calls on a descriptor but its close. -/
def Event.uses : Event → Bool
  | .read _ | .send _ => true
  | _ => false

/-- Closed at most once, and not used any more behind that. -/
structure ClosedOnce (es : List Event) : Prop where
  once : es.count .closed ≤ 1
  last : es.Pairwise fun a b => a = .closed → b.uses = false

theorem ClosedOnce.append {es es' : List Event} (open_ : .closed ∉ es)
    (once : es' = [.closed] ∨ .closed ∉ es') : ClosedOnce (es ++ es') := by
  have quiet {es : List Event} (open_ : .closed ∉ es) :
      es.Pairwise fun a b => a = .closed → b.uses = false :=
    List.Pairwise.imp_of_mem (fun there _ _ is => absurd (is ▸ there) open_)
      (List.pairwise_of_forall fun _ _ => trivial)
  constructor
  · rw [List.count_append, List.count_eq_zero.mpr open_, Nat.zero_add]
    obtain rfl | none := once
    · exact Nat.le_refl 1
    · rw [List.count_eq_zero.mpr none]
      exact Nat.zero_le 1
  · refine List.pairwise_append.mpr ⟨quiet open_, ?_, ?_⟩
    · obtain rfl | none := once
      · exact List.pairwise_singleton _ _
      · exact quiet none
    · rintro a there b - rfl
      exact absurd there open_

namespace Strand

variable {s s' : Strand} {a : Action} {es es' : List Event}

/-- Once dropped and not busy, a connection does not move any more. -/
theorem no_step_of_released (serial : s.Serial) (kept : s.Kept) (closed : s.conn.closed = true)
    (idle : s.conn.busy = false) : ¬ Takes s a s' es' := by
  have unlisted : s.listed = false := by rw [kept.listed, closed]; rfl
  have waits := kept.waits unlisted
  obtain ⟨none, -⟩ := serial.idle idle
  intro takes
  cases takes with
  | readable _ listed => rw [unlisted] at listed; cases listed
  | read is | interrupted is | wouldBlock is | peerClosed is | noNewline is | blank is
  | overLimit is | queue is | dispatch is | drop is | dropped is => rw [waits] at is; cases is
  | start is | exit is | pop is | execute is | send is | stall is | fail is | abort is =>
    rw [none] at is
    cases is

/-- While the loop waits only the tasks move. -/
theorem waits_of_takes (waits : s.loop = .waiting) (uncalled : a ≠ .readable)
    (takes : Takes s a s' es') : s'.loop = .waiting ∧ s.tasks ≠ [] := by
  cases takes with
  | readable => exact absurd rfl uncalled
  | read is | interrupted is | wouldBlock is | peerClosed is | noNewline is | blank is
  | overLimit is | queue is | dispatch is | drop is | dropped is => rw [waits] at is; cases is
  | start is | exit is | pop is | execute is | send is | stall is | fail is | abort is =>
    refine ⟨waits, ?_⟩
    intro none
    rw [none] at is
    cases is

theorem listed_of_takes (stays : a ≠ .drop) (takes : Takes s a s' es') : s'.listed = s.listed := by
  cases takes with
  | drop => exact absurd rfl stays
  | _ => rfl

/-- The descriptor has been closed if the connection was dropped and is not busy. -/
structure Closing (es : List Event) (s : Strand) : Prop where
  released : .closed ∈ es ↔ s.conn.closed = true ∧ s.conn.busy = false
  closedOnce : ClosedOnce es

namespace Closing

theorem fresh : Closing [] Strand.fresh :=
  ⟨by simp [Strand.fresh, Connection.fresh], by simp, .nil⟩

/-- The first close. -/
theorem append (open_ : .closed ∉ es) (once : es' = [.closed] ∨ .closed ∉ es')
    (released : .closed ∈ es' ↔ s'.conn.closed = true ∧ s'.conn.busy = false) :
    Closing (es ++ es') s' :=
  ⟨by rw [List.mem_append, or_iff_right open_, released], .append open_ once⟩

theorem step (closing : Closing es s) (serial : s.Serial) (kept : s.Kept)
    (takes : Takes s a s' es') : Closing (es ++ es') s' := by
  have open_ : .closed ∉ es := by
    intro there
    obtain ⟨closed, idle⟩ := closing.released.mp there
    exact no_step_of_released serial kept closed idle takes
  have held : s.conn.closed = true → s.conn.busy = true := by
    intro closed
    by_contra idle
    exact open_ (closing.released.mpr ⟨closed, Bool.eq_false_iff.mpr idle⟩)
  have still (closed : s'.conn.closed = s.conn.closed) (busy : s'.conn.busy = s.conn.busy)
      (none : .closed ∉ es') : Closing (es ++ es') s' := by
    refine append open_ (.inr none) ⟨fun there => absurd there none, fun ⟨is, idle⟩ => ?_⟩
    rw [closed] at is
    rw [busy, held is] at idle
    cases idle
  cases takes with
  | queue =>
    refine append open_ (.inr (by simp)) ⟨fun there => by simp at there, fun ⟨_, idle⟩ => ?_⟩
    cases idle
  | drop drops listed =>
    cases busy : s.conn.busy with
    | true => exact append open_ (.inr (by simp)) (by simp [busy])
    | false => exact append open_ (.inl (by simp)) (by simp [busy])
  | exit is =>
    cases closed : s.conn.closed with
    | true => exact append open_ (.inl (by simp)) (by simp [closed])
    | false => exact append open_ (.inr (by simp)) (by simp [closed])
  | abort is =>
    cases closed : s.conn.closed with
    | true => exact append open_ (.inl (by simp)) (by simp [closed])
    | false => exact append open_ (.inr (by simp)) (by simp [closed])
  | _ => exact still rfl rfl (by simp)

end Closing

theorem closing_of_run {guard : List Event → Strand → Action → Prop}
    (run : Run step guard Strand.fresh es s) : Closing es s := by
  induction run with
  | start => exact Closing.fresh
  | next before _ takes ih =>
    exact ih.step (serial_of_run before) (kept_of_run before) (step_takes takes)

theorem open_of_listed {guard : List Event → Strand → Action → Prop}
    (run : Run step guard Strand.fresh es s) (listed : s.listed = true) : .closed ∉ es := by
  intro there
  have kept := (kept_of_run run).listed
  rw [((closing_of_run run).released.mp there).1, listed] at kept
  cases kept

/-- A connection that was dropped and has nothing left to do is closed. -/
theorem closed_of_unlisted {guard : List Event → Strand → Action → Prop}
    (run : Run step guard Strand.fresh es s) (unlisted : s.listed = false)
    (waits : s.loop = .waiting) (none : s.tasks = []) : .closed ∈ es := by
  have kept := (kept_of_run run).listed
  have crew := (serial_of_run run).crew
  rw [waits, none] at crew
  rw [unlisted, eq_comm, Bool.not_eq_false'] at kept
  exact (closing_of_run run).released.mpr ⟨kept, Bool.toNat_eq_zero.mp crew.symm⟩

end Strand

/-! ### The server -/

/-- A `Connection` with the descriptor it was made for. -/
structure Client where
  fd : Nat
  strand : Strand

/-- Before and after a call of `run`, in it, and the steps of the destructor. -/
inductive Stage where
  | idle
  | serving
  | draining
  | closing
  | destroyed
  deriving DecidableEq

/-- The destructor is past the point where tasks may run. -/
def Stage.late : Stage → Bool
  | .closing | .destroyed => true
  | _ => false

/-- `clients` holds every connection ever made; `connections` is the table, from descriptors
to clients; `files` tells for which client an open descriptor was accepted. -/
structure Server where
  clients : List Client
  connections : List (Nat × Nat)
  files : Nat → Option Nat
  stage : Stage

namespace Server

inductive Event where
  | accepted (client fd : Nat)
  /-- Accepted, not registered with `kevent`, and closed at once. -/
  | refused (fd : Nat)
  | on (client : Nat) (event : Network.Event)
  deriving DecidableEq

inductive Action where
  | run
  | stop
  | accept (fd : Nat) (registered : Bool)
  | on (client : Nat) (action : Network.Action)
  | destroy
  /-- `pool_.reset()` returns. -/
  | drained
  | close (fd : Nat)
  | finish

def fresh : Server := ⟨[], [], fun _ => none, .idle⟩

/-- The event loop is not in `handleReadable`. -/
def Resting (s : Server) : Prop := ∀ client ∈ s.clients, client.strand.loop = .waiting

instance decidableResting (s : Server) : Decidable s.Resting :=
  inferInstanceAs (Decidable (∀ client ∈ s.clients, client.strand.loop = .waiting))

/-- A client has moved; `fd` is the descriptor it closed if it closed one. -/
def update (s : Server) (i fd : Nat) (client : Client) (events : List Network.Event) :
    Server × List Event :=
  ({ s with
      clients := s.clients.set i client
      files := if .closed ∈ events then Function.update s.files fd none else s.files },
    events.map (.on i))

/-- `connections_.emplace` changes nothing if the descriptor is there. -/
def accept (s : Server) (fd : Nat) : Server × List Event :=
  ({ s with
      clients := s.clients ++ [⟨fd, .fresh⟩]
      connections := if (Assoc.find fd s.connections).isSome then s.connections
        else (fd, s.clients.length) :: s.connections
      files := Function.update s.files fd (some s.clients.length) },
    [.accepted s.clients.length fd])

/-- `dropConnection`, called for the client `i`. -/
def drop (s : Server) (i : Nat) (client : Client) : Option (Server × List Event) :=
  if client.strand.loop = .dropping then
    let s := { s with
      clients := s.clients.set i { client with strand := { client.strand with loop := .waiting } } }
    match Assoc.find client.fd s.connections with
    | none => some (s, [])
    | some j => do
      let found ← s.clients[j]?
      let (conn, events) := found.strand.conn.drop
      let strand := { found.strand with conn, listed := false }
      let s := { s with connections := Assoc.without client.fd s.connections }
      return s.update j client.fd { found with strand } events
  else none

/-- An action on a client. A call of `handleReadable` finds it in the table. -/
def onClient (s : Server) (i : Nat) (a : Network.Action) : Option (Server × List Event) := do
  let client ← s.clients[i]?
  match a with
  | .readable =>
    if s.stage = .serving ∧ s.Resting ∧ Assoc.find client.fd s.connections = some i then
      let strand := { client.strand with loop := .reading }
      return s.update i client.fd { client with strand } [.called]
    else none
  | .drop => s.drop i client
  | a => do
    let (strand, events) ← client.strand.step a
    return s.update i client.fd { client with strand } events

def step (s : Server) : Action → Option (Server × List Event)
  | .run => if s.stage = .idle then some ({ s with stage := .serving }, []) else none
  | .stop =>
    if s.stage = .serving ∧ s.Resting then some ({ s with stage := .idle }, []) else none
  | .accept fd registered =>
    if s.stage = .serving ∧ s.Resting ∧ s.files fd = none then
      if registered then some (s.accept fd) else some (s, [.refused fd])
    else none
  | .on i a => s.onClient i a
  | .destroy => if s.stage = .idle then some ({ s with stage := .draining }, []) else none
  | .drained =>
    if s.stage = .draining ∧ ∀ client ∈ s.clients, client.strand.tasks = [] then
      some ({ s with stage := .closing }, [])
    else none
  | .close fd =>
    if s.stage = .closing then
      (Assoc.find fd s.connections).map fun i =>
        ({ s with
            connections := Assoc.without fd s.connections
            files := Function.update s.files fd none }, [.on i .closed])
    else none
  | .finish =>
    if s.stage = .closing ∧ s.connections = [] then some ({ s with stage := .destroyed }, [])
    else none

/-- What one connection did. -/
def own (i : Nat) (es : List Event) : List Network.Event :=
  es.filterMap fun
    | .on j event => if j = i then some event else none
    | _ => none

section Own

variable {i j : Nat}

@[simp] theorem own_append (i : Nat) (es es' : List Event) :
    own i (es ++ es') = own i es ++ own i es' := List.filterMap_append

@[simp] theorem own_on (i : Nat) (events : List Network.Event) :
    own i (events.map (.on i)) = events := by
  simp [own, List.filterMap_map]

theorem own_on_of_ne (other : j ≠ i) (events : List Network.Event) :
    own i (events.map (.on j)) = [] := by
  simp [own, List.filterMap_map, other]

end Own

/-! ### What holds of every client -/

/-- A connection has run by itself, and in the end the destructor may have closed it. It is
in the table as long as it is listed and the destructor has not come to it, and as long as it
is not closed the descriptor is its own. -/
structure Lives (es : List Event) (s : Server) (i : Nat) (client : Client) : Prop where
  runs : ∃ past, Run Strand.step free Strand.fresh past client.strand ∧
    (own i es = past ∧ (client.strand.listed = true → (client.fd, i) ∈ s.connections) ∨
      own i es = past ++ [.closed] ∧ client.strand.listed = true ∧ s.stage.late = true)
  owns : .closed ∉ own i es → s.files client.fd = some i

structure Sound (es : List Event) (s : Server) : Prop where
  lives : ∀ i client, s.clients[i]? = some client → Lives es s i client
  unborn : ∀ i, s.clients.length ≤ i → own i es = []
  known : ∀ i fd, .accepted i fd ∈ es → i < s.clients.length
  entries : ∀ fd i, (fd, i) ∈ s.connections → ∃ client, s.clients[i]? = some client ∧
    client.fd = fd ∧ client.strand.listed = true ∧ .closed ∉ own i es
  keys : (Assoc.keys s.connections).Nodup
  rests : s.stage ≠ .serving → s.Resting
  drained : s.stage.late = true → ∀ client ∈ s.clients, client.strand.tasks = []
  emptied : s.stage = .destroyed → s.connections = []

variable {s s' : Server} {es es' : List Event} {i : Nat} {client : Client} {strand : Strand}
  {a : Network.Action} {events : List Network.Event}

/-- Nothing that concerns the client has changed. -/
theorem Lives.frame (lives : Lives es s i client) (same : own i es' = own i es)
    (table : (client.fd, i) ∈ s.connections → (client.fd, i) ∈ s'.connections)
    (files : s.files client.fd = some i → s'.files client.fd = some i)
    (late : s.stage.late = true → s'.stage.late = true) : Lives es' s' i client := by
  obtain ⟨past, run, ⟨whole, listed⟩ | ⟨closed, listed, isLate⟩⟩ := lives.runs
  · refine ⟨⟨past, run, .inl ⟨same.trans whole, fun is => table (listed is)⟩⟩, ?_⟩
    rw [same]
    exact fun open_ => files (lives.owns open_)
  · refine ⟨⟨past, run, .inr ⟨same.trans closed, listed, late isLate⟩⟩, ?_⟩
    rw [same]
    exact fun open_ => files (lives.owns open_)

namespace Sound

theorem fresh : Sound [] Server.fresh where
  lives _ _ is := by cases is
  unborn _ _ := rfl
  known _ _ there := absurd there List.not_mem_nil
  entries _ _ there := absurd there List.not_mem_nil
  keys := List.nodup_nil
  rests _ _ there := absurd there List.not_mem_nil
  drained _ _ there := absurd there List.not_mem_nil
  emptied is := by cases is

/-- Only the stage changes. -/
theorem restage (sound : Sound es s) (stage : Stage)
    (late : s.stage.late = true → stage.late = true) (rests : stage ≠ .serving → s.Resting)
    (drained : stage.late = true → ∀ client ∈ s.clients, client.strand.tasks = [])
    (emptied : stage = .destroyed → s.connections = []) :
    Sound (es ++ []) { s with stage } := by
  rw [List.append_nil]
  exact { sound with
    lives i client is := (sound.lives i client is).frame rfl id id late
    rests, drained, emptied }

/-- A descriptor that is free is not in the table. -/
theorem find_of_free (sound : Sound es s) {fd : Nat} (free : s.files fd = none) :
    Assoc.find fd s.connections = none := by
  rw [Assoc.find_eq_none, Assoc.mem_keys]
  rintro ⟨i, there⟩
  obtain ⟨client, is, rfl, -, open_⟩ := sound.entries fd i there
  rw [(sound.lives i client is).owns open_] at free
  cases free

theorem accept (sound : Sound es s) (serving : s.stage = .serving) {fd : Nat}
    (unused : s.files fd = none) : Sound (es ++ (s.accept fd).2) (s.accept fd).1 := by
  have absent := sound.find_of_free unused
  have same (j : Nat) : own j (es ++ (s.accept fd).2) = own j es := by
    simp [own, Server.accept]
  have table : (s.accept fd).1.connections = (fd, s.clients.length) :: s.connections := by
    simp [Server.accept, absent]
  have clients : (s.accept fd).1.clients = s.clients ++ [⟨fd, .fresh⟩] := rfl
  have stage : (s.accept fd).1.stage = .serving := serving
  constructor
  case lives =>
    intro i client is
    rw [clients, List.getElem?_append] at is
    split at is
    · refine (sound.lives i client is).frame (same i) ?_ (fun own => ?_) id
      · rw [table]
        exact List.mem_cons_of_mem _
      · have other : client.fd ≠ fd := by
          rintro rfl
          rw [own] at unused
          cases unused
        exact (Function.update_of_ne other ..).trans own
    · rename_i new
      obtain ⟨rfl, rfl⟩ : i = s.clients.length ∧ client = ⟨fd, .fresh⟩ := by
        obtain ⟨zero, is⟩ := List.getElem?_eq_some_iff.mp is
        rw [List.length_singleton] at zero
        rw [List.getElem_singleton] at is
        exact ⟨by omega, is.symm⟩
      have blank := sound.unborn s.clients.length (Nat.le_refl _)
      refine ⟨⟨[], .start, .inl ⟨(same _).trans blank, fun _ => ?_⟩⟩, fun _ => ?_⟩
      · rw [table]
        exact List.mem_cons_self
      · exact Function.update_self ..
  case unborn =>
    intro i beyond
    rw [clients, List.length_append, List.length_singleton] at beyond
    rw [same]
    exact sound.unborn i (by omega)
  case known =>
    intro i fd' there
    rw [clients, List.length_append, List.length_singleton]
    obtain there | there := List.mem_append.mp there
    · have known := sound.known i fd' there
      omega
    · cases List.mem_singleton.mp there
      exact Nat.lt_succ_self _
  case entries =>
    intro fd' i there
    rw [table] at there
    rw [same, clients]
    obtain new | there := List.mem_cons.mp there
    · cases new
      refine ⟨⟨fd, .fresh⟩, by simp, rfl, rfl, ?_⟩
      rw [sound.unborn _ (Nat.le_refl _)]
      exact List.not_mem_nil
    · obtain ⟨client, is, rest⟩ := sound.entries fd' i there
      have inside := (List.getElem?_eq_some_iff.mp is).1
      exact ⟨client, (List.getElem?_append_left inside).trans is, rest⟩
  case keys =>
    rw [table, Assoc.keys_cons, List.nodup_cons]
    exact ⟨Assoc.find_eq_none.mp absent, sound.keys⟩
  case rests => exact fun idle => absurd stage idle
  case drained => rw [stage]; exact fun late => by cases late
  case emptied => rw [stage]; exact fun gone => by cases gone

/-- Before the destructor closes connections, each has just run by itself. -/
theorem past (sound : Sound es s) (early : s.stage.late = false)
    (is : s.clients[i]? = some client) :
    Run Strand.step free Strand.fresh (own i es) client.strand ∧
      (client.strand.listed = true → (client.fd, i) ∈ s.connections) := by
  obtain ⟨past, run, ⟨rfl, listed⟩ | ⟨-, -, late⟩⟩ := (sound.lives i client is).runs
  · exact ⟨run, listed⟩
  · rw [early] at late
    cases late

/-- An action of the client on its own. -/
theorem move (sound : Sound es s) (is : s.clients[i]? = some client)
    (takes : client.strand.step a = some (strand, events)) (early : s.stage.late = false)
    (clients : s'.clients = s.clients.set i { client with strand })
    (files : s'.files =
      if .closed ∈ events then Function.update s.files client.fd none else s.files)
    (stage : s'.stage = s.stage)
    (table : s'.connections = s.connections ∧ strand.listed = client.strand.listed ∨
      s'.connections = Assoc.without client.fd s.connections ∧ strand.listed = false)
    (rests : s.stage ≠ .serving → strand.loop = .waiting) :
    Sound (es ++ events.map (.on i)) s' := by
  obtain ⟨run, listed⟩ := sound.past early is
  have run' := run.next trivial takes
  have inside : i < s.clients.length := (List.getElem?_eq_some_iff.mp is).1
  have mine : own i (es ++ events.map (.on i)) = own i es ++ events := by simp
  have theirs {j} (other : j ≠ i) : own j (es ++ events.map (.on i)) = own j es := by
    rw [own_append, own_on_of_ne (Ne.symm other), List.append_nil]
  have at_i : s'.clients[i]? = some { client with strand } := by
    rw [clients, List.getElem?_set_self inside]
  have at_other {j} (other : j ≠ i) : s'.clients[j]? = s.clients[j]? := by
    rw [clients, List.getElem?_set_ne (Ne.symm other)]
  -- the client moves, so its descriptor is open, and no other client has it
  have open_ : .closed ∉ own i es := by
    intro there
    obtain ⟨closed, idle⟩ := (Strand.closing_of_run run).released.mp there
    exact Strand.no_step_of_released (Strand.serial_of_run run) (Strand.kept_of_run run) closed
      idle (Strand.step_takes takes)
  have owned := (sound.lives i client is).owns open_
  have apart {fd j} (theirs : s.files fd = some j) (other : j ≠ i) : fd ≠ client.fd := by
    rintro rfl
    exact other (Option.some.inj (theirs.symm.trans owned))
  constructor
  case lives =>
    intro j client' is'
    by_cases other : j = i
    · subst other
      cases at_i.symm.trans is'
      refine ⟨⟨_, run', .inl ⟨mine, fun is => ?_⟩⟩, fun still => ?_⟩
      · obtain ⟨same, listed'⟩ | ⟨-, gone⟩ := table
        · rw [same]
          exact listed (listed' ▸ is)
        · rw [gone] at is
          cases is
      · rw [mine, List.mem_append, not_or] at still
        rw [files, if_neg still.2]
        exact owned
    · rw [at_other other] at is'
      have lives := sound.lives j client' is'
      refine lives.frame (theirs other) (fun there => ?_) (fun holds => ?_) (by rw [stage]; exact id)
      · obtain ⟨same, -⟩ | ⟨less, -⟩ := table
        · rwa [same]
        · obtain ⟨client'', is'', -, -, still⟩ := sound.entries _ _ there
          cases is'.symm.trans is''
          rw [less]
          exact List.mem_filter.mpr ⟨there, by simpa using apart (lives.owns still) other⟩
      · rw [files]
        split
        · rw [Function.update_of_ne (apart holds other), holds]
        · exact holds
  case unborn =>
    intro j beyond
    rw [clients, List.length_set] at beyond
    rw [theirs (by omega)]
    exact sound.unborn j beyond
  case known =>
    intro j fd there
    rw [clients, List.length_set]
    obtain there | there := List.mem_append.mp there
    · exact sound.known j fd there
    · simp at there
  case entries =>
    intro fd j there
    have before : (fd, j) ∈ s.connections := by
      obtain ⟨same, -⟩ | ⟨less, -⟩ := table
      · rwa [same] at there
      · rw [less] at there
        exact List.mem_of_mem_filter there
    obtain ⟨client', is', rfl, listed', still⟩ := sound.entries fd j before
    by_cases other : j = i
    · subst other
      cases is.symm.trans is'
      obtain ⟨-, same⟩ | ⟨less, -⟩ := table
      · refine ⟨_, at_i, rfl, same.trans listed', ?_⟩
        rw [mine]
        exact Strand.open_of_listed run' (same.trans listed')
      · rw [less, Assoc.without, List.mem_filter] at there
        simp at there
    · rw [theirs other]
      exact ⟨client', (at_other other).trans is', rfl, listed', still⟩
  case keys =>
    obtain ⟨same, -⟩ | ⟨less, -⟩ := table
    · rw [same]
      exact sound.keys
    · rw [less]
      exact sound.keys.sublist (List.Sublist.map _ List.filter_sublist)
  case rests =>
    rw [stage]
    intro idle client' there
    rw [clients] at there
    obtain there | rfl := List.mem_or_eq_of_mem_set there
    · exact sound.rests idle client' there
    · exact rests idle
  case drained => rw [stage, early]; exact fun late => by cases late
  case emptied =>
    rw [stage]
    intro gone
    rw [gone] at early
    cases early

theorem readable (sound : Sound es s) (is : s.clients[i]? = some client)
    (serving : s.stage = .serving) (rests : s.Resting)
    (found : Assoc.find client.fd s.connections = some i) :
    Sound (es ++ (s.update i client.fd
        { client with strand := { client.strand with loop := .reading } } [.called]).2)
      (s.update i client.fd
        { client with strand := { client.strand with loop := .reading } } [.called]).1 := by
  obtain ⟨client', is', -, listed, -⟩ := sound.entries _ _ (Assoc.mem_of_find found)
  cases is.symm.trans is'
  have waits := rests client (List.mem_of_getElem? is)
  have takes : client.strand.step .readable =
      some ({ client.strand with loop := .reading }, [.called]) :=
    if_pos ⟨waits, listed⟩
  exact sound.move is takes (by rw [serving]; rfl) rfl rfl rfl (.inl ⟨rfl, rfl⟩)
    fun idle => absurd serving idle

theorem drop (sound : Sound es s) (is : s.clients[i]? = some client)
    (drops : s.drop i client = some (s', es')) : Sound (es ++ es') s' := by
  rw [Server.drop] at drops
  split at drops
  case isFalse => cases drops
  case isTrue dropping =>
    have serving : s.stage = .serving := by
      by_contra idle
      have waits := sound.rests idle client (List.mem_of_getElem? is)
      rw [dropping] at waits
      cases waits
    have early : s.stage.late = false := by rw [serving]; rfl
    obtain ⟨run, listed⟩ := sound.past early is
    have isListed := (Strand.kept_of_run run).busy (by rw [dropping]; simp)
    have found := Assoc.find_of_mem sound.keys (listed isListed)
    have inside : i < s.clients.length := (List.getElem?_eq_some_iff.mp is).1
    have takes : client.strand.step .drop = some
        ({ client.strand with
            conn := client.strand.conn.drop.1, listed := false, loop := .waiting },
          client.strand.conn.drop.2) := by
      simp [Strand.step, Strand.dropConnection, dropping, isListed]
    simp only [found, List.getElem?_set_self inside, Option.bind_eq_bind, Option.bind_some,
      List.set_set, update] at drops
    cases drops
    exact sound.move is takes early rfl rfl rfl (.inr ⟨rfl, rfl⟩) fun _ => rfl

theorem onClient (sound : Sound es s) (steps : s.onClient i a = some (s', es')) :
    Sound (es ++ es') s' := by
  rw [Server.onClient, Option.bind_eq_bind, Option.bind_eq_some_iff] at steps
  obtain ⟨client, is, steps⟩ := steps
  split at steps
  · split at steps
    · rename_i ready
      cases steps
      exact sound.readable is ready.1 ready.2.1 ready.2.2
    · cases steps
  · exact sound.drop is steps
  · rename_i uncalled stays
    rw [Option.bind_eq_bind, Option.bind_eq_some_iff] at steps
    obtain ⟨⟨strand, events⟩, takes, steps⟩ := steps
    cases steps
    have there := List.mem_of_getElem? is
    have moves := Strand.step_takes takes
    have early : s.stage.late = false := by
      cases late : s.stage.late with
      | false => rfl
      | true =>
        have idle : s.stage ≠ .serving := by
          intro serving
          rw [serving] at late
          cases late
        obtain ⟨-, some⟩ := Strand.waits_of_takes (sound.rests idle client there) uncalled moves
        exact absurd (sound.drained late client there) some
    exact sound.move is takes early rfl rfl rfl (.inl ⟨rfl, Strand.listed_of_takes stays moves⟩)
      fun idle => (Strand.waits_of_takes (sound.rests idle client there) uncalled moves).1

/-- The destructor closes a connection that is still in the table. -/
theorem close (sound : Sound es s) {fd : Nat} (closing : s.stage = .closing)
    (found : Assoc.find fd s.connections = some i) :
    Sound (es ++ [Event.on i .closed]) { s with
      connections := Assoc.without fd s.connections
      files := Function.update s.files fd none } := by
  obtain ⟨client, is, rfl, listed, open_⟩ := sound.entries _ _ (Assoc.mem_of_find found)
  have owned := (sound.lives i client is).owns open_
  have mine : own i (es ++ [Event.on i .closed]) = own i es ++ [Network.Event.closed] := by
    simp [own]
  have theirs {j} (other : j ≠ i) : own j (es ++ [Event.on i .closed]) = own j es := by
    simp [own, Ne.symm other]
  have apart {fd' j} (theirs : s.files fd' = some j) (other : j ≠ i) : fd' ≠ client.fd := by
    rintro rfl
    exact other (Option.some.inj (theirs.symm.trans owned))
  constructor
  case lives =>
    intro j client' is'
    by_cases other : j = i
    · subst other
      cases is.symm.trans is'
      obtain ⟨past, run, ⟨whole, -⟩ | ⟨closed, -⟩⟩ := (sound.lives j client is).runs
      · refine ⟨⟨past, run, .inr ⟨?_, listed, by rw [closing]; rfl⟩⟩, fun still => ?_⟩
        · rw [mine, whole]
        · rw [mine] at still
          exact absurd (List.mem_append_right _ List.mem_cons_self) still
      · rw [closed] at open_
        exact absurd (List.mem_append_right _ List.mem_cons_self) open_
    · have lives := sound.lives j client' is'
      have table (there : (client'.fd, j) ∈ s.connections) :
          (client'.fd, j) ∈ Assoc.without client.fd s.connections := by
        obtain ⟨client'', is'', -, -, still⟩ := sound.entries _ _ there
        cases is'.symm.trans is''
        have differs := apart (lives.owns still) other
        exact List.mem_filter.mpr ⟨there, by simpa using differs⟩
      have files (holds : s.files client'.fd = some j) :
          Function.update s.files client.fd none client'.fd = some j :=
        (Function.update_of_ne (apart holds other) ..).trans holds
      exact lives.frame (theirs other) table files id
  case unborn =>
    intro j beyond
    have inside : i < s.clients.length := (List.getElem?_eq_some_iff.mp is).1
    have beyond : s.clients.length ≤ j := beyond
    rw [theirs (by omega)]
    exact sound.unborn j beyond
  case known =>
    intro j fd there
    obtain there | there := List.mem_append.mp there
    · exact sound.known j fd there
    · simp at there
  case entries =>
    intro fd j there
    obtain ⟨before, differs⟩ := List.mem_filter.mp there
    obtain ⟨client', is', rfl, listed', still⟩ := sound.entries fd j before
    have other : j ≠ i := by
      rintro rfl
      cases is.symm.trans is'
      simp at differs
    rw [theirs other]
    exact ⟨client', is', rfl, listed', still⟩
  case keys => exact sound.keys.sublist (List.Sublist.map _ List.filter_sublist)
  case rests => exact sound.rests
  case drained => exact sound.drained
  case emptied =>
    intro gone
    rw [closing] at gone
    cases gone

theorem step {a : Action} (sound : Sound es s) (steps : s.step a = some (s', es')) :
    Sound (es ++ es') s' := by
  cases a with
  | run =>
    simp only [Server.step] at steps
    split_ifs at steps with idle
    cases steps
    have early : s.stage.late = false := by rw [idle]; rfl
    exact sound.restage .serving (by simp [early]) (by simp) (fun late => by cases late)
      (fun gone => by cases gone)
  | stop =>
    simp only [Server.step] at steps
    split_ifs at steps with ready
    cases steps
    have early : s.stage.late = false := by rw [ready.1]; rfl
    exact sound.restage .idle (by simp [early]) (fun _ => ready.2) (fun late => by cases late)
      (fun gone => by cases gone)
  | accept fd registered =>
    simp only [Server.step] at steps
    split_ifs at steps with ready registers
    · cases steps
      exact sound.accept ready.1 ready.2.2
    · cases steps
      have same (j : Nat) : own j (es ++ [Event.refused fd]) = own j es := by simp [own]
      exact { sound with
        lives i client is := (sound.lives i client is).frame (same i) id id id
        unborn i beyond := (same i).trans (sound.unborn i beyond)
        known i fd' there := sound.known i fd' (by simpa using there)
        entries fd i there := by
          rw [same]
          exact sound.entries fd i there }
  | on i a => exact sound.onClient steps
  | destroy =>
    simp only [Server.step] at steps
    split_ifs at steps with idle
    cases steps
    have early : s.stage.late = false := by rw [idle]; rfl
    exact sound.restage .draining (by simp [early]) (fun _ => sound.rests (by rw [idle]; simp))
      (fun late => by cases late) (fun gone => by cases gone)
  | drained =>
    simp only [Server.step] at steps
    split_ifs at steps with ready
    cases steps
    exact sound.restage .closing (fun _ => rfl) (fun _ => sound.rests (by rw [ready.1]; simp))
      (fun _ => ready.2) (fun gone => by cases gone)
  | close fd =>
    simp only [Server.step] at steps
    split_ifs at steps with closing
    obtain ⟨i, found, same⟩ := Option.map_eq_some_iff.mp steps
    cases same
    exact sound.close closing found
  | finish =>
    simp only [Server.step] at steps
    split_ifs at steps with ready
    cases steps
    exact sound.restage .destroyed (fun _ => rfl) (fun _ => sound.rests (by rw [ready.1]; simp))
      (fun _ => sound.drained (by rw [ready.1]; rfl)) (fun _ => ready.2)

end Sound

theorem sound_of_run (run : Run step free Server.fresh es s) : Sound es s :=
  run.invariant Sound Sound.fresh fun sound _ steps => sound.step steps

/-- Every connection closes its descriptor at most once, does not read from it or send on it
behind that, and has it for itself until then. When the server is destroyed, every connection
accepted has closed its descriptor. -/
theorem descriptors_closed_once (run : Run step free Server.fresh es s) :
    (∀ i, ClosedOnce (own i es)) ∧
      (∀ i client, s.clients[i]? = some client → .closed ∉ own i es →
        s.files client.fd = some i) ∧
      (s.stage = .destroyed → ∀ i fd, .accepted i fd ∈ es → .closed ∈ own i es) := by
  have sound := sound_of_run run
  refine ⟨fun i => ?_, fun i client is => (sound.lives i client is).owns, fun gone i fd there => ?_⟩
  · by_cases inside : i < s.clients.length
    · obtain ⟨past, run, ⟨rfl, -⟩ | ⟨closed, listed, -⟩⟩ :=
        (sound.lives i _ (List.getElem?_eq_getElem inside)).runs
      · exact (Strand.closing_of_run run).closedOnce
      · rw [closed]
        exact .append (Strand.open_of_listed run listed) (.inl rfl)
    · rw [sound.unborn i (not_lt.mp inside)]
      exact ⟨Nat.zero_le 1, .nil⟩
  · have inside := sound.known i fd there
    have is := List.getElem?_eq_getElem inside
    have member := List.mem_of_getElem? is
    have late : s.stage.late = true := by rw [gone]; rfl
    obtain ⟨past, run, ⟨rfl, listed⟩ | ⟨closed, -⟩⟩ := (sound.lives i _ is).runs
    · have unlisted : s.clients[i].strand.listed = false := by
        by_contra still
        have entry := listed (Bool.eq_true_of_not_eq_false still)
        rw [sound.emptied gone] at entry
        cases entry
      exact Strand.closed_of_unlisted run unlisted (sound.rests (by rw [gone]; simp) _ member)
        (sound.drained late _ member)
    · rw [closed]
      exact List.mem_append_right _ List.mem_cons_self

/-- One connection is dropped while it is busy and closed by its task; its descriptor is
given out again, and the second connection is closed by the destructor. -/
theorem descriptors_closed_once_reused :
    ∃ es s, Run step free Server.fresh es s ∧ s.stage = .destroyed ∧
      .accepted 0 7 ∈ es ∧ .accepted 1 7 ∈ es ∧
      (∀ i, ClosedOnce (own i es)) ∧
      (∀ i client, s.clients[i]? = some client → .closed ∉ own i es →
        s.files client.fd = some i) ∧
      (s.stage = .destroyed → ∀ i fd, .accepted i fd ∈ es → .closed ∈ own i es) := by
  have execs : (exec step Server.fresh [.run, .accept 7 true, .on 0 .readable,
      .on 0 (.read "a\n".toList), .on 0 .peerClosed, .on 0 .split, .on 0 .split, .on 0 .dispatch,
      .on 0 (.work 0 .start), .on 0 (.work 0 .drain), .on 0 .drop,
      .on 0 (.work 0 (.execute "A".toList)), .on 0 (.work 0 .fail), .on 0 (.work 0 .abort),
      .accept 7 true, .accept 8 false, .on 1 .readable, .on 1 .wouldBlock, .on 1 .split,
      .on 1 .dispatch, .stop, .destroy, .drained, .close 7, .finish]).map
        (fun result => (result.1.stage, result.2)) =
      some (.destroyed, [.accepted 0 7, .on 0 .called, .on 0 (.read "a\n".toList),
        .on 0 (.read []), .on 0 (.queued "a".toList), .on 0 (.executed "a".toList "A".toList),
        .on 0 (.send []), .on 0 .failed, .on 0 .closed, .accepted 1 7, .refused 8,
        .on 1 .called, .on 1 (.read []), .on 1 .closed]) := by
    decide +kernel
  obtain ⟨⟨s, es⟩, execs, same⟩ := Option.map_eq_some_iff.mp execs
  obtain ⟨gone, rfl⟩ := Prod.mk.inj same
  have run : Run step free Server.fresh _ s := Run.start.exec execs fun _ _ _ _ => trivial
  exact ⟨_, s, run, gone, by simp, by simp, descriptors_closed_once run⟩

end Server

end CppDB.Network
