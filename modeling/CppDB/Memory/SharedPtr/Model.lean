import CppDB.Lib.Trace

/-! The reference-counted pointer of `memory/SharedPtr.hpp`. Threads run its operations on
handles, and every access to a strong count and every `delete` is a step of its own. An
object or a control block is the allocation, not the address: a deleted one does not come
back. A step that would touch a deleted one does not exist. -/
namespace CppDB

namespace SharedPtr

/-- Where a `SharedPtr` can be: a handle of the program, or the local (`copy`, `stolen`,
`fresh`) of the operation a thread is in. -/
inductive Place (H T : Type) where
  | handle (h : H)
  | temporary (t : T)
deriving DecidableEq

/-- A `SharedPtr` and its fields `ptr_` and `control_`, which are both null or both not.
Between `release()` and the end of `reset()` or of the destructor the fields are stale. -/
inductive Slot (A C : Type) where
  | absent
  | held (fields : Option (A × C))
  | released (fields : Option (A × C))
deriving DecidableEq

inductive Object where
  | unborn
  | alive
  | deleted
deriving DecidableEq

inductive ControlBlock where
  | unborn
  | live (strong : Nat)
  | deleted
deriving DecidableEq

/-- What the thread that took a count to zero has still to delete. -/
inductive Doomed (A C : Type) where
  | nothing
  | both (object : A) (control : C)
  | block (control : C)
deriving DecidableEq

/-- The parts the operations are made of. -/
inductive Instr (X : Type) where
  | null (x : X)
  | construct (x : X)
  | copy (x other : X)
  | move (x other : X)
  | swap (x other : X)
  | release (x : X)
  | clear (x : X)
  | vanish (x : X)
deriving DecidableEq

/-- The argument of `SharedPtr(T*)` and of `reset(T*)`. -/
inductive Pointer where
  | null
  | fresh

inductive Op (H : Type) where
  | construct (h : H) (ptr : Pointer)
  | copy (h other : H)
  | move (h other : H)
  | copyAssign (h other : H)
  | moveAssign (h other : H)
  | swap (h other : H)
  | reset (h : H)
  | resetTo (h : H) (ptr : Pointer)
  | destroy (h : H)

variable {T H A C : Type}

def Pointer.instr {X : Type} (x : X) : Pointer → Instr X
  | .null => .null x
  | .fresh => .construct x

/-- `swap` with the local, then its destructor. -/
def swapAndDrop (t : T) (h : H) : List (Instr (Place H T)) :=
  [.swap (.handle h) (.temporary t), .release (.temporary t), .vanish (.temporary t)]

/-- What a thread does in an operation. -/
def Op.program (t : T) : Op H → List (Instr (Place H T))
  | .construct h ptr => [ptr.instr (.handle h)]
  | .copy h other => [.copy (.handle h) (.handle other)]
  | .move h other => [.move (.handle h) (.handle other)]
  | .copyAssign h other => .copy (.temporary t) (.handle other) :: swapAndDrop t h
  | .moveAssign h other => .move (.temporary t) (.handle other) :: swapAndDrop t h
  | .swap h other => [.swap (.handle h) (.handle other)]
  | .reset h => [.release (.handle h), .clear (.handle h)]
  | .resetTo h ptr => ptr.instr (.temporary t) :: swapAndDrop t h
  | .destroy h => [.release (.handle h), .vanish (.handle h)]

structure Memory (X A C : Type) where
  object : A → Object
  control : C → ControlBlock
  slot : X → Slot A C

section Execution

variable {X : Type} [DecidableEq X] [DecidableEq A] [DecidableEq C]

/-- `SharedPtr(T*)` with what the two `new` returned. -/
def Memory.construct (m : Memory X A C) (x : X) (a : A) (c : C) : Option (Memory X A C) :=
  match m.slot x, m.object a, m.control c with
  | .absent, .unborn, .unborn =>
    some {
      object := Function.update m.object a .alive
      control := Function.update m.control c (.live 1)
      slot := Function.update m.slot x (.held (some (a, c))) }
  | _, _, _ => none

/-- Every other instruction, with what it leaves its thread to delete. -/
def Memory.exec (m : Memory X A C) : Instr X → Option (Memory X A C × Doomed A C)
  | .null x =>
    match m.slot x with
    | .absent => some ({ m with slot := Function.update m.slot x (.held none) }, .nothing)
    | _ => none
  | .construct _ => none
  | .copy x other =>
    match m.slot x, m.slot other with
    | .absent, .held none =>
      some ({ m with slot := Function.update m.slot x (.held none) }, .nothing)
    | .absent, .held (some (a, c)) =>
      match m.control c with
      | .live n =>
        some ({ m with
          control := Function.update m.control c (.live (n + 1))
          slot := Function.update m.slot x (.held (some (a, c))) }, .nothing)
      | _ => none
    | _, _ => none
  | .move x other =>
    match m.slot x, m.slot other with
    | .absent, .held fields =>
      some ({ m with
        slot := Function.update (Function.update m.slot x (.held fields)) other (.held none) },
        .nothing)
    | _, _ => none
  | .swap x other =>
    match m.slot x, m.slot other with
    | .held fields, .held fields' =>
      some ({ m with
        slot := Function.update (Function.update m.slot x (.held fields')) other (.held fields) },
        .nothing)
    | _, _ => none
  | .release x =>
    match m.slot x with
    | .held none =>
      some ({ m with slot := Function.update m.slot x (.released none) }, .nothing)
    | .held (some (a, c)) =>
      match m.control c with
      | .live (n + 1) =>
        some ({ m with
          control := Function.update m.control c (.live n)
          slot := Function.update m.slot x (.released (some (a, c))) },
          if n = 0 then .both a c else .nothing)
      | _ => none
    | _ => none
  | .clear x =>
    match m.slot x with
    | .released _ => some ({ m with slot := Function.update m.slot x (.held none) }, .nothing)
    | _ => none
  | .vanish x =>
    match m.slot x with
    | .released _ => some ({ m with slot := Function.update m.slot x .absent }, .nothing)
    | _ => none

end Execution

structure State (T H A C : Type) where
  memory : Memory (Place H T) A C
  program : T → List (Instr (Place H T))
  doomed : T → Doomed A C

inductive Event (A C : Type) where
  | constructed (object : A) (control : C)
  | deletedObject (object : A)
  | deletedControl (control : C)

/-- A thread enters an operation, allocates for the constructor it stands at, or goes on
with what else it stands at. -/
inductive Action (T H A C : Type) where
  | call (t : T) (op : Op H)
  | allocate (t : T) (object : A) (control : C)
  | run (t : T)

def create : State T H A C where
  memory := ⟨fun _ => .unborn, fun _ => .unborn, fun _ => .absent⟩
  program := fun _ => []
  doomed := fun _ => .nothing

variable [DecidableEq T] [DecidableEq H] [DecidableEq A] [DecidableEq C]

def step (s : State T H A C) : Action T H A C → Option (State T H A C × List (Event A C))
  | .call t op =>
    match s.doomed t, s.program t with
    | .nothing, [] =>
      some ({ s with program := Function.update s.program t (op.program t) }, [])
    | _, _ => none
  | .allocate t a c =>
    match s.doomed t, s.program t with
    | .nothing, .construct x :: rest =>
      (s.memory.construct x a c).map fun memory =>
        ({ s with memory := memory, program := Function.update s.program t rest },
          [.constructed a c])
    | _, _ => none
  | .run t =>
    match s.doomed t with
    | .both a c =>
      match s.memory.object a with
      | .alive =>
        some ({ s with
          memory := { s.memory with object := Function.update s.memory.object a .deleted }
          doomed := Function.update s.doomed t (.block c) }, [.deletedObject a])
      | _ => none
    | .block c =>
      match s.memory.control c with
      | .live _ =>
        some ({ s with
          memory := { s.memory with control := Function.update s.memory.control c .deleted }
          doomed := Function.update s.doomed t .nothing }, [.deletedControl c])
      | _ => none
    | .nothing =>
      match s.program t with
      | [] => none
      | i :: rest =>
        (s.memory.exec i).map fun (memory, doomed) =>
          (⟨memory, Function.update s.program t rest, Function.update s.doomed t doomed⟩, [])

/-! ### What a step does -/

/-- The ways an instruction other than a construction can go: the references only change
places, or the count of one goes up or down. -/
inductive Memory.Takes {X : Type} [DecidableEq X] (m : Memory X A C) :
    Instr X → Memory X A C → Doomed A C → Prop where
  | null (x : X) (here : m.slot x = .absent) :
      Takes m (.null x) { m with slot := Function.update m.slot x (.held none) } .nothing
  | copyNull (x other : X) (here : m.slot x = .absent) (there : m.slot other = .held none) :
      Takes m (.copy x other) { m with slot := Function.update m.slot x (.held none) } .nothing
  | copy (x other : X) (a : A) (c : C) (n : Nat) (here : m.slot x = .absent)
      (there : m.slot other = .held (some (a, c))) (live : m.control c = .live n) :
      Takes m (.copy x other) { m with
        control := Function.update m.control c (.live (n + 1))
        slot := Function.update m.slot x (.held (some (a, c))) } .nothing
  | move (x other : X) (fields : Option (A × C)) (here : m.slot x = .absent)
      (there : m.slot other = .held fields) :
      Takes m (.move x other) { m with
        slot := Function.update (Function.update m.slot x (.held fields)) other (.held none) }
        .nothing
  | swap (x other : X) (fields fields' : Option (A × C)) (here : m.slot x = .held fields)
      (there : m.slot other = .held fields') :
      Takes m (.swap x other) { m with
        slot := Function.update (Function.update m.slot x (.held fields')) other (.held fields) }
        .nothing
  | releaseNull (x : X) (here : m.slot x = .held none) :
      Takes m (.release x) { m with slot := Function.update m.slot x (.released none) } .nothing
  | release (x : X) (a : A) (c : C) (n : Nat) (here : m.slot x = .held (some (a, c)))
      (live : m.control c = .live (n + 1)) :
      Takes m (.release x) { m with
        control := Function.update m.control c (.live n)
        slot := Function.update m.slot x (.released (some (a, c))) }
        (if n = 0 then .both a c else .nothing)
  | clear (x : X) (fields : Option (A × C)) (here : m.slot x = .released fields) :
      Takes m (.clear x) { m with slot := Function.update m.slot x (.held none) } .nothing
  | vanish (x : X) (fields : Option (A × C)) (here : m.slot x = .released fields) :
      Takes m (.vanish x) { m with slot := Function.update m.slot x .absent } .nothing

omit [DecidableEq A] in
theorem Memory.exec_takes {X : Type} [DecidableEq X] {m m' : Memory X A C} {i : Instr X}
    {doomed : Doomed A C} (execs : m.exec i = some (m', doomed)) : m.Takes i m' doomed := by
  cases i with
  | null x =>
    rw [Memory.exec] at execs
    split at execs
    case h_1 here =>
      cases execs
      exact .null x here
    case h_2 => cases execs
  | construct x => cases execs
  | copy x other =>
    rw [Memory.exec] at execs
    split at execs
    case h_1 here there =>
      cases execs
      exact .copyNull x other here there
    case h_2 a c here there =>
      split at execs
      case h_1 n live =>
        cases execs
        exact .copy x other a c n here there live
      case h_2 => cases execs
    case h_3 => cases execs
  | move x other =>
    rw [Memory.exec] at execs
    split at execs
    case h_1 fields here there =>
      cases execs
      exact .move x other fields here there
    case h_2 => cases execs
  | swap x other =>
    rw [Memory.exec] at execs
    split at execs
    case h_1 fields fields' here there =>
      cases execs
      exact .swap x other fields fields' here there
    case h_2 => cases execs
  | release x =>
    rw [Memory.exec] at execs
    split at execs
    case h_1 here =>
      cases execs
      exact .releaseNull x here
    case h_2 a c here =>
      split at execs
      case h_1 n live =>
        cases execs
        exact .release x a c n here live
      case h_2 => cases execs
    case h_3 => cases execs
  | clear x =>
    rw [Memory.exec] at execs
    split at execs
    case h_1 fields here =>
      cases execs
      exact .clear x fields here
    case h_2 => cases execs
  | vanish x =>
    rw [Memory.exec] at execs
    split at execs
    case h_1 fields here =>
      cases execs
      exact .vanish x fields here
    case h_2 => cases execs

/-- The ways a step can go. -/
inductive Takes (s : State T H A C) :
    Action T H A C → State T H A C → List (Event A C) → Prop where
  | call (t : T) (op : Op H) (idle : s.doomed t = .nothing) (rests : s.program t = []) :
      Takes s (.call t op) { s with program := Function.update s.program t (op.program t) } []
  | construct (t : T) (x : Place H T) (rest : List (Instr (Place H T))) (a : A) (c : C)
      (idle : s.doomed t = .nothing) (stands : s.program t = .construct x :: rest)
      (here : s.memory.slot x = .absent) (object : s.memory.object a = .unborn)
      (control : s.memory.control c = .unborn) :
      Takes s (.allocate t a c) { s with
        memory := {
          object := Function.update s.memory.object a .alive
          control := Function.update s.memory.control c (.live 1)
          slot := Function.update s.memory.slot x (.held (some (a, c))) }
        program := Function.update s.program t rest } [.constructed a c]
  | instr (t : T) (i : Instr (Place H T)) (rest : List (Instr (Place H T)))
      (memory : Memory (Place H T) A C) (doomed : Doomed A C) (idle : s.doomed t = .nothing)
      (stands : s.program t = i :: rest) (takes : s.memory.Takes i memory doomed) :
      Takes s (.run t)
        ⟨memory, Function.update s.program t rest, Function.update s.doomed t doomed⟩ []
  | deleteObject (t : T) (a : A) (c : C) (stands : s.doomed t = .both a c)
      (alive : s.memory.object a = .alive) :
      Takes s (.run t) { s with
        memory := { s.memory with object := Function.update s.memory.object a .deleted }
        doomed := Function.update s.doomed t (.block c) } [.deletedObject a]
  | deleteControl (t : T) (c : C) (n : Nat) (stands : s.doomed t = .block c)
      (live : s.memory.control c = .live n) :
      Takes s (.run t) { s with
        memory := { s.memory with control := Function.update s.memory.control c .deleted }
        doomed := Function.update s.doomed t .nothing } [.deletedControl c]

theorem step_takes {s s' : State T H A C} {a : Action T H A C} {es' : List (Event A C)}
    (steps : step s a = some (s', es')) : Takes s a s' es' := by
  cases a with
  | call t op =>
    rw [step] at steps
    split at steps
    case h_1 idle rests =>
      cases steps
      exact .call t op idle rests
    case h_2 => cases steps
  | allocate t a c =>
    rw [step] at steps
    split at steps
    case h_1 x rest idle stands =>
      obtain ⟨memory, constructs, same⟩ := Option.map_eq_some_iff.mp steps
      cases same
      rw [Memory.construct] at constructs
      split at constructs
      case h_1 here object control =>
        cases constructs
        exact .construct t x rest a c idle stands here object control
      case h_2 => cases constructs
    case h_2 => cases steps
  | run t =>
    rw [step] at steps
    split at steps
    case h_1 a c stands =>
      split at steps
      case h_1 alive =>
        cases steps
        exact .deleteObject t a c stands alive
      case h_2 => cases steps
    case h_2 c stands =>
      split at steps
      case h_1 n live =>
        cases steps
        exact .deleteControl t c n stands live
      case h_2 => cases steps
    case h_3 idle =>
      split at steps
      case h_1 => cases steps
      case h_2 i rest stands =>
        obtain ⟨⟨memory, doomed⟩, execs, same⟩ := Option.map_eq_some_iff.mp steps
        cases same
        exact .instr t i rest memory doomed idle stands (Memory.exec_takes execs)

end SharedPtr
end CppDB
