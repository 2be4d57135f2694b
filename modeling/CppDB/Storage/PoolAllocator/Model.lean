import CppDB.Basic
import CppDB.Storage.PoolAllocator.Layout

/-! The pools of `storage/PoolAllocator.hpp` over one memory. A step that is `none` reads a
link where there is none, destroys an object that is not there or fails an assertion. The
counters never leave the word, being bounded by the capacity. -/
namespace CppDB.PoolAllocator

abbrev Addr := Nat

/-- What a block holds: neither, the link of a free block, or an object. -/
inductive Cell where
  | raw
  | node (next : Option Addr)
  | object
  deriving Repr, DecidableEq

/-- The blocks by the address they start at. -/
abbrev Memory := Addr → Cell

structure Pool where
  arena : Option Addr
  freeHead : Option Addr
  capacity : Nat
  inUse : Nat
  deriving Repr, DecidableEq

/-- What a move leaves behind. -/
def Pool.null : Pool := ⟨none, none, 0, 0⟩

inductive Thrown where
  | invalidArgument (message : Str)
  | badAlloc
  | constructor
  deriving Repr, DecidableEq

/-- How a call ends. -/
inductive Outcome where
  | done
  | object (block : Addr)
  | threw (exception : Thrown)
  deriving Repr, DecidableEq

def zeroCapacity : Thrown := .invalidArgument "PoolAllocator: capacity must be > 0".toList

section Calls
variable (layout : Layout)

/-- The loop over the blocks from the last to the first. -/
def buildFreeList (arena : Addr) : Nat → Memory → Option Addr → Memory × Option Addr
  | 0, memory, freeHead => (memory, freeHead)
  | i + 1, memory, freeHead =>
    let block := layout.blockStart arena i
    buildFreeList arena i (Function.update memory block (.node freeHead)) (some block)

/-- The constructor, once `operator new` has returned an arena. -/
def create (capacity : Nat) (arena : Addr) (memory : Memory) : Memory × Pool :=
  let (memory, freeHead) := buildFreeList layout arena capacity memory none
  (memory, ⟨some arena, freeHead, capacity, 0⟩)

/-- `allocate`; the flag says whether the constructor of the object throws, which leaves
part of an object behind until the node is restored. -/
def Pool.allocate (pool : Pool) (memory : Memory) (throws : Bool) :
    Option (Memory × Pool × Outcome) :=
  match pool.freeHead with
  | none => some (memory, pool, .threw .badAlloc)
  | some node =>
    match memory node with
    | .node next =>
      if throws then
        let memory := Function.update memory node .raw
        some (Function.update memory node (.node next), pool, .threw .constructor)
      else
        some (Function.update memory node .object,
          { pool with freeHead := next, inUse := pool.inUse + 1 }, .object node)
    | _ => none

def Pool.owns (pool : Pool) (p : Addr) : Bool := layout.owns (pool.arena.getD 0) pool.capacity p

def Pool.deallocate (pool : Pool) (memory : Memory) : Option Addr → Option (Memory × Pool)
  | none => some (memory, pool)
  | some block =>
    if pool.owns layout block && memory block = .object then
      some (Function.update memory block (.node pool.freeHead),
        { pool with freeHead := some block, inUse := pool.inUse - 1 })
    else none

/-- `releaseArena`, with its assertion. -/
def Pool.releaseArena (pool : Pool) : Option Pool :=
  if pool.inUse = 0 then some { pool with arena := none } else none

end Calls

/-- The pools by the variables that hold them, and the objects their users have: handed out
and not given back. -/
structure World (P : Type) where
  memory : Memory
  pools : P → Option Pool
  live : List Addr

def World.empty {P : Type} : World P := ⟨fun _ => .raw, fun _ => none, []⟩

/-- The calls of a program. A construction names the address that `operator new` returns. -/
inductive Action (P : Type) where
  | construct (p : P) (capacity : Nat) (arena : Addr)
  | allocate (p : P) (throws : Bool)
  | deallocate (p : P) (object : Option Addr)
  | moveConstruct (p source : P)
  | moveAssign (p source : P)
  | destroy (p : P)

section Steps
variable {P : Type} [DecidableEq P] (layout : Layout)

def World.set (w : World P) (p : P) (pool : Pool) : World P :=
  { w with pools := Function.update w.pools p (some pool) }

/-- Both move operations end so: the target has what the source had, and the source nothing. -/
def World.move (w : World P) (p source : P) (pool : Pool) : World P :=
  (w.set source Pool.null).set p pool

def step (w : World P) : Action P → Option (World P × List Outcome)
  | .construct p capacity arena =>
    if capacity = 0 then some (w, [.threw zeroCapacity])
    else
      let (memory, pool) := create layout capacity arena w.memory
      some ({ w with memory := memory }.set p pool, [.done])
  | .allocate p throws => do
    let pool ← w.pools p
    let (memory, pool, outcome) ← pool.allocate w.memory throws
    let live := match outcome with
      | .object block => block :: w.live
      | _ => w.live
    return ({ w with memory := memory, live := live }.set p pool, [outcome])
  | .deallocate p object => do
    let pool ← w.pools p
    let (memory, pool) ← pool.deallocate layout w.memory object
    let live := match object with
      | some block => w.live.erase block
      | none => w.live
    return ({ w with memory := memory, live := live }.set p pool, [.done])
  | .moveConstruct p source => do
    let pool ← w.pools source
    return (w.move p source pool, [.done])
  | .moveAssign p source => do
    let target ← w.pools p
    let pool ← w.pools source
    if p = source then return (w, [.done])
    else
      let _ ← target.releaseArena
      return (w.move p source pool, [.done])
  | .destroy p => do
    let pool ← w.pools p
    let _ ← pool.releaseArena
    return ({ w with pools := Function.update w.pools p none }, [.done])

end Steps

/-! ### What a program may do -/

/-- The blocks of a pool. -/
def Pool.blocks (layout : Layout) (pool : Pool) : List Addr :=
  match pool.arena with
  | none => []
  | some arena => (List.range pool.capacity).map (layout.blockStart arena)

/-- The bytes of a pool's arena. -/
def Pool.extent (layout : Layout) (pool : Pool) : Set Addr :=
  match pool.arena with
  | none => ∅
  | some arena => Set.Ico arena (arena + layout.arenaBytes pool.capacity)

section Guard
variable {P : Type}

/-- No object of the pool is live. -/
def World.Idle (layout : Layout) (w : World P) (pool : Pool) : Prop :=
  ∀ block ∈ w.live, block ∉ pool.blocks layout

/-- The calls a program may make: arenas that fit the word and are `operator new`'s to give,
objects that the pool has handed out, and no pool lost with live objects in it. -/
def Allowed (layout : Layout) (_ : List Outcome) (w : World P) : Action P → Prop
  | .construct p capacity arena => w.pools p = none ∧ (capacity ≠ 0 →
      Allocated layout capacity arena ∧ capacity * layout.exactBlockSize < 2 ^ 64 ∧
      ∀ q pool, w.pools q = some pool →
        Disjoint (Set.Ico arena (arena + layout.arenaBytes capacity)) (pool.extent layout))
  | .allocate p _ => ∃ pool, w.pools p = some pool
  | .deallocate p object => ∃ pool, w.pools p = some pool ∧
      ∀ block, object = some block → block ∈ w.live ∧ block ∈ pool.blocks layout
  | .moveConstruct p source => w.pools p = none ∧ ∃ pool, w.pools source = some pool
  | .moveAssign p source => ∃ target pool, w.pools p = some target ∧ w.pools source = some pool ∧
      (p ≠ source → w.Idle layout target)
  | .destroy p => ∃ pool, w.pools p = some pool ∧ w.Idle layout pool

end Guard
end CppDB.PoolAllocator
