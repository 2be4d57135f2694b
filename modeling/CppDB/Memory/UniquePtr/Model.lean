import CppDB.Lib.Trace

/-! The owning pointer of `memory/UniquePtr.hpp`. It may be a variable or the member of an
object that another one owns, so a `delete` can lead to others: the destructor of an object
destroys its members one after the other, each a step of its own. An object is the
allocation, not the address. A step that would touch what is not there does not exist. -/
namespace CppDB.UniquePtr

open Relation

/-- Where a `UniquePtr` can be: a variable of the program or a member of an object. -/
inductive Place (H A M : Type) where
  | handle (h : H)
  | member (object : A) (m : M)
deriving DecidableEq

/-- A `UniquePtr` and its field `ptr_`. -/
inductive Slot (A : Type) where
  | absent
  | held (ptr : Option A)
deriving DecidableEq

inductive Object where
  | unborn
  | alive
  | dying
  | deleted
deriving DecidableEq

/-- `raw` are the pointers that `new` or `release()` has returned and nobody has taken over,
`destructors` those of the objects that are being deleted, the innermost first. -/
structure State (H A M : Type) where
  object : A → Object
  slot : Place H A M → Slot A
  raw : A → Bool
  destructors : List A

inductive Op (X A : Type) where
  | construct (x : X) (ptr : Option A)
  | move (x other : X)
  | moveAssign (x other : X)
  | reset (x : X) (ptr : Option A)
  | release (x : X)
  | swap (x other : X)
  | destroy (x : X)
  | delete (a : A)

variable {H A M : Type}

def create : State H A M where
  object := fun _ => .unborn
  slot := fun _ => .absent
  raw := fun _ => false
  destructors := []

section Execution

variable [DecidableEq H] [DecidableEq A] [FinEnum M]

/-- A pointer comes into the hands of the program or leaves them. -/
def inHand (raw : A → Bool) (ptr : Option A) (now : Bool) : A → Bool :=
  fun a => if ptr = some a then now else raw a

namespace State

/-- There is room for a `UniquePtr`. -/
def standing (s : State H A M) : Place H A M → Bool
  | .handle _ => true
  | .member a _ => s.object a = .alive

def construct (s : State H A M) (x : Place H A M) : Option (State H A M) :=
  match s.slot x with
  | .absent =>
    if s.standing x then some { s with slot := Function.update s.slot x (.held none) } else none
  | .held _ => none

/-- `std::exchange(ptr_, nullptr)` -/
def release (s : State H A M) (x : Place H A M) : Option (Option A × State H A M) :=
  match s.slot x with
  | .absent => none
  | .held ptr =>
    some (ptr, { s with
      slot := Function.update s.slot x (.held none)
      raw := inHand s.raw ptr true })

/-- `ptr_ = ptr` -/
def adopt (s : State H A M) (x : Place H A M) (ptr : Option A) : Option (State H A M) :=
  match s.slot x with
  | .absent => none
  | .held _ =>
    some { s with
      slot := Function.update s.slot x (.held ptr)
      raw := inHand s.raw ptr false }

/-- The lifetime of a `UniquePtr` ends. -/
def vanish (s : State H A M) (x : Place H A M) : Option (State H A M) :=
  match s.slot x with
  | .absent => none
  | .held _ => some { s with slot := Function.update s.slot x .absent }

/-- `delete ptr`: the destructor begins. -/
def delete (s : State H A M) : Option A → Option (State H A M)
  | none => some s
  | some a =>
    match s.object a with
    | .alive =>
      some { s with
        object := Function.update s.object a .dying
        raw := inHand s.raw (some a) false
        destructors := a :: s.destructors }
    | _ => none

def reset (s : State H A M) (x : Place H A M) (ptr : Option A) : Option (State H A M) := do
  let (old, s) ← s.release x
  let s ← s.adopt x ptr
  s.delete old

def destroy (s : State H A M) (x : Place H A M) : Option (State H A M) := do
  -- the lifetime ends where the destructor begins, before its `delete ptr_`
  let (old, s) ← s.release x
  let s ← s.vanish x
  s.delete old

def perform (s : State H A M) : Op (Place H A M) A → Option (State H A M)
  | .construct x ptr => do
    let s ← s.construct x
    s.adopt x ptr
  | .move x other => do
    let (ptr, s) ← s.release other
    let s ← s.construct x
    s.adopt x ptr
  | .moveAssign x other =>
    if x = other then some s
    else do
      let (ptr, s) ← s.release other
      s.reset x ptr
  | .reset x ptr => s.reset x ptr
  | .release x => (s.release x).map Prod.snd
  | .swap x other => do
    let (ptr, s) ← s.release x
    let (ptr', s) ← s.release other
    let s ← s.adopt x ptr'
    s.adopt other ptr
  | .destroy x => s.destroy x
  | .delete a => s.delete (some a)

/-- The members of an object that a destructor has still to destroy. -/
def members (s : State H A M) (a : A) : List M :=
  (FinEnum.toList M).filter fun m => s.slot (.member a m) ≠ .absent

end State

inductive Event (A : Type) where
  | created (a : A)
  | deleted (a : A)

/-- The program evaluates `new T` or calls an operation, or a destructor goes on. -/
inductive Action (H A M : Type) where
  | allocate (a : A)
  | call (op : Op (Place H A M) A)
  | run

def step (s : State H A M) : Action H A M → Option (State H A M × List (Event A))
  | .allocate a =>
    match s.destructors, s.object a with
    | [], .unborn =>
      some ({ s with
        object := Function.update s.object a .alive
        raw := inHand s.raw (some a) true }, [.created a])
    | _, _ => none
  | .call op =>
    match s.destructors with
    | [] => (s.perform op).map fun s => (s, [])
    | _ :: _ => none
  | .run =>
    match s.destructors with
    | [] => none
    | a :: rest =>
      match s.members a with
      | m :: _ => (s.destroy (.member a m)).map fun s => (s, [])
      | [] =>
        match s.object a with
        | .dying =>
          some ({ s with object := Function.update s.object a .deleted, destructors := rest },
            [.deleted a])
        | _ => none

end Execution

/-! ### What the callers have to see to -/

/-- A member of the owner points to the object. -/
def Owns (slot : Place H A M → Slot A) (owner a : A) : Prop :=
  ∃ m, slot (.member owner m) = .held (some a)

namespace State

/-- The object, or part of it. -/
def Within (s : State H A M) : A → A → Prop := ReflTransGen (Owns s.slot)

/-- The pointer is null or in the hands of the program. -/
def Loose (s : State H A M) (ptr : Option A) : Prop := ∀ a, ptr = some a → s.raw a = true

/-- The place is not part of what the pointer points to. -/
def Outside (s : State H A M) (x : Place H A M) (ptr : Option A) : Prop :=
  ∀ a owner m, ptr = some a → x = .member owner m → ¬ s.Within a owner

end State

/-- A `UniquePtr` is used between its construction and its destruction, gets a raw pointer
that nobody else has, and does not come to own the object it is part of. -/
def Op.Meets (s : State H A M) : Op (Place H A M) A → Prop
  | .construct x ptr =>
    s.slot x = .absent ∧ s.standing x = true ∧ s.Loose ptr ∧ s.Outside x ptr
  | .move x other =>
    s.slot x = .absent ∧ s.standing x = true ∧ ∃ ptr, s.slot other = .held ptr ∧ s.Outside x ptr
  | .moveAssign x other =>
    s.slot x ≠ .absent ∧ ∃ ptr, s.slot other = .held ptr ∧ s.Outside x ptr
  | .reset x ptr => s.slot x ≠ .absent ∧ s.Loose ptr ∧ s.Outside x ptr
  | .release x => s.slot x ≠ .absent
  | .swap x other =>
    ∃ ptr ptr', s.slot x = .held ptr ∧ s.slot other = .held ptr' ∧ s.Outside x ptr' ∧
      s.Outside other ptr
  | .destroy x => s.slot x ≠ .absent
  | .delete a => s.raw a = true

def Contract (_ : List (Event A)) (s : State H A M) : Action H A M → Prop
  | .allocate _ => True
  | .call op => op.Meets s
  | .run => True

end CppDB.UniquePtr
