import CppDB.Lib.Vec

/-! The open-addressing map of `structures/HashMap.hpp`. A slot index outside the
array and a probe loop that finds no free slot are both `none`; the proofs show that
neither happens. The hash function is a parameter of every operation.

The constructor's doubling loop is the one computation that can leave 64 bits for a
capacity somebody may ask for, and it is modelled modulo `2 ^ 64`. The load tests
multiply slot counts by ten at most, and an allocated array of slots is far too short
for that to wrap, so they are exact. -/
namespace CppDB

/-- `SlotState` together with the pair that only an occupied slot holds. -/
inductive Slot (K V : Type) where
  | empty
  | occupied (key : K) (value : V)
  | deleted
  deriving Repr, DecidableEq

def Slot.entry {K V : Type} : Slot K V → Option (K × V)
  | .occupied key value => some (key, value)
  | _ => none

def Slot.isUsed {K V : Type} : Slot K V → Bool
  | .empty => false
  | _ => true

/-- `size` counts occupied slots, `used` occupied and deleted ones. -/
structure HashMap (K V : Type) where
  slots : List (Slot K V)
  size : Nat
  used : Nat
  deriving Repr, DecidableEq

namespace HashMap

variable {K V : Type}

def minCapacity : Nat := 16

/-- `while (capacity < initialCapacity) capacity *= 2` on `std::size_t`. -/
def capacityFor (initialCapacity : Nat) : (fuel : Nat) → (capacity : Nat) → Option Nat
  | 0, _ => none
  | fuel + 1, capacity =>
    if capacity < initialCapacity then capacityFor initialCapacity fuel (capacity * 2 % 2 ^ 64)
    else some capacity

def fresh (capacity : Nat) : HashMap K V := ⟨List.replicate capacity .empty, 0, 0⟩

/-- The constructor. Sixty-four doublings exhaust the word, so a loop that needs more
never ends. -/
def create (initialCapacity : Nat) : Option (HashMap K V) :=
  (capacityFor initialCapacity 65 minCapacity).map fresh

def capacity (m : HashMap K V) : Nat := m.slots.length

def mask (slots : List (Slot K V)) : Nat := slots.length - 1

/-- `forEach`: the occupied slots in array order. -/
def forEach (m : HashMap K V) : List (K × V) := m.slots.filterMap Slot.entry

section Probing
variable [DecidableEq K] (hash : K → Nat)

def homeIndex (slots : List (Slot K V)) (key : K) : Nat := hash key &&& mask slots

/-- The probe loop of `findSlot`; the outer `none` is an index out of range, the inner
one is `kNotFound`. -/
def findSlotFrom (slots : List (Slot K V)) (key : K) :
    (probes : Nat) → (index : Nat) → Option (Option Nat)
  | 0, _ => some none
  | probes + 1, index =>
    match slots[index]? with
    | none => none
    | some .empty => some none
    | some (.occupied k _) =>
      if k = key then some (some index)
      else findSlotFrom slots key probes ((index + 1) &&& mask slots)
    | some .deleted => findSlotFrom slots key probes ((index + 1) &&& mask slots)

def findSlot (m : HashMap K V) (key : K) : Option (Option Nat) :=
  findSlotFrom m.slots key m.slots.length (homeIndex hash m.slots key)

/-- Dereferencing the slot a lookup returned. -/
def valueAt (m : HashMap K V) (index : Nat) : Option V :=
  match m.slots[index]? with
  | some (.occupied _ value) => some value
  | _ => none

/-- Writing through the pointer a lookup returned. -/
def storeAt (m : HashMap K V) (index : Nat) (value : V) : Option (HashMap K V) :=
  match m.slots[index]? with
  | some (.occupied key _) =>
    return { m with slots := ← Vec.setAt m.slots index (.occupied key value) }
  | _ => none

/-- `find`; the caller may write through the pointer, reading it is `write = id`. -/
def find (m : HashMap K V) (key : K) (write : V → V) : Option (HashMap K V × Option V) := do
  match ← findSlot hash m key with
  | none => return (m, none)
  | some index =>
    let value ← valueAt m index
    return (← storeAt m index (write value), some value)

def contains (m : HashMap K V) (key : K) : Option Bool :=
  (findSlot hash m key).map Option.isSome

def erase (m : HashMap K V) (key : K) : Option (HashMap K V × Bool) := do
  match ← findSlot hash m key with
  | none => return (m, false)
  | some index => return ({ m with slots := ← Vec.setAt m.slots index .deleted,
                                   size := m.size - 1 }, true)

/-- The end of a probe at an empty slot: the pair goes to the earliest tombstone passed,
or else to that slot. -/
def occupy (m : HashMap K V) (key : K) (value : V) (index : Nat) (firstDeleted : Option Nat) :
    Option (HashMap K V) := do
  let target := firstDeleted.getD index
  let dest ← m.slots[target]?
  return { slots := ← Vec.setAt m.slots target (.occupied key value)
           size := m.size + 1
           used := if dest.isUsed then m.used else m.used + 1 }

/-- The loop of `place`. It has no counter of its own: `probes` is the fuel, and
running out of it stands for a loop that does not end. -/
def placeFrom (m : HashMap K V) (key : K) (value : V) (assignIfPresent : Bool) :
    (probes : Nat) → (index : Nat) → (firstDeleted : Option Nat) → Option (HashMap K V × Bool)
  | 0, _, _ => none
  | probes + 1, index, firstDeleted =>
    match m.slots[index]? with
    | none => none
    | some (.occupied k _) =>
      if k = key then
        if assignIfPresent then (storeAt m index value).map (·, false) else some (m, false)
      else placeFrom m key value assignIfPresent probes ((index + 1) &&& mask m.slots) firstDeleted
    | some .deleted =>
      placeFrom m key value assignIfPresent probes ((index + 1) &&& mask m.slots)
        (firstDeleted.or (some index))
    | some .empty => (occupy m key value index firstDeleted).map (·, true)

def place (m : HashMap K V) (key : K) (value : V) (assignIfPresent : Bool) :
    Option (HashMap K V × Bool) :=
  placeFrom m key value assignIfPresent m.slots.length (homeIndex hash m.slots key) none

/-- The loop of `rehash` over the old slots. -/
def placeAll : List (Slot K V) → HashMap K V → Option (HashMap K V)
  | [], m => some m
  | .occupied key value :: old, m => do
    let (m, _) ← place hash m key value false
    placeAll old m
  | _ :: old, m => placeAll old m

def rehash (m : HashMap K V) (newCapacity : Nat) : Option (HashMap K V) :=
  placeAll hash m.slots (fresh newCapacity)

/-- Grow, or rebuild at the same size to clear tombstones. -/
def reserveForOneMore (m : HashMap K V) : Option (HashMap K V) :=
  if (m.used + 1) * 10 ≤ m.slots.length * 7 then some m
  else
    let mostlyLive := decide (m.slots.length * 4 < (m.size + 1) * 10)
    rehash hash m (if mostlyLive then m.slots.length * 2 else m.slots.length)

def insert (m : HashMap K V) (key : K) (value : V) : Option (HashMap K V × Bool) := do
  place hash (← reserveForOneMore hash m) key value false

def insertOrAssign (m : HashMap K V) (key : K) (value : V) : Option (HashMap K V × Bool) := do
  place hash (← reserveForOneMore hash m) key value true

/-- `operator[]`: a reference to the value, after adding `V{}` for a missing key. The
second lookup is dereferenced without a test, so a miss there is `none`. -/
def subscript (default : V) (m : HashMap K V) (key : K) (write : V → V) :
    Option (HashMap K V × V) := do
  match ← find hash m key write with
  | (m, some existing) => return (m, existing)
  | (m, none) =>
    let (m, _) ← insert hash m key default
    let (m, value) ← find hash m key write
    return (m, ← value)

end Probing

/-- The calls on the public interface; `write` is what the caller does through the
reference it is handed. -/
inductive Op (K V : Type) where
  | insert (key : K) (value : V)
  | insertOrAssign (key : K) (value : V)
  | erase (key : K)
  | find (key : K) (write : V → V)
  | contains (key : K)
  | subscript (key : K) (write : V → V)
  | size
  | forEach

inductive Result (K V : Type) where
  | flag (answer : Bool)
  | pointer (value : Option V)
  | reference (value : V)
  | count (n : Nat)
  | visits (entries : List (K × V))

def step [DecidableEq K] (hash : K → Nat) (default : V) (m : HashMap K V) :
    Op K V → Option (HashMap K V × Result K V)
  | .insert key value => (insert hash m key value).map fun (m, b) => (m, .flag b)
  | .insertOrAssign key value => (insertOrAssign hash m key value).map fun (m, b) => (m, .flag b)
  | .erase key => (erase hash m key).map fun (m, b) => (m, .flag b)
  | .find key write => (find hash m key write).map fun (m, v) => (m, .pointer v)
  | .contains key => (contains hash m key).map fun b => (m, .flag b)
  | .subscript key write =>
    (subscript hash default m key write).map fun (m, v) => (m, .reference v)
  | .size => some (m, .count m.size)
  | .forEach => some (m, .visits m.forEach)

end HashMap
end CppDB
