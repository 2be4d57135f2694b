import CppDB.Lib.Machine
import CppDB.Lib.Total
import CppDB.Structures.HashMap.Operations

/-! The hash map against a finite map over whole runs, whatever the hash function
does; and the map type whose values carry the class invariant. -/
namespace CppDB.HashMap
open Assoc (keys)

variable {K V : Type} [DecidableEq K]

namespace Reference

/-- Answers of the finite map; a visit is owed the whole map, in no particular order. -/
inductive Answer (K V : Type) where
  | flag (answer : Bool)
  | pointer (value : Option V)
  | reference (value : V)
  | count (n : Nat)
  | everything (m : Finmap fun _ : K => V)

def step (default : V) (m : Finmap fun _ : K => V) :
    Op K V → (Finmap fun _ : K => V) × Answer K V
  | .insert key value =>
    if key ∈ m then (m, .flag false) else (m.insert key value, .flag true)
  | .insertOrAssign key value => (m.insert key value, .flag (decide (key ∉ m)))
  | .erase key => (m.erase key, .flag (decide (key ∈ m)))
  | .find key write =>
    match m.lookup key with
    | none => (m, .pointer none)
    | some v => (m.insert key (write v), .pointer (some v))
  | .contains key => (m, .flag (decide (key ∈ m)))
  | .subscript key write =>
    let v := (m.lookup key).getD default
    (m.insert key (write v), .reference v)
  | .size => (m, .count m.keys.card)
  | .forEach => (m, .everything m)

end Reference

/-- Equal answers; a visit meets each key once and the pairs make up the map. -/
def Agrees : Result K V → Reference.Answer K V → Prop
  | .flag a, .flag b => a = b
  | .pointer v, .pointer w => v = w
  | .reference v, .reference w => v = w
  | .count n, .count k => n = k
  | .visits l, .everything m => (keys l).Nodup ∧ Assoc.toMap l = m
  | _, _ => False

def Represents (hash : K → Nat) (m : HashMap K V) (map : Finmap fun _ : K => V) : Prop :=
  Valid hash m ∧ m.toMap = map

theorem step_simulates (hash : K → Nat) (default : V) :
    Machine.Simulates (step hash default) (Reference.step default) (Represents hash) Agrees := by
  rintro m _ op ⟨valid, rfl⟩
  cases op with
  | insert key value =>
    obtain ⟨m', inserts, valid', binds⟩ := valid.insert key value
    refine ⟨m', _, by rw [step, inserts, Option.map_some], ⟨valid', ?_⟩, ?_⟩
    · rw [binds, Reference.step]
      split <;> rfl
    · by_cases present : key ∈ m.toMap <;> simp [Reference.step, Agrees, present]
  | insertOrAssign key value =>
    obtain ⟨m', inserts, valid', binds⟩ := valid.insertOrAssign key value
    exact ⟨m', .flag (decide (key ∉ m.toMap)), by rw [step, inserts, Option.map_some],
      ⟨valid', binds⟩, rfl⟩
  | erase key =>
    obtain ⟨m', erases, valid', unbinds⟩ := valid.erase key
    exact ⟨m', .flag (decide (key ∈ m.toMap)), by rw [step, erases, Option.map_some],
      ⟨valid', unbinds⟩, rfl⟩
  | find key write =>
    obtain ⟨m', finds, valid', binds⟩ := valid.find key write
    refine ⟨m', _, by rw [step, finds, Option.map_some], ?_⟩
    cases bound : m.toMap.lookup key with
    | none =>
      simp only [bound] at binds
      simp only [Reference.step, bound]
      exact ⟨⟨valid', binds⟩, rfl⟩
    | some v =>
      simp only [bound] at binds
      simp only [Reference.step, bound]
      exact ⟨⟨valid', binds⟩, rfl⟩
  | contains key =>
    exact ⟨m, .flag (decide (key ∈ m.toMap)), by rw [step, valid.contains, Option.map_some],
      ⟨valid, rfl⟩, rfl⟩
  | subscript key write =>
    obtain ⟨m', subscripts, valid', binds⟩ := valid.subscript default key write
    exact ⟨m', .reference ((m.toMap.lookup key).getD default),
      by rw [step, subscripts, Option.map_some], ⟨valid', binds⟩, rfl⟩
  | size => exact ⟨m, _, rfl, ⟨valid, rfl⟩, valid.size_eq⟩
  | forEach => exact ⟨m, _, rfl, ⟨valid, rfl⟩, valid.chained.distinct, rfl⟩

/-- For every hash function and every requested capacity the word can double up to,
every run from the constructor answers as the finite map does. -/
theorem hashMap_refines_map (hash : K → Nat) (default : V) {initialCapacity : Nat}
    (fits : initialCapacity ≤ 2 ^ 63) (ops : List (Op K V)) :
    ∃ start m answers, create initialCapacity = some start ∧
      Machine.run (step hash default) start ops = some (m, answers) ∧
      List.Forall₂ Agrees answers (Machine.runTotal (Reference.step default) ∅ ops).2 := by
  obtain ⟨start, creates, valid, empty⟩ := create_spec hash fits
  obtain ⟨m, answers, runs, _, agree⟩ := (step_simulates hash default).run ops ⟨valid, empty⟩
  exact ⟨start, m, answers, creates, runs, agree⟩

theorem hashMap_refines_map_colliding :
    20 ≤ 2 ^ 63 ∧ ∃ start m answers, create 20 = some start ∧
      Machine.run (step (fun _ : Nat => 7) 0) start
        [.insert 1 10, .insert 2 20, .erase 1, .insert 3 30, .subscript 2 (· + 1), .forEach] =
          some (m, answers) ∧
      List.Forall₂ Agrees answers (Machine.runTotal (Reference.step 0) ∅
        [.insert 1 10, .insert 2 20, .erase 1, .insert 3 30, .subscript 2 (· + 1), .forEach]).2 :=
  ⟨by decide, hashMap_refines_map _ 0 (by decide) _⟩

/-- A hash map that carries its class invariant, so that its operations are total. -/
def Sound (hash : K → Nat) (V : Type) : Type := { m : HashMap K V // Valid hash m }

namespace Sound

variable {hash : K → Nat}

def toMap (m : Sound hash V) : Finmap fun _ : K => V := m.val.toMap

/-- The default constructor. -/
def empty : Sound hash V := ⟨fresh minCapacity, valid_fresh ⟨4, rfl⟩ (Nat.le_refl _)⟩

def insert (m : Sound hash V) (key : K) (value : V) : Sound hash V × Bool :=
  Total.keep (m.val.insert hash key value) (by
    obtain ⟨m', inserts, valid, _⟩ := m.property.insert key value
    exact ⟨m', _, inserts, valid⟩)

def insertOrAssign (m : Sound hash V) (key : K) (value : V) : Sound hash V × Bool :=
  Total.keep (m.val.insertOrAssign hash key value) (by
    obtain ⟨m', inserts, valid, _⟩ := m.property.insertOrAssign key value
    exact ⟨m', _, inserts, valid⟩)

def erase (m : Sound hash V) (key : K) : Sound hash V × Bool :=
  Total.keep (m.val.erase hash key) (by
    obtain ⟨m', erases, valid, _⟩ := m.property.erase key
    exact ⟨m', _, erases, valid⟩)

/-- `find` by a caller that only reads. -/
def find (m : Sound hash V) (key : K) : Option V :=
  let kept : Sound hash V × Option V := Total.keep (m.val.find hash key id) (by
    obtain ⟨m', finds, valid, _⟩ := m.property.find key id
    exact ⟨m', _, finds, valid⟩)
  kept.2

@[simp] theorem toMap_empty : (empty : Sound hash V).toMap = ∅ := toMap_fresh _

@[simp] theorem find_eq (m : Sound hash V) (key : K) : m.find key = m.toMap.lookup key := by
  obtain ⟨m', finds, _⟩ := m.property.find key id
  exact Total.keep_answer _ finds

@[simp] theorem insert_flag (m : Sound hash V) (key : K) (value : V) :
    (m.insert key value).2 = decide (key ∉ m.toMap) := by
  obtain ⟨m', inserts, _⟩ := m.property.insert key value
  exact Total.keep_answer _ inserts

@[simp] theorem toMap_insert (m : Sound hash V) (key : K) (value : V) :
    (m.insert key value).1.toMap =
      if key ∈ m.toMap then m.toMap else m.toMap.insert key value := by
  obtain ⟨m', inserts, _, binds⟩ := m.property.insert key value
  exact (congrArg HashMap.toMap (Total.keep_state _ inserts)).trans binds

@[simp] theorem toMap_insertOrAssign (m : Sound hash V) (key : K) (value : V) :
    (m.insertOrAssign key value).1.toMap = m.toMap.insert key value := by
  obtain ⟨m', inserts, _, binds⟩ := m.property.insertOrAssign key value
  exact (congrArg HashMap.toMap (Total.keep_state _ inserts)).trans binds

@[simp] theorem erase_flag (m : Sound hash V) (key : K) :
    (m.erase key).2 = decide (key ∈ m.toMap) := by
  obtain ⟨m', erases, _⟩ := m.property.erase key
  exact Total.keep_answer _ erases

@[simp] theorem toMap_erase (m : Sound hash V) (key : K) :
    (m.erase key).1.toMap = m.toMap.erase key := by
  obtain ⟨m', erases, _, unbinds⟩ := m.property.erase key
  exact (congrArg HashMap.toMap (Total.keep_state _ erases)).trans unbinds

end Sound
end CppDB.HashMap
