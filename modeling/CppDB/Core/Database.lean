import CppDB.Core.Table.Coherence
import CppDB.Lib.Registry
import CppDB.Structures.HashMap.Refinement

/-! The catalog of tables (`core/database.cpp`). A `SharedPtr<Table>` is the index of its
table in a heap; there the table stays for those who still hold it when its name is gone. -/
namespace CppDB

section Tables

variable [StdHash Int64]

/-- A table that carries its invariant. -/
def Table.Sound : Type := { table : Table // table.Valid }

theorem Table.valid_of_create {schema : Schema} {cacheCapacity : Nat} {table : Table}
    (creates : Table.create schema cacheCapacity = .ok table) :
    table.Valid ∧ table.schema = schema := by
  obtain ⟨keyed, positive⟩ := Table.create_eq_ok creates
  obtain ⟨table', creates', valid, schema_eq, -⟩ := Table.create_spec keyed positive
  cases creates.symm.trans creates'
  exact ⟨valid, schema_eq⟩

def Table.Sound.create (schema : Schema) (cacheCapacity : Nat) : Except Exn Table.Sound :=
  match creates : Table.create schema cacheCapacity with
  | .error e => .error e
  | .ok table => .ok ⟨table, (Table.valid_of_create creates).1⟩

theorem Table.Sound.schema_of_create {schema : Schema} {cacheCapacity : Nat} {table : Table.Sound}
    (creates : Table.Sound.create schema cacheCapacity = .ok table) :
    table.val.schema = schema := by
  rw [Table.Sound.create] at creates
  split at creates
  · cases creates
  · rename_i raw creates'
    cases creates
    exact (Table.valid_of_create creates').2

end Tables

variable [StdHash Str] [StdHash Int64]

/-- `HashMap<std::string, SharedPtr<Table>>`. -/
abbrev Catalog : Type := HashMap.Sound (StdHash.hash : Str → Nat) Nat

abbrev Database : Type := Registry.Store Catalog Table.Sound

namespace Database

def empty : Database := ⟨.empty, []⟩

def getTable (catalog : Catalog) (name : Str) : Option Nat := catalog.find name

def emptyName : Exn := .invalidArgument "Database: table name must not be empty".toList

/-- The table is made before the lock is taken, and dropped again if the name is taken. -/
def createTable (name : Str) (schema : Schema) (catalog : Catalog) (free : Nat) :
    Catalog × Option Table.Sound × Except Exn Bool :=
  if name = [] then (catalog, none, .error emptyName)
  else match Table.Sound.create schema Table.defaultCacheCapacity with
    | .error e => (catalog, none, .error e)
    | .ok table =>
      let (catalog, inserted) := catalog.insert name free
      (catalog, if inserted then some table else none, .ok inserted)

def dropTable (name : Str) (catalog : Catalog) : Catalog × Bool := catalog.erase name

def tableCount (catalog : Catalog) : Nat := catalog.val.size

/-- `forEach` collects the names and `std::sort` orders them. -/
def tableNames (catalog : Catalog) : List Str :=
  (Assoc.keys catalog.val.forEach).mergeSort fun a b => a ≤ b

/-- The table under a name. -/
def table (db : Database) (name : Str) : Option Table :=
  (getTable db.catalog name).bind fun handle => db.heap[handle]?.map fun table => table.val

/-- What is stored under a name: the schema and the rows, not the cache. -/
def stored (db : Database) (name : Str) : Option (Schema × List (Int64 × Row)) :=
  (db.table name).map fun table => (table.schema, table.contents)

section Lookups

omit [StdHash Int64]

theorem getTable_eq_none {catalog : Catalog} {name : Str} :
    getTable catalog name = none ↔ name ∉ catalog.toMap := by
  rw [getTable, HashMap.Sound.find_eq, Finmap.lookup_eq_none]

theorem insert_flag (catalog : Catalog) (name : Str) (free : Nat) :
    (catalog.insert name free).2 = (getTable catalog name).isNone := by
  rw [HashMap.Sound.insert_flag, Bool.eq_iff_iff, decide_eq_true_iff, Option.isNone_iff_eq_none,
    getTable_eq_none]

theorem erase_flag (catalog : Catalog) (name : Str) :
    (catalog.erase name).2 = (getTable catalog name).isSome := by
  rw [HashMap.Sound.erase_flag, Bool.eq_iff_iff, decide_eq_true_iff, Option.isSome_iff_ne_none,
    ne_eq, getTable_eq_none, not_not]

theorem getTable_insert (catalog : Catalog) (name : Str) (free : Nat) (n : Str) :
    getTable (catalog.insert name free).1 n =
      if n = name ∧ getTable catalog name = none then some free else getTable catalog n := by
  simp only [getTable_eq_none]
  simp only [getTable, HashMap.Sound.find_eq, HashMap.Sound.toMap_insert]
  by_cases taken : name ∈ catalog.toMap
  · simp [taken]
  · by_cases same : n = name
    · subst same
      simp [taken]
    · simp [taken, same]

theorem getTable_erase (catalog : Catalog) (name n : Str) :
    getTable (catalog.erase name).1 n = if n = name then none else getTable catalog n := by
  simp only [getTable, HashMap.Sound.find_eq, HashMap.Sound.toMap_erase]
  by_cases same : n = name
  · subst same
    simp
  · simp [same]

/-- Every name once, in ascending order. -/
theorem tableNames_ascending (catalog : Catalog) : (tableNames catalog).Pairwise (· < ·) := by
  have distinct : (tableNames catalog).Nodup :=
    (List.mergeSort_perm _ _).nodup_iff.mpr catalog.property.chained.distinct
  have sorted : (tableNames catalog).Pairwise (· ≤ ·) := by
    refine (List.pairwise_mergeSort ?_ ?_ _).imp of_decide_eq_true
    · intro a b c first second
      exact decide_eq_true ((of_decide_eq_true first).trans (of_decide_eq_true second))
    · intro a b
      simpa using le_total a b
  exact (List.pairwise_and_iff.mpr ⟨sorted, distinct⟩).imp fun both => lt_of_le_of_ne both.1 both.2

theorem mem_tableNames (catalog : Catalog) (name : Str) :
    name ∈ tableNames catalog ↔ (getTable catalog name).isSome := by
  rw [tableNames, List.mem_mergeSort, getTable, HashMap.Sound.find_eq, Finmap.lookup_isSome]
  exact Assoc.mem_toMap.symm

theorem tableCount_eq (catalog : Catalog) : tableCount catalog = (tableNames catalog).length := by
  rw [tableCount, catalog.property.sized, tableNames, List.length_mergeSort, Assoc.length_keys]
  rfl

end Lookups

end Database
end CppDB
