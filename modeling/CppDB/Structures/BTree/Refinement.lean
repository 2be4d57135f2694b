import CppDB.Lib.Machine
import CppDB.Structures.BTree.Balanced

/-! The B-tree against a finite map: the same answers over every run of the public
operations. -/
namespace CppDB.BTree
open Assoc

variable {K V : Type} [LinearOrder K] {t : Nat}

namespace Reference

/-- The finite map the tree stands for; a visit lists its entries in key order. -/
def step (m : Finmap fun _ : K => V) : Tree.Op K V → (Finmap fun _ : K => V) × Tree.Result K V
  | .insert key value => if key ∈ m then (m, .flag false) else (m.insert key value, .flag true)
  | .remove key => (m.erase key, .flag (decide (key ∈ m)))
  | .search key => (m, .value (m.lookup key))
  | .contains key => (m, .flag (decide (key ∈ m)))
  | .size => (m, .count m.keys.card)
  | .forEachInOrder => (m, .visits (ascending m))

end Reference

/-- A valid tree and the map its contents denote. -/
def Represents (t : Nat) (tree : Tree K V) (m : Finmap fun _ : K => V) : Prop :=
  tree.Valid t ∧ m = toMap tree.contents

theorem step_simulates (large : 2 ≤ t) (small : t < 2 ^ 30) :
    Machine.Simulates (Tree.step t) Reference.step (Represents (K := K) (V := V) t) Eq := by
  rintro tree m op ⟨valid, rfl⟩
  have ascending := valid.ascending
  cases op with
  | insert key value =>
    obtain ⟨tree', inserts, valid', contents⟩ := tree.insert_spec large small valid key value
    refine ⟨tree', .flag (decide (key ∉ keys tree.contents)), ?_, ?_, ?_⟩
    · simp only [Tree.step, inserts, Option.map_some]
    · refine ⟨valid', ?_⟩
      rw [contents]
      by_cases present : key ∈ keys tree.contents
      · simp [Reference.step, mem_toMap, present, inserted]
      · simp [Reference.step, mem_toMap, present, inserted, toMap_insertAscending ascending present]
    · by_cases present : key ∈ keys tree.contents <;> simp [Reference.step, mem_toMap, present]
  | remove key =>
    obtain ⟨tree', removes, valid', contents⟩ := tree.remove_spec large valid key
    refine ⟨tree', .flag (decide (key ∈ keys tree.contents)), ?_, ⟨valid', ?_⟩, ?_⟩
    · simp only [Tree.step, removes, Option.map_some]
    · rw [contents, toMap_without]
      rfl
    · simp [Reference.step, mem_toMap]
  | search key =>
    refine ⟨tree, .value (find key tree.contents), ?_, ⟨valid, rfl⟩, ?_⟩
    · simp only [Tree.step, tree.search_spec valid, Option.map_some]
    · simp [Reference.step, lookup_toMap]
  | contains key =>
    refine ⟨tree, .flag (decide (key ∈ keys tree.contents)), ?_, ⟨valid, rfl⟩, ?_⟩
    · simp only [Tree.step, tree.contains_spec valid, Option.map_some]
    · simp [Reference.step, mem_toMap]
  | size =>
    refine ⟨tree, .count tree.size, rfl, ⟨valid, rfl⟩, ?_⟩
    simp only [Reference.step, valid.counted, card_toMap ascending.nodup]
  | forEachInOrder =>
    refine ⟨tree, .visits tree.contents, ?_, ⟨valid, rfl⟩, ?_⟩
    · simp only [Tree.step, tree.forEachInOrder_spec valid, Option.map_some]
    · simp only [Reference.step, ascending_toMap ascending]

/-- For a degree below `2 ^ 30` and over every run from the empty tree, each call answers as
the finite map does, and the walk at the end visits exactly the map's entries in ascending
key order. -/
theorem btree_refines_map (large : 2 ≤ t) (small : t < 2 ^ 30) (ops : List (Tree.Op K V)) :
    ∃ tree, Machine.run (Tree.step t) Tree.empty ops =
        some (tree, (Machine.runTotal Reference.step ∅ ops).2) ∧
      tree.forEachInOrder = some (ascending (Machine.runTotal Reference.step ∅ ops).1) := by
  obtain ⟨tree, runs, valid, denotes⟩ :=
    (step_simulates large small).run_eq ops ⟨Tree.valid_empty, toMap_nil.symm⟩
  refine ⟨tree, runs, ?_⟩
  rw [tree.forEachInOrder_spec valid, denotes, ascending_toMap valid.ascending]

theorem btree_refines_map_degree_two :
    ∃ tree, Machine.run (Tree.step 2) (Tree.empty : Tree Nat Nat) Tree.churn =
        some (tree, (Machine.runTotal Reference.step ∅ Tree.churn).2) ∧
      tree.forEachInOrder = some (ascending (Machine.runTotal Reference.step ∅ Tree.churn).1) ∧
      tree.forEachInOrder = some [(3, 31), (5, 50)] := by
  obtain ⟨tree, runs, walk⟩ := btree_refines_map (t := 2) (by decide) (by decide) Tree.churn
  refine ⟨tree, runs, walk, ?_⟩
  have final : (Machine.run (Tree.step 2) (Tree.empty : Tree Nat Nat) Tree.churn).bind
      (·.1.forEachInOrder) = some [(3, 31), (5, 50)] := by decide
  rwa [runs] at final

/-- The constructor accepts a degree of `2 ^ 30`; the first insertion finds no root to
measure, and the second one, which the map answers with `true`, overflows. -/
theorem second_insert_overflows :
    Tree.create (2 ^ 30) = some (Tree.empty : Tree Nat Nat) ∧
      (Machine.run (Tree.step (2 ^ 30)) (Tree.empty : Tree Nat Nat) [.insert 1 10]).isSome ∧
      Machine.run (Tree.step (2 ^ 30)) (Tree.empty : Tree Nat Nat) [.insert 1 10, .insert 2 20] =
        none ∧
      (Machine.runTotal Reference.step ∅ [.insert 1 10, .insert 2 20]).2 =
        [(.flag true : Tree.Result Nat Nat), .flag true] := by
  refine ⟨rfl, rfl, rfl, ?_⟩
  have first : (1 : Nat) ∉ (∅ : Finmap fun _ : Nat => Nat) := Finmap.notMem_empty
  have second : (2 : Nat) ∉ (∅ : Finmap fun _ : Nat => Nat).insert 1 10 := by
    simp [Finmap.mem_insert, Finmap.notMem_empty]
  simp only [Machine.runTotal, Reference.step, if_neg first, if_neg second]

end CppDB.BTree
