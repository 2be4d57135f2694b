import CppDB.Lib.Assoc
import CppDB.Lib.Cyclic
import CppDB.Structures.HashMap.Model

/-! What the two probe loops find. A key sits where a walk from its home slot arrives
without crossing an empty slot; every edit of the table turns one slot into a
non-empty one, so no walk is ever cut short. -/
namespace CppDB.HashMap
open Cyclic

variable {K V : Type} {slots : List (Slot K V)}

def entries (slots : List (Slot K V)) : List (K × V) := slots.filterMap Slot.entry

/-- The number of slots that end no probe. -/
def occupancy (slots : List (Slot K V)) : Nat := slots.countP Slot.isUsed

theorem entries_cons (slot : Slot K V) (slots : List (Slot K V)) :
    entries (slot :: slots) = slot.entry.toList ++ entries slots := by
  cases slot <;> rfl

theorem mem_entries {k : K} {v : V} :
    (k, v) ∈ entries slots ↔ ∃ q : Nat, slots[q]? = some (Slot.occupied k v) := by
  rw [entries, List.mem_filterMap]
  constructor
  · rintro ⟨slot, there, pair⟩
    cases slot with
    | empty => simp [Slot.entry] at pair
    | deleted => simp [Slot.entry] at pair
    | occupied k' v' =>
      obtain ⟨rfl, rfl⟩ : k' = k ∧ v' = v := by simpa [Slot.entry] using pair
      exact List.mem_iff_getElem?.mp there
  · rintro ⟨q, holds⟩
    exact ⟨.occupied k v, List.mem_iff_getElem?.mpr ⟨q, holds⟩, rfl⟩

/-- A write to one slot changes only that slot's share of the entries. -/
theorem entries_set {q : Nat} {old : Slot K V} (holds : slots[q]? = some old) (new : Slot K V) :
    ∃ front back, entries slots = front ++ old.entry.toList ++ back ∧
      entries (slots.set q new) = front ++ new.entry.toList ++ back := by
  obtain ⟨inside, rfl⟩ := List.getElem?_eq_some_iff.mp holds
  obtain ⟨front, x, back, rfl, length⟩ := Vec.exists_split inside
  subst length
  have split : ∀ slot, entries (front ++ slot :: back) =
      entries front ++ slot.entry.toList ++ entries back := by
    intro slot
    rw [List.append_assoc, ← entries_cons]
    exact List.filterMap_append
  refine ⟨entries front, entries back, ?_, ?_⟩
  · simp [split]
  · simp [split]

theorem occupancy_set {q : Nat} {old : Slot K V} (holds : slots[q]? = some old) {new : Slot K V}
    (kept : new.isUsed = true) :
    occupancy (slots.set q new) =
      if old.isUsed then occupancy slots else occupancy slots + 1 := by
  obtain ⟨inside, rfl⟩ := List.getElem?_eq_some_iff.mp holds
  obtain ⟨front, x, back, rfl, length⟩ := Vec.exists_split inside
  subst length
  cases used : x.isUsed <;> simp [occupancy, kept, used]
  omega

theorem exists_empty (room : occupancy slots < slots.length) :
    ∃ q : Nat, slots[q]? = some Slot.empty := by
  by_contra none
  have full : occupancy slots = slots.length := by
    apply List.countP_eq_length.mpr
    intro slot there
    cases slot with
    | empty => exact absurd (List.mem_iff_getElem?.mp there) none
    | deleted => rfl
    | occupied k v => rfl
  omega

/-- The walk from `home` arrives at `q` and crosses no empty slot before it. -/
def Reaches (slots : List (Slot K V)) (home q : Nat) : Prop :=
  ∃ j < slots.length, pos slots.length home j = q ∧
    ∀ i < j, slots[pos slots.length home i]? ≠ some .empty

/-- Writing a non-empty slot cuts no walk. -/
theorem Reaches.set {home q p : Nat} {new : Slot K V} (reaches : Reaches slots home q)
    (kept : new.isUsed = true) : Reaches (slots.set p new) home q := by
  obtain ⟨j, inside, arrives, clear⟩ := reaches
  refine ⟨j, by simpa using inside, by simpa using arrives, ?_⟩
  intro i before
  rw [List.length_set, List.getElem?_set]
  split
  · split
    · rintro ⟨⟩
      cases kept
    · simp
  · exact clear i before

variable {hash : K → Nat} {m : HashMap K V}

/-- The table invariant behind lookups: each key is held once, where its walk arrives. -/
structure Chained (hash : K → Nat) (slots : List (Slot K V)) : Prop where
  power : ∃ e, slots.length = 2 ^ e
  distinct : (Assoc.keys (entries slots)).Nodup
  reached : ∀ q k v, slots[q]? = some (.occupied k v) → Reaches slots (homeIndex hash slots k) q

namespace Chained

theorem positive (chained : Chained hash slots) : 0 < slots.length := by
  obtain ⟨e, length⟩ := chained.power
  rw [length]
  exact Nat.two_pow_pos e

theorem home_lt (chained : Chained hash slots) (k : K) : homeIndex hash slots k < slots.length :=
  masked_lt chained.positive _

/-- A non-empty write keeps the invariant if the keys stay distinct and a key that is
written lies on its own walk. -/
theorem set (chained : Chained hash slots) {q : Nat} {new : Slot K V} (kept : new.isUsed = true)
    (distinct : (Assoc.keys (entries (slots.set q new))).Nodup)
    (placed : ∀ k v, new = .occupied k v → Reaches slots (homeIndex hash slots k) q) :
    Chained hash (slots.set q new) := by
  have home : ∀ k, homeIndex hash (slots.set q new) k = homeIndex hash slots k := by
    intro k
    simp only [homeIndex, mask, List.length_set]
  refine ⟨by simpa using chained.power, distinct, ?_⟩
  intro p k v holds
  rw [home]
  rw [List.getElem?_set] at holds
  split at holds
  · rename_i same
    subst same
    split at holds
    · exact (placed k v (Option.some.inj holds)).set kept
    · cases holds
  · exact (chained.reached p k v holds).set kept

end Chained

/-- The first `i` slots of a walk hold neither an empty slot nor the key. -/
def Passed (slots : List (Slot K V)) (key : K) (home i : Nat) : Prop :=
  ∀ i' < i, slots[pos slots.length home i']? ≠ some .empty ∧
    ∀ v, slots[pos slots.length home i']? ≠ some (.occupied key v)

theorem Passed.succ {key : K} {home i : Nat} (passed : Passed slots key home i)
    (full : slots[pos slots.length home i]? ≠ some .empty)
    (other : ∀ v, slots[pos slots.length home i]? ≠ some (.occupied key v)) :
    Passed slots key home (i + 1) := by
  intro i' before
  rcases Nat.lt_succ_iff_lt_or_eq.mp before with before | rfl
  · exact passed i' before
  · exact ⟨full, other⟩

/-- A walk that passed the key's slots and then ends was looking for an absent key. -/
theorem absent_of_passed (chained : Chained hash slots) {key : K} {i : Nat}
    (passed : Passed slots key (homeIndex hash slots key) i)
    (ends : i = slots.length ∨
      slots[pos slots.length (homeIndex hash slots key) i]? = some .empty) :
    key ∉ Assoc.keys (entries slots) := by
  rw [Assoc.mem_keys]
  rintro ⟨v, there⟩
  obtain ⟨q, holds⟩ := mem_entries.mp there
  obtain ⟨j, inside, rfl, clear⟩ := chained.reached q key v holds
  rcases Nat.lt_trichotomy j i with before | rfl | after
  · exact (passed j before).2 v holds
  · rcases ends with full | empty
    · omega
    · rw [holds] at empty
      cases empty
  · rcases ends with full | empty
    · omega
    · exact clear i after empty

/-- What the loop of `place` ends with: the slot of the key, or a slot on the key's walk
that is free for an absent key. -/
inductive Placed (hash : K → Nat) (m : HashMap K V) (key : K) (value : V)
    (assignIfPresent : Bool) : HashMap K V × Bool → Prop
  | present (q : Nat) (v : V) (holds : m.slots[q]? = some (.occupied key v)) :
      Placed hash m key value assignIfPresent
        (if assignIfPresent then { m with slots := m.slots.set q (.occupied key value) } else m,
          false)
  | absent (q : Nat) (old : Slot K V) (holds : m.slots[q]? = some old)
      (free : old.entry = none) (reaches : Reaches m.slots (homeIndex hash m.slots key) q)
      (missing : key ∉ Assoc.keys (entries m.slots)) :
      Placed hash m key value assignIfPresent
        (⟨m.slots.set q (.occupied key value), m.size + 1,
          if old.isUsed then m.used else m.used + 1⟩, true)

theorem storeAt_eq {q : Nat} {key : K} {old : V} (holds : m.slots[q]? = some (.occupied key old))
    (value : V) :
    storeAt m q value = some { m with slots := m.slots.set q (.occupied key value) } := by
  have inside := (List.getElem?_eq_some_iff.mp holds).1
  simp only [storeAt, holds, Vec.setAt, if_pos inside]
  rfl

theorem occupy_eq {target index : Nat} {firstDeleted : Option Nat} {old : Slot K V}
    (goes : firstDeleted.getD index = target) (holds : m.slots[target]? = some old)
    (key : K) (value : V) :
    occupy m key value index firstDeleted = some ⟨m.slots.set target (.occupied key value),
      m.size + 1, if old.isUsed then m.used else m.used + 1⟩ := by
  have inside := (List.getElem?_eq_some_iff.mp holds).1
  simp only [occupy, goes, holds, Vec.setAt, if_pos inside, Option.bind_eq_bind, Option.bind_some]
  rfl

/-- The tombstone the loop remembers lies on the part of the walk already passed. -/
def Remembered (slots : List (Slot K V)) (home i : Nat) (firstDeleted : Option Nat) : Prop :=
  ∀ d, firstDeleted = some d → slots[d]? = some .deleted ∧
    ∃ j < i, pos slots.length home j = d

theorem Remembered.succ {home i : Nat} {firstDeleted : Option Nat}
    (remembered : Remembered slots home i firstDeleted) :
    Remembered slots home (i + 1) firstDeleted := by
  intro d is
  obtain ⟨holds, j, before, at_d⟩ := remembered d is
  exact ⟨holds, j, by omega, at_d⟩

section Loops
variable [DecidableEq K]

theorem findSlotFrom_spec (chained : Chained hash slots) (key : K) : ∀ (probes i : Nat),
    probes + i = slots.length → Passed slots key (homeIndex hash slots key) i →
    (∃ q v, findSlotFrom slots key probes (pos slots.length (homeIndex hash slots key) i) =
        some (some q) ∧ slots[q]? = some (.occupied key v)) ∨
      (findSlotFrom slots key probes (pos slots.length (homeIndex hash slots key) i) =
        some none ∧ key ∉ Assoc.keys (entries slots)) := by
  intro probes
  induction probes with
  | zero =>
    intro i round passed
    refine .inr ⟨rfl, absent_of_passed chained passed (.inl (by omega))⟩
  | succ probes ih =>
    intro i round passed
    have inside : pos slots.length (homeIndex hash slots key) i < slots.length :=
      pos_lt chained.positive
    have next := ih (i + 1) (by omega)
    rw [← masked_next chained.power, ← mask] at next
    cases holds : slots[pos slots.length (homeIndex hash slots key) i]? with
    | none => exact absurd inside (by simpa using holds)
    | some slot =>
      simp only [findSlotFrom, holds]
      cases slot with
      | empty => exact .inr ⟨rfl, absent_of_passed chained passed (.inr holds)⟩
      | deleted => exact next (passed.succ (by simp [holds]) (by simp [holds]))
      | occupied k v =>
        by_cases same : k = key
        · subst same
          exact .inl ⟨_, v, if_pos rfl, holds⟩
        · simp only [if_neg same]
          exact next (passed.succ (by simp [holds]) (by simp [holds, same]))

/-- A lookup never leaves the array; it finds the slot of a present key and nothing else. -/
theorem findSlot_spec (chained : Chained hash m.slots) (key : K) :
    (∃ q v, findSlot hash m key = some (some q) ∧ m.slots[q]? = some (.occupied key v)) ∨
      (findSlot hash m key = some none ∧ key ∉ Assoc.keys (entries m.slots)) := by
  have walk := findSlotFrom_spec chained key m.slots.length 0 rfl (by simp [Passed])
  rwa [pos_zero (chained.home_lt key)] at walk

theorem placeFrom_spec (chained : Chained hash m.slots)
    (room : occupancy m.slots < m.slots.length) (key : K) (value : V) (assignIfPresent : Bool) :
    ∀ (probes i : Nat) (firstDeleted : Option Nat), probes + i = m.slots.length →
      Passed m.slots key (homeIndex hash m.slots key) i →
      Remembered m.slots (homeIndex hash m.slots key) i firstDeleted →
      ∃ r, placeFrom m key value assignIfPresent probes
          (pos m.slots.length (homeIndex hash m.slots key) i) firstDeleted = some r ∧
        Placed hash m key value assignIfPresent r := by
  intro probes
  induction probes with
  | zero =>
    -- a whole round without an empty slot contradicts the free room
    intro i firstDeleted round passed _
    obtain ⟨q, holds⟩ := exists_empty room
    obtain ⟨j, inside, rfl⟩ := exists_pos (chained.home_lt key)
      (List.getElem?_eq_some_iff.mp holds).1
    exact absurd holds (passed j (by omega)).1
  | succ probes ih =>
    intro i firstDeleted round passed remembered
    have inside : pos m.slots.length (homeIndex hash m.slots key) i < m.slots.length :=
      pos_lt chained.positive
    have next := fun firstDeleted => ih (i + 1) firstDeleted (by omega)
    rw [← masked_next chained.power, ← mask] at next
    cases holds : m.slots[pos m.slots.length (homeIndex hash m.slots key) i]? with
    | none => exact absurd inside (by simpa using holds)
    | some slot =>
      simp only [placeFrom, holds]
      cases slot with
      | empty =>
        have missing := absent_of_passed chained passed (.inr holds)
        cases firstDeleted with
        | none =>
          rw [occupy_eq rfl holds]
          exact ⟨_, rfl, .absent _ _ holds rfl
            ⟨i, by omega, rfl, fun i' before => (passed i' before).1⟩ missing⟩
        | some d =>
          obtain ⟨tombstone, j, before, rfl⟩ := remembered d rfl
          rw [occupy_eq rfl tombstone]
          exact ⟨_, rfl, .absent _ _ tombstone rfl
            ⟨j, by omega, rfl, fun i' earlier => (passed i' (by omega)).1⟩ missing⟩
      | deleted =>
        refine next _ (passed.succ (by simp [holds]) (by simp [holds])) ?_
        cases firstDeleted with
        | none =>
          rintro d ⟨⟩
          exact ⟨holds, i, by omega, rfl⟩
        | some d => exact remembered.succ
      | occupied k v =>
        by_cases same : k = key
        · subst same
          refine ⟨_, (if_pos rfl).trans ?_, .present _ v holds⟩
          rw [storeAt_eq holds]
          cases assignIfPresent <;> rfl
        · simp only [if_neg same]
          exact next _ (passed.succ (by simp [holds]) (by simp [holds, same])) remembered.succ

/-- While a slot is empty, `place` returns within one round. -/
theorem place_spec (chained : Chained hash m.slots)
    (room : occupancy m.slots < m.slots.length) (key : K) (value : V) (assignIfPresent : Bool) :
    ∃ r, place hash m key value assignIfPresent = some r ∧
      Placed hash m key value assignIfPresent r := by
  have walk := placeFrom_spec chained room key value assignIfPresent m.slots.length 0 none rfl
    (by simp [Passed]) (by simp [Remembered])
  rwa [pos_zero (chained.home_lt key)] at walk

end Loops
end CppDB.HashMap
