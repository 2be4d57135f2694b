import CppDB.Structures.HashMap.Refinement

/-! The counters of every map that calls on the interface can build, and the tables the
private `place` is called on: each of them has an empty slot, so its loop ends. -/
namespace CppDB

def Slot.isOccupied {K V : Type} : Slot K V → Bool
  | .occupied _ _ => true
  | _ => false

def Slot.isDeleted {K V : Type} : Slot K V → Bool
  | .deleted => true
  | _ => false

namespace HashMap
open Cyclic

variable {K V : Type}

/-! ### The constructor -/

/-- A doubling that left the word leaves zero, and zero never grows. -/
theorem capacityFor_zero {initialCapacity : Nat} (positive : 0 < initialCapacity) (fuel : Nat) :
    capacityFor initialCapacity fuel 0 = none := by
  induction fuel with
  | zero => rfl
  | succ fuel ih => rw [capacityFor, if_pos positive, Nat.zero_mul, Nat.zero_mod, ih]

/-- Whatever capacity is asked for, the loop ends at a power of two if it ends. -/
theorem capacityFor_power {initialCapacity capacity : Nat} : ∀ (fuel e : Nat), e ≤ 63 →
    capacityFor initialCapacity fuel (2 ^ e) = some capacity →
      ∃ e', e ≤ e' ∧ capacity = 2 ^ e' := by
  intro fuel
  induction fuel with
  | zero =>
    intro e _ ends
    cases ends
  | succ fuel ih =>
    intro e small ends
    rw [capacityFor] at ends
    split_ifs at ends with grows
    · rcases Nat.lt_or_eq_of_le small with smaller | rfl
      · have doubled : 2 ^ e * 2 % 2 ^ 64 = 2 ^ (e + 1) := by
          rw [← pow_succ]
          exact Nat.mod_eq_of_lt (Nat.pow_lt_pow_right one_lt_two (by omega))
        rw [doubled] at ends
        obtain ⟨e', after, is⟩ := ih (e + 1) smaller ends
        exact ⟨e', by omega, is⟩
      · have wraps : 2 ^ 63 * 2 % 2 ^ 64 = 0 := by norm_num
        rw [wraps, capacityFor_zero (by omega)] at ends
        cases ends
    · cases ends
      exact ⟨e, le_rfl, rfl⟩

theorem create_valid (hash : K → Nat) {initialCapacity : Nat} {m : HashMap K V}
    (creates : create initialCapacity = some m) : Valid hash m := by
  obtain ⟨capacity, ends, rfl⟩ := Option.map_eq_some_iff.mp creates
  have start : minCapacity = 2 ^ 4 := rfl
  rw [start] at ends
  obtain ⟨e, least, rfl⟩ := capacityFor_power 65 4 (by omega) ends
  refine valid_fresh ⟨e, rfl⟩ ?_
  rw [start]
  exact Nat.pow_le_pow_right two_pos least

/-! ### Counters -/

theorem length_entries (slots : List (Slot K V)) :
    (entries slots).length = slots.countP Slot.isOccupied := by
  rw [entries, List.length_filterMap_eq_countP]
  apply List.countP_congr
  intro slot _
  cases slot <;> simp [Slot.entry, Slot.isOccupied]

theorem occupancy_eq (slots : List (Slot K V)) :
    occupancy slots = slots.countP Slot.isOccupied + slots.countP Slot.isDeleted := by
  induction slots with
  | nil => rfl
  | cons slot slots ih =>
    rw [occupancy] at ih ⊢
    simp only [List.countP_cons, ih]
    cases slot <;> simp [Slot.isUsed, Slot.isOccupied, Slot.isDeleted] <;> omega

variable [DecidableEq K] {hash : K → Nat} {default : V} {m t : HashMap K V}

/-- The maps that calls on the interface build from the constructor. Copying or moving a map
makes no others, but for the one moved from, which has no slots left. -/
def Reachable (hash : K → Nat) (default : V) (m : HashMap K V) : Prop :=
  ∃ (initialCapacity : Nat) (start : HashMap K V) (ops : List (Op K V))
    (results : List (Result K V)), create initialCapacity = some start ∧
      Machine.run (step hash default) start ops = some (m, results)

/-- A run from a sound map goes through and ends in a sound one. -/
theorem Valid.run (valid : Valid hash m) (default : V) (ops : List (Op K V)) :
    ∃ m' results, Machine.run (step hash default) m ops = some (m', results) ∧
      Valid hash m' := by
  obtain ⟨m', results, runs, ⟨valid', -⟩, -⟩ := (step_simulates hash default).run ops ⟨valid, rfl⟩
  exact ⟨m', results, runs, valid'⟩

theorem Reachable.valid (reachable : Reachable hash default m) : Valid hash m := by
  obtain ⟨initialCapacity, start, ops, results, creates, runs⟩ := reachable
  obtain ⟨m', results', runs', valid⟩ := (create_valid hash creates).run default ops
  cases runs.symm.trans runs'
  exact valid

/-! ### Calls of `place` -/

/-- The calls of `place` by `insert` and `insertOrAssign`, each with the table it works on:
one for every old pair if the table is rebuilt first, on what the pairs before it made of
the new array, and the one for the new pair. -/
inductive Places (hash : K → Nat) (m : HashMap K V) (key : K) (value : V)
    (assignIfPresent : Bool) : HashMap K V → K → V → Bool → Prop
  | rehash {front back : List (Slot K V)} {k : K} {v : V} {t : HashMap K V}
      (crowded : ¬(m.used + 1) * 10 ≤ m.slots.length * 7)
      (slots : m.slots = front ++ .occupied k v :: back)
      (rebuilds : placeAll hash front (fresh (newCapacity m)) = some t) :
      Places hash m key value assignIfPresent t k v false
  | insert {t : HashMap K V} (reserves : reserveForOneMore hash m = some t) :
      Places hash m key value assignIfPresent t key value assignIfPresent

/-- The calls of `place` by each call on the interface. -/
inductive PlaceCall (hash : K → Nat) (default : V) (m : HashMap K V) :
    Op K V → HashMap K V → K → V → Bool → Prop
  | insert {key : K} {value : V} {t : HashMap K V} {k : K} {v : V} {assign : Bool}
      (places : Places hash m key value false t k v assign) :
      PlaceCall hash default m (.insert key value) t k v assign
  | insertOrAssign {key : K} {value : V} {t : HashMap K V} {k : K} {v : V} {assign : Bool}
      (places : Places hash m key value true t k v assign) :
      PlaceCall hash default m (.insertOrAssign key value) t k v assign
  | subscript {key : K} {write : V → V} {m' t : HashMap K V} {k : K} {v : V} {assign : Bool}
      (missing : find hash m key write = some (m', none))
      (places : Places hash m' key default false t k v assign) :
      PlaceCall hash default m (.subscript key write) t k v assign

/-- `place` only ever works on a sound table. -/
theorem Places.valid (valid : Valid hash m) {key k : K} {value v : V} {assigns assign : Bool}
    (places : Places hash m key value assigns t k v assign) : Valid hash t := by
  cases places with
  | @rehash front back _ _ _ crowded slots rebuilds =>
    obtain ⟨power, least, enough⟩ := valid.rebuilds crowded
    have part : (entries front).length ≤ m.size := by
      rw [valid.sized, slots, entries, entries, List.filterMap_append, List.length_append]
      omega
    have capacity : (fresh (newCapacity m) : HashMap K V).slots.length = newCapacity m := by
      simp [fresh]
    have unused : (fresh (newCapacity m) : HashMap K V).used = 0 := rfl
    obtain ⟨t', rebuilds', valid', -⟩ :=
      placeAll_spec front (fresh (newCapacity m)) (valid_fresh power least : Valid hash _)
        (by rw [capacity, unused]; omega)
    cases rebuilds.symm.trans rebuilds'
    exact valid'
  | insert reserves =>
    obtain ⟨t', reserves', valid', -⟩ := valid.reserveForOneMore
    cases reserves.symm.trans reserves'
    exact valid'

theorem PlaceCall.valid (valid : Valid hash m) {op : Op K V} {k : K} {v : V} {assign : Bool}
    (calls : PlaceCall hash default m op t k v assign) : Valid hash t := by
  cases calls with
  | insert places => exact places.valid valid
  | insertOrAssign places => exact places.valid valid
  | @subscript key write _ _ _ _ _ missing places =>
    obtain ⟨m', finds, valid', -⟩ := valid.find key write
    obtain ⟨rfl, -⟩ := Prod.mk.inj (Option.some.inj (missing.symm.trans finds))
    exact places.valid valid'

/-- The statement at the end of the loop of `place`. -/
def nextIndex (slots : List (Slot K V)) (index : Nat) : Nat := (index + 1) &&& mask slots

omit [DecidableEq K] in
theorem iterate_nextIndex {slots : List (Slot K V)} (chained : Chained hash slots) (key : K)
    (j : Nat) : (nextIndex slots)^[j] (homeIndex hash slots key) =
      pos slots.length (homeIndex hash slots key) j := by
  induction j with
  | zero => exact (pos_zero (chained.home_lt key)).symm
  | succ j ih => rw [Function.iterate_succ_apply', ih, nextIndex, mask, masked_next chained.power]

omit [DecidableEq K] in
/-- The probe loop meets an empty slot within one round. -/
theorem Valid.probe (valid : Valid hash m) (key : K) :
    ∃ j < m.slots.length,
      m.slots[(nextIndex m.slots)^[j] (homeIndex hash m.slots key)]? = some .empty := by
  obtain ⟨q, holds⟩ := exists_empty valid.room
  obtain ⟨j, inside, rfl⟩ := exists_pos (valid.chained.home_lt key)
    (List.getElem?_eq_some_iff.mp holds).1
  exact ⟨j, inside, by rw [iterate_nextIndex valid.chained, holds]⟩

/-- In every map built through the interface the counters count the occupied and the used
slots of a power of two, at most seven tenths of them used; and each call of `place` on its
behalf runs on a table with an empty slot, meets one within a round and returns. -/
theorem place_loop_terminates (reachable : Reachable hash default m) :
    m.used = m.slots.countP Slot.isOccupied + m.slots.countP Slot.isDeleted ∧
      m.size = m.slots.countP Slot.isOccupied ∧ (∃ e, m.slots.length = 2 ^ e) ∧
      m.used * 10 ≤ m.slots.length * 7 ∧
      ∀ op t key value assignIfPresent,
        PlaceCall hash default m op t key value assignIfPresent →
          .empty ∈ t.slots ∧
          (∃ j < t.slots.length,
            t.slots[(nextIndex t.slots)^[j] (homeIndex hash t.slots key)]? = some .empty) ∧
          ∃ answer, place hash t key value assignIfPresent = some answer := by
  have valid := reachable.valid
  refine ⟨?_, ?_, valid.chained.power, valid.load, ?_⟩
  · rw [valid.counted, occupancy_eq]
  · rw [valid.sized, length_entries]
  · intro op t key value assignIfPresent calls
    have sound := calls.valid valid
    obtain ⟨answer, places, -⟩ := place_spec sound.chained sound.room key value assignIfPresent
    obtain ⟨j, inside, holds⟩ := sound.probe key
    exact ⟨List.mem_of_getElem? holds, ⟨j, inside, holds⟩, answer, places⟩

/-- Sixteen slots after eleven insertions and ten erasures: the next insertion rebuilds the
table at the same size. -/
def tombstones : HashMap Nat Nat :=
  ⟨List.replicate 10 .deleted ++ .occupied 10 0 :: List.replicate 5 .empty, 1, 11⟩

theorem place_loop_terminates_rebuild :
    Reachable id 0 tombstones ∧
      PlaceCall id 0 tombstones (.insert 3 30) (fresh 16) 10 0 false ∧
      .empty ∈ (fresh 16 : HashMap Nat Nat).slots := by
  have reachable : Reachable id 0 tombstones :=
    ⟨16, fresh 16, (List.range 11).map (.insert · 0) ++ (List.range 10).map .erase, _, rfl, rfl⟩
  have calls : PlaceCall id 0 tombstones (.insert 3 30) (fresh 16) 10 0 false :=
    .insert (.rehash (by simp [tombstones]) rfl rfl)
  exact ⟨reachable, calls, ((place_loop_terminates reachable).2.2.2.2 _ _ _ _ _ calls).1⟩

end HashMap
end CppDB
