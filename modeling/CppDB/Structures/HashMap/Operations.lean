import CppDB.Structures.HashMap.Probing

/-! The class invariant and one specification per public operation, in terms of the
finite map the occupied slots denote. -/
namespace CppDB.HashMap
open Assoc (keys)

variable {K V : Type} [DecidableEq K] {hash : K → Nat} {m : HashMap K V}

/-- The finite map a table stands for. -/
def toMap (m : HashMap K V) : Finmap fun _ : K => V := Assoc.toMap (entries m.slots)

/-- The class invariant. The load bound leaves an empty slot for every probe. -/
structure Valid (hash : K → Nat) (m : HashMap K V) : Prop where
  chained : Chained hash m.slots
  least : minCapacity ≤ m.slots.length
  sized : m.size = (entries m.slots).length
  counted : m.used = occupancy m.slots
  load : m.used * 10 ≤ m.slots.length * 7

theorem mem_toMap {key : K} : key ∈ m.toMap ↔ key ∈ keys (entries m.slots) := Assoc.mem_toMap

theorem lookup_toMap (key : K) : m.toMap.lookup key = Assoc.find key (entries m.slots) :=
  Assoc.lookup_toMap key _

namespace Valid

theorem size_eq (valid : Valid hash m) : m.size = m.toMap.keys.card := by
  rw [valid.sized, toMap, Assoc.card_toMap valid.chained.distinct]

omit [DecidableEq K] in
theorem room (valid : Valid hash m) : occupancy m.slots < m.slots.length := by
  have load := valid.load
  have least := valid.least
  rw [valid.counted] at load
  simp only [minCapacity] at least
  omega

/-- The slot of a present key holds the value the map has for it. -/
theorem lookup_of_holds (valid : Valid hash m) {q : Nat} {key : K} {v : V}
    (holds : m.slots[q]? = some (.occupied key v)) : m.toMap.lookup key = some v := by
  rw [lookup_toMap]
  exact Assoc.find_of_mem valid.chained.distinct (mem_entries.mpr ⟨q, holds⟩)

/-- Overwriting the value in a key's slot. -/
theorem store (valid : Valid hash m) {q : Nat} {key : K} {v : V}
    (holds : m.slots[q]? = some (.occupied key v)) (value : V) :
    Valid hash { m with slots := m.slots.set q (.occupied key value) } ∧
      toMap { m with slots := m.slots.set q (.occupied key value) } =
        m.toMap.insert key value := by
  obtain ⟨front, back, before, after⟩ := entries_set holds (.occupied key value)
  simp only [Slot.entry, Option.toList_some] at before after
  have distinct := valid.chained.distinct
  have sameKeys : keys (entries (m.slots.set q (.occupied key value))) = keys (entries m.slots) := by
    rw [before, after]
    simp
  constructor
  · constructor
    · apply valid.chained.set rfl
      · rw [sameKeys]
        exact distinct
      · rintro k _ ⟨⟩
        exact valid.chained.reached q key v holds
    · simpa using valid.least
    · rw [valid.sized, before, after]
      simp
    · rw [occupancy_set holds rfl]
      exact valid.counted
    · simpa using valid.load
  · have absent : key ∉ keys front := by
      rw [before, List.append_assoc, Assoc.keys_append] at distinct
      intro there
      exact (List.nodup_append.mp distinct).2.2 key there key (by simp) rfl
    simp only [toMap, before, after, Assoc.toMap_middle absent, Finmap.insert_insert]

/-- Filling a free slot on the walk of an absent key. -/
theorem fill (valid : Valid hash m) (roomy : (m.used + 1) * 10 ≤ m.slots.length * 7) {q : Nat}
    {key : K} {old : Slot K V} (holds : m.slots[q]? = some old) (free : old.entry = none)
    (reaches : Reaches m.slots (homeIndex hash m.slots key) q)
    (missing : key ∉ keys (entries m.slots)) (value : V) :
    Valid hash ⟨m.slots.set q (.occupied key value), m.size + 1,
        if old.isUsed then m.used else m.used + 1⟩ ∧
      toMap ⟨m.slots.set q (.occupied key value), m.size + 1,
        if old.isUsed then m.used else m.used + 1⟩ = m.toMap.insert key value := by
  obtain ⟨front, back, before, after⟩ := entries_set holds (.occupied key value)
  rw [free, Option.toList_none, List.append_nil] at before
  simp only [Slot.entry, Option.toList_some] at after
  rw [before] at missing
  constructor
  · constructor
    · apply valid.chained.set rfl
      · have distinct := valid.chained.distinct
        rw [before] at distinct
        have moved : (front ++ [(key, value)] ++ back).Perm ((key, value) :: (front ++ back)) := by
          rw [List.append_assoc]
          exact List.perm_middle
        rw [after]
        apply (moved.map Prod.fst).nodup_iff.mpr
        exact List.nodup_cons.mpr ⟨missing, distinct⟩
      · rintro k _ ⟨⟩
        exact reaches
    · simpa using valid.least
    · simp only [valid.sized, before, after, List.length_append, List.length_singleton]
      omega
    · have counts := occupancy_set holds (rfl : (Slot.occupied key value).isUsed = true)
      simp only [counts, valid.counted]
    · simp only [List.length_set]
      split <;> omega
  · simp only [Assoc.keys_append, List.mem_append, not_or] at missing
    simp only [toMap, before, after, Assoc.toMap_middle missing.1]

/-- `place` on a table with room: it answers whether the key was absent, and binds the
key unless it was present and must not be assigned. -/
theorem place (valid : Valid hash m) (roomy : (m.used + 1) * 10 ≤ m.slots.length * 7) (key : K)
    (value : V) (assignIfPresent : Bool) :
    ∃ m', HashMap.place hash m key value assignIfPresent = some (m', decide (key ∉ m.toMap)) ∧
      Valid hash m' ∧ m'.slots.length = m.slots.length ∧ m'.used ≤ m.used + 1 ∧
      m'.toMap = if key ∈ m.toMap ∧ assignIfPresent = false then m.toMap
        else m.toMap.insert key value := by
  obtain ⟨r, places, placed⟩ := place_spec valid.chained valid.room key value assignIfPresent
  cases placed with
  | present q v holds =>
    have there : key ∈ m.toMap := by
      rw [← Finmap.lookup_isSome, valid.lookup_of_holds holds]
      rfl
    obtain ⟨stored, binds⟩ := valid.store holds value
    refine ⟨_, by simpa [there] using places, ?_⟩
    cases assignIfPresent with
    | false => exact ⟨valid, rfl, by simp, by simp [there]⟩
    | true => exact ⟨stored, by simp, by simp, by simpa using binds⟩
  | absent q old holds free reaches missing =>
    have absent : key ∉ m.toMap := by rwa [mem_toMap]
    obtain ⟨filled, binds⟩ := valid.fill roomy holds free reaches missing value
    refine ⟨_, by simpa [absent] using places, filled, by simp, ?_, by simpa [absent] using binds⟩
    simp only
    split <;> omega

end Valid

omit [DecidableEq K] in
theorem length_entries_le (slots : List (Slot K V)) : (entries slots).length ≤ occupancy slots := by
  induction slots with
  | nil => exact Nat.le_refl _
  | cons slot slots ih =>
    rw [entries_cons, occupancy, List.countP_cons, ← occupancy]
    cases slot <;> simp [Slot.entry, Slot.isUsed] <;> omega

omit [DecidableEq K] in
theorem valid_fresh {capacity : Nat} (power : ∃ e, capacity = 2 ^ e)
    (least : minCapacity ≤ capacity) : Valid hash (fresh capacity : HashMap K V) := by
  have none : entries (List.replicate capacity (Slot.empty : Slot K V)) = [] := by
    rw [entries, List.filterMap_replicate]
    rfl
  constructor
  · constructor
    · simpa [fresh] using power
    · simp [fresh, none]
    · intro q k v holds
      simp only [fresh, List.getElem?_replicate] at holds
      split at holds <;> cases holds
  · simpa [fresh] using least
  · simp [fresh, none]
  · simp [fresh, occupancy, List.countP_replicate, Slot.isUsed]
  · simp [fresh]

theorem toMap_fresh (capacity : Nat) : (fresh capacity : HashMap K V).toMap = ∅ := by
  have none : entries (List.replicate capacity (Slot.empty : Slot K V)) = [] := by
    rw [entries, List.filterMap_replicate]
    rfl
  rw [toMap, fresh, none, Assoc.toMap_nil]

/-- Re-placing a slot array: earlier bindings win, as in a left-to-right reading. -/
theorem placeAll_spec : ∀ (old : List (Slot K V)) (m : HashMap K V), Valid hash m →
    (m.used + (entries old).length) * 10 ≤ m.slots.length * 7 →
    ∃ m', placeAll hash old m = some m' ∧ Valid hash m' ∧ m'.slots.length = m.slots.length ∧
      m'.used ≤ m.used + (entries old).length ∧
      ∀ k, m'.toMap.lookup k = (m.toMap.lookup k).or (Assoc.find k (entries old)) := by
  intro old
  induction old with
  | nil =>
    intro m valid _
    exact ⟨m, rfl, valid, rfl, Nat.le_refl _, fun k => by simp [entries, Assoc.find]⟩
  | cons slot old ih =>
    intro m valid roomy
    cases slot with
    | empty => exact ih m valid roomy
    | deleted => exact ih m valid roomy
    | occupied key value =>
      have split : entries (.occupied key value :: old) = (key, value) :: entries old := rfl
      rw [split, List.length_cons] at roomy ⊢
      obtain ⟨m₁, places, valid₁, length₁, used₁, binds⟩ :=
        valid.place (by omega) key value false
      obtain ⟨m₂, rest, valid₂, length₂, used₂, lookups⟩ := ih m₁ valid₁ (by omega)
      refine ⟨m₂, ?_, valid₂, length₂.trans length₁, by omega, ?_⟩
      · simp only [placeAll, places, rest, Option.bind_eq_bind, Option.bind_some]
      · intro k
        rw [lookups, binds, Assoc.find]
        by_cases present : key ∈ m.toMap
        · simp only [present, and_self, if_true]
          obtain ⟨v, bound⟩ := Option.isSome_iff_exists.mp (Finmap.lookup_isSome.mpr present)
          by_cases same : key = k
          · subst same
            simp [bound]
          · simp [same]
        · simp only [present, false_and, if_false]
          by_cases same : key = k
          · subst same
            have missing : m.toMap.lookup key = none := by
              rwa [Finmap.lookup_eq_none]
            simp [Finmap.lookup_insert, missing]
          · rw [Finmap.lookup_insert_of_ne _ (Ne.symm same), if_neg same]

/-- The slot count a crowded table is rebuilt with. -/
def newCapacity (m : HashMap K V) : Nat :=
  if m.slots.length * 4 < (m.size + 1) * 10 then m.slots.length * 2 else m.slots.length

theorem reserveForOneMore_eq (m : HashMap K V) :
    reserveForOneMore hash m = if (m.used + 1) * 10 ≤ m.slots.length * 7 then some m
      else rehash hash m (newCapacity m) := by
  simp only [reserveForOneMore, newCapacity, decide_eq_true_eq]

namespace Valid

theorem rehash (valid : Valid hash m) {newCapacity : Nat} (power : ∃ e, newCapacity = 2 ^ e)
    (least : minCapacity ≤ newCapacity) (enough : m.size * 10 ≤ newCapacity * 7) :
    ∃ m', HashMap.rehash hash m newCapacity = some m' ∧ Valid hash m' ∧
      m'.slots.length = newCapacity ∧ m'.used ≤ m.size ∧ m'.toMap = m.toMap := by
  have capacity : (fresh newCapacity : HashMap K V).slots.length = newCapacity := by simp [fresh]
  have unused : (fresh newCapacity : HashMap K V).used = 0 := rfl
  obtain ⟨m', rebuilds, valid', length, used, lookups⟩ :=
    placeAll_spec m.slots (fresh newCapacity) (valid_fresh power least : Valid hash _)
      (by rw [capacity, unused, Nat.zero_add, ← valid.sized]; exact enough)
  refine ⟨m', rebuilds, valid', length.trans capacity, ?_, ?_⟩
  · rw [valid.sized]
    omega
  · apply Finmap.ext_lookup
    intro k
    rw [lookups, toMap_fresh, Finmap.lookup_empty, Option.none_or, lookup_toMap]

omit [DecidableEq K] in
/-- A table that is full under the load bound is rebuilt with room for one more. -/
theorem rebuilds (valid : Valid hash m) (crowded : ¬(m.used + 1) * 10 ≤ m.slots.length * 7) :
    (∃ e, newCapacity m = 2 ^ e) ∧ minCapacity ≤ newCapacity m ∧
      (m.size + 1) * 10 ≤ newCapacity m * 7 := by
  have least := valid.least
  have load := valid.load
  have live : m.size ≤ m.used := by
    rw [valid.sized, valid.counted]
    exact length_entries_le _
  obtain ⟨e, length⟩ := valid.chained.power
  rw [newCapacity]
  simp only [minCapacity] at least ⊢
  split_ifs with mostlyLive
  · exact ⟨⟨e + 1, by rw [length, pow_succ]⟩, by omega, by omega⟩
  · exact ⟨⟨e, length⟩, least, by omega⟩

/-- Before a pair is placed there is room for it under the load bound. -/
theorem reserveForOneMore (valid : Valid hash m) :
    ∃ m', HashMap.reserveForOneMore hash m = some m' ∧ Valid hash m' ∧
      (m'.used + 1) * 10 ≤ m'.slots.length * 7 ∧ m'.toMap = m.toMap := by
  rw [reserveForOneMore_eq]
  split_ifs with roomy
  · exact ⟨m, rfl, valid, roomy, rfl⟩
  · obtain ⟨power, least, enough⟩ := valid.rebuilds roomy
    obtain ⟨m', rebuilds, valid', length, used, same⟩ := valid.rehash power least (by omega)
    exact ⟨m', rebuilds, valid', by omega, same⟩

theorem insert (valid : Valid hash m) (key : K) (value : V) :
    ∃ m', HashMap.insert hash m key value = some (m', decide (key ∉ m.toMap)) ∧ Valid hash m' ∧
      m'.toMap = if key ∈ m.toMap then m.toMap else m.toMap.insert key value := by
  obtain ⟨m₁, reserves, valid₁, roomy, same⟩ := valid.reserveForOneMore
  obtain ⟨m₂, places, valid₂, _, _, binds⟩ := valid₁.place roomy key value false
  rw [same] at places binds
  refine ⟨m₂, ?_, valid₂, by simpa using binds⟩
  rw [HashMap.insert, reserves]
  exact places

theorem insertOrAssign (valid : Valid hash m) (key : K) (value : V) :
    ∃ m', HashMap.insertOrAssign hash m key value = some (m', decide (key ∉ m.toMap)) ∧
      Valid hash m' ∧ m'.toMap = m.toMap.insert key value := by
  obtain ⟨m₁, reserves, valid₁, roomy, same⟩ := valid.reserveForOneMore
  obtain ⟨m₂, places, valid₂, _, _, binds⟩ := valid₁.place roomy key value true
  rw [same] at places binds
  refine ⟨m₂, ?_, valid₂, by simpa using binds⟩
  rw [HashMap.insertOrAssign, reserves]
  exact places

theorem find (valid : Valid hash m) (key : K) (write : V → V) :
    ∃ m', HashMap.find hash m key write = some (m', m.toMap.lookup key) ∧ Valid hash m' ∧
      m'.toMap = match m.toMap.lookup key with
        | none => m.toMap
        | some v => m.toMap.insert key (write v) := by
  rcases findSlot_spec valid.chained key with ⟨q, v, finds, holds⟩ | ⟨misses, absent⟩
  · have bound := valid.lookup_of_holds holds
    obtain ⟨stored, binds⟩ := valid.store holds (write v)
    refine ⟨_, ?_, stored, by simpa only [bound] using binds⟩
    simp only [HashMap.find, finds, valueAt, holds, storeAt_eq holds, bound, Option.bind_eq_bind,
      Option.bind_some]
    rfl
  · have missing : m.toMap.lookup key = none := by
      rwa [lookup_toMap, Assoc.find_eq_none]
    refine ⟨m, ?_, valid, by simp only [missing]⟩
    simp only [HashMap.find, misses, missing, Option.bind_eq_bind, Option.bind_some]
    rfl

theorem contains (valid : Valid hash m) (key : K) :
    HashMap.contains hash m key = some (decide (key ∈ m.toMap)) := by
  rw [HashMap.contains]
  rcases findSlot_spec valid.chained key with ⟨q, v, finds, holds⟩ | ⟨misses, absent⟩
  · have present : key ∈ m.toMap := by
      rw [mem_toMap, Assoc.mem_keys]
      exact ⟨v, mem_entries.mpr ⟨q, holds⟩⟩
    simp [finds, present]
  · have missing : key ∉ m.toMap := by rwa [mem_toMap]
    simp [misses, missing]

theorem erase (valid : Valid hash m) (key : K) :
    ∃ m', HashMap.erase hash m key = some (m', decide (key ∈ m.toMap)) ∧ Valid hash m' ∧
      m'.toMap = m.toMap.erase key := by
  rcases findSlot_spec valid.chained key with ⟨q, v, finds, holds⟩ | ⟨misses, absent⟩
  · have present : key ∈ m.toMap := by
      rw [mem_toMap, Assoc.mem_keys]
      exact ⟨v, mem_entries.mpr ⟨q, holds⟩⟩
    have inside := (List.getElem?_eq_some_iff.mp holds).1
    obtain ⟨front, back, before, after⟩ := entries_set holds .deleted
    simp only [Slot.entry, Option.toList_some, Option.toList_none, List.append_nil] at before after
    have distinct := valid.chained.distinct
    rw [before] at distinct
    refine ⟨⟨m.slots.set q .deleted, m.size - 1, m.used⟩, ?_, ?_, ?_⟩
    · simp only [HashMap.erase, finds, Vec.setAt, if_pos inside, present, decide_true,
        Option.bind_eq_bind, Option.bind_some]
      rfl
    · constructor
      · apply valid.chained.set rfl
        · rw [after]
          refine List.Nodup.sublist ?_ distinct
          simp
        · intro k v' is
          cases is
      · simpa using valid.least
      · simp only [valid.sized, before, after, List.length_append, List.length_singleton]
        omega
      · have counts := occupancy_set holds (rfl : (Slot.deleted : Slot K V).isUsed = true)
        simp only [counts, valid.counted, Slot.isUsed, if_true]
      · simpa using valid.load
    · simp only [toMap, before, after]
      exact Assoc.toMap_erase_middle distinct
  · have missing : key ∉ m.toMap := by rwa [mem_toMap]
    refine ⟨m, ?_, valid, ?_⟩
    · simp only [HashMap.erase, misses, missing, decide_false, Option.bind_eq_bind, Option.bind_some]
      rfl
    · rw [toMap, ← Assoc.toMap_without, Assoc.without_eq_self absent]

/-- The second lookup of `operator[]` always hits. -/
theorem subscript (valid : Valid hash m) (default : V) (key : K) (write : V → V) :
    ∃ m', HashMap.subscript hash default m key write =
        some (m', (m.toMap.lookup key).getD default) ∧ Valid hash m' ∧
      m'.toMap = m.toMap.insert key (write ((m.toMap.lookup key).getD default)) := by
  obtain ⟨m₁, finds, valid₁, binds₁⟩ := valid.find key write
  cases bound : m.toMap.lookup key with
  | some v =>
    rw [bound] at finds
    simp only [bound] at binds₁
    refine ⟨m₁, ?_, valid₁, by simpa using binds₁⟩
    simp only [HashMap.subscript, finds, Option.bind_eq_bind, Option.bind_some, Option.getD_some]
    rfl
  | none =>
    rw [bound] at finds
    simp only [bound] at binds₁
    obtain ⟨m₂, inserts, valid₂, binds₂⟩ := valid₁.insert key default
    have absent : key ∉ m.toMap := Finmap.lookup_eq_none.mp bound
    rw [binds₁, if_neg absent] at binds₂
    obtain ⟨m₃, finds₃, valid₃, binds₃⟩ := valid₂.find key write
    rw [binds₂, Finmap.lookup_insert] at finds₃ binds₃
    refine ⟨m₃, ?_, valid₃, by simpa [Finmap.insert_insert] using binds₃⟩
    simp only [HashMap.subscript, finds, inserts, finds₃, Option.bind_eq_bind, Option.bind_some,
      Option.getD_none]
    rfl

end Valid

/-- The doubling loop reaches the requested capacity without leaving the word. -/
theorem capacityFor_spec {initialCapacity : Nat} (fits : initialCapacity ≤ 2 ^ 63) :
    ∀ (fuel e : Nat), e ≤ 63 → 64 ≤ fuel + e →
      ∃ e', e ≤ e' ∧ capacityFor initialCapacity fuel (2 ^ e) = some (2 ^ e') := by
  intro fuel
  induction fuel with
  | zero =>
    intro e small enough
    omega
  | succ fuel ih =>
    intro e small enough
    by_cases grows : 2 ^ e < initialCapacity
    · have smaller : e < 63 := by
        apply (Nat.pow_lt_pow_iff_right (a := 2) (by decide)).mp
        omega
      have doubled : 2 ^ e * 2 % 2 ^ 64 = 2 ^ (e + 1) := by
        rw [← pow_succ]
        apply Nat.mod_eq_of_lt
        exact Nat.pow_lt_pow_right (by decide) (by omega)
      obtain ⟨e', after, doubles⟩ := ih (e + 1) (by omega) (by omega)
      exact ⟨e', by omega, by rw [capacityFor, if_pos grows, doubled, doubles]⟩
    · exact ⟨e, Nat.le_refl _, by rw [capacityFor, if_neg grows]⟩

theorem create_spec (hash : K → Nat) {initialCapacity : Nat} (fits : initialCapacity ≤ 2 ^ 63) :
    ∃ m : HashMap K V, create initialCapacity = some m ∧ Valid hash m ∧ m.toMap = ∅ := by
  obtain ⟨e, atLeast, doubles⟩ := capacityFor_spec fits 65 4 (by decide) (by decide)
  have start : minCapacity = 2 ^ 4 := rfl
  refine ⟨fresh (2 ^ e), ?_, valid_fresh ⟨e, rfl⟩ ?_, toMap_fresh _⟩
  · rw [create, start, doubles, Option.map_some]
  · rw [start]
    exact Nat.pow_le_pow_right (by decide) atLeast

end CppDB.HashMap
