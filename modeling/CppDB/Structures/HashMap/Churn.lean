import CppDB.Structures.HashMap.Occupancy

/-! How large the slot array gets. Only `reserveForOneMore` changes its length, and it
doubles it only when live keys fill two fifths of it; tombstones alone never do. -/
namespace CppDB.HashMap

variable {K V : Type} {m m' : HashMap K V}

theorem storeAt_length {index : Nat} {value : V} (stores : storeAt m index value = some m') :
    m'.slots.length = m.slots.length := by
  rw [storeAt] at stores
  split at stores
  · rw [Option.bind_eq_bind, Option.bind_eq_some_iff] at stores
    obtain ⟨slots, sets, stores⟩ := stores
    cases stores
    exact Vec.setAt_length sets
  · cases stores

theorem occupy_length {key : K} {value : V} {index : Nat} {firstDeleted : Option Nat}
    (occupies : occupy m key value index firstDeleted = some m') :
    m'.slots.length = m.slots.length := by
  simp only [occupy, Option.bind_eq_bind, Option.bind_eq_some_iff] at occupies
  obtain ⟨dest, -, slots, sets, occupies⟩ := occupies
  cases occupies
  exact Vec.setAt_length sets

variable [DecidableEq K] {hash : K → Nat}

theorem placeFrom_length {key : K} {value : V} {assign answer : Bool} :
    ∀ (probes index : Nat) (firstDeleted : Option Nat),
      placeFrom m key value assign probes index firstDeleted = some (m', answer) →
        m'.slots.length = m.slots.length := by
  intro probes
  induction probes with
  | zero =>
    intro index firstDeleted places
    cases places
  | succ probes ih =>
    intro index firstDeleted places
    rw [placeFrom] at places
    split at places
    · cases places
    · split_ifs at places
      · obtain ⟨stored, stores, same⟩ := Option.map_eq_some_iff.mp places
        cases same
        exact storeAt_length stores
      · cases places
        rfl
      · exact ih _ _ places
    · exact ih _ _ places
    · obtain ⟨filled, occupies, same⟩ := Option.map_eq_some_iff.mp places
      cases same
      exact occupy_length occupies

theorem place_length {key : K} {value : V} {assign answer : Bool}
    (places : place hash m key value assign = some (m', answer)) :
    m'.slots.length = m.slots.length :=
  placeFrom_length _ _ _ places

theorem placeAll_length : ∀ (old : List (Slot K V)) (m : HashMap K V),
    placeAll hash old m = some m' → m'.slots.length = m.slots.length := by
  intro old
  induction old with
  | nil =>
    intro m places
    cases places
    rfl
  | cons slot old ih =>
    intro m places
    cases slot with
    | empty => exact ih m places
    | deleted => exact ih m places
    | occupied key value =>
      simp only [placeAll, Option.bind_eq_bind, Option.bind_eq_some_iff] at places
      obtain ⟨⟨mid, answer⟩, first, rest⟩ := places
      exact (ih mid rest).trans (place_length first)

/-- The array grows only to less than five slots for each live key and one more. -/
def Bounded (m m' : HashMap K V) : Prop :=
  m'.slots.length ≤ max m.slots.length (5 * (m.size + 1))

theorem reserveForOneMore_bounded (reserves : reserveForOneMore hash m = some m') :
    Bounded m m' := by
  rw [reserveForOneMore_eq] at reserves
  split_ifs at reserves
  · cases reserves
    exact le_max_left _ _
  · have length : m'.slots.length = newCapacity m := by
      rw [placeAll_length m.slots _ reserves, fresh, List.length_replicate]
    rw [Bounded, length, newCapacity]
    split_ifs with mostlyLive
    · exact le_max_of_le_right (by omega)
    · exact le_max_left _ _

/-- What both insertions do: make room, then place the entry. -/
theorem reserved_place_bounded {key : K} {value : V} {assign answer : Bool}
    (places : ((reserveForOneMore hash m).bind fun mid => place hash mid key value assign) =
      some (m', answer)) : Bounded m m' := by
  obtain ⟨mid, reserves, places⟩ := Option.bind_eq_some_iff.mp places
  rw [Bounded, place_length places]
  exact reserveForOneMore_bounded reserves

theorem insert_bounded {key : K} {value : V} {answer : Bool}
    (inserts : insert hash m key value = some (m', answer)) : Bounded m m' :=
  reserved_place_bounded inserts

theorem insertOrAssign_bounded {key : K} {value : V} {answer : Bool}
    (inserts : insertOrAssign hash m key value = some (m', answer)) : Bounded m m' :=
  reserved_place_bounded inserts

/-- A lookup that misses leaves the map alone, and one that hits its slot array's length. -/
theorem find_length {key : K} {write : V → V} {found : Option V}
    (finds : find hash m key write = some (m', found)) :
    m'.slots.length = m.slots.length ∧ (found = none → m' = m) := by
  rw [find, Option.bind_eq_bind, Option.bind_eq_some_iff] at finds
  obtain ⟨slot, -, finds⟩ := finds
  cases slot with
  | none =>
    cases finds
    exact ⟨rfl, fun _ => rfl⟩
  | some index =>
    simp only [Option.bind_eq_bind, Option.bind_eq_some_iff] at finds
    obtain ⟨value, -, stored, stores, finds⟩ := finds
    cases finds
    exact ⟨storeAt_length stores, fun miss => by cases miss⟩

theorem erase_length {key : K} {answer : Bool} (erases : erase hash m key = some (m', answer)) :
    m'.slots.length = m.slots.length := by
  rw [erase, Option.bind_eq_bind, Option.bind_eq_some_iff] at erases
  obtain ⟨slot, -, erases⟩ := erases
  cases slot with
  | none =>
    cases erases
    rfl
  | some index =>
    simp only [Option.bind_eq_bind, Option.bind_eq_some_iff] at erases
    obtain ⟨slots, sets, erases⟩ := erases
    cases erases
    exact Vec.setAt_length sets

theorem subscript_bounded {default value : V} {key : K} {write : V → V}
    (subscripts : subscript hash default m key write = some (m', value)) : Bounded m m' := by
  rw [subscript, Option.bind_eq_bind, Option.bind_eq_some_iff] at subscripts
  obtain ⟨⟨mid, found⟩, finds, subscripts⟩ := subscripts
  cases found with
  | some existing =>
    cases subscripts
    exact le_max_of_le_left (find_length finds).1.le
  | none =>
    obtain rfl := (find_length finds).2 rfl
    simp only [Option.bind_eq_bind, Option.bind_eq_some_iff] at subscripts
    obtain ⟨⟨grown, answer⟩, inserts, ⟨last, found⟩, finds', v, -, subscripts⟩ := subscripts
    cases subscripts
    rw [Bounded, (find_length finds').1]
    exact insert_bounded inserts

/-- What one call on the interface does to the slot count. -/
theorem step_bounded {default : V} {op : Op K V} {result : Result K V}
    (steps : step hash default m op = some (m', result)) : Bounded m m' := by
  cases op with
  | insert key value =>
    obtain ⟨⟨grown, answer⟩, inserts, same⟩ := Option.map_eq_some_iff.mp steps
    cases same
    exact insert_bounded inserts
  | insertOrAssign key value =>
    obtain ⟨⟨grown, answer⟩, inserts, same⟩ := Option.map_eq_some_iff.mp steps
    cases same
    exact insertOrAssign_bounded inserts
  | erase key =>
    obtain ⟨⟨shrunk, answer⟩, erases, same⟩ := Option.map_eq_some_iff.mp steps
    cases same
    exact le_max_of_le_left (erase_length erases).le
  | find key write =>
    obtain ⟨⟨written, found⟩, finds, same⟩ := Option.map_eq_some_iff.mp steps
    cases same
    exact le_max_of_le_left (find_length finds).1.le
  | contains key =>
    obtain ⟨answer, -, same⟩ := Option.map_eq_some_iff.mp steps
    cases same
    exact le_max_left _ _
  | subscript key write =>
    obtain ⟨⟨grown, value⟩, subscripts, same⟩ := Option.map_eq_some_iff.mp steps
    cases same
    exact subscript_bounded subscripts
  | size =>
    cases steps
    exact le_max_left _ _
  | forEach =>
    cases steps
    exact le_max_left _ _

/-- If a map never holds more than `peak` live keys along a run, then its capacity stays
within the initial one or five slots for each key at the peak and one more, whatever the
number of erasures, insertions and overwrites. -/
theorem capacity_le_of_live (default : V) {initialCapacity peak : Nat} {start : HashMap K V}
    (creates : create initialCapacity = some start) {ops : List (Op K V)}
    (live : ∀ done m results, done <+: ops →
      Machine.run (step hash default) start done = some (m, results) → m.forEach.length ≤ peak) :
    ∀ done, done <+: ops → ∃ m results,
      Machine.run (step hash default) start done = some (m, results) ∧
      m.capacity ≤ max start.capacity (5 * (peak + 1)) := by
  intro done early
  obtain ⟨m, results, runs, -⟩ := (create_valid hash creates).run default done
  refine ⟨m, results, runs, ?_⟩
  induction done using List.reverseRecOn generalizing m results with
  | nil =>
    cases runs
    exact le_max_left _ _
  | append_singleton done op ih =>
    obtain ⟨mid, before, answers, runs', last, rfl⟩ := Machine.run_append_eq.mp runs
    have earlier : done <+: ops := (List.prefix_append done [op]).trans early
    have bound := ih earlier mid before runs'
    have size : mid.size ≤ peak := by
      have valid : Valid hash mid := Reachable.valid ⟨_, start, done, before, creates, runs'⟩
      rw [valid.sized]
      exact live done mid before earlier runs'
    obtain ⟨next, result, rest, steps, none, rfl⟩ := Machine.run_cons_eq.mp last
    cases none
    have grows := step_bounded steps
    simp only [Bounded, capacity] at grows bound ⊢
    omega

/-- Twelve keys that come and go, one after the other. -/
def passing : List (Op Nat Nat) := (List.range 12).flatMap fun key => [.insert key 0, .erase key]

/-- The slots they leave behind make the table rebuild itself once, at the same capacity. -/
theorem capacity_le_of_live_passing :
    ∃ m results, Machine.run (step id 0) (fresh 16 : HashMap Nat Nat) passing = some (m, results) ∧
      m.used = 1 ∧ m.capacity ≤ max 16 (5 * (1 + 1)) := by
  have live : ∀ done m results, done <+: passing →
      Machine.run (step id 0) (fresh 16 : HashMap Nat Nat) done = some (m, results) →
      m.forEach.length ≤ 1 := by
    have each : (passing.inits.all fun done =>
        (Machine.run (step id 0) (fresh 16 : HashMap Nat Nat) done).all fun ended =>
          decide (ended.1.forEach.length ≤ 1)) = true := by
      decide +kernel
    intro done m results early runs
    have here := List.all_eq_true.mp each done ((List.mem_inits _ _).mpr early)
    rw [runs] at here
    exact of_decide_eq_true here
  have creates : create 16 = some (fresh 16 : HashMap Nat Nat) := rfl
  obtain ⟨m, results, runs, bound⟩ := capacity_le_of_live 0 creates live passing List.prefix_rfl
  refine ⟨m, results, runs, ?_, bound⟩
  have used : (Machine.run (step id 0) (fresh 16 : HashMap Nat Nat) passing).map (·.1.used) =
      some 1 := by
    decide +kernel
  rw [runs] at used
  exact Option.some.inj used

end CppDB.HashMap
