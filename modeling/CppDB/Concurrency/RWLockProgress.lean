import CppDB.Concurrency.RWLock

/-! No wake-up of the lock is lost. A reader sleeps only while a writer holds or wants the
lock, and as soon as the lock is free one of the writers that slept is on its way to
re-check. -/
namespace CppDB.RWLock

variable {T : Type}

/-- Asleep in `wait`, with no notification on its way. -/
def Blocked (s : RWLock T) (t : T) : Prop := t ∈ s.readersCv ∨ t ∈ s.writersCv

/-- Between the sections of `readLock` or `writeLock`, woken and about to re-check. -/
def Awake (s : RWLock T) (t : T) : Prop :=
  s.place t = .inReadLock ∧ t ∉ s.readersCv ∨ s.place t = .inWriteLock ∧ t ∉ s.writersCv

def Holds (s : RWLock T) (t : T) : Prop := s.place t = .reading ∨ s.place t = .writing

variable [DecidableEq T]

/-- Nobody sleeps through what it waits for. -/
structure Prompt (s : RWLock T) : Prop where
  readers : ∀ t ∈ s.readersCv, s.place t = .inReadLock
  writers : ∀ t ∈ s.writersCv, s.place t = .inWriteLock
  held_back : s.readersCv ≠ ∅ → s.writerActive = true ∨ 0 < s.waitingWriters
  /-- With the lock free, the writers asleep have one of their own awake. -/
  handed_on : s.writersCv ≠ ∅ → s.writerActive = false → s.activeReaders = 0 →
    ∃ u, s.place u = .inWriteLock ∧ u ∉ s.writersCv

variable {s s' : RWLock T} {t : T}

namespace Sound

omit [DecidableEq T] in
theorem waiting_nonneg (sound : s.Sound) : 0 ≤ s.waitingWriters := by
  rw [← sound.waiting.card]
  exact Int.natCast_nonneg _

omit [DecidableEq T] in
theorem unread (sound : s.Sound) (nobody : ∀ t, s.place t ≠ .reading) : s.activeReaders = 0 := by
  have empty : {t | (s.place t).isReading = true} = ∅ := by
    simp only [Place.isReading_iff, nobody, Set.ofPred_false]
  rw [← sound.readers.card, empty, Set.ncard_empty, Nat.cast_zero]

omit [DecidableEq T] in
theorem inactive (sound : s.Sound) (nobody : ∀ t, s.place t ≠ .writing) :
    s.writerActive = false := by
  rw [Bool.eq_false_iff]
  intro active
  obtain ⟨t, writing, -⟩ := sound.writerActive_iff.mp active
  exact nobody t writing

omit [DecidableEq T] in
theorem free (sound : s.Sound) (unread : s.activeReaders = 0) (inactive : s.writerActive = false)
    (t : T) : ¬ s.Holds t := by
  rintro (reading | writing)
  · have absent := sound.readers.absent unread t
    rw [reading] at absent
    cases absent
  · cases inactive.symm.trans (sound.active_of_writing writing)

omit [DecidableEq T] in
theorem exists_waiting (sound : s.Sound) (wanted : 0 < s.waitingWriters) :
    ∃ u, s.place u = .inWriteLock := by
  obtain ⟨u, registered⟩ := sound.waiting.exists_of_pos wanted
  exact ⟨u, Place.isRegistered_iff.mp registered⟩

end Sound

namespace Prompt

omit [DecidableEq T] in
theorem fresh : (fresh : RWLock T).Prompt := by
  constructor
  · intro t waits
    cases waits
  · intro t waits
    cases waits
  · intro some
    exact absurd rfl some
  · intro some
    exact absurd rfl some

omit [DecidableEq T] in
theorem outside_readers (prompt : s.Prompt) (elsewhere : s.place t ≠ .inReadLock) :
    t ∉ s.readersCv := fun waits => elsewhere (prompt.readers t waits)

omit [DecidableEq T] in
theorem outside_writers (prompt : s.Prompt) (elsewhere : s.place t ≠ .inWriteLock) :
    t ∉ s.writersCv := fun waits => elsewhere (prompt.writers t waits)

omit [DecidableEq T] in
/-- Without a registered writer none sleeps. -/
theorem writers_empty (prompt : s.Prompt) (sound : s.Sound) (unwanted : s.waitingWriters = 0) :
    s.writersCv = ∅ := by
  rw [Finset.eq_empty_iff_forall_notMem]
  exact fun u => prompt.outside_writers (sound.unwanted unwanted u)

/-- The two conditions about places survive a move of a thread that is not asleep. -/
theorem readers_moved (prompt : s.Prompt) (awake : t ∉ s.readersCv) (place : Place) :
    ∀ u ∈ s.readersCv, (s.moveTo t place).place u = .inReadLock := by
  intro u waits
  have other : u ≠ t := fun is => awake (is ▸ waits)
  exact (Function.update_of_ne other _ _).trans (prompt.readers u waits)

theorem writers_moved (prompt : s.Prompt) (awake : t ∉ s.writersCv) (place : Place) :
    ∀ u ∈ s.writersCv, (s.moveTo t place).place u = .inWriteLock := by
  intro u waits
  have other : u ≠ t := fun is => awake (is ▸ waits)
  exact (Function.update_of_ne other _ _).trans (prompt.writers u waits)

theorem tryRead (prompt : s.Prompt) (sound : s.Sound) (awake : t ∉ s.readersCv)
    (comes : s.place t ≠ .inWriteLock) : (s.tryRead t).Prompt := by
  have elsewhere := prompt.outside_writers comes
  rw [RWLock.tryRead]
  split
  case isTrue ready =>
    simp only [Bool.and_eq_true, Bool.not_eq_true', beq_iff_eq] at ready
    constructor
    · exact prompt.readers_moved awake .reading
    · exact prompt.writers_moved elsewhere .reading
    · exact prompt.held_back
    · intro some
      exact absurd (prompt.writers_empty sound ready.2) some
  case isFalse unready =>
    simp only [Bool.and_eq_true, Bool.not_eq_true', beq_iff_eq, not_and] at unready
    constructor
    · intro u waits
      rcases Finset.mem_insert.mp waits with rfl | waits
      · exact Function.update_self _ _ _
      · exact prompt.readers_moved awake .inReadLock u waits
    · exact prompt.writers_moved elsewhere .inReadLock
    · intro _
      have wanted := sound.waiting_nonneg
      cases active : s.writerActive with
      | true => exact .inl active
      | false =>
        right
        have registered := unready active
        change 0 < s.waitingWriters
        omega
    · intro some inactive unread
      obtain ⟨u, registered, up⟩ := prompt.handed_on some inactive unread
      have other : u ≠ t := by
        rintro rfl
        exact comes registered
      exact ⟨u, (Function.update_of_ne other _ _).trans registered, up⟩

/-- A registered writer that is not asleep takes the lock or goes to sleep; it sleeps only
if somebody holds the lock, who will notify. -/
theorem tryWrite (prompt : s.Prompt) (registered : s.place t = .inWriteLock)
    (awake : t ∉ s.writersCv) : (s.tryWrite t).Prompt := by
  have elsewhere : t ∉ s.readersCv := prompt.outside_readers (by simp [registered])
  rw [RWLock.tryWrite]
  split
  case isTrue ready =>
    constructor
    · exact prompt.readers_moved elsewhere .writing
    · exact prompt.writers_moved awake .writing
    · exact fun _ => .inl rfl
    · intro _ inactive
      cases inactive
  case isFalse unready =>
    constructor
    · exact prompt.readers_moved elsewhere .inWriteLock
    · intro u waits
      rcases Finset.mem_insert.mp waits with rfl | waits
      · exact Function.update_self _ _ _
      · exact prompt.writers_moved awake .inWriteLock u waits
    · exact prompt.held_back
    · intro _ inactive unread
      have free : s.writerActive = false ∧ s.activeReaders = 0 := ⟨inactive, unread⟩
      simp [free] at unready

theorem register (prompt : s.Prompt) (sound : s.Sound) (comes : s.place t = .outside) :
    (s.register t).Prompt := by
  have nonneg := sound.waiting_nonneg
  have asleep : t ∉ s.writersCv := prompt.outside_writers (by simp [comes])
  constructor
  · exact prompt.readers_moved (prompt.outside_readers (by simp [comes])) .inWriteLock
  · exact prompt.writers_moved asleep .inWriteLock
  · intro _
    right
    change 0 < s.waitingWriters + 1
    omega
  · intro _ _ _
    exact ⟨t, Function.update_self _ _ _, asleep⟩

/-- After `notify_one` on the writers' variable somebody is awake, if anybody slept there. -/
theorem notifyWriter {woken : Option T} (readers : ∀ t ∈ s.readersCv, s.place t = .inReadLock)
    (writers : ∀ t ∈ s.writersCv, s.place t = .inWriteLock)
    (held_back : s.readersCv ≠ ∅ → s.writerActive = true ∨ 0 < s.waitingWriters)
    (notifies : s.notifyWriter woken = some s') : s'.Prompt := by
  obtain ⟨cv, wakes, rfl⟩ := Option.map_eq_some_iff.mp notifies
  rcases CondVar.notifyOne_cases wakes with ⟨rfl, -⟩ | ⟨t, waits, rfl⟩
  · constructor
    · exact readers
    · intro u waits
      cases waits
    · exact held_back
    · intro some
      exact absurd rfl some
  · constructor
    · exact readers
    · exact fun u there => writers u (Finset.mem_of_mem_erase there)
    · exact held_back
    · intro _ _ _
      exact ⟨t, writers t waits, Finset.notMem_erase t _⟩

theorem wakeSpuriously (prompt : s.Prompt) :
    Prompt { s with readersCv := s.readersCv.erase t, writersCv := s.writersCv.erase t } := by
  have nonempty : ∀ {cv : Finset T}, cv.erase t ≠ ∅ → cv ≠ ∅ := by
    rintro cv some rfl
    exact some (Finset.erase_empty t)
  constructor
  · exact fun u waits => prompt.readers u (Finset.mem_of_mem_erase waits)
  · exact fun u waits => prompt.writers u (Finset.mem_of_mem_erase waits)
  · exact fun some => prompt.held_back (nonempty some)
  · intro some inactive unread
    obtain ⟨u, registered, up⟩ := prompt.handed_on (nonempty some) inactive unread
    exact ⟨u, registered, fun waits => up (Finset.mem_of_mem_erase waits)⟩

theorem readUnlock {woken : Option T} (prompt : s.Prompt) (comes : s.place t = .reading)
    (steps : (if (s.leaveRead t).activeReaders = 0 then (s.leaveRead t).notifyWriter woken
      else some (s.leaveRead t)) = some s') : s'.Prompt := by
  have readers := prompt.readers_moved (prompt.outside_readers (t := t) (by simp [comes])) .outside
  have writers := prompt.writers_moved (prompt.outside_writers (t := t) (by simp [comes])) .outside
  split at steps
  case isTrue => exact notifyWriter (s := s.leaveRead t) readers writers prompt.held_back steps
  case isFalse read =>
    cases steps
    constructor
    · exact readers
    · exact writers
    · exact prompt.held_back
    · intro _ _ unread
      exact absurd unread read

theorem writeUnlock {woken : Option T} (prompt : s.Prompt) (sound : s.Sound)
    (comes : s.place t = .writing)
    (steps : (if (s.leaveWrite t).waitingWriters > 0 then (s.leaveWrite t).notifyWriter woken
      else some { s.leaveWrite t with readersCv := ∅ }) = some s') : s'.Prompt := by
  have readers := prompt.readers_moved (prompt.outside_readers (t := t) (by simp [comes])) .outside
  have writers := prompt.writers_moved (prompt.outside_writers (t := t) (by simp [comes])) .outside
  split at steps
  case isTrue wanted =>
    exact notifyWriter (s := s.leaveWrite t) readers writers (fun _ => .inr wanted) steps
  case isFalse unwanted =>
    cases steps
    have nonneg := sound.waiting_nonneg
    have none : s.waitingWriters = 0 := by
      change ¬ s.waitingWriters > 0 at unwanted
      omega
    constructor
    · intro u waits
      cases waits
    · exact writers
    · intro some
      exact absurd rfl some
    · intro some
      exact absurd (prompt.writers_empty sound none) some

theorem next {a : Action T} (prompt : s.Prompt) (sound : s.Sound) (steps : s.step a = some s') :
    s'.Prompt := by
  cases a with
  | readLock t =>
    rw [step, Option.ite_none_right_eq_some] at steps
    obtain ⟨comes, steps⟩ := steps
    cases steps
    exact prompt.tryRead sound (prompt.outside_readers (by simp [comes])) (by simp [comes])
  | readUnlock t woken =>
    rw [step, Option.ite_none_right_eq_some] at steps
    obtain ⟨comes, steps⟩ := steps
    exact prompt.readUnlock comes steps
  | writeLock t =>
    rw [step, Option.ite_none_right_eq_some] at steps
    obtain ⟨comes, steps⟩ := steps
    cases steps
    apply (prompt.register sound comes).tryWrite
    · exact Function.update_self _ _ _
    · exact prompt.outside_writers (by simp [comes])
  | writeUnlock t woken =>
    rw [step, Option.ite_none_right_eq_some] at steps
    obtain ⟨comes, steps⟩ := steps
    exact prompt.writeUnlock sound comes steps
  | recheck t =>
    rw [step] at steps
    split at steps
    case h_1 comes =>
      rw [Option.ite_none_left_eq_some] at steps
      obtain ⟨awake, steps⟩ := steps
      cases steps
      exact prompt.tryRead sound awake (by simp [comes])
    case h_2 comes =>
      rw [Option.ite_none_left_eq_some] at steps
      obtain ⟨awake, steps⟩ := steps
      cases steps
      exact prompt.tryWrite comes awake
    case h_3 => cases steps
  | wakeSpuriously t =>
    cases steps
    exact prompt.wakeSpuriously

omit [DecidableEq T] in
theorem exists_writer (prompt : s.Prompt) (sound : s.Sound) (waits : t ∈ s.readersCv) :
    ∃ u, s.place u = .writing ∨ s.place u = .inWriteLock := by
  rcases prompt.held_back (Finset.ne_empty_of_mem waits) with active | wanted
  · obtain ⟨u, writing, -⟩ := sound.writerActive_iff.mp active
    exact ⟨u, .inl writing⟩
  · obtain ⟨u, registered⟩ := sound.exists_waiting wanted
    exact ⟨u, .inr registered⟩

omit [DecidableEq T] in
theorem exists_awake (prompt : s.Prompt) (sound : s.Sound) (waits : t ∈ s.writersCv)
    (free : ∀ u, ¬ s.Holds u) : ∃ u, s.place u = .inWriteLock ∧ u ∉ s.writersCv := by
  apply prompt.handed_on (Finset.ne_empty_of_mem waits)
  · exact sound.inactive fun u writing => free u (.inr writing)
  · exact sound.unread fun u reading => free u (.inl reading)

end Prompt

theorem prompt_of_reachable (reachable : s.Reachable) : s.Prompt := by
  induction reachable with
  | refl => exact .fresh
  | tail before steps ih =>
    obtain ⟨a, steps⟩ := steps
    exact ih.next (sound_of_reachable before) steps

/-- In no reachable state does a thread sleep while nobody holds the lock and nobody inside
`readLock` or `writeLock` is awake. A sleeping reader has a writer to wait for, and when
writers sleep beside a free lock one of them was woken. -/
theorem rwlock_loses_no_wakeup (reachable : s.Reachable) :
    ¬ ((∃ t, s.Blocked t) ∧ (∀ t, ¬ s.Holds t) ∧ ∀ t, ¬ s.Awake t) ∧
    (∀ t ∈ s.readersCv, ∃ u, s.place u = .writing ∨ s.place u = .inWriteLock) ∧
    ∀ t ∈ s.writersCv, (∀ u, ¬ s.Holds u) →
      ∃ u, s.place u = .inWriteLock ∧ u ∉ s.writersCv := by
  have sound := sound_of_reachable reachable
  have prompt := prompt_of_reachable reachable
  constructor
  · rintro ⟨⟨t, blocked⟩, free, asleep⟩
    have asleepWriter : ∃ w, w ∈ s.writersCv := by
      rcases blocked with reader | writer
      · obtain ⟨u, writing | registered⟩ := prompt.exists_writer sound reader
        · exact absurd (.inr writing) (free u)
        · by_contra none
          exact asleep u (.inr ⟨registered, fun waits => none ⟨u, waits⟩⟩)
      · exact ⟨t, writer⟩
    obtain ⟨w, waits⟩ := asleepWriter
    obtain ⟨u, registered, up⟩ := prompt.exists_awake sound waits free
    exact asleep u (.inr ⟨registered, up⟩)
  constructor
  · exact fun t waits => prompt.exists_writer sound waits
  · exact fun t waits free => prompt.exists_awake sound waits free

/-- The last reader leaves while two writers and a reader sleep: one writer was woken. -/
theorem rwlock_loses_no_wakeup_handover :
    ∃ s : RWLock Nat, s.Reachable ∧ s.Blocked 2 ∧ s.Blocked 3 ∧ (∀ t, ¬ s.Holds t) ∧
      ∃ u, s.Awake u := by
  have reachable : Reachable { ((((((fresh : RWLock Nat).tryRead 0).register 1).tryWrite
      1).register 2).tryWrite 2).tryRead 3 |>.leaveRead 0 with writersCv := {2} } :=
    Machine.reaches_of_foldlM (rfl : [.readLock 0, .writeLock 1, .writeLock 2, .readLock 3,
      .readUnlock 0 (some 1)].foldlM step fresh = _)
  obtain ⟨-, -, wakes⟩ := rwlock_loses_no_wakeup reachable
  have free := (sound_of_reachable reachable).free rfl rfl
  obtain ⟨u, registered, up⟩ := wakes 2 (by decide) free
  exact ⟨_, reachable, .inr (by decide), .inl (by decide), free, u, .inr ⟨registered, up⟩⟩

end CppDB.RWLock
