import CppDB.Lib.Census
import CppDB.Lib.CondVar
import CppDB.Lib.Machine

/-! The lock of `concurrency/RWLock.hpp`, as the sections its threads run while they hold
`mutex_`. A condition variable is the set of the threads blocked on it; `wait` gives the
mutex up and blocks in one step, so a thread that finds its predicate false ends its
section in that set, and one that left the set re-checks in a section of its own. -/
namespace CppDB
open Census (Counts)

/-- Where a thread is with respect to the lock. -/
inductive RWLock.Place where
  | outside
  | inReadLock
  | reading
  | inWriteLock
  | writing
  deriving Repr, DecidableEq

namespace RWLock.Place

@[simp] def isReading : Place → Bool
  | reading => true
  | _ => false

@[simp] def isRegistered : Place → Bool
  | inWriteLock => true
  | _ => false

@[simp] def isWriting : Place → Bool
  | writing => true
  | _ => false

theorem isReading_iff {place : Place} : place.isReading = true ↔ place = reading := by
  cases place <;> simp

theorem isRegistered_iff {place : Place} : place.isRegistered = true ↔ place = inWriteLock := by
  cases place <;> simp

theorem isWriting_iff {place : Place} : place.isWriting = true ↔ place = writing := by
  cases place <;> simp

end RWLock.Place

/-- The lock and the places of the threads that use it. -/
structure RWLock (T : Type) where
  activeReaders : Int
  waitingWriters : Int
  writerActive : Bool
  readersCv : Finset T
  writersCv : Finset T
  place : T → RWLock.Place

namespace RWLock

variable {T : Type}

def fresh : RWLock T := ⟨0, 0, false, ∅, ∅, fun _ => .outside⟩

variable [DecidableEq T]

def moveTo (s : RWLock T) (t : T) (place : Place) : RWLock T :=
  { s with place := Function.update s.place t place }

@[simp] theorem moveTo_activeReaders (s : RWLock T) (t : T) (place : Place) :
    (s.moveTo t place).activeReaders = s.activeReaders := rfl

@[simp] theorem moveTo_waitingWriters (s : RWLock T) (t : T) (place : Place) :
    (s.moveTo t place).waitingWriters = s.waitingWriters := rfl

@[simp] theorem moveTo_writerActive (s : RWLock T) (t : T) (place : Place) :
    (s.moveTo t place).writerActive = s.writerActive := rfl

def notifyWriter (s : RWLock T) (woken : Option T) : Option (RWLock T) :=
  (CondVar.notifyOne s.writersCv woken).map fun writersCv => { s with writersCv }

/-- The predicate of `readersCv_`, then either the rest of `readLock` or `wait`. -/
def tryRead (s : RWLock T) (t : T) : RWLock T :=
  if !s.writerActive && s.waitingWriters == 0 then
    { s.moveTo t .reading with activeReaders := s.activeReaders + 1 }
  else { s.moveTo t .inReadLock with readersCv := insert t s.readersCv }

/-- The predicate of `writersCv_`, then either the rest of `writeLock` or `wait`. -/
def tryWrite (s : RWLock T) (t : T) : RWLock T :=
  if !s.writerActive && s.activeReaders == 0 then
    { s.moveTo t .writing with waitingWriters := s.waitingWriters - 1, writerActive := true }
  else { s.moveTo t .inWriteLock with writersCv := insert t s.writersCv }

/-- `++waitingWriters_`. -/
def register (s : RWLock T) (t : T) : RWLock T :=
  { s.moveTo t .inWriteLock with waitingWriters := s.waitingWriters + 1 }

def leaveRead (s : RWLock T) (t : T) : RWLock T :=
  { s.moveTo t .outside with activeReaders := s.activeReaders - 1 }

def leaveWrite (s : RWLock T) (t : T) : RWLock T :=
  { s.moveTo t .outside with writerActive := false }

/-- A section. Where one calls `notify_one`, the action names the waiter that it wakes. -/
inductive Action (T : Type) where
  | readLock (t : T)
  | readUnlock (t : T) (woken : Option T)
  | writeLock (t : T)
  | writeUnlock (t : T) (woken : Option T)
  | recheck (t : T)
  | wakeSpuriously (t : T)

/-- The thread that runs a section, or that is woken. -/
def Action.thread : Action T → T
  | readLock t | readUnlock t _ | writeLock t | writeUnlock t _ | recheck t | wakeSpuriously t => t

/-- Take a section, if its thread is at the place for it. -/
def step (s : RWLock T) : Action T → Option (RWLock T)
  | .readLock t => if s.place t = .outside then some (s.tryRead t) else none
  | .readUnlock t woken =>
    if s.place t = .reading then
      if (s.leaveRead t).activeReaders = 0 then (s.leaveRead t).notifyWriter woken
      else some (s.leaveRead t)
    else none
  | .writeLock t => if s.place t = .outside then some ((s.register t).tryWrite t) else none
  | .writeUnlock t woken =>
    if s.place t = .writing then
      if (s.leaveWrite t).waitingWriters > 0 then (s.leaveWrite t).notifyWriter woken
      else some { s.leaveWrite t with readersCv := ∅ }
    else none
  | .recheck t =>
    match s.place t with
    | .inReadLock => if t ∈ s.readersCv then none else some (s.tryRead t)
    | .inWriteLock => if t ∈ s.writersCv then none else some (s.tryWrite t)
    | _ => none
  | .wakeSpuriously t =>
    some { s with readersCv := s.readersCv.erase t, writersCv := s.writersCv.erase t }

def Steps (s s' : RWLock T) : Prop := ∃ a, s.step a = some s'

/-- What any interleaving of sections reaches from the fresh lock. -/
def Reachable (s : RWLock T) : Prop := Relation.ReflTransGen Steps fresh s

/-! ### What a section does to the fields -/

/-- The fields apart from the condition variables agree. -/
structure Same (s s' : RWLock T) : Prop where
  activeReaders : s'.activeReaders = s.activeReaders
  waitingWriters : s'.waitingWriters = s.waitingWriters
  writerActive : s'.writerActive = s.writerActive
  place : s'.place = s.place

/-- The ways a section of a thread can change what is not a condition variable. -/
inductive Takes (t : T) (s s' : RWLock T) : Prop where
  | idle (same : Same s s')
  | queueRead (comes : s.place t = .outside ∨ s.place t = .inReadLock)
      (same : Same (s.moveTo t .inReadLock) s')
  | acquireRead (comes : s.place t = .outside ∨ s.place t = .inReadLock)
      (inactive : s.writerActive = false) (unwanted : s.waitingWriters = 0)
      (same : Same { s.moveTo t .reading with activeReaders := s.activeReaders + 1 } s')
  | leaveRead (comes : s.place t = .reading) (same : Same (s.leaveRead t) s')
  | queueWrite (comes : s.place t = .outside) (same : Same (s.register t) s')
  | overtake (comes : s.place t = .outside) (inactive : s.writerActive = false)
      (unread : s.activeReaders = 0)
      (same : Same { s.moveTo t .writing with writerActive := true } s')
  | acquireWrite (comes : s.place t = .inWriteLock) (inactive : s.writerActive = false)
      (unread : s.activeReaders = 0)
      (same : Same { s.moveTo t .writing with
        waitingWriters := s.waitingWriters - 1
        writerActive := true } s')
  | leaveWrite (comes : s.place t = .writing) (same : Same (s.leaveWrite t) s')

variable {s s' : RWLock T} {t : T}

theorem tryRead_takes (comes : s.place t = .outside ∨ s.place t = .inReadLock) :
    Takes t s (s.tryRead t) := by
  rw [tryRead]
  split
  case isTrue ready =>
    simp only [Bool.and_eq_true, Bool.not_eq_true', beq_iff_eq] at ready
    exact .acquireRead comes ready.1 ready.2 ⟨rfl, rfl, rfl, rfl⟩
  case isFalse => exact .queueRead comes ⟨rfl, rfl, rfl, rfl⟩

theorem writeLock_takes (comes : s.place t = .outside) :
    Takes t s ((s.register t).tryWrite t) := by
  rw [tryWrite]
  split
  case isTrue ready =>
    simp only [Bool.and_eq_true, Bool.not_eq_true', beq_iff_eq] at ready
    apply Takes.overtake comes ready.1 ready.2
    constructor
    · rfl
    · exact Int.add_sub_cancel _ _
    · rfl
    · simp [register, moveTo]
  case isFalse =>
    apply Takes.queueWrite comes
    constructor
    · rfl
    · rfl
    · rfl
    · simp [register, moveTo]

theorem tryWrite_takes (comes : s.place t = .inWriteLock) : Takes t s (s.tryWrite t) := by
  rw [tryWrite]
  split
  case isTrue ready =>
    simp only [Bool.and_eq_true, Bool.not_eq_true', beq_iff_eq] at ready
    exact .acquireWrite comes ready.1 ready.2 ⟨rfl, rfl, rfl, rfl⟩
  case isFalse =>
    apply Takes.idle
    constructor
    · rfl
    · rfl
    · rfl
    · rw [moveTo, ← comes, Function.update_eq_self]

theorem step_takes {a : Action T} (steps : s.step a = some s') : Takes a.thread s s' := by
  cases a with
  | readLock t =>
    rw [step, Option.ite_none_right_eq_some] at steps
    obtain ⟨comes, steps⟩ := steps
    cases steps
    exact tryRead_takes (.inl comes)
  | readUnlock t woken =>
    rw [step, Option.ite_none_right_eq_some] at steps
    obtain ⟨comes, steps⟩ := steps
    apply Takes.leaveRead comes
    split at steps
    · obtain ⟨cv, -, rfl⟩ := Option.map_eq_some_iff.mp steps
      exact ⟨rfl, rfl, rfl, rfl⟩
    · cases steps
      exact ⟨rfl, rfl, rfl, rfl⟩
  | writeLock t =>
    rw [step, Option.ite_none_right_eq_some] at steps
    obtain ⟨comes, steps⟩ := steps
    cases steps
    exact writeLock_takes comes
  | writeUnlock t woken =>
    rw [step, Option.ite_none_right_eq_some] at steps
    obtain ⟨comes, steps⟩ := steps
    apply Takes.leaveWrite comes
    split at steps
    · obtain ⟨cv, -, rfl⟩ := Option.map_eq_some_iff.mp steps
      exact ⟨rfl, rfl, rfl, rfl⟩
    · cases steps
      exact ⟨rfl, rfl, rfl, rfl⟩
  | recheck t =>
    rw [step] at steps
    split at steps
    case h_1 comes =>
      rw [Option.ite_none_left_eq_some] at steps
      obtain ⟨-, steps⟩ := steps
      cases steps
      exact tryRead_takes (.inr comes)
    case h_2 comes =>
      rw [Option.ite_none_left_eq_some] at steps
      obtain ⟨-, steps⟩ := steps
      cases steps
      exact tryWrite_takes comes
    case h_3 => cases steps
  | wakeSpuriously t =>
    cases steps
    exact .idle ⟨rfl, rfl, rfl, rfl⟩

/-- A section moves no other thread. -/
theorem Takes.place_of_ne {u : T} (takes : Takes t s s') (other : u ≠ t) :
    s'.place u = s.place u := by
  cases takes with
  | idle same => rw [same.place]
  | queueRead _ same | acquireRead _ _ _ same | leaveRead _ same | queueWrite _ same
  | overtake _ _ _ same | acquireWrite _ _ _ same | leaveWrite _ same =>
    rw [same.place]
    exact Function.update_of_ne other _ _

theorem place_of_recheck (steps : s.step (.recheck t) = some s') :
    s.place t = .inReadLock ∨ s.place t = .inWriteLock := by
  rw [step] at steps
  split at steps
  case h_1 comes => exact .inl comes
  case h_2 comes => exact .inr comes
  case h_3 => cases steps

/-! ### Exclusion -/

/-- The counters count, and a writer is alone. -/
structure Sound (s : RWLock T) : Prop where
  readers : Counts s.place Place.isReading s.activeReaders
  waiting : Counts s.place Place.isRegistered s.waitingWriters
  writers : Counts s.place Place.isWriting s.writerActive.toInt
  alone : s.writerActive = true → s.activeReaders = 0

namespace Sound

omit [DecidableEq T] in
theorem fresh : (fresh : RWLock T).Sound := by
  constructor
  · exact Counts.nobody fun _ => rfl
  · exact Counts.nobody fun _ => rfl
  · exact Counts.nobody fun _ => rfl
  · intro active
    cases active

omit [DecidableEq T] in
theorem same (sound : s.Sound) (same : Same s s') : s'.Sound := by
  constructor
  · rw [same.place, same.activeReaders]
    exact sound.readers
  · rw [same.place, same.waitingWriters]
    exact sound.waiting
  · rw [same.place, same.writerActive]
    exact sound.writers
  · rw [same.writerActive, same.activeReaders]
    exact sound.alone

/-- A thread moves and the counters follow. -/
theorem moved (sound : s.Sound) {place place' : Place} (comes : s.place t = place)
    {readers waiting : Int} {active : Bool}
    (counted : readers = s.activeReaders - place.isReading.toInt + place'.isReading.toInt)
    (registered : waiting =
      s.waitingWriters - place.isRegistered.toInt + place'.isRegistered.toInt)
    (marked : active.toInt =
      s.writerActive.toInt - place.isWriting.toInt + place'.isWriting.toInt)
    (alone : active = true → readers = 0) :
    Sound { s.moveTo t place' with
      activeReaders := readers, waitingWriters := waiting, writerActive := active } := by
  subst comes
  constructor
  · rw [counted]
    exact sound.readers.move t place'
  · rw [registered]
    exact sound.waiting.move t place'
  · rw [marked]
    exact sound.writers.move t place'
  · exact alone

omit [DecidableEq T] in
theorem active_of_writing (sound : s.Sound) (writing : s.place t = .writing) :
    s.writerActive = true := by
  cases active : s.writerActive with
  | true => rfl
  | false =>
    have absent := sound.writers.absent (by rw [active]; rfl) t
    rw [writing] at absent
    cases absent

omit [DecidableEq T] in
theorem inactive_of_reading (sound : s.Sound) (reading : s.place t = .reading) :
    s.writerActive = false := by
  cases active : s.writerActive with
  | false => rfl
  | true =>
    have absent := sound.readers.absent (sound.alone active) t
    rw [reading] at absent
    cases absent

theorem next (sound : s.Sound) (takes : Takes t s s') : s'.Sound := by
  cases takes with
  | idle same => exact sound.same same
  | queueRead comes same =>
    refine Sound.same ?_ same
    rcases comes with comes | comes
    · exact sound.moved comes (by simp) (by simp) (by simp) sound.alone
    · exact sound.moved comes (by simp) (by simp) (by simp) sound.alone
  | acquireRead comes inactive unwanted same =>
    refine Sound.same ?_ same
    have unmarked : s.writerActive = true → s.activeReaders + 1 = 0 := by simp [inactive]
    rcases comes with comes | comes
    · exact sound.moved comes (by simp) (by simp) (by simp) unmarked
    · exact sound.moved comes (by simp) (by simp) (by simp) unmarked
  | leaveRead comes same =>
    refine Sound.same ?_ same
    have inactive := sound.inactive_of_reading comes
    exact sound.moved comes (by simp) (by simp) (by simp) (by simp [inactive])
  | queueWrite comes same =>
    refine Sound.same ?_ same
    exact sound.moved comes (by simp) (by simp) (by simp) sound.alone
  | overtake comes inactive unread same =>
    refine Sound.same ?_ same
    exact sound.moved comes (by simp) (by simp) (by simp [inactive]) fun _ => unread
  | acquireWrite comes inactive unread same =>
    refine Sound.same ?_ same
    exact sound.moved comes (by simp) (by simp) (by simp [inactive]) fun _ => unread
  | leaveWrite comes same =>
    refine Sound.same ?_ same
    have active := sound.active_of_writing comes
    exact sound.moved comes (by simp) (by simp) (by simp [active]) nofun

omit [DecidableEq T] in
theorem reading_excludes_writing (sound : s.Sound) {u : T} (reading : s.place t = .reading) :
    s.place u ≠ .writing := by
  intro writing
  cases (sound.inactive_of_reading reading).symm.trans (sound.active_of_writing writing)

omit [DecidableEq T] in
theorem writing_unique (sound : s.Sound) {u : T} (writing : s.place t = .writing)
    (writing' : s.place u = .writing) : t = u := by
  have active := sound.active_of_writing writing
  exact sound.writers.eq_of_one (by rw [active]; rfl) (by rw [writing]; rfl)
    (by rw [writing']; rfl)

omit [DecidableEq T] in
theorem writerActive_iff (sound : s.Sound) :
    s.writerActive = true ↔ ∃! t, s.place t = .writing := by
  constructor
  · intro active
    obtain ⟨t, writing⟩ := sound.writers.exists_of_pos (by rw [active]; decide)
    rw [Place.isWriting_iff] at writing
    exact ⟨t, writing, fun u writing' => sound.writing_unique writing' writing⟩
  · rintro ⟨t, writing, -⟩
    exact sound.active_of_writing writing

omit [DecidableEq T] in
theorem unwanted (sound : s.Sound) (none : s.waitingWriters = 0) (u : T) :
    s.place u ≠ .inWriteLock := by
  intro waits
  have absent := sound.waiting.absent none u
  rw [waits] at absent
  cases absent

end Sound

theorem sound_of_reachable (reachable : s.Reachable) : s.Sound := by
  induction reachable with
  | refl => exact .fresh
  | tail _ steps ih =>
    obtain ⟨a, steps⟩ := steps
    exact ih.next (step_takes steps)

/-- A section in which a thread comes to read is one before which no writer waits. -/
theorem unwanted_of_reads {r : T} (sound : s.Sound) (takes : Takes r s s')
    (before : s.place t ≠ .reading) (after : s'.place t = .reading) (u : T) :
    s.place u ≠ .inWriteLock := by
  by_cases is : t = r
  · subst is
    cases takes with
    | acquireRead _ _ unwanted _ => exact sound.unwanted unwanted u
    | idle same =>
      rw [same.place] at after
      exact absurd after before
    | queueRead _ same | leaveRead _ same | queueWrite _ same | overtake _ _ _ same
    | acquireWrite _ _ _ same | leaveWrite _ same =>
      rw [same.place] at after
      simp [moveTo, register, RWLock.leaveRead, RWLock.leaveWrite] at after
  · rw [takes.place_of_ne is] at after
    exact absurd after before

/-- In every reachable state the counters count the readers and the registered writers, the
flag says whether there is the one writer, nobody holds the lock beside a writer, and no
section lets a thread read while a writer waits. -/
theorem rwlock_excludes (reachable : s.Reachable) :
    {t | s.place t = .reading}.Finite ∧
    s.activeReaders = ({t | s.place t = .reading}.ncard : Int) ∧
    {t | s.place t = .inWriteLock}.Finite ∧
    s.waitingWriters = ({t | s.place t = .inWriteLock}.ncard : Int) ∧
    (s.writerActive = true ↔ ∃! t, s.place t = .writing) ∧
    (∀ t u, s.place t = .reading → s.place u ≠ .writing) ∧
    (∀ t u, s.place t = .writing → s.place u = .writing → t = u) ∧
    ∀ a s' t, s.step a = some s' → s.place t ≠ .reading → s'.place t = .reading →
      ∀ u, s.place u ≠ .inWriteLock := by
  have sound := sound_of_reachable reachable
  have readers := sound.readers
  have waiting := sound.waiting
  constructor
  · simpa only [Place.isReading_iff] using readers.finite
  constructor
  · simpa only [Place.isReading_iff] using readers.card.symm
  constructor
  · simpa only [Place.isRegistered_iff] using waiting.finite
  constructor
  · simpa only [Place.isRegistered_iff] using waiting.card.symm
  constructor
  · exact sound.writerActive_iff
  constructor
  · intro t u reading
    exact sound.reading_excludes_writing reading
  constructor
  · intro t u writing writing'
    exact sound.writing_unique writing writing'
  · intro a s' t steps before after
    exact unwanted_of_reads sound (step_takes steps) before after

/-- Two threads read, a third waits to write, and a fourth queues behind it. -/
theorem rwlock_excludes_queued :
    ∃ s : RWLock Nat, s.Reachable ∧ s.place 3 = .inReadLock ∧ 3 ∈ s.readersCv ∧
      {t | s.place t = .reading}.ncard = 2 ∧ {t | s.place t = .inWriteLock}.ncard = 1 ∧
      ∀ t, s.place t ≠ .writing := by
  have reachable : Reachable
      ((((((fresh : RWLock Nat).tryRead 0).tryRead 1).register 2).tryWrite 2).tryRead 3) :=
    Machine.reaches_of_foldlM
      (rfl : [.readLock 0, .readLock 1, .writeLock 2, .readLock 3].foldlM step fresh = _)
  obtain ⟨-, readers, -, waiting, -, apart, -, -⟩ := rwlock_excludes reachable
  constructor
  constructor
  · exact reachable
  constructor
  · rfl
  constructor
  · decide
  constructor
  · exact (Int.ofNat.inj readers).symm
  constructor
  · exact (Int.ofNat.inj waiting).symm
  · exact fun t => apart 0 t rfl

end RWLock
end CppDB
