import CppDB.Concurrency.RWLockProgress
import CppDB.Core.Table.Concurrency

/-! Calls on a shared table return. Without new calls, and without wake-ups that nobody
notified for, the sections the threads can still take are bounded in number, and as long as a
call is under way one of them can be taken. -/
namespace CppDB.RWLock

variable {T : Type} [DecidableEq T] {s s' : RWLock T} {t : T}

omit [DecidableEq T] in
/-- Beside a free lock not everybody who waits for it sleeps. -/
theorem Prompt.exists_awake_of_waiting (prompt : s.Prompt) (sound : s.Sound)
    (free : ∀ u, ¬ s.Holds u) (waits : s.place t = .inReadLock ∨ s.place t = .inWriteLock) :
    ∃ u, s.Awake u := by
  by_cases sleeps : ∃ w, w ∈ s.writersCv
  · obtain ⟨w, sleeps⟩ := sleeps
    obtain ⟨u, registered, up⟩ := prompt.exists_awake sound sleeps free
    exact ⟨u, .inr ⟨registered, up⟩⟩
  · have up (u : T) : u ∉ s.writersCv := fun there => sleeps ⟨u, there⟩
    obtain reads | writes := waits
    · by_cases asleep : t ∈ s.readersCv
      · obtain ⟨u, writing | registered⟩ := prompt.exists_writer sound asleep
        · exact absurd (.inr writing) (free u)
        · exact ⟨u, .inr ⟨registered, up u⟩⟩
      · exact ⟨t, .inl ⟨reads, asleep⟩⟩
    · exact ⟨t, .inr ⟨writes, up t⟩⟩

theorem recheck_of_awake (awake : s.Awake t) : (s.step (.recheck t)).isSome = true := by
  obtain ⟨reads, up⟩ | ⟨writes, up⟩ := awake
  · simp only [step, reads, up, if_false, Option.isSome_some]
  · simp only [step, writes, up, if_false, Option.isSome_some]

/-- A section that ends with a notification under some condition can be taken. -/
theorem exists_notifyWriter {notifies : Prop} [Decidable notifies] (left left' : RWLock T) :
    ∃ woken, (if notifies then left.notifyWriter woken else some left').isSome = true := by
  obtain ⟨woken, wakes⟩ := CondVar.exists_notifyOne left.writersCv
  refine ⟨woken, ?_⟩
  split
  · rwa [notifyWriter, Option.isSome_map]
  · rfl

/-- Who holds the lock can leave it. -/
theorem exists_unlock {writes : Bool} (holds : s.place t = if writes then .writing else .reading) :
    ∃ woken, (s.step (if writes then .writeUnlock t woken else .readUnlock t woken)).isSome =
      true := by
  cases writes with
  | true =>
    simp only [if_true] at holds ⊢
    simp only [step, holds, if_true]
    exact exists_notifyWriter _ _
  | false =>
    simp only [Bool.false_eq_true, if_false] at holds ⊢
    simp only [step, holds, if_true]
    exact exists_notifyWriter _ _

/-! ### Where a section of the lock takes its thread -/

/-- A notification moves nobody. -/
theorem place_notifyWriter {notifies : Prop} [Decidable notifies] {left left' : RWLock T}
    {woken : Option T}
    (ends : (if notifies then left.notifyWriter woken else some left') = some s')
    (same : left'.place = left.place) :
    s'.place = left.place := by
  split at ends
  · obtain ⟨cv, -, rfl⟩ := Option.map_eq_some_iff.mp ends
    rfl
  · cases ends
    exact same

/-- After its predicate a reader has the lock or sleeps; the others sleep as before. -/
theorem tryRead_spec (s : RWLock T) (t : T) :
    ((s.tryRead t).place t = .reading ∨
        (s.tryRead t).place t = .inReadLock ∧ t ∈ (s.tryRead t).readersCv) ∧
      s.readersCv ⊆ (s.tryRead t).readersCv ∧ (s.tryRead t).writersCv = s.writersCv := by
  rw [tryRead]
  split
  · exact ⟨.inl (Function.update_self _ _ _), Finset.Subset.refl _, rfl⟩
  · exact ⟨.inr ⟨Function.update_self _ _ _, Finset.mem_insert_self _ _⟩,
      Finset.subset_insert _ _, rfl⟩

theorem tryWrite_spec (s : RWLock T) (t : T) :
    ((s.tryWrite t).place t = .writing ∨
        (s.tryWrite t).place t = .inWriteLock ∧ t ∈ (s.tryWrite t).writersCv) ∧
      s.writersCv ⊆ (s.tryWrite t).writersCv ∧ (s.tryWrite t).readersCv = s.readersCv := by
  rw [tryWrite]
  split
  · exact ⟨.inl (Function.update_self _ _ _), Finset.Subset.refl _, rfl⟩
  · exact ⟨.inr ⟨Function.update_self _ _ _, Finset.mem_insert_self _ _⟩,
      Finset.subset_insert _ _, rfl⟩

theorem place_tryRead (s : RWLock T) (t : T) :
    (s.tryRead t).place t = .inReadLock ∨ (s.tryRead t).place t = .reading :=
  (s.tryRead_spec t).1.symm.imp_left And.left

theorem place_tryWrite (s : RWLock T) (t : T) :
    (s.tryWrite t).place t = .inWriteLock ∨ (s.tryWrite t).place t = .writing :=
  (s.tryWrite_spec t).1.symm.imp_left And.left

theorem place_of_unlock {woken : Option T} (steps : s.step (.readUnlock t woken) = some s' ∨
    s.step (.writeUnlock t woken) = some s') : s'.place t = .outside := by
  obtain reads | writes := steps
  · rw [step, Option.ite_none_right_eq_some] at reads
    rw [place_notifyWriter reads.2 rfl]
    exact Function.update_self _ _ _
  · rw [step, Option.ite_none_right_eq_some] at writes
    rw [place_notifyWriter writes.2 rfl]
    exact Function.update_self _ _ _

/-- A thread that re-checks stays on its way or gets what it came for. -/
theorem recheck_cases (steps : s.step (.recheck t) = some s') :
    s.place t = .inReadLock ∧ t ∉ s.readersCv ∧ s' = s.tryRead t ∨
      s.place t = .inWriteLock ∧ t ∉ s.writersCv ∧ s' = s.tryWrite t := by
  rw [step] at steps
  split at steps
  case h_1 comes =>
    rw [Option.ite_none_left_eq_some] at steps
    exact .inl ⟨comes, steps.1, (Option.some.inj steps.2).symm⟩
  case h_2 comes =>
    rw [Option.ite_none_left_eq_some] at steps
    exact .inr ⟨comes, steps.1, (Option.some.inj steps.2).symm⟩
  case h_3 => cases steps

/-- It then holds the lock or sleeps, and has woken nobody. -/
theorem awake_of_recheck (steps : s.step (.recheck t) = some s') :
    s.Awake t ∧ ¬ s'.Awake t ∧ ∀ u, s'.Awake u → s.Awake u := by
  have others {u : T} (other : u ≠ t) : s'.place u = s.place u :=
    (step_takes steps).place_of_ne other
  suffices s.Awake t ∧ ¬ s'.Awake t ∧ s.readersCv ⊆ s'.readersCv ∧ s.writersCv ⊆ s'.writersCv by
    obtain ⟨awake, settles, readers, writers⟩ := this
    refine ⟨awake, settles, fun u up => ?_⟩
    have other : u ≠ t := by
      rintro rfl
      exact settles up
    rw [Awake, others other] at up
    exact up.imp (fun reads => ⟨reads.1, fun there => reads.2 (readers there)⟩)
      fun writes => ⟨writes.1, fun there => writes.2 (writers there)⟩
  obtain ⟨comes, up, rfl⟩ | ⟨comes, up, rfl⟩ := recheck_cases steps
  · obtain ⟨ends, grows, same⟩ := s.tryRead_spec t
    refine ⟨.inl ⟨comes, up⟩, ?_, grows, same.symm.subset⟩
    rintro (⟨is, awake⟩ | ⟨is, -⟩)
    all_goals
      obtain reads | ⟨waits, asleep⟩ := ends
      · cases reads.symm.trans is
    · exact awake asleep
    · cases waits.symm.trans is
  · obtain ⟨ends, grows, same⟩ := s.tryWrite_spec t
    refine ⟨.inr ⟨comes, up⟩, ?_, same.symm.subset, grows⟩
    rintro (⟨is, -⟩ | ⟨is, awake⟩)
    all_goals
      obtain writes | ⟨waits, asleep⟩ := ends
      · cases writes.symm.trans is
    · cases waits.symm.trans is
    · exact awake asleep

end CppDB.RWLock

namespace CppDB.Table

/-- How many sections a call has left at most, its return included. -/
def Stage.left : Stage → Nat
  | .entered => 4
  | .missed _ | .matched _ _ => 3
  | .found _ | .doomed _ | .erasing _ _ => 2
  | .returning _ => 1

section Sections

variable [StdHash Int64] {table table' : Table} {op : Op} {stage stage' : Stage}

theorem left_of_enter (enters : table.enter op = (table', stage')) : stage'.left < 4 := by
  cases op with
  | findById id =>
    rcases is : table.cache.get id with ⟨cache, hit⟩
    cases hit with
    | none =>
      simp only [enter, is] at enters
      cases enters
      simp [Stage.left]
    | some row =>
      simp only [enter, is] at enters
      cases enters
      simp [Stage.left]
  | deleteById id =>
    rw [enter] at enters
    split at enters
    cases enters
    split <;> simp [Stage.left]
  | deleteWhere predicate =>
    rw [enter] at enters
    split at enters <;> cases enters <;> simp [Stage.left]
  | updateWhere predicate assignments =>
    rw [enter] at enters
    split at enters <;> cases enters <;> simp [Stage.left]
  | _ =>
    cases enters
    simp [Stage.left]

theorem left_of_work (works : table.work op stage = some (table', stage')) :
    stage'.left < stage.left := by
  cases stage with
  | entered => exact left_of_enter (Option.some.inj works)
  | missed id =>
    rw [work] at works
    split at works <;> cases works <;> simp [Stage.left]
  | found id =>
    rw [work, Option.bind_eq_bind, Option.bind_eq_some_iff] at works
    obtain ⟨row, -, is⟩ := works
    cases is
    simp [Stage.left]
  | doomed ids =>
    cases works
    simp [Stage.left]
  | matched assignments ids =>
    rw [work, Option.bind_eq_bind, Option.bind_eq_some_iff] at works
    obtain ⟨⟨outcome, rows⟩, -, is⟩ := works
    cases outcome <;> cases is <;> simp [Stage.left]
  | erasing ids result =>
    cases works
    simp [Stage.left]
  | returning result => cases works

namespace Shared

variable {T : Type} [DecidableEq T] {s s' : Shared T} {t u : T}

/-- Neither a new call nor a wake-up that nobody notified for. -/
def Action.proceeds : Action T → Bool
  | .call _ _ | .wakeSpuriously _ => false
  | .recheck _ | .work _ | .finish _ _ => true

/-- Where a call has its thread with respect to the lock. -/
def Placed (place : RWLock.Place) : Option (Op × Stage) → Prop
  | none => place = .outside
  | some (op, _) =>
    if op.writes then place = .inWriteLock ∨ place = .writing
    else place = .inReadLock ∨ place = .reading

/-- Threads are on their way into the lock, or in it, exactly for their calls. -/
def Aligned (s : Shared T) : Prop := ∀ t, Placed (s.lock.place t) (s.job t)

/-- A section of the lock after which its thread is where its call has it. -/
theorem Aligned.relock (aligned : s.Aligned) {lock : RWLock T} {job : Option (Op × Stage)}
    (takes : RWLock.Takes t s.lock lock) (placed : Placed (lock.place t) job) :
    Aligned { s.setJob t job with lock } := by
  intro u
  change Placed (lock.place u) (Function.update s.job t job u)
  by_cases same : u = t
  · rw [same, Function.update_self]
    exact placed
  · rw [Function.update_of_ne same, takes.place_of_ne same]
    exact aligned u

theorem Aligned.step (aligned : s.Aligned) {a : Action T} (steps : s.step a = some s') :
    s'.Aligned := by
  cases a with
  | call t op =>
    rw [Shared.step] at steps
    split at steps
    case h_1 => cases steps
    case h_2 =>
      cases steps
      exact aligned
    case h_3 =>
      obtain ⟨lock, locks, rfl⟩ := Option.map_eq_some_iff.mp steps
      rw [Op.lock] at locks
      split at locks
      case isTrue writes =>
        refine aligned.relock (RWLock.step_takes locks) ?_
        rw [RWLock.step, Option.ite_none_right_eq_some] at locks
        obtain rfl := Option.some.inj locks.2
        rw [Placed, if_pos writes]
        exact RWLock.place_tryWrite _ t
      case isFalse reads =>
        refine aligned.relock (RWLock.step_takes locks) ?_
        rw [RWLock.step, Option.ite_none_right_eq_some] at locks
        obtain rfl := Option.some.inj locks.2
        rw [Placed, if_neg reads]
        exact RWLock.place_tryRead _ t
  | recheck t =>
    obtain ⟨lock, locks, rfl⟩ := Option.map_eq_some_iff.mp steps
    have same : s.setJob t (s.job t) = s := by simp [setJob]
    have there := aligned t
    rw [← same]
    refine aligned.relock (RWLock.step_takes locks) ?_
    cases is : s.job t with
    | none =>
      rw [is] at there
      obtain ⟨comes, -⟩ | ⟨comes, -⟩ := RWLock.recheck_cases locks
      · cases comes.symm.trans there
      · cases comes.symm.trans there
    | some job =>
      obtain ⟨op, stage⟩ := job
      rw [is, Placed] at there
      rw [Placed]
      split at there
      case isTrue writes =>
        rw [if_pos writes]
        obtain ⟨comes, -⟩ | ⟨-, -, rfl⟩ := RWLock.recheck_cases locks
        · rw [comes] at there
          simp at there
        · exact RWLock.place_tryWrite _ t
      case isFalse reads =>
        rw [if_neg reads]
        obtain ⟨-, -, rfl⟩ | ⟨comes, -⟩ := RWLock.recheck_cases locks
        · exact RWLock.place_tryRead _ t
        · rw [comes] at there
          simp at there
  | wakeSpuriously t =>
    rw [Shared.step] at steps
    obtain ⟨lock, locks, rfl⟩ := Option.map_eq_some_iff.mp steps
    cases locks
    exact aligned
  | work t =>
    rw [Shared.step] at steps
    split at steps
    case h_1 => cases steps
    case h_2 op stage is =>
      rw [Option.ite_none_right_eq_some] at steps
      obtain ⟨-, steps⟩ := steps
      obtain ⟨⟨table', stage'⟩, -, rfl⟩ := Option.map_eq_some_iff.mp steps
      intro u
      change Placed (s.lock.place u) (Function.update s.job t (some (op, stage')) u)
      have there := aligned u
      by_cases same : u = t
      · subst same
        rw [is] at there
        rw [Function.update_self]
        exact there
      · rw [Function.update_of_ne same]
        exact there
  | finish t woken =>
    rw [Shared.step] at steps
    split at steps
    case h_1 op result is =>
      obtain ⟨lock, locks, rfl⟩ := Option.map_eq_some_iff.mp steps
      rw [Op.unlock] at locks
      split at locks
      · exact aligned.relock (RWLock.step_takes locks) (RWLock.place_of_unlock (.inr locks))
      · exact aligned.relock (RWLock.step_takes locks) (RWLock.place_of_unlock (.inl locks))
    case h_2 => cases steps

/-- The lock takes the sections of `RWLock` and no others. -/
theorem lock_of_step {a : Action T} (steps : s.step a = some s') :
    Relation.ReflTransGen RWLock.Steps s.lock s'.lock := by
  cases a with
  | call t op =>
    rw [Shared.step] at steps
    split at steps
    case h_1 => cases steps
    case h_2 =>
      cases steps
      exact .refl
    case h_3 =>
      obtain ⟨lock, locks, rfl⟩ := Option.map_eq_some_iff.mp steps
      exact .single ⟨_, locks⟩
  | recheck t =>
    obtain ⟨lock, locks, rfl⟩ := Option.map_eq_some_iff.mp steps
    exact .single ⟨_, locks⟩
  | wakeSpuriously t =>
    rw [Shared.step] at steps
    obtain ⟨lock, locks, rfl⟩ := Option.map_eq_some_iff.mp steps
    exact .single ⟨_, locks⟩
  | work t =>
    rw [Shared.step] at steps
    split at steps
    case h_1 => cases steps
    case h_2 =>
      rw [Option.ite_none_right_eq_some] at steps
      obtain ⟨work, -, rfl⟩ := Option.map_eq_some_iff.mp steps.2
      exact .refl
  | finish t woken =>
    rw [Shared.step] at steps
    split at steps
    case h_1 =>
      obtain ⟨lock, locks, rfl⟩ := Option.map_eq_some_iff.mp steps
      exact .single ⟨_, locks⟩
    case h_2 => cases steps

/-- What is known of every state an interleaving reaches. -/
structure Live (s : Shared T) : Prop where
  sound : s.Sound
  aligned : s.Aligned
  prompt : s.lock.Prompt

theorem Live.step (live : s.Live) {a : Action T} (reaches : s.lock.Reachable)
    (steps : s.step a = some s') : s'.Live where
  sound := live.sound.next steps
  aligned := live.aligned.step steps
  prompt := RWLock.prompt_of_reachable (reaches.trans (lock_of_step steps))

theorem live_of_reachable (reachable : s.Reachable) : s.Live ∧ s.lock.Reachable := by
  have sound := sound_of_reachable reachable
  obtain ⟨schema, cacheCapacity, table, -, run⟩ := reachable
  suffices s.Aligned ∧ s.lock.Reachable from
    ⟨⟨sound, this.1, RWLock.prompt_of_reachable this.2⟩, this.2⟩
  clear sound
  induction run with
  | refl => exact ⟨fun _ => rfl, .refl⟩
  | tail _ steps ih =>
    obtain ⟨a, steps⟩ := steps
    exact ⟨ih.1.step steps, ih.2.trans (lock_of_step steps)⟩

/-! ### Somebody can go on -/

/-- A call whose thread has the lock goes on or returns. -/
theorem Live.proceeds_of_holding (live : s.Live) (holds : s.lock.Holds t) :
    ∃ a : Action T, a.proceeds = true ∧ (s.step a).isSome = true := by
  have placed := live.aligned t
  cases is : s.job t with
  | none =>
    rw [is] at placed
    obtain reading | writing := holds
    · cases reading.symm.trans placed
    · cases writing.symm.trans placed
  | some job =>
    obtain ⟨op, stage⟩ := job
    rw [is, Placed] at placed
    have runs : s.lock.place t = op.held := by
      rw [Op.held]
      obtain reading | writing := holds
      · rw [reading] at placed ⊢
        split at placed
        · simp at placed
        · rw [if_neg ‹_›]
      · rw [writing] at placed ⊢
        split at placed
        · rw [if_pos ‹_›]
        · simp at placed
    by_cases returning : ∃ result, stage = .returning result
    · obtain ⟨result, rfl⟩ := returning
      obtain ⟨woken, unlocks⟩ : ∃ woken, (s.lock.step (op.unlock t woken)).isSome = true :=
        RWLock.exists_unlock runs
      refine ⟨.finish t woken, rfl, ?_⟩
      simp only [Shared.step, is, Option.isSome_map]
      exact unlocks
    · have valid := live.sound.validBut is runs
      have works : (s.table.work op stage).isSome = true := by
        cases stage with
        | erasing => rfl
        | _ =>
          exact work_of_justified valid.valid (live.sound.justified t op _ is)
            fun result is => returning ⟨result, is⟩
      refine ⟨.work t, rfl, ?_⟩
      simp only [Shared.step, is, runs, if_true, Option.isSome_map]
      exact works

theorem Live.proceeds (live : s.Live) (busy : s.job t ≠ none) :
    ∃ a : Action T, a.proceeds = true ∧ (s.step a).isSome = true := by
  by_cases held : ∃ u, s.lock.Holds u
  · obtain ⟨u, holds⟩ := held
    exact live.proceeds_of_holding holds
  · have free (u : T) : ¬ s.lock.Holds u := fun holds => held ⟨u, holds⟩
    have waits : s.lock.place t = .inReadLock ∨ s.lock.place t = .inWriteLock := by
      obtain ⟨⟨op, stage⟩, is⟩ := Option.ne_none_iff_exists'.mp busy
      have placed := live.aligned t
      rw [is, Placed] at placed
      split at placed
      · exact .inr (placed.resolve_right fun writing => free t (.inr writing))
      · exact .inl (placed.resolve_right fun reading => free t (.inl reading))
    obtain ⟨u, awake⟩ := live.prompt.exists_awake_of_waiting live.sound.lock free waits
    refine ⟨.recheck u, rfl, ?_⟩
    rw [Shared.step, Option.isSome_map]
    exact RWLock.recheck_of_awake awake

/-! ### Nobody goes on forever -/

def sectionsLeft (s : Shared T) (t : T) : Nat :=
  match s.job t with
  | none => 0
  | some (_, stage) => stage.left

variable [Fintype T]

/-- A bound for the sections all threads together can take without a new call. Every return
may wake everybody, and everybody may then go back to sleep. -/
noncomputable def load (s : Shared T) : Nat :=
  (∑ t, s.sectionsLeft t) * (Fintype.card T + 1) + {t | s.lock.Awake t}.ncard

/-- A section of a body or a return, whomever it wakes. -/
theorem load_of_update {job : Option (Op × Stage)} {s' : Shared T}
    (jobs : s'.job = Function.update s.job t job)
    (less : s'.sectionsLeft t < s.sectionsLeft t) : s'.load < s.load := by
  have sums : ∑ u, s'.sectionsLeft u < ∑ u, s.sectionsLeft u := by
    refine Finset.sum_lt_sum (fun u _ => ?_) ⟨t, Finset.mem_univ t, less⟩
    by_cases same : u = t
    · rw [same]
      exact less.le
    · rw [sectionsLeft, sectionsLeft, jobs, Function.update_of_ne same]
  have awake : {u | s'.lock.Awake u}.ncard ≤ Fintype.card T := by
    rw [← Nat.card_eq_fintype_card, ← Set.ncard_univ]
    exact Set.ncard_le_ncard (Set.subset_univ _)
  calc s'.load < (∑ u, s'.sectionsLeft u) * (Fintype.card T + 1) + (Fintype.card T + 1) := by
        rw [load]
        omega
    _ = (∑ u, s'.sectionsLeft u + 1) * (Fintype.card T + 1) := (Nat.succ_mul _ _).symm
    _ ≤ (∑ u, s.sectionsLeft u) * (Fintype.card T + 1) := Nat.mul_le_mul_right _ sums
    _ ≤ s.load := Nat.le_add_right _ _

theorem load_of_step {a : Action T} (proceeds : a.proceeds = true) (steps : s.step a = some s') :
    s'.load < s.load := by
  cases a with
  | call | wakeSpuriously => cases proceeds
  | recheck t =>
    obtain ⟨lock, locks, rfl⟩ := Option.map_eq_some_iff.mp steps
    obtain ⟨awake, settles, others⟩ := RWLock.awake_of_recheck locks
    refine Nat.add_lt_add_left (Set.ncard_lt_ncard ⟨fun u => others u, ?_⟩) _
    exact fun back => settles (back awake)
  | work t =>
    rw [Shared.step] at steps
    split at steps
    case h_1 => cases steps
    case h_2 op stage is =>
      rw [Option.ite_none_right_eq_some] at steps
      obtain ⟨⟨table', stage'⟩, works, rfl⟩ := Option.map_eq_some_iff.mp steps.2
      refine load_of_update (t := t) rfl ?_
      simp only [sectionsLeft, setJob, Function.update_self, is]
      exact left_of_work works
  | finish t woken =>
    rw [Shared.step] at steps
    split at steps
    case h_1 op result is =>
      obtain ⟨lock, -, rfl⟩ := Option.map_eq_some_iff.mp steps
      refine load_of_update (t := t) rfl ?_
      simp only [sectionsLeft, setJob, Function.update_self, is, Stage.left, Nat.zero_lt_one]
    case h_2 => cases steps

/-- From every state an interleaving of finitely many threads reaches: without new calls, and
without wake-ups that nobody notified for, the threads take at most `load` sections, in
whatever order, and wherever they have come to, one of them can go on unless every call has
returned. So all calls return, unless new calls or spurious wake-ups come for ever. -/
theorem all_calls_return (reachable : s.Reachable) {as : List (Action T)}
    (proceed : ∀ a ∈ as, a.proceeds = true) (runs : as.foldlM step s = some s') :
    as.length ≤ s.load ∧
      ((∃ t, s'.job t ≠ none) → ∃ a : Action T, a.proceeds = true ∧ (s'.step a).isSome = true) := by
  obtain ⟨live, reaches⟩ := live_of_reachable reachable
  clear reachable
  suffices as.length + s'.load ≤ s.load ∧ s'.Live by
    refine ⟨by omega, ?_⟩
    rintro ⟨t, busy⟩
    exact this.2.proceeds busy
  induction as generalizing s with
  | nil =>
    cases runs
    exact ⟨by simp, live⟩
  | cons a as ih =>
    rw [List.foldlM_cons, Option.bind_eq_bind, Option.bind_eq_some_iff] at runs
    obtain ⟨mid, steps, runs⟩ := runs
    obtain ⟨here, others⟩ := List.forall_mem_cons.mp proceed
    have lower := load_of_step here steps
    obtain ⟨bound, live'⟩ :=
      ih others runs (live.step reaches steps) (reaches.trans (lock_of_step steps))
    refine ⟨?_, live'⟩
    rw [List.length_cons]
    omega

end Shared

end Sections

section Witness

open scoped OneBucket

/-- A lookup misses the cache while a deletion waits for it. -/
theorem all_calls_return_waiting :
    ∃ s s' : Shared (Fin 2), s.Reachable ∧ s.lock.place 1 = .inWriteLock ∧
      [Shared.Action.work 0, .work 0].foldlM Shared.step s = some s' ∧
      [Shared.Action.work (T := Fin 2) 0, .work 0].length ≤ s.load ∧
      ((∃ t, s'.job t ≠ none) → ∃ a : Shared.Action (Fin 2), a.proceeds = true ∧
        (s'.step a).isSome = true) := by
  have runs : (((create idSchema 1).toOption.bind fun table =>
      ([.call 0 (.findById 5), .call 1 (.deleteById 5)].foldlM Shared.step
        (Shared.fresh table : Shared (Fin 2))).bind fun s =>
          ([.work 0, .work 0].foldlM Shared.step s).map fun s' => (table, s, s')).any
      fun states => states.2.1.lock.place 1 == .inWriteLock) = true := by
    decide +kernel
  rw [Option.any_eq_true] at runs
  obtain ⟨⟨table, s, s'⟩, ends, waits⟩ := runs
  obtain ⟨table', creates, ends⟩ := Option.bind_eq_some_iff.mp ends
  obtain ⟨s₁, starts, ends⟩ := Option.bind_eq_some_iff.mp ends
  obtain ⟨s₂, goes, same⟩ := Option.map_eq_some_iff.mp ends
  cases same
  have reachable : s.Reachable :=
    ⟨idSchema, 1, table, create_of_toOption creates, Machine.reaches_of_foldlM starts⟩
  exact ⟨s, s', reachable, beq_iff_eq.mp waits, goes,
    Shared.all_calls_return reachable (by decide) goes⟩

end Witness

end CppDB.Table
