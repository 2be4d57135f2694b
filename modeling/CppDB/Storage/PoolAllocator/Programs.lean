import CppDB.Lib.Census
import CppDB.Lib.Trace
import CppDB.Storage.PoolAllocator.FreeList

/-! Pools in a program: several of them over one memory, moved from variable to variable.
Their arenas do not meet, so a call on one leaves the others alone. -/
namespace CppDB.PoolAllocator
open Linked

variable {layout : Layout}

/-- The invariant of all pools together. -/
structure Sound {P : Type} (layout : Layout) (w : World P) : Prop where
  nodup : w.live.Nodup
  kept : ∀ p pool, w.pools p = some pool → Kept layout w.memory w.live pool
  apart : ∀ p q pool pool', p ≠ q → w.pools p = some pool → w.pools q = some pool' →
    Disjoint (pool.extent layout) (pool'.extent layout)
  owned : ∀ b ∈ w.live, ∃ p pool, w.pools p = some pool ∧ b ∈ pool.blocks layout

namespace Sound

variable {P : Type} [DecidableEq P] {w : World P} {p source : P} {pool pool' : Pool}
  {memory' : Memory} {live' : List Addr} {block : Addr}

omit [DecidableEq P] in
theorem empty : Sound layout (World.empty : World P) :=
  ⟨List.nodup_nil, fun _ _ none => (by cases none), fun _ _ _ _ _ none => (by cases none),
    fun _ none => by cases none⟩

omit [DecidableEq P] in
/-- A block belongs to one pool. -/
theorem other_block (sound : Sound layout w) {q : P} (other : p ≠ q) (holds : w.pools p = some pool)
    (holds' : w.pools q = some pool') (there : block ∈ pool'.blocks layout) :
    block ∉ pool.blocks layout := by
  intro here
  have apart := sound.apart p q pool pool' other holds holds'
  exact Set.disjoint_left.mp apart ((sound.kept p pool holds).mem_extent here)
    ((sound.kept q pool' holds').mem_extent there)

/-- A variable whose new pool stands apart from what the other variables have. -/
theorem apart_set (sound : Sound layout w)
    (apart : ∀ q other, q ≠ p → w.pools q = some other →
      Disjoint (pool.extent layout) (other.extent layout)) :
    ∀ q r first second, q ≠ r → Function.update w.pools p (some pool) q = some first →
      Function.update w.pools p (some pool) r = some second →
      Disjoint (first.extent layout) (second.extent layout) := by
  intro q r first second different is is'
  rcases Census.stands_cases is with ⟨rfl, now⟩ | ⟨elsewhere, before⟩
  · rcases Census.stands_cases is' with ⟨rfl, -⟩ | ⟨elsewhere', before'⟩
    · exact absurd rfl different
    · cases now
      exact apart r second elsewhere' before'
  · rcases Census.stands_cases is' with ⟨rfl, now'⟩ | ⟨-, before'⟩
    · cases now'
      exact (apart q first elsewhere before).symm
    · exact sound.apart q r first second different before before'

/-- A call on a pool that touches nothing but its blocks. -/
theorem changed (sound : Sound layout w) (holds : w.pools p = some pool)
    (arena : pool'.arena = pool.arena) (capacity : pool'.capacity = pool.capacity)
    (nodup : live'.Nodup) (kept : Kept layout memory' live' pool')
    (only : ∀ a, a ∉ pool.blocks layout → memory' a = w.memory a)
    (alike : ∀ a, a ∉ pool.blocks layout → (a ∈ live' ↔ a ∈ w.live)) :
    Sound layout ({ w with memory := memory', live := live' }.set p pool') := by
  have extent : pool'.extent layout = pool.extent layout := extent_congr arena capacity
  refine ⟨nodup, ?_, sound.apart_set fun q other elsewhere before => ?_, ?_⟩
  · intro q other is
    rcases Census.stands_cases is with ⟨rfl, now⟩ | ⟨elsewhere, before⟩
    · cases now
      exact kept
    · refine (sound.kept q other before).frame (fun b there => only b ?_) fun b there => alike b ?_
      · exact sound.other_block (Ne.symm elsewhere) holds before there
      · exact sound.other_block (Ne.symm elsewhere) holds before there
  · rw [extent]
    exact sound.apart p q pool other elsewhere.symm holds before
  · intro b now
    by_cases here : b ∈ pool.blocks layout
    · refine ⟨p, pool', Function.update_self .., ?_⟩
      rwa [blocks_congr arena capacity]
    · obtain ⟨q, other, before, there⟩ := sound.owned b ((alike b here).mp now)
      have elsewhere : q ≠ p := by
        rintro rfl
        cases holds.symm.trans before
        exact here there
      exact ⟨q, other, (Function.update_of_ne elsewhere ..).trans before, there⟩

omit [DecidableEq P] in
/-- Pools that change hands. Each variable has nothing or what one variable had before, no two
of them what the same one had, and no pool with live objects is lost. -/
theorem relocated (sound : Sound layout w) {pools' : P → Option Pool} (origin : P → P)
    (had : ∀ q pool, pools' q = some pool → pool = Pool.null ∨ w.pools (origin q) = some pool)
    (distinct : ∀ q r pool pool', q ≠ r → pools' q = some pool → pools' r = some pool' →
      pool = Pool.null ∨ pool' = Pool.null ∨ origin q ≠ origin r)
    (covers : ∀ b ∈ w.live, ∃ q pool, pools' q = some pool ∧ b ∈ pool.blocks layout) :
    Sound layout { w with pools := pools' } := by
  refine ⟨sound.nodup, ?_, ?_, covers⟩
  · intro q pool is
    rcases had q pool is with rfl | before
    · exact kept_null _ _
    · exact sound.kept _ pool before
  · intro q r pool pool' different is is'
    rcases had q pool is with rfl | before
    · exact Set.empty_disjoint _
    · rcases had r pool' is' with rfl | before'
      · exact Set.disjoint_empty _
      · rcases distinct q r pool pool' different is is' with rfl | rfl | apart
        · exact Set.empty_disjoint _
        · exact Set.disjoint_empty _
        · exact sound.apart _ _ pool pool' apart before before'

theorem move (sound : Sound layout w) (other : p ≠ source) (holds : w.pools source = some pool)
    (idle : ∀ target, w.pools p = some target → w.Idle layout target) :
    Sound layout (w.move p source pool) := by
  have after : ∀ q pool', (w.move p source pool).pools q = some pool' →
      q = p ∧ pool' = pool ∨ q = source ∧ pool' = Pool.null ∨
        q ≠ p ∧ q ≠ source ∧ w.pools q = some pool' := by
    intro q pool' is
    rcases Census.stands_cases is with ⟨rfl, now⟩ | ⟨elsewhere, is'⟩
    · exact .inl ⟨rfl, (Option.some.inj now).symm⟩
    · rcases Census.stands_cases is' with ⟨rfl, now⟩ | ⟨elsewhere', before⟩
      · exact .inr (.inl ⟨rfl, (Option.some.inj now).symm⟩)
      · exact .inr (.inr ⟨elsewhere, elsewhere', before⟩)
  refine sound.relocated (fun q => if q = p then source else q) ?_ ?_ ?_
  · intro q pool' is
    rcases after q pool' is with ⟨rfl, rfl⟩ | ⟨-, rfl⟩ | ⟨elsewhere, -, before⟩
    · exact .inr (by rwa [if_pos rfl])
    · exact .inl rfl
    · exact .inr (by rwa [if_neg elsewhere])
  · intro q r first second different is is'
    rcases after q first is with ⟨rfl, -⟩ | ⟨-, rfl⟩ | ⟨elsewhere, apart, -⟩
    · rcases after r second is' with ⟨rfl, -⟩ | ⟨-, rfl⟩ | ⟨elsewhere', apart', -⟩
      · exact absurd rfl different
      · exact .inr (.inl rfl)
      · exact .inr (.inr (by rw [if_pos rfl, if_neg elsewhere']; exact apart'.symm))
    · exact .inl rfl
    · rcases after r second is' with ⟨rfl, -⟩ | ⟨-, rfl⟩ | ⟨elsewhere', -, -⟩
      · exact .inr (.inr (by rw [if_pos rfl, if_neg elsewhere]; exact apart))
      · exact .inr (.inl rfl)
      · exact .inr (.inr (by rwa [if_neg elsewhere, if_neg elsewhere']))
  · intro b now
    obtain ⟨q, pool', before, there⟩ := sound.owned b now
    by_cases first : q = p
    · exact absurd there (idle pool' (first ▸ before) b now)
    · by_cases second : q = source
      · cases holds.symm.trans (second ▸ before)
        exact ⟨p, pool, Function.update_self .., there⟩
      · exact ⟨q, pool', (Function.update_of_ne first ..).trans
          ((Function.update_of_ne second ..).trans before), there⟩

theorem destroy (sound : Sound layout w) (holds : w.pools p = some pool)
    (idle : w.Idle layout pool) :
    Sound layout { w with pools := Function.update w.pools p none } := by
  refine sound.relocated id ?_ (fun _ _ _ _ different _ _ => .inr (.inr different)) ?_
  · intro q pool' is
    rcases Census.stands_cases is with ⟨-, now⟩ | ⟨-, before⟩
    · cases now
    · exact .inr before
  · intro b now
    obtain ⟨q, pool', before, there⟩ := sound.owned b now
    refine ⟨q, pool', (Function.update_of_ne ?_ ..).trans before, there⟩
    rintro rfl
    cases holds.symm.trans before
    exact idle b now there

/-- A new pool in an arena of its own. -/
theorem construct (sound : Sound layout w) (new : w.pools p = none) {capacity : Nat} {arena : Addr}
    (carved : Carved layout capacity arena)
    (apart : ∀ q pool, w.pools q = some pool →
      Disjoint (Set.Ico arena (arena + layout.arenaBytes capacity)) (pool.extent layout)) :
    Sound layout ({ w with memory := (create layout capacity arena w.memory).1 }.set p
      (create layout capacity arena w.memory).2) := by
  have foreign : ∀ q pool, w.pools q = some pool → ∀ b ∈ pool.blocks layout, ∀ i < capacity,
      b ≠ layout.blockStart arena i := by
    rintro q pool before b there i below rfl
    exact Set.disjoint_left.mp (apart q pool before) (carved.start_mem below)
      ((sound.kept q pool before).mem_extent there)
  have clear : ∀ i < capacity, layout.blockStart arena i ∉ w.live := by
    intro i below now
    obtain ⟨q, pool, before, there⟩ := sound.owned _ now
    exact foreign q pool before _ there i below rfl
  obtain ⟨kept, frame⟩ := create_kept carved w.memory clear
  refine ⟨sound.nodup, ?_, sound.apart_set fun q pool _ before => apart q pool before, ?_⟩
  · intro q pool is
    rcases Census.stands_cases is with ⟨rfl, now⟩ | ⟨-, before⟩
    · cases now
      exact kept
    · exact (sound.kept q pool before).frame
        (fun b there => frame b (foreign q pool before b there)) fun _ _ => Iff.rfl
  · intro b now
    obtain ⟨q, pool, before, there⟩ := sound.owned b now
    refine ⟨q, pool, (Function.update_of_ne ?_ ..).trans before, there⟩
    rintro rfl
    cases new.symm.trans before

end Sound

section Steps
variable {P : Type} [DecidableEq P] {w : World P} {p : P} {pool : Pool} {block : Addr}

theorem World.set_self (holds : w.pools p = some pool) : w.set p pool = w := by
  rw [World.set, ← holds, Function.update_eq_self]

/-- A call of `allocate` in a program. -/
theorem step_allocate (sound : Sound layout w) (holds : w.pools p = some pool) (throws : Bool) :
    (∃ e, step layout w (.allocate p throws) = some (w, [.threw e]) ∧
        (pool.freeHead = none ∧ pool.liveBlocks layout w.live = pool.capacity ∨ throws = true)) ∨
      throws = false ∧ pool.liveBlocks layout w.live < pool.capacity ∧
      ∃ b w', pool.freeHead = some b ∧
        step layout w (.allocate p throws) = some (w', [.object b]) ∧
        b ∈ pool.blocks layout ∧ b ∉ w.live ∧ w'.live = b :: w.live ∧ Sound layout w' := by
  rcases (sound.kept p pool holds).allocate throws with ⟨e, allocates, why⟩ |
    ⟨quiet, room, b, memory', pool', head, allocates, owned, free, arena, capacity, only, kept⟩
  · refine .inl ⟨e, ?_, why⟩
    simp only [step, holds, allocates, Option.bind_eq_bind, Option.bind_some, World.set_self holds]
    rfl
  · refine .inr ⟨quiet, room, b, { w with memory := memory', live := b :: w.live }.set p pool',
      head, ?_, owned, free, rfl, ?_⟩
    · simp only [step, holds, allocates, Option.bind_eq_bind, Option.bind_some]
      rfl
    · refine sound.changed holds arena capacity (List.nodup_cons.mpr ⟨free, sound.nodup⟩) kept
        (fun a foreign => only a ?_) fun a foreign => ?_
      · rintro rfl
        exact foreign owned
      · rw [List.mem_cons, or_iff_right]
        rintro rfl
        exact foreign owned

/-- A call of `deallocate` on a live object of the pool. -/
theorem step_deallocate (sound : Sound layout w) (holds : w.pools p = some pool)
    (owned : block ∈ pool.blocks layout) (now : block ∈ w.live) :
    ∃ w' pool', step layout w (.deallocate p (some block)) = some (w', [.done]) ∧
      w'.pools p = some pool' ∧ pool'.freeHead = some block ∧ pool'.capacity = pool.capacity ∧
      pool'.blocks layout = pool.blocks layout ∧ w'.live = w.live.erase block ∧
      Sound layout w' := by
  obtain ⟨memory', pool', frees, head, arena, capacity, only, kept⟩ :=
    (sound.kept p pool holds).deallocate sound.nodup owned now
  refine ⟨{ w with memory := memory', live := w.live.erase block }.set p pool', pool', ?_,
    Function.update_self .., head, capacity, blocks_congr arena capacity, rfl, ?_⟩
  · simp only [step, holds, frees, Option.bind_eq_bind, Option.bind_some]
    rfl
  · refine sound.changed holds arena capacity (sound.nodup.erase block) kept
      (fun a foreign => only a ?_) fun a foreign => ?_
    · rintro rfl
      exact foreign owned
    · rw [sound.nodup.mem_erase_iff, and_iff_right]
      rintro rfl
      exact foreign owned

theorem step_deallocate_null (holds : w.pools p = some pool) :
    step layout w (.deallocate p none) = some (w, [.done]) := by
  simp only [step, holds, Pool.deallocate, Option.bind_eq_bind, Option.bind_some,
    World.set_self holds]
  rfl

/-- Every call a program may make returns, and keeps the invariant. -/
theorem step_sound (sound : Sound layout w) {es : List Outcome} {action : Action P}
    (allowed : Allowed layout es w action) :
    ∃ w' outcome, step layout w action = some (w', [outcome]) ∧ Sound layout w' := by
  cases action with
  | construct p capacity arena =>
    obtain ⟨new, fits⟩ := allowed
    by_cases zero : capacity = 0
    · exact ⟨w, .threw zeroCapacity, by rw [step, if_pos zero], sound⟩
    · obtain ⟨allocated, fits, apart⟩ := fits zero
      have carved := carved_of_fits (Nat.pos_of_ne_zero zero) allocated fits
      exact ⟨_, .done, by rw [step, if_neg zero], sound.construct new carved apart⟩
  | allocate p throws =>
    obtain ⟨pool, holds⟩ := allowed
    rcases step_allocate sound holds throws with ⟨e, steps, -⟩ |
      ⟨-, -, b, w', -, steps, -, -, -, sound'⟩
    · exact ⟨w, .threw e, steps, sound⟩
    · exact ⟨w', .object b, steps, sound'⟩
  | deallocate p object =>
    obtain ⟨pool, holds, given⟩ := allowed
    cases object with
    | none => exact ⟨w, .done, step_deallocate_null holds, sound⟩
    | some block =>
      obtain ⟨now, owned⟩ := given block rfl
      obtain ⟨w', -, steps, -, -, -, -, -, sound'⟩ := step_deallocate sound holds owned now
      exact ⟨w', .done, steps, sound'⟩
  | moveConstruct p source =>
    obtain ⟨new, pool, holds⟩ := allowed
    refine ⟨w.move p source pool, .done, ?_, sound.move ?_ holds fun target is => ?_⟩
    · simp only [step, holds, Option.bind_eq_bind, Option.bind_some]
      rfl
    · rintro rfl
      cases new.symm.trans holds
    · cases new.symm.trans is
  | moveAssign p source =>
    obtain ⟨target, pool, holds, holds', idle⟩ := allowed
    by_cases same : p = source
    · refine ⟨w, .done, ?_, sound⟩
      simp only [step, holds', same, Option.bind_eq_bind, Option.bind_some, if_true]
      rfl
    · have releases := (sound.kept p target holds).releaseArena (idle same)
      refine ⟨w.move p source pool, .done, ?_, sound.move same holds' fun target' is => ?_⟩
      · simp only [step, holds, holds', releases, if_neg same, Option.bind_eq_bind,
          Option.bind_some]
        rfl
      · cases holds.symm.trans is
        exact idle same
  | destroy p =>
    obtain ⟨pool, holds, idle⟩ := allowed
    have releases := (sound.kept p pool holds).releaseArena idle
    refine ⟨_, .done, ?_, sound.destroy holds idle⟩
    simp only [step, holds, releases, Option.bind_eq_bind, Option.bind_some]
    rfl

theorem sound_of_run {es : List Outcome}
    (run : Trace.Run (step layout) (Allowed layout) World.empty es w) : Sound layout w := by
  apply run.invariant (fun _ w => Sound layout w) Sound.empty
  intro es es' w w' action sound allowed steps
  obtain ⟨w'', outcome, steps', sound'⟩ := step_sound sound allowed
  cases steps.symm.trans steps'
  exact sound'

/-- Through every run of calls on pools, moves included, no call reads a link that is not
there or fails an assertion, and every object handed out belongs to one pool. Each pool's
free list ends, has no block twice and consists of the blocks that are not live, of which
`inUse_` counts the others. `allocate` hands out a block that is not live exactly if there is
one and the constructor does not throw; if it throws, everything is as before. A block that
is given back is the next one handed out. -/
theorem free_list_exact {es : List Outcome}
    (run : Trace.Run (step layout) (Allowed layout) World.empty es w) :
    (∀ action, Allowed layout es w action →
        ∃ w' outcome, step layout w action = some (w', [outcome])) ∧
      w.live.Nodup ∧
      (∀ b ∈ w.live, ∃ p pool, w.pools p = some pool ∧ b ∈ pool.blocks layout) ∧
      ∀ p pool, w.pools p = some pool →
        (∃ free, Chain (link w.memory) pool.freeHead free ∧ free.Nodup ∧
          ∀ b, b ∈ free ↔ b ∈ pool.blocks layout ∧ b ∉ w.live) ∧
        pool.inUse = pool.liveBlocks layout w.live ∧
        (∀ throws, ∃ w' outcome, step layout w (.allocate p throws) = some (w', [outcome]) ∧
          ((∃ b ∈ pool.blocks layout, b ∉ w.live ∧ outcome = .object b ∧ w'.live = b :: w.live) ↔
            pool.liveBlocks layout w.live < pool.capacity ∧ throws = false) ∧
          ∀ e, outcome = .threw e → w' = w) ∧
        step layout w (.deallocate p none) = some (w, [.done]) ∧
        ∀ b ∈ w.live, b ∈ pool.blocks layout → ∃ w' w'',
          step layout w (.deallocate p (some b)) = some (w', [.done]) ∧
          w'.live = w.live.erase b ∧
          step layout w' (.allocate p false) = some (w'', [.object b]) := by
  have sound := sound_of_run run
  refine ⟨fun action allowed => ?_, sound.nodup, sound.owned, fun p pool holds => ?_⟩
  · obtain ⟨w', outcome, steps, -⟩ := step_sound sound allowed
    exact ⟨w', outcome, steps⟩
  have kept := sound.kept p pool holds
  refine ⟨?_, kept.counted, fun throws => ?_, step_deallocate_null holds, fun b now owned => ?_⟩
  · obtain ⟨free, chain, exactly⟩ := kept.free
    exact ⟨free, chain, chain.nodup, exactly⟩
  · rcases step_allocate sound holds throws with ⟨e, steps, why⟩ |
      ⟨quiet, room, b, w', -, steps, owned, free, live, -⟩
    · refine ⟨w, .threw e, steps, ⟨?_, ?_⟩, fun _ _ => rfl⟩
      · rintro ⟨b, -, -, impossible, -⟩
        cases impossible
      · rintro ⟨room, rfl⟩
        rcases why with ⟨-, full⟩ | impossible
        · omega
        · cases impossible
    · refine ⟨w', .object b, steps, ⟨fun _ => ⟨room, quiet⟩, fun _ => ?_⟩, ?_⟩
      · exact ⟨b, owned, free, rfl, live⟩
      · rintro e ⟨⟩
  · obtain ⟨w', pool', frees, holds', head, capacity, blocks, live, sound'⟩ :=
      step_deallocate sound holds owned now
    refine ⟨w', ?_⟩
    rcases step_allocate sound' holds' false with ⟨e, -, ⟨none, -⟩ | impossible⟩ |
      ⟨-, -, b', w'', head', steps, -⟩
    · cases head.symm.trans none
    · cases impossible
    · cases head.symm.trans head'
      exact ⟨w'', frees, live, steps⟩

/-- Two blocks, the first handed out, and the pool then moved. -/
theorem free_list_exact_moved :
    ∃ (es : List Outcome) (w : World Bool) (pool : Pool),
      Trace.Run (step wordLayout) (Allowed wordLayout) World.empty es w ∧
      w.pools true = some pool ∧ w.live = [4096] ∧
      pool.inUse = pool.liveBlocks wordLayout w.live := by
  have bytes : wordLayout.arenaBytes 2 = 16 := rfl
  have allocated : Allocated wordLayout 2 4096 := ⟨⟨512, rfl⟩, by omega, by rw [bytes]; omega⟩
  have fits : 2 * wordLayout.exactBlockSize < 2 ^ 64 := by
    rw [show wordLayout.exactBlockSize = 8 from rfl]
    omega
  have begun : Trace.Run (step wordLayout) (Allowed wordLayout) (World.empty : World Bool) []
      World.empty := .start
  have built := begun.next (show Allowed wordLayout _ _ (.construct false 2 4096) from
    ⟨rfl, fun _ => ⟨allocated, fits, fun _ _ none => by cases none⟩⟩) rfl
  have filled := built.next (show Allowed wordLayout _ _ (.allocate false false) from
    ⟨_, rfl⟩) rfl
  have moved := filled.next (show Allowed wordLayout _ _ (.moveConstruct true false) from
    ⟨rfl, _, rfl⟩) rfl
  exact ⟨_, _, _, moved, rfl, rfl, ((free_list_exact moved).2.2.2 true _ rfl).2.1⟩

end Steps
end CppDB.PoolAllocator
