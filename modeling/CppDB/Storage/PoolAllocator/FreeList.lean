import CppDB.Lib.Linked
import CppDB.Storage.PoolAllocator.Model

/-! The free list of a pool: it holds the blocks that are not live, each once, and one
specification per call says that it stays so. -/
namespace CppDB.PoolAllocator
open Linked

/-- The link in a free block. -/
def link (memory : Memory) (block : Addr) : Option (Option Addr) :=
  match memory block with
  | .node next => some next
  | _ => none

section Links
variable {memory : Memory} {a b : Addr}

theorem link_update_self (next : Option Addr) :
    link (Function.update memory a (.node next)) a = some next := by
  rw [link, Function.update_self]

theorem link_update_of_ne (cell : Cell) (other : b ≠ a) :
    link (Function.update memory a cell) b = link memory b := by
  rw [link, link, Function.update_of_ne other]

theorem memory_of_link {next : Option Addr} (links : link memory a = some next) :
    memory a = .node next := by
  rw [link] at links
  cases held : memory a with
  | node next' =>
    rw [held] at links
    cases links
    rfl
  | raw =>
    rw [held] at links
    cases links
  | object =>
    rw [held] at links
    cases links

end Links

variable {layout : Layout}

/-- The number of the pool's blocks that hold a live object. -/
def Pool.liveBlocks (layout : Layout) (pool : Pool) (live : List Addr) : Nat :=
  (pool.blocks layout).countP (· ∈ live)

/-- The list from the head of a pool, if it is as it should be: its blocks but the live ones. -/
structure Free (layout : Layout) (memory : Memory) (live : List Addr) (pool : Pool)
    (free : List Addr) : Prop where
  chain : Chain (link memory) pool.freeHead free
  exactly : ∀ b, b ∈ free ↔ b ∈ pool.blocks layout ∧ b ∉ live

/-- The invariant of a pool. -/
structure Kept (layout : Layout) (memory : Memory) (live : List Addr) (pool : Pool) : Prop where
  carved : ∀ arena, pool.arena = some arena → Carved layout pool.capacity arena
  null : pool.arena = none → pool = Pool.null
  free : ∃ free, Free layout memory live pool free
  counted : pool.inUse = pool.liveBlocks layout live
  objects : ∀ b ∈ pool.blocks layout, b ∈ live → memory b = .object

section Pools
variable {memory memory' : Memory} {live live' : List Addr} {pool pool' : Pool} {free : List Addr}
  {block : Addr}

theorem blocks_congr (arena : pool'.arena = pool.arena)
    (capacity : pool'.capacity = pool.capacity) :
    pool'.blocks layout = pool.blocks layout := by
  rw [Pool.blocks, Pool.blocks, arena, capacity]

theorem extent_congr (arena : pool'.arena = pool.arena)
    (capacity : pool'.capacity = pool.capacity) :
    pool'.extent layout = pool.extent layout := by
  rw [Pool.extent, Pool.extent, arena, capacity]

/-- Distinct blocks of an arena start at distinct addresses. -/
theorem Carved.start_injective {capacity arena : Nat} (carved : Carved layout capacity arena)
    {i j : Nat} (below : i < capacity) (below' : j < capacity)
    (same : layout.blockStart arena i = layout.blockStart arena j) : i = j := by
  rw [carved.placed i below, carved.placed j below'] at same
  have positive : 0 < layout.blockSize := layout.positive.trans_le carved.roomy.1
  exact Nat.eq_of_mul_eq_mul_right positive (by omega)

theorem Carved.start_mem {capacity arena : Nat} (carved : Carved layout capacity arena) {i : Nat}
    (below : i < capacity) :
    layout.blockStart arena i ∈ Set.Ico arena (arena + layout.arenaBytes capacity) := by
  have ends := carved.inside i below
  have size := layout.positive.trans_le carved.roomy.1
  rw [Nat.add_mul, Nat.one_mul] at ends
  rw [carved.placed i below, Set.mem_Ico]
  omega

namespace Kept

theorem blocks_nodup (kept : Kept layout memory live pool) : (pool.blocks layout).Nodup := by
  rw [Pool.blocks]
  split
  · exact List.nodup_nil
  · rename_i arena is
    refine List.Nodup.map_on ?_ List.nodup_range
    intro i below j below'
    exact (kept.carved arena is).start_injective (List.mem_range.mp below)
      (List.mem_range.mp below')

theorem blocks_length (kept : Kept layout memory live pool) :
    (pool.blocks layout).length = pool.capacity := by
  cases is : pool.arena with
  | none =>
    rw [kept.null is]
    rfl
  | some arena => rw [Pool.blocks, is, List.length_map, List.length_range]

/-- A block lies in the arena. -/
theorem mem_extent (kept : Kept layout memory live pool) (there : block ∈ pool.blocks layout) :
    block ∈ pool.extent layout := by
  rw [Pool.blocks] at there
  split at there
  · cases there
  · rename_i arena is
    obtain ⟨i, below, rfl⟩ := List.mem_map.mp there
    rw [Pool.extent, is]
    exact (kept.carved arena is).start_mem (List.mem_range.mp below)

/-- The assertion of `deallocate` holds of every block. -/
theorem owns (kept : Kept layout memory live pool) (there : block ∈ pool.blocks layout) :
    pool.owns layout block = true := by
  rw [Pool.blocks] at there
  split at there
  · cases there
  · rename_i arena is
    obtain ⟨i, below, rfl⟩ := List.mem_map.mp there
    rw [Pool.owns, is]
    exact ((kept.carved arena is).owned _).mpr ⟨i, List.mem_range.mp below, rfl⟩

/-- Only the pool's own blocks matter. -/
theorem frame (kept : Kept layout memory live pool)
    (same : ∀ b ∈ pool.blocks layout, memory' b = memory b)
    (alike : ∀ b ∈ pool.blocks layout, b ∈ live' ↔ b ∈ live) :
    Kept layout memory' live' pool := by
  obtain ⟨free, chain, exactly⟩ := kept.free
  refine ⟨kept.carved, kept.null, ⟨free, ?_, ?_⟩, ?_, ?_⟩
  · refine chain.congr fun b there => ?_
    rw [link, link, same b ((exactly b).mp there).1]
  · intro b
    rw [exactly]
    exact and_congr_right fun there => not_congr (alike b there).symm
  · rw [kept.counted, Pool.liveBlocks, Pool.liveBlocks]
    refine List.countP_congr fun b there => ?_
    simp only [decide_eq_true_eq]
    exact (alike b there).symm
  · intro b there now
    rw [same b there]
    exact kept.objects b there ((alike b there).mp now)

/-- Free blocks and live ones make up the pool. -/
theorem balance (kept : Kept layout memory live pool) (nodup : free.Nodup)
    (exactly : ∀ b, b ∈ free ↔ b ∈ pool.blocks layout ∧ b ∉ live') :
    free.length + pool.liveBlocks layout live' = pool.capacity := by
  have perm : free.Perm ((pool.blocks layout).filter (· ∉ live')) := by
    rw [List.perm_ext_iff_of_nodup nodup (kept.blocks_nodup.filter _)]
    intro b
    rw [exactly, List.mem_filter, decide_eq_true_eq]
  have split := List.length_eq_countP_add_countP (· ∈ live') (l := pool.blocks layout)
  rw [← kept.blocks_length, split, perm.length_eq, ← List.countP_eq_length_filter, Pool.liveBlocks]
  simp only [decide_not, decide_eq_true_eq]
  omega

/-! ### Calls on one pool -/

/-- What `allocate` does: it throws when the pool is empty or the constructor does, and then
nothing has changed; otherwise it takes the first free block. -/
theorem allocate (kept : Kept layout memory live pool) (throws : Bool) :
    (∃ e, pool.allocate memory throws = some (memory, pool, .threw e) ∧
        (pool.freeHead = none ∧ pool.liveBlocks layout live = pool.capacity ∨ throws = true)) ∨
      throws = false ∧ pool.liveBlocks layout live < pool.capacity ∧
      ∃ b memory' pool', pool.freeHead = some b ∧
        pool.allocate memory throws = some (memory', pool', .object b) ∧
        b ∈ pool.blocks layout ∧ b ∉ live ∧
        pool'.arena = pool.arena ∧ pool'.capacity = pool.capacity ∧
        (∀ a, a ≠ b → memory' a = memory a) ∧ Kept layout memory' (b :: live) pool' := by
  obtain ⟨free, chain, exactly⟩ := kept.free
  have balance := kept.balance chain.nodup exactly
  cases free with
  | nil =>
    have empty : pool.freeHead = none := chain
    rw [List.length_nil] at balance
    exact .inl ⟨.badAlloc, by rw [Pool.allocate, empty], .inl ⟨empty, by omega⟩⟩
  | cons b rest =>
    have nodup := chain.nodup
    obtain ⟨head, next, links, chain'⟩ := chain
    have node := memory_of_link links
    obtain ⟨owned, free⟩ := (exactly b).mp List.mem_cons_self
    rw [List.length_cons] at balance
    cases throws with
    | true =>
      -- the node is written back as it was
      have restored : Function.update memory b (.node next) = memory := by
        rw [← node, Function.update_eq_self]
      refine .inl ⟨.constructor, ?_, .inr rfl⟩
      rw [Pool.allocate, head]
      simp only [node, if_true, Function.update_idem, restored]
    | false =>
      refine .inr ⟨rfl, by omega, b, Function.update memory b .object,
        { pool with freeHead := next, inUse := pool.inUse + 1 }, head, ?_, owned, free, rfl, rfl,
        fun a other => Function.update_of_ne other _ _, ?_⟩
      · rw [Pool.allocate, head]
        simp only [node, Bool.false_eq_true, if_false]
      · have exactly' : ∀ a, a ∈ rest ↔ a ∈ pool.blocks layout ∧ a ∉ b :: live := by
          intro a
          have here := exactly a
          rw [List.mem_cons] at here ⊢
          have apart : a ∈ rest → a ≠ b := by
            rintro there rfl
            exact (List.nodup_cons.mp nodup).1 there
          tauto
        refine ⟨kept.carved, ?_, ⟨rest, ?_, exactly'⟩, ?_, ?_⟩
        · intro none
          rw [kept.null none] at owned
          cases owned
        · refine chain'.congr fun a there => link_update_of_ne _ ?_
          rintro rfl
          exact (List.nodup_cons.mp nodup).1 there
        · have balance' := kept.balance (List.nodup_cons.mp nodup).2 exactly'
          have counted := kept.counted
          change pool.inUse + 1 = pool.liveBlocks layout (b :: live)
          omega
        · intro a there now
          by_cases same : a = b
          · rw [same, Function.update_self]
          · rw [Function.update_of_ne same]
            exact kept.objects a there ((List.mem_cons.mp now).resolve_left same)

/-- What `deallocate` does with a live block of the pool: it becomes the first free one. -/
theorem deallocate (kept : Kept layout memory live pool) (nodup : live.Nodup)
    (owned : block ∈ pool.blocks layout) (now : block ∈ live) :
    ∃ memory' pool', pool.deallocate layout memory (some block) = some (memory', pool') ∧
      pool'.freeHead = some block ∧ pool'.arena = pool.arena ∧ pool'.capacity = pool.capacity ∧
      (∀ a, a ≠ block → memory' a = memory a) ∧
      Kept layout memory' (live.erase block) pool' := by
  obtain ⟨free, chain, exactly⟩ := kept.free
  have absent : block ∉ free := fun there => ((exactly block).mp there).2 now
  have exactly' : ∀ a, a ∈ block :: free ↔ a ∈ pool.blocks layout ∧ a ∉ live.erase block := by
    intro a
    rw [List.mem_cons, exactly, nodup.mem_erase_iff]
    by_cases same : a = block
    · simp [same, owned]
    · simp [same]
  refine ⟨Function.update memory block (.node pool.freeHead),
    { pool with freeHead := some block, inUse := pool.inUse - 1 }, ?_, rfl, rfl, rfl,
    fun a other => Function.update_of_ne other _ _, kept.carved, ?_, ⟨block :: free, ?_, exactly'⟩,
    ?_, ?_⟩
  · rw [Pool.deallocate, if_pos]
    simp [kept.owns owned, kept.objects block owned now]
  · intro none
    rw [kept.null none] at owned
    cases owned
  · exact chain.push absent (link_update_self _) fun a other => link_update_of_ne _ other
  · have balance := kept.balance chain.nodup exactly
    have balance' := kept.balance (List.nodup_cons.mpr ⟨absent, chain.nodup⟩) exactly'
    have counted := kept.counted
    rw [List.length_cons] at balance'
    change pool.inUse - 1 = pool.liveBlocks layout (live.erase block)
    omega
  · intro a there still
    obtain ⟨other, now'⟩ := nodup.mem_erase_iff.mp still
    rw [Function.update_of_ne other]
    exact kept.objects a there now'

end Kept

/-- The loop of `buildFreeList` puts the blocks before the ones that are there already. -/
theorem buildFreeList_spec {arena : Addr} {capacity : Nat} (carved : Carved layout capacity arena) :
    ∀ (i : Nat) (memory : Memory) (head : Option Addr) (nodes : List Addr), i ≤ capacity →
      Chain (link memory) head nodes → (∀ j < i, layout.blockStart arena j ∉ nodes) →
      Chain (link (buildFreeList layout arena i memory head).1)
          (buildFreeList layout arena i memory head).2
          ((List.range i).map (layout.blockStart arena) ++ nodes) ∧
        ∀ a, (∀ j < i, a ≠ layout.blockStart arena j) →
          (buildFreeList layout arena i memory head).1 a = memory a := by
  intro i
  induction i with
  | zero =>
    intro memory head nodes _ chain _
    exact ⟨chain, fun _ _ => rfl⟩
  | succ i ih =>
    intro memory head nodes inside chain new
    have pushed : Chain (link (Function.update memory (layout.blockStart arena i) (.node head)))
        (some (layout.blockStart arena i)) (layout.blockStart arena i :: nodes) :=
      chain.push (new i (by omega)) (link_update_self _) fun a other => link_update_of_ne _ other
    obtain ⟨chain', frame⟩ := ih _ _ _ (by omega) pushed (by
      intro j below there
      rcases List.mem_cons.mp there with same | there
      · have := carved.start_injective (by omega) (by omega) same
        omega
      · exact new j (by omega) there)
    refine ⟨?_, fun a outside => ?_⟩
    · rw [List.range_succ, List.map_append, List.append_assoc]
      exact chain'
    · rw [buildFreeList, frame a fun j below => outside j (by omega),
        Function.update_of_ne (outside i (by omega))]

/-- A new pool in an arena that holds no live object. -/
theorem create_kept {arena : Addr} {capacity : Nat} (carved : Carved layout capacity arena)
    (memory : Memory) (clear : ∀ i < capacity, layout.blockStart arena i ∉ live) :
    Kept layout (create layout capacity arena memory).1 live
        (create layout capacity arena memory).2 ∧
      ∀ a, (∀ i < capacity, a ≠ layout.blockStart arena i) →
        (create layout capacity arena memory).1 a = memory a := by
  obtain ⟨chain, frame⟩ := buildFreeList_spec carved capacity memory none [] le_rfl rfl
    fun _ _ => List.not_mem_nil
  rw [List.append_nil] at chain
  have idle : ∀ b ∈ (create layout capacity arena memory).2.blocks layout, b ∉ live := by
    intro b there
    obtain ⟨i, below, rfl⟩ := List.mem_map.mp there
    exact clear i (List.mem_range.mp below)
  refine ⟨⟨?_, ?_, ⟨_, chain, ?_⟩, ?_, ?_⟩, frame⟩
  · rintro _ ⟨⟩
    exact carved
  · rintro ⟨⟩
  · exact fun b => ⟨fun there => ⟨there, idle b there⟩, fun there => there.1⟩
  · exact (List.countP_eq_zero.mpr fun b there => by simpa using idle b there).symm
  · exact fun b there now => absurd now (idle b there)

theorem kept_null (memory : Memory) (live : List Addr) : Kept layout memory live Pool.null := by
  refine ⟨?_, fun _ => rfl, ⟨[], rfl, ?_⟩, rfl, ?_⟩
  · rintro arena ⟨⟩
  · exact fun b => ⟨fun none => (by cases none), fun none => (by cases none.1)⟩
  · exact fun b none => by cases none

/-- The assertion of `releaseArena` holds of a pool without live objects. -/
theorem Kept.releaseArena (kept : Kept layout memory live pool)
    (idle : ∀ b ∈ live, b ∉ pool.blocks layout) :
    pool.releaseArena = some { pool with arena := none } := by
  have none : pool.inUse = 0 := by
    rw [kept.counted, Pool.liveBlocks, List.countP_eq_zero]
    intro b there now
    exact idle b (of_decide_eq_true now) there
  rw [Pool.releaseArena, if_pos none]

end Pools
end CppDB.PoolAllocator
