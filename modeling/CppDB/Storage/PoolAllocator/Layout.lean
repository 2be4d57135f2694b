import Mathlib

/-! How `storage/PoolAllocator.hpp` carves one arena into blocks. Sizes are `std::size_t`:
sums and products are modulo `2 ^ 64`, and so are addresses. Nothing in the constructor
looks out for a product that leaves the word. -/
namespace CppDB.PoolAllocator

/-- `sizeof(T)` and `alignof(T)`. -/
structure Layout where
  size : Nat
  align : Nat
  positive : 0 < size
  word : size < 2 ^ 64
  power : ∃ k, align = 2 ^ k
  divides : align ∣ size

/-- `sizeof(FreeNode)` and `alignof(FreeNode)`: a node is one pointer. -/
def nodeSize : Nat := 8

def nodeAlign : Nat := 8

def maxOf (a b : Nat) : Nat := if b < a then a else b

def roundUp (value multiple : Nat) : Nat :=
  (value + multiple - 1) % 2 ^ 64 / multiple * multiple % 2 ^ 64

namespace Layout

/-- `kBlockAlign`. -/
def blockAlign (layout : Layout) : Nat := maxOf layout.align nodeAlign

/-- `kBlockSize`. -/
def blockSize (layout : Layout) : Nat :=
  roundUp (maxOf layout.size nodeSize) layout.blockAlign

/-- The bytes that the constructor asks `operator new` for. -/
def arenaBytes (layout : Layout) (capacity : Nat) : Nat := capacity * layout.blockSize % 2 ^ 64

/-- `arena_ + i * kBlockSize`. -/
def blockStart (layout : Layout) (arena i : Nat) : Nat :=
  (arena + i * layout.blockSize % 2 ^ 64) % 2 ^ 64

/-- `owns`, of a pool with the given arena. -/
def owns (layout : Layout) (arena capacity p : Nat) : Bool :=
  arena ≤ p && p < (arena + layout.arenaBytes capacity) % 2 ^ 64 &&
    (p - arena) % layout.blockSize = 0

/-- What a block would take up if numbers had no end. -/
def exactBlockSize (layout : Layout) : Nat :=
  (max layout.size nodeSize + layout.blockAlign - 1) / layout.blockAlign * layout.blockAlign

end Layout

theorem maxOf_eq (a b : Nat) : maxOf a b = max a b := by
  rw [maxOf]
  split_ifs with larger
  · exact (max_eq_left larger.le).symm
  · exact (max_eq_right (not_lt.mp larger)).symm

/-! ### Rounding -/

section Rounding
variable {value multiple : Nat}

theorem le_ceil (positive : 0 < multiple) :
    value ≤ (value + multiple - 1) / multiple * multiple := by
  have split := Nat.div_add_mod' (value + multiple - 1) multiple
  have small := Nat.mod_lt (value + multiple - 1) positive
  omega

/-- Without a wrap the code rounds as numbers do. -/
theorem roundUp_eq (fits : value + multiple - 1 < 2 ^ 64) :
    roundUp value multiple = (value + multiple - 1) / multiple * multiple := by
  rw [roundUp, Nat.mod_eq_of_lt fits, Nat.mod_eq_of_lt]
  exact (Nat.div_mul_le_self _ _).trans_lt fits

/-- The sum does not wrap if the rounded value fits, for a multiple that divides the word. -/
theorem sum_fits (divides : multiple ∣ 2 ^ 64) (positive : 0 < multiple)
    (fits : (value + multiple - 1) / multiple * multiple < 2 ^ 64) :
    value + multiple - 1 < 2 ^ 64 := by
  obtain ⟨words, word⟩ := divides
  have below : (value + multiple - 1) / multiple < words := by
    rw [word, Nat.mul_comm multiple] at fits
    exact Nat.lt_of_mul_lt_mul_right fits
  have end_le : ((value + multiple - 1) / multiple + 1) * multiple ≤ 2 ^ 64 := by
    rw [word, Nat.mul_comm multiple]
    exact Nat.mul_le_mul_right multiple below
  have split := Nat.div_add_mod' (value + multiple - 1) multiple
  have small := Nat.mod_lt (value + multiple - 1) positive
  rw [Nat.add_mul, Nat.one_mul] at end_le
  omega

/-- A wrapped sum rounds to less than the value. -/
theorem sum_fits_of_le (word : multiple ≤ 2 ^ 64) (below : value < 2 ^ 64)
    (covers : value ≤ roundUp value multiple) : value + multiple - 1 < 2 ^ 64 := by
  by_contra wraps
  have wrapped : (value + multiple - 1) % 2 ^ 64 = value + multiple - 1 - 2 ^ 64 := by
    rw [Nat.mod_eq_sub_mod (by omega), Nat.mod_eq_of_lt (by omega)]
  have rounded : roundUp value multiple ≤ value + multiple - 1 - 2 ^ 64 := by
    rw [roundUp, wrapped]
    exact (Nat.mod_le _ _).trans (Nat.div_mul_le_self _ _)
  omega

end Rounding

namespace Layout

variable (layout : Layout)

theorem align_le : layout.align ≤ layout.size := Nat.le_of_dvd layout.positive layout.divides

/-- Both alignments and the word are multiples of one another. -/
theorem blockAlign_spec : layout.align ∣ layout.blockAlign ∧ nodeAlign ∣ layout.blockAlign ∧
    layout.blockAlign ∣ 2 ^ 64 ∧ 0 < layout.blockAlign := by
  obtain ⟨k, power⟩ := layout.power
  have small : k < 64 := by
    have below : 2 ^ k < 2 ^ 64 := power ▸ layout.align_le.trans_lt layout.word
    exact (Nat.pow_lt_pow_iff_right one_lt_two).mp below
  have node : nodeAlign = 2 ^ 3 := rfl
  have pair : layout.blockAlign = 2 ^ max k 3 := by
    rw [blockAlign, maxOf_eq, power, node]
    exact ((pow_right_mono₀ one_le_two).map_max).symm
  rw [pair, power, node]
  exact ⟨Nat.pow_dvd_pow 2 (le_max_left k 3), Nat.pow_dvd_pow 2 (le_max_right k 3),
    Nat.pow_dvd_pow 2 (by omega), Nat.two_pow_pos _⟩

theorem dvd_exactBlockSize : layout.blockAlign ∣ layout.exactBlockSize := Nat.dvd_mul_left _ _

theorem le_exactBlockSize : max layout.size nodeSize ≤ layout.exactBlockSize :=
  le_ceil layout.blockAlign_spec.2.2.2

theorem blockSize_eq (fits : layout.exactBlockSize < 2 ^ 64) :
    layout.blockSize = layout.exactBlockSize := by
  obtain ⟨-, -, word, positive⟩ := layout.blockAlign_spec
  rw [blockSize, maxOf_eq]
  exact roundUp_eq (sum_fits word positive fits)

theorem blockSize_eq_of_covers (covers : max layout.size nodeSize ≤ layout.blockSize) :
    layout.blockSize = layout.exactBlockSize := by
  obtain ⟨-, -, word, positive⟩ := layout.blockAlign_spec
  rw [blockSize, maxOf_eq] at covers ⊢
  refine roundUp_eq (sum_fits_of_le (Nat.le_of_dvd (Nat.two_pow_pos 64) word) ?_ covers)
  exact max_lt layout.word (by norm_num [nodeSize])

end Layout

/-- `operator new` returned this address for the bytes it was asked for: it is aligned, is
not null, and the arena and the address behind it are below the end of the word. -/
structure Allocated (layout : Layout) (capacity arena : Nat) : Prop where
  aligned : layout.blockAlign ∣ arena
  nonnull : 0 < arena
  bounded : arena + layout.arenaBytes capacity < 2 ^ 64

/-- The blocks of an arena lie one behind the other inside it, fit an object and a node, are
aligned for both, and `owns` knows their starts. -/
structure Carved (layout : Layout) (capacity arena : Nat) : Prop where
  placed : ∀ i < capacity, layout.blockStart arena i = arena + i * layout.blockSize
  inside : ∀ i < capacity, (i + 1) * layout.blockSize ≤ layout.arenaBytes capacity
  disjoint : ∀ i < capacity, ∀ j < capacity, i ≠ j →
    Disjoint (Set.Ico (i * layout.blockSize) ((i + 1) * layout.blockSize))
      (Set.Ico (j * layout.blockSize) ((j + 1) * layout.blockSize))
  roomy : layout.size ≤ layout.blockSize ∧ nodeSize ≤ layout.blockSize
  aligned : ∀ i < capacity,
    layout.align ∣ layout.blockStart arena i ∧ nodeAlign ∣ layout.blockStart arena i
  owned : ∀ p, layout.owns arena capacity p = true ↔ ∃ i < capacity, p = layout.blockStart arena i

section Carving
variable {layout : Layout} {capacity arena : Nat}

/-- Blocks of one size that follow each other do not meet. -/
theorem disjoint_blocks (size : Nat) {i j : Nat} (apart : i ≠ j) :
    Disjoint (Set.Ico (i * size) ((i + 1) * size)) (Set.Ico (j * size) ((j + 1) * size)) := by
  rw [Set.Ico_disjoint_Ico]
  rcases Nat.lt_or_gt_of_ne apart with before | after
  · exact (min_le_left _ _).trans ((Nat.mul_le_mul_right size before).trans (le_max_right _ _))
  · exact (min_le_right _ _).trans ((Nat.mul_le_mul_right size after).trans (le_max_left _ _))

section Exact
variable (bytes : layout.arenaBytes capacity = capacity * layout.blockSize)
  (bounded : arena + layout.arenaBytes capacity < 2 ^ 64)
include bytes

theorem end_le_arenaBytes {i : Nat} (below : i < capacity) :
    (i + 1) * layout.blockSize ≤ layout.arenaBytes capacity := by
  rw [bytes]
  exact Nat.mul_le_mul_right _ below

include bounded

/-- No start of a block wraps in an arena of the bytes its blocks take up. -/
theorem blockStart_eq {i : Nat} (below : i < capacity) :
    layout.blockStart arena i = arena + i * layout.blockSize := by
  have ends := end_le_arenaBytes bytes below
  rw [Nat.add_mul, Nat.one_mul] at ends
  rw [Layout.blockStart, Nat.mod_eq_of_lt (by omega), Nat.mod_eq_of_lt (by omega)]

theorem owns_iff (positive : 0 < layout.blockSize) (p : Nat) :
    layout.owns arena capacity p = true ↔ ∃ i < capacity, p = layout.blockStart arena i := by
  rw [Layout.owns, Nat.mod_eq_of_lt bounded]
  simp only [Bool.and_eq_true, decide_eq_true_eq]
  constructor
  · rintro ⟨⟨after, before⟩, multiple⟩
    obtain ⟨i, offset⟩ := Nat.dvd_of_mod_eq_zero multiple
    have below : i < capacity := by
      rw [bytes] at before
      by_contra beyond
      have := Nat.mul_le_mul_right layout.blockSize (not_lt.mp beyond)
      rw [Nat.mul_comm i] at this
      omega
    refine ⟨i, below, ?_⟩
    rw [blockStart_eq bytes bounded below, Nat.mul_comm i, ← offset]
    omega
  · rintro ⟨i, below, rfl⟩
    have ends := end_le_arenaBytes bytes below
    rw [Nat.add_mul, Nat.one_mul] at ends
    rw [blockStart_eq bytes bounded below, Nat.add_sub_cancel_left, Nat.mul_mod_left]
    exact ⟨⟨by omega, by omega⟩, rfl⟩

end Exact

theorem carved_of_fits (positive : 0 < capacity) (allocated : Allocated layout capacity arena)
    (fits : capacity * layout.exactBlockSize < 2 ^ 64) : Carved layout capacity arena := by
  have exactly : layout.blockSize = layout.exactBlockSize :=
    layout.blockSize_eq ((Nat.le_mul_of_pos_left _ positive).trans_lt fits)
  have bytes : layout.arenaBytes capacity = capacity * layout.blockSize := by
    rw [Layout.arenaBytes, exactly, Nat.mod_eq_of_lt fits]
  have roomy : layout.size ≤ layout.blockSize ∧ nodeSize ≤ layout.blockSize :=
    exactly ▸ max_le_iff.mp layout.le_exactBlockSize
  obtain ⟨object, node, -, -⟩ := layout.blockAlign_spec
  have aligned : ∀ i < capacity, layout.blockAlign ∣ layout.blockStart arena i := by
    intro i below
    rw [blockStart_eq bytes allocated.bounded below, exactly]
    exact allocated.aligned.add (layout.dvd_exactBlockSize.mul_left i)
  constructor
  · exact fun i below => blockStart_eq bytes allocated.bounded below
  · exact fun i below => end_le_arenaBytes bytes below
  · exact fun i _ j _ apart => disjoint_blocks _ apart
  · exact roomy
  · exact fun i below => ⟨object.trans (aligned i below), node.trans (aligned i below)⟩
  · exact owns_iff bytes allocated.bounded (layout.positive.trans_le roomy.1)

/-- The carving is right exactly for the capacities whose blocks together fit the word. -/
theorem arena_carved_iff (positive : 0 < capacity) (allocated : Allocated layout capacity arena) :
    Carved layout capacity arena ↔ capacity * layout.exactBlockSize < 2 ^ 64 := by
  constructor
  · intro carved
    have covers : max layout.size nodeSize ≤ layout.blockSize :=
      max_le carved.roomy.1 carved.roomy.2
    rw [← layout.blockSize_eq_of_covers covers]
    have last := carved.inside (capacity - 1) (by omega)
    rw [Nat.sub_add_cancel positive] at last
    exact last.trans_lt (Nat.mod_lt _ (Nat.two_pow_pos 64))
  · exact carved_of_fits positive allocated

end Carving

/-- An object of the size of a pointer. -/
def wordLayout : Layout := ⟨8, 8, by omega, by omega, ⟨3, rfl⟩, dvd_rfl⟩

theorem arena_carved_iff_small : Allocated wordLayout 4 4096 ∧ Carved wordLayout 4 4096 := by
  have allocated : Allocated wordLayout 4 4096 := by
    constructor
    · exact ⟨512, rfl⟩
    · omega
    · rw [show wordLayout.arenaBytes 4 = 32 from rfl]
      omega
  refine ⟨allocated, (arena_carved_iff (by omega) allocated).mpr ?_⟩
  rw [show wordLayout.exactBlockSize = 8 from rfl]
  omega

/-- A capacity of `2 ^ 61` words asks for no bytes at all, and gets them; yet the first block
takes up eight. -/
theorem arena_size_wraps :
    Allocated wordLayout (2 ^ 61) 4096 ∧ wordLayout.arenaBytes (2 ^ 61) = 0 ∧
      wordLayout.blockSize = 8 ∧ ¬Carved wordLayout (2 ^ 61) 4096 := by
  have size : wordLayout.blockSize = 8 := rfl
  have bytes : wordLayout.arenaBytes (2 ^ 61) = 0 := by
    rw [Layout.arenaBytes, size]
    norm_num
  refine ⟨⟨⟨512, rfl⟩, by omega, by rw [bytes]; omega⟩, bytes, size, fun carved => ?_⟩
  have first := carved.inside 0 (Nat.two_pow_pos 61)
  rw [bytes, size] at first
  omega

end CppDB.PoolAllocator
