import Mathlib

/-! A stream cut at a separator: the pieces that end with one, and what is left behind the
last. -/
namespace Lines

variable {α : Type} [DecidableEq α] (sep : α)

/-- The pieces a separator ends. -/
def pieces (stream : List α) : List (List α) := (stream.splitOn sep).dropLast

/-- What is behind the last separator. -/
def remainder (stream : List α) : List α := (stream.splitOn sep).getLastD []

/-- Nothing is left behind the last separator. -/
def Ended (stream : List α) : Prop := stream = [] ∨ ∃ front, stream = front ++ [sep]

variable {sep} {stream piece front back : List α}

theorem pieces_append_cons (front back : List α) :
    pieces sep (front ++ sep :: back) = front.splitOn sep ++ pieces sep back := by
  rw [pieces, pieces, List.splitOn_append_cons_self, List.dropLast_append_of_ne_nil]
  exact List.splitOn_ne_nil _ _

theorem remainder_append_cons (front back : List α) :
    remainder sep (front ++ sep :: back) = remainder sep back := by
  have nonempty := List.splitOn_ne_nil sep back
  rw [remainder, remainder, List.splitOn_append_cons_self, List.getLastD_eq_getLast?,
    List.getLastD_eq_getLast?, List.getLast?_append_of_ne_nil _ nonempty]

theorem pieces_of_notMem (whole : sep ∉ stream) : pieces sep stream = [] := by
  rw [pieces, List.splitOn_eq_singleton whole]
  rfl

theorem remainder_of_notMem (whole : sep ∉ stream) : remainder sep stream = stream := by
  rw [remainder, List.splitOn_eq_singleton whole]
  rfl

/-- The first piece. -/
theorem pieces_cons (whole : sep ∉ piece) (back : List α) :
    pieces sep (piece ++ sep :: back) = piece :: pieces sep back := by
  rw [pieces_append_cons, List.splitOn_eq_singleton whole]
  rfl

theorem pieces_append (ended : Ended sep front) (back : List α) :
    pieces sep (front ++ back) = pieces sep front ++ pieces sep back := by
  obtain rfl | ⟨front, rfl⟩ := ended
  · rw [List.nil_append, pieces_of_notMem List.not_mem_nil, List.nil_append]
  · rw [List.append_assoc, List.singleton_append, pieces_append_cons, pieces_append_cons,
      pieces_of_notMem List.not_mem_nil, List.append_nil]

theorem remainder_append (ended : Ended sep front) (back : List α) :
    remainder sep (front ++ back) = remainder sep back := by
  obtain rfl | ⟨front, rfl⟩ := ended
  · rfl
  · rw [List.append_assoc, List.singleton_append, remainder_append_cons]

omit [DecidableEq α] in
theorem Ended.snoc (front piece : List α) : Ended sep (front ++ (piece ++ [sep])) :=
  .inr ⟨front ++ piece, (List.append_assoc ..).symm⟩

theorem Ended.remainder (ended : Ended sep stream) : remainder sep stream = [] := by
  have rest := remainder_append ended []
  rwa [List.append_nil, remainder_of_notMem List.not_mem_nil] at rest

variable (sep) in
omit [DecidableEq α] in
/-- Cut the first piece off until no separator is left. -/
theorem induction {motive : List α → Prop} (whole : ∀ stream, sep ∉ stream → motive stream)
    (cut : ∀ piece back, sep ∉ piece → motive back → motive (piece ++ sep :: back))
    (stream : List α) : motive stream := by
  induction length : stream.length using Nat.strong_induction_on generalizing stream with
  | _ n ih =>
    by_cases there : sep ∈ stream
    · obtain ⟨piece, back, rfl, first⟩ := List.eq_append_cons_of_mem there
      refine cut piece back first (ih back.length ?_ back rfl)
      rw [← length, List.length_append, List.length_cons]
      omega
    · exact whole stream there

variable (sep) in
/-- Nothing of a stream is lost. -/
theorem flatten_pieces (stream : List α) :
    (pieces sep stream).flatMap (· ++ [sep]) ++ remainder sep stream = stream := by
  induction stream using induction sep with
  | whole stream whole => rw [pieces_of_notMem whole, remainder_of_notMem whole]; rfl
  | cut piece back whole ih =>
    rw [pieces_cons whole, remainder_append_cons, List.flatMap_cons, List.append_assoc, ih,
      List.append_assoc, List.singleton_append]

theorem notMem_of_mem_pieces (there : piece ∈ pieces sep stream) : sep ∉ piece := by
  induction stream using induction sep with
  | whole stream whole =>
    rw [pieces_of_notMem whole] at there
    exact absurd there List.not_mem_nil
  | cut first back whole ih =>
    rw [pieces_cons whole] at there
    obtain rfl | there := List.mem_cons.mp there
    · exact whole
    · exact ih there

/-- Lines with a separator behind each, and one without. -/
theorem splitOn_lines {lines : List (List α)} {last : List α} (all : ∀ line ∈ lines, sep ∉ line)
    (whole : sep ∉ last) : (lines.flatMap (· ++ [sep]) ++ last).splitOn sep = lines ++ [last] := by
  induction lines with
  | nil => exact List.splitOn_eq_singleton whole
  | cons line lines ih =>
    obtain ⟨first, others⟩ := List.forall_mem_cons.mp all
    rw [List.flatMap_cons, List.append_assoc, List.append_assoc, List.singleton_append,
      List.splitOn_append_cons_self, List.splitOn_eq_singleton first, ih others]
    rfl

section Blocks

variable {β : Type} {stop : β → Prop}

/-- The last element stops the block, and none before it. -/
def Block (stop : β → Prop) (block : List β) : Prop :=
  ∃ front last, block = front ++ [last] ∧ (∀ b ∈ front, ¬ stop b) ∧ stop last

/-- The first block is where the first element is that stops. -/
theorem Block.append_inj {block block' rest rest' : List β} (is : Block stop block)
    (is' : Block stop block') (same : block ++ rest = block' ++ rest') :
    block = block' ∧ rest = rest' := by
  obtain ⟨front, last, rfl, goes, stops⟩ := is
  obtain ⟨front', last', rfl, goes', stops'⟩ := is'
  rw [List.append_assoc, List.append_assoc, List.singleton_append, List.singleton_append] at same
  induction front generalizing front' with
  | nil =>
    cases front' with
    | nil =>
      obtain ⟨rfl, rfl⟩ := List.cons.inj same
      exact ⟨rfl, rfl⟩
    | cons b front' =>
      obtain ⟨rfl, -⟩ := List.cons.inj same
      exact absurd stops (goes' last List.mem_cons_self)
  | cons b front ih =>
    cases front' with
    | nil =>
      obtain ⟨rfl, -⟩ := List.cons.inj same
      exact absurd stops' (goes b List.mem_cons_self)
    | cons b' front' =>
      obtain ⟨rfl, behind⟩ := List.cons.inj same
      have later : ∀ b ∈ front, ¬ stop b := fun b there => goes b (List.mem_cons_of_mem _ there)
      have later' : ∀ b ∈ front', ¬ stop b := fun b there => goes' b (List.mem_cons_of_mem _ there)
      obtain ⟨heads, rests⟩ := ih later front' behind later'
      exact ⟨congrArg (b :: ·) heads, rests⟩

/-- The blocks from one on that has begun. What is behind the last element that stops is not
a block yet. -/
def blocksFrom (stops : β → Bool) (front : List β) : List β → List (List β)
  | [] => []
  | b :: rest =>
    if stops b then (front ++ [b]) :: blocksFrom stops [] rest
    else blocksFrom stops (front ++ [b]) rest

def blocks (stops : β → Bool) : List β → List (List β) := blocksFrom stops []

variable {stops : β → Bool}

theorem blocksFrom_append {more : List β} (goes : ∀ b ∈ more, stops b = false) {last : β}
    (ends : stops last = true) (front rest : List β) :
    blocksFrom stops front (more ++ last :: rest) =
      (front ++ (more ++ [last])) :: blocks stops rest := by
  induction more generalizing front with
  | nil => simp [blocksFrom, blocks, ends]
  | cons b more ih =>
    rw [List.forall_mem_cons] at goes
    simp [blocksFrom, goes.1, ih goes.2]

/-- Blocks that stand one behind the other are cut apart again. -/
theorem blocks_flatten {all : List (List β)} (are : ∀ block ∈ all, Block (stops ·) block) :
    blocks stops all.flatten = all := by
  induction all with
  | nil => rfl
  | cons block others ih =>
    obtain ⟨⟨front, last, rfl, goes, ends⟩, behind⟩ := List.forall_mem_cons.mp are
    rw [List.flatten_cons, List.append_assoc, List.singleton_append, blocks,
      blocksFrom_append (fun b there => Bool.eq_false_iff.mpr (goes b there)) ends, ih behind]
    rfl

/-- What comes later changes no block. -/
theorem blocksFrom_mono (front bs more : List β) :
    blocksFrom stops front bs <+: blocksFrom stops front (bs ++ more) := by
  induction bs generalizing front with
  | nil => exact List.nil_prefix
  | cons b bs ih =>
    rw [List.cons_append, blocksFrom, blocksFrom]
    split
    · exact (List.prefix_cons_inj _).mpr (ih [])
    · exact ih _

end Blocks

theorem pieces_mono (early : front <+: stream) : pieces sep front <+: pieces sep stream := by
  obtain ⟨more, rfl⟩ := early
  induction front using induction sep with
  | whole front whole =>
    rw [pieces_of_notMem whole]
    exact List.nil_prefix
  | cut piece back whole ih =>
    rw [List.append_assoc, List.cons_append, pieces_cons whole, pieces_cons whole]
    exact (List.prefix_cons_inj _).mpr ih

/-- A stream of texts with a separator behind each has the pieces of the texts. -/
theorem pieces_flatMap (texts : List (List α)) :
    pieces sep (texts.flatMap (· ++ [sep])) = (texts.map (List.splitOn sep)).flatten := by
  induction texts with
  | nil => exact pieces_of_notMem List.not_mem_nil
  | cons text texts ih =>
    rw [List.flatMap_cons, List.append_assoc, List.singleton_append, pieces_append_cons, ih,
      List.map_cons, List.flatten_cons]

end Lines
