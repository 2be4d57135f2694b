import Mathlib

/-! Bounds-checked edits of a growable array, modelled as a list. Every operation
is `none` exactly where the indexed access or the iterator arithmetic leaves the
array. The equations are stated on a list that is already split at the index. -/
namespace Vec

variable {α : Type} {front back : List α} {x y : α} {i : Nat}

/-- Insertion before position `i`; the end position is legal. -/
def insertAt (l : List α) (i : Nat) (x : α) : Option (List α) :=
  if i ≤ l.length then some (l.insertIdx i x) else none

def eraseAt (l : List α) (i : Nat) : Option (List α) :=
  if i < l.length then some (l.eraseIdx i) else none

def setAt (l : List α) (i : Nat) (x : α) : Option (List α) :=
  if i < l.length then some (l.set i x) else none

/-- The two ranges on either side of the iterator at position `i`. -/
def cut (l : List α) (i : Nat) : Option (List α × List α) :=
  if i ≤ l.length then some (l.take i, l.drop i) else none

/-- The last element together with the array it is popped from. -/
def popBack (l : List α) : Option (List α × α) :=
  l.getLast?.map fun x => (l.dropLast, x)

def popFront : List α → Option (α × List α)
  | [] => none
  | x :: l => some (x, l)

theorem getElem?_split (h : front.length = i) : (front ++ x :: back)[i]? = some x := by
  subst h
  simp

theorem getElem?_split_succ (h : front.length = i) :
    (front ++ x :: y :: back)[i + 1]? = some y := by
  subst h
  simp

theorem insertAt_split (h : front.length = i) :
    insertAt (front ++ back) i x = some (front ++ x :: back) := by
  subst h
  have shifted : (front ++ back).insertIdx front.length x = front ++ x :: back := by
    induction front with
    | nil => simp
    | cons y front ih => simpa using ih
  simp [insertAt, shifted]

theorem eraseAt_split (h : front.length = i) :
    eraseAt (front ++ x :: back) i = some (front ++ back) := by
  subst h
  simp [eraseAt, List.eraseIdx_append_of_length_le]

theorem setAt_length {l l' : List α} (sets : setAt l i x = some l') : l'.length = l.length := by
  rw [setAt] at sets
  split at sets
  · cases sets
    exact List.length_set
  · cases sets

theorem setAt_split (h : front.length = i) :
    setAt (front ++ x :: back) i y = some (front ++ y :: back) := by
  subst h
  simp [setAt]

theorem insertAt_split_succ (h : front.length = i) :
    insertAt (front ++ x :: back) (i + 1) y = some (front ++ x :: y :: back) := by
  have split : (front ++ [x]).length = i + 1 := by simp [h]
  have inserts : insertAt (front ++ [x] ++ back) (i + 1) y = some (front ++ [x] ++ y :: back) :=
    insertAt_split split
  simpa using inserts

theorem setAt_split_succ {z : α} (h : front.length = i) :
    setAt (front ++ x :: y :: back) (i + 1) z = some (front ++ x :: z :: back) := by
  have split : (front ++ [x]).length = i + 1 := by simp [h]
  have sets : setAt (front ++ [x] ++ y :: back) (i + 1) z = some (front ++ [x] ++ z :: back) :=
    setAt_split split
  simpa using sets

theorem eraseAt_split_succ (h : front.length = i) :
    eraseAt (front ++ x :: y :: back) (i + 1) = some (front ++ x :: back) := by
  have split : (front ++ [x]).length = i + 1 := by simp [h]
  have erases : eraseAt (front ++ [x] ++ y :: back) (i + 1) = some (front ++ [x] ++ back) :=
    eraseAt_split split
  simpa using erases

theorem cut_split (h : front.length = i) : cut (front ++ back) i = some (front, back) := by
  subst h
  simp [cut]

theorem popBack_split : popBack (front ++ [x]) = some (front, x) := by
  simp [popBack]

/-- Splitting a list around a position that holds an element. -/
theorem exists_split {l : List α} (h : i < l.length) :
    ∃ front x back, l = front ++ x :: back ∧ front.length = i :=
  ⟨l.take i, l[i], l.drop (i + 1), by simp, by simp; omega⟩

theorem exists_cut {l : List α} (h : i ≤ l.length) :
    ∃ front back, l = front ++ back ∧ front.length = i :=
  ⟨l.take i, l.drop i, by simp, by simp; omega⟩

end Vec
