import Mathlib

/-! How many members of a crowd stand at a place, kept up while one after the other moves. -/
namespace Census

variable {T P : Type}

/-- After one member has moved: it stands there, or somebody else does who stood there. -/
theorem stands_cases [DecidableEq T] {place : T → P} {t u : T} {q r : P}
    (stands : Function.update place t q u = r) : u = t ∧ q = r ∨ u ≠ t ∧ place u = r := by
  by_cases is : u = t
  · subst is
    exact .inl ⟨rfl, (Function.update_self _ _ _).symm.trans stands⟩
  · exact .inr ⟨is, (Function.update_of_ne is _ _).symm.trans stands⟩

/-- Exactly `n` members stand where `p` says. -/
structure Counts (place : T → P) (p : P → Bool) (n : Int) : Prop where
  finite : {t | p (place t) = true}.Finite
  card : ({t | p (place t) = true}.ncard : Int) = n

namespace Counts

variable {place : T → P} {p : P → Bool} {n : Int}

theorem nobody (nowhere : ∀ t, p (place t) = false) : Counts place p 0 := by
  have empty : {t | p (place t) = true} = ∅ := by simp [nowhere]
  constructor
  · rw [empty]
    exact Set.finite_empty
  · rw [empty, Set.ncard_empty, Nat.cast_zero]

theorem absent (counts : Counts place p n) (zero : n = 0) (t : T) : p (place t) = false := by
  have empty : {t | p (place t) = true}.ncard = 0 := by
    have card := counts.card
    omega
  rw [Set.ncard_eq_zero counts.finite] at empty
  have outside : t ∉ {t | p (place t) = true} := empty ▸ Set.notMem_empty t
  simpa using outside

theorem eq_of_one (counts : Counts place p n) (one : n = 1) {t u : T} (here : p (place t) = true)
    (there : p (place u) = true) : t = u := by
  have single : {t | p (place t) = true}.ncard = 1 := by
    have card := counts.card
    omega
  obtain ⟨only, is⟩ := Set.ncard_eq_one.mp single
  have first : t ∈ {t | p (place t) = true} := here
  have second : u ∈ {t | p (place t) = true} := there
  rw [is] at first second
  exact Eq.trans first (Eq.symm second)

theorem exists_of_pos (counts : Counts place p n) (positive : 0 < n) :
    ∃ t, p (place t) = true := by
  have nonempty : {t | p (place t) = true}.ncard ≠ 0 := by
    have card := counts.card
    omega
  exact Set.nonempty_of_ncard_ne_zero nonempty

variable [DecidableEq T]

/-- One member moves. -/
theorem move (counts : Counts place p n) (t : T) (q : P) :
    Counts (Function.update place t q) p (n - (p (place t)).toInt + (p q).toInt) := by
  have left : ({t | p (place t) = true} \ {t}).ncard + (p (place t)).toNat =
      {t | p (place t) = true}.ncard := by
    cases stood : p (place t) with
    | false => rw [Set.sdiff_singleton_eq_self (by simp [stood]), Bool.toNat_false, Nat.add_zero]
    | true => exact Set.ncard_sdiff_singleton_add_one stood counts.finite
  have now : {u | p (Function.update place t q u) = true} =
      if p q then insert t ({t | p (place t) = true} \ {t}) else {t | p (place t) = true} \ {t} := by
    ext u
    by_cases same : u = t
    · subst same
      cases goes : p q <;> simp [goes]
    · cases p q <;> simp [same]
  have rest : ({t | p (place t) = true} \ {t}).Finite := counts.finite.sdiff
  have card := counts.card
  constructor
  · rw [now]
    split
    · exact rest.insert t
    · exact rest
  · rw [now, ← card, ← left]
    cases p q with
    | false => cases p (place t) <;> simp
    | true =>
      rw [if_pos rfl, Set.ncard_insert_of_notMem (by simp) rest]
      cases p (place t) <;> simp

end Counts

/-- What the members carry altogether, before and after one of them moves. -/
theorem sum_move {M : Type} [AddCommMonoid M] [Fintype T] [DecidableEq T] (carried : P → M)
    (place : T → P) (t : T) (q : P) :
    ∑ u, carried (Function.update place t q u) + carried (place t) =
      ∑ u, carried (place u) + carried q := by
  have here := Finset.mem_univ t
  have others : ∑ u ∈ Finset.univ.erase t, carried (Function.update place t q u) =
      ∑ u ∈ Finset.univ.erase t, carried (place u) := by
    apply Finset.sum_congr rfl
    intro u there
    rw [Function.update_of_ne (Finset.ne_of_mem_erase there)]
  rw [← Finset.add_sum_erase _ _ here, ← Finset.add_sum_erase _ (fun u => carried (place u)) here,
    Function.update_self, others]
  abel

/-- The log has every key whose entry reads `mark`, once. -/
structure Lists {K D : Type} (mark : D) (log : List K) (entry : K → D) : Prop where
  nodup : log.Nodup
  mem_iff : ∀ k, k ∈ log ↔ entry k = mark

namespace Lists

variable {K D : Type} [DecidableEq K] {mark d : D} {log : List K} {entry : K → D} {k : K}

theorem set (lists : Lists mark log entry) (before : entry k ≠ mark) (after : d ≠ mark) :
    Lists mark log (Function.update entry k d) where
  nodup := lists.nodup
  mem_iff k' := by
    rw [lists.mem_iff]
    by_cases is : k' = k
    · subst is
      simp [before, after]
    · rw [Function.update_of_ne is]

theorem add (lists : Lists mark log entry) (before : entry k ≠ mark) :
    Lists mark (log ++ [k]) (Function.update entry k mark) where
  nodup := by
    apply List.nodup_append.mpr ⟨lists.nodup, List.nodup_singleton k, ?_⟩
    rintro k₁ there k₂ last rfl
    obtain rfl : k₁ = k := List.mem_singleton.mp last
    exact before ((lists.mem_iff k₁).mp there)
  mem_iff k' := by
    rw [List.mem_append, lists.mem_iff]
    by_cases is : k' = k
    · subst is
      simp
    · simp [is]

end Lists

end Census
