import Mathlib

/-! Who owns whom, without cycles. A part may be hung under an owner that is not in it. -/
namespace Forest

open Relation

variable {A : Type} {owns : A → A → Prop} {a b owner part : A}

/-- The part gets this owner. -/
def hang (owns : A → A → Prop) (owner part : A) : A → A → Prop :=
  fun b a => owns b a ∨ b = owner ∧ a = part

theorem not_reaches_owner (forest : WellFounded owns) (edge : owns b a) :
    ¬ ReflTransGen owns a b := by
  intro back
  exact forest.transGen.irrefl.irrefl a (.tail' back edge)

theorem wellFounded_hang (forest : WellFounded owns) (apart : ¬ ReflTransGen owns part owner) :
    WellFounded (hang owns owner part) := by
  -- whoever is not in the part has the owners it had
  have outside (a : A) (free : ¬ ReflTransGen owns part a) : Acc (hang owns owner part) a := by
    induction a using forest.induction with
    | _ a ih =>
      refine .intro a fun b edge => ?_
      obtain old | ⟨rfl, rfl⟩ := edge
      · exact ih b old fun reaches => free (reaches.tail old)
      · exact absurd .refl free
  refine ⟨fun a => ?_⟩
  induction a using forest.induction with
  | _ a ih =>
    refine .intro a fun b edge => ?_
    obtain old | ⟨rfl, rfl⟩ := edge
    · exact ih b old
    · exact outside b apart

end Forest
