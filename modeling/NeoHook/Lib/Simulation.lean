import Mathlib.Logic.Relation

/-!
# Forward simulations

A step relation simulates another one when each step of the other, from related states, is matched
by one or more of its own.  Whole runs are matched then.
-/

open Relation

variable {S T : Type*} {step : S → S → Prop} {step' : T → T → Prop} {rel : S → T → Prop}

/-- Every step from related states is matched by steps that lead to related states. -/
def Simulates (step : S → S → Prop) (step' : T → T → Prop) (rel : S → T → Prop) : Prop :=
  ∀ ⦃s s' t⦄, rel s t → step s s' → ∃ t', TransGen step' t t' ∧ rel s' t'

namespace Simulates

/-- A whole run is matched. -/
theorem run (sim : Simulates step step' rel) {s s' : S} {t : T} (related : rel s t)
    (path : ReflTransGen step s s') : ∃ t', ReflTransGen step' t t' ∧ rel s' t' := by
  induction path with
  | refl => exact ⟨t, .refl, related⟩
  | tail _ last ih =>
    obtain ⟨t₁, before, related⟩ := ih
    obtain ⟨t', after, related⟩ := sim related last
    exact ⟨t', before.trans after.to_reflTransGen, related⟩

end Simulates
