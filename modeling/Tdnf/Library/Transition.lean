import Mathlib.Logic.Relation

/-!
# Guarded runs of a step function

A step function says what an action does in a state, or that it is not enabled.
A run is guarded when every action meets a condition on the state before it. An
invariant that every guarded step keeps holds in every state a guarded run
reaches.
-/

namespace Tdnf.Transition

variable {S A : Type*} {step : S → A → Option S} {guard : S → A → Prop} {s s' : S}

/-- One enabled action that meets the guard. -/
def GuardedStep (step : S → A → Option S) (guard : S → A → Prop) (s s' : S) : Prop :=
  ∃ a, guard s a ∧ step s a = some s'

/-- A run whose actions all meet the guard. -/
def Reaches (step : S → A → Option S) (guard : S → A → Prop) : S → S → Prop :=
  Relation.ReflTransGen (GuardedStep step guard)

/-- The guard of runs without a condition. -/
def anyAction (_ : S) (_ : A) : Prop := True

instance (s : S) (a : A) : Decidable (anyAction s a) := inferInstanceAs (Decidable True)

/-- What every guarded step keeps holds at the end of every guarded run. -/
theorem Reaches.invariant {inv : S → Prop} (h : Reaches step guard s s') (hstart : inv s)
    (hstep : ∀ s₁ a s₂, inv s₁ → guard s₁ a → step s₁ a = some s₂ → inv s₂) : inv s' := by
  induction h with
  | refl => exact hstart
  | tail _ hlast ih =>
      obtain ⟨a, hguard, ha⟩ := hlast
      exact hstep _ a _ ih hguard ha

/-- The step function that also refuses an action outside the guard. -/
def checkedStep (step : S → A → Option S) (guard : S → A → Prop)
    [∀ s a, Decidable (guard s a)] (s : S) (a : A) : Option S :=
  if guard s a then step s a else none

/-- A list of actions that are all enabled and meet the guard is a run. -/
theorem reaches_of_foldlM [∀ s a, Decidable (guard s a)] (actions : List A)
    (h : actions.foldlM (checkedStep step guard) s = some s') : Reaches step guard s s' := by
  induction actions generalizing s with
  | nil =>
      obtain rfl : s = s' := by simpa using h
      exact Relation.ReflTransGen.refl
  | cons a rest ih =>
      rw [List.foldlM_cons] at h
      obtain ⟨s₁, ha, hrest⟩ := Option.bind_eq_some_iff.mp h
      obtain ⟨hguard, hstep⟩ := Option.ite_none_right_eq_some.mp ha
      exact Relation.ReflTransGen.head ⟨a, hguard, hstep⟩ (ih hrest)

end Tdnf.Transition
