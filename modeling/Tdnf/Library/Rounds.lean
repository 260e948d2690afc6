import Mathlib.Data.Nat.Notation
import Mathlib.Logic.Relation

/-!
# Loops by rounds

A round of a loop goes on with another state or ends with a result. A loop may
go on forever; what holds of one that ends is shown for the runs of some length.
-/

namespace Rounds

variable {σ ρ : Type} {round : σ → σ ⊕ ρ} {s s' : σ} {r r' : ρ}

/-- The result of a loop, if it ends within a number of rounds. -/
def runFor (round : σ → σ ⊕ ρ) : ℕ → σ → Option ρ
  | 0, _ => none
  | n + 1, s =>
    match round s with
    | .inl s' => runFor round n s'
    | .inr r => some r

/-- The loop ends with a result. -/
def Ends (round : σ → σ ⊕ ρ) (s : σ) (r : ρ) : Prop := ∃ n, runFor round n s = some r

/-- The loop passes from a state to another. -/
def Leads (round : σ → σ ⊕ ρ) : σ → σ → Prop :=
  Relation.ReflTransGen fun s s' => round s = .inl s'

theorem ends_iff_of_inr (h : round s = .inr r) : Ends round s r' ↔ r' = r := by
  constructor
  · rintro ⟨n, hn⟩
    cases n with
    | zero => cases hn
    | succ n =>
        rw [runFor, h] at hn
        exact (Option.some.inj hn).symm
  · rintro rfl
    exact ⟨1, by rw [runFor, h]⟩

theorem ends_iff_of_inl (h : round s = .inl s') : Ends round s r ↔ Ends round s' r := by
  constructor
  · rintro ⟨n, hn⟩
    cases n with
    | zero => cases hn
    | succ n =>
        rw [runFor, h] at hn
        exact ⟨n, hn⟩
  · rintro ⟨n, hn⟩
    refine ⟨n + 1, ?_⟩
    rw [runFor, h]
    exact hn

theorem Ends.unique (h : Ends round s r) (h' : Ends round s r') : r = r' := by
  obtain ⟨n, hn⟩ := h
  induction n generalizing s with
  | zero => cases hn
  | succ n ih =>
      rw [runFor] at hn
      cases hround : round s with
      | inl t =>
          rw [hround] at hn
          exact ih ((ends_iff_of_inl hround).mp h') hn
      | inr t =>
          rw [hround] at hn
          rw [(ends_iff_of_inr hround).mp h']
          exact (Option.some.inj hn).symm

/-- What a loop ends with is what it ends with from any state that it passes. -/
theorem Leads.ends_iff (h : Leads round s s') : Ends round s r ↔ Ends round s' r := by
  induction h with
  | refl => rfl
  | tail _ hlast ih => rw [ih, ends_iff_of_inl hlast]

/-- A loop that comes back to its state at once goes on forever. -/
theorem not_ends_of_fixed (h : round s = .inl s) : ¬ Ends round s r := by
  rintro ⟨n, hn⟩
  induction n with
  | zero => cases hn
  | succ n ih =>
      rw [runFor, h] at hn
      exact ih hn

/-- While a condition holds and a measure gets smaller, the loop gets to a state that it aims
at. -/
theorem leads_of_variant {P Q : σ → Prop} (measure : σ → ℕ)
    (hround : ∀ s, P s → Q s ∨ ∃ s', round s = .inl s' ∧ P s' ∧ measure s' < measure s)
    (h : P s) : ∃ s', Leads round s s' ∧ Q s' := by
  induction hn : measure s using Nat.strongRecOn generalizing s with
  | _ n ih =>
      rcases hround s h with hQ | ⟨s', hnext, hP, hless⟩
      · exact ⟨s, .refl, hQ⟩
      · obtain ⟨t, hleads, hQ⟩ := ih (measure s') (hn ▸ hless) hP rfl
        exact ⟨t, .head hnext hleads, hQ⟩

end Rounds
