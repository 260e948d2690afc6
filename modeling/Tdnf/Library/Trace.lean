import Mathlib.Data.List.Basic

/-!
# Traces whose events are licensed

A trace lists events in the order in which they happened. An event is licensed by
a condition on what happened before it.
-/

namespace Trace

variable {ν : Type} {P : List ν → ν → Prop} {trace before : List ν} {e : ν}

/-- Every event of the trace is licensed by the events before it. -/
def Licensed (P : List ν → ν → Prop) (trace : List ν) : Prop :=
  ∀ before e after, trace = before ++ e :: after → P before e

theorem licensed_nil : Licensed P [] := by
  intro before e after h
  simp at h

/-- A further event needs its own license only. -/
theorem Licensed.concat (h : Licensed P trace) (he : P trace e) : Licensed P (trace ++ [e]) := by
  intro before e' after heq
  obtain hafter | ⟨last, rest, hafter⟩ := List.eq_nil_or_concat' after
  · rw [hafter] at heq
    obtain ⟨rfl, hsame⟩ := List.append_inj' heq rfl
    cases hsame
    exact he
  · rw [hafter, ← List.cons_append, ← List.append_assoc] at heq
    exact h before e' last (List.append_inj' heq rfl).1

/-- What licensed an event of the trace. -/
theorem Licensed.of_mem (h : Licensed P trace) (he : e ∈ trace) :
    ∃ before after, trace = before ++ e :: after ∧ P before e := by
  obtain ⟨before, after, heq⟩ := List.append_of_mem he
  exact ⟨before, after, heq, h before e after heq⟩

end Trace
