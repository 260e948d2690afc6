import Mathlib.Data.List.Basic

/-!
# Overrides of a value

A value is overridden by those members of a list that reach it, one after the
other. Its final value is that of the last member which reaches it.
-/

namespace Tdnf.Overrides

variable {O V : Type*}

/-- The value after all overrides that reach it. -/
def settle (reaches : O → Bool) (value : O → V) (v : V) (os : List O) : V :=
  os.foldl (fun v o => if reaches o then value o else v) v

variable {reaches reaches' : O → Bool} {value : O → V}

@[simp] theorem settle_nil (v : V) : settle reaches value v [] = v := rfl

@[simp] theorem settle_cons (v : V) (o : O) (os : List O) :
    settle reaches value v (o :: os) =
      settle reaches value (if reaches o then value o else v) os := rfl

theorem settle_append (v : V) (os os' : List O) :
    settle reaches value v (os ++ os') = settle reaches value (settle reaches value v os) os' :=
  List.foldl_append

/-- Overrides that do not reach the value leave it. -/
theorem settle_of_not_reached {v : V} {os : List O} (h : ∀ o ∈ os, reaches o = false) :
    settle reaches value v os = v := by
  induction os with
  | nil => rfl
  | cons o os ih =>
      rw [settle_cons, if_neg (by simp [h o List.mem_cons_self])]
      exact ih fun o' ho' => h o' (List.mem_cons_of_mem o ho')

/-- The last override that reaches the value decides. -/
theorem settle_of_last {v : V} {before after : List O} {o : O} (ho : reaches o = true)
    (hafter : ∀ o' ∈ after, reaches o' = false) :
    settle reaches value v (before ++ o :: after) = value o := by
  rw [settle_append, settle_cons, if_pos ho, settle_of_not_reached hafter]

/-- Either nothing reaches the value, or some override is the last to reach it. -/
theorem not_reached_or_last (reaches : O → Bool) (os : List O) :
    (∀ o ∈ os, reaches o = false) ∨
      ∃ before o after, os = before ++ o :: after ∧ reaches o = true ∧
        ∀ o' ∈ after, reaches o' = false := by
  induction os with
  | nil => exact .inl (by simp)
  | cons o os ih =>
      obtain hnone | ⟨before, o', after, rfl, ho', hafter⟩ := ih
      · cases ho : reaches o with
        | false => exact .inl (by simpa [ho] using hnone)
        | true => exact .inr ⟨[], o, os, rfl, ho, hnone⟩
      · exact .inr ⟨o :: before, o', after, rfl, ho', hafter⟩

/-- Two ways of reaching a value settle it alike, exactly if the last override that reaches it
in the wider way has the value settled in the narrower way. -/
theorem settle_eq_iff (hwider : ∀ o, reaches' o = true → reaches o = true) (v : V)
    (os : List O) :
    settle reaches value v os = settle reaches' value v os ↔
      ∀ before o after, os = before ++ o :: after → reaches o = true →
        (∀ o' ∈ after, reaches o' = false) → reaches' o = false →
          value o = settle reaches' value v os := by
  constructor
  · rintro heq before o after rfl ho hafter -
    rw [← heq, settle_of_last ho hafter]
  · intro hlast
    obtain hnone | ⟨before, o, after, hos, ho, hafter⟩ := not_reached_or_last reaches os
    · have hnone' : ∀ o ∈ os, reaches' o = false := by
        intro o ho
        have hnot := hnone o ho
        cases h : reaches' o with
        | false => rfl
        | true => rw [hwider o h] at hnot; cases hnot
      rw [settle_of_not_reached hnone, settle_of_not_reached hnone']
    · have hsettle : settle reaches value v os = value o := by rw [hos, settle_of_last ho hafter]
      rw [hsettle]
      cases ho' : reaches' o with
      | false => exact hlast before o after hos ho hafter ho'
      | true =>
          have hafter' : ∀ o' ∈ after, reaches' o' = false := by
            intro o' hmem
            have hnot := hafter o' hmem
            cases h : reaches' o' with
            | false => rfl
            | true => rw [hwider o' h] at hnot; cases hnot
          rw [hos, settle_of_last ho' hafter']

end Tdnf.Overrides
