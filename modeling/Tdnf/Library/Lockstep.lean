import Mathlib.Logic.Basic

/-!
# Two computations in lockstep

Two computations that may fail run side by side: they fail alike, or both end
with results that are related.
-/

namespace Lockstep

variable {ε α β α' β' γ : Type}

/-- Both computations fail with one error, or end with related results. -/
def Agree (R : α → β → Prop) : Except ε α → Except ε β → Prop
  | .ok a, .ok b => R a b
  | .error e, .error e' => e = e'
  | _, _ => False

variable {R : α → β → Prop} {x : Except ε α} {y : Except ε β}

@[simp] theorem agree_ok (a : α) (b : β) :
    Agree R (.ok a : Except ε α) (.ok b) ↔ R a b := Iff.rfl

theorem agree_refl (x : Except ε α) : Agree (· = ·) x x := by
  cases x with
  | ok a => exact (rfl : a = a)
  | error e => exact (rfl : e = e)

theorem Agree.mono {R' : α → β → Prop} (h : Agree R x y) (hR : ∀ a b, R a b → R' a b) :
    Agree R' x y := by
  cases x with
  | ok a =>
      cases y with
      | ok b => exact hR a b h
      | error e => exact h
  | error e =>
      cases y with
      | ok b => exact h
      | error e' => exact h

/-- Related results are continued in lockstep. -/
theorem Agree.bind {R' : α' → β' → Prop} {f : α → Except ε α'} {g : β → Except ε β'}
    (h : Agree R x y) (hf : ∀ a b, R a b → Agree R' (f a) (g b)) :
    Agree R' (x >>= f) (y >>= g) := by
  cases x with
  | ok a =>
      cases y with
      | ok b => exact hf a b h
      | error e => exact h.elim
  | error e =>
      cases y with
      | ok b => exact h.elim
      | error e' => exact h

theorem Agree.of_ok_right {b : β} (h : Agree R x (.ok b)) : ∃ a, x = .ok a ∧ R a b := by
  cases x with
  | ok a => exact ⟨a, rfl, h⟩
  | error e => exact h.elim

theorem Agree.of_error_right {e : ε} (h : Agree R x (.error e)) : x = .error e := by
  cases x with
  | ok a => exact h.elim
  | error e' => exact congrArg _ h

/-- Loops whose rounds run in lockstep do so themselves. -/
theorem agree_foldlM {f : α → γ → Except ε α} {g : β → γ → Except ε β}
    (hstep : ∀ a b c, R a b → Agree R (f a c) (g b c)) (l : List γ) {a : α} {b : β}
    (h : R a b) : Agree R (l.foldlM f a) (l.foldlM g b) := by
  induction l generalizing a b with
  | nil => exact h
  | cons c l ih =>
      rw [List.foldlM_cons, List.foldlM_cons]
      exact (hstep a b c h).bind fun a' b' h' => ih h'

end Lockstep
