import Tdnf.Library.Procedure

/-!
# Two procedures side by side

Two procedures over different states run side by side from related states. They
fail with one error, in states that are again related, or both end with results.
The rules follow the sequence and the branches of the two procedures.
-/

namespace Coupling

open Procedure

variable {ε σ τ α α' β β' γ : Type}

/-- How two runs end together. -/
def Together (Q : α → β → σ → τ → Prop) (E : σ → τ → Prop) :
    EStateM.Result ε σ α → EStateM.Result ε τ β → Prop
  | .ok a s, .ok b t => Q a b s t
  | .error e s, .error e' t => e = e' ∧ E s t
  | _, _ => False

theorem Together.of_ok {Q : α → β → σ → τ → Prop} {E : σ → τ → Prop}
    {r : EStateM.Result ε σ α} {b : β} {t : τ} (h : Together Q E r (.ok b t)) :
    ∃ a s, r = .ok a s ∧ Q a b s t := by
  cases r with
  | ok a s => exact ⟨a, s, rfl, h⟩
  | error e s => exact h.elim

theorem Together.of_error {Q : α → β → σ → τ → Prop} {E : σ → τ → Prop}
    {r : EStateM.Result ε σ α} {e : ε} {t : τ} (h : Together Q E r (.error e t)) :
    ∃ s, r = .error e s ∧ E s t := by
  cases r with
  | ok a s => exact h.elim
  | error e' s =>
      obtain ⟨rfl, hE⟩ := h
      exact ⟨s, rfl, hE⟩

/-- From states related by `R` both procedures end with results and states related by `Q`, or
with one error and states related by `E`. -/
def Coupled (R : σ → τ → Prop) (x : Proc ε σ α) (y : Proc ε τ β)
    (Q : α → β → σ → τ → Prop) (E : σ → τ → Prop) : Prop :=
  ∀ s t, R s t → Together Q E (x.run s) (y.run t)

section Rules

variable {R R' : σ → τ → Prop} {Q : α → β → σ → τ → Prop} {Q' : α' → β' → σ → τ → Prop}
  {E : σ → τ → Prop} {x : Proc ε σ α} {y : Proc ε τ β}

theorem coupled_of_ok (h : ∀ s t, R s t → ∃ a b s' t', x.run s = .ok a s' ∧ y.run t = .ok b t' ∧
    Q a b s' t') : Coupled R x y Q E := by
  intro s t hR
  obtain ⟨a, b, s', t', hx, hy, hQ⟩ := h s t hR
  rw [hx, hy]
  exact hQ

theorem coupled_pure {a : α} {b : β} (h : ∀ s t, R s t → Q a b s t) :
    Coupled R (pure a : Proc ε σ α) (pure b) Q E := h

theorem coupled_throw (e : ε) (h : ∀ s t, R s t → E s t) :
    Coupled R (throw e : Proc ε σ α) (throw e : Proc ε τ β) Q E :=
  fun s t hR => ⟨rfl, h s t hR⟩

theorem Coupled.weaken (h : Coupled R x y Q E) (hR : ∀ s t, R' s t → R s t) :
    Coupled R' x y Q E := fun s t hs => h s t (hR s t hs)

theorem Coupled.strengthen {Q₂ : α → β → σ → τ → Prop} {E₂ : σ → τ → Prop}
    (h : Coupled R x y Q E) (hQ : ∀ a b s t, Q a b s t → Q₂ a b s t)
    (hE : ∀ s t, E s t → E₂ s t) : Coupled R x y Q₂ E₂ := by
  intro s t hR
  have hends := h s t hR
  cases hx : x.run s with
  | ok a s' =>
      cases hy : y.run t with
      | ok b t' =>
          rw [hx, hy] at hends
          exact hQ a b s' t' hends
      | error e t' =>
          rw [hx, hy] at hends
          exact hends.elim
  | error e s' =>
      cases hy : y.run t with
      | ok b t' =>
          rw [hx, hy] at hends
          exact hends.elim
      | error e' t' =>
          rw [hx, hy] at hends
          exact ⟨hends.1, hE s' t' hends.2⟩

/-- Sequences are coupled part by part. -/
theorem Coupled.bind {f : α → Proc ε σ α'} {g : β → Proc ε τ β'} (h : Coupled R x y Q E)
    (hf : ∀ a b, Coupled (Q a b) (f a) (g b) Q' E) :
    Coupled R (x >>= f) (y >>= g) Q' E := by
  intro s t hR
  have hends := h s t hR
  cases hx : x.run s with
  | ok a s' =>
      cases hy : y.run t with
      | ok b t' =>
          rw [hx, hy] at hends
          rw [run_bind_ok hx, run_bind_ok hy]
          exact hf a b s' t' hends
      | error e t' =>
          rw [hx, hy] at hends
          exact hends.elim
  | error e s' =>
      cases hy : y.run t with
      | ok b t' =>
          rw [hx, hy] at hends
          exact hends.elim
      | error e' t' =>
          rw [hx, hy] at hends
          rw [run_bind_error hx, run_bind_error hy]
          exact hends

/-- A step that looks at no state ends on both sides alike. -/
theorem coupled_fromExcept (z : Except ε γ) {Q : γ → γ → σ → τ → Prop}
    (h : ∀ c, z = .ok c → ∀ s t, R s t → Q c c s t) (hE : ∀ s t, R s t → E s t) :
    Coupled R (fromExcept z : Proc ε σ γ) (fromExcept z) Q E := by
  intro s t hR
  cases z with
  | ok c => exact h c rfl s t hR
  | error e => exact ⟨rfl, hE s t hR⟩

theorem coupled_modify {f : σ → σ} {g : τ → τ} {Q : PUnit → PUnit → σ → τ → Prop}
    (h : ∀ s t, R s t → Q ⟨⟩ ⟨⟩ (f s) (g t)) :
    Coupled R (modify f : Proc ε σ PUnit) (modify g) Q E := h

/-- What both sides read at the start is known to be related. -/
theorem coupled_get {f : σ → Proc ε σ α} {g : τ → Proc ε τ β}
    (h : ∀ s t, R s t → Coupled (fun s' t' => s' = s ∧ t' = t) (f s) (g t) Q E) :
    Coupled R (get >>= f) (get >>= g) Q E := by
  intro s t hR
  rw [run_get_bind, run_get_bind]
  exact h s t hR s t ⟨rfl, rfl⟩

theorem Coupled.ite {c d : Prop} [Decidable c] [Decidable d] {x' : Proc ε σ α} {y' : Proc ε τ β}
    (hcd : c ↔ d) (h : c → Coupled R x y Q E) (h' : ¬ c → Coupled R x' y' Q E) :
    Coupled R (if c then x else x') (if d then y else y') Q E := by
  by_cases hc : c
  · rw [if_pos hc, if_pos (hcd.mp hc)]
    exact h hc
  · rw [if_neg hc, if_neg fun hd => hc (hcd.mpr hd)]
    exact h' hc

end Rules

end Coupling
