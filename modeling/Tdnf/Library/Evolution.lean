import Mathlib.Order.Defs.Unbundled
import Tdnf.Library.Procedure

/-!
# Procedures along a preorder

A procedure evolves along a relation if every run, however it ends, leads from a
state to a related one. For a reflexive and transitive relation this passes
through sequences, branches and loops.
-/

namespace Evolution

open Procedure

variable {ε σ α β : Type}

/-- Every run leads to a related state. -/
structure Evolves (R : σ → σ → Prop) (x : Proc ε σ α) : Prop where
  final : ∀ s, R s (finalState (x.run s))

theorem finalState_attempt (x : Proc ε σ α) (s : σ) :
    finalState ((attempt x).run s) = finalState (x.run s) := by
  simp only [attempt, EStateM.run]
  cases x s with
  | ok a t => rfl
  | error e t => rfl

section Rules

variable {R : σ → σ → Prop} {x y : Proc ε σ α} {f : α → Proc ε σ β} {s t : σ}

theorem Evolves.ok (hx : Evolves R x) {a : α} (h : x.run s = .ok a t) : R s t := by
  have hrun := hx.final s
  rwa [h] at hrun

theorem Evolves.error (hx : Evolves R x) {e : ε} (h : x.run s = .error e t) : R s t := by
  have hrun := hx.final s
  rwa [h] at hrun

/-- However a run ends, its final state is related to the first. -/
theorem Evolves.wp (hx : Evolves R x) :
    Procedure.wp x (fun _ t => R s t) (fun _ t => R s t) s := by
  simp only [Procedure.wp]
  cases h : x.run s with
  | ok a t => exact hx.ok h
  | error e t => exact hx.error h

theorem evolves_of_wp (h : ∀ s, Procedure.wp x (fun _ t => R s t) (fun _ t => R s t) s) :
    Evolves R x := ⟨fun s => finalState_of_wp (h s)⟩

theorem Evolves.attempt (hx : Evolves R x) : Evolves R (attempt x) := by
  constructor
  intro s
  rw [finalState_attempt]
  exact hx.final s

theorem Evolves.mapFault {ε' : Type} (f : ε → ε') (hx : Evolves R x) :
    Evolves R (mapFault f x) := by
  constructor
  intro s
  have hrun := hx.final s
  simp only [Procedure.mapFault, EStateM.run] at hrun ⊢
  cases h : x s with
  | ok a t =>
      rw [h] at hrun
      exact hrun
  | error e t =>
      rw [h] at hrun
      exact hrun

theorem Evolves.ite (c : Prop) [Decidable c] (hx : Evolves R x) (hy : Evolves R y) :
    Evolves R (if c then x else y) := by
  split
  · exact hx
  · exact hy

theorem evolves_modify {g : σ → σ} (hg : ∀ s, R s (g s)) :
    Evolves R (modify g : Proc ε σ PUnit) := ⟨fun s => hg s⟩

section Transitive

variable [IsTrans σ R]

theorem Evolves.bind (hx : Evolves R x) (hf : ∀ a, Evolves R (f a)) : Evolves R (x >>= f) := by
  constructor
  intro s
  cases h : x.run s with
  | ok a t =>
      rw [run_bind_ok h]
      exact trans_of R (hx.ok h) ((hf a).final t)
  | error e t =>
      rw [run_bind_error h]
      exact hx.error h

theorem Evolves.finishing {onOk onError : σ → σ} (hok : ∀ s, R s (onOk s))
    (herror : ∀ s, R s (onError s)) (hx : Evolves R x) : Evolves R (finishing onOk onError x) := by
  constructor
  intro s
  have hrun := hx.final s
  simp only [Procedure.finishing, EStateM.run] at hrun ⊢
  cases h : x s with
  | ok a t =>
      rw [h] at hrun
      exact trans_of R hrun (hok t)
  | error e t =>
      rw [h] at hrun
      exact trans_of R hrun (herror t)

theorem Evolves.orElse (hx : Evolves R x) (hy : Evolves R y) : Evolves R (orElse x y) := by
  constructor
  intro s
  have hrun := hx.final s
  simp only [Procedure.orElse, EStateM.run] at hrun ⊢
  cases h : x s with
  | ok a t =>
      rw [h] at hrun
      exact hrun
  | error e t =>
      rw [h] at hrun
      exact trans_of R hrun (hy.final t)

end Transitive

variable [Std.Refl R]

theorem evolves_pure (a : α) : Evolves R (pure a : Proc ε σ α) := ⟨fun s => refl_of R s⟩

theorem evolves_throw (e : ε) : Evolves R (throw e : Proc ε σ α) := ⟨fun s => refl_of R s⟩

theorem evolves_get : Evolves R (get : Proc ε σ σ) := ⟨fun s => refl_of R s⟩

theorem evolves_fromExcept (x : Except ε α) : Evolves R (fromExcept x : Proc ε σ α) := by
  cases x with
  | ok a => exact evolves_pure a
  | error e => exact evolves_throw e

variable [IsTrans σ R]

theorem Evolves.mapM {f : α → Proc ε σ β} (hf : ∀ a, Evolves R (f a)) (l : List α) :
    Evolves R (l.mapM f) := by
  induction l with
  | nil => exact evolves_pure []
  | cons a l ih =>
      rw [List.mapM_cons]
      apply (hf a).bind
      intro b
      apply ih.bind
      exact fun _ => evolves_pure _

/-- A loop whose rounds evolve for the items it goes through. -/
theorem Evolves.forM_mem {f : α → Proc ε σ PUnit} {l : List α} (hf : ∀ a ∈ l, Evolves R (f a)) :
    Evolves R (l.forM f) := by
  induction l with
  | nil => exact evolves_pure PUnit.unit
  | cons a l ih =>
      rw [List.forall_mem_cons] at hf
      change Evolves R (f a >>= fun _ => l.forM f)
      exact hf.1.bind fun _ => ih hf.2

theorem Evolves.forM {f : α → Proc ε σ PUnit} (hf : ∀ a, Evolves R (f a)) (l : List α) :
    Evolves R (l.forM f) := Evolves.forM_mem fun a _ => hf a

end Rules

end Evolution
