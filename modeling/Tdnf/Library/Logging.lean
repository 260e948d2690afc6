import Mathlib.Data.List.Infix
import Tdnf.Library.Evolution

/-!
# Procedures with a log

A log is a list that a state carries and that procedures only add to. A run is
silent if it adds nothing. A sequence is silent exactly if its first part is and
what follows the result of that part is.
-/

namespace Logging

open Procedure Evolution

variable {ε σ α β ν : Type} (log : σ → List ν)

/-- Something may have been added to the log. -/
def Added (s t : σ) : Prop := log s <+: log t

instance : Std.Refl (Added log) := ⟨fun _ => List.prefix_rfl⟩

instance : IsTrans σ (Added log) := ⟨fun _ _ _ h h' => List.IsPrefix.trans h h'⟩

theorem added_of_eq {log : σ → List ν} {s t : σ} (h : log t = log s) : Added log s t := by
  rw [Added, h]

/-- Nothing has been added to the log. -/
def Same (s t : σ) : Prop := log t = log s

instance : Std.Refl (Same log) := ⟨fun _ => rfl⟩

instance : IsTrans σ (Same log) := ⟨fun _ _ _ h h' => Eq.trans h' h⟩

/-- What the procedure does to the log is to add to it. -/
abbrev Logs (x : Proc ε σ α) : Prop := Evolves (Added log) x

/-- The run from this state adds nothing. -/
def Silent (x : Proc ε σ α) (s : σ) : Prop := log (finalState (x.run s)) = log s

section Sequences

variable {log} {x y : Proc ε σ α} {f : α → Proc ε σ β} {s t : σ}

theorem silent_attempt : Silent log (attempt x) s ↔ Silent log x s := by
  rw [Silent, finalState_attempt, Silent]

/-- What a procedure does at its end does not change the log. -/
theorem log_finishing {onOk onError : σ → σ} (hok : ∀ s, log (onOk s) = log s)
    (herror : ∀ s, log (onError s) = log s) (x : Proc ε σ α) (s : σ) :
    log (finalState ((finishing onOk onError x).run s)) = log (finalState (x.run s)) := by
  simp only [finishing, EStateM.run]
  cases x s with
  | ok a t => exact hok t
  | error e t => exact herror t

theorem silent_finishing {onOk onError : σ → σ} (hok : ∀ s, log (onOk s) = log s)
    (herror : ∀ s, log (onError s) = log s) :
    Silent log (finishing onOk onError x) s ↔ Silent log x s := by
  rw [Silent, log_finishing hok herror, Silent]

theorem silent_of_orElse (hx : Logs log x) (hy : Logs log y)
    (h : Silent log (Procedure.orElse x y) s) : Silent log x s := by
  have hfirst := hx.final s
  simp only [Silent, Procedure.orElse, EStateM.run] at hfirst h ⊢
  cases hrun : x s with
  | ok a t => simpa only [hrun] using h
  | error e t =>
      simp only [hrun, finalState] at hfirst h ⊢
      apply (hfirst.eq_of_length_le _).symm
      rw [← h]
      exact (hy.final t).length_le

theorem Silent.bind (hx : Silent log x s)
    (hf : ∀ a t, x.run s = .ok a t → Silent log (f a) t) : Silent log (x >>= f) s := by
  simp only [Silent] at hx ⊢
  cases h : x.run s with
  | ok a t =>
      rw [h] at hx
      rw [run_bind_ok h, hf a t h]
      exact hx
  | error e t =>
      rw [h] at hx
      rw [run_bind_error h]
      exact hx

/-- A procedure that never adds anything is one that only adds. -/
theorem logs_of_silent (h : ∀ s, Silent log x s) : Logs log x := by
  constructor
  intro s
  rw [Added, h s]

/-- A procedure that already added something is not silent, whatever follows. -/
theorem silent_bind (hx : Logs log x) (hf : ∀ a, Logs log (f a)) :
    Silent log (x >>= f) s ↔
      Silent log x s ∧ ∀ a t, x.run s = .ok a t → Silent log (f a) t := by
  have hfirst := hx.final s
  simp only [Silent]
  cases h : x.run s with
  | ok a t =>
      simp only [h, finalState] at hfirst
      rw [run_bind_ok h]
      constructor
      · intro hall
        have hshort : (log t).length ≤ (log s).length := by
          rw [← hall]
          exact ((hf a).final t).length_le
        have hsame : log t = log s := (hfirst.eq_of_length_le hshort).symm
        refine ⟨hsame, ?_⟩
        intro a' t' heq
        cases heq
        rw [hall, hsame]
      · rintro ⟨hsame, hrest⟩
        rw [hrest a t rfl]
        exact hsame
  | error e t =>
      rw [run_bind_error h]
      constructor
      · intro hall
        exact ⟨hall, fun a t' heq => by cases heq⟩
      · exact fun hboth => hboth.1

/-- What a sequence logs that logs with its first step. -/
theorem log_modify_bind {g : σ → σ} {f : PUnit → Proc ε σ β} (hf : Silent log (f ⟨⟩) (g s)) :
    log (finalState ((modify g >>= f).run s)) = log (g s) := hf

theorem silent_modify {g : σ → σ} (hg : log (g s) = log s) :
    Silent log (modify g : Proc ε σ PUnit) s := hg

@[simp] theorem silent_pure (a : α) : Silent log (pure a : Proc ε σ α) s := rfl

@[simp] theorem silent_throw (e : ε) : Silent log (throw e : Proc ε σ α) s := rfl

/-- What follows an error is not run. -/
@[simp] theorem silent_throw_bind (e : ε) : Silent log (throw e >>= f) s := rfl

@[simp] theorem silent_ite (c : Prop) [Decidable c] :
    Silent log (if c then x else y) s ↔ (c → Silent log x s) ∧ (¬ c → Silent log y s) := by
  by_cases h : c <;> simp [h]

@[simp] theorem silent_get_bind {f : σ → Proc ε σ β} :
    Silent log (get >>= f) s ↔ Silent log (f s) s := by
  rw [Silent, run_get_bind, Silent]

theorem silent_fromExcept (x : Except ε α) : Silent log (fromExcept x : Proc ε σ α) s := by
  cases x with
  | ok a => exact silent_pure a
  | error e => exact silent_throw e

/-- A loop is silent exactly if every round is, in the state that the rounds before it left. -/
theorem silent_mapM {f : α → Proc ε σ β} (hf : ∀ a, Logs log (f a)) (l : List α) :
    Silent log (l.mapM f) s ↔ ∀ before a after, l = before ++ a :: after →
      ∀ bs t, (before.mapM f).run s = .ok bs t → Silent log (f a) t := by
  induction l generalizing s with
  | nil => simp [silent_pure]
  | cons a l ih =>
      have hrest (b : β) : Logs log (l.mapM f >>= fun bs => pure (b :: bs) : Proc ε σ (List β)) :=
        (Evolves.mapM hf l).bind fun _ => evolves_pure _
      rw [List.mapM_cons, silent_bind (hf a) hrest]
      constructor
      · intro ⟨hfirst, hloop⟩ before a' after heq bs t hrun
        cases before with
        | nil =>
            cases heq
            cases hrun
            exact hfirst
        | cons _ before =>
            cases heq
            rw [List.mapM_cons, run_bind_eq_ok] at hrun
            obtain ⟨c, u, hc, hrun⟩ := hrun
            obtain ⟨cs, v, hcs, hend⟩ := run_bind_eq_ok.mp hrun
            cases hend
            have hsilent := hloop c u hc
            rw [silent_bind (Evolves.mapM hf _) (fun _ => evolves_pure _)] at hsilent
            exact ih.mp hsilent.1 before a' after rfl cs _ hcs
      · intro hall
        refine ⟨hall [] a l rfl [] s rfl, ?_⟩
        intro b t hb
        rw [silent_bind (Evolves.mapM hf l) (fun _ => evolves_pure _)]
        refine ⟨ih.mpr ?_, fun _ _ _ => silent_pure _⟩
        intro before a' after heq bs u hrun
        apply hall (a :: before) a' after (by rw [heq, List.cons_append]) (b :: bs) u
        rw [List.mapM_cons, run_bind_ok hb, run_bind_ok hrun]
        rfl

end Sequences

end Logging
