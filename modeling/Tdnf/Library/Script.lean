import Mathlib.Data.List.TakeWhile
import Tdnf.Library.Procedure

/-!
# Procedures that follow a script

A script is a list of events. A procedure follows it if it writes to its log what
the events emit, in their order, and fails exactly where an event ends the run.
-/

namespace Script

open Procedure

variable {ε σ ν ω α β : Type}

/-- How a procedure over states `σ` answers to events `ν`. -/
structure Rules (σ ν ω : Type) where
  log : σ → List ω
  /-- The run fails at this event. -/
  ends : ν → Bool
  emits : ν → Option ω

section Definitions

variable (r : Rules σ ν ω)

/-- The events before the first at which the run fails. -/
def reached (l : List ν) : List ν := l.takeWhile fun n => !r.ends n

/-- What a run along the events adds to the log. -/
def emitted (l : List ν) : List ω := (reached r l).filterMap r.emits

/-- The run fails at none of the events. -/
def Goes (l : List ν) : Prop := ∀ n ∈ l, r.ends n = false

def Writes (s : σ) (l : List ν) (t : σ) : Prop := r.log t = r.log s ++ emitted r l

/-- The procedure follows the events when it starts from `s`. -/
def FollowsFrom (s : σ) (x : Proc ε σ α) (l : List ν) : Prop :=
  wp x (fun _ t => Goes r l ∧ Writes r s l t) (fun _ t => ¬ Goes r l ∧ Writes r s l t) s

/-- The procedure follows the events from every state. -/
def Follows (x : Proc ε σ α) (l : List ν) : Prop := ∀ s, FollowsFrom r s x l

end Definitions

variable {r : Rules σ ν ω} {s t u : σ} {l l₁ l₂ : List ν}

theorem goes_append : Goes r (l₁ ++ l₂) ↔ Goes r l₁ ∧ Goes r l₂ := by
  simp only [Goes, List.mem_append, or_imp, forall_and]

theorem reached_of_goes (h : Goes r l) : reached r l = l := by
  rw [reached, List.takeWhile_eq_self_iff]
  intro n hn
  simp [h n hn]

theorem reached_append_of_goes (h : Goes r l₁) : reached r (l₁ ++ l₂) = l₁ ++ reached r l₂ := by
  apply List.takeWhile_append_of_pos
  intro n hn
  simp [h n hn]

theorem reached_append_of_not_goes (h : ¬ Goes r l₁) :
    reached r (l₁ ++ l₂) = reached r l₁ := by
  induction l₁ with
  | nil => exact absurd (by simp [Goes]) h
  | cons n l₁ ih =>
      by_cases hn : r.ends n = true
      · simp [reached, hn]
      · have hrest : ¬ Goes r l₁ := by
          intro hgoes
          apply h
          intro m hm
          obtain rfl | hm := List.mem_cons.mp hm
          · simpa using hn
          · exact hgoes m hm
        simpa [reached, hn] using ih hrest

theorem Writes.append (hs : Writes r s l₁ t) (hgoes : Goes r l₁) (ht : Writes r t l₂ u) :
    Writes r s (l₁ ++ l₂) u := by
  have hall : emitted r (l₁ ++ l₂) = emitted r l₁ ++ emitted r l₂ := by
    rw [emitted, reached_append_of_goes hgoes, List.filterMap_append, emitted, emitted,
      reached_of_goes hgoes]
  calc r.log u = r.log t ++ emitted r l₂ := ht
    _ = r.log s ++ emitted r l₁ ++ emitted r l₂ := by rw [hs]
    _ = r.log s ++ emitted r (l₁ ++ l₂) := by rw [hall, List.append_assoc]

theorem Writes.append_of_not_goes (hs : Writes r s l₁ t) (hgoes : ¬ Goes r l₁) :
    Writes r s (l₁ ++ l₂) t := by
  rw [Writes, emitted, reached_append_of_not_goes hgoes]
  exact hs

theorem writes_nil (h : r.log t = r.log s) : Writes r s [] t := by
  simp [Writes, emitted, reached, h]

theorem follows_pure (a : α) : Follows r (pure a : Proc ε σ α) [] := by
  intro s
  constructor
  · simp [Goes]
  · exact writes_nil rfl

theorem follows_throw (e : ε) {n : ν} (hn : r.ends n = true) :
    Follows r (throw e : Proc ε σ α) [n] := by
  intro s
  constructor
  · simp [Goes, hn]
  · simp [Writes, emitted, reached, hn]

/-- A procedure for one event. -/
theorem followsFrom_single {x : Proc ε σ α} {n : ν}
    (h : wp x (fun _ t => r.ends n = false ∧ r.log t = r.log s ++ (r.emits n).toList)
      (fun _ t => r.ends n = true ∧ r.log t = r.log s) s) : FollowsFrom r s x [n] := by
  apply wp_mono h
  · rintro a t ⟨hends, hlog⟩
    cases hemits : r.emits n with
    | none => simp [Goes, Writes, emitted, reached, hends, hlog, hemits]
    | some w => simp [Goes, Writes, emitted, reached, hends, hlog, hemits]
  · rintro e t ⟨hends, hlog⟩
    simp [Goes, Writes, emitted, reached, hends, hlog]

/-- A step outside the log. -/
theorem follows_modify {g : σ → σ} (hg : ∀ s, r.log (g s) = r.log s) :
    Follows r (modify g : Proc ε σ PUnit) [] := by
  intro s
  constructor
  · simp [Goes]
  · exact writes_nil (hg s)

/-- One procedure after another follows one list of events after another. -/
theorem FollowsFrom.bind {x : Proc ε σ α} {f : α → Proc ε σ β} (hx : FollowsFrom r s x l₁)
    (hf : ∀ a, Follows r (f a) l₂) : FollowsFrom r s (x >>= f) (l₁ ++ l₂) := by
  rw [FollowsFrom, wp_bind]
  apply wp_mono hx
  · rintro a t ⟨hgoes, hwrites⟩
    apply wp_mono (hf a t)
    · rintro b u ⟨hrest, hmore⟩
      exact ⟨goes_append.mpr ⟨hgoes, hrest⟩, hwrites.append hgoes hmore⟩
    · rintro e u ⟨hrest, hmore⟩
      exact ⟨fun h => hrest (goes_append.mp h).2, hwrites.append hgoes hmore⟩
  · rintro e t ⟨hgoes, hwrites⟩
    exact ⟨fun h => hgoes (goes_append.mp h).1, hwrites.append_of_not_goes hgoes⟩

theorem Follows.bind {x : Proc ε σ α} {f : α → Proc ε σ β} (hx : Follows r x l₁)
    (hf : ∀ a, Follows r (f a) l₂) : Follows r (x >>= f) (l₁ ++ l₂) := by
  intro s
  exact (hx s).bind hf

theorem Follows.returning {x : Proc ε σ α} (hx : Follows r x l) (b : β) :
    Follows r (x >>= fun _ => pure b) l := by
  rw [← List.append_nil l]
  exact hx.bind fun _ => follows_pure b

theorem FollowsFrom.returning {x : Proc ε σ α} (hx : FollowsFrom r s x l) (b : β) :
    FollowsFrom r s (x >>= fun _ => pure b) l := by
  rw [← List.append_nil l]
  exact hx.bind fun _ => follows_pure b

/-- A loop follows what its rounds follow. -/
theorem follows_forM {f : α → Proc ε σ PUnit} {g : α → List ν}
    (hf : ∀ a, Follows r (f a) (g a)) (items : List α) :
    Follows r (items.forM f) (items.flatMap g) := by
  induction items with
  | nil => exact follows_pure _
  | cons a items ih =>
      rw [List.flatMap_cons]
      exact (hf a).bind fun _ => ih

/-- The log at the end of a run that follows the events. -/
theorem log_finalState {x : Proc ε σ α} (hx : FollowsFrom r s x l) :
    r.log (finalState (x.run s)) = r.log s ++ emitted r l := by
  rw [FollowsFrom, wp] at hx
  cases h : x.run s with
  | ok a t =>
      rw [h] at hx
      exact hx.2
  | error e t =>
      rw [h] at hx
      exact hx.2

end Script
