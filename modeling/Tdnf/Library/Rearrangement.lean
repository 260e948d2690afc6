import Mathlib.Data.List.Basic

/-!
# Independent steps in another order

A run takes the items of a list one after another and may fail at each. Where the
steps of items with different keys are independent of each other, the outcome does
not depend on how items of different keys are mixed.
-/

namespace Tdnf.Rearrangement

variable {α κ σ : Type*} [DecidableEq κ]

/-- One item after another -/
def run (step : α → σ → Option σ) : List α → σ → Option σ
  | [], s => some s
  | a :: rest, s => (step a s).bind (run step rest)

/-- The same items, those with one key in the same order -/
def Rearranges (key : α → κ) (xs ys : List α) : Prop :=
  ∀ k, xs.filter (key · = k) = ys.filter (key · = k)

/-- Steps of items with different keys can be taken in either order. -/
def Independent (key : α → κ) (step : α → σ → Option σ) : Prop :=
  ∀ a b s, key a ≠ key b → (step a s).bind (step b) = (step b s).bind (step a)

variable {key : α → κ} {step : α → σ → Option σ} {a b : α} {xs ys before after : List α}

theorem Rearranges.symm (h : Rearranges key xs ys) : Rearranges key ys xs := fun k => (h k).symm

theorem rearranges_swap (h : key a ≠ key b) :
    Rearranges key (a :: b :: xs) (b :: a :: xs) := by
  intro k
  by_cases ha : key a = k
  · have hb : key b ≠ k := fun hb => h (ha.trans hb.symm)
    simp [ha, hb]
  · by_cases hb : key b = k
    · simp [ha, hb]
    · simp [ha, hb]

/-- The first item stands behind items of other keys, and without it the rest is rearranged. -/
theorem Rearranges.uncons (h : Rearranges key (a :: xs) ys) :
    ∃ before after, ys = before ++ a :: after ∧ (∀ b ∈ before, key b ≠ key a) ∧
      Rearranges key xs (before ++ after) := by
  have hfirst := h (key a)
  rw [List.filter_cons_of_pos (by simp)] at hfirst
  obtain ⟨before, after, rfl, hbefore, -, hafter⟩ := List.filter_eq_cons_iff.mp hfirst.symm
  have hother (b : α) (hb : b ∈ before) : key b ≠ key a := by
    simpa using hbefore b hb
  refine ⟨before, after, rfl, hother, fun k => ?_⟩
  have hk := h k
  rw [List.filter_append] at hk ⊢
  by_cases hkey : key a = k
  · rw [List.filter_cons_of_pos (by simpa using hkey),
      List.filter_cons_of_pos (by simpa using hkey)] at hk
    have hnone : before.filter (key · = k) = [] := by
      rw [List.filter_eq_nil_iff]
      intro b hb
      simpa [← hkey] using hother b hb
    rw [hnone, List.nil_append] at hk ⊢
    exact (List.cons.inj hk).2
  · rw [List.filter_cons_of_neg (by simpa using hkey),
      List.filter_cons_of_neg (by simpa using hkey)] at hk
    exact hk

theorem Rearranges.perm (h : Rearranges key xs ys) : xs.Perm ys := by
  induction xs generalizing ys with
  | nil =>
      have hnone (b : α) (hb : b ∈ ys) : False := by
        have hempty := h (key b)
        rw [List.filter_nil, eq_comm, List.filter_eq_nil_iff] at hempty
        exact hempty b hb (by simp)
      rw [List.eq_nil_iff_forall_not_mem.mpr hnone]
  | cons a xs ih =>
      obtain ⟨before, after, rfl, -, hrest⟩ := h.uncons
      exact ((ih hrest).cons a).trans List.perm_middle.symm

omit [DecidableEq κ] in
/-- An item can be taken before others with different keys. -/
theorem run_middle (hstep : Independent key step) (hbefore : ∀ b ∈ before, key b ≠ key a) (s : σ) :
    run step (before ++ a :: after) s = run step (a :: (before ++ after)) s := by
  induction before generalizing s with
  | nil => rfl
  | cons b before ih =>
      obtain ⟨hb, hrest⟩ := List.forall_mem_cons.mp hbefore
      calc run step (b :: before ++ a :: after) s
          = (step b s).bind (run step (a :: (before ++ after))) :=
            Option.bind_congr fun t _ => ih hrest t
        _ = ((step b s).bind (step a)).bind (run step (before ++ after)) :=
            (Option.bind_assoc _ _ _).symm
        _ = ((step a s).bind (step b)).bind (run step (before ++ after)) := by
            rw [hstep b a s hb]
        _ = run step (a :: (b :: before ++ after)) s := Option.bind_assoc _ _ _

/-- Rearranged items have the same outcome. -/
theorem run_eq_of_rearranges (hstep : Independent key step) (h : Rearranges key xs ys) (s : σ) :
    run step xs s = run step ys s := by
  induction xs generalizing ys s with
  | nil =>
      obtain rfl := h.perm.nil_eq
      rfl
  | cons a xs ih =>
      obtain ⟨before, after, rfl, hbefore, hrest⟩ := h.uncons
      rw [run_middle hstep hbefore]
      exact Option.bind_congr fun t _ => ih hrest t

end Tdnf.Rearrangement
