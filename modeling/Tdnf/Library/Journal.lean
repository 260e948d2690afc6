import Mathlib.Data.Set.Basic
import Mathlib.Order.BooleanAlgebra.Set
import Mathlib.Data.List.Basic

/-!
# Journals of baselines and changes

A journal describes a set that evolves over time. A baseline states the whole
content, a change states what was added and what was removed. Replaying a
prefix gives the content at that moment, and the change between two contents
can be computed, applied and undone.
-/

namespace Journal

variable {α : Type*}

/-- One journal entry. -/
inductive Entry (α : Type*) where
  | base (content : Set α)
  | change (added removed : Set α)

/-- The content after one entry. -/
def Entry.apply (s : Set α) : Entry α → Set α
  | .base content => content
  | .change added removed => (s ∪ added) \ removed

/-- Replay all entries on top of `s`. -/
def replay (s : Set α) (log : List (Entry α)) : Set α := log.foldl Entry.apply s

/-- The content a journal describes. -/
def content (log : List (Entry α)) : Set α := replay ∅ log

@[simp] theorem replay_nil (s : Set α) : replay s [] = s := rfl

theorem replay_append (s : Set α) (log₁ log₂ : List (Entry α)) :
    replay s (log₁ ++ log₂) = replay (replay s log₁) log₂ :=
  List.foldl_append

theorem content_concat (log : List (Entry α)) (e : Entry α) :
    content (log ++ [e]) = e.apply (content log) := by
  simp [content, replay]

/-- Whatever precedes a baseline does not matter for the content. -/
theorem content_of_base (pre post : List (Entry α)) (s : Set α) :
    content (pre ++ .base s :: post) = replay s post := by
  rw [content, replay_append]
  rfl

/-- The change that leads from `s` to `t`. -/
def between (s t : Set α) : Entry α := .change (t \ s) (s \ t)

@[simp] theorem between_apply (s t : Set α) : (between s t).apply s = t := by
  ext a
  simp only [between, Entry.apply, Set.mem_sdiff, Set.mem_union]
  tauto

@[simp] theorem between_self (s : Set α) : between s s = .change ∅ ∅ := by
  simp [between]

/-- A journal that starts with a baseline and then records the change between
successive contents describes each of these contents. -/
theorem content_of_betweens {entry : ℕ → Entry α} {state : ℕ → Set α} {first : ℕ}
    (hbase : entry first = .base (state first)) {n : ℕ}
    (hnext : ∀ t, first ≤ t → t < first + n →
      entry (t + 1) = between (state t) (state (t + 1))) :
    content ((List.range' first (n + 1)).map entry) = state (first + n) := by
  induction n with
  | zero => simp [content, replay, hbase, Entry.apply]
  | succ n ih =>
      have hprefix := ih fun t hle hlt => hnext t hle (by omega)
      have hlast := hnext (first + n) (by omega) (by omega)
      rw [List.range'_concat, List.map_append, Nat.one_mul, List.map_singleton,
        content_concat, hprefix]
      exact hlast ▸ between_apply _ _

end Journal
