import Mathlib.Data.List.Find
import Mathlib.Data.List.Induction
import Mathlib.Order.Basic

/-!
# Append-only logs of versioned values

Each record of the log gives a key a value from some version on. The value of a
key at a version is taken from the newest record whose own version does not
exceed it, and a key without such a record has a default value. Writes are
appended, so they are visible from their version on and nowhere below it.
-/

namespace VersionLog

variable {κ ν β : Type*} [DecidableEq κ] [LinearOrder ν]

/-- One record of the log. -/
structure Record (κ ν β : Type*) where
  version : ν
  key : κ
  value : β
deriving DecidableEq, Repr

/-- Records that decide the value of `k` at version `v`. -/
def applies (v : ν) (k : κ) (r : Record κ ν β) : Bool := r.key = k && decide (r.version ≤ v)

/-- The value of `k` at version `v`, `default` where nothing was recorded. -/
def lookup (default : β) (log : List (Record κ ν β)) (v : ν) (k : κ) : β :=
  match log.reverse.find? (applies v k) with
  | some r => r.value
  | none => default

variable (default : β)

@[simp] theorem lookup_nil (v : ν) (k : κ) :
    lookup default ([] : List (Record κ ν β)) v k = default := rfl

/-- An appended record decides its key from its version on and nothing else. -/
theorem lookup_concat (log : List (Record κ ν β)) (r : Record κ ν β) (v : ν) (k : κ) :
    lookup default (log ++ [r]) v k =
      if r.key = k ∧ r.version ≤ v then r.value else lookup default log v k := by
  simp only [lookup, List.reverse_append, List.reverse_singleton, List.singleton_append,
    List.find?_cons, applies]
  by_cases h : r.key = k ∧ r.version ≤ v
  · simp [h]
  · rw [if_neg h]
    have hfalse : (decide (r.key = k) && decide (r.version ≤ v)) = false := by
      simpa [not_and] using h
    rw [hfalse]

/-- Records of another key do not change a value. -/
theorem lookup_append_of_key_ne {log ws : List (Record κ ν β)} {v : ν} {k : κ}
    (h : ∀ r ∈ ws, r.key ≠ k) :
    lookup default (log ++ ws) v k = lookup default log v k := by
  induction ws using List.reverseRecOn with
  | nil => simp
  | append_singleton ws r ih =>
      have hr := h r (by simp)
      rw [← List.append_assoc, lookup_concat, if_neg fun hk => hr hk.1]
      exact ih fun w hw => h w (by simp [hw])

/-- Records of a later version do not change a value. -/
theorem lookup_append_of_version_lt {log ws : List (Record κ ν β)} {v : ν} {k : κ}
    (h : ∀ r ∈ ws, v < r.version) :
    lookup default (log ++ ws) v k = lookup default log v k := by
  induction ws using List.reverseRecOn with
  | nil => simp
  | append_singleton ws r ih =>
      have hr := h r (by simp)
      rw [← List.append_assoc, lookup_concat, if_neg fun hk => not_le.mpr hr hk.2]
      exact ih fun w hw => h w (by simp [hw])

/-- Versions that see the same records see the same values. -/
theorem lookup_eq_of_sees {log : List (Record κ ν β)} {v v' : ν}
    (h : ∀ r ∈ log, r.version ≤ v ↔ r.version ≤ v') (k : κ) :
    lookup default log v k = lookup default log v' k := by
  induction log using List.reverseRecOn with
  | nil => rfl
  | append_singleton log r ih =>
      have hr := h r (by simp)
      rw [lookup_concat, lookup_concat, ih fun r' hr' => h r' (by simp [hr'])]
      simp only [hr]

end VersionLog
