import Mathlib.Data.Int.Order.Basic
import Mathlib.Order.Nat
import Mathlib.Logic.Function.Basic

/-!
# Timelines

A timeline gives every key a value at every version. From its newest version on
nothing changes. It grows by a version that repeats the newest values, and the
newest values may be replaced; what was below the newest version is never touched.
-/

/-- Values of keys at versions, constant from the newest version on. -/
@[ext]
structure Timeline (κ β : Type*) where
  newest : ℕ
  value : ℤ → κ → β
  settled : ∀ t : ℤ, newest ≤ t → value t = value newest

namespace Timeline

variable {κ β : Type*}

/-- The timeline before its first version. -/
def constant (b : β) : Timeline κ β := ⟨0, fun _ _ => b, fun _ _ => rfl⟩

/-- The values at the newest version. -/
def current (τ : Timeline κ β) : κ → β := τ.value τ.newest

/-- One more version with the values of the newest one. -/
def extend (τ : Timeline κ β) : Timeline κ β where
  newest := τ.newest + 1
  value := τ.value
  settled t ht := by
    rw [τ.settled t (by omega), τ.settled (τ.newest + 1 : ℕ) (by omega)]

/-- Other values at the newest version. -/
def assign (τ : Timeline κ β) (f : κ → β) : Timeline κ β where
  newest := τ.newest
  value t := if t < τ.newest then τ.value t else f
  settled t ht := by rw [if_neg (not_lt.mpr ht), if_neg (lt_irrefl _)]

/-- The value of one key at the newest version. -/
def put [DecidableEq κ] (τ : Timeline κ β) (k : κ) (b : β) : Timeline κ β :=
  τ.assign (Function.update τ.current k b)

/-- Make the newest values those of version `t`. -/
def restore (τ : Timeline κ β) (t : ℤ) : Timeline κ β := τ.assign (τ.value t)

/-- Give the keys that differ between two versions their value at the second. -/
def replay [DecidableEq β] (τ : Timeline κ β) (first last : ℤ) : Timeline κ β :=
  τ.assign fun k => if τ.value first k ≠ τ.value last k then τ.value last k else τ.current k

section Values

variable (τ : Timeline κ β) {t : ℤ}

@[simp] theorem constant_newest (b : β) : (constant b : Timeline κ β).newest = 0 := rfl

@[simp] theorem constant_value (b : β) (t : ℤ) (k : κ) :
    (constant b : Timeline κ β).value t k = b := rfl

@[simp] theorem extend_newest : τ.extend.newest = τ.newest + 1 := rfl

@[simp] theorem extend_value : τ.extend.value = τ.value := rfl

theorem value_of_newest_le (ht : τ.newest ≤ t) : τ.value t = τ.current := τ.settled t ht

@[simp] theorem extend_current : τ.extend.current = τ.current :=
  τ.settled (τ.newest + 1 : ℕ) (by omega)

@[simp] theorem assign_newest (f : κ → β) : (τ.assign f).newest = τ.newest := rfl

theorem assign_value_of_lt (f : κ → β) (ht : t < τ.newest) : (τ.assign f).value t = τ.value t :=
  if_pos ht

@[simp] theorem assign_current (f : κ → β) : (τ.assign f).current = f := if_neg (lt_irrefl _)

theorem assign_value_of_le (f : κ → β) (ht : τ.newest ≤ t) : (τ.assign f).value t = f :=
  if_neg (not_lt.mpr ht)

/-- The newest values may be replaced again. -/
@[simp] theorem assign_assign (f g : κ → β) : (τ.assign f).assign g = τ.assign g := by
  refine Timeline.ext rfl (funext fun t => ?_)
  rcases lt_or_ge t τ.newest with ht | ht
  · rw [assign_value_of_lt (τ.assign f) g ht, τ.assign_value_of_lt f ht, τ.assign_value_of_lt g ht]
  · rw [assign_value_of_le (τ.assign f) g ht, τ.assign_value_of_le g ht]

@[simp] theorem assign_self : τ.assign τ.current = τ := by
  refine Timeline.ext rfl (funext fun t => ?_)
  rcases lt_or_ge t τ.newest with ht | ht
  · rw [assign_value_of_lt _ _ ht]
  · rw [assign_value_of_le _ _ ht, τ.value_of_newest_le ht]

@[simp] theorem put_newest [DecidableEq κ] (k : κ) (b : β) : (τ.put k b).newest = τ.newest := rfl

@[simp] theorem put_current [DecidableEq κ] (k : κ) (b : β) :
    (τ.put k b).current = Function.update τ.current k b := τ.assign_current _

@[simp] theorem restore_newest (t : ℤ) : (τ.restore t).newest = τ.newest := rfl

@[simp] theorem restore_current (t : ℤ) : (τ.restore t).current = τ.value t :=
  τ.assign_current _

@[simp] theorem replay_newest [DecidableEq β] (first last : ℤ) :
    (τ.replay first last).newest = τ.newest := rfl

end Values

/-- `υ` continues `τ`: what was below the newest version of `τ` is still the same. -/
structure Past (τ υ : Timeline κ β) : Prop where
  newest : τ.newest ≤ υ.newest
  value : ∀ t : ℤ, t < τ.newest → υ.value t = τ.value t

section Past

variable {τ υ ω : Timeline κ β}

theorem Past.refl (τ : Timeline κ β) : Past τ τ := ⟨le_rfl, fun _ _ => rfl⟩

theorem Past.trans (h : Past τ υ) (h' : Past υ ω) : Past τ ω where
  newest := h.newest.trans h'.newest
  value t ht := by
    have hlater : t < υ.newest := ht.trans_le (Int.ofNat_le.mpr h.newest)
    rw [h'.value t hlater, h.value t ht]

theorem past_extend (τ : Timeline κ β) : Past τ τ.extend := ⟨Nat.le_succ _, fun _ _ => rfl⟩

theorem past_assign (τ : Timeline κ β) (f : κ → β) : Past τ (τ.assign f) :=
  ⟨le_rfl, fun _ ht => τ.assign_value_of_lt f ht⟩

end Past

end Timeline
