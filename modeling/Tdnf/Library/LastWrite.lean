import Mathlib.Data.List.Basic

/-!
# Loops that overwrite their result

A loop keeps its result in one variable. Every iteration writes it and either
leaves the loop or goes on. The result is the value of the first iteration that
leaves, and if there is none, that of the last iteration.
-/

namespace Tdnf.LastWrite

variable {R : Type*}

/-- What one iteration writes. -/
inductive Write (R : Type*) where
  | goOn (r : R)
  | leave (r : R)

def Write.left? : Write R → Option R
  | .goOn _ => none
  | .leave r => some r

def Write.value : Write R → R
  | .goOn r => r
  | .leave r => r

/-- The result of the loop over the remaining iterations. -/
def result (r : R) : List (Write R) → R
  | [] => r
  | .leave r' :: _ => r'
  | .goOn r' :: rest => result r' rest

/-- The first iteration that leaves decides, or else the last one. -/
theorem result_eq (r : R) (writes : List (Write R)) :
    result r writes =
      (writes.findSome? Write.left?).getD ((writes.getLast?.map Write.value).getD r) := by
  induction writes generalizing r with
  | nil => rfl
  | cons w rest ih =>
      cases w with
      | leave r' => rfl
      | goOn r' =>
          rw [result, ih, List.findSome?_cons]
          cases rest with
          | nil => rfl
          | cons w' rest => simp [Write.left?, List.getLast?_cons]

variable {writes : List (Write R)} {r : R}

/-- A loop that no iteration leaves ends with the value of its last iteration. -/
theorem result_of_not_left (h : ∀ w ∈ writes, w.left? = none) :
    result r writes = (writes.getLast?.map Write.value).getD r := by
  rw [result_eq, List.findSome?_eq_none_iff.mpr h, Option.getD_none]

/-- A loop that some iteration leaves ends with the value of such an iteration. -/
theorem leave_result_mem (h : ∃ w ∈ writes, w.left?.isSome) :
    .leave (result r writes) ∈ writes := by
  obtain ⟨r', hfound⟩ := Option.isSome_iff_exists.mp (List.findSome?_isSome_iff.mpr h)
  rw [result_eq, hfound, Option.getD_some]
  obtain ⟨w, hw, hleft⟩ := List.exists_of_findSome?_eq_some hfound
  cases w with
  | goOn r₂ => cases hleft
  | leave r₂ =>
      obtain rfl : r₂ = r' := Option.some.inj hleft
      exact hw

end Tdnf.LastWrite
