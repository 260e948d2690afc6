import Mathlib.Data.List.Sort
import Mathlib.Data.List.Perm.Basic
import Mathlib.Data.List.Perm.Subperm

/-!
# Merge difference of ordered lists

One pass over two ordered lists separates the elements that occur only in the
first from those that occur only in the second. Repeated elements are matched
one by one, so the result is the multiset difference in both directions.
-/

namespace OrderedDiff

variable {α : Type*} [LinearOrder α]

/-- The pass over the second list while the first one starts with `x`. -/
def step (x : α) (xs : List α) (rest : List α → List α × List α) :
    List α → List α × List α
  | [] => (x :: xs, [])
  | y :: ys =>
      if x = y then rest ys
      else if y < x then
        let r := step x xs rest ys
        (r.1, y :: r.2)
      else
        let r := rest (y :: ys)
        (x :: r.1, r.2)

/-- The elements found only in the first and only in the second list. -/
def diff : List α → List α → List α × List α
  | [], ys => ([], ys)
  | x :: xs, ys => step x xs (diff xs) ys

@[simp] theorem diff_nil_left (ys : List α) : diff [] ys = ([], ys) := rfl

@[simp] theorem diff_nil_right (xs : List α) : diff xs [] = (xs, []) := by
  cases xs with
  | nil => rfl
  | cons x xs => rfl

theorem diff_cons_cons (x y : α) (xs ys : List α) :
    diff (x :: xs) (y :: ys) =
      if x = y then diff xs ys
      else if y < x then ((diff (x :: xs) ys).1, y :: (diff (x :: xs) ys).2)
      else (x :: (diff xs (y :: ys)).1, (diff xs (y :: ys)).2) := rfl

/-- Both results are sublists of their inputs, whatever the order of these. -/
theorem diff_sublist (xs ys : List α) :
    (diff xs ys).1.Sublist xs ∧ (diff xs ys).2.Sublist ys := by
  induction xs generalizing ys with
  | nil => exact ⟨List.Sublist.refl _, List.Sublist.refl _⟩
  | cons x xs ihx =>
      induction ys with
      | nil => exact ⟨List.Sublist.refl _, List.Sublist.refl _⟩
      | cons y ys ihy =>
          rw [diff_cons_cons]
          split_ifs with heq hlt
          · exact ⟨(ihx ys).1.cons x, (ihx ys).2.cons y⟩
          · exact ⟨ihy.1, ihy.2.cons_cons y⟩
          · exact ⟨(ihx (y :: ys)).1.cons_cons x, (ihx (y :: ys)).2⟩

/-- What the second list lacks is left over from the first, whatever their order. -/
theorem mem_diff_fst_of_notMem {xs ys : List α} {a : α} (hx : a ∈ xs) (hy : a ∉ ys) :
    a ∈ (diff xs ys).1 := by
  induction xs generalizing ys with
  | nil => cases hx
  | cons x xs ihx =>
      induction ys with
      | nil => exact hx
      | cons y ys ihy =>
          obtain ⟨hne, hys⟩ := not_or.mp (List.mem_cons.not.mp hy)
          rw [diff_cons_cons]
          split_ifs with heq hlt
          · exact ihx (List.mem_of_ne_of_mem (heq ▸ hne) hx) hys
          · exact ihy hys
          · rcases List.mem_cons.mp hx with rfl | hx
            · exact List.mem_cons_self
            · exact List.mem_cons_of_mem _ (ihx hx hy)

/-- On ordered lists each element keeps its surplus over the other side. -/
theorem diff_count {xs ys : List α} (hx : xs.Pairwise (· ≤ ·)) (hy : ys.Pairwise (· ≤ ·))
    (a : α) :
    (diff xs ys).1.count a = xs.count a - ys.count a ∧
      (diff xs ys).2.count a = ys.count a - xs.count a := by
  induction xs generalizing ys with
  | nil => simp
  | cons x xs ihx =>
      obtain ⟨hxle, hxs⟩ := List.pairwise_cons.mp hx
      induction ys with
      | nil => simp
      | cons y ys ihy =>
          obtain ⟨hyle, hys⟩ := List.pairwise_cons.mp hy
          rw [diff_cons_cons]
          split_ifs with heq hlt
          · subst heq
            have h := ihx hxs hys
            simp only [List.count_cons]
            omega
          · -- `y` is smaller than everything on the left
            have hy0 : (x :: xs).count y = 0 := by
              apply List.count_eq_zero.mpr
              intro hmem
              rcases List.mem_cons.mp hmem with h | h
              · exact heq h.symm
              · exact absurd (hxle y h) (not_le.mpr hlt)
            have h := ihy hys
            by_cases hay : y = a
            · subst hay
              simp only [List.count_cons_self, hy0] at h ⊢
              omega
            · rw [List.count_cons_of_ne hay, List.count_cons_of_ne hay]
              exact h
          · -- `x` is smaller than everything on the right
            have hxy : x < y := lt_of_le_of_ne (not_lt.mp hlt) heq
            have hx0 : (y :: ys).count x = 0 := by
              apply List.count_eq_zero.mpr
              intro hmem
              rcases List.mem_cons.mp hmem with h | h
              · exact heq h
              · exact absurd (hyle x h) (not_le.mpr hxy)
            have h := ihx hxs hy
            by_cases hax : x = a
            · subst hax
              simp only [List.count_cons_self, hx0] at h ⊢
              omega
            · rw [List.count_cons_of_ne hax, List.count_cons_of_ne hax]
              exact h

/-- On duplicate-free ordered lists membership is plain set difference. -/
theorem mem_diff {xs ys : List α} (hx : xs.Pairwise (· < ·)) (hy : ys.Pairwise (· < ·))
    (a : α) :
    (a ∈ (diff xs ys).1 ↔ a ∈ xs ∧ a ∉ ys) ∧ (a ∈ (diff xs ys).2 ↔ a ∈ ys ∧ a ∉ xs) := by
  have hcount := diff_count (hx.imp le_of_lt) (hy.imp le_of_lt) a
  have hxn := List.nodup_iff_count_le_one.mp (hx.imp ne_of_lt) a
  have hyn := List.nodup_iff_count_le_one.mp (hy.imp ne_of_lt) a
  simp only [← List.count_pos_iff, hcount.1, hcount.2]
  omega

/-- Lists that hold each common element equally often differ as sets do. -/
theorem diff_perm_filter {xs ys : List α} (hx : xs.Pairwise (· ≤ ·)) (hy : ys.Pairwise (· ≤ ·))
    (h : ∀ a ∈ xs, a ∈ ys → xs.count a = ys.count a) :
    (diff xs ys).1.Perm (xs.filter (· ∉ ys)) ∧ (diff xs ys).2.Perm (ys.filter (· ∉ xs)) := by
  have hfilter : ∀ {us vs : List α} (a : α), (us.filter (· ∉ vs)).count a =
      if a ∈ vs then 0 else us.count a := by
    intro us vs a
    split_ifs with hmem
    · exact List.count_eq_zero.mpr (by simp [hmem])
    · exact List.count_filter (by simpa using hmem)
  constructor
  · refine List.perm_iff_count.mpr fun a => ?_
    rw [(diff_count hx hy a).1, hfilter]
    split_ifs with hmem
    · by_cases hxs : a ∈ xs
      · have := h a hxs hmem
        omega
      · rw [List.count_eq_zero.mpr hxs, Nat.zero_sub]
    · rw [List.count_eq_zero.mpr hmem, Nat.sub_zero]
  · refine List.perm_iff_count.mpr fun a => ?_
    rw [(diff_count hx hy a).2, hfilter]
    split_ifs with hmem
    · by_cases hys : a ∈ ys
      · have := h a hmem hys
        omega
      · rw [List.count_eq_zero.mpr hys, Nat.zero_sub]
    · rw [List.count_eq_zero.mpr hmem, Nat.sub_zero]

/-- Strict order survives on both sides. -/
theorem diff_ascending {xs ys : List α} (hx : xs.Pairwise (· < ·))
    (hy : ys.Pairwise (· < ·)) :
    (diff xs ys).1.Pairwise (· < ·) ∧ (diff xs ys).2.Pairwise (· < ·) :=
  ⟨hx.sublist (diff_sublist xs ys).1, hy.sublist (diff_sublist xs ys).2⟩

/-- Exchanging the inputs exchanges the outputs. -/
theorem diff_swap (xs ys : List α) : diff ys xs = (diff xs ys).swap := by
  induction xs generalizing ys with
  | nil => simp
  | cons x xs ihx =>
      induction ys with
      | nil => simp
      | cons y ys ihy =>
          rw [diff_cons_cons, diff_cons_cons]
          rcases lt_trichotomy x y with h | h | h
          · simp [h, h.ne, h.ne', ihx, not_lt.mpr h.le]
          · simp [h, ihx]
          · simp [h, h.ne, h.ne', ihy, not_lt.mpr h.le]

/-- Ascending lists with the same members are the same list. -/
theorem eq_of_mem_iff {xs ys : List α} (hx : xs.Pairwise (· < ·)) (hy : ys.Pairwise (· < ·))
    (h : ∀ a, a ∈ xs ↔ a ∈ ys) : xs = ys := by
  have hperm : xs.Perm ys :=
    (List.perm_ext_iff_of_nodup (hx.imp ne_of_lt) (hy.imp ne_of_lt)).mpr h
  exact hperm.eq_of_pairwise (fun a b _ _ hab hba => absurd hab (lt_asymm hba)) hx hy

end OrderedDiff
