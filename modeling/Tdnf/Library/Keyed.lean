import Mathlib.Data.List.Basic

/-!
# Lists with keys, read at the first match

The entries of a list have keys, and a key may occur more than once. Reading
and updating both stop at the first entry with the key, so that an update is
seen by every reader of its key and by no reader of another one.
-/

namespace Tdnf.Keyed

variable {N K : Type*} [DecidableEq K] {key : N → K}

/-- The first entry with the key. -/
def lookup (key : N → K) (k : K) (l : List N) : Option N := l.find? fun x => key x = k

/-- Change the first entry with the key. -/
def update (key : N → K) (k : K) (f : N → N) : List N → List N
  | [] => []
  | x :: xs => if key x = k then f x :: xs else x :: update key k f xs

theorem lookup_cons (k : K) (x : N) (xs : List N) :
    lookup key k (x :: xs) = if key x = k then some x else lookup key k xs := by
  by_cases h : key x = k <;> simp [lookup, h]

theorem lookup_eq_none_iff {k : K} {l : List N} : lookup key k l = none ↔ k ∉ l.map key := by
  simp [lookup]

theorem exists_lookup_iff {k : K} {l : List N} :
    (∃ x, lookup key k l = some x) ↔ k ∈ l.map key := by
  rw [← not_iff_not, ← lookup_eq_none_iff, Option.eq_none_iff_forall_ne_some]
  simp

theorem mem_of_lookup {k : K} {l : List N} {x : N} (h : lookup key k l = some x) : x ∈ l :=
  List.mem_of_find?_eq_some h

theorem key_of_lookup {k : K} {l : List N} {x : N} (h : lookup key k l = some x) : key x = k := by
  simpa using List.find?_some h

theorem lookup_append (k : K) (l l' : List N) :
    lookup key k (l ++ l') = (lookup key k l).or (lookup key k l') :=
  List.find?_append

section Update

variable {k : K} {f : N → N}

theorem update_cons_of_eq {x : N} (h : key x = k) (xs : List N) :
    update key k f (x :: xs) = f x :: xs := if_pos h

theorem update_cons_of_ne {x : N} (h : key x ≠ k) (xs : List N) :
    update key k f (x :: xs) = x :: update key k f xs := if_neg h

/-- Entries in front that have other keys are passed over. -/
theorem update_append {l : List N} (h : k ∉ l.map key) (l' : List N) :
    update key k f (l ++ l') = l ++ update key k f l' := by
  induction l with
  | nil => rfl
  | cons x xs ih =>
      rw [List.map_cons, List.mem_cons, not_or] at h
      rw [List.cons_append, update_cons_of_ne (Ne.symm h.1), ih h.2, List.cons_append]

/-- An update that keeps the keys of entries keeps the list of keys. -/
theorem map_key_update (hf : ∀ x, key (f x) = key x) (l : List N) :
    (update key k f l).map key = l.map key := by
  induction l with
  | nil => rfl
  | cons x xs ih =>
      by_cases h : key x = k
      · rw [update_cons_of_eq h, List.map_cons, List.map_cons, hf]
      · rw [update_cons_of_ne h, List.map_cons, List.map_cons, ih]

/-- The updated entry is what a reader of its key finds. -/
theorem lookup_update_self (hf : ∀ x, key (f x) = key x) (l : List N) :
    lookup key k (update key k f l) = (lookup key k l).map f := by
  induction l with
  | nil => rfl
  | cons x xs ih =>
      by_cases h : key x = k
      · rw [update_cons_of_eq h, lookup_cons, lookup_cons, if_pos h, if_pos ((hf x).trans h),
          Option.map_some]
      · rw [update_cons_of_ne h, lookup_cons, lookup_cons, if_neg h, if_neg h, ih]

/-- Entries with other keys are left alone, and stay in their order. -/
theorem filter_update_of_ne (hf : ∀ x, key (f x) = key x) (l : List N) :
    (update key k f l).filter (fun x => key x ≠ k) = l.filter fun x => key x ≠ k := by
  induction l with
  | nil => rfl
  | cons x xs ih =>
      by_cases h : key x = k
      · rw [update_cons_of_eq h, List.filter_cons_of_neg (by simp [hf, h]),
          List.filter_cons_of_neg (by simp [h])]
      · rw [update_cons_of_ne h, List.filter_cons_of_pos (by simp [h]),
          List.filter_cons_of_pos (by simp [h]), ih]

/-- Replacing the entry that is found is changing it. -/
theorem update_const {l : List N} {x : N} (h : lookup key k l = some x) :
    update key k (fun _ => f x) l = update key k f l := by
  induction l with
  | nil => rfl
  | cons y ys ih =>
      rw [lookup_cons] at h
      by_cases hy : key y = k
      · rw [if_pos hy] at h
        rw [update_cons_of_eq hy, update_cons_of_eq hy, Option.some_inj.mp h]
      · rw [if_neg hy] at h
        rw [update_cons_of_ne hy, update_cons_of_ne hy, ih h]

/-- What holds of all entries, and of all changed ones, holds after the update. -/
theorem forall_mem_update {P : N → Prop} {l : List N} (hl : ∀ x ∈ l, P x)
    (hf : ∀ x, key x = k → P x → P (f x)) : ∀ x ∈ update key k f l, P x := by
  induction l with
  | nil => simp [update]
  | cons y ys ih =>
      obtain ⟨hy, hys⟩ := List.forall_mem_cons.mp hl
      by_cases h : key y = k
      · rw [update_cons_of_eq h]
        exact List.forall_mem_cons.mpr ⟨hf y h hy, hys⟩
      · rw [update_cons_of_ne h]
        exact List.forall_mem_cons.mpr ⟨hy, ih hys⟩

end Update

/-- A reader of a key sees nothing of the entries with other keys. -/
theorem lookup_filter {k k' : K} (h : k' ≠ k) (l : List N) :
    lookup key k' (l.filter fun x => key x ≠ k) = lookup key k' l := by
  induction l with
  | nil => rfl
  | cons x xs ih =>
      by_cases hx : key x = k
      · rw [List.filter_cons_of_neg (by simp [hx]), ih, lookup_cons,
          if_neg (hx ▸ (Ne.symm h : k ≠ k'))]
      · rw [List.filter_cons_of_pos (by simp [hx]), lookup_cons, lookup_cons, ih]

/-- An update is not seen by the readers of other keys. -/
theorem lookup_update_of_ne {k k' : K} {f : N → N} (hf : ∀ x, key (f x) = key x) (h : k' ≠ k)
    (l : List N) : lookup key k' (update key k f l) = lookup key k' l := by
  rw [← lookup_filter h, filter_update_of_ne hf, lookup_filter h]

/-! ## Dropping the first entry with a key -/

/-- The other keys are found where they were. -/
theorem lookup_eraseP_of_ne {k k' : K} (h : k' ≠ k) (l : List N) :
    lookup key k' (l.eraseP fun x => key x = k) = lookup key k' l := by
  induction l with
  | nil => rfl
  | cons x xs ih =>
      by_cases hx : key x = k
      · have hne : key x ≠ k' := fun hk => h (hk.symm.trans hx)
        rw [List.eraseP_cons_of_pos (by simp [hx]), lookup_cons, if_neg hne]
      · rw [List.eraseP_cons_of_neg (by simp [hx]), lookup_cons, lookup_cons, ih]

/-- A key that occurs once is gone. -/
theorem lookup_eraseP_self {k : K} {l : List N}
    (h : (l.map key).Pairwise fun m n => m = k → n ≠ k) :
    lookup key k (l.eraseP fun x => key x = k) = none := by
  induction l with
  | nil => rfl
  | cons x xs ih =>
      rw [List.map_cons, List.pairwise_cons] at h
      by_cases hx : key x = k
      · rw [List.eraseP_cons_of_pos (by simp [hx]), lookup_eq_none_iff]
        exact fun hmem => h.1 k hmem hx rfl
      · rw [List.eraseP_cons_of_neg (by simp [hx]), lookup_cons, if_neg hx, ih h.2]

end Tdnf.Keyed
