import Mathlib.Data.List.Sort
import Mathlib.Data.List.Nodup
import Mathlib.Data.Set.Basic

/-!
# Tables with autoincrement keys

A table keeps its rows in key order together with the largest key that was ever
handed out. Keys are positive, strictly ascending and never reused, so the last
row is the newest one and a key determines its row.
-/

namespace Relational

variable {α : Type*}

/-- A table whose integer primary key is assigned by an ever growing sequence. -/
structure AutoTable (α : Type*) where
  rows : List (ℕ × α)
  seq : ℕ
  ascending : rows.Pairwise fun r s => r.1 < s.1
  keys : ∀ r ∈ rows, 0 < r.1 ∧ r.1 ≤ seq

namespace AutoTable

/-- The table right after its creation. -/
def empty : AutoTable α where
  rows := []
  seq := 0
  ascending := List.Pairwise.nil
  keys := by simp

@[simp] theorem empty_rows : (empty : AutoTable α).rows = [] := rfl

@[simp] theorem empty_seq : (empty : AutoTable α).seq = 0 := rfl

/-- Append one row under the next key of the sequence. -/
def insert (t : AutoTable α) (a : α) : AutoTable α where
  rows := t.rows ++ [(t.seq + 1, a)]
  seq := t.seq + 1
  ascending := by
    refine List.pairwise_append.mpr ⟨t.ascending, List.pairwise_singleton _ _, ?_⟩
    intro r hr s hs
    have hle := (t.keys r hr).2
    rw [List.mem_singleton.mp hs]
    simp only
    omega
  keys := by
    intro r hr
    rcases List.mem_append.mp hr with h | h
    · have hk := t.keys r h
      omega
    · rw [List.mem_singleton.mp h]
      simp

@[simp] theorem insert_rows (t : AutoTable α) (a : α) :
    (t.insert a).rows = t.rows ++ [(t.seq + 1, a)] := rfl

@[simp] theorem insert_seq (t : AutoTable α) (a : α) : (t.insert a).seq = t.seq + 1 := rfl

theorem mem_insert (t : AutoTable α) (a : α) (r : ℕ × α) :
    r ∈ (t.insert a).rows ↔ r ∈ t.rows ∨ r = (t.seq + 1, a) := by
  simp

/-- Append several rows, each under its own new key. -/
def insertAll (t : AutoTable α) (as : List α) : AutoTable α :=
  as.foldl insert t

@[simp] theorem insertAll_nil (t : AutoTable α) : t.insertAll [] = t := rfl

@[simp] theorem insertAll_cons (t : AutoTable α) (a : α) (as : List α) :
    t.insertAll (a :: as) = (t.insert a).insertAll as := rfl

theorem insertAll_append (t : AutoTable α) (as bs : List α) :
    t.insertAll (as ++ bs) = (t.insertAll as).insertAll bs :=
  List.foldl_append

/-- The stored values in key order. -/
def values (t : AutoTable α) : List α := t.rows.map Prod.snd

@[simp] theorem values_empty : (empty : AutoTable α).values = [] := rfl

@[simp] theorem values_insert (t : AutoTable α) (a : α) :
    (t.insert a).values = t.values ++ [a] := by
  simp [values]

@[simp] theorem values_insertAll (t : AutoTable α) (as : List α) :
    (t.insertAll as).values = t.values ++ as := by
  induction as generalizing t with
  | nil => simp
  | cons a as ih => simp [ih]

/-- The largest key in use, `0` for a table without rows. -/
def lastKey (t : AutoTable α) : ℕ := (t.rows.getLast?.map Prod.fst).getD 0

@[simp] theorem lastKey_empty : (empty : AutoTable α).lastKey = 0 := rfl

@[simp] theorem lastKey_insert (t : AutoTable α) (a : α) :
    (t.insert a).lastKey = t.seq + 1 := by
  simp [lastKey]

theorem lastKey_le_seq (t : AutoTable α) : t.lastKey ≤ t.seq := by
  cases h : t.rows.getLast? with
  | none => simp [lastKey, h]
  | some r =>
      have hr := t.keys r (List.mem_of_getLast? h)
      simpa [lastKey, h] using hr.2

/-- No key in use exceeds the last one. -/
theorem key_le_lastKey (t : AutoTable α) {r : ℕ × α} (hr : r ∈ t.rows) : r.1 ≤ t.lastKey := by
  obtain ⟨init, last, h⟩ := List.eq_nil_or_concat' t.rows |>.resolve_left (List.ne_nil_of_mem hr)
  have hasc := t.ascending
  simp only [lastKey, h, List.getLast?_append, List.getLast?_singleton, Option.some_or,
    Option.map_some, Option.getD_some]
  rw [h] at hr hasc
  rcases List.mem_append.mp hr with hr | hr
  · exact le_of_lt ((List.pairwise_append.mp hasc).2.2 r hr last (by simp))
  · rw [List.mem_singleton.mp hr]

theorem keys_nodup (t : AutoTable α) : (t.rows.map Prod.fst).Nodup :=
  List.pairwise_map.mpr (t.ascending.imp Nat.ne_of_lt)

/-- A key determines its row. -/
theorem row_unique (t : AutoTable α) {k : ℕ} {a b : α}
    (ha : (k, a) ∈ t.rows) (hb : (k, b) ∈ t.rows) : a = b :=
  congrArg Prod.snd (List.inj_on_of_nodup_map t.keys_nodup ha hb rfl)

/-- The rows of a grown table restrict to the old ones below the old sequence. -/
theorem mem_of_mem_insertAll (t : AutoTable α) (as : List α) {r : ℕ × α}
    (hr : r ∈ (t.insertAll as).rows) (hle : r.1 ≤ t.seq) : r ∈ t.rows := by
  induction as generalizing t with
  | nil => exact hr
  | cons a as ih =>
      have h := ih (t.insert a) hr (by simp; omega)
      rcases (mem_insert t a r).mp h with h | h
      · exact h
      · rw [h] at hle
        exact absurd hle (by simp)

theorem mem_insertAll_of_mem (t : AutoTable α) (as : List α) {r : ℕ × α}
    (hr : r ∈ t.rows) : r ∈ (t.insertAll as).rows := by
  induction as generalizing t with
  | nil => exact hr
  | cons a as ih => exact ih (t.insert a) ((mem_insert t a r).mpr (.inl hr))

/-- Without duplicate values a value determines its key. -/
theorem key_unique (t : AutoTable α) (hnodup : t.values.Nodup) {j k : ℕ} {a : α}
    (hj : (j, a) ∈ t.rows) (hk : (k, a) ∈ t.rows) : j = k :=
  congrArg Prod.fst (List.inj_on_of_nodup_map hnodup hj hk rfl)

/-- Rows with keys in an interval are no more than the interval is long. -/
theorem length_le_of_keys (t : AutoTable α) {rows : List (ℕ × α)} (hsub : rows.Sublist t.rows)
    {a n : ℕ} (hkeys : ∀ r ∈ rows, a ≤ r.1 ∧ r.1 < a + n) : rows.length ≤ n := by
  have hnodup : (rows.map Prod.fst).Nodup := t.keys_nodup.sublist (hsub.map Prod.fst)
  have hsubset : rows.map Prod.fst ⊆ List.range' a n := by
    intro k hk
    obtain ⟨r, hr, rfl⟩ := List.mem_map.mp hk
    exact List.mem_range'_1.mpr (hkeys r hr)
  simpa using (List.subperm_of_subset hnodup hsubset).length_le

section Lookup

variable [DecidableEq α]

/-- The key of the oldest row that holds `a`. -/
def keyOf (t : AutoTable α) (a : α) : Option ℕ :=
  (t.rows.find? fun r => r.2 = a).map Prod.fst

theorem mem_of_keyOf {t : AutoTable α} {a : α} {k : ℕ} (h : t.keyOf a = some k) :
    (k, a) ∈ t.rows := by
  obtain ⟨r, hfind, rfl⟩ := Option.map_eq_some_iff.mp h
  have hval : r.2 = a := by simpa using List.find?_some hfind
  exact hval ▸ List.mem_of_find?_eq_some hfind

/-- Only a value that was not stored yet gets the new key. -/
theorem keyOf_insert (t : AutoTable α) (a b : α) :
    (t.insert a).keyOf b = (t.keyOf b).or (if a = b then some (t.seq + 1) else none) := by
  simp only [keyOf, insert_rows, List.find?_append, Option.map_or]
  by_cases h : a = b <;> simp [h]

theorem keyOf_le_lastKey {t : AutoTable α} {a : α} {k : ℕ} (h : t.keyOf a = some k) :
    0 < k ∧ k ≤ t.lastKey :=
  ⟨(t.keys _ (mem_of_keyOf h)).1, t.key_le_lastKey (mem_of_keyOf h)⟩

theorem keyOf_eq_none_iff (t : AutoTable α) (a : α) : t.keyOf a = none ↔ a ∉ t.values := by
  simp only [keyOf, Option.map_eq_none_iff, List.find?_eq_none, decide_eq_true_eq, values,
    List.mem_map, not_exists, not_and]

end Lookup

end AutoTable

end Relational
