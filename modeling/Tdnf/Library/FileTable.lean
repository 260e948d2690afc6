import Mathlib.Data.List.Forall2
import Tdnf.Library.Keyed

/-!
# Tables of files

The files of a system in the order in which they came, each under its path. Two
tables may hold the same files in two representations.
-/

namespace FileTable

open Tdnf

variable {P α β : Type}

/-- Files with their paths. -/
abbrev Table (P α : Type) := List (P × α)

namespace Table

/-- The paths of the files. -/
def paths (t : Table P α) : List P := t.map Prod.fst

/-- Another file under the path of an entry. -/
def refill (x : α) (e : P × α) : P × α := (e.1, x)

theorem refill_fst (x : α) (e : P × α) : (refill x e).1 = e.1 := rfl

variable [DecidableEq P]

/-- The file at a path. -/
def read (t : Table P α) (path : P) : Option α := (Keyed.lookup Prod.fst path t).map Prod.snd

/-- A file at a path, in the place of the one that was there. -/
def write (t : Table P α) (path : P) (x : α) : Table P α :=
  if path ∈ t.paths then Keyed.update Prod.fst path (refill x) t else t ++ [(path, x)]

/-- No file at a path. -/
def remove (t : Table P α) (path : P) : Table P α := t.filter fun e => e.1 ≠ path

/-- A file under another path, in the place of the one that was there. -/
def rename (t : Table P α) (old new : P) : Table P α :=
  match t.read old with
  | none => t
  | some x => if old = new then t else (t.remove old).write new x

end Table

section Reading

variable [DecidableEq P] {t : Table P α} {path path' old new : P} {x : α}

theorem read_eq_none_iff : t.read path = none ↔ path ∉ t.paths := by
  rw [Table.read, Option.map_eq_none_iff, Keyed.lookup_eq_none_iff, Table.paths]

theorem read_write : (t.write path x).read path' = if path' = path then some x else t.read path' := by
  by_cases hmem : path ∈ t.paths
  · rw [Table.write, if_pos hmem]
    by_cases heq : path' = path
    · subst heq
      have hfound : ∃ e, Keyed.lookup Prod.fst path' t = some e := Keyed.exists_lookup_iff.mpr hmem
      obtain ⟨e, he⟩ := hfound
      rw [if_pos rfl, Table.read, Keyed.lookup_update_self (Table.refill_fst x), he]
      rfl
    · rw [if_neg heq, Table.read, Keyed.lookup_update_of_ne (Table.refill_fst x) heq, Table.read]
  · rw [Table.write, if_neg hmem, Table.read, Keyed.lookup_append]
    by_cases heq : path' = path
    · subst heq
      rw [if_pos rfl, Keyed.lookup_eq_none_iff.mpr hmem, Option.none_or, Keyed.lookup_cons]
      simp
    · have hne : ¬ (path, x).1 = path' := fun h => heq h.symm
      rw [if_neg heq, Keyed.lookup_cons, if_neg hne, Table.read]
      simp [Keyed.lookup]

theorem read_remove : (t.remove path).read path' = if path' = path then none else t.read path' := by
  by_cases heq : path' = path
  · subst heq
    rw [if_pos rfl, read_eq_none_iff, Table.paths, Table.remove]
    simp
  · rw [if_neg heq, Table.read, Table.remove, Keyed.lookup_filter heq, Table.read]

/-- A file that is put under another path is read there, and no other file is changed. -/
theorem read_rename (h : t.read old = some x) (hne : old ≠ new) : (t.rename old new).read path =
    if path = new then some x else if path = old then none else t.read path := by
  simp only [Table.rename, h]
  rw [if_neg hne, read_write, read_remove]

theorem paths_write : (t.write path x).paths =
    if path ∈ t.paths then t.paths else t.paths ++ [path] := by
  rw [Table.write]
  split
  · rw [Table.paths, Keyed.map_key_update (Table.refill_fst x), Table.paths]
  · simp [Table.paths]

theorem paths_remove : (t.remove path).paths = t.paths.filter (· ≠ path) := by
  simp only [Table.paths, Table.remove, List.filter_map]
  rfl

end Reading

/-! ## Tables side by side -/

/-- The same paths in the same order, with files that are related. -/
def Alike (R : α → β → Prop) (t : Table P α) (u : Table P β) : Prop :=
  List.Forall₂ (fun e f => e.1 = f.1 ∧ R e.2 f.2) t u

namespace Alike

variable {R : α → β → Prop} {t : Table P α} {u : Table P β} {path old new : P} {x : α} {y : β}

theorem paths (h : Alike R t u) : t.paths = u.paths := by
  induction h with
  | nil => rfl
  | cons hhead _ ih =>
      rw [Table.paths, List.map_cons, hhead.1]
      exact congrArg _ ih

theorem append (h : Alike R t u) (hxy : R x y) :
    Alike R (t ++ [(path, x)]) (u ++ [(path, y)]) :=
  List.rel_append h (.cons ⟨rfl, hxy⟩ .nil)

variable [DecidableEq P]

theorem read (h : Alike R t u) (path : P) : (t.read path = none ∧ u.read path = none) ∨
    ∃ x y, t.read path = some x ∧ u.read path = some y ∧ R x y := by
  induction h with
  | nil => exact .inl ⟨rfl, rfl⟩
  | @cons e f t u hhead _ ih =>
      rw [Table.read, Table.read, Keyed.lookup_cons, Keyed.lookup_cons, ← hhead.1]
      by_cases heq : e.1 = path
      · rw [if_pos heq, if_pos heq]
        exact .inr ⟨e.2, f.2, rfl, rfl, hhead.2⟩
      · rw [if_neg heq, if_neg heq]
        exact ih

theorem update (h : Alike R t u) (hxy : R x y) :
    Alike R (Keyed.update Prod.fst path (Table.refill x) t)
      (Keyed.update Prod.fst path (Table.refill y) u) := by
  induction h with
  | nil => exact .nil
  | @cons e f t u hhead htail ih =>
      by_cases heq : e.1 = path
      · rw [Keyed.update_cons_of_eq heq, Keyed.update_cons_of_eq (hhead.1 ▸ heq)]
        exact .cons ⟨hhead.1, hxy⟩ htail
      · rw [Keyed.update_cons_of_ne heq, Keyed.update_cons_of_ne (hhead.1 ▸ heq)]
        exact .cons hhead ih

theorem write (h : Alike R t u) (hxy : R x y) : Alike R (t.write path x) (u.write path y) := by
  rw [Table.write, Table.write, h.paths]
  split
  · exact h.update hxy
  · exact h.append hxy

theorem remove (h : Alike R t u) : Alike R (t.remove path) (u.remove path) := by
  induction h with
  | nil => exact .nil
  | @cons e f t u hhead htail ih =>
      simp only [Table.remove] at ih ⊢
      by_cases heq : e.1 = path
      · rw [List.filter_cons_of_neg (by simp [heq]),
          List.filter_cons_of_neg (by simp [← hhead.1, heq])]
        exact ih
      · rw [List.filter_cons_of_pos (by simp [heq]),
          List.filter_cons_of_pos (by simp [← hhead.1, heq])]
        exact .cons hhead ih

theorem rename (h : Alike R t u) : Alike R (t.rename old new) (u.rename old new) := by
  obtain ⟨ht, hu⟩ | ⟨x, y, ht, hu, hxy⟩ := h.read old
  · simp only [Table.rename, ht, hu]
    exact h
  · simp only [Table.rename, ht, hu]
    split
    · exact h
    · exact h.remove.write hxy

end Alike

end FileTable
