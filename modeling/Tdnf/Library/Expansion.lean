import Mathlib.Data.List.Basic
import Mathlib.Data.List.TakeWhile

/-!
# Texts with references

A mark in a text starts a reference to a name; how far the name reaches is read off
the text behind the mark. Expanding a text puts a value in the place of each
reference. Loops that copy into a block stop at a character or when the block is full.
-/

namespace Expansion

variable {α : Type} {p : α → Bool} {room : ℕ} {dest s t lit : List α}

/-- Copies while the characters are accepted and there is room: what was written, and what is
left to read -/
def copyWhile (p : α → Bool) (room : ℕ) : List α → List α → List α × List α
  | dest, [] => (dest, [])
  | dest, c :: s =>
      if p c ∧ dest.length < room then copyWhile p room (dest ++ [c]) s else (dest, c :: s)

theorem copyWhile_eq (p : α → Bool) (room : ℕ) (dest s : List α) :
    copyWhile p room dest s =
      (dest ++ (s.takeWhile p).take (room - dest.length),
        s.drop ((s.takeWhile p).take (room - dest.length)).length) := by
  induction s generalizing dest with
  | nil => simp [copyWhile]
  | cons c s ih =>
      rw [copyWhile]
      split
      · next h =>
          obtain ⟨n, hn⟩ : ∃ n, room - dest.length = n + 1 :=
            ⟨room - dest.length - 1, by omega⟩
          have hroom : room - (dest ++ [c]).length = n := by
            rw [List.length_append, List.length_singleton]
            omega
          rw [ih, hroom, hn, List.takeWhile_cons_of_pos h.1, List.take_succ_cons]
          simp
      · next h =>
          by_cases hp : p c
          · have hroom : room - dest.length = 0 := by
              have hfull : ¬ dest.length < room := fun hlt => h ⟨hp, hlt⟩
              omega
            simp [hroom]
          · simp [List.takeWhile_cons_of_neg hp]

/-- With room enough, all that is accepted is copied. -/
theorem copyWhile_of_fits (h : dest.length + (s.takeWhile p).length ≤ room) :
    copyWhile p room dest s = (dest ++ s.takeWhile p, s.dropWhile p) := by
  have htake : (s.takeWhile p).take (room - dest.length) = s.takeWhile p :=
    List.take_of_length_le (by omega)
  have hdrop : s.drop (s.takeWhile p).length = s.dropWhile p := by
    calc s.drop (s.takeWhile p).length
        = (s.takeWhile p ++ s.dropWhile p).drop (s.takeWhile p).length := by
          rw [List.takeWhile_append_dropWhile]
      _ = s.dropWhile p := List.drop_left
  rw [copyWhile_eq, htake, hdrop]

/-- Nothing is written outside the block. -/
theorem length_copyWhile_le (h : dest.length ≤ room) :
    (copyWhile p room dest s).1.length ≤ room := by
  rw [copyWhile_eq, List.length_append, List.length_take]
  omega

theorem length_copyWhile_snd_le : (copyWhile p room dest s).2.length ≤ s.length := by
  rw [copyWhile_eq, List.length_drop]
  exact Nat.sub_le _ _

section Expand

variable [DecidableEq α] {mark : α} {nameOf nameOf' value : List α → List α}

/-- The text with each reference replaced by the value of its name -/
def expand (mark : α) (nameOf value : List α → List α) : List α → List α
  | [] => []
  | c :: s =>
      if c = mark then value (nameOf s) ++ expand mark nameOf value (s.drop (nameOf s).length)
      else c :: expand mark nameOf value s
termination_by s => s.length
decreasing_by
  · rw [List.length_drop, List.length_cons]
    omega
  · exact Nat.lt_succ_self _

/-- The names that the text refers to -/
def references (mark : α) (nameOf : List α → List α) : List α → List (List α)
  | [] => []
  | c :: s =>
      if c = mark then nameOf s :: references mark nameOf (s.drop (nameOf s).length)
      else references mark nameOf s
termination_by s => s.length
decreasing_by
  · rw [List.length_drop, List.length_cons]
    omega
  · exact Nat.lt_add_of_pos_right Nat.one_pos

theorem expand_literal (h : mark ∉ lit) : expand mark nameOf value lit = lit := by
  induction lit with
  | nil => rw [expand]
  | cons c lit ih =>
      obtain ⟨hc, hlit⟩ := List.ne_and_not_mem_of_not_mem_cons h
      rw [expand, if_neg (Ne.symm hc), ih hlit]

theorem expand_reference (h : mark ∉ lit) :
    expand mark nameOf value (lit ++ mark :: s) =
      lit ++ (value (nameOf s) ++ expand mark nameOf value (s.drop (nameOf s).length)) := by
  induction lit with
  | nil => rw [List.nil_append, expand, if_pos rfl, List.nil_append]
  | cons c lit ih =>
      obtain ⟨hc, hlit⟩ := List.ne_and_not_mem_of_not_mem_cons h
      rw [List.cons_append, expand, if_neg (Ne.symm hc), ih hlit, List.cons_append]

theorem references_literal (h : mark ∉ lit) : references mark nameOf lit = [] := by
  induction lit with
  | nil => rw [references]
  | cons c lit ih =>
      obtain ⟨hc, hlit⟩ := List.ne_and_not_mem_of_not_mem_cons h
      rw [references, if_neg (Ne.symm hc), ih hlit]

theorem references_reference (h : mark ∉ lit) :
    references mark nameOf (lit ++ mark :: s) =
      nameOf s :: references mark nameOf (s.drop (nameOf s).length) := by
  induction lit with
  | nil => rw [List.nil_append, references, if_pos rfl]
  | cons c lit ih =>
      obtain ⟨hc, hlit⟩ := List.ne_and_not_mem_of_not_mem_cons h
      rw [List.cons_append, references, if_neg (Ne.symm hc), ih hlit]

/-- A text is read from one reference to the next. -/
theorem reference_induction {P : List α → Prop} (mark : α) (nameOf : List α → List α)
    (literal : ∀ lit, mark ∉ lit → P lit)
    (reference : ∀ lit s, mark ∉ lit → P (s.drop (nameOf s).length) → P (lit ++ mark :: s))
    (s : List α) : P s := by
  induction hn : s.length using Nat.strong_induction_on generalizing s with
  | _ n ih =>
      by_cases hmark : mark ∈ s
      · obtain ⟨lit, rest, rfl, hlit⟩ := List.eq_append_cons_of_mem hmark
        refine reference lit rest hlit (ih _ ?_ _ rfl)
        rw [← hn, List.length_append, List.length_cons, List.length_drop]
        omega
      · exact literal s hmark

/-- Two ways to read names that agree on the names of a text expand it alike. -/
theorem expand_congr (h : ∀ s, nameOf s ∈ references mark nameOf t → nameOf' s = nameOf s) :
    expand mark nameOf' value t = expand mark nameOf value t := by
  induction t using reference_induction mark nameOf with
  | literal lit hlit => rw [expand_literal hlit, expand_literal hlit]
  | reference lit s hlit ih =>
      rw [references_reference hlit] at h
      have hname : nameOf' s = nameOf s := h s List.mem_cons_self
      rw [expand_reference hlit, expand_reference hlit, hname,
        ih fun s' hs' => h s' (List.mem_cons_of_mem _ hs')]

end Expand

end Expansion
