import Tdnf.Library.Tokens
import Mathlib.Data.Nat.Notation

/-!
# Runs between separators

The runs of a text are the longest parts without a separator. A scan skips
separators and takes what is before the next one. Any set of characters may be the
separators.
-/

namespace Runs

variable {α : Type} {sep : α → Bool} {s t gap word rest : List α}

/-- The parts between separators that are not empty. -/
def runs (sep : α → Bool) (s : List α) : List (List α) := (s.splitOnP sep).filter (!·.isEmpty)

/-- With one separator the runs are the tokens. -/
theorem runs_eq_tokens [DecidableEq α] {c : α} (hsep : ∀ d, sep d = true ↔ d = c) (s : List α) :
    runs sep s = Tokens.tokens c s := by
  have hsame : sep = (· == c) := by
    funext d
    rw [Bool.eq_iff_iff, hsep, beq_iff_eq]
  rw [runs, Tokens.tokens, hsame, List.splitOn]
  exact List.filter_congr fun w _ => by cases w <;> simp

theorem runs_nil : runs sep [] = [] := rfl

theorem runs_sep_cons {c : α} (hc : sep c = true) (s : List α) :
    runs sep (c :: s) = runs sep s := by
  rw [runs, List.splitOnP_cons_eq_if_modifyHead, if_pos hc]
  rfl

/-- Separators at the start add nothing. -/
theorem runs_gap_append (hgap : ∀ c ∈ gap, sep c = true) (s : List α) :
    runs sep (gap ++ s) = runs sep s := by
  induction gap with
  | nil => rfl
  | cons c gap ih =>
      rw [List.forall_mem_cons] at hgap
      rw [List.cons_append, runs_sep_cons hgap.1, ih hgap.2]

/-- A run ends at a separator or at the end. -/
theorem runs_word_append (hword : ∀ c ∈ word, sep c = false) (hne : word ≠ [])
    (hrest : ∀ c ∈ rest.head?, sep c = true) : runs sep (word ++ rest) = word :: runs sep rest := by
  have hkeep (words : List (List α)) :
      (word :: words).filter (!·.isEmpty) = word :: words.filter (!·.isEmpty) :=
    List.filter_cons_of_pos (by simpa using hne)
  cases rest with
  | nil =>
      rw [List.append_nil, runs, List.splitOnP_eq_singleton hword, hkeep]
      rfl
  | cons c rest =>
      have hc : sep c = true := hrest c rfl
      rw [runs, List.splitOnP_append_cons_of_forall_mem hword c hc, hkeep, runs_sep_cons hc, runs]

/-! ## Scanning -/

/-- What is left behind a run is shorter. -/
theorem length_dropWhile_lt {c : α} {stop : α → Bool} (h : s.dropWhile sep = c :: rest) :
    (rest.dropWhile stop).length < s.length := by
  have hskip := (List.dropWhile_suffix sep (l := s)).length_le
  have hrest := (List.dropWhile_suffix stop (l := rest)).length_le
  rw [h, List.length_cons] at hskip
  omega

theorem runs_of_dropWhile_nil (h : s.dropWhile sep = []) : runs sep s = [] := by
  have hgap := runs_gap_append (List.dropWhile_eq_nil_iff.mp h) []
  rwa [List.append_nil, runs_nil] at hgap

/-- One step of a scan takes the first run. -/
theorem runs_of_dropWhile_cons {c : α} (h : s.dropWhile sep = c :: rest) : runs sep s =
    (c :: rest.takeWhile fun c => !sep c) :: runs sep (rest.dropWhile fun c => !sep c) := by
  have hc : sep c = false := by
    have hhead := List.head?_dropWhile_not sep s
    rw [h] at hhead
    simpa using hhead
  have hword : ∀ b ∈ c :: rest.takeWhile fun c => !sep c, sep b = false := by
    rw [List.forall_mem_cons]
    refine ⟨hc, fun b hb => ?_⟩
    simpa using List.mem_takeWhile_imp hb
  have hbehind : ∀ b ∈ (rest.dropWhile fun c => !sep c).head?, sep b = true := by
    intro b hb
    have hhead := List.head?_dropWhile_not (fun c => !sep c) rest
    rw [hb] at hhead
    simpa using hhead
  have hskip : ∀ b ∈ s.takeWhile sep, sep b = true := fun b hb => List.mem_takeWhile_imp hb
  calc runs sep s
      = runs sep (s.takeWhile sep ++ s.dropWhile sep) := by rw [List.takeWhile_append_dropWhile]
    _ = runs sep (c :: rest) := by rw [runs_gap_append hskip, h]
    _ = runs sep ((c :: rest.takeWhile fun c => !sep c) ++ rest.dropWhile fun c => !sep c) := by
        rw [List.cons_append, List.takeWhile_append_dropWhile]
    _ = _ := runs_word_append hword (List.cons_ne_nil _ _) hbehind

/-! ## Joining -/

/-- Joined words are the runs again. -/
theorem runs_intercalate {words : List (List α)} (ht : ∀ c ∈ t, sep c = true) (hne : t ≠ [])
    (hwords : ∀ w ∈ words, w ≠ [] ∧ ∀ c ∈ w, sep c = false) :
    runs sep (t.intercalate words) = words := by
  induction words with
  | nil => rfl
  | cons w words ih =>
      rw [List.forall_mem_cons] at hwords
      obtain ⟨⟨hw, hfree⟩, hwords⟩ := hwords
      cases words with
      | nil =>
          rw [List.intercalate_singleton, ← List.append_nil w,
            runs_word_append hfree hw (by simp), runs_nil]
          simp
      | cons v words =>
          have hhead : ∀ c ∈ (t ++ t.intercalate (v :: words)).head?, sep c = true := by
            intro c hc
            obtain ⟨b, rest, rfl⟩ := List.exists_cons_of_ne_nil hne
            obtain rfl : b = c := by simpa using hc
            exact ht b List.mem_cons_self
          rw [List.intercalate_cons_cons, List.append_assoc, runs_word_append hfree hw hhead,
            runs_gap_append ht, ih hwords]

end Runs
