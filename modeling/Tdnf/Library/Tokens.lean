import Mathlib.Data.List.TakeWhile

/-!
# Tokens between separators

The tokens of a text are what stands between its separators, where that is not
empty. A scan finds them one after the other.
-/

namespace Tokens

variable {α : Type} [DecidableEq α] {sep : α} {s t : List α}

/-- The parts between separators that are not empty. -/
def tokens (sep : α) (s : List α) : List (List α) := (s.splitOn sep).filter fun w => w ≠ []

/-- Skip separators and take what is before the next one, again and again. -/
def scan (sep : α) (s : List α) : List (List α) :=
  match h : s.dropWhile (· = sep) with
  | [] => []
  | c :: rest => (c :: rest.takeWhile (· ≠ sep)) :: scan sep (rest.dropWhile (· ≠ sep))
termination_by s.length
decreasing_by
  have hskip := (List.dropWhile_suffix (· = sep) (l := s)).length_le
  have hrest := (List.dropWhile_suffix (· ≠ sep) (l := rest)).length_le
  rw [h, List.length_cons] at hskip
  omega

theorem tokens_nil : tokens sep [] = [] := rfl

theorem tokens_of_not_mem (hw : sep ∉ s) (hne : s ≠ []) : tokens sep s = [s] := by
  rw [tokens, List.splitOn_eq_singleton hw]
  simp [hne]

/-- A separator ends a token. -/
theorem tokens_append_sep (s t : List α) :
    tokens sep (s ++ sep :: t) = tokens sep s ++ tokens sep t := by
  rw [tokens, List.splitOn_append_cons_self, List.filter_append]
  rfl

theorem tokens_sep_cons (s : List α) : tokens sep (sep :: s) = tokens sep s := by
  have h : tokens sep ([] ++ sep :: s) = tokens sep [] ++ tokens sep s := tokens_append_sep [] s
  rwa [tokens_nil, List.nil_append, List.nil_append] at h

/-- Separators at the start add nothing. -/
theorem tokens_seps_append (ht : ∀ c ∈ t, c = sep) (s : List α) :
    tokens sep (t ++ s) = tokens sep s := by
  induction t with
  | nil => rfl
  | cons c t ih =>
      obtain rfl := ht c List.mem_cons_self
      rw [List.cons_append, tokens_sep_cons, ih fun b hb => ht b (List.mem_cons_of_mem c hb)]

/-- Separators at the end add nothing. -/
theorem tokens_append_seps (s : List α) (ht : ∀ c ∈ t, c = sep) :
    tokens sep (s ++ t) = tokens sep s := by
  cases t with
  | nil => rw [List.append_nil]
  | cons c t =>
      obtain rfl := ht c List.mem_cons_self
      have hnone := tokens_seps_append (fun b hb => ht b (List.mem_cons_of_mem c hb)) []
      rw [List.append_nil, tokens_nil] at hnone
      rw [tokens_append_sep, hnone, List.append_nil]

/-- The tokens hold what is no separator, in its order. -/
theorem flatten_tokens (s : List α) : (tokens sep s).flatten = s.filter (· ≠ sep) := by
  rw [tokens, List.flatten_filter_ne_nil]
  induction s with
  | nil => rfl
  | cons c s ih =>
      rw [List.splitOn_cons_eq_if_modifyHead]
      by_cases hc : c = sep
      · simp [ih, hc]
      · cases hsplit : s.splitOn sep with
        | nil => exact absurd hsplit (List.splitOn_ne_nil sep s)
        | cons w ws =>
            rw [hsplit] at ih
            rw [if_neg (by simpa using hc), List.modifyHead_cons, List.flatten_cons,
              List.filter_cons_of_pos (by simpa using hc), ← ih]
            rfl

theorem scan_eq (s : List α) : scan sep s = tokens sep s := by
  induction s using scan.induct sep with
  | case1 s h =>
      have hall : ∀ c ∈ s, c = sep := by
        simpa using List.dropWhile_eq_nil_iff.mp h
      have hnone := tokens_seps_append hall []
      rw [List.append_nil, tokens_nil] at hnone
      rw [scan, h, hnone]
  | case2 s c rest h ih =>
      have hsplit : s = s.takeWhile (· = sep) ++ c :: rest := by
        rw [← h, List.takeWhile_append_dropWhile]
      have hskip : tokens sep s = tokens sep (c :: rest) := by
        rw [hsplit]
        refine tokens_seps_append (fun b hb => ?_) _
        simpa using List.mem_takeWhile_imp hb
      have hc : c ≠ sep := by
        have hhead := List.head?_dropWhile_not (· = sep) s
        rw [h] at hhead
        simpa using hhead
      have hword : sep ∉ c :: rest.takeWhile (· ≠ sep) := by
        rintro (_ | ⟨_, hmem⟩)
        · exact hc rfl
        · simpa using List.mem_takeWhile_imp hmem
      have hrest : c :: rest =
          (c :: rest.takeWhile (· ≠ sep)) ++ rest.dropWhile (· ≠ sep) := by
        rw [List.cons_append, List.takeWhile_append_dropWhile]
      have hone := tokens_of_not_mem hword (List.cons_ne_nil _ _)
      have hscan : scan sep s = (c :: rest.takeWhile (· ≠ sep)) ::
          scan sep (rest.dropWhile (· ≠ sep)) := by
        rw [scan, h]
      rw [hscan, hskip, ih, hrest]
      cases htail : rest.dropWhile (· ≠ sep) with
      | nil => rw [List.append_nil, hone, tokens_nil]
      | cons b more =>
          obtain rfl : b = sep := by
            have hhead := List.head?_dropWhile_not (· ≠ sep) rest
            rw [htail] at hhead
            simpa using hhead
          rw [tokens_append_sep, tokens_sep_cons, hone]
          rfl

theorem flatten_flatMap_tokens {β : Type} (l : List β) (f : β → List α) :
    (l.flatMap fun b => tokens sep (f b)).flatten = l.flatMap fun b => (f b).filter (· ≠ sep) := by
  induction l with
  | nil => rfl
  | cons b l ih =>
      rw [List.flatMap_cons, List.flatMap_cons, List.flatten_append, flatten_tokens, ih]

theorem length_flatMap_append {β γ : Type} (l : List β) (f g : β → List γ) :
    (l.flatMap fun b => f b ++ g b).length = (l.flatMap f).length + (l.flatMap g).length := by
  induction l with
  | nil => rfl
  | cons b l ih =>
      simp only [List.flatMap_cons, List.length_append, ih]
      omega

/-- Parts that are left out lose no token exactly if they hold separators only. -/
theorem flatMap_tokens_eq_iff (views : List (List α × List α)) :
    (views.flatMap fun v => tokens sep v.1) = (views.flatMap fun v => tokens sep (v.1 ++ v.2)) ↔
      ∀ v ∈ views, ∀ c ∈ v.2, c = sep := by
  constructor
  · intro h
    have hletters := congrArg (fun ts => ts.flatten.length) h
    rw [flatten_flatMap_tokens, flatten_flatMap_tokens] at hletters
    simp only [List.filter_append, length_flatMap_append] at hletters
    have hnil : (views.flatMap fun v => v.2.filter (· ≠ sep)) = [] :=
      List.eq_nil_of_length_eq_zero (by omega)
    intro v hv c hc
    have hlost := List.filter_eq_nil_iff.mp (List.flatMap_eq_nil_iff.mp hnil v hv) c hc
    simpa using hlost
  · intro h
    rw [List.flatMap, List.flatMap, List.map_congr_left]
    exact fun v hv => (tokens_append_seps v.1 (h v hv)).symm

end Tokens
