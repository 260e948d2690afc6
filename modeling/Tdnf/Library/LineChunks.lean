import Mathlib.Data.List.TakeWhile

/-!
# Reading lines through a buffer

A reader gets a line at a time, with its line end, but no more of it than its
buffer holds. Longer lines come in several pieces.
-/

namespace LineChunks

variable {α : Type} [DecidableEq α]

/-- The items up to and with the next line end, at most `n` of them, and the rest -/
def next (lineEnd : α) : ℕ → List α → List α × List α
  | 0, s => ([], s)
  | _ + 1, [] => ([], [])
  | n + 1, c :: s =>
    if c = lineEnd then ([c], s)
    else (c :: (next lineEnd n s).1, (next lineEnd n s).2)

theorem length_next_le (lineEnd : α) (n : ℕ) (s : List α) :
    (next lineEnd n s).2.length ≤ s.length := by
  induction n generalizing s with
  | zero => rw [next]
  | succ n ih =>
      cases s with
      | nil => rw [next]
      | cons c s =>
          rw [next, List.length_cons]
          split
          · exact Nat.le_succ _
          · exact (ih s).trans (Nat.le_succ _)

/-- What is read until nothing is left, with room for `n + 1` items -/
def pieces (lineEnd : α) (n : ℕ) : List α → List (List α)
  | [] => []
  | c :: s =>
    (next lineEnd (n + 1) (c :: s)).1 :: pieces lineEnd n (next lineEnd (n + 1) (c :: s)).2
termination_by s => s.length
decreasing_by
  rw [next, List.length_cons]
  split
  · exact Nat.lt_succ_self _
  · exact Nat.lt_succ_of_le (length_next_le lineEnd n s)

variable {lineEnd : α} {n : ℕ} {l : List α}

theorem pieces_nil : pieces lineEnd n [] = [] := by
  rw [pieces]

theorem pieces_of_ne_nil {s : List α} (h : s ≠ []) :
    pieces lineEnd n s =
      (next lineEnd (n + 1) s).1 :: pieces lineEnd n (next lineEnd (n + 1) s).2 := by
  cases s with
  | nil => exact absurd rfl h
  | cons c s => rw [pieces]

theorem next_line (hl : lineEnd ∉ l) {m : ℕ} (hm : l.length < m) (s : List α) :
    next lineEnd m (l ++ lineEnd :: s) = (l ++ [lineEnd], s) := by
  induction l generalizing m with
  | nil =>
      obtain ⟨m, rfl⟩ := Nat.exists_eq_succ_of_ne_zero (Nat.ne_of_gt hm)
      rw [List.nil_append, next, if_pos rfl]
      rfl
  | cons c l ih =>
      obtain ⟨m, rfl⟩ := Nat.exists_eq_succ_of_ne_zero (Nat.ne_zero_of_lt hm)
      obtain ⟨hc, hl⟩ := List.ne_and_not_mem_of_not_mem_cons hl
      rw [List.cons_append, next, if_neg (Ne.symm hc), ih hl (Nat.lt_of_succ_lt_succ hm)]
      rfl

theorem next_full (hl : lineEnd ∉ l) (s : List α) :
    next lineEnd l.length (l ++ s) = (l, s) := by
  induction l with
  | nil => rfl
  | cons c l ih =>
      obtain ⟨hc, hl⟩ := List.ne_and_not_mem_of_not_mem_cons hl
      rw [List.cons_append, List.length_cons, next, if_neg (Ne.symm hc), ih hl]

theorem next_last (hl : lineEnd ∉ l) {m : ℕ} (hm : l.length ≤ m) :
    next lineEnd m l = (l, []) := by
  induction l generalizing m with
  | nil => cases m <;> rfl
  | cons c l ih =>
      obtain ⟨m, rfl⟩ := Nat.exists_eq_succ_of_ne_zero (Nat.ne_zero_of_lt hm)
      obtain ⟨hc, hl⟩ := List.ne_and_not_mem_of_not_mem_cons hl
      rw [next, if_neg (Ne.symm hc), ih hl (Nat.le_of_succ_le_succ hm)]

/-- A line that fits is one piece. -/
theorem pieces_line (hl : lineEnd ∉ l) (hn : l.length ≤ n) (s : List α) :
    pieces lineEnd n (l ++ lineEnd :: s) = (l ++ [lineEnd]) :: pieces lineEnd n s := by
  rw [pieces_of_ne_nil (by simp), next_line hl (Nat.lt_succ_of_le hn)]

/-- A piece without a line end fills the buffer, -/
theorem pieces_full (hl : lineEnd ∉ l) (hn : l.length = n + 1) (s : List α) :
    pieces lineEnd n (l ++ s) = l :: pieces lineEnd n s := by
  have hne : l ++ s ≠ [] := by
    intro hnil
    rw [(List.append_eq_nil_iff.mp hnil).1] at hn
    cases hn
  rw [pieces_of_ne_nil hne, ← hn, next_full hl]

/-- or is the last one. -/
theorem pieces_last (hl : lineEnd ∉ l) (hne : l ≠ []) (hn : l.length ≤ n + 1) :
    pieces lineEnd n l = [l] := by
  rw [pieces_of_ne_nil hne, next_last hl hn, pieces_nil]

theorem next_start (hl : lineEnd ∉ l) {m : ℕ} (hm : l.length ≤ m) (s : List α) :
    ∃ t rest, next lineEnd m (l ++ s) = (l ++ t, rest) := by
  induction l generalizing m with
  | nil => exact ⟨_, _, rfl⟩
  | cons c l ih =>
      obtain ⟨m, rfl⟩ := Nat.exists_eq_succ_of_ne_zero (Nat.ne_zero_of_lt hm)
      obtain ⟨hc, hl⟩ := List.ne_and_not_mem_of_not_mem_cons hl
      obtain ⟨t, rest, hnext⟩ := ih hl (Nat.le_of_succ_le_succ hm)
      refine ⟨t, rest, ?_⟩
      rw [List.cons_append, next, if_neg (Ne.symm hc), hnext]
      rfl

/-- What fits is at the start of the first piece. -/
theorem pieces_start (hl : lineEnd ∉ l) (hne : l ≠ []) (hn : l.length ≤ n + 1) (s : List α) :
    ∃ t ps, pieces lineEnd n (l ++ s) = (l ++ t) :: ps := by
  obtain ⟨t, rest, hnext⟩ := next_start hl hn s
  refine ⟨t, pieces lineEnd n rest, ?_⟩
  rw [pieces_of_ne_nil (by simp [hne]), hnext]

/-- If all lines fit, the pieces are the lines. -/
theorem mem_pieces {s : List α} (hs : ∀ l ∈ s.splitOn lineEnd, l.length ≤ n) :
    ∀ p ∈ pieces lineEnd n s,
      ∃ l ∈ s.splitOn lineEnd, lineEnd ∉ l ∧ (p = l ∨ p = l ++ [lineEnd]) := by
  induction hlen : s.length using Nat.strong_induction_on generalizing s with
  | _ k ih =>
      by_cases hmem : lineEnd ∈ s
      · obtain ⟨l, t, rfl, hl⟩ := List.eq_append_cons_of_mem hmem
        rw [List.splitOn_append_cons_self, List.splitOn_eq_singleton hl] at hs ⊢
        have hl' : l.length ≤ n := hs l (by simp)
        intro p hp
        rw [pieces_line hl hl'] at hp
        rcases List.mem_cons.mp hp with rfl | hp
        · exact ⟨l, by simp, hl, .inr rfl⟩
        · have ht : ∀ l ∈ t.splitOn lineEnd, l.length ≤ n := fun l' hl' => hs l' (by simp [hl'])
          have hlt : t.length < k := by
            rw [← hlen, List.length_append, List.length_cons]
            omega
          obtain ⟨l', hl', hcase⟩ := ih _ hlt ht rfl p hp
          exact ⟨l', by simp [hl'], hcase⟩
      · intro p hp
        rw [List.splitOn_eq_singleton hmem] at hs ⊢
        by_cases hne : s = []
        · rw [hne, pieces_nil] at hp
          cases hp
        · rw [pieces_last hmem hne ((hs s (by simp)).trans (Nat.le_succ _))] at hp
          exact ⟨s, by simp, hmem, .inl (List.mem_singleton.mp hp)⟩

end LineChunks
