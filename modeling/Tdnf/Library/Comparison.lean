import Mathlib.Data.Int.Notation
import Mathlib.Data.List.Nodup
import Mathlib.Data.List.Perm.Basic

/-!
# Comparison functions and sorted groups

A comparison function returns a negative number, zero or a positive number, as the
argument of a sorting function does. Comparisons are composed lexicographically. In
a list that is sorted by a key first, the elements of one key stand together, and
the first of each group is found in one pass.
-/

namespace Comparison

variable {α β : Type}

/-- A comparison function orders its arguments, up to ties. -/
structure Lawful (cmp : α → α → ℤ) : Prop where
  swap : ∀ a b, cmp a b ≤ 0 ↔ 0 ≤ cmp b a
  trans : ∀ a b c, cmp a b ≤ 0 → cmp b c ≤ 0 → cmp a c ≤ 0

/-- Compare by `f` first, and by `g` where `f` sees no difference. -/
def lexically (f g : α → α → ℤ) (a b : α) : ℤ := if f a b ≠ 0 then f a b else g a b

/-- What a sorting function does with every lawful comparison. -/
def Sorts (sort : (α → α → ℤ) → List α → List α) : Prop :=
  ∀ cmp l, Lawful cmp → (sort cmp l).Perm l ∧ (sort cmp l).Pairwise fun a b => cmp a b ≤ 0

namespace Lawful

variable {f g : α → α → ℤ} {a b c : α}

theorem self (hf : Lawful f) (a : α) : f a a = 0 := by
  have hswap := hf.swap a a
  omega

theorem zero_comm (hf : Lawful f) : f a b = 0 ↔ f b a = 0 := by
  have hswap := hf.swap a b
  have hswap' := hf.swap b a
  omega

theorem lt_of_lt_of_le (hf : Lawful f) (hab : f a b < 0) (hbc : f b c ≤ 0) : f a c < 0 := by
  by_contra hac
  have hca : f c a ≤ 0 := (hf.swap c a).mpr (by omega)
  have hba := (hf.swap b a).mp (hf.trans b c a hbc hca)
  omega

theorem lt_of_le_of_lt (hf : Lawful f) (hab : f a b ≤ 0) (hbc : f b c < 0) : f a c < 0 := by
  by_contra hac
  have hca : f c a ≤ 0 := (hf.swap c a).mpr (by omega)
  have hcb := (hf.swap c b).mp (hf.trans c a b hca hab)
  omega

/-- What stands between equal elements is equal to them. -/
theorem between (hf : Lawful f) (hab : f a b ≤ 0) (hbc : f b c ≤ 0) (hac : f a c = 0) :
    f a b = 0 ∧ f b c = 0 := by
  constructor
  · by_contra hne
    have hlt := hf.lt_of_lt_of_le (a := a) (b := b) (c := c) (by omega) hbc
    omega
  · by_contra hne
    have hlt := hf.lt_of_le_of_lt (a := a) (b := b) (c := c) hab (by omega)
    omega

theorem of_image (hf : Lawful f) (p : β → α) : Lawful fun x y => f (p x) (p y) :=
  ⟨fun x y => hf.swap (p x) (p y), fun x y z => hf.trans (p x) (p y) (p z)⟩

/-- Only the sign of a comparison counts. -/
theorem of_sign (hf : Lawful f) (hle : ∀ a b, g a b ≤ 0 ↔ f a b ≤ 0)
    (hge : ∀ a b, 0 ≤ g a b ↔ 0 ≤ f a b) : Lawful g := by
  constructor
  · intro a b
    rw [hle, hge]
    exact hf.swap a b
  · intro a b c
    rw [hle, hle, hle]
    exact hf.trans a b c

/-- The reversed order. -/
theorem neg (hf : Lawful f) : Lawful fun a b => -f a b := by
  constructor
  · intro a b
    have hswap := hf.swap b a
    omega
  · intro a b c hab hbc
    have hba := (hf.swap b a).mpr (by omega)
    have hcb := (hf.swap c b).mpr (by omega)
    have hca := (hf.swap c a).mp (hf.trans c b a hcb hba)
    omega

theorem lexically (hf : Lawful f) (hg : Lawful g) : Lawful (lexically f g) := by
  constructor
  · intro a b
    have hzero := hf.zero_comm (a := a) (b := b)
    have hswap := hf.swap a b
    have hswap' := hg.swap a b
    simp only [Comparison.lexically]
    split <;> split <;> omega
  · intro a b c hab hbc
    simp only [Comparison.lexically] at hab hbc ⊢
    by_cases hfab : f a b = 0
    · by_cases hfbc : f b c = 0
      · have hac := hf.trans a b c (by omega) (by omega)
        have hca := hf.trans c b a (Int.le_of_eq (hf.zero_comm.mp hfbc))
          (Int.le_of_eq (hf.zero_comm.mp hfab))
        have hfac : f a c = 0 := by
          have hswap := (hf.swap c a).mp hca
          omega
        simp only [hfab, hfbc, hfac, ne_eq, not_true_eq_false, if_false] at hab hbc ⊢
        exact hg.trans a b c hab hbc
      · simp only [hfbc, ne_eq, not_false_eq_true, if_true] at hbc
        have hac := hf.lt_of_le_of_lt (a := a) (b := b) (c := c) (by omega) (by omega)
        rw [if_pos (by omega)]
        omega
    · simp only [hfab, ne_eq, not_false_eq_true, if_true] at hab
      have hfbc : f b c ≤ 0 := by
        split at hbc
        · exact hbc
        · omega
      have hac := hf.lt_of_lt_of_le (a := a) (b := b) (c := c) (by omega) hfbc
      rw [if_pos (by omega)]
      omega

/-- A pass that keeps the higher of two elements ends with a highest one. -/
theorem foldl_highest (hf : Lawful f) (first : α) (rest : List α) :
    rest.foldl (fun best x => if 0 < f x best then x else best) first ∈ first :: rest ∧
      ∀ x ∈ first :: rest, f x (rest.foldl (fun best x => if 0 < f x best then x else best)
        first) ≤ 0 := by
  induction rest generalizing first with
  | nil =>
      refine ⟨List.mem_cons_self, fun x hx => ?_⟩
      rw [List.mem_singleton.mp hx]
      exact Int.le_of_eq (hf.self first)
  | cons y rest ih =>
      rw [List.foldl_cons]
      obtain ⟨hmem, hall⟩ := ih (if 0 < f y first then y else first)
      constructor
      · obtain heq | hrest := List.mem_cons.mp hmem
        · rw [heq]
          split
          · exact List.mem_cons_of_mem _ List.mem_cons_self
          · exact List.mem_cons_self
        · exact List.mem_cons_of_mem _ (List.mem_cons_of_mem _ hrest)
      · intro x hx
        have hbest := hall _ List.mem_cons_self
        obtain rfl | hx := List.mem_cons.mp hx
        · refine hf.trans _ _ _ ?_ hbest
          split
          · next hlt => exact (hf.swap _ _).mpr (Int.le_of_lt hlt)
          · exact Int.le_of_eq (hf.self _)
        · obtain rfl | hx := List.mem_cons.mp hx
          · refine hf.trans _ _ _ ?_ hbest
            split
            · exact Int.le_of_eq (hf.self _)
            · next hle => exact Int.not_lt.mp hle
          · exact hall x (List.mem_cons_of_mem _ hx)

end Lawful

/-! ## Comparing texts -/

section Texts

variable {γ : Type} (code : γ → ℕ)

/-- Compare texts by the codes of their first letters that differ. -/
def textually : List γ → List γ → ℤ
  | [], [] => 0
  | [], _ :: _ => -1
  | _ :: _, [] => 1
  | a :: s, b :: t => if code a = code b then textually s t else (code a : ℤ) - code b

variable {code}

theorem textually_eq_zero (hcode : Function.Injective code) {s t : List γ} :
    textually code s t = 0 ↔ s = t := by
  induction s generalizing t with
  | nil => cases t <;> simp [textually]
  | cons a s ih =>
      cases t with
      | nil => simp [textually]
      | cons b t =>
          rw [textually, List.cons.injEq]
          split
          · next hab => rw [ih, and_iff_right (hcode hab)]
          · next hab =>
              refine iff_of_false (by omega) ?_
              rintro ⟨rfl, -⟩
              exact hab rfl

theorem lawful_textually : Lawful (textually code) := by
  constructor
  · intro s
    induction s with
    | nil =>
        intro t
        cases t <;> simp [textually]
    | cons a s ih =>
        intro t
        cases t with
        | nil => simp [textually]
        | cons b t =>
            have hrest := ih t
            simp only [textually]
            split <;> split <;> omega
  · intro s
    induction s with
    | nil =>
        intro t u hst htu
        cases u <;> simp [textually]
    | cons a s ih =>
        intro t u hst htu
        cases t with
        | nil => simp [textually] at hst
        | cons b t =>
            cases u with
            | nil => simp [textually] at htu
            | cons c u =>
                have hrest := ih t u
                simp only [textually] at hst htu ⊢
                split at hst <;> split at htu <;> split <;> omega

end Texts

/-! ## The first of each group -/

section Groups

variable {γ : Type} [DecidableEq γ] (key : α → γ)

/-- The elements of a list whose key differs from that of the last one taken. -/
def heads : α → List α → List α
  | _, [] => []
  | cur, a :: rest => if key a = key cur then heads cur rest else a :: heads a rest

variable {key} {R : α → α → Prop} {cur : α} {l : List α}

theorem heads_sublist (cur : α) (l : List α) : (heads key cur l).Sublist l := by
  induction l generalizing cur with
  | nil => exact List.nil_sublist []
  | cons a l ih =>
      rw [heads]
      split
      · exact (ih cur).cons a
      · exact (ih a).cons_cons a

/-- Elements with one key stand together. -/
def Grouped (key : α → γ) (R : α → α → Prop) : Prop :=
  ∀ a b c, R a b → R b c → key a = key c → key b = key a

/-- Every group has one first element. -/
theorem heads_nodup (hR : Grouped key R) (hl : (cur :: l).Pairwise R) :
    ((cur :: heads key cur l).map key).Nodup := by
  induction l generalizing cur with
  | nil => simp [heads]
  | cons a l ih =>
      obtain ⟨hcur, hal⟩ := List.pairwise_cons.mp hl
      obtain ⟨ha, hrest⟩ := List.pairwise_cons.mp hal
      rw [heads]
      split
      · apply ih
        exact List.pairwise_cons.mpr ⟨fun b hb => hcur b (List.mem_cons_of_mem a hb), hrest⟩
      · rename_i hne
        rw [List.map_cons, List.nodup_cons]
        refine ⟨?_, ih hal⟩
        intro hmem
        obtain ⟨b, hb, hkey⟩ := List.mem_map.mp hmem
        obtain rfl | hb := List.mem_cons.mp hb
        · exact hne hkey
        · have hbl : b ∈ l := (heads_sublist a l).subset hb
          exact hne (hR cur a b (hcur a List.mem_cons_self) (ha b hbl) hkey.symm)

/-- Every element has a first one of its group before it. -/
theorem exists_head (key : α → γ) (hl : (cur :: l).Pairwise R) {a : α} (ha : a ∈ cur :: l) :
    ∃ b ∈ cur :: heads key cur l, key b = key a ∧ (b = a ∨ R b a) := by
  induction l generalizing cur with
  | nil => exact ⟨a, ha, rfl, .inl rfl⟩
  | cons c l ih =>
      obtain ⟨hcur, hcl⟩ := List.pairwise_cons.mp hl
      have hskip : (cur :: l).Pairwise R := List.pairwise_cons.mpr
        ⟨fun b hb => hcur b (List.mem_cons_of_mem c hb), (List.pairwise_cons.mp hcl).2⟩
      rw [heads]
      split
      · rename_i hkey
        obtain rfl | hcl' := List.mem_cons.mp ha
        · exact ⟨a, List.mem_cons_self, rfl, .inl rfl⟩
        · obtain rfl | hal := List.mem_cons.mp hcl'
          · exact ⟨cur, List.mem_cons_self, hkey.symm, .inr (hcur a List.mem_cons_self)⟩
          · exact ih hskip (List.mem_cons_of_mem cur hal)
      · obtain rfl | hcl' := List.mem_cons.mp ha
        · exact ⟨a, List.mem_cons_self, rfl, .inl rfl⟩
        · obtain ⟨b, hb, h⟩ := ih hcl hcl'
          exact ⟨b, List.mem_cons_of_mem cur hb, h⟩

/-- A list that goes on with the heads from one of them on visits every group once exactly if
what it visits besides are the groups of the heads before that one. -/
theorem visits_once_iff {before taken behind skipped : List α} {good : α → Prop}
    (hnodup : ((skipped ++ taken).map key).Nodup) (hgood : ∀ a ∈ taken, good a)
    (hkeys : ∀ a ∈ before ++ behind, key a ∈ (skipped ++ taken).map key) :
    (∀ k ∈ (skipped ++ taken).map key, ∃ a,
        (before ++ taken ++ behind).filter (fun b => key b = k) = [a] ∧ good a) ↔
      ((before ++ behind).map key).Perm (skipped.map key) ∧ ∀ a ∈ before ++ behind, good a := by
  have hcount (l : List α) (k : γ) :
      (l.map key).count k = (l.filter fun b => key b = k).length := by
    rw [List.count, List.countP_map, List.countP_eq_length_filter]
    rfl
  have honce (k : γ) (hk : k ∈ (skipped ++ taken).map key) :
      (skipped.map key).count k + (taken.map key).count k = 1 := by
    rw [← List.count_append, ← List.map_append]
    exact List.count_eq_one_of_mem hnodup hk
  have hsplit (k : γ) : ((before ++ taken ++ behind).filter fun b => key b = k).length =
      ((before ++ behind).map key).count k + (taken.map key).count k := by
    rw [← hcount]
    simp only [List.map_append, List.count_append]
    omega
  constructor
  · intro h
    constructor
    · rw [List.perm_iff_count]
      intro k
      by_cases hk : k ∈ (skipped ++ taken).map key
      · obtain ⟨a, hfilter, -⟩ := h k hk
        have hlength := hsplit k
        rw [hfilter, List.length_singleton] at hlength
        have hone := honce k hk
        omega
      · have hnot : k ∉ (before ++ behind).map key := by
          intro hmem
          obtain ⟨a, ha, rfl⟩ := List.mem_map.mp hmem
          exact hk (hkeys a ha)
        have hskipped : k ∉ skipped.map key := by
          intro hmem
          rw [List.map_append] at hk
          exact hk (List.mem_append_left _ hmem)
        rw [List.count_eq_zero_of_not_mem hnot, List.count_eq_zero_of_not_mem hskipped]
    · intro a ha
      obtain ⟨b, hfilter, hb⟩ := h (key a) (hkeys a ha)
      have hmem : a ∈ (before ++ taken ++ behind).filter fun b => key b = key a := by
        rw [List.mem_filter]
        refine ⟨?_, by simp⟩
        simp only [List.mem_append] at ha ⊢
        obtain ha | ha := ha
        · exact .inl (.inl ha)
        · exact .inr ha
      rw [hfilter, List.mem_singleton] at hmem
      exact hmem ▸ hb
  · rintro ⟨hperm, hothers⟩ k hk
    have hlength := hsplit k
    rw [hperm.count_eq, honce k hk] at hlength
    obtain ⟨a, ha⟩ := List.length_eq_one_iff.mp hlength
    refine ⟨a, ha, ?_⟩
    have hmem : a ∈ (before ++ taken ++ behind).filter fun b => key b = k := by
      rw [ha]
      exact List.mem_singleton.mpr rfl
    have hvisited := (List.mem_filter.mp hmem).1
    simp only [List.mem_append] at hvisited
    obtain (hbefore | htaken) | hbehind := hvisited
    · exact hothers a (List.mem_append_left _ hbefore)
    · exact hgood a htaken
    · exact hothers a (List.mem_append_right _ hbehind)

end Groups

end Comparison
