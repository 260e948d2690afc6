import Mathlib.Data.List.Basic
import Mathlib.Data.List.TakeWhile

/-!
# Buffers with terminated strings

A buffer is a block of cells that are read and written by their index. A string
starts in a cell and ends before the first terminator. What lies outside the
buffer cannot be accessed.
-/

namespace Buffer

variable {α : Type} {z c d : α} {i : ℕ} {b pre s more : List α}

/-- The buffer after a write; there is none after a write outside of it. -/
def write (b : List α) (i : ℕ) (c : α) : Option (List α) :=
  if i < b.length then some (b.set i c) else none

/-- A buffer of another size; `junk` is what new cells hold. -/
def resize (junk : ℕ → α) (size : ℕ) (b : List α) : List α :=
  b.take size ++ (List.range' b.length (size - b.length)).map junk

theorem length_resize (junk : ℕ → α) (size : ℕ) (b : List α) :
    (resize junk size b).length = size := by
  rw [resize, List.length_append, List.length_take, List.length_map, List.length_range']
  omega

/-- Growing keeps what is there. -/
theorem resize_of_le {size : ℕ} (h : b.length ≤ size) (junk : ℕ → α) :
    ∃ more, resize junk size b = b ++ more := by
  rw [resize, List.take_of_length_le h]
  exact ⟨_, rfl⟩

theorem getElem?_middle : (pre ++ c :: more)[pre.length]? = some c := by
  rw [List.getElem?_append_right (Nat.le_refl _), Nat.sub_self]
  rfl

theorem set_middle : (pre ++ c :: more).set pre.length d = pre ++ d :: more := by
  rw [List.set_append_right _ _ (Nat.le_refl _), Nat.sub_self]
  rfl

/-- A write behind a cell leaves what is up to that cell. -/
theorem set_behind (hi : pre.length < i) (c d : α) (more : List α) :
    ∃ more', (pre ++ c :: more).set i d = pre ++ c :: more' := by
  obtain ⟨k, hk⟩ := Nat.exists_eq_add_of_lt hi
  refine ⟨more.set k d, ?_⟩
  rw [List.set_append_right _ _ (Nat.le_of_lt hi), show i - pre.length = k + 1 by omega]
  rfl

theorem write_middle : write (pre ++ c :: more) pre.length d = some (pre ++ d :: more) := by
  have hlt : pre.length < (pre ++ c :: more).length := by
    rw [List.length_append, List.length_cons]
    omega
  rw [write, if_pos hlt, set_middle]

/-- Write cells one after the other. -/
def writeAll (b : List α) (i : ℕ) : List α → Option (List α)
  | [] => some b
  | c :: s => (write b i c).bind fun b => writeAll b (i + 1) s

/-- The writes succeed exactly if there is room for them, and leave what is around them. -/
theorem writeAll_eq (pre old s : List α) :
    writeAll (pre ++ old) pre.length s =
      if s.length ≤ old.length then some (pre ++ (s ++ old.drop s.length)) else none := by
  induction s generalizing pre old with
  | nil => simp [writeAll]
  | cons c s ih =>
      cases old with
      | nil => simp [writeAll, write]
      | cons d old =>
          rw [writeAll, write_middle, Option.bind_some]
          have hnext := ih (pre ++ [c]) old
          rw [List.length_append, List.append_assoc, List.singleton_append] at hnext
          rw [show pre.length + 1 = pre.length + [c].length from rfl, hnext]
          simp

theorem writeAll_append (b : List α) (i : ℕ) (s t : List α) :
    writeAll b i (s ++ t) = (writeAll b i s).bind fun b => writeAll b (i + s.length) t := by
  induction s generalizing b i with
  | nil => rfl
  | cons c s ih =>
      rw [List.cons_append, writeAll, writeAll, Option.bind_assoc, List.length_cons,
        Nat.add_comm s.length 1, ← Nat.add_assoc]
      simp only [ih]

/-- Writes that succeed keep the size and stay inside. -/
theorem writeAll_some {b' : List α} (h : writeAll b i s = some b') :
    b'.length = b.length ∧ (s = [] ∨ i + s.length ≤ b.length) := by
  induction s generalizing b i with
  | nil =>
      cases h
      exact ⟨rfl, .inl rfl⟩
  | cons c s ih =>
      rw [writeAll, write] at h
      split at h
      · next hi =>
          obtain ⟨hlength, hroom⟩ := ih h
          rw [List.length_set] at hlength hroom
          refine ⟨hlength, .inr ?_⟩
          rw [List.length_cons]
          obtain rfl | hroom := hroom
          · exact hi
          · omega
      · cases h

/-- A cell that is written again may hold anything before. -/
theorem write_writeAll (b : List α) (i : ℕ) (d c : α) (s : List α) :
    ((write b i d).bind fun b => writeAll b i (c :: s)) = writeAll b i (c :: s) := by
  simp only [writeAll, write]
  split
  · next hi => rw [Option.bind_some, List.length_set, if_pos hi, List.set_set]
  · rw [Option.bind_none, Option.bind_none]

section Strings

variable [DecidableEq α]

/-- The string that starts in a cell; a string without a terminator does not end in the buffer. -/
def stringAt (z : α) (b : List α) (i : ℕ) : Option (List α) :=
  if z ∈ b.drop i then some ((b.drop i).takeWhile (· ≠ z)) else none

theorem stringAt_eq_some_iff :
    stringAt z b i = some s ↔ z ∉ s ∧ ∃ more, b.drop i = s ++ z :: more := by
  rw [stringAt]
  constructor
  · intro h
    split at h
    · next hmem =>
        cases h
        refine ⟨?_, ?_⟩
        · intro hz
          simpa using List.mem_takeWhile_imp hz
        · generalize b.drop i = rest at hmem
          induction rest with
          | nil => cases hmem
          | cons c rest ih =>
              by_cases hc : c = z
              · exact ⟨rest, by simp [hc]⟩
              · have hmem' : z ∈ rest := (List.mem_cons.mp hmem).resolve_left (Ne.symm hc)
                obtain ⟨more, hmore⟩ := ih hmem'
                refine ⟨more, ?_⟩
                rw [List.takeWhile_cons_of_pos (by simpa using hc), List.cons_append, ← hmore]
    · cases h
  · rintro ⟨hz, more, hdrop⟩
    rw [hdrop, if_pos (List.mem_append_right s List.mem_cons_self),
      List.takeWhile_append_of_pos, List.takeWhile_cons_of_neg (by simp), List.append_nil]
    intro c hc
    simpa using fun heq : c = z => hz (heq ▸ hc)

/-- A string behind another cell. -/
theorem stringAt_after (hz : z ∉ s) :
    stringAt z (pre ++ c :: (s ++ z :: more)) (pre.length + 1) = some s := by
  refine stringAt_eq_some_iff.mpr ⟨hz, more, ?_⟩
  rw [List.drop_append, List.drop_of_length_le (Nat.le_succ _), List.nil_append,
    Nat.add_sub_cancel_left]
  rfl

end Strings

end Buffer
