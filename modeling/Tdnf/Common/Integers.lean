import Tdnf.Common.Error
import Mathlib.Data.Int.Notation
import Mathlib.Data.Nat.Notation

/-!
# Signed arithmetic and memory

What the functions on strings do with `int` and with `TDNFAllocateMemory`.
-/

namespace Tdnf.Common

/-- How a call ends that counts in `int` and writes to memory and does not succeed. -/
inductive Trap where
  /-- Signed arithmetic leaves the range of `int`, which is undefined. -/
  | overflow
  /-- A cell outside of the memory is read or written. -/
  | outside
  | code (e : TdnfError)
deriving DecidableEq, Repr

/-- The result of signed arithmetic. -/
def asInt (z : ℤ) : Except Trap ℤ :=
  if -2147483648 ≤ z ∧ z ≤ 2147483647 then .ok z else .error .overflow

theorem asInt_of_le {z : ℤ} (h : 0 ≤ z) (h' : z ≤ 2147483647) : asInt z = .ok z :=
  if_pos ⟨by omega, h'⟩

theorem asInt_of_lt {z : ℤ} (h : 2147483647 < z) : asInt z = .error .overflow :=
  if_neg fun hz => by omega

theorem asInt_eq_ok_iff {z n : ℤ} :
    asInt z = .ok n ↔ -2147483648 ≤ z ∧ z ≤ 2147483647 ∧ z = n := by
  rw [asInt]
  split
  · next hz => rw [Except.ok.injEq, and_iff_right hz.1, and_iff_right hz.2]
  · next hz =>
      refine iff_of_false (fun h => ?_) fun h => hz ⟨h.1, h.2.1⟩
      cases h

/-- An access to memory. -/
def within {α : Type} : Option α → Except Trap α
  | none => .error .outside
  | some a => .ok a

/-- `TDNFAllocateMemory`; the new memory is `cells`, and there is none of more than `PTRDIFF_MAX`
bytes. -/
def allocateMemory {α : Type} (nNumElements nSize : ℕ) (cells : List α) :
    Except Trap (List α) :=
  if nSize = 0 ∨ nNumElements = 0 then .error (.code .invalidParameter)
  else if 18446744073709551615 / nSize < nNumElements then .error (.code .invalidAllocsize)
  else if 9223372036854775807 < nNumElements * nSize then .error (.code .outOfMemory)
  else .ok cells

/-- What the memory is to hold does not decide whether there is any. -/
theorem allocateMemory_cases (nNumElements nSize : ℕ) :
    (∀ {α : Type} (cells : List α), allocateMemory nNumElements nSize cells = .ok cells) ∨
      ∃ trap, ∀ {α : Type} (cells : List α), allocateMemory nNumElements nSize cells =
        .error trap := by
  by_cases hzero : nSize = 0 ∨ nNumElements = 0
  · exact .inr ⟨_, fun cells => if_pos hzero⟩
  · by_cases hmany : 18446744073709551615 / nSize < nNumElements
    · exact .inr ⟨_, fun cells => (if_neg hzero).trans (if_pos hmany)⟩
    · by_cases hlarge : 9223372036854775807 < nNumElements * nSize
      · exact .inr ⟨_, fun cells => (if_neg hzero).trans ((if_neg hmany).trans (if_pos hlarge))⟩
      · exact .inl fun cells => (if_neg hzero).trans ((if_neg hmany).trans (if_neg hlarge))

theorem allocateMemory_eq_ok_iff {α : Type} {nNumElements nSize : ℕ} {cells : List α} :
    allocateMemory nNumElements nSize cells = .ok cells ↔
      0 < nNumElements ∧ 0 < nSize ∧ nNumElements * nSize ≤ 9223372036854775807 := by
  rw [allocateMemory]
  by_cases hzero : nSize = 0 ∨ nNumElements = 0
  · rw [if_pos hzero]
    simp only [reduceCtorEq, false_iff]
    omega
  · rw [if_neg hzero]
    have hsize : 0 < nSize := by omega
    by_cases hmany : 18446744073709551615 / nSize < nNumElements
    · rw [if_pos hmany]
      have hlarge := (Nat.div_lt_iff_lt_mul hsize).mp hmany
      simp only [reduceCtorEq, false_iff]
      omega
    · rw [if_neg hmany]
      by_cases hlarge : 9223372036854775807 < nNumElements * nSize
      · rw [if_pos hlarge]
        simp only [reduceCtorEq, false_iff]
        omega
      · rw [if_neg hlarge]
        simp only [true_iff]
        omega

end Tdnf.Common
