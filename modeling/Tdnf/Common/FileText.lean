import Tdnf.Common.Error
import Tdnf.Library.Json

/-!
# Files as texts

A file is read as a whole into memory. Its length is kept in an `int`.
-/

namespace Tdnf.Common

open Json (Bytes)

/-- A file, as it is read. -/
structure FileText where
  /-- its bytes, or the `errno` of opening or reading it -/
  content : Except ℕ Bytes
  /-- what `errno` holds when the length counts as negative -/
  errno : ℕ

/-- What an `int` holds after an overflow. -/
def wrapInt (z : ℤ) : ℤ := z.bmod 4294967296

/-- `TDNFFileReadAllText` -/
def fileReadAllText (file : FileText) : Except TdnfError Bytes :=
  match file.content with
  | .error errno => .error (.system errno)
  | .ok data =>
    let nLength := wrapInt data.length
    if nLength < 0 ∧ file.errno ≠ 0 then .error (.system file.errno)
    -- the memory for the text and the NUL behind it
    else if nLength = -1 then .error .invalidParameter
    else if nLength < 0 ∨ nLength = 2147483647 then .error .outOfMemory
    else .ok (data.take nLength.toNat)

/-- What fits into an `int` is kept. -/
theorem wrapInt_of_range {z : ℤ} (h : -2147483648 ≤ z) (h' : z ≤ 2147483647) : wrapInt z = z :=
  Int.bmod_eq_of_le (by omega) (by omega)

theorem wrapInt_le (z : ℤ) : -2147483648 ≤ wrapInt z ∧ wrapInt z ≤ 2147483647 := by
  have hle := Int.le_bmod (x := z) (m := 4294967296) (by omega)
  have hlt := Int.bmod_lt (x := z) (m := 4294967296) (by omega)
  rw [wrapInt]
  omega

theorem wrapInt_natCast (n : ℕ) :
    wrapInt n = if n % 4294967296 < 2147483648 then ((n % 4294967296 : ℕ) : ℤ)
      else ((n % 4294967296 : ℕ) : ℤ) - 4294967296 := by
  rw [wrapInt, Int.bmod_def]
  split_ifs <;> omega

/-- The length, as far as a text is read. -/
theorem wrapInt_cases (n : ℕ) :
    n % 4294967296 < 2147483647 ∧ wrapInt n = (n % 4294967296 : ℕ) ∨
      2147483647 ≤ n % 4294967296 ∧ (wrapInt n < 0 ∨ wrapInt n = 2147483647) := by
  rw [wrapInt_natCast]
  split_ifs <;> omega

theorem fileReadAllText_eq_ok_iff {file : FileText} {text : Bytes} :
    fileReadAllText file = .ok text ↔ ∃ data, file.content = .ok data ∧
      data.length % 4294967296 < 2147483647 ∧ text = data.take (data.length % 4294967296) := by
  rw [fileReadAllText]
  cases file.content with
  | error errno => simp
  | ok data =>
      simp only [Except.ok.injEq, exists_eq_left']
      rcases wrapInt_cases data.length with ⟨hlt, hlength⟩ | ⟨hge, hlength⟩
      · rw [if_neg (by omega), if_neg (by omega), if_neg (by omega), hlength, Int.toNat_natCast,
          and_iff_right hlt, Except.ok.injEq, eq_comm]
      · have hnot : ¬ data.length % 4294967296 < 2147483647 := by omega
        split_ifs <;> simp [hnot]

/-- The errors of reading a file are its own. -/
theorem fileReadAllText_error {file : FileText} {e : TdnfError}
    (h : fileReadAllText file = .error e) : e ≠ .invalidPubkeyFile ∧ ∀ n, e ≠ .bare n := by
  rw [fileReadAllText] at h
  cases hcontent : file.content with
  | error errno =>
      rw [hcontent] at h
      cases h
      simp
  | ok data =>
      simp only [hcontent] at h
      split_ifs at h <;> cases h <;> simp

end Tdnf.Common
