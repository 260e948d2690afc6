import Tdnf.Client.RepoCache
import Tdnf.Client.RepoList

/-!
# metadata_expire

The setting is a number with a unit or the word `never`, which is kept as a
negative number. Two checks read it: one for the metadata and one for the list
of mirrors.
-/

namespace Tdnf.Client

open PathText Common Procedure

/-! ## The setting -/

section Setting

/-- The number that `strtol` finds in front, however large it is, and the text behind it. -/
def numberOf (s : Text) : Option (ℤ × Text) :=
  let (sign, rest) := takeSign (s.dropWhile isSpace)
  let digits := rest.takeWhile Char.isDigit
  if digits = [] then none else some (sign * digitsValue digits, rest.drop digits.length)

/-- LONG_MIN -/
def longMin : ℤ := -9223372036854775808

/-- LONG_MAX -/
def longMax : ℤ := 9223372036854775807

/-- A unit and nothing behind it. -/
def expireUnit : Text → Option ℤ
  | [] => some 1
  | ['s'] => some 1
  | ['m'] => some 60
  | ['h'] => some 3600
  | ['d'] => some 86400
  | _ => none

/-- What a number with a unit stands for. -/
def intendedNumber (n : ℤ) (rest : Text) : Option ℤ :=
  if n < longMin ∨ longMax < n then none
  else (expireUnit rest).bind fun unit =>
    if n < 0 then some (-1) else if n * unit ≤ longMax then some (n * unit) else none

/-- What the setting stands for, where it is well formed. -/
def intendedExpire (s : Text) : Option ℤ :=
  if equalsCase s "never".toList then some (-1)
  else (numberOf s).bind fun (n, rest) => intendedNumber n rest

/-- A number with the text behind it that the code reads as it is meant: behind a negative number
it looks at nothing, behind zero it allows no unit, and behind other numbers it looks at one
character and does not notice an overflow. -/
structure ReadsNumber (n : ℤ) (rest : Text) : Prop where
  negative : n < 0 → longMin ≤ n ∧ (expireUnit rest).isSome
  zero : n = 0 → (expireUnit rest).isSome → rest = []
  positive : 0 < n → ∀ unit, expireMultiplier rest = .ok unit →
    rest.length ≤ 1 ∧ n * unit ≤ longMax

/-- The condition on the whole setting. -/
def ReadsExpire (s : Text) : Prop :=
  equalsCase s "never".toList = true ∨ ∀ n rest, numberOf s = some (n, rest) → ReadsNumber n rest

variable {s rest : Text} {n : ℤ}

theorem strtol_eq (s : Text) : strtol s =
    match numberOf s with
    | none => (0, s)
    | some (n, rest) => (max longMin (min n longMax), rest) := by
  rw [strtol, numberOf]
  rcases takeSign (s.dropWhile isSpace) with ⟨sign, rest⟩
  simp only
  split_ifs with hdigits
  · rfl
  · rfl

/-- A unit alone is read as it is meant. -/
theorem expireUnit_eq_some_iff {unit : ℤ} :
    expireUnit rest = some unit ↔ expireMultiplier rest = .ok unit ∧ rest.length ≤ 1 := by
  rw [expireUnit.eq_def, expireMultiplier.eq_def]
  cases rest with
  | nil => simp
  | cons c more =>
      cases more with
      | nil =>
          split
          · simp_all
          · simp_all
          · simp_all
          · simp_all
          · simp_all
          · simp_all
      | cons d more => simp

theorem one_le_of_expireMultiplier {unit : ℤ} (h : expireMultiplier rest = .ok unit) :
    1 ≤ unit := by
  rw [expireMultiplier.eq_def] at h
  split at h
  · exact (Except.ok.inj h).le
  · exact (Except.ok.inj h).le
  · exact (by decide : (1 : ℤ) ≤ 60).trans (Except.ok.inj h).le
  · exact (by decide : (1 : ℤ) ≤ 60 * 60).trans (Except.ok.inj h).le
  · exact (by decide : (1 : ℤ) ≤ 60 * 60 * 24).trans (Except.ok.inj h).le
  · cases h

theorem wrapLong_of_le (hlow : 0 ≤ n) (hhigh : n ≤ longMax) : wrapLong n = n := by
  rw [longMax] at hhigh
  exact Int.bmod_eq_of_le (by omega) (by omega)

/-- What the code makes of a number. -/
def readNumber (n : ℤ) (rest : Text) : Except TdnfError ℤ :=
  if n < 0 then .ok (-1)
  else if 0 < n then
    (expireMultiplier rest).map fun unit => wrapLong (min n longMax * unit)
  else if rest ≠ [] then .error .metadataExpireParse
  else .ok 0

theorem parseMetadataExpire_of_number (hnever : equalsCase s "never".toList = false)
    (h : numberOf s = some (n, rest)) : parseMetadataExpire s = readNumber n rest := by
  have hne : s ≠ [] := by
    rintro rfl
    cases h
  have hlow : longMin < 0 := by decide
  have hhigh : 0 < longMax := by decide
  rw [parseMetadataExpire, if_neg hne, hnever, strtol_eq, h, readNumber]
  simp only [Bool.false_eq_true, if_false]
  rcases lt_trichotomy n 0 with hn | rfl | hn
  · rw [if_pos hn, if_pos (by omega)]
  · have hzero : max longMin (min 0 longMax) = 0 := by omega
    rw [hzero]
    simp only [lt_self_iff_false, if_false]
  · have hpositive : max longMin (min n longMax) = min n longMax := by omega
    rw [hpositive, if_neg (by omega), if_pos (by omega), if_neg (by omega), if_pos hn]
    cases expireMultiplier rest with
    | error e => rfl
    | ok unit => rfl

theorem parseMetadataExpire_of_no_number (hnever : equalsCase s "never".toList = false)
    (h : numberOf s = none) : (parseMetadataExpire s).toOption = none := by
  by_cases hne : s = []
  · rw [parseMetadataExpire, if_pos hne]
    rfl
  · rw [parseMetadataExpire, if_neg hne, hnever, strtol_eq, h]
    simp only [Bool.false_eq_true, if_false, lt_self_iff_false, ne_eq, hne, not_false_eq_true,
      if_true]
    rfl

theorem readNumber_negative (hn : n < 0) :
    (readNumber n rest).toOption = intendedNumber n rest ↔
      longMin ≤ n ∧ (expireUnit rest).isSome := by
  have hhigh : 0 < longMax := by decide
  rw [readNumber, if_pos hn, intendedNumber]
  by_cases hrange : n < longMin ∨ longMax < n
  · rw [if_pos hrange]
    exact iff_of_false (by simp [Except.toOption]) fun h => by omega
  · rw [if_neg hrange]
    cases hunit : expireUnit rest with
    | none => exact iff_of_false (by simp [Except.toOption]) (by simp)
    | some unit =>
        rw [Option.bind_some, if_pos hn]
        exact iff_of_true rfl ⟨by omega, rfl⟩

theorem readNumber_zero :
    (readNumber 0 rest).toOption = intendedNumber 0 rest ↔
      ((expireUnit rest).isSome → rest = []) := by
  have hrange : ¬ ((0 : ℤ) < longMin ∨ longMax < 0) := by decide
  have hzero : (0 : ℤ) ≤ longMax := by decide
  rw [readNumber, intendedNumber, if_neg (lt_irrefl _), if_neg (lt_irrefl _), if_neg hrange]
  cases hunit : expireUnit rest with
  | none =>
      have hne : rest ≠ [] := by
        rintro rfl
        cases hunit
      rw [if_pos hne]
      exact iff_of_true rfl (by simp)
  | some unit =>
      rw [Option.bind_some, if_neg (lt_irrefl _), Int.zero_mul, if_pos hzero]
      split_ifs with hrest
      · exact iff_of_false (by simp [Except.toOption]) (by simpa using hrest)
      · exact iff_of_true rfl fun _ => not_not.mp hrest

theorem readNumber_positive (hn : 0 < n) :
    (readNumber n rest).toOption = intendedNumber n rest ↔
      ∀ unit, expireMultiplier rest = .ok unit → rest.length ≤ 1 ∧ n * unit ≤ longMax := by
  rw [readNumber, if_neg (by omega), if_pos hn, intendedNumber]
  cases hmultiplier : expireMultiplier rest with
  | error e =>
      have hunit : expireUnit rest = none := by
        refine Option.eq_none_iff_forall_ne_some.mpr fun unit hunit => ?_
        rw [(expireUnit_eq_some_iff.mp hunit).1] at hmultiplier
        cases hmultiplier
      rw [hunit, Option.bind_none, ite_self]
      exact iff_of_true rfl fun _ h => by cases h
  | ok unit =>
      have hone := one_le_of_expireMultiplier hmultiplier
      have hle : n * 1 ≤ n * unit := Int.mul_le_mul_of_nonneg_left hone hn.le
      have hlow : longMin < 0 := by decide
      constructor
      · rintro h unit' hunit'
        obtain rfl := Except.ok.inj hunit'
        by_cases hrange : n < longMin ∨ longMax < n
        · rw [if_pos hrange] at h
          cases h
        · rw [if_neg hrange] at h
          obtain ⟨unit', hunit, hresult⟩ := Option.bind_eq_some_iff.mp h.symm
          obtain ⟨hsame, hlength⟩ := expireUnit_eq_some_iff.mp hunit
          obtain rfl := Except.ok.inj (hmultiplier.symm.trans hsame)
          rw [if_neg (by omega), Option.ite_none_right_eq_some] at hresult
          exact ⟨hlength, hresult.1⟩
      · intro h
        obtain ⟨hlength, hfits⟩ := h unit rfl
        have hunit := expireUnit_eq_some_iff.mpr ⟨hmultiplier, hlength⟩
        rw [if_neg (by omega), hunit, Option.bind_some, if_neg (by omega), if_pos hfits,
          min_eq_left (by omega), Except.map, wrapLong_of_le (by omega) hfits]
        rfl

/-- A number is read as it is meant exactly under the condition. -/
theorem readNumber_iff :
    (readNumber n rest).toOption = intendedNumber n rest ↔ ReadsNumber n rest := by
  rcases lt_trichotomy n 0 with hn | rfl | hn
  · rw [readNumber_negative hn]
    exact ⟨fun h => ⟨fun _ => h, fun h0 => by omega, fun h0 => by omega⟩, fun h => h.negative hn⟩
  · rw [readNumber_zero]
    exact ⟨fun h => ⟨fun h0 => by omega, fun _ => h, fun h0 => by omega⟩, fun h => h.zero rfl⟩
  · rw [readNumber_positive hn]
    exact ⟨fun h => ⟨fun h0 => by omega, fun h0 => by omega, fun _ => h⟩, fun h => h.positive hn⟩

theorem parseMetadataExpire_iff (s : Text) :
    (parseMetadataExpire s).toOption = intendedExpire s ↔ ReadsExpire s := by
  rw [intendedExpire, ReadsExpire]
  cases hnever : equalsCase s "never".toList with
  | true =>
      have hne : s ≠ [] := by
        rintro rfl
        cases hnever
      rw [parseMetadataExpire, if_neg hne, if_pos hnever]
      exact iff_of_true rfl (.inl rfl)
  | false =>
      rw [if_neg Bool.false_ne_true, or_iff_right Bool.false_ne_true]
      cases hnumber : numberOf s with
      | none =>
          rw [parseMetadataExpire_of_no_number hnever hnumber]
          exact iff_of_true rfl fun n rest h => by cases h
      | some number =>
          obtain ⟨n, rest⟩ := number
          rw [parseMetadataExpire_of_number hnever hnumber, Option.bind_some, readNumber_iff]
          constructor
          · rintro h n' rest' hsame
            obtain ⟨rfl, rfl⟩ := Prod.mk.inj (Option.some.inj hsame)
            exact h
          · exact fun h => h n rest rfl

end Setting

/-! ## The checks -/

namespace RepoCache

variable {δ κ : Type} (env : Env δ κ) (conf : RefreshConf) (repo : Repo)

/-- Neither check finds that what is there has expired. -/
structure NeverExpires (s : Cache δ) : Prop where
  metadata : (expireMetadata env conf repo).run s = .ok () s
  mirrorList : env.access (mirrorFile conf repo) s = none →
    needsMirrorList env conf repo s = .ok false

/-- The list of mirrors is from the future by as much as the setting is below zero. -/
def MirrorAhead (s : Cache δ) : Prop :=
  env.access (mirrorFile conf repo) s = none →
    env.now - (s.files (locOf (mirrorFile conf repo))).ctime ≤ repo.lMetadataExpire

variable {env conf repo}

theorem neverExpires_iff {s : Cache δ} (h : repo.lMetadataExpire < 0) :
    NeverExpires env conf repo s ↔ MirrorAhead env conf repo s := by
  have hexpire : (expireMetadata env conf repo).run s = .ok () s := by
    rw [expireMetadata, if_neg (by simp only [Bool.and_eq_true, decide_eq_true_eq]; omega)]
    rfl
  have hmirror : env.access (mirrorFile conf repo) s = none →
      (needsMirrorList env conf repo s = .ok false ↔
        env.now - (s.files (locOf (mirrorFile conf repo))).ctime ≤ repo.lMetadataExpire) := by
    intro hpresent
    rw [needsMirrorList, hpresent]
    simp only [Except.ok.injEq, decide_eq_false_iff_not, gt_iff_lt, not_lt]
  constructor
  · exact fun hnever hpresent => (hmirror hpresent).mp (hnever.mirrorList hpresent)
  · exact fun hahead => ⟨hexpire, fun hpresent => (hmirror hpresent).mpr (hahead hpresent)⟩

/-- The setting is read as it is meant, and where it is negative nothing ever expires. -/
theorem metadataExpire_iff (text : Text) (s : Cache δ) :
    ((parseMetadataExpire text).toOption = intendedExpire text ∧
        (repo.lMetadataExpire < 0 → NeverExpires env conf repo s)) ↔
      ReadsExpire text ∧ (repo.lMetadataExpire < 0 → MirrorAhead env conf repo s) := by
  rw [parseMetadataExpire_iff]
  exact and_congr_right fun _ => forall_congr' neverExpires_iff

/-- What stands behind the first character of the unit is not read. -/
theorem parseMetadataExpire_minutes :
    parseMetadataExpire "5minutes".toList = .ok 300 ∧
      intendedExpire "5minutes".toList = none := by
  decide

end RepoCache

end Tdnf.Client
