import Tdnf.Common.Checksum
import Tdnf.Common.Integers
import Tdnf.Common.Strings
import Tdnf.Library.Buffer

/-!
# Checking and decoding hex digests

`TDNFCheckHexDigest` counts hex digits in an `int`, and `TDNFChecksumFromHexDigest`
decodes windows of two letters with `strtoul` into memory of its own, which it
copies to the caller. The letters of a text are its bytes here.
-/

namespace Tdnf.HexDigest

open PathText Buffer
open Common

/-- The loop of `TDNFCheckHexDigest` from letter `i` on: the number of letters, if all of them
are hex digits -/
def countDigits : Text → ℤ → Except Trap (Option ℤ)
  | [], i => .ok (some i)
  | c :: rest, i =>
    if isXDigit c then do
      let i ← asInt (i + 1)
      countDigits rest i
    else .ok none

/-- `TDNFCheckHexDigest` -/
def checkHexDigest (hexDigest : Option Text) (digestLength : ℤ) : Except Trap ℕ :=
  match hexDigest with
  | none => .ok 0
  | some hex =>
    if hex = [] ∨ digestLength ≤ 0 then .ok 0
    else do
      match ← countDigits hex 0 with
      | none => .ok 0
      | some i =>
        let length ← asInt (digestLength * 2)
        .ok (if length = i then 1 else 0)

/-- `strtoul` to base 16: the number, and whether it is too large -/
def strtoul16 (s : Text) : ℕ × Bool :=
  let (sign, rest) := takeSign (s.dropWhile isSpace)
  let rest := if rest.take 2 = ['0', 'x'] ∨ rest.take 2 = ['0', 'X'] then rest.drop 2 else rest
  let val := (rest.takeWhile isXDigit).foldl (fun n c => 16 * n + hexValue c) 0
  if 18446744073709551615 < val then (18446744073709551615, true)
  else if sign < 0 then ((18446744073709551616 - val) % 18446744073709551616, false)
  else (val, false)

/-- `TDNFHexToUint` -/
def hexToUint (hexDigest : Text) : Except Trap UInt8 :=
  if hexDigest = [] then .error (.code .invalidParameter)
  else
    let (val, erange) := strtoul16 (hexDigest.take 2)
    if erange then .error (.code (.system 34)) else .ok (UInt8.ofNat (val % 256))

/-- The loop of `TDNFChecksumFromHexDigest` from letter `i` on -/
def decodeLoop (pdigest : List UInt8) (i : ℕ) : Text → Except Trap (List UInt8)
  | [] => .ok pdigest
  | [a] => do
    let uintValue ← hexToUint [a]
    within (write pdigest (i / 2) uintValue)
  | a :: b :: rest => do
    let uintValue ← hexToUint (a :: b :: rest)
    let pdigest ← within (write pdigest (i / 2) uintValue)
    decodeLoop pdigest (i + 2) rest

/-- `TDNFChecksumFromHexDigest`, with what the memory at `ppdigest` holds before and after -/
def checksumFromHexDigest (hexDigest : Option Text) (ppdigest : Option (List UInt8)) :
    Except Trap (List UInt8) :=
  match hexDigest, ppdigest with
  | some hex, some memory =>
    if hex = [] then .error (.code .invalidParameter)
    else do
      let len := hex.length
      let pdigest ← allocateMemory 1 (len / 2) (List.replicate (len / 2) 0)
      let pdigest ← decodeLoop pdigest 0 hex
      within (writeAll memory 0 (pdigest.take (len / 2)))
  | _, _ => .error (.code .invalidParameter)

/-! ## The text of a digest -/

/-- A hex digit in lower case. -/
def hexDigitChar (n : ℕ) : Char := "0123456789abcdef".toList.getD n '0'

/-- The hexadecimal text of bytes, in lower case. -/
def hexText (bytes : List UInt8) : Text :=
  bytes.flatMap fun b => [hexDigitChar (b.toNat / 16), hexDigitChar (b.toNat % 16)]

/-- A text spells bytes in hexadecimal, in any letter case. -/
def Spells (hex : Text) (bytes : List UInt8) : Prop := hex.map Char.toLower = hexText bytes

/-- The check accepts the hexadecimal texts of `n` bytes, and decoding then gives these bytes and
leaves the memory behind them. -/
structure Right (hex : Text) (n : ℕ) : Prop where
  checks : ∃ r, checkHexDigest (some hex) n = .ok r ∧
    (r ≠ 0 ↔ ∃ bytes : List UInt8, bytes.length = n ∧ Spells hex bytes)
  decodes : ∀ bytes memory : List UInt8, bytes.length = n → Spells hex bytes →
    n ≤ memory.length →
      checksumFromHexDigest (some hex) (some memory) = .ok (bytes ++ memory.drop n)

/-! ## Single digits -/

theorem toNat_le_toLower (c : Char) : c.toNat ≤ c.toLower.toNat := by
  by_cases h : c.val ≥ 'A'.val ∧ c.val ≤ 'Z'.val
  · have hupper : c.val.toNat ≤ 90 := UInt32.le_iff_toNat_le.mp h.2
    have hlower : c.toLower.val = c.val + ('a'.val - 'A'.val) := congrArg Char.val (dif_pos h)
    have hadd : ('a'.val - 'A'.val).toNat = 32 := by decide
    change c.val.toNat ≤ c.toLower.val.toNat
    rw [hlower, UInt32.toNat_add, hadd]
    omega
  · have hlower : c.toLower = c := dif_neg h
    rw [hlower]

theorem toNat_le_of_isXDigit {c : Char} (h : isXDigit c = true) : c.toNat ≤ 102 := by
  simp only [isXDigit, Bool.or_eq_true, decide_eq_true_eq] at h
  obtain (⟨-, h⟩ | ⟨-, h⟩) | ⟨-, h⟩ := h
  all_goals
    have hval := UInt32.le_iff_toNat_le.mp h
    change c.toNat ≤ _ at hval
    refine hval.trans ?_
    decide

/-- What there is to know of the letters up to `f`. -/
def TableRow (c : Char) : Prop :=
  (isXDigit c = true → hexValue c < 16 ∧ c.toLower = hexDigitChar (hexValue c)) ∧
    ∀ v < 16, c.toLower = hexDigitChar v → isXDigit c = true ∧ hexValue c = v

instance (c : Char) : Decidable (TableRow c) := inferInstanceAs (Decidable (_ ∧ _))

theorem tableRow {c : Char} (h : c.toNat ≤ 102) : TableRow c := by
  have htable : ∀ k < 103, TableRow (Char.ofNat k) := by decide +kernel
  have hrow := htable c.toNat (by omega)
  rwa [Char.ofNat_toNat] at hrow

theorem hexValue_of_isXDigit {c : Char} (h : isXDigit c = true) :
    hexValue c < 16 ∧ c.toLower = hexDigitChar (hexValue c) :=
  (tableRow (toNat_le_of_isXDigit h)).1 h

theorem isXDigit_of_toLower {c : Char} {v : ℕ} (hv : v < 16) (h : c.toLower = hexDigitChar v) :
    isXDigit c = true ∧ hexValue c = v := by
  have hdigit : ∀ v < 16, (hexDigitChar v).toNat ≤ 102 := by decide
  have hle := toNat_le_toLower c
  rw [h] at hle
  exact (tableRow (hle.trans (hdigit v hv))).2 v hv h

/-! ## Decoding -/

section Decode

variable {a b : Char} {hex : Text}

theorem strtoul16_digits (ha : isXDigit a = true) (hb : isXDigit b = true) :
    strtoul16 [a, b] = (16 * hexValue a + hexValue b, false) := by
  have hspace : isSpace a = false := by
    rw [isSpace, decide_eq_false_iff_not]
    intro hmem
    simp only [List.mem_cons, List.not_mem_nil, or_false] at hmem
    obtain rfl | rfl | rfl | rfl | rfl | rfl := hmem
    all_goals revert ha; decide
  have hsign : takeSign [a, b] = (1, [a, b]) := by
    rw [takeSign]
    · rintro rest hrest
      obtain ⟨rfl, -⟩ := List.cons.inj hrest
      revert ha
      decide
    · rintro rest hrest
      obtain ⟨rfl, -⟩ := List.cons.inj hrest
      revert ha
      decide
  have hx (x : Char) (hx : isXDigit x = false) : [a, b] ≠ ['0', x] := by
    rintro heq
    obtain ⟨-, hbx⟩ := List.cons.inj heq
    rw [(List.cons.inj hbx).1, hx] at hb
    cases hb
  have hva := (hexValue_of_isXDigit ha).1
  have hvb := (hexValue_of_isXDigit hb).1
  have hdrop : [a, b].dropWhile isSpace = [a, b] := by
    rw [List.dropWhile_cons_of_neg (by simp [hspace])]
  have htake : [a, b].takeWhile isXDigit = [a, b] := by
    rw [List.takeWhile_cons_of_pos ha, List.takeWhile_cons_of_pos hb]
    rfl
  have hplain : ¬ ([a, b].take 2 = ['0', 'x'] ∨ [a, b].take 2 = ['0', 'X']) :=
    not_or.mpr ⟨hx 'x' (by decide), hx 'X' (by decide)⟩
  simp only [strtoul16, hdrop, hsign, if_neg hplain, htake, List.foldl_cons, List.foldl_nil]
  rw [if_neg (by omega), if_neg (by decide), Nat.mul_zero, Nat.zero_add]

theorem hexToUint_digits (ha : isXDigit a = true) (hb : isXDigit b = true) (rest : Text) :
    hexToUint (a :: b :: rest) = .ok (Common.hexToUint a b) := by
  have hva := (hexValue_of_isXDigit ha).1
  have hvb := (hexValue_of_isXDigit hb).1
  have htake : (a :: b :: rest).take 2 = [a, b] := rfl
  rw [hexToUint, if_neg (List.cons_ne_nil _ _), htake, strtoul16_digits ha hb]
  simp only [Bool.false_eq_true, if_false]
  rw [Nat.mod_eq_of_lt (by omega), Common.hexToUint]

/-- The loop writes what the digits stand for, from the cell it has reached on. -/
theorem decodeLoop_digits (hdigits : ∀ c ∈ hex, isXDigit c = true) (done old : List UInt8)
    (hlength : hex.length = 2 * old.length) :
    decodeLoop (done ++ old) (2 * done.length) hex =
      .ok (done ++ Common.checksumFromHexDigest hex) := by
  fun_induction Common.checksumFromHexDigest hex generalizing done old with
  | case1 a b rest ih =>
      cases old with
      | nil => cases hlength
      | cons cell old =>
          simp only [List.forall_mem_cons] at hdigits
          obtain ⟨ha, hb, hrest⟩ := hdigits
          have hnext := ih hrest (done ++ [Common.hexToUint a b]) old
            (by simp only [List.length_cons] at hlength; omega)
          rw [List.append_assoc, List.append_assoc, List.length_append,
            List.length_singleton] at hnext
          rw [decodeLoop, hexToUint_digits ha hb]
          simp only [bind, Except.bind]
          rw [show 2 * done.length / 2 = done.length by omega, write_middle]
          exact hnext
  | case2 hex hshort =>
      cases hex with
      | nil =>
          obtain rfl : old = [] := by
            rw [List.length_nil] at hlength
            exact List.eq_nil_of_length_eq_zero (by omega)
          rfl
      | cons a rest =>
          cases rest with
          | nil =>
              simp only [List.length_cons, List.length_nil] at hlength
              omega
          | cons b rest => exact absurd rfl (hshort a b rest)

/-- What a text of hex digits is decoded to. -/
theorem checksumFromHexDigest_digits {n : ℕ} (hn : 0 < n) (hmax : n ≤ 9223372036854775807)
    (hdigits : ∀ c ∈ hex, isXDigit c = true) (hlength : hex.length = 2 * n)
    {memory : List UInt8} (hroom : n ≤ memory.length) :
    checksumFromHexDigest (some hex) (some memory) =
      .ok (Common.checksumFromHexDigest hex ++ memory.drop n) := by
  have hne : hex ≠ [] := by
    rintro rfl
    simp only [List.length_nil] at hlength
    omega
  have hhalf : hex.length / 2 = n := by omega
  have hbytes : (Common.checksumFromHexDigest hex).length = n := by
    rw [checksumFromHexDigest_length, hhalf]
  have hmemory : allocateMemory 1 n (List.replicate n (0 : UInt8)) = .ok (List.replicate n 0) :=
    allocateMemory_eq_ok_iff.mpr ⟨by omega, hn, by omega⟩
  have hloop := decodeLoop_digits hdigits [] (List.replicate n 0) (by simpa using hlength)
  simp only [List.nil_append, List.length_nil, Nat.mul_zero] at hloop
  have hcopy := writeAll_eq [] memory (Common.checksumFromHexDigest hex)
  rw [hbytes, if_pos hroom] at hcopy
  simp only [List.nil_append, List.length_nil] at hcopy
  simp only [checksumFromHexDigest, if_neg hne, hhalf, hmemory, bind, Except.bind, hloop]
  rw [List.take_of_length_le hbytes.le, hcopy]
  rfl

end Decode

/-! ## What a text spells -/

section Spelling

variable {hex : Text} {bytes : List UInt8}

theorem hexText_cons (b : UInt8) (bytes : List UInt8) : hexText (b :: bytes) =
    hexDigitChar (b.toNat / 16) :: hexDigitChar (b.toNat % 16) :: hexText bytes := rfl

theorem toNat_hexToUint {a b : Char} (ha : isXDigit a = true) (hb : isXDigit b = true) :
    (Common.hexToUint a b).toNat = 16 * hexValue a + hexValue b := by
  have hva := (hexValue_of_isXDigit ha).1
  have hvb := (hexValue_of_isXDigit hb).1
  rw [Common.hexToUint, UInt8.toNat_ofNat']
  exact Nat.mod_eq_of_lt (by omega)

/-- The decoder inverts the spelling. -/
theorem spells_iff : Spells hex bytes ↔ (∀ c ∈ hex, isXDigit c = true) ∧
    hex.length = 2 * bytes.length ∧ Common.checksumFromHexDigest hex = bytes := by
  induction bytes generalizing hex with
  | nil =>
      rw [Spells, hexText, List.flatMap_nil, List.map_eq_nil_iff]
      constructor
      · rintro rfl
        exact ⟨by simp, rfl, rfl⟩
      · rintro ⟨-, hlength, -⟩
        exact List.eq_nil_of_length_eq_zero hlength
  | cons v bytes ih =>
      rw [Spells, hexText_cons]
      constructor
      · intro h
        obtain ⟨a, tail, rfl, ha, htail⟩ := List.map_eq_cons_iff.mp h
        obtain ⟨b, rest, rfl, hb, hrest⟩ := List.map_eq_cons_iff.mp htail
        have hv := v.toNat_lt
        obtain ⟨hda, hva⟩ := isXDigit_of_toLower (by omega) ha
        obtain ⟨hdb, hvb⟩ := isXDigit_of_toLower (by omega) hb
        obtain ⟨hdigits, hlength, hbytes⟩ := ih.mp hrest
        refine ⟨?_, ?_, ?_⟩
        · simp only [List.forall_mem_cons]
          exact ⟨hda, hdb, hdigits⟩
        · simp only [List.length_cons]
          omega
        · have hbyte : Common.hexToUint a b = v := by
            apply UInt8.toNat_inj.mp
            rw [toNat_hexToUint hda hdb, hva, hvb]
            omega
          rw [Common.checksumFromHexDigest, hbyte, hbytes]
      · rintro ⟨hdigits, hlength, hbytes⟩
        obtain _ | ⟨a, _ | ⟨b, rest⟩⟩ := hex
        · cases hlength
        · simp only [List.length_cons, List.length_nil] at hlength
          omega
        · simp only [List.forall_mem_cons] at hdigits
          obtain ⟨hda, hdb, hdigits⟩ := hdigits
          rw [Common.checksumFromHexDigest] at hbytes
          obtain ⟨rfl, htail⟩ := List.cons.inj hbytes
          have hrest : Spells rest bytes :=
            ih.mpr ⟨hdigits, by simp only [List.length_cons] at hlength; omega, htail⟩
          obtain ⟨hva, hla⟩ := hexValue_of_isXDigit hda
          obtain ⟨hvb, hlb⟩ := hexValue_of_isXDigit hdb
          have hhigh : (16 * hexValue a + hexValue b) / 16 = hexValue a := by omega
          have hlow : (16 * hexValue a + hexValue b) % 16 = hexValue b := by omega
          rw [toNat_hexToUint hda hdb, hhigh, hlow, List.map_cons, List.map_cons, hla, hlb, hrest]

/-- A text of hex digits of the right length spells bytes. -/
theorem exists_spells_iff {n : ℕ} : (∃ bytes : List UInt8, bytes.length = n ∧ Spells hex bytes) ↔
    (∀ c ∈ hex, isXDigit c = true) ∧ hex.length = 2 * n := by
  constructor
  · rintro ⟨bytes, rfl, hspells⟩
    obtain ⟨hdigits, hlength, -⟩ := spells_iff.mp hspells
    exact ⟨hdigits, hlength⟩
  · rintro ⟨hdigits, hlength⟩
    have hbytes : (Common.checksumFromHexDigest hex).length = n := by
      rw [checksumFromHexDigest_length]
      omega
    exact ⟨_, hbytes, spells_iff.mpr ⟨hdigits, by rw [hbytes, hlength], rfl⟩⟩

end Spelling

/-! ## Checking -/

section Check

variable {hex : Text} {n : ℕ}

/-- The loop ends if the digits it passes can be counted in an `int`. -/
theorem countDigits_eq {i : ℤ} (hi : 0 ≤ i) (hmax : i ≤ 2147483647) : countDigits hex i =
    if i + (hex.takeWhile isXDigit).length ≤ 2147483647 then
      .ok (if hex.all isXDigit then some (i + hex.length) else none)
    else .error .overflow := by
  induction hex generalizing i with
  | nil =>
      rw [if_pos (by simpa using hmax), countDigits]
      simp
  | cons c rest ih =>
      rw [countDigits]
      by_cases hc : isXDigit c = true
      · rw [if_pos hc, List.takeWhile_cons_of_pos hc]
        simp only [List.all_cons, hc, Bool.true_and, List.length_cons, Int.natCast_add,
          Int.natCast_one]
        by_cases hnext : i + 1 ≤ 2147483647
        · rw [asInt_of_le (by omega) hnext]
          simp only [bind, Except.bind]
          rw [ih (by omega) hnext]
          simp only [Int.add_assoc, Int.add_comm 1]
        · rw [asInt_of_lt (by omega), if_neg (by omega)]
          rfl
      · rw [if_neg hc, List.takeWhile_cons_of_neg hc, if_pos (by simpa using hmax), if_neg]
        intro hall
        exact hc (List.all_eq_true.mp hall c List.mem_cons_self)

/-- The leading digits can be counted, and so can the letters of a digest that is compared. -/
structure Fits (hex : Text) (n : ℕ) : Prop where
  digits : (hex.takeWhile isXDigit).length ≤ 2147483647
  twice : hex ≠ [] → hex.all isXDigit = true → 2 * n ≤ 2147483647

theorem checkHexDigest_of_fits (hn : 0 < n) (h : Fits hex n) :
    checkHexDigest (some hex) n =
      .ok (if hex.all isXDigit ∧ hex.length = 2 * n then 1 else 0) := by
  simp only [checkHexDigest]
  by_cases hempty : hex = []
  · subst hempty
    rw [if_pos (.inl rfl), if_neg]
    rintro ⟨-, hlength⟩
    rw [List.length_nil] at hlength
    omega
  · rw [if_neg (by simp only [hempty, false_or]; omega),
      countDigits_eq (Int.le_refl 0) (by decide), if_pos (by have := h.digits; omega)]
    by_cases hdigits : hex.all isXDigit = true
    · have htwice := h.twice hempty hdigits
      simp only [if_pos hdigits, bind, Except.bind]
      rw [asInt_of_le (by omega) (by omega)]
      have hsame : (n : ℤ) * 2 = 0 + hex.length ↔ hex.all isXDigit = true ∧ hex.length = 2 * n := by
        rw [and_iff_right hdigits]
        omega
      simp only [hsame]
    · simp only [if_neg hdigits, bind, Except.bind]
      rw [if_neg fun h => hdigits h.1]

theorem fits_of_checkHexDigest (hn : 0 < n) {r : ℕ} (h : checkHexDigest (some hex) n = .ok r) :
    Fits hex n := by
  by_cases hempty : hex = []
  · subst hempty
    exact ⟨by simp, fun hne => absurd rfl hne⟩
  · simp only [checkHexDigest] at h
    rw [if_neg (by simp only [hempty, false_or]; omega),
      countDigits_eq (Int.le_refl 0) (by decide)] at h
    by_cases hcount : (0 : ℤ) + (hex.takeWhile isXDigit).length ≤ 2147483647
    · refine ⟨by omega, fun _ hdigits => ?_⟩
      rw [if_pos hcount, if_pos hdigits] at h
      simp only [bind, Except.bind] at h
      by_contra hlarge
      rw [asInt_of_lt (by omega)] at h
      cases h
    · rw [if_neg hcount] at h
      cases h

end Check

/-! ## The checker that other modules use -/

/-- The check of a digest of one of the hash types, for texts whose letters can be counted. -/
theorem checkHexDigest_hashType {hex : Text} (hmax : hex.length ≤ 2147483647) (type : HashType) :
    checkHexDigest (some hex) type.length =
      .ok (if Common.checkHexDigest (some hex) type.length then 1 else 0) := by
  have hpos : 0 < type.length := by cases type <;> decide
  have hsmall : 2 * type.length ≤ 2147483647 := by cases type <;> decide
  have hfits : Fits hex type.length :=
    ⟨((List.takeWhile_sublist _).length_le).trans hmax, fun _ _ => hsmall⟩
  have hsame : (hex.all isXDigit = true ∧ hex.length = 2 * type.length) ↔
      Common.checkHexDigest (some hex) type.length = true := by
    simp only [Common.checkHexDigest, Bool.and_eq_true, Bool.not_eq_true',
      List.isEmpty_eq_false_iff, decide_eq_true_eq, beq_iff_eq]
    constructor
    · rintro ⟨hdigits, hlength⟩
      refine ⟨⟨⟨?_, hpos⟩, hdigits⟩, by omega⟩
      rintro rfl
      rw [List.length_nil] at hlength
      omega
    · rintro ⟨⟨-, hdigits⟩, hlength⟩
      exact ⟨hdigits, by omega⟩
  rw [checkHexDigest_of_fits hpos hfits]
  simp only [hsame]

end Tdnf.HexDigest
