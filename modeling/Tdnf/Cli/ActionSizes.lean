import Mathlib
import Tdnf.Client.Resolve
import Tdnf.Library.Json

/-!
# Totals of a transaction and sizes with units

`PrintAction` lists the packages of one action and adds up their sizes in signed
integers of 32 bits, which are then taken for unsigned ones of 64 bits. A size
is scaled by 1024 as long as it is larger and there is another unit; the test
for another unit lets the scaling go one step too far.
-/

namespace Tdnf.Cli

open Json (Bytes ascii decimal)
open Client (AlterType)

namespace ActionSizes

/-- The fields of `TDNF_PKG_INFO` that are printed. -/
structure PkgInfo where
  dwEpoch : UInt32
  dwInstallSizeBytes : UInt32
  dwDownloadSizeBytes : UInt32
  pszName : Option Bytes
  pszArch : Option Bytes
  pszVersion : Bytes
  pszRelease : Bytes
  pszRepoName : Option Bytes
  pszFormattedSize : Option Bytes
  pszFormattedDownloadSize : Option Bytes

/-- A number, as a rational, and what is read from the string of units behind it. -/
structure FormattedSize where
  dSize : ℚ
  unit : Option Char
deriving DecidableEq

/-- `pszSizes` -/
def pszSizes : List Char := "bkMG".toList

/-- The loop of `TDNFUtilsFormatSize`, with the rounds that `nLimit` leaves. -/
def scale : ℕ → ℕ → ℚ → ℕ × ℚ
  | 0, nIndex, dSize => (nIndex, dSize)
  | left + 1, nIndex, dSize =>
    if 1024 < dSize then scale left (nIndex + 1) (dSize / 1024) else (nIndex, dSize)

/-- `TDNFUtilsFormatSize`; the string of units ends with a NUL, which can be read -/
def formatSize (unSize : UInt64) : FormattedSize :=
  let (nIndex, dSize) := scale pszSizes.length 0 unSize.toNat
  ⟨dSize, (pszSizes ++ ['\x00'])[nIndex]?⟩

/-- The heading of an action, for those that are printed. -/
def heading : AlterType → Option Bytes
  | .install => some (ascii "\nInstalling:")
  | .upgrade => some (ascii "\nUpgrading:")
  | .erase => some (ascii "\nRemoving:")
  | .downgrade => some (ascii "\nDowngrading:")
  | .reinstall => some (ascii "\nReinstalling:")
  | .obsoleted => some (ascii "\nObsoleting:")
  | _ => none

/-- `szEpochVersionRelease`, cut to its buffer of 256 bytes -/
def epochVersionRelease (pPkgInfo : PkgInfo) : Bytes :=
  ((if pPkgInfo.dwEpoch = 0 then [] else decimal pPkgInfo.dwEpoch.toNat ++ ascii ":") ++
    pPkgInfo.pszVersion ++ ascii "-" ++ pPkgInfo.pszRelease).take 255

/-- `ppszInfoToPrint` -/
def infoToPrint (pPkgInfo : PkgInfo) : List Bytes :=
  [pPkgInfo.pszName.getD [], pPkgInfo.pszArch.getD [], epochVersionRelease pPkgInfo,
    pPkgInfo.pszRepoName.getD [], pPkgInfo.pszFormattedSize.getD [],
    pPkgInfo.pszFormattedDownloadSize.getD []]

/-- What `PrintAction` prints, with the numbers that it has formatted. -/
structure Report where
  heading : Bytes
  /-- the entries of each package, to be padded to the column widths -/
  rows : List (List Bytes)
  nColWidths : List ℕ
  unInstallSize : UInt64
  unDownloadSize : UInt64
  totalInstallSize : FormattedSize
  totalDownloadSize : FormattedSize

/-- `nTotal += dwSize`, in an `int` -/
def addSize (nTotal : ℤ) (dwSize : UInt32) : ℤ := (nTotal + dwSize.toNat).bmod 4294967296

/-- An `int` passed for a `uint64_t` -/
def toUInt64 (nTotal : ℤ) : UInt64 := .ofNat (nTotal % 18446744073709551616).toNat

/-- `PrintAction`; NULL is an empty list, and the widths of the columns are those of the
terminal. -/
def printAction (columnWidths : Except TdnfError (List ℕ)) (pPkgInfos : List PkgInfo)
    (nAlterType : AlterType) : Except TdnfError Report :=
  if pPkgInfos = [] then .error .invalidParameter
  else
    match heading nAlterType with
    | none => .error .invalidParameter
    | some pszHeading => do
        let nColWidths ← columnWidths
        let nTotalInstallSize :=
          pPkgInfos.foldl (fun nTotal pPkgInfo => addSize nTotal pPkgInfo.dwInstallSizeBytes) 0
        let nTotalDownloadSize :=
          pPkgInfos.foldl (fun nTotal pPkgInfo => addSize nTotal pPkgInfo.dwDownloadSizeBytes) 0
        return {
          heading := pszHeading
          rows := pPkgInfos.map infoToPrint
          nColWidths := nColWidths
          unInstallSize := toUInt64 nTotalInstallSize
          unDownloadSize := toUInt64 nTotalDownloadSize
          totalInstallSize := formatSize (toUInt64 nTotalInstallSize)
          totalDownloadSize := formatSize (toUInt64 nTotalDownloadSize) }

/-- The sum of a size over all packages. -/
def sumOf (size : PkgInfo → UInt32) (pkgs : List PkgInfo) : ℕ :=
  (pkgs.map fun pkg => (size pkg).toNat).sum

/-- The numbers formatted are the sums over the list. -/
def Report.Exact (report : Report) (pkgs : List PkgInfo) : Prop :=
  report.unInstallSize.toNat = sumOf PkgInfo.dwInstallSizeBytes pkgs ∧
    report.unDownloadSize.toNat = sumOf PkgInfo.dwDownloadSizeBytes pkgs

/-- The unit of a size: the first one that is large enough, or the last one. -/
def IsUnitOf (i : ℕ) (unSize : ℕ) : Prop :=
  (unSize ≤ 1024 ^ (i + 1) ∨ i = 3) ∧ ∀ j < i, 1024 ^ (j + 1) < unSize

/-- A size is formatted with its unit. -/
def FormatsRight (unSize : UInt64) : Prop :=
  ∃ i c, i ≤ 3 ∧ IsUnitOf i unSize.toNat ∧ pszSizes[i]? = some c ∧
    formatSize unSize = ⟨unSize.toNat / 1024 ^ i, some c⟩

/-- An `int` holds the sum, or the sum comes out of it again as a number of 64 bits. -/
def SumFits (sum : ℕ) : Prop := sum < 2 ^ 31 ∨ 2 ^ 64 - 2 ^ 31 ≤ sum ∧ sum < 2 ^ 64

instance (sum : ℕ) : Decidable (SumFits sum) := inferInstanceAs (Decidable (_ ∨ _ ∧ _))

/-! ## The totals -/

/-- The accumulator is the sum, up to multiples of 2³². -/
theorem foldl_addSize (size : PkgInfo → UInt32) (pkgs : List PkgInfo) (n : ℤ) :
    pkgs.foldl (fun nTotal pkg => addSize nTotal (size pkg)) (n.bmod 4294967296) =
      (n + sumOf size pkgs).bmod 4294967296 := by
  induction pkgs generalizing n with
  | nil => simp [sumOf]
  | cons pkg pkgs ih =>
      rw [List.foldl_cons, addSize, Int.bmod_add_bmod, ih, sumOf, sumOf, List.map_cons,
        List.sum_cons, Nat.cast_add, Int.add_assoc]

theorem toUInt64_sum_iff (sum : ℕ) :
    (toUInt64 ((sum : ℤ).bmod 4294967296)).toNat = sum ↔ SumFits sum := by
  rw [toUInt64, UInt64.toNat_ofNat', SumFits, Int.bmod_def]
  split_ifs <;> omega

/-- A total is exact exactly if the accumulator can hold it. -/
theorem total_iff (size : PkgInfo → UInt32) (pkgs : List PkgInfo) :
    (toUInt64 (pkgs.foldl (fun nTotal pkg => addSize nTotal (size pkg)) 0)).toNat =
      sumOf size pkgs ↔ SumFits (sumOf size pkgs) := by
  have hfold := foldl_addSize size pkgs 0
  rw [Int.zero_add] at hfold
  rw [← toUInt64_sum_iff, ← hfold]
  rfl

theorem exact_iff {columnWidths : Except TdnfError (List ℕ)} {pkgs : List PkgInfo}
    {nAlterType : AlterType} {report : Report}
    (h : printAction columnWidths pkgs nAlterType = .ok report) :
    report.Exact pkgs ↔ SumFits (sumOf PkgInfo.dwInstallSizeBytes pkgs) ∧
      SumFits (sumOf PkgInfo.dwDownloadSizeBytes pkgs) := by
  rw [printAction] at h
  split_ifs at h with hempty
  cases hheading : heading nAlterType with
  | none => simp [hheading] at h
  | some pszHeading =>
      rw [hheading] at h
      cases columnWidths with
      | error e => cases h
      | ok nColWidths =>
          cases h
          exact and_congr (total_iff _ pkgs) (total_iff _ pkgs)

/-! ## The units -/

/-- The scaling stops at the first unit that is large enough, or when no round is left. -/
theorem scale_spec (left i : ℕ) (size : ℚ) :
    ∃ k, i ≤ k ∧ k ≤ i + left ∧ scale left i (size / 1024 ^ i) = (k, size / 1024 ^ k) ∧
      (∀ j, i ≤ j → j < k → (1024 : ℚ) ^ (j + 1) < size) ∧
      (k < i + left → size ≤ (1024 : ℚ) ^ (k + 1)) := by
  induction left generalizing i with
  | zero => exact ⟨i, le_rfl, le_rfl, rfl, fun j hj hj' => absurd hj' (by omega), by omega⟩
  | succ left ih =>
      have hlarger : (1024 : ℚ) < size / 1024 ^ i ↔ (1024 : ℚ) ^ (i + 1) < size := by
        rw [lt_div_iff₀ (by positivity), pow_succ, mul_comm]
      rw [scale]
      by_cases h : (1024 : ℚ) < size / 1024 ^ i
      · obtain ⟨k, hik, hk, hrun, hbelow, hstop⟩ := ih (i + 1)
        refine ⟨k, by omega, by omega, ?_, ?_, fun hlt => hstop (by omega)⟩
        · rw [if_pos h, div_div, ← pow_succ, hrun]
        · intro j hij hjk
          obtain rfl | hlt := Nat.eq_or_lt_of_le hij
          · exact hlarger.mp h
          · exact hbelow j hlt hjk
      · refine ⟨i, le_rfl, by omega, by rw [if_neg h], fun j hj hj' => absurd hj' (by omega), ?_⟩
        intro _
        exact not_lt.mp fun hlt => h (hlarger.mpr hlt)

/-- The same for a whole size. -/
theorem formatSize_spec (unSize : UInt64) :
    ∃ k ≤ 4, formatSize unSize = ⟨unSize.toNat / 1024 ^ k, (pszSizes ++ ['\x00'])[k]?⟩ ∧
      (∀ j < k, 1024 ^ (j + 1) < unSize.toNat) ∧
      (k < 4 → unSize.toNat ≤ 1024 ^ (k + 1)) := by
  obtain ⟨k, -, hk, hrun, hbelow, hstop⟩ := scale_spec pszSizes.length 0 unSize.toNat
  rw [pow_zero, div_one] at hrun
  have hlength : 0 + pszSizes.length = 4 := rfl
  rw [hlength] at hk hstop
  refine ⟨k, hk, by rw [formatSize, hrun], fun j hj => ?_, fun hlt => ?_⟩
  · exact_mod_cast hbelow j (Nat.zero_le j) hj
  · exact_mod_cast hstop hlt

/-- A size is formatted with a unit exactly if it is not larger than the last unit allows. -/
theorem formatsRight_iff (unSize : UInt64) : FormatsRight unSize ↔ unSize.toNat ≤ 1024 ^ 4 := by
  obtain ⟨k, hk, hformat, hbelow, hstop⟩ := formatSize_spec unSize
  constructor
  · rintro ⟨i, c, -, -, hc, heq⟩
    by_contra hlarge
    have hend : k = 4 := by
      by_contra hne
      have hlt : k < 4 := Nat.lt_of_le_of_ne hk hne
      apply hlarge
      calc unSize.toNat ≤ 1024 ^ (k + 1) := hstop hlt
        _ ≤ 1024 ^ 4 := Nat.pow_le_pow_right (by decide) hlt
    rw [hformat, FormattedSize.mk.injEq, hend] at heq
    have hnul : some '\x00' = some c := heq.2
    rw [← hnul] at hc
    exact absurd (List.mem_of_getElem? hc) (by decide)
  · intro hsize
    have hlt : k < 4 := by
      by_contra hge
      exact absurd hsize (Nat.not_le.mpr (hbelow 3 (by omega)))
    have hletter : k < pszSizes.length := hlt
    refine ⟨k, pszSizes[k], by omega, ⟨.inl (hstop hlt), hbelow⟩,
      List.getElem?_eq_getElem hletter, ?_⟩
    rw [hformat, List.getElem?_append_left hletter, List.getElem?_eq_getElem hletter]

/-- What is printed is right exactly if the totals fit into an `int` (or are so close to 2⁶⁴ that
its sign makes up for what it lacks), and a size is right exactly up to 1024⁴. -/
theorem sizes_right_iff (columnWidths : Except TdnfError (List ℕ)) (pkgs : List PkgInfo)
    (nAlterType : AlterType) (report : Report)
    (h : printAction columnWidths pkgs nAlterType = .ok report) (unSize : UInt64) :
    report.Exact pkgs ∧ FormatsRight unSize ↔
      (SumFits (sumOf PkgInfo.dwInstallSizeBytes pkgs) ∧
        SumFits (sumOf PkgInfo.dwDownloadSizeBytes pkgs)) ∧ unSize.toNat ≤ 1024 ^ 4 :=
  and_congr (exact_iff h) (formatsRight_iff unSize)

/-- A package of a given size. -/
def pkgOfSize (dwInstallSizeBytes : UInt32) : PkgInfo where
  dwEpoch := 0
  dwInstallSizeBytes := dwInstallSizeBytes
  dwDownloadSizeBytes := 1
  pszName := some (ascii "kernel")
  pszArch := some (ascii "x86_64")
  pszVersion := ascii "6.1"
  pszRelease := ascii "1"
  pszRepoName := some (ascii "photon")
  pszFormattedSize := none
  pszFormattedDownloadSize := none

/-- A package of 100 bytes, and a size of 2048. -/
theorem sizes_right_small : ∃ report,
    printAction (.ok [20, 15, 20, 15, 10, 10]) [pkgOfSize 100] .install = .ok report ∧
      report.Exact [pkgOfSize 100] ∧ FormatsRight 2048 := by
  obtain ⟨report, hrun⟩ : ∃ report,
      printAction (.ok [20, 15, 20, 15, 10, 10]) [pkgOfSize 100] .install = .ok report := ⟨_, rfl⟩
  have hright := sizes_right_iff _ [pkgOfSize 100] .install report hrun 2048
  exact ⟨report, hrun, hright.mpr ⟨⟨by decide, by decide⟩, by decide⟩⟩

/-- Two packages of a gigabyte each are too much for the total, and a size above 1024⁴ is read a
unit behind the last one. -/
theorem large_sizes_wrong : (∃ report,
    printAction (.ok [20, 15, 20, 15, 10, 10]) [pkgOfSize 1073741824, pkgOfSize 1073741824]
      .install = .ok report ∧
      ¬ report.Exact [pkgOfSize 1073741824, pkgOfSize 1073741824]) ∧
    ¬ FormatsRight 1099511627777 := by
  constructor
  · obtain ⟨report, hrun⟩ : ∃ report,
        printAction (.ok [20, 15, 20, 15, 10, 10]) [pkgOfSize 1073741824, pkgOfSize 1073741824]
          .install = .ok report := ⟨_, rfl⟩
    refine ⟨report, hrun, ?_⟩
    rw [exact_iff hrun]
    rintro ⟨hinstall, -⟩
    exact absurd hinstall (by decide)
  · rw [formatsRight_iff]
    decide

end ActionSizes

end Tdnf.Cli
