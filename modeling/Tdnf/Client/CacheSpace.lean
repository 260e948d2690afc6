import Mathlib.Algebra.Order.BigOperators.Group.List
import Mathlib.Algebra.Order.Ring.Nat
import Mathlib.Tactic.SplitIfs
import Tdnf.Common.Error
import Tdnf.Library.Procedure

/-!
# Room for the packages to be downloaded

The size of a package is a number of 64 bits in the pool and one of 32 bits in
`TDNF_PKG_INFO`. Before a transaction the sizes are added up, over the packages
to be installed, downgraded, upgraded and reinstalled, until they exceed the
available bytes of the cache.
-/

namespace Tdnf.Client

namespace CacheSpace

/-- What is looked up about a package. -/
structure SizeHost where
  /-- `solvable_lookup_num`, of `SOLVABLE_DOWNLOADSIZE` -/
  downloadSize : ℕ → UInt64
  /-- the lookups of the other fields of `TDNF_PKG_INFO` -/
  otherFields : ℕ → Except TdnfError Unit

/-- The field of `TDNF_PKG_INFO` in use here. -/
structure PkgInfo where
  dwDownloadSizeBytes : UInt32
deriving DecidableEq, Repr

/-- The lists of `TDNF_SOLVED_PKG_INFO` for which packages are downloaded. -/
structure SolvedPkgInfo where
  pPkgsToInstall : List PkgInfo
  pPkgsToDowngrade : List PkgInfo
  pPkgsToUpgrade : List PkgInfo
  pPkgsToReinstall : List PkgInfo

section Code

variable (host : SizeHost)

/-- `SolvGetPkgDownloadSizeFromId` -/
def solvGetPkgDownloadSizeFromId (dwPkgId : ℕ) : UInt32 := (host.downloadSize dwPkgId).toUInt32

/-- `TDNFPopulatePkgInfos`; each package goes to the front of the list -/
def populatePkgInfos (pkgs : List ℕ) : Except TdnfError (List PkgInfo) :=
  if pkgs = [] then .error .noMatch
  else do
    let infos ← pkgs.mapM fun dwPkgId => do
      host.otherFields dwPkgId
      return ⟨solvGetPkgDownloadSizeFromId host dwPkgId⟩
    return infos.reverse

/-- The list of one type of results, which is populated unless it is empty. -/
def typedPackages (pkgs : List ℕ) : Except TdnfError (List PkgInfo) :=
  if pkgs = [] then .ok [] else populatePkgInfos host pkgs

/-- The packages of a resolution, by what is done with them. -/
structure Resolved where
  install : List ℕ
  downgrade : List ℕ
  upgrade : List ℕ
  reinstall : List ℕ

/-- The lists of a resolution. -/
def solvedPkgInfo (resolved : Resolved) : Except TdnfError SolvedPkgInfo := do
  return {
    pPkgsToInstall := ← typedPackages host resolved.install
    pPkgsToDowngrade := ← typedPackages host resolved.downgrade
    pPkgsToUpgrade := ← typedPackages host resolved.upgrade
    pPkgsToReinstall := ← typedPackages host resolved.reinstall }

/-- The round of the loop in `TDNFCheckDownloadCacheBytes` for one package. -/
def addSize (qwAvailCacheBytes qwTotal : UInt64) (pPkgInfo : PkgInfo) :
    Except TdnfError UInt64 :=
  let qwTotal := qwTotal + pPkgInfo.dwDownloadSizeBytes.toUInt64
  if qwAvailCacheBytes < qwTotal then .error .cacheDirOutOfDiskSpace else .ok qwTotal

/-- `TDNFCheckDownloadCacheBytes` -/
def checkDownloadCacheBytes (info : SolvedPkgInfo) (qwAvailCacheBytes : UInt64) :
    Except TdnfError Unit := do
  let _ ← [info.pPkgsToInstall, info.pPkgsToDowngrade, info.pPkgsToUpgrade,
    info.pPkgsToReinstall].foldlM
      (fun qwTotal pPkgInfos => pPkgInfos.foldlM (addSize qwAvailCacheBytes) qwTotal) 0
  return ()

end Code

/-- All packages of a resolution. -/
def Resolved.all (resolved : Resolved) : List ℕ :=
  resolved.install ++ resolved.downgrade ++ resolved.upgrade ++ resolved.reinstall

/-- The true sum of the download sizes. -/
def trueSum (host : SizeHost) (resolved : Resolved) : ℕ :=
  (resolved.all.map fun id => (host.downloadSize id).toNat).sum

/-- The sum of what is left of the sizes in 32 bits. -/
def keptSum (host : SizeHost) (resolved : Resolved) : ℕ :=
  (resolved.all.map fun id => (host.downloadSize id).toNat % 2 ^ 32).sum

/-- The packages of all lists. -/
def SolvedPkgInfo.all (info : SolvedPkgInfo) : List PkgInfo :=
  info.pPkgsToInstall ++ info.pPkgsToDowngrade ++ info.pPkgsToUpgrade ++ info.pPkgsToReinstall

/-- The sum of the sizes of packages. -/
def sizeSum (infos : List PkgInfo) : ℕ :=
  (infos.map fun info => info.dwDownloadSizeBytes.toNat).sum

section Adding

variable {avail : UInt64}

/-- As long as the sum does not overflow, the loop ends early exactly if it is too large. -/
theorem foldlM_addSize (infos : List PkgInfo) {total : UInt64} (htotal : total ≤ avail)
    (hsum : total.toNat + sizeSum infos < 2 ^ 64) :
    infos.foldlM (addSize avail) total =
      if avail.toNat < total.toNat + sizeSum infos then .error .cacheDirOutOfDiskSpace
      else .ok (.ofNat (total.toNat + sizeSum infos)) := by
  induction infos generalizing total with
  | nil =>
      have hle : ¬ avail.toNat < total.toNat + sizeSum [] := by
        simpa [sizeSum] using UInt64.le_iff_toNat_le.mp htotal
      rw [if_neg hle]
      simp [sizeSum]
      rfl
  | cons info infos ih =>
      have hcons : sizeSum (info :: infos) = info.dwDownloadSizeBytes.toNat + sizeSum infos := by
        simp [sizeSum]
      have hadd : (total + info.dwDownloadSizeBytes.toUInt64).toNat =
          total.toNat + info.dwDownloadSizeBytes.toNat := by
        rw [UInt64.toNat_add, UInt32.toNat_toUInt64, Nat.mod_eq_of_lt (by omega)]
      rw [List.foldlM_cons, addSize, hcons, ← Nat.add_assoc, ← hadd]
      by_cases hlt : avail < total + info.dwDownloadSizeBytes.toUInt64
      · have hlarge := UInt64.lt_iff_toNat_lt.mp hlt
        rw [if_pos hlt, if_pos (by omega)]
        rfl
      · rw [if_neg hlt]
        exact ih (UInt64.not_lt.mp hlt) (by omega)

/-- The check succeeds exactly if the sum of the sizes does not exceed the available bytes. -/
theorem checkDownloadCacheBytes_iff (avail : UInt64) (info : SolvedPkgInfo)
    (hsum : sizeSum info.all < 2 ^ 64) :
    checkDownloadCacheBytes info avail = .ok () ↔ sizeSum info.all ≤ avail.toNat := by
  have hflat : [info.pPkgsToInstall, info.pPkgsToDowngrade, info.pPkgsToUpgrade,
      info.pPkgsToReinstall].foldlM
        (fun total infos => infos.foldlM (addSize avail) total) 0 =
      info.all.foldlM (addSize avail) 0 := by
    simp [SolvedPkgInfo.all, List.foldlM_append]
  have hzero : (0 : UInt64).toNat + sizeSum info.all = sizeSum info.all := Nat.zero_add _
  rw [checkDownloadCacheBytes, hflat, foldlM_addSize info.all (UInt64.zero_le) (by rwa [hzero]),
    hzero]
  split_ifs with hlt
  · constructor
    · intro h
      cases h
    · intro h
      omega
  · exact ⟨fun _ => by omega, fun _ => rfl⟩

end Adding

section Looking

variable {host : SizeHost}

/-- The sizes in a list are what 32 bits keep of those looked up. -/
theorem sizeSum_typedPackages {ids : List ℕ} {infos : List PkgInfo}
    (h : typedPackages host ids = .ok infos) :
    sizeSum infos = (ids.map fun id => (host.downloadSize id).toNat % 2 ^ 32).sum := by
  rw [typedPackages] at h
  split_ifs at h with hempty
  · cases h
    rw [hempty]
    rfl
  · rw [populatePkgInfos, if_neg hempty] at h
    obtain ⟨found, hfound, hreverse⟩ := Procedure.exists_of_bind_ok h
    cases hreverse
    have hsize (id : ℕ) (info : PkgInfo)
        (hround : (do
          host.otherFields id
          return (⟨solvGetPkgDownloadSizeFromId host id⟩ : PkgInfo)) = .ok info) :
        info.dwDownloadSizeBytes.toNat = (host.downloadSize id).toNat % 2 ^ 32 := by
      obtain ⟨_, -, hinfo⟩ := Procedure.exists_of_bind_ok hround
      cases hinfo
      rw [solvGetPkgDownloadSizeFromId, UInt64.toNat_toUInt32]
    rw [sizeSum, List.map_reverse, List.sum_reverse, Procedure.map_of_mapM_ok hsize hfound]

theorem sizeSum_all {resolved : Resolved} {info : SolvedPkgInfo}
    (h : solvedPkgInfo host resolved = .ok info) : sizeSum info.all = keptSum host resolved := by
  rw [solvedPkgInfo] at h
  obtain ⟨install, hinstall, h⟩ := Procedure.exists_of_bind_ok h
  obtain ⟨downgrade, hdowngrade, h⟩ := Procedure.exists_of_bind_ok h
  obtain ⟨upgrade, hupgrade, h⟩ := Procedure.exists_of_bind_ok h
  obtain ⟨reinstall, hreinstall, h⟩ := Procedure.exists_of_bind_ok h
  cases h
  have hsum (l l' : List PkgInfo) : sizeSum (l ++ l') = sizeSum l + sizeSum l' := by
    simp [sizeSum]
  simp only [SolvedPkgInfo.all, hsum, sizeSum_typedPackages hinstall,
    sizeSum_typedPackages hdowngrade, sizeSum_typedPackages hupgrade,
    sizeSum_typedPackages hreinstall, keptSum, Resolved.all, List.map_append, List.sum_append]

theorem keptSum_le_trueSum (host : SizeHost) (resolved : Resolved) :
    keptSum host resolved ≤ trueSum host resolved :=
  List.sum_le_sum fun _ _ => Nat.mod_le _ _

/-- If the sizes all fit into 32 bits, nothing of their sum is lost. -/
theorem keptSum_eq_trueSum {resolved : Resolved}
    (h : ∀ id ∈ resolved.all, (host.downloadSize id).toNat < 2 ^ 32) :
    keptSum host resolved = trueSum host resolved := by
  rw [keptSum, trueSum, List.map_congr_left fun id hid => Nat.mod_eq_of_lt (h id hid)]

end Looking

/-- The check is right exactly if the available bytes suffice for all packages, or do not even
suffice for what 32 bits keep of their sizes. -/
theorem checkDownloadCacheBytes_right_iff (host : SizeHost) (resolved : Resolved)
    (info : SolvedPkgInfo) (hinfo : solvedPkgInfo host resolved = .ok info)
    (htotal : trueSum host resolved < 2 ^ 64) (avail : UInt64) :
    (checkDownloadCacheBytes info avail = .ok () ↔ trueSum host resolved ≤ avail.toNat) ↔
      trueSum host resolved ≤ avail.toNat ∨ avail.toNat < keptSum host resolved := by
  have hkept := keptSum_le_trueSum host resolved
  have hcheck := checkDownloadCacheBytes_iff avail info (by rw [sizeSum_all hinfo]; omega)
  rw [hcheck, sizeSum_all hinfo]
  omega

/-- A package of 4 GiB, and one of a kilobyte. -/
def largeHost : SizeHost where
  downloadSize id := if id = 1 then 4294967296 else 1024
  otherFields _ := .ok ()

/-- With room for both packages the check succeeds. -/
theorem checkDownloadCacheBytes_right_large : ∃ info,
    solvedPkgInfo largeHost ⟨[1, 2], [], [], []⟩ = .ok info ∧
      (checkDownloadCacheBytes info 4294968320 = .ok () ↔
        trueSum largeHost ⟨[1, 2], [], [], []⟩ ≤ (4294968320 : UInt64).toNat) := by
  obtain ⟨info, hinfo⟩ : ∃ info, solvedPkgInfo largeHost ⟨[1, 2], [], [], []⟩ = .ok info :=
    ⟨_, rfl⟩
  exact ⟨info, hinfo, (checkDownloadCacheBytes_right_iff largeHost _ info hinfo (by decide)
    4294968320).mpr (.inl (by decide))⟩

/-- The check takes 4 GiB for nothing. -/
theorem large_package_unnoticed : ∃ info,
    solvedPkgInfo largeHost ⟨[1], [], [], []⟩ = .ok info ∧
      ¬ (checkDownloadCacheBytes info 1024 = .ok () ↔
        trueSum largeHost ⟨[1], [], [], []⟩ ≤ (1024 : UInt64).toNat) := by
  obtain ⟨info, hinfo⟩ : ∃ info, solvedPkgInfo largeHost ⟨[1], [], [], []⟩ = .ok info := ⟨_, rfl⟩
  refine ⟨info, hinfo, fun hright => ?_⟩
  have hsum := sizeSum_all hinfo
  have hkept : keptSum largeHost ⟨[1], [], [], []⟩ = 0 := by decide
  have hcheck := (checkDownloadCacheBytes_iff 1024 info (by rw [hsum, hkept]; decide)).mpr
    (by rw [hsum, hkept]; exact Nat.zero_le _)
  exact absurd (hright.mp hcheck) (by decide)

end CacheSpace

end Tdnf.Client
