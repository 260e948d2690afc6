import Tdnf.Client.GpgCheck
import Tdnf.Common.Checksum

/-!
# The rpm transaction

`TDNFRpmExecTransaction` goes through the solved packages. A package to install is
found or downloaded, compared with the digest and the size of the metadata, and its
signature is checked; then it becomes an element of a transaction set, which rpm
orders, checks, tests and runs. What rpm and the system answer depends on the
moment of the question. The state records which packages were accepted and what
was asked of rpm.
-/

namespace Tdnf.Client.RpmTrans

open PathText Common Procedure FileTree

/-- The parts of `TDNF_PKG_INFO` that a transaction reads. -/
structure PkgInfo where
  pszName : Text
  pszEVR : Text
  pszLocation : Text
  pszRepoName : Text
  /-- `nChecksumType` with `pbChecksum`, unless that is NULL -/
  checksum : Option ((t : HashType) × Digest t)
  dwDownloadSizeBytes : BitVec 32

/-- The parts of `TDNF_SOLVED_PKG_INFO` that a transaction reads; an empty list is NULL. -/
structure SolvedPkgInfo where
  pPkgsToInstall : List PkgInfo
  pPkgsToReinstall : List PkgInfo
  pPkgsToUpgrade : List PkgInfo
  pPkgsToRemove : List PkgInfo
  pPkgsObsoleted : List PkgInfo
  pPkgsToDowngrade : List PkgInfo
  pPkgsRemovedByDowngrade : List PkgInfo

/-- A repository whose downloads are tried at least once. -/
structure RepoEntry where
  repo : Repo
  retried : 0 ≤ repo.nRetries

/-- What downloading reads of a repository. -/
def RepoEntry.data (entry : RepoEntry) : RepoData where
  pszId := entry.repo.pszId
  pszCacheName := entry.repo.pszCacheName
  ppszBaseUrls := entry.repo.ppszBaseUrls.getD []
  nRetries := entry.repo.nRetries.toNat

/-- The parts of `TDNF_CMD_ARGS` that a transaction reads. -/
structure CmdArgs extends GpgArgs where
  nDownloadOnly : Bool
  nTestOnly : Bool
  nJsonOutput : Bool
  pszDownloadDir : Option Text

/-- The parts of `TDNF_CONF` that a transaction reads. -/
structure Conf where
  pszCacheDir : Text
  nKeepCache : Bool
  nOpenMax : ℤ

/-- What rpm verifies of packages: whether the flags of a transaction set mask all digests and
all signatures, and whether its verify level asks for them. -/
structure Verification where
  noDigests : Bool
  noSignatures : Bool
  wantDigests : Bool
  wantSignatures : Bool
deriving DecidableEq, Repr

/-- Nothing is verified. -/
def Verification.off : Verification := ⟨true, true, false, false⟩

/-- `INSTALL_*` -/
inductive InstallFlag where
  | install
  | upgrade
  | reinstall
deriving DecidableEq, Repr

/-- An element of a transaction set. -/
inductive Element where
  | install (filePath : Text) (upgrade : Bool)
  | reinstall (filePath : Text)
  /-- the package at an offset of the rpm database -/
  | erase (nOffset : ℕ)
deriving DecidableEq, Repr

/-- The element that a package file becomes. -/
def InstallFlag.element (nInstallFlag : InstallFlag) (filePath : Text) : Element :=
  match nInstallFlag with
  | install => .install filePath false
  | upgrade => .install filePath true
  | reinstall => .reinstall filePath

/-- What rpm and the system can see when they are asked. -/
structure Moment where
  disk : Disk
  stdin : List Text
  verify : Verification
  elements : List Element
  /-- the source packages that have been installed -/
  sources : List Text
  /-- what happened in the signature checks -/
  traces : List (List GpgEvent)

/-- A package that has been added to a transaction. -/
structure Accepted where
  pInfo : PkgInfo
  pRepo : RepoEntry
  filePath : Text
  /-- the element it became, unless it is a source package -/
  element : Option Element
  /-- when it was compared with the metadata -/
  seen : Moment
  /-- its signature check -/
  trace : List GpgEvent

/-- `nTransFlags` with the flag of a test run, and `nProbFilterFlags`, which always let older
packages pass -/
structure TransFlags where
  test : Bool
  noScripts : Bool
  noDocs : Bool
  replacePkg : Bool
deriving DecidableEq, Repr

/-- A call of rpm with a transaction set, with its return code. -/
inductive RpmCall where
  | order (rc : ℕ)
  /-- with the number of problems -/
  | check (rc nProbs : ℕ)
  | run (flags : TransFlags) (verify : Verification) (elements : List Element) (rc : ℕ)
deriving DecidableEq, Repr

/-- The state of a transaction. -/
structure TransState where
  now : Moment
  /-- `pCachedRpmsArray` -/
  cachedRpms : List Text
  /-- the packages added, in their order -/
  accepted : List Accepted
  calls : List RpmCall

/-- How a transaction ends that does not return 0. -/
inductive TransStop where
  | nullPointer
  | code (e : TdnfError)
  /-- a code that rpm returned, as it is -/
  | rpmCode (rc : ℕ)
  /-- the loop over the packets of a key file still runs -/
  | running
  /-- `ERROR_TDNF_CHECKSUM_MISMATCH` -/
  | checksumMismatch
  /-- `ERROR_TDNF_SIZE_MISMATCH` -/
  | sizeMismatch
  /-- `ERROR_TDNF_RPMTS_SET_CB_FAILED` -/
  | setCbFailed
  /-- `ERROR_TDNF_RPMTS_FDDUP_FAILED` -/
  | fdDupFailed
  /-- `ERROR_TDNF_RPM_CHECK` -/
  | rpmCheck
  /-- `ERROR_TDNF_TRANSACTION_FAILED` -/
  | transactionFailed
deriving DecidableEq, Repr

abbrev TransProc := Proc TransStop TransState

/-- What rpm, the network and the system answer. -/
structure Host where
  /-- the answers in a signature check that begins at the moment -/
  gpg : Moment → GpgHost
  /-- the transfers of a package, by its location -/
  net : Text → Moment → ℕ → Transfer
  /-- what an `int` holds before anything is stored in it -/
  unset : ℤ
  getDigestForFile : Text → Moment → (t : HashType) → Except TdnfError (Digest t)
  headerIsSource : Text → Moment → Bool
  rpmInstallSource : Text → Moment → ℕ
  /-- `rpmtsAddInstallElement`, `rpmtsAddReinstallElement` and `rpmtsAddEraseElement` -/
  rpmtsAddElement : Element → Moment → ℕ
  /-- the offsets of the installed packages with a label -/
  labelOffsets : Text → List ℕ
  rpmtsCreate : Bool
  rpmtsSetRootDir : ℕ
  rpmtsSetNotifyCallback : ℕ
  rpmtsOrder : Moment → ℕ
  rpmtsCheck : Moment → ℕ
  rpmpsNumProblems : Moment → ℕ
  fdDup : Bool
  setOpenMax : Except TdnfError Unit
  rpmtsRun : TransFlags → Moment → ℕ
  /-- `TDNFGetHistoryCtx`, `TDNFJoinArrayToString` and `history_sync` -/
  historyBefore : Except TdnfError Unit
  /-- `history_update_state` and `TDNFMarkAutoInstalled` -/
  historyAfter : Moment → Except TdnfError Unit

section Code

variable (host : Host) (args : CmdArgs) (conf : Conf) (repos : List RepoEntry) (fuel : ℕ)

/-- `BAIL_ON_TDNF_ERROR` -/
def bail {α : Type} (x : Except TdnfError α) : TransProc α := fromExcept (x.mapError .code)

/-- A change of what rpm and the system can see. -/
def modifyNow (f : Moment → Moment) : TransProc Unit :=
  modify fun s => { s with now := f s.now }

/-- A call of `TDNFDownload*` on the disk of the moment -/
def onDisk {α : Type} (x : Call α) : TransProc α :=
  mapFault .code (within (fun s => s.now.disk)
    (fun disk s => { s with now := { s.now with disk := disk } }) x)

/-- `TDNFFindRepoById` -/
def findRepoById (pszRepo : Text) : Except TdnfError RepoEntry :=
  if pszRepo = [] then .error .invalidParameter
  else if repos = [] then .error .noRepos
  else match repos.find? fun entry => entry.repo.pszId = pszRepo with
    | none => .error .repoNotFound
    | some entry => .ok entry

/-- `TDNFGetGPGCheck` -/
def getGPGCheck (pszRepo : Text) : Except TdnfError Bool :=
  if pszRepo = [] then .error .invalidParameter
  else if args.nNoGPGCheck then .ok false
  else match repos.find? fun entry => entry.repo.pszId = pszRepo with
    | none => .ok false
    | some entry => .ok entry.repo.nGPGCheck

/-- `TDNFDownloadPackageToCache` -/
def downloadPackageToCache (net : ℕ → Transfer) (location pkgName : Text) (pRepo : RepoData) :
    Call Text := do
  if location = [] ∨ pkgName = [] then throw .invalidParameter
  let normalRpmCacheDir ← fromExcept (normalizePath (← get).fs
    (joinPath [conf.pszCacheDir, pRepo.pszId, "rpms".toList]))
  downloadPackageToTree pRepo net host.unset location pkgName normalRpmCacheDir

/-- `TDNFDownloadPackageToDirectory` -/
def downloadPackageToDirectory (net : ℕ → Transfer) (location pkgName directory : Text)
    (pRepo : RepoData) : Call Text := do
  if location = [] ∨ pkgName = [] ∨ directory = [] then throw .invalidParameter
  let path ← fromExcept (remotePath location)
  downloadPackage pRepo net host.unset location pkgName directory
  return joinPath [directory, basename path]

/-- The first file under a `file://` base URL that can be accessed. -/
def inPlace (fs : Tree) (location : Text) : List Text → Option Text
  | [] => none
  | url :: urls =>
    if startsWithCase url "file://".toList then
      match fs.access (joinPath [url.drop 7, location]) with
      | .ok _ => some (joinPath [url.drop 7, location])
      | .error _ => inPlace fs location urls
    else inPlace fs location urls

/-- The file of a package, which is downloaded if it is not there. -/
def packageFile (pInfo : PkgInfo) (pRepo : RepoEntry) : TransProc Text := do
  if pInfo.pszLocation.head? = some '/' then return pInfo.pszLocation
  let now := (← get).now
  let net := host.net pInfo.pszLocation now
  match if args.nDownloadOnly then args.pszDownloadDir else none with
  | some directory =>
    onDisk (downloadPackageToDirectory host net pInfo.pszLocation pInfo.pszName directory pRepo.data)
  | none =>
    match pRepo.repo.ppszBaseUrls with
    | none => throw .nullPointer
    | some urls =>
      -- avoid copying a file to cache if we can access it directly
      match inPlace now.disk.fs pInfo.pszLocation urls with
      | some filePath => return filePath
      | none =>
        onDisk (downloadPackageToCache host conf net pInfo.pszLocation pInfo.pszName pRepo.data)

/-- A package file is there. -/
def checkAccess (filePath : Text) (now : Moment) : Except TransStop Unit :=
  match now.disk.fs.access filePath with
  | .error e => .error (.code (.system (errnoCode e)))
  | .ok _ => .ok ()

/-- A package file has the digest of the metadata, if that has one. -/
def checkDigest (pInfo : PkgInfo) (filePath : Text) (now : Moment) : Except TransStop Unit :=
  match pInfo.checksum with
  | none => .ok ()
  | some ⟨t, digest⟩ =>
    match host.getDigestForFile filePath now t with
    | .error e => .error (.code e)
    | .ok digestFromFile => if digestFromFile ≠ digest then .error .checksumMismatch else .ok ()

/-- A package file has the size of the metadata. -/
def checkSize (pInfo : PkgInfo) (filePath : Text) (now : Moment) : Except TransStop Unit :=
  match getFileSize now.disk.fs filePath host.unset with
  | (some e, _) => .error (.code e)
  | (none, nSize) =>
    if nSize ≠ pInfo.dwDownloadSizeBytes.toInt then .error .sizeMismatch else .ok ()

/-- What `TDNFGPGCheckPackage` ends with. -/
def stopOf : GpgStop → TransStop
  | .code e => .code e
  | .importCode rc => .rpmCode rc
  | .running => .running

/-- `TDNFGPGCheckPackage`, with what happened in it -/
def checkSignature (pRepo : RepoEntry) (filePath : Text) : TransProc (List GpgEvent) := do
  let gpg := host.gpg (← get).now
  mapFault stopOf (within (fun s => ⟨[], s.now.stdin, s.now.disk⟩)
    (fun g s => { s with now := { s.now with
      stdin := g.stdin, disk := g.disk, traces := s.now.traces ++ [g.trace] } }) do
    gpgCheckPackage gpg args.toGpgArgs conf.pszCacheDir pRepo.repo pRepo.data fuel filePath
    return (← get).trace)

/-- A package becomes an element, or is installed if it is a source package. -/
def addElement (nInstallFlag : InstallFlag) (filePath : Text) : TransProc (Option Element) := do
  let now := (← get).now
  if host.headerIsSource filePath now then
    if !args.nDownloadOnly && !args.nTestOnly then
      let rc := host.rpmInstallSource filePath now
      if rc ≠ 0 then throw (.code (.rpm rc))
      modifyNow fun now => { now with sources := now.sources ++ [filePath] }
    return none
  else
    let rc := host.rpmtsAddElement (nInstallFlag.element filePath) now
    if rc ≠ 0 then throw (.code (.rpm rc))
    modifyNow fun now => { now with elements := now.elements ++ [nInstallFlag.element filePath] }
    return some (nInstallFlag.element filePath)

/-- A file is kept in mind for its removal only when it is in the cache directory. -/
def remember (a : Accepted) : TransProc Unit :=
  modify fun s => { s with
    accepted := s.accepted ++ [a]
    cachedRpms :=
      if conf.pszCacheDir <+: a.filePath then a.filePath :: s.cachedRpms else s.cachedRpms }

/-- `TDNFTransAddInstallPkg` -/
def transAddInstallPkg (nInstallFlag : InstallFlag) (pInfo : PkgInfo) (pRepo : RepoEntry) :
    TransProc Unit := do
  let filePath ← packageFile host args conf pInfo pRepo
  let seen := (← get).now
  fromExcept (checkAccess filePath seen)
  fromExcept (checkDigest host pInfo filePath seen)
  fromExcept (checkSize host pInfo filePath seen)
  let trace ← checkSignature host args conf fuel pRepo filePath
  let nGPGCheck ← bail (getGPGCheck args repos pRepo.repo.pszId)
  if !nGPGCheck then modifyNow fun now => { now with verify := .off }
  let element ← addElement host args nInstallFlag filePath
  remember conf ⟨pInfo, pRepo, filePath, element, seen, trace⟩

/-- One round of the loop in `TDNFTransAddInstallPkgs` -/
def transAddPkg (nInstallFlag : InstallFlag) (pInfo : PkgInfo) : TransProc Unit := do
  let pRepo ← bail (findRepoById repos pInfo.pszRepoName)
  transAddInstallPkg host args conf repos fuel nInstallFlag pInfo pRepo

/-- `ERROR_TDNF_NO_DATA` counts as success. -/
def ignoringNoData (x : TransProc Unit) : TransProc Unit := do
  match ← attempt x with
  | .ok _ => pure ()
  | .error stop => if stop = .code .noData then pure () else throw stop

/-- `TDNFTransAddInstallPkgs` -/
def transAddInstallPkgs (nInstallFlag : InstallFlag) (pInfos : List PkgInfo) : TransProc Unit :=
  ignoringNoData (pInfos.forM (transAddPkg host args conf repos fuel nInstallFlag))

/-- `pszFullName` of a package to erase -/
def fullName (pInfo : PkgInfo) : Text := pInfo.pszName ++ '-' :: pInfo.pszEVR

/-- `TDNFTransAddErasePkg` -/
def transAddErasePkg (pkgName : Text) : TransProc Unit := do
  if pkgName = [] then throw (.code .invalidParameter)
  (host.labelOffsets pkgName).forM fun nOffset => do
    if nOffset ≠ 0 then
      let rc := host.rpmtsAddElement (.erase nOffset) (← get).now
      if rc ≠ 0 then throw (.rpmCode rc)
      modifyNow fun now => { now with elements := now.elements ++ [.erase nOffset] }

/-- `TDNFTransAddErasePkgs` -/
def transAddErasePkgs (pInfos : List PkgInfo) : TransProc Unit :=
  ignoringNoData (pInfos.forM fun pInfo => transAddErasePkg host (fullName pInfo))

/-- `TDNFPopulateTransaction` -/
def populateTransaction (info : SolvedPkgInfo) : TransProc Unit := do
  transAddInstallPkgs host args conf repos fuel .install info.pPkgsToInstall
  transAddInstallPkgs host args conf repos fuel .reinstall info.pPkgsToReinstall
  transAddInstallPkgs host args conf repos fuel .upgrade info.pPkgsToUpgrade
  transAddErasePkgs host info.pPkgsToRemove
  transAddErasePkgs host info.pPkgsObsoleted
  transAddInstallPkgs host args conf repos fuel .install info.pPkgsToDowngrade
  if info.pPkgsToDowngrade ≠ [] then transAddErasePkgs host info.pPkgsRemovedByDowngrade

/-- `TDNFRpmCreateTS` -/
def rpmCreateTS (info : SolvedPkgInfo) : TransProc Unit := do
  if !host.rpmtsCreate then throw (.code .rpmtsCreateFailed)
  if host.rpmtsSetRootDir ≠ 0 then throw (.code .rpmtsBadRootDir)
  if host.rpmtsSetNotifyCallback ≠ 0 then throw .setCbFailed
  populateTransaction host args conf repos fuel info

/-- Whether an option is set, whatever its value. -/
def isSetOpt (name : Text) : Bool :=
  args.setOpt.any fun o => equalsCase o.pszOptName.toList name

/-- Whether an option is set to a value. -/
def isSetTo (name value : Text) : Bool :=
  args.setOpt.any fun o => equalsCase o.pszOptName.toList name && equalsCase o.pszOptValue value

/-- The flags of the run after the test. -/
def transFlags (info : SolvedPkgInfo) : TransFlags where
  test := false
  noScripts := isSetTo args "tsflags".toList "noscripts".toList
  noDocs := isSetTo args "tsflags".toList "nodocs".toList
  replacePkg := info.pPkgsToReinstall ≠ []

/-- The flags of the test. -/
def testFlags (info : SolvedPkgInfo) : TransFlags where
  test := true
  noScripts := false
  noDocs := false
  replacePkg := info.pPkgsToReinstall ≠ []

/-- What rpm verifies in its runs, for what it verified until then. -/
def runVerification (v : Verification) : Verification :=
  let dwSkipSignature := isSetOpt args "skipsignature".toList
  let dwSkipDigest := isSetOpt args "skipdigest".toList
  if args.nNoGPGCheck then .off
  else if dwSkipSignature || dwSkipDigest then
    ⟨v.noDigests || dwSkipDigest, v.noSignatures || dwSkipSignature, !dwSkipDigest,
      !dwSkipSignature⟩
  else v

/-- A call of rpm is recorded. -/
def record (call : RpmCall) : TransProc Unit :=
  modify fun s => { s with calls := s.calls ++ [call] }

/-- `doCheck` -/
def doCheck : TransProc Unit := do
  let now := (← get).now
  record (.check (host.rpmtsCheck now) (host.rpmpsNumProblems now))
  if 0 < host.rpmpsNumProblems now then throw .rpmCheck
  if host.rpmtsCheck now ≠ 0 then throw (.rpmCode (host.rpmtsCheck now))

/-- `rpmtsRun` -/
def rpmtsRun (flags : TransFlags) : TransProc Unit := do
  let now := (← get).now
  record (.run flags now.verify now.elements (host.rpmtsRun flags now))
  if host.rpmtsRun flags now ≠ 0 then throw .transactionFailed

/-- `TDNFRunTransaction` -/
def runTransaction (info : SolvedPkgInfo) : TransProc Unit := do
  let rc := host.rpmtsOrder (← get).now
  record (.order rc)
  if rc ≠ 0 then throw (.rpmCode rc)
  doCheck host
  if args.nJsonOutput && !host.fdDup then throw .fdDupFailed
  modifyNow fun now => { now with verify := runVerification args now.verify }
  rpmtsRun host (testFlags info)
  if !args.nTestOnly then
    if 0 < conf.nOpenMax then bail host.setOpenMax
    rpmtsRun host (transFlags args info)

/-- `TDNFRemoveCachedRpms`, whose return code is not looked at -/
def removeCachedRpms : List Text → Disk → Disk
  | [], disk => disk
  | filePath :: rest, disk =>
    if filePath = [] then removeCachedRpms rest disk
    else match disk.fs.unlink filePath with
      | .ok fs => removeCachedRpms rest { disk with fs := fs }
      | .error _ => disk

/-- `TDNFRpmCleanupTS` -/
def rpmCleanupTS (s : TransState) : TransState :=
  if !conf.nKeepCache && !args.nDownloadOnly then
    { s with now := { s.now with disk := removeCachedRpms s.cachedRpms s.now.disk } }
  else s

/-- `TDNFRpmExecTransaction` before its cleanup -/
def execTransaction (info : SolvedPkgInfo) : TransProc Unit := do
  rpmCreateTS host args conf repos fuel info
  if !args.nDownloadOnly then
    if !args.nTestOnly then
      bail host.historyBefore
      runTransaction host args conf info
      bail (host.historyAfter (← get).now)
    else runTransaction host args conf info

/-- `TDNFRpmExecTransaction` -/
def rpmExecTransaction (info : SolvedPkgInfo) : TransProc Unit := do
  match ← attempt (execTransaction host args conf repos fuel info) with
  | .ok _ => modify (rpmCleanupTS args conf)
  | .error stop =>
    if stop ≠ .running ∧ stop ≠ .nullPointer then modify (rpmCleanupTS args conf)
    throw stop

end Code

/-- A transaction set without elements. -/
def TransState.start (fs : Tree) (stdin : List Text) (verify : Verification) : TransState where
  now := ⟨.start fs, stdin, verify, [], [], []⟩
  cachedRpms := []
  accepted := []
  calls := []

end Tdnf.Client.RpmTrans
