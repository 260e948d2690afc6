import Tdnf.Client.HistoryResolve
import Tdnf.Client.UpdateInfo
import Tdnf.Common.Path
import Tdnf.Library.Script
import Tdnf.Solv.Query

/-!
# Resolving an alter command

`TDNFResolve` looks up the packages that a command names, and queues a goal for
each. A name that no package has goes to an array with as many slots as the
command line has words. Names come from the command line, from glob matches, from
installed packages, from advisories and from build requirements.
-/

namespace Tdnf.Client

open PathText Common Procedure Script Solv

/-- `TDNF_ALTERTYPE` -/
inductive AlterType where
  | autoErase
  | autoEraseAll
  | downgrade
  | downgradeAll
  | erase
  | install
  | reinstall
  | upgrade
  | upgradeAll
  | distroSync
  | obsoleted
deriving DecidableEq, Repr

/-- The parts of `TDNF_CMD_ARGS` that resolving reads. -/
structure AlterArgs where
  /-- the command and its arguments -/
  ppszCmds : List Text
  setOpt : List CmdOpt
  nSource : Bool
  nBuildDeps : Bool
  nSkipBroken : Bool
  nNoDeps : Bool
deriving DecidableEq, Repr

/-- `nCmdCount` -/
def AlterArgs.nCmdCount (args : AlterArgs) : ℕ := args.ppszCmds.length

/-- The repositories and the kinds of packages that a query for a name selects from. -/
inductive NameScope where
  | all
  | source
  | installed
  | available
  | availableSource
deriving DecidableEq, Repr

/-- What `TDNFResolve` reads and calls; the pool is that after `TDNFRefresh`. -/
structure AlterHost where
  update : UpdateHost
  /-- `TDNFIsFileOrSymlink` -/
  isFileOrSymlink : Text → Except TdnfError Bool
  realpath : Text → Except TdnfError Text
  /-- `TDNFDownloadPackageToCache` for the repository of the command line -/
  downloadPackageToCache : Text → Except TdnfError Text
  /-- `repo_add_rpm` -/
  repoAddRpm : Text → Option ℕ
  refresh : Except TdnfError Unit
  /-- `SolvApplyListQuery` for a name -/
  select : NameScope → Text → List ℕ
  /-- `SolvApplyListQuery` for names, among source packages -/
  selectSources : List Text → List ℕ
  /-- `SolvFindAllInstalled` -/
  installed : List ℕ
  pkgName : ℕ → Option Text
  pkgNevr : ℕ → Option Text
  cmpEvr : ℕ → ℕ → ℤ
  /-- the best of the packages with a name and of those that obsolete it -/
  bestAvailable : Text → Option ℕ
  /-- `pool_best_solvables` -/
  bestSolvables : List ℕ → List ℕ
  requires : ℕ → List ℕ
  dep2str : ℕ → Option Text
  ppszInstallOnlyPkgs : List Text
  /-- `TDNFMarkAutoInstalledSinglePkg` -/
  markAutoInstalled : Text → Except TdnfError Unit
  /-- no search is made for it -/
  mark_ne : ∀ name, markAutoInstalled name ≠ .error .noSearchResults
  /-- `TDNFGetAutoInstalledOrphans` -/
  autoInstalledOrphans : Except TdnfError (List ℕ)
  goal : AlterType → List ℕ → Except TdnfError SolvedLists
  goalNoDeps : List ℕ → Except TdnfError SolvedLists
  /-- `TDNFGetAvailableCacheBytes` -/
  availableCacheBytes : Except TdnfError ℕ
  downloadSizeBytes : ℕ → ℕ

section Code

variable (host : AlterHost) (args : AlterArgs)

/-! ## Lookup of packages -/

/-- A query for a name: `SolvFindInstalledPkgByName`, `SolvFindAvailablePkgByName` and
`SolvFindAvailableSrcPkgByName` differ in the scope. -/
def findPkgByName (scope : NameScope) (pszName : Text) : Except TdnfError (List ℕ) := do
  if pszName = [] then throw .invalidParameter
  let name ← allocateString pszName
  getQueryResult (host.select scope name)

/-- `SolvCountPkgByName` -/
def countPkgByName (nSource : Bool) (pszName : Text) : Except TdnfError ℕ := do
  let pkgs ← findPkgByName host (if nSource then .source else .all) pszName
  return pkgs.length

/-- `SolvGetPackageId` -/
def getPackageId (pkgs : List ℕ) (i : ℕ) : Except TdnfError ℕ :=
  match pkgs[i]? with
  | none => .error .invalidParameter
  | some id => .ok id

/-- `SolvGetPkgNameFromId` and `SolvGetPkgNevrFromId`, a string of the pool that is copied -/
def poolString (s : Option Text) : Except TdnfError Text :=
  match s with
  | none => .error .noData
  | some s => allocateString s

/-- `SolvFindHighestOrLowestInstalled`; ids of packages are not 0 -/
def findHighestOrLowestInstalled (dwFindHighest : Bool) (pszPkgName : Text) :
    Except TdnfError ℕ := do
  let pkgs ← findPkgByName host .installed pszPkgName
  let first ← getPackageId pkgs 0
  return (pkgs.drop 1).foldl (fun best id =>
    if dwFindHighest then if 0 < host.cmpEvr id best then id else best
    else if host.cmpEvr id best < 0 then id else best) first

/-- `SolvFindBestAvailable` -/
def findBestAvailable (pszPkgName : Text) : Except TdnfError ℕ :=
  if pszPkgName = [] then .error .invalidParameter
  else match host.bestAvailable pszPkgName with
    | none => .error .noMatch
    | some id => .ok id

/-- The first of the best packages that a query selects. -/
def bestOf (pkgs : Except TdnfError (List ℕ)) : Except TdnfError ℕ := do
  match host.bestSolvables (← pkgs) with
  | [] => throw .noMatch
  | id :: _ => return id

/-- `SolvFindHighestAvailable` -/
def findHighestAvailable (nSource : Bool) (pszPkgName : Text) : Except TdnfError ℕ :=
  if pszPkgName = [] then .error .invalidParameter
  else if nSource then bestOf host (findPkgByName host .availableSource pszPkgName)
  else match findBestAvailable host pszPkgName with
    | .ok id => .ok id
    | .error _ => bestOf host (findPkgByName host .available pszPkgName)

/-! ## Goals for one name -/

/-- `TDNFMatchForReinstall` -/
def matchForReinstall (pszName : Text) : Except TdnfError (List ℕ) := do
  let installed ← findPkgByName host .installed pszName
  let dwInstalledId ← getPackageId installed 0
  let pszNevr ← poolString (host.pkgNevr dwInstalledId)
  let available ← findPkgByName host .available pszNevr
  let dwAvailableId ← getPackageId available 0
  return [dwAvailableId]

/-- `TDNFVerifyInstallPackage`; updates and downgrades are allowed with install -/
def verifyInstallPackage (dwPkg : ℕ) : Except TdnfError Bool :=
  match (do
    let pszName ← poolString (host.pkgName dwPkg)
    let dwInstalledId ← findHighestOrLowestInstalled host true pszName
    return host.cmpEvr dwPkg dwInstalledId != 0) with
  | .ok dwInstallPackage => .ok dwInstallPackage
  | .error e => if e = .noMatch ∨ e = .noData then .ok true else .error e

/-- `TDNFAddPackagesForInstall` -/
def addPackagesForInstall (pszPkgName : Text) (nSource nInstallOnly : Bool) :
    Except TdnfError (List ℕ) := do
  let dwHighestAvailable ← findHighestAvailable host nSource pszPkgName
  let dwInstallPackage ← verifyInstallPackage host dwHighestAvailable
  if dwInstallPackage || nInstallOnly then return [dwHighestAvailable]
  else throw .alreadyInstalled

/-- `TDNFVerifyUpgradePackage` -/
def verifyUpgradePackage (dwPkg : ℕ) : Except TdnfError Bool := do
  let pszName ← poolString (host.pkgName dwPkg)
  let dwInstalledId ← findHighestOrLowestInstalled host true pszName
  return 0 < host.cmpEvr dwPkg dwInstalledId

/-- `TDNFAddPackagesForUpgrade` -/
def addPackagesForUpgrade (pszPkgName : Text) : Except TdnfError (List ℕ) := do
  let dwHighestAvailable ← findHighestAvailable host false pszPkgName
  let dwUpgradePackage ← verifyUpgradePackage host dwHighestAvailable
  return if dwUpgradePackage then [dwHighestAvailable] else []

/-- `TDNFPackageGetDowngrade` -/
def packageGetDowngrade (dwInstalled : ℕ) (available : List ℕ) : Except TdnfError ℕ :=
  match available.foldl (fun best id =>
    if host.cmpEvr id dwInstalled < 0 then
      match best with
      | none => some id
      | some dwDownGradeId => if 0 < host.cmpEvr id dwDownGradeId then some id else best
    else best) none with
  | none => .error .noDowngradePath
  | some id => .ok id

/-- `TDNFAddPackagesForDowngrade` -/
def addPackagesForDowngrade (pszPkgName : Text) : Except TdnfError (List ℕ) := do
  let available ← findPkgByName host .available pszPkgName
  let dwAvailableId ← getPackageId available 0
  let pszName ← poolString (host.pkgName dwAvailableId)
  let dwInstalledId ← findHighestOrLowestInstalled host false pszName
  let dwDownGradeId ← packageGetDowngrade host dwInstalledId available
  return [dwDownGradeId]

/-- The branch of `TDNFPrepareSinglePkg` for erase and autoerase, with
`TDNFAddPackagesForErase` -/
def eraseGoal (pszPkgName : Text) : Except TdnfError (List ℕ) :=
  match findPkgByName host .installed pszPkgName with
  | .ok pkgs => .ok pkgs
  | .error e => .error (if e = .noMatch then .eraseNeedsInstall else e)

/-- The branch of `TDNFPrepareSinglePkg` for install -/
def installGoal (pszPkgName : Text) : Except TdnfError (List ℕ) :=
  match addPackagesForInstall host pszPkgName args.nSource
      (host.ppszInstallOnlyPkgs.any (· == pszPkgName)) with
  | .ok ids => .ok ids
  | .error e => do
    -- the package may have been installed as a dependency, now it is wanted on its own
    if e = .alreadyInstalled then host.markAutoInstalled pszPkgName
    throw e

/-- The ids that a name adds to the goal of a command. -/
def alterGoal (nAlterType : AlterType) (pszPkgName : Text) : Except TdnfError (List ℕ) :=
  match nAlterType with
  | .reinstall => matchForReinstall host pszPkgName
  | .erase | .autoErase => eraseGoal host pszPkgName
  | .install => installGoal host args pszPkgName
  | .upgrade => addPackagesForUpgrade host pszPkgName
  | .downgrade | .downgradeAll => addPackagesForDowngrade host pszPkgName
  | _ => .ok []

/-- The number of packages that have a name; with `nSkipBroken` none is no error. -/
def countKnown (pszPkgName : Text) : Except TdnfError ℕ :=
  match countPkgByName host args.nSource pszPkgName with
  | .ok dwCount => .ok dwCount
  | .error e => if e = .noMatch ∧ args.nSkipBroken then .ok 0 else .error e

/-- `TDNFPrepareSinglePkg` up to its error handling -/
def singlePkgGoal (nAlterType : AlterType) (pszPkgName : Text) :
    Except TdnfError (List ℕ) := do
  if pszPkgName = [] then throw .invalidParameter
  let dwCount ← countKnown host args pszPkgName
  if dwCount = 0 then throw .noSearchResults
  alterGoal host args nAlterType pszPkgName

/-! ## The goal queue and the array of unresolved names -/

/-- What `TDNFResolve` fills. -/
structure ResolveState where
  /-- the names up to the first NULL; the array has `nCmdCount` slots -/
  ppszPkgsNotResolved : List Text
  queueGoal : List ℕ
deriving DecidableEq, Repr

/-- `queue_push` of several ids -/
def queuePush (ids : List ℕ) (s : ResolveState) : ResolveState :=
  { s with queueGoal := s.queueGoal ++ ids }

/-- The state with a name in the first free slot. -/
def pushNotResolved (pszPkgName : Text) (s : ResolveState) : ResolveState :=
  { s with ppszPkgsNotResolved := s.ppszPkgsNotResolved ++ [pszPkgName] }

/-- Steps of `TDNFResolve` -/
abbrev ResolveProc (α : Type) := Proc Fault ResolveState α

/-- The result of a call that does not touch the state. -/
def call {α : Type} (x : Except TdnfError α) : ResolveProc α := fromExcept (x.mapError .code)

/-- `TDNFAddNotResolved` -/
def addNotResolved (pszPkgName : Text) : ResolveProc Unit := do
  if pszPkgName = [] then throw (.code .invalidParameter)
  let name ← call (allocateString pszPkgName)
  modify (pushNotResolved name)

/-- The errors that `TDNFPrepareSinglePkg` only reports. -/
def tolerated (e : TdnfError) : Bool :=
  e ∈ [.alreadyInstalled, .noUpgradePath, .noDowngradePath, .eraseNeedsInstall]

/-- `TDNFPrepareSinglePkg` -/
def prepareSinglePkg (nAlterType : AlterType) (pszPkgName : Text) : ResolveProc Unit :=
  match singlePkgGoal host args nAlterType pszPkgName with
  | .ok ids => modify (queuePush ids)
  | .error e =>
    if tolerated e then pure ()
    else if e = .noSearchResults then
      -- that a name could not be added is only reported
      orElse (addNotResolved pszPkgName) (pure ())
    else throw (.code e)

/-- `TDNFPrepareSinglePkg` for the name of a package -/
def preparePkgId (nAlterType : AlterType) (id : ℕ) : ResolveProc Unit := do
  let pszName ← call (poolString (host.pkgName id))
  prepareSinglePkg host args nAlterType pszName

/-- `TDNFFilterPackages`; without installed packages the list is NULL -/
def filterPackages (nAlterType : AlterType) : ResolveProc Unit :=
  match getQueryResult host.installed with
  | .error _ => throw (.code .invalidParameter)
  | .ok pkgs => pkgs.forM (preparePkgId host args nAlterType)

/-- `fnmatch("*.rpm", …)` -/
def isRpmFile (name : Text) : Bool := ".rpm".toList.isSuffixOf name

/-- One round of the loop over the command line in `TDNFPrepareAllPackages` -/
def prepareCmd (nAlterType : AlterType) (pszPkgName : Text) : ResolveProc Unit := do
  if isGlob pszPkgName then
    -- `TDNFGetGlobPackages`
    let queueLocal ← call (findPkgByName host .available pszPkgName)
    if queueLocal = [] then addNotResolved pszPkgName
    else queueLocal.forM (preparePkgId host args nAlterType)
  else if isRpmFile pszPkgName then
    -- already handled in `TDNFAddCmdLinePackages`
    pure ()
  else prepareSinglePkg host args nAlterType pszPkgName

/-- `TDNFGetUpdatePkgs` -/
def getUpdatePkgs : Except Fault (List Text) := do
  let infos ← updateInfo host.update args.setOpt
  (infos.flatMap UpdateInfo.pPackages).mapM fun pkg =>
    match pkg.pszName with
    | none => throw (.code .invalidParameter)
    | some pszName => (allocateString pszName).mapError .code

/-- Whether the options select packages by their advisories. -/
def selectsUpdates (nAlterType : AlterType) (dwSecurity : Bool) (pszSeverity : Option Text)
    (dwRebootRequired : Bool) : Bool :=
  (nAlterType == .upgradeAll || nAlterType == .upgrade) &&
    (dwSecurity || pszSeverity.isSome || dwRebootRequired)

/-- The options of `TDNFPrepareAllPackages` and its loop over names; the alter type is changed
if packages are selected by their advisories. -/
def prepareNames (nAlterType : AlterType) : ResolveProc AlterType := do
  let (dwSecurity, pszSeverity) ← call (getSecuritySeverityOption args.setOpt)
  if selectsUpdates nAlterType dwSecurity pszSeverity (getRebootRequiredOption args.setOpt) then
    let ppszPkgArray ← fromExcept (getUpdatePkgs host args)
    ppszPkgArray.forM (prepareSinglePkg host args .upgrade)
    return .upgrade
  else
    (args.ppszCmds.drop 1).forM (prepareCmd host args nAlterType)
    return nAlterType

/-- `TDNFPrepareAllPackages` -/
def prepareAllPackages (nAlterType : AlterType) : ResolveProc AlterType := do
  if nAlterType = .downgradeAll then filterPackages host args nAlterType
  else if nAlterType = .autoEraseAll then
    let ids ← call host.autoInstalledOrphans
    modify (queuePush ids)
  prepareNames host args nAlterType

/-- `queue_pushunique` -/
def pushUnique (q : List ℕ) (id : ℕ) : List ℕ := if id ∈ q then q else q ++ [id]

/-- `SolvRequiresFromQueue` -/
def requiresFromQueue (pkgs deps : List ℕ) : List ℕ :=
  (pkgs.flatMap host.requires).foldl pushUnique deps

/-- One round of the loop in `TDNFResolveBuildDependencies` -/
def prepareDep (dep : ℕ) : ResolveProc Unit :=
  match host.dep2str dep with
  | none => throw (.code .invalidParameter)
  | some pszDep =>
    -- packages from the command line require these and nothing provides them
    if "rpmlib(".toList.isPrefixOf pszDep then pure ()
    else prepareSinglePkg host args .install pszDep

/-- The source packages that the names of `TDNFResolveBuildDependencies` select -/
def sourcePackages (names : List Text) : Except TdnfError (List ℕ) := do
  if names = [] then return []
  let names ← names.mapM allocateString
  getQueryResult (host.selectSources names)

/-- `TDNFResolveBuildDependencies` -/
def resolveBuildDependencies (names : List Text) : ResolveProc Unit := do
  let pkgs ← call (sourcePackages host names)
  let cmdLine := (← get).queueGoal
  modify fun s => { s with queueGoal := [] }
  (requiresFromQueue host pkgs (requiresFromQueue host cmdLine [])).forM (prepareDep host args)

/-- Where the file of a package on the command line is; nothing if it is a normal name. -/
def cmdLinePath (pszPkgName : Text) : Except TdnfError (Option Text) := do
  if ← host.isFileOrSymlink pszPkgName then return some (← host.realpath pszPkgName)
  match uriIsRemote pszPkgName with
  | .error e => if e = .urlInvalid then return none else throw e
  | .ok false => return some (← pathFromUri pszPkgName)
  | .ok true => return some (← host.downloadPackageToCache pszPkgName)

/-- One round of `TDNFAddCmdLinePackages` -/
def addCmdLinePackage (ids : List ℕ) (pszPkgName : Text) : Except TdnfError (List ℕ) := do
  if isRpmFile pszPkgName then
    if ".src.rpm".toList.isSuffixOf pszPkgName ≠ (args.nSource || args.nBuildDeps) then
      throw .invalidParameter
    match ← cmdLinePath host pszPkgName with
    | none => return ids
    | some pszRPMPath =>
      match host.repoAddRpm pszRPMPath with
      | none => throw .invalidParameter
      | some id => return ids ++ [id]
  else return ids

/-- `TDNFAddCmdLinePackages`, for a command that takes files -/
def addCmdLinePackages (nAlterType : AlterType) : Except TdnfError (List ℕ) :=
  if nAlterType = .install ∨ nAlterType = .reinstall then
    (args.ppszCmds.drop 1).foldlM (addCmdLinePackage host args) []
  else .ok []

/-- `TDNFResolve` up to the allocation of the array: the ids of the packages on the command
line -/
def beforeArray (nAlterType : AlterType) : Except TdnfError (List ℕ) := do
  if nAlterType ∈ [.install, .reinstall, .erase] ∧ args.nCmdCount ≤ 1 then throw .packageRequired
  let ids ← addCmdLinePackages host args nAlterType
  host.refresh
  -- `TDNFAllocateMemory` takes no count of 0
  if args.nCmdCount = 0 then throw .invalidParameter
  return ids

/-- `TDNF_SOLVED_PKG_INFO` as `TDNFResolve` returns it -/
structure ResolvedInfo where
  lists : SolvedLists
  nNeedAction : Bool
  nNeedDownload : Bool
  ppszPkgsNotResolved : List Text

/-- The packages that are to be downloaded, in the order of `TDNFCheckDownloadCacheBytes` -/
def SolvedLists.downloads (info : SolvedLists) : List ℕ :=
  info.pPkgsToInstall ++ info.pPkgsToDowngrade ++ info.pPkgsToUpgrade ++ info.pPkgsToReinstall

/-- `TDNFResolve` behind the goal queue -/
def solveGoal (nAlterType : AlterType) (s : ResolveState) : Except TdnfError ResolvedInfo := do
  let info ← if !args.nSource && !args.nNoDeps then host.goal nAlterType s.queueGoal
    else host.goalNoDeps s.queueGoal
  let nNeedDownload : Bool := info.downloads ≠ []
  let qwAvailCacheBytes ← host.availableCacheBytes
  let qwTotalDownloadSizeBytes :=
    info.downloads.foldl (fun total id => total + host.downloadSizeBytes id) 0
  if nNeedDownload ∧ qwAvailCacheBytes < qwTotalDownloadSizeBytes then
    throw .cacheDirOutOfDiskSpace
  return ⟨info, info.needAction, nNeedDownload, s.ppszPkgsNotResolved⟩

/-- `TDNFPrepareAllPackages` or, with `nBuildDeps`, `TDNFResolveBuildDependencies` -/
def prepareGoal (nAlterType : AlterType) : ResolveProc AlterType := do
  if args.nBuildDeps then
    resolveBuildDependencies host args ((args.ppszCmds.drop 1).filter fun name => !isRpmFile name)
    return nAlterType
  else prepareAllPackages host args nAlterType

/-- `TDNFResolve` -/
def resolve (nAlterType : AlterType) : ResolveProc ResolvedInfo := do
  let ids ← call (beforeArray host args nAlterType)
  modify (queuePush ids)
  let nAlterType ← prepareGoal host args nAlterType
  let s ← get
  call (solveGoal host args nAlterType s)

/-- The names that one call of `TDNFResolve` stores. -/
def storedNames (nAlterType : AlterType) : List Text :=
  (finalState ((resolve host args nAlterType).run ⟨[], []⟩)).ppszPkgsNotResolved

/-! ## The names that are looked up -/

/-- A name that is to be looked up for a command, or the fault in place of one. -/
abbrev Lookup := Except Fault (AlterType × Text)

/-- What a call leads to, or its fault. -/
def afterCall {α : Type} (x : Except TdnfError α) (l : α → List Lookup) : List Lookup :=
  match x with
  | .error e => [.error (.code e)]
  | .ok a => l a

/-- The name of a package. -/
def idLookups (nAlterType : AlterType) (id : ℕ) : List Lookup :=
  afterCall (poolString (host.pkgName id)) fun pszName => [.ok (nAlterType, pszName)]

/-- An argument stands for itself, a glob for the names of the packages it matches. -/
def cmdLookups (nAlterType : AlterType) (pszPkgName : Text) : List Lookup :=
  if isGlob pszPkgName then
    afterCall (findPkgByName host .available pszPkgName) fun ids =>
      ids.flatMap (idLookups host nAlterType)
  else if isRpmFile pszPkgName then []
  else [.ok (nAlterType, pszPkgName)]

/-- The names of the packages in the advisories that the options select, or the arguments. -/
def nameLookups (nAlterType : AlterType) : List Lookup :=
  afterCall (getSecuritySeverityOption args.setOpt) fun (dwSecurity, pszSeverity) =>
    if selectsUpdates nAlterType dwSecurity pszSeverity (getRebootRequiredOption args.setOpt) then
      match getUpdatePkgs host args with
      | .error f => [.error f]
      | .ok names => names.map fun name => .ok (.upgrade, name)
    else (args.ppszCmds.drop 1).flatMap (cmdLookups host nAlterType)

/-- The names of all installed packages for downgradeall. -/
def installedLookups (nAlterType : AlterType) : List Lookup :=
  if nAlterType = .downgradeAll then
    match getQueryResult host.installed with
    | .error _ => [.error (.code .invalidParameter)]
    | .ok ids => ids.flatMap (idLookups host nAlterType)
  else if nAlterType = .autoEraseAll then afterCall host.autoInstalledOrphans fun _ => []
  else []

/-- A build requirement that is not on rpm itself. -/
def depLookups (dep : ℕ) : List Lookup :=
  match host.dep2str dep with
  | none => [.error (.code .invalidParameter)]
  | some pszDep => if "rpmlib(".toList.isPrefixOf pszDep then [] else [.ok (.install, pszDep)]

/-- The build requirements of the packages on the command line and of those named there. -/
def buildLookups (cmdLine : List ℕ) (names : List Text) : List Lookup :=
  afterCall (sourcePackages host names) fun pkgs =>
    (requiresFromQueue host pkgs (requiresFromQueue host cmdLine [])).flatMap (depLookups host)

/-- All that `TDNFResolve` would look up, in its order. -/
def resolveLookups (nAlterType : AlterType) : List Lookup :=
  afterCall (beforeArray host args nAlterType) fun ids =>
    if args.nBuildDeps then
      buildLookups host ids ((args.ppszCmds.drop 1).filter fun name => !isRpmFile name)
    else installedLookups host nAlterType ++ nameLookups host args nAlterType

/-- The run ends at this lookup. -/
def ends : Lookup → Bool
  | .error _ => true
  | .ok (nAlterType, pszPkgName) =>
    match singlePkgGoal host args nAlterType pszPkgName with
    | .ok _ => false
    | .error e => !tolerated e && e != .noSearchResults

/-- No package has the name. -/
def unknown (pszPkgName : Text) : Bool :=
  host.select (if args.nSource then .source else .all) pszPkgName == []

/-- The name of a lookup that no package has. -/
def unknownName : Lookup → Option Text
  | .error _ => none
  | .ok (_, pszPkgName) => if unknown host args pszPkgName then some pszPkgName else none

/-- Looking up a name stores it if no package has it. -/
def lookupRules : Rules ResolveState Lookup Text :=
  ⟨ResolveState.ppszPkgsNotResolved, ends host args, unknownName host args⟩

/-- The array has a slot for each unknown name among the lookups that are reached, and one for
the terminating NULL. -/
def Fits (nAlterType : AlterType) : Prop :=
  (emitted (lookupRules host args) (resolveLookups host args nAlterType)).length ≤
    args.nCmdCount - 1

end Code

/-! ## Which names are stored -/

section Search

variable {α β : Type} {x : Except TdnfError α} {f : α → Except TdnfError β}

/-- The call does not end as a search without results. -/
def Searches (x : Except TdnfError α) : Prop := x ≠ .error .noSearchResults

theorem searches_ok (a : α) : Searches (.ok a : Except TdnfError α) := by
  intro h
  cases h

theorem searches_error {e : TdnfError} (he : e ≠ .noSearchResults) :
    Searches (.error e : Except TdnfError α) := by
  intro h
  cases h
  exact he rfl

theorem Searches.bind (hx : Searches x) (hf : ∀ a, Searches (f a)) : Searches (x >>= f) := by
  cases x with
  | ok a => exact hf a
  | error e => exact fun h => hx (by cases h; rfl)

theorem Searches.ite {y : Except TdnfError α} {c : Prop} [Decidable c] (hx : Searches x)
    (hy : Searches y) : Searches (if c then x else y) := by
  split
  · exact hx
  · exact hy

end Search

section Lookups

variable {host : AlterHost} {args : AlterArgs} {nAlterType : AlterType} {pszPkgName : Text}

theorem searches_allocateString (s : Text) : Searches (allocateString s) := by
  apply Searches.ite
  · exact searches_error (by decide)
  · exact searches_ok s

theorem searches_findPkgByName (scope : NameScope) (pszPkgName : Text) :
    Searches (findPkgByName host scope pszPkgName) := by
  apply Searches.ite
  · exact searches_error (by decide)
  · apply (searches_allocateString pszPkgName).bind
    intro name
    exact Searches.ite (searches_error (by decide)) (searches_ok _)

theorem searches_getPackageId (pkgs : List ℕ) (i : ℕ) : Searches (getPackageId pkgs i) := by
  rw [getPackageId]
  split
  · exact searches_error (by decide)
  · exact searches_ok _

theorem searches_poolString (s : Option Text) : Searches (poolString s) := by
  cases s with
  | none => exact searches_error (by decide)
  | some s => exact searches_allocateString s

theorem searches_findHighestOrLowestInstalled (dwFindHighest : Bool) (pszPkgName : Text) :
    Searches (findHighestOrLowestInstalled host dwFindHighest pszPkgName) := by
  apply (searches_findPkgByName _ _).bind
  intro pkgs
  apply (searches_getPackageId _ _).bind
  intro first
  exact searches_ok _

theorem searches_bestOf (scope : NameScope) :
    Searches (bestOf host (findPkgByName host scope pszPkgName)) := by
  apply (searches_findPkgByName _ _).bind
  intro pkgs
  cases host.bestSolvables pkgs with
  | nil => exact searches_error (by decide)
  | cons id rest => exact searches_ok id

theorem searches_findHighestAvailable (nSource : Bool) (pszPkgName : Text) :
    Searches (findHighestAvailable host nSource pszPkgName) := by
  apply Searches.ite
  · exact searches_error (by decide)
  apply Searches.ite
  · exact searches_bestOf _
  cases findBestAvailable host pszPkgName with
  | ok id => exact searches_ok id
  | error e => exact searches_bestOf _

theorem searches_matchForReinstall : Searches (matchForReinstall host pszPkgName) := by
  apply (searches_findPkgByName _ _).bind
  intro installed
  apply (searches_getPackageId _ _).bind
  intro dwInstalledId
  apply (searches_poolString _).bind
  intro pszNevr
  apply (searches_findPkgByName _ _).bind
  intro available
  apply (searches_getPackageId _ _).bind
  intro dwAvailableId
  exact searches_ok _

theorem searches_verifyInstallPackage (dwPkg : ℕ) :
    Searches (verifyInstallPackage host dwPkg) := by
  have hcompare : Searches (do
      let pszName ← poolString (host.pkgName dwPkg)
      let dwInstalledId ← findHighestOrLowestInstalled host true pszName
      return host.cmpEvr dwPkg dwInstalledId != 0) := by
    apply (searches_poolString _).bind
    intro pszName
    apply (searches_findHighestOrLowestInstalled _ _).bind
    intro dwInstalledId
    exact searches_ok _
  rw [verifyInstallPackage]
  split
  · exact searches_ok _
  · rename_i e he
    apply Searches.ite
    · exact searches_ok _
    · exact searches_error fun hsearch => hcompare (by rw [he, hsearch])

theorem searches_addPackagesForInstall (nSource nInstallOnly : Bool) :
    Searches (addPackagesForInstall host pszPkgName nSource nInstallOnly) := by
  apply (searches_findHighestAvailable _ _).bind
  intro dwHighestAvailable
  apply (searches_verifyInstallPackage _).bind
  intro dwInstallPackage
  exact Searches.ite (searches_ok _) (searches_error (by decide))

theorem searches_addPackagesForUpgrade : Searches (addPackagesForUpgrade host pszPkgName) := by
  apply (searches_findHighestAvailable _ _).bind
  intro dwHighestAvailable
  apply Searches.bind
  · apply (searches_poolString _).bind
    intro pszName
    apply (searches_findHighestOrLowestInstalled _ _).bind
    intro dwInstalledId
    exact searches_ok _
  · intro dwUpgradePackage
    exact searches_ok _

theorem searches_addPackagesForDowngrade :
    Searches (addPackagesForDowngrade host pszPkgName) := by
  apply (searches_findPkgByName _ _).bind
  intro available
  apply (searches_getPackageId _ _).bind
  intro dwAvailableId
  apply (searches_poolString _).bind
  intro pszName
  apply (searches_findHighestOrLowestInstalled _ _).bind
  intro dwInstalledId
  apply Searches.bind
  · rw [packageGetDowngrade]
    split
    · exact searches_error (by decide)
    · exact searches_ok _
  · intro dwDownGradeId
    exact searches_ok _

theorem searches_eraseGoal : Searches (eraseGoal host pszPkgName) := by
  rw [eraseGoal]
  cases h : findPkgByName host .installed pszPkgName with
  | ok pkgs => exact searches_ok pkgs
  | error e =>
      apply searches_error
      split
      · decide
      · intro he
        exact searches_findPkgByName _ _ (by rw [h, he])

theorem searches_installGoal : Searches (installGoal host args pszPkgName) := by
  rw [installGoal]
  split
  · exact searches_ok _
  · rename_i e he
    have hne : e ≠ .noSearchResults := by
      intro hsearch
      exact searches_addPackagesForInstall _ _ (by rw [he, hsearch])
    apply Searches.ite
    · have hmark : Searches (host.markAutoInstalled pszPkgName) := host.mark_ne pszPkgName
      apply hmark.bind
      intro _
      exact searches_error hne
    · exact searches_error hne

/-- Once a name is known, no goal for it ends as a search without results. -/
theorem searches_alterGoal : Searches (alterGoal host args nAlterType pszPkgName) := by
  cases nAlterType with
  | reinstall => exact searches_matchForReinstall
  | erase => exact searches_eraseGoal
  | autoErase => exact searches_eraseGoal
  | install => exact searches_installGoal
  | upgrade => exact searches_addPackagesForUpgrade
  | downgrade => exact searches_addPackagesForDowngrade
  | downgradeAll => exact searches_addPackagesForDowngrade
  | autoEraseAll => exact searches_ok []
  | upgradeAll => exact searches_ok []
  | distroSync => exact searches_ok []
  | obsoleted => exact searches_ok []

/-- What the count of a name with a query of these packages comes to. -/
theorem countPkgByName_eq (hname : pszPkgName ≠ [])
    (hcopy : allocateString pszPkgName = .ok pszPkgName) :
    countPkgByName host args.nSource pszPkgName =
      if unknown host args pszPkgName then .error .noMatch
      else .ok (host.select (if args.nSource then .source else .all) pszPkgName).length := by
  simp only [countPkgByName, findPkgByName, hname, if_false, hcopy, unknown, getQueryResult,
    beq_iff_eq]
  have hbind (x : Text → Except TdnfError (List ℕ)) : (Except.ok pszPkgName >>= x) =
      x pszPkgName := rfl
  rw [hbind]
  by_cases hselect : host.select (if args.nSource then .source else .all) pszPkgName = []
  · rw [if_pos hselect, if_pos hselect]
    rfl
  · rw [if_neg hselect, if_neg hselect]
    rfl

/-- A lookup of a name that cannot be looked up, or of one that is known or not. -/
theorem singlePkgGoal_eq (host : AlterHost) (args : AlterArgs) (nAlterType : AlterType)
    (pszPkgName : Text) : singlePkgGoal host args nAlterType pszPkgName =
    if pszPkgName = [] then .error .invalidParameter
    else if allocateString pszPkgName = .ok pszPkgName then
      if unknown host args pszPkgName then
        .error (if args.nSkipBroken then .noSearchResults else .noMatch)
      else alterGoal host args nAlterType pszPkgName
    else .error .stringTooLong := by
  by_cases hname : pszPkgName = []
  · rw [if_pos hname, singlePkgGoal, if_pos hname]
    rfl
  rw [if_neg hname, singlePkgGoal, if_neg hname]
  obtain hlong | hcopy := allocateString_eq pszPkgName
  · have hcount : countPkgByName host args.nSource pszPkgName = .error .stringTooLong := by
      simp only [countPkgByName, findPkgByName, hname, if_false, hlong]
      rfl
    simp only [countKnown, hcount, hlong]
    simp [bind, Except.bind]
  · rw [if_pos hcopy, countKnown, countPkgByName_eq hname hcopy]
    by_cases hunknown : unknown host args pszPkgName = true
    · simp only [hunknown, if_true, true_and]
      cases args.nSkipBroken with
      | true => rfl
      | false => rfl
    · have hselect : host.select (if args.nSource then .source else .all) pszPkgName ≠ [] := by
        simpa [unknown] using hunknown
      simp only [hunknown, if_false, Bool.false_eq_true]
      simp [bind, Except.bind, hselect]

end Lookups

/-! ## The lookups of a run -/

/-- A query without matches is an error. -/
theorem findPkgByName_ne_nil {host : AlterHost} {scope : NameScope} {pszPkgName : Text}
    {ids : List ℕ} (h : findPkgByName host scope pszPkgName = .ok ids) : ids ≠ [] := by
  rw [findPkgByName] at h
  by_cases hname : pszPkgName = []
  · rw [if_pos hname] at h
    cases h
  · rw [if_neg hname] at h
    obtain ⟨name, -, h⟩ := exists_of_bind_ok h
    simp only [getQueryResult] at h
    split at h
    · cases h
    · rename_i hne
      cases h
      exact hne

section Runs

variable {host : AlterHost} {args : AlterArgs} {nAlterType : AlterType} {s : ResolveState}
  {α β : Type}

theorem follows_call {x : Except TdnfError α} {f : α → ResolveProc β} {l : α → List Lookup}
    (hf : ∀ a, x = .ok a → Follows (lookupRules host args) (f a) (l a)) :
    Follows (lookupRules host args) (call x >>= f) (afterCall x l) := by
  cases hx : x with
  | ok a => exact hf a hx
  | error e => exact follows_throw _ rfl

/-- The end of a lookup whose goal is queued. -/
theorem prepareSinglePkg_ok {pszPkgName : Text} {ids : List ℕ}
    (h : singlePkgGoal host args nAlterType pszPkgName = .ok ids) :
    prepareSinglePkg host args nAlterType pszPkgName = modify (queuePush ids) ∧
      ends host args (.ok (nAlterType, pszPkgName)) = false := by
  rw [prepareSinglePkg, ends, h]
  exact ⟨rfl, rfl⟩

/-- The end of a lookup with an error that is only reported. -/
theorem prepareSinglePkg_tolerated {pszPkgName : Text} {e : TdnfError}
    (h : singlePkgGoal host args nAlterType pszPkgName = .error e) (he : tolerated e = true) :
    prepareSinglePkg host args nAlterType pszPkgName = pure () ∧
      ends host args (.ok (nAlterType, pszPkgName)) = false := by
  rw [prepareSinglePkg, ends, h]
  simp [he]

/-- The end of a lookup with an error that ends the run. -/
theorem prepareSinglePkg_error {pszPkgName : Text} {e : TdnfError}
    (h : singlePkgGoal host args nAlterType pszPkgName = .error e) (he : tolerated e = false)
    (hsearch : e ≠ .noSearchResults) :
    prepareSinglePkg host args nAlterType pszPkgName = throw (.code e) ∧
      ends host args (.ok (nAlterType, pszPkgName)) = true := by
  rw [prepareSinglePkg, ends, h]
  simp [he, hsearch]

/-- A lookup that ends the run stores nothing. -/
theorem followsFrom_of_error {pszPkgName : Text} {e : TdnfError}
    (h : singlePkgGoal host args nAlterType pszPkgName = .error e) (he : tolerated e = false)
    (hsearch : e ≠ .noSearchResults) :
    FollowsFrom (lookupRules host args) s (prepareSinglePkg host args nAlterType pszPkgName)
      [.ok (nAlterType, pszPkgName)] := by
  obtain ⟨hrun, hends⟩ := prepareSinglePkg_error h he hsearch
  apply followsFrom_single
  rw [hrun, wp_throw]
  exact ⟨hends, rfl⟩

/-- A name without packages is stored if the command may skip it. -/
theorem followsFrom_unknown {pszPkgName : Text} (hname : pszPkgName ≠ [])
    (hcopy : allocateString pszPkgName = .ok pszPkgName)
    (hunknown : unknown host args pszPkgName = true)
    (h : singlePkgGoal host args nAlterType pszPkgName = .error .noSearchResults) :
    FollowsFrom (lookupRules host args) s (prepareSinglePkg host args nAlterType pszPkgName)
      [.ok (nAlterType, pszPkgName)] := by
  have hrun : prepareSinglePkg host args nAlterType pszPkgName =
      orElse (addNotResolved pszPkgName) (pure ()) := by
    rw [prepareSinglePkg, h]
    rfl
  have hends : ends host args (.ok (nAlterType, pszPkgName)) = false := by
    rw [ends, h]
    rfl
  apply followsFrom_single
  rw [hrun, wp_orElse, addNotResolved, if_neg hname, hcopy]
  constructor
  · exact hends
  · simp [lookupRules, unknownName, hunknown, pushNotResolved]

/-- A name with packages is not stored. -/
theorem followsFrom_known {pszPkgName : Text} (hunknown : unknown host args pszPkgName = false)
    (h : singlePkgGoal host args nAlterType pszPkgName =
      alterGoal host args nAlterType pszPkgName) :
    FollowsFrom (lookupRules host args) s (prepareSinglePkg host args nAlterType pszPkgName)
      [.ok (nAlterType, pszPkgName)] := by
  have hemits : (lookupRules host args).emits (.ok (nAlterType, pszPkgName)) = none := by
    simp [lookupRules, unknownName, hunknown]
  cases hgoal : alterGoal host args nAlterType pszPkgName with
  | ok ids =>
      obtain ⟨hrun, hends⟩ := prepareSinglePkg_ok (h.trans hgoal)
      apply followsFrom_single
      rw [hrun, wp_modify, hemits]
      exact ⟨hends, (List.append_nil _).symm⟩
  | error e =>
      have hsearch : e ≠ .noSearchResults := by
        rintro rfl
        exact searches_alterGoal hgoal
      cases he : tolerated e with
      | true =>
          obtain ⟨hrun, hends⟩ := prepareSinglePkg_tolerated (h.trans hgoal) he
          apply followsFrom_single
          rw [hrun, wp_pure, hemits]
          exact ⟨hends, (List.append_nil _).symm⟩
      | false => exact followsFrom_of_error (h.trans hgoal) he hsearch

/-- One name is looked up: it is stored if no package has it. -/
theorem follows_prepareSinglePkg (pszPkgName : Text) :
    Follows (lookupRules host args) (prepareSinglePkg host args nAlterType pszPkgName)
      [.ok (nAlterType, pszPkgName)] := by
  intro s
  have hgoal := singlePkgGoal_eq host args nAlterType pszPkgName
  by_cases hname : pszPkgName = []
  · rw [if_pos hname] at hgoal
    exact followsFrom_of_error hgoal rfl (by decide)
  rw [if_neg hname] at hgoal
  by_cases hcopy : allocateString pszPkgName = .ok pszPkgName
  · rw [if_pos hcopy] at hgoal
    cases hunknown : unknown host args pszPkgName with
    | true =>
        rw [if_pos hunknown] at hgoal
        cases hskip : args.nSkipBroken with
        | true =>
            rw [if_pos hskip] at hgoal
            exact followsFrom_unknown hname hcopy hunknown hgoal
        | false =>
            rw [if_neg (by simp [hskip])] at hgoal
            exact followsFrom_of_error hgoal rfl (by decide)
    | false =>
        rw [if_neg (by simp [hunknown])] at hgoal
        exact followsFrom_known hunknown hgoal
  · rw [if_neg hcopy] at hgoal
    exact followsFrom_of_error hgoal rfl (by decide)

theorem follows_preparePkgId (id : ℕ) : Follows (lookupRules host args)
    (preparePkgId host args nAlterType id) (idLookups host nAlterType id) := by
  apply follows_call
  intro pszName _
  exact follows_prepareSinglePkg pszName

theorem follows_prepareCmd (pszPkgName : Text) : Follows (lookupRules host args)
    (prepareCmd host args nAlterType pszPkgName) (cmdLookups host nAlterType pszPkgName) := by
  rw [prepareCmd, cmdLookups]
  by_cases hglob : isGlob pszPkgName = true
  · rw [if_pos hglob, if_pos hglob]
    apply follows_call
    intro ids hids
    rw [if_neg (findPkgByName_ne_nil hids)]
    exact follows_forM follows_preparePkgId ids
  · rw [if_neg hglob, if_neg hglob]
    by_cases hrpm : isRpmFile pszPkgName = true
    · rw [if_pos hrpm, if_pos hrpm]
      exact follows_pure ()
    · rw [if_neg hrpm, if_neg hrpm]
      exact follows_prepareSinglePkg pszPkgName

theorem follows_filterPackages (hall : nAlterType = .downgradeAll) :
    Follows (lookupRules host args) (filterPackages host args nAlterType)
      (installedLookups host nAlterType) := by
  rw [filterPackages, installedLookups, if_pos hall]
  cases getQueryResult host.installed with
  | error e => exact follows_throw _ rfl
  | ok ids => exact follows_forM follows_preparePkgId ids

theorem follows_prepareNames (nAlterType : AlterType) : Follows (lookupRules host args)
    (prepareNames host args nAlterType) (nameLookups host args nAlterType) := by
  apply follows_call
  rintro ⟨dwSecurity, pszSeverity⟩ -
  dsimp only
  split_ifs
  · cases getUpdatePkgs host args with
    | error f => exact follows_throw f rfl
    | ok names =>
        have hnames : Follows (lookupRules host args)
            (names.forM (prepareSinglePkg host args .upgrade))
            (names.flatMap fun name => [.ok (.upgrade, name)]) :=
          follows_forM follows_prepareSinglePkg names
        rw [← List.map_eq_flatMap] at hnames
        exact hnames.returning AlterType.upgrade
  · exact (follows_forM follows_prepareCmd _).returning nAlterType

theorem follows_prepareAllPackages : Follows (lookupRules host args)
    (prepareAllPackages host args nAlterType)
    (installedLookups host nAlterType ++ nameLookups host args nAlterType) := by
  rw [prepareAllPackages]
  by_cases hall : nAlterType = .downgradeAll
  · rw [if_pos hall]
    exact (follows_filterPackages hall).bind fun _ => follows_prepareNames nAlterType
  rw [if_neg hall]
  by_cases horphans : nAlterType = .autoEraseAll
  · have hpush (ids : List ℕ) : Follows (lookupRules host args)
        (modify (queuePush ids) : ResolveProc PUnit) [] := follows_modify fun _ => rfl
    have hcall : Follows (lookupRules host args) (call host.autoInstalledOrphans >>= fun ids =>
        modify (queuePush ids)) (installedLookups host nAlterType) := by
      rw [installedLookups, if_neg hall, if_pos horphans]
      apply follows_call
      exact fun ids _ => hpush ids
    rw [if_pos horphans]
    have hrun := hcall.bind fun _ => follows_prepareNames nAlterType
    rw [bind_assoc] at hrun
    exact hrun
  · rw [if_neg horphans, installedLookups, if_neg hall, if_neg horphans]
    exact follows_prepareNames nAlterType

theorem follows_prepareDep (dep : ℕ) :
    Follows (lookupRules host args) (prepareDep host args dep) (depLookups host dep) := by
  rw [prepareDep, depLookups]
  cases host.dep2str dep with
  | none => exact follows_throw _ rfl
  | some pszDep =>
      dsimp only
      split_ifs
      · exact follows_pure ()
      · exact follows_prepareSinglePkg pszDep

/-- The build requirements of the packages that are queued, and of those that are named. -/
theorem followsFrom_resolveBuildDependencies (names : List Text) :
    FollowsFrom (lookupRules host args) s (resolveBuildDependencies host args names)
      (buildLookups host s.queueGoal names) := by
  rw [resolveBuildDependencies, buildLookups]
  cases sourcePackages host names with
  | error e => exact follows_throw (r := lookupRules host args) _ rfl s
  | ok pkgs =>
      have hempty : Follows (lookupRules host args)
          (modify fun s => { s with queueGoal := [] } : ResolveProc PUnit) [] :=
        follows_modify fun _ => rfl
      exact (hempty.bind fun _ => follows_forM follows_prepareDep _) s

theorem followsFrom_prepareGoal (host : AlterHost) (args : AlterArgs) (nAlterType : AlterType)
    (s : ResolveState) : FollowsFrom (lookupRules host args) s
    (prepareGoal host args nAlterType)
    (if args.nBuildDeps then
      buildLookups host s.queueGoal
        ((args.ppszCmds.drop 1).filter fun name => !isRpmFile name)
    else installedLookups host nAlterType ++ nameLookups host args nAlterType) := by
  rw [prepareGoal]
  by_cases hbuild : args.nBuildDeps = true
  · rw [if_pos hbuild, if_pos hbuild]
    exact (followsFrom_resolveBuildDependencies _).returning nAlterType
  · rw [if_neg hbuild, if_neg hbuild]
    exact follows_prepareAllPackages s

/-- Solving leaves the array as it is. -/
theorem storedNames_eq : storedNames host args nAlterType =
    emitted (lookupRules host args) (resolveLookups host args nAlterType) := by
  rw [storedNames, resolve, resolveLookups]
  cases hbefore : beforeArray host args nAlterType with
  | error e => rfl
  | ok ids =>
      have hsolve (a : AlterType) (t : ResolveState) : finalState
          (((get : ResolveProc ResolveState) >>= fun s => call (solveGoal host args a s)).run t) =
          t := by
        rw [run_get_bind]
        cases solveGoal host args a t with
        | ok info => rfl
        | error e => rfl
      have hgoal := followsFrom_prepareGoal host args nAlterType ⟨[], ids⟩
      calc (finalState ((prepareGoal host args nAlterType >>= fun a => get >>= fun s =>
              call (solveGoal host args a s)).run ⟨[], ids⟩)).ppszPkgsNotResolved
          = (finalState ((prepareGoal host args nAlterType).run
              ⟨[], ids⟩)).ppszPkgsNotResolved := by rw [finalState_bind_keeping hsolve]
        _ = _ := log_finalState hgoal

/-- The names stored in one call leave the last slot free if and only if enough of the names that
are looked up are known. -/
theorem resolve_fits_iff (host : AlterHost) (args : AlterArgs) (nAlterType : AlterType) :
    (storedNames host args nAlterType).length ≤ args.nCmdCount - 1 ↔
      Fits host args nAlterType := by
  rw [storedNames_eq, Fits]

end Runs

/-! ## Commands for which the array is large enough -/

section Enough

variable {host : AlterHost} {args : AlterArgs} {nAlterType : AlterType}

/-- Without skipping, an unknown name ends the run. -/
theorem fits_of_not_skipBroken (hskip : args.nSkipBroken = false) :
    Fits host args nAlterType := by
  have hnone : emitted (lookupRules host args) (resolveLookups host args nAlterType) = [] := by
    rw [emitted, List.filterMap_eq_nil_iff]
    intro n hn
    have hends : (lookupRules host args).ends n = false := by
      simpa using List.mem_takeWhile_imp hn
    cases n with
    | error f => rfl
    | ok lookup =>
        obtain ⟨ty, pszPkgName⟩ := lookup
        have hgoal := singlePkgGoal_eq host args ty pszPkgName
        by_contra hsome
        have hunknown : unknown host args pszPkgName = true := by
          by_contra hknown
          exact hsome (by simp [lookupRules, unknownName, hknown])
        have hstop : (lookupRules host args).ends (.ok (ty, pszPkgName)) = true := by
          simp only [lookupRules, ends, hgoal, hskip, hunknown, if_true, Bool.false_eq_true,
            if_false]
          split_ifs <;> rfl
        rw [hstop] at hends
        cases hends
  rw [Fits, hnone]
  exact Nat.zero_le _

/-- Every argument stands for one package: no glob, no selection by advisories, and neither build
requirements nor all installed packages are looked up. -/
def Plain (args : AlterArgs) (nAlterType : AlterType) : Prop :=
  args.nBuildDeps = false ∧ nAlterType ≠ .downgradeAll ∧
    (∀ name ∈ args.ppszCmds.drop 1, isGlob name = false) ∧
    ∀ dwSecurity pszSeverity,
      getSecuritySeverityOption args.setOpt = .ok (dwSecurity, pszSeverity) →
      selectsUpdates nAlterType dwSecurity pszSeverity (getRebootRequiredOption args.setOpt) = false

theorem unknownNames_cmdLookups_le (host : AlterHost) (args : AlterArgs)
    (nAlterType : AlterType) {pszPkgName : Text} (hglob : isGlob pszPkgName = false) :
    ((cmdLookups host nAlterType pszPkgName).filterMap (unknownName host args)).length ≤ 1 := by
  calc ((cmdLookups host nAlterType pszPkgName).filterMap (unknownName host args)).length
      ≤ (cmdLookups host nAlterType pszPkgName).length := List.length_filterMap_le _ _
    _ ≤ 1 := by
      rw [cmdLookups, if_neg (by simp [hglob])]
      split <;> simp

theorem unknownNames_cmds_le (names : List Text) (hglob : ∀ name ∈ names, isGlob name = false) :
    ((names.flatMap (cmdLookups host nAlterType)).filterMap (unknownName host args)).length ≤
      names.length := by
  induction names with
  | nil => exact Nat.le_refl 0
  | cons name names ih =>
      have hname := unknownNames_cmdLookups_le host args nAlterType (hglob name (by simp))
      have hrest := ih fun n hn => hglob n (List.mem_cons_of_mem _ hn)
      rw [List.flatMap_cons, List.filterMap_append, List.length_append, List.length_cons]
      omega

/-- For a plain command line there are no more unknown names than arguments. -/
theorem fits_of_plain (h : Plain args nAlterType) : Fits host args nAlterType := by
  obtain ⟨hbuild, hall, hglob, hselect⟩ := h
  have hcmds : ((nameLookups host args nAlterType).filterMap (unknownName host args)).length ≤
      args.nCmdCount - 1 := by
    rw [nameLookups]
    cases hopts : getSecuritySeverityOption args.setOpt with
    | error e => exact Nat.zero_le _
    | ok opts =>
        obtain ⟨dwSecurity, pszSeverity⟩ := opts
        have hplain := hselect dwSecurity pszSeverity hopts
        simp only [afterCall, hplain, Bool.false_eq_true, if_false]
        simpa [AlterArgs.nCmdCount] using unknownNames_cmds_le (args.ppszCmds.drop 1) hglob
  have hinstalled :
      (installedLookups host nAlterType).filterMap (unknownName host args) = [] := by
    rw [installedLookups, if_neg hall]
    split
    · cases host.autoInstalledOrphans with
      | error e => rfl
      | ok ids => rfl
    · rfl
  have hprefix := (List.takeWhile_sublist (fun n => !(lookupRules host args).ends n)
    (l := resolveLookups host args nAlterType)).filterMap (unknownName host args)
  calc (emitted (lookupRules host args) (resolveLookups host args nAlterType)).length
      ≤ ((resolveLookups host args nAlterType).filterMap (unknownName host args)).length :=
        hprefix.length_le
    _ ≤ args.nCmdCount - 1 := by
      rw [resolveLookups]
      cases beforeArray host args nAlterType with
      | error e => exact Nat.zero_le _
      | ok ids =>
          simpa only [afterCall, hbuild, Bool.false_eq_true, if_false, List.filterMap_append,
            hinstalled, List.nil_append] using hcmds

end Enough

/-! ## A call that fills the array -/

/-- A source package with two build requirements that no package has. -/
def twoRequirements : AlterHost where
  update := ⟨.ok [], [], fun _ _ => 0, fun _ _ => false, fun _ => none⟩
  isFileOrSymlink := fun _ => .ok false
  realpath := fun path => .ok path
  downloadPackageToCache := fun _ => .error .noRepos
  repoAddRpm := fun _ => none
  refresh := .ok ()
  select := fun _ _ => []
  selectSources := fun _ => [1]
  installed := []
  pkgName := fun _ => some "editor".toList
  pkgNevr := fun _ => some "editor-1-1".toList
  cmpEvr := fun _ _ => 0
  bestAvailable := fun _ => none
  bestSolvables := fun pkgs => pkgs
  requires := fun _ => [2, 3]
  dep2str := fun dep => some (if dep = 2 then "gcc".toList else "make".toList)
  ppszInstallOnlyPkgs := []
  markAutoInstalled := fun _ => .ok ()
  mark_ne := fun _ h => nomatch h
  autoInstalledOrphans := .ok []
  goal := fun _ _ => .error .solvFailed
  goalNoDeps := fun _ => .error .solvFailed
  availableCacheBytes := .ok 0
  downloadSizeBytes := fun _ => 0

/-- The build requirements of one argument take both slots, and no NULL remains. -/
theorem builddeps_fill_array :
    storedNames twoRequirements ⟨["install".toList, "editor".toList], [], false, true, true, false⟩
      .install = ["gcc".toList, "make".toList] ∧
    ¬ (storedNames twoRequirements
        ⟨["install".toList, "editor".toList], [], false, true, true, false⟩ .install).length ≤
      AlterArgs.nCmdCount ⟨["install".toList, "editor".toList], [], false, true, true, false⟩ - 1
    := by
  decide

end Tdnf.Client
