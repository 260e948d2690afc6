import Tdnf.Client.Download
import Tdnf.Client.Repo
import Tdnf.Library.FileStore

/-!
# The metadata of repositories and its cache

`TDNFRefresh` brings the enabled repositories up to date and loads them. The
metadata of a repository lies in its cache directory, next to a `.solv` file with
what was loaded from it. The state keeps the files and the downloads. What the
network and the system answer depends on the state at that time.
-/

namespace Tdnf.Client.RepoCache

open Procedure PathText FileStore Common

/-- The parts of the metadata of a repository. -/
inductive Part where
  | primary
  | fileLists
  | updateInfo
  | other
deriving DecidableEq, Repr

/-- The files that the runs on a cache directory share. -/
structure Cache (δ : Type) where
  files : Files δ
  /-- the URLs for which `TDNFDownloadFile` was called -/
  downloads : List Text
  /-- the parts that the last `.solv` file was made from; no function reads this -/
  made : List Part

/-- What libsolv and the readers of other files make of their data. -/
structure Formats (δ κ : Type) where
  /-- the data of an empty file, which is also what a directory is read as -/
  noData : δ
  text : δ → Text
  /-- the base URLs of a metalink file -/
  metalinkUrls : δ → Except TdnfError (List Text)
  /-- the SHA-256 of `SolvCalculateCookieForFile` -/
  cookie : δ → List ℕ
  /-- where `repomd.xml` says a part lies -/
  location : δ → Part → Option Text
  /-- a repository just created -/
  emptyRepo : κ
  loadRepomd : κ → δ → Except TdnfError κ
  loadPart : Part → κ → δ → Except TdnfError κ
  /-- `repo_write`, and the cookie behind it -/
  solvFile : κ → List ℕ → δ
  /-- the last 32 bytes, where there are as many -/
  solvCookie : δ → Option (List ℕ)
  /-- `repo_add_solv` -/
  addSolv : δ → Option κ

/-- How one call of `TDNFDownloadFile` with a URL and a file ends. -/
inductive Fetched (δ : Type) where
  /-- an error before the temporary file is opened -/
  | refused (e : TdnfError)
  /-- an error after which the temporary file is removed -/
  | failed (e : TdnfError)
  /-- the file is in place; the `errno` is that of `chmod` -/
  | saved (data : δ) (chmod : Option ℕ)

/-- What the network and the system answer, with an `errno` where a call fails. -/
structure Env (δ κ : Type) where
  now : ℤ
  fetch : Text → Cache δ → Fetched δ
  /-- `access` and `stat` fail although something is there, or in another way -/
  stat : Text → Cache δ → Option ℕ
  fopen : Text → Cache δ → Option ℕ
  mkdir : Text → Cache δ → Option ℕ
  creat : Text → Cache δ → Option ℕ
  rename : Text → Cache δ → Option ℕ
  unlink : Text → Cache δ → Option ℕ
  nftw : Text → Cache δ → Option ℕ
  /-- what `remove` does not remove when a directory is walked -/
  keeps : Text → Cache δ → Loc → Bool
  /-- the first error of writing the `.solv` file -/
  writeSolv : Cache δ → Option TdnfError
  /-- what the plugins make of the new `repomd.xml`, and what they download for it -/
  downloadEnd : Repo → Cache δ → Option TdnfError × List Text
  /-- `SolvReadRpmsFromDirectory` -/
  readRpms : Option Text → Except TdnfError κ
  /-- repositories by their priority -/
  qsort : List Repo → List Repo

/-- The options and settings that a refresh reads. -/
structure RefreshConf where
  pszCacheDir : Text
  nKeepCache : Bool
  nRefresh : Bool
  nCacheOnly : Bool
  /-- the ids that the metalink plugin has data for -/
  metalinkRepos : List Text

variable {δ κ : Type}

abbrev CacheProc (δ : Type) := Proc TdnfError (Cache δ)

/-! ## The file system -/

section System

variable (fmt : Formats δ κ) (env : Env δ κ)

/-- `BAIL_ON_TDNF_SYSTEM_ERROR` with the `errno` of a call that failed -/
def bailSys : Option ℕ → CacheProc δ Unit
  | none => pure ()
  | some errno => throw (.system errno)

/-- `access` for existence -/
def Env.access (p : Text) (s : Cache δ) : Option ℕ :=
  match env.stat p s with
  | some errno => some errno
  | none =>
    match s.files (locOf p) with
    | .absent => some 2
    | _ => none

/-- What a file opened for reading holds. -/
def readFile (p : Text) (s : Cache δ) : Except ℕ δ :=
  match env.fopen p s with
  | some errno => .error errno
  | none =>
    match s.files (locOf p) with
    | .absent => .error 2
    | .dir _ => .ok fmt.noData
    | .file data _ => .ok data

/-- `TDNFUtilsMakeDir` -/
def makeDir (dir : Text) : CacheProc δ Unit := do
  if dir = [] then throw .invalidParameter
  match env.mkdir dir (← get) with
  | some errno => if errno ≠ 17 then throw (.system errno)
  | none => modify fun s => { s with files := s.files.mkdir (locOf dir) env.now }

/-- `TDNFUtilsMakeDirs` -/
def makeDirs (path : Text) : CacheProc δ Unit := do
  if path = [] then throw .invalidParameter
  match env.access path (← get) with
  | none => throw .alreadyExists
  | some errno => if errno ≠ 2 then throw (.system errno)
  let path := if path.getLast? = some '/' then path.dropLast else path
  (dirPrefixes [] path).forM (makeDir env)

/-- `TDNFUtilsMakeDirs`, where the directory may exist already -/
def ensureDir (path : Text) : CacheProc δ Unit := do
  match ← attempt (makeDirs env path) with
  | .ok _ => pure ()
  | .error e => if e ≠ .alreadyExists then throw e

/-- The files after `TDNFRecursivelyRemoveDir`, whatever it returns. -/
def cleared (dir : Text) (s : Cache δ) : Cache δ :=
  { s with files := s.files.wipe (locOf dir) (env.keeps dir s) }

/-- `TDNFRepoRemoveCache` and `TDNFRemoveSolvCache`, for their directory -/
def removeDir (dir : Text) : CacheProc δ Unit := do
  let errno := env.nftw dir (← get)
  modify (cleared env dir)
  if errno ≠ some 2 then bailSys errno

/-- The files after `unlink`, whatever it returns. -/
def unlinked (p : Text) (s : Cache δ) : Cache δ :=
  if (env.unlink p s).isSome then s else { s with files := s.files.put (locOf p) .absent }

/-- `TDNFTouchFile` -/
def touchFile (p : Text) : CacheProc δ Unit := do
  bailSys (env.creat p (← get))
  modify fun s => { s with files := s.files.put (locOf p) (.file fmt.noData env.now) }

/-- `TDNFReplaceFile` -/
def replaceFile (src dst : Text) : CacheProc δ Unit := do
  if (env.access src (← get)).isSome then throw .invalidParameter
  bailSys (env.rename src (← get))
  modify fun s =>
    { s with files := (s.files.put (locOf dst) (s.files (locOf src))).put (locOf src) .absent }

/-- `TDNFDownloadFile` -/
def downloadFile (fileUrl file : Text) : CacheProc δ Unit := do
  modify fun s => { s with downloads := s.downloads ++ [fileUrl] }
  if fileUrl = [] ∨ file = [] then throw .invalidParameter
  match env.fetch fileUrl (← get) with
  | .refused e => throw e
  | .failed e =>
    modify fun s => { s with files := s.files.put (locOf (tmpOf file)) .absent }
    throw e
  | .saved data chmod =>
    modify fun s => { s with
      files := (s.files.put (locOf (tmpOf file)) .absent).put (locOf file) (.file data env.now) }
    bailSys chmod

/-- Try one base URL after the other until one succeeds. -/
def tryBaseUrls (location file : Text) : List Text → CacheProc δ Unit
  | [] => pure ()
  | [url] => downloadFile env (joinPath [url, location]) file
  | url :: urls =>
    orElse (downloadFile env (joinPath [url, location]) file) (tryBaseUrls location file urls)

/-- `TDNFDownloadFileFromRepo`, with the base URLs of the repository -/
def downloadFileFromRepo (urls : List Text) (location file : Text) : CacheProc δ Unit := do
  if location = [] ∨ file = [] then throw .invalidParameter
  if urls = [] then downloadFile env location file
  else tryBaseUrls env location file urls

end System

/-! ## Places in the cache directory -/

section Places

variable (conf : RefreshConf) (repo : Repo)

/-- `TDNFGetCachePath` -/
def cachePath (subDir : List Text) : Text :=
  joinPath ([conf.pszCacheDir, repo.pszCacheName.getD repo.pszId] ++ subDir)

def repoDataDir : Text := cachePath conf repo ["repodata".toList]

/-- `pszRepoDataDir` of `TDNFInitRepo` -/
def joinedDataDir : Text := joinPath [cachePath conf repo [], "repodata".toList]

def repoMDFile : Text := joinPath [joinedDataDir conf repo, "repomd.xml".toList]

def metalinkFile : Text := joinPath [joinedDataDir conf repo, "metalink".toList]

def mirrorFile : Text := cachePath conf repo ["mirrorlist".toList]

def tmpDir : Text := cachePath conf repo ["tmp".toList]

def tmpRepoMDFile : Text := joinPath [tmpDir conf repo, "repomd.xml".toList]

def marker : Text := cachePath conf repo ["lastrefresh".toList]

def solvCacheDir : Text := cachePath conf repo ["solvcache".toList]

/-- `SolvGetMetaDataCachePath` -/
def solvFilePath : Text :=
  cachePath conf repo [] ++ "/solvcache/".toList ++ repo.pszId ++ ".solv".toList

/-- `TDNFAppendPath` with the cache directory as its base -/
def partPath (location : Text) : Text :=
  let base := cachePath conf repo []
  (if base.getLast? = some '/' then base.dropLast else base) ++
    (if location.head? = some '/' then location else '/' :: location)

end Places

/-! ## Getting the metadata -/

section Metadata

variable (fmt : Formats δ κ) (env : Env δ κ) (conf : RefreshConf) (repo : Repo)

/-- `TDNFMetalinkGetBaseURLs`, where it needs a metalink file -/
def needsMetalink (s : Cache δ) : Bool :=
  conf.nRefresh || (env.access (metalinkFile conf repo) s).isSome

/-- The base URLs of the metalink file. -/
def metalinkBaseUrls (s : Cache δ) : Except TdnfError (List Text) :=
  match readFile fmt env (metalinkFile conf repo) s with
  | .error errno => .error (.system errno)
  | .ok data => fmt.metalinkUrls data

instance : Decidable (repo.pszId ∈ conf.metalinkRepos) := inferInstance

/-- `TDNFMetalinkRepoMDDownloadStart`, with the base URLs that the repository has then -/
def metalinkStart : CacheProc δ (List Text) := do
  if repo.pszId = [] then throw .invalidParameter
  if repo.pszId ∈ conf.metalinkRepos then
    if needsMetalink env conf repo (← get) then
      ensureDir env (joinedDataDir conf repo)
      downloadFile env (repo.pszMetaLink.getD []) (metalinkFile conf repo)
    fromExcept (metalinkBaseUrls fmt env conf repo (← get))
  else return repo.ppszBaseUrls.getD []

/-- Whether the mirror list is missing or too old. -/
def needsMirrorList (s : Cache δ) : Except TdnfError Bool :=
  match env.access (mirrorFile conf repo) s with
  | some errno => if errno = 2 then .ok true else .error (.system errno)
  | none =>
    .ok (env.now - (s.files (locOf (mirrorFile conf repo))).ctime > repo.lMetadataExpire)

/-- The lines of the mirror list without comments. -/
def mirrorBaseUrls (s : Cache δ) : Except TdnfError (List Text) :=
  match readFile fmt env (mirrorFile conf repo) s with
  | .error _ => .error .fileNotFound
  | .ok data =>
    .ok ((splitStringToArray (fmt.text data) '\n').filter fun line => line.head? ≠ some '#')

/-- The part of `TDNFGetRepoMD` on the mirror list, with the base URLs after it -/
def getMirrorList (urls : List Text) : CacheProc δ (List Text) := do
  match repo.pszMirrorList with
  | none => return urls
  | some url =>
    if ← fromExcept (needsMirrorList env conf repo (← get)) then
      downloadFile env url (mirrorFile conf repo)
    fromExcept (mirrorBaseUrls fmt env conf repo (← get))

/-- The base URLs are not empty. -/
def checkBaseUrls (urls : List Text) : Except TdnfError Unit :=
  if urls.headD [] = [] then .error .baseurlDoesNotExist else .ok ()

/-- `SolvCalculateCookieForFile` -/
def cookieForFile (p : Text) (s : Cache δ) : Except TdnfError (List ℕ) :=
  match readFile fmt env p s with
  | .error _ => .error .solvIo
  | .ok data => .ok (fmt.cookie data)

/-- `nNeedDownload`, and `pszMDCookie` with its NUL bytes where it is not set -/
def needsRepoMD (s : Cache δ) : Except TdnfError (Bool × List ℕ) := do
  let missing ← match env.access (repoMDFile conf repo) s with
    | none => .ok false
    | some errno => if errno = 2 then .ok true else .error (.system errno)
  if conf.nRefresh then
    if missing then return (true, [])
    return (true, ← cookieForFile fmt env (repoMDFile conf repo) s)
  else return (missing, [])

/-- `TDNFRemoveRpmCache`, whatever it returns -/
def clearedRpms (s : Cache δ) : Cache δ :=
  let dir := cachePath conf repo ["rpms".toList]
  if (env.access dir s).isSome then s else cleared env dir s

/-- The old repodata, solvcache and lastRefreshMarker are removed. -/
def removeOld (s : Cache δ) : Cache δ :=
  unlinked env (marker conf repo) (cleared env (solvCacheDir conf repo)
    (cleared env (repoDataDir conf repo) s))

/-- `TDNFEventRepoMDDownloadEnd` -/
def downloadEnd : CacheProc δ Unit := do
  let (error, urls) := env.downloadEnd repo (← get)
  modify fun s => { s with downloads := s.downloads ++ urls }
  match error with
  | some e => throw e
  | none => pure ()

/-- `nReplaceRepoMD`: a first byte of 0 stands for no cookie -/
def replacesRepoMD (cookie : List ℕ) (s : Cache δ) : Except TdnfError Bool :=
  if cookie.headD 0 = 0 then .ok true
  else do return cookie ≠ (← cookieForFile fmt env (tmpRepoMDFile conf repo) s)

/-- The part of `TDNFGetRepoMD` under `nReplaceRepoMD` -/
def replaceRepoMD : CacheProc δ Unit := do
  modify (removeOld env conf repo)
  modify fun s => if conf.nKeepCache then s else clearedRpms env conf repo s
  makeDirs env (joinedDataDir conf repo)
  replaceFile env (tmpRepoMDFile conf repo) (repoMDFile conf repo)

/-- The part of `TDNFGetRepoMD` that downloads `repomd.xml` -/
def downloadRepoMD (urls : List Text) (cookie : List ℕ) : CacheProc δ Unit := do
  ensureDir env (tmpDir conf repo)
  downloadFileFromRepo env urls "repodata/repomd.xml".toList (tmpRepoMDFile conf repo)
  let nReplaceRepoMD ← fromExcept (replacesRepoMD fmt env conf repo cookie (← get))
  downloadEnd env repo
  if nReplaceRepoMD then replaceRepoMD env conf repo
  touchFile fmt env (marker conf repo)

/-- What `repomd.xml` says: the location of the primary part, and those of the others -/
structure RepoMD where
  primary : Text
  fileLists : Option Text
  updateInfo : Option Text
  other : Option Text
deriving DecidableEq, Repr

/-- What `TDNFParseRepoMD` finds in a file. -/
def parseData (data : δ) : Except TdnfError RepoMD :=
  match fmt.location data .primary with
  | none => .error .noData
  | some primary =>
    .ok ⟨primary, fmt.location data .fileLists, fmt.location data .updateInfo,
      fmt.location data .other⟩

/-- `TDNFParseRepoMD`, with the error that `TDNFGetRepoMD` makes of its error -/
def parseRepoMD (s : Cache δ) : Except TdnfError RepoMD :=
  match readFile fmt env (repoMDFile conf repo) s with
  | .error errno =>
    if errno = 2 ∧ conf.nCacheOnly then .error .cacheDisabled else .error (.system errno)
  | .ok data => parseData fmt data

/-- A part that is not skipped and has a location. -/
def wantedPart (skip : Bool) (part : Part) (location : Option Text) : List (Part × Text) :=
  if !skip && location.getD [] ≠ [] then [(part, location.getD [])] else []

/-- The parts that `TDNFEnsureRepoMDParts` sees to, in its order -/
def wantedParts (md : RepoMD) : List (Part × Text) :=
  (.primary, md.primary) ::
    (wantedPart repo.nSkipMDFileLists .fileLists md.fileLists ++
      wantedPart repo.nSkipMDUpdateInfo .updateInfo md.updateInfo ++
      wantedPart repo.nSkipMDOther .other md.other)

/-- `TDNFDownloadRepoMDPart`, with the path of the part -/
def downloadRepoMDPart (urls : List Text) (location : Text) : CacheProc δ Unit := do
  if location = [] then throw .invalidParameter
  match env.access (partPath conf repo location) (← get) with
  | none => pure ()
  | some errno =>
    if errno ≠ 2 then throw (.system errno)
    downloadFileFromRepo env urls location (partPath conf repo location)

/-- `TDNFEnsureRepoMDParts` -/
def ensureRepoMDParts (urls : List Text) (parts : List (Part × Text)) : CacheProc δ Unit := do
  let _ ← parts.mapM fun part => downloadRepoMDPart env conf repo urls part.2

/-- The end of `TDNFGetRepoMD`, once `repomd.xml` is in place -/
def useRepoMD (urls : List Text) : CacheProc δ (List (Part × Text)) := do
  let md ← fromExcept (parseRepoMD fmt env conf repo (← get))
  ensureRepoMDParts env conf repo urls (wantedParts repo md)
  return wantedParts repo md

/-- What `TDNFGetRepoMD` finds out before it downloads `repomd.xml`: the base URLs,
`nNeedDownload` and `pszMDCookie` -/
def checkNeeds (urls : List Text) : CacheProc δ (List Text × Bool × List ℕ) := do
  fromExcept (checkBaseUrls urls)
  let (nNeedDownload, cookie) ← fromExcept (needsRepoMD fmt env conf repo (← get))
  return (urls, nNeedDownload, cookie)

/-- The beginning of `TDNFGetRepoMD` -/
def startRepoMD : CacheProc δ (List Text × Bool × List ℕ) := do
  checkNeeds fmt env conf repo
    (← getMirrorList fmt env conf repo (← metalinkStart fmt env conf repo))

/-- `TDNFGetRepoMD`, with the parts that are to be loaded -/
def getRepoMD : CacheProc δ (List (Part × Text)) := do
  let (urls, nNeedDownload, cookie) ← startRepoMD fmt env conf repo
  if nNeedDownload && !conf.nCacheOnly then
    let tidy := cleared env (tmpDir conf repo)
    finishing tidy tidy do
      downloadRepoMD fmt env conf repo urls cookie
      useRepoMD fmt env conf repo urls
  else useRepoMD fmt env conf repo urls

end Metadata

/-! ## Loading a repository -/

section Loading

variable (fmt : Formats δ κ) (env : Env δ κ) (conf : RefreshConf) (repo : Repo)

/-- `SolvUseMetaDataCache`; there may be no `.solv` file -/
def useMetaDataCache (cookie : List ℕ) : CacheProc δ (Option κ) := do
  match readFile fmt env (solvFilePath conf repo) (← get) with
  | .error _ => return none
  | .ok data =>
    if fmt.solvCookie data ≠ some cookie then throw .solvIo
    match fmt.addSolv data with
    | none => throw .addSolv
    | some content => return some content

/-- Read a file of metadata. -/
def readMetadata (p : Text) (s : Cache δ) : Except TdnfError δ :=
  (readFile fmt env p s).mapError fun _ => .solvIo

/-- `SolvReadYumRepo` -/
def readYumRepo (parts : List (Part × Text)) (s : Cache δ) : Except TdnfError κ := do
  let content ← fmt.loadRepomd fmt.emptyRepo
    (← readMetadata fmt env (repoMDFile conf repo) s)
  parts.foldlM (fun content part => do
    fmt.loadPart part.1 content (← readMetadata fmt env (partPath conf repo part.2) s)) content

/-- The end of `SolvCreateMetaDataCache`, where the directory is there -/
def writeMetaDataCache (content : κ) (cookie : List ℕ) (parts : List Part) :
    CacheProc δ Unit := do
  match env.writeSolv (← get) with
  | some e => throw e
  | none => modify fun s => { s with
      files := s.files.put (locOf (solvFilePath conf repo))
        (.file (fmt.solvFile content cookie) env.now)
      made := parts }

/-- `SolvCreateMetaDataCache` -/
def createMetaDataCache (content : κ) (cookie : List ℕ) (parts : List Part) :
    CacheProc δ Unit := do
  match env.access (solvCacheDir conf repo) (← get) with
  | none => pure ()
  | some errno =>
    if errno ≠ 2 then throw (.bare errno)
    ensureDir env (solvCacheDir conf repo)
  writeMetaDataCache fmt env conf repo content cookie parts

/-- The end of `TDNFInitRepo`, for the parts that are to be loaded -/
def loadRepo (parts : List (Part × Text)) : CacheProc δ κ := do
  let cookie ← fromExcept (cookieForFile fmt env (repoMDFile conf repo) (← get))
  match ← useMetaDataCache fmt env conf repo cookie with
  | some content => return content
  | none =>
    let content ← fromExcept (readYumRepo fmt env conf repo parts (← get))
    createMetaDataCache fmt env conf repo content cookie (parts.map Prod.fst)
    return content

/-- `TDNFInitRepo`, with what is loaded; cache data that may be corrupt is removed on an error -/
def initRepo : CacheProc δ κ :=
  finishing id (removeOld env conf repo) do
    if repo.nHasMetaData then
      let _ ← attempt (makeDirs env (joinedDataDir conf repo))
      loadRepo fmt env conf repo (← getRepoMD fmt env conf repo)
    else fromExcept (env.readRpms (repo.ppszBaseUrls.bind List.head?))

/-- `TDNFShouldSyncMetadata` -/
def shouldSyncMetadata (s : Cache δ) : Except TdnfError Bool :=
  let markerFile := joinPath [cachePath conf repo [], "lastrefresh".toList]
  match env.access markerFile s with
  | some errno => if errno = 2 then .ok true else .error (.system errno)
  | none =>
    .ok (env.now - (s.files (locOf markerFile)).ctime > repo.lMetadataExpire)

/-- The check in `TDNFRefreshSack` whether the metadata has expired -/
def expireMetadata : CacheProc δ Unit := do
  if 0 ≤ repo.lMetadataExpire && !conf.nCacheOnly then
    if ← fromExcept (shouldSyncMetadata env conf repo (← get)) then
      removeDir env (repoDataDir conf repo)
      removeDir env (solvCacheDir conf repo)

/-- What `TDNFRefreshSack` makes of how `TDNFInitRepo` ended; EACCES does not disable a
repository -/
def skipUnavailable (repo : Repo) : Except TdnfError κ → CacheProc δ (Repo × Option κ)
  | .ok content => pure (repo, some content)
  | .error e =>
    if repo.nSkipIfUnavailable && e ≠ .system 13 then pure (repo.setEnabled false, none)
    else throw e

/-- One round of the loop in `TDNFRefreshSack`, with the repository and what is loaded of it -/
def refreshRepo (pSack : Bool) (repo : Repo) : CacheProc δ (Repo × Option κ) := do
  expireMetadata env conf repo
  if pSack then skipUnavailable repo (← attempt (initRepo fmt env conf repo))
  else return (repo, none)

/-- The repositories that are refreshed, by their priority -/
def refreshed (repos : List Repo) : List Repo :=
  env.qsort (repos.filter fun repo => repo.pszName ≠ some cmdlineRepoName && repo.nEnabled)

/-- `TDNFRefreshSack` -/
def refreshSack (pSack nCleanMetadata : Bool) (repos : List Repo) :
    CacheProc δ (List (Repo × Option κ)) :=
  let conf := if nCleanMetadata then { conf with nRefresh := true } else conf
  (refreshed env repos).mapM (refreshRepo fmt env conf pSack)

/-- `TDNFRefresh` -/
def refresh (repos : List Repo) : CacheProc δ (List (Repo × Option κ)) :=
  refreshSack fmt env conf true conf.nRefresh repos

end Loading

/-- A cache directory without files. -/
def emptyCache : Cache δ := ⟨fun _ => .absent, [], []⟩

/-! ## A plain setting -/

/-- Formats in which a loaded repository is the data it was loaded from. -/
def plainFormats : Formats (List ℕ) (List ℕ) where
  noData := []
  text _ := []
  metalinkUrls _ := .ok []
  cookie data := 1 :: data
  location data part :=
    if data ≠ [1] then none
    else match part with
    | .primary => some "repodata/primary.xml".toList
    | .fileLists => some "repodata/filelists.xml".toList
    | _ => none
  emptyRepo := []
  loadRepomd content data := .ok (content ++ data)
  loadPart _ content data := .ok (content ++ data)
  solvFile content cookie := content.length :: (content ++ cookie)
  solvCookie data := some (data.drop (1 + data.headD 0))
  addSolv data := some (data.tail.take (data.headD 0))

/-- A system on which every call succeeds. -/
def plainEnv (fetch : Text → Fetched (List ℕ)) : Env (List ℕ) (List ℕ) where
  now := 0
  fetch url _ := fetch url
  stat _ _ := none
  fopen _ _ := none
  mkdir _ _ := none
  creat _ _ := none
  rename _ _ := none
  unlink _ _ := none
  nftw _ _ := none
  keeps _ _ _ := false
  writeSolv _ := none
  downloadEnd _ _ := (none, [])
  readRpms _ := .ok []
  qsort repos := repos

def plainConf (nCacheOnly : Bool) : RefreshConf :=
  ⟨"/c".toList, false, false, nCacheOnly, []⟩

def plainRepo : Repo :=
  { createRepo true "r".toList with
    nEnabled := true, pszName := some "r".toList, ppszBaseUrls := some ["http://a".toList] }

end Tdnf.Client.RepoCache
