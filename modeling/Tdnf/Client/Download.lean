import Tdnf.Common.Path

/-!
# Downloading into a cache directory

A package or a key is fetched into a temporary file, which is then renamed. The
state is the file system together with the files written and the directories
made since the call began. What the network does is an argument of every call.
-/

namespace Tdnf.Client

open Procedure PathText FileTree FileTree.Tree Common

/-- A file system, and what has been written to it. -/
structure Disk where
  fs : Tree
  /-- files opened for writing or renamed into place -/
  wrote : List Loc
  /-- directories made -/
  made : List Loc

/-- A disk at the start of a call. -/
def Disk.start (fs : Tree) : Disk := ⟨fs, [], []⟩

abbrev Call := Proc TdnfError Disk

/-- What `curl_easy_perform` has received when it returns. -/
structure Perform where
  code : ℕ
  size : ℕ

/-- What happens outside of one call of `TDNFDownloadFile`. -/
structure Transfer where
  /-- the first error of setting curl up -/
  setup : Option TdnfError
  /-- the outcome of each `curl_easy_perform` -/
  perform : ℕ → Perform
  /-- the response code, or the error of `curl_easy_getinfo` -/
  status : Except ℕ ℕ
  /-- the `errno` of `chmod` -/
  chmod : Option ℕ

/-- The parts of `TDNF_REPO_DATA` that downloading reads. -/
structure RepoData where
  pszId : Text
  pszCacheName : Option Text
  ppszBaseUrls : List Text
  nRetries : ℕ

/-- `BAIL_ON_TDNF_SYSTEM_ERROR` -/
def bailErrno {α : Type} : Except Errno α → Call α
  | .ok a => pure a
  | .error e => throw (.system (errnoCode e))

/-- Run `x` where `access` finds nothing at `p`. -/
def ifMissing (p : Text) (x : Call Unit) : Call Unit := do
  match (← get).fs.access p with
  | .ok _ => pure ()
  | .error .noent => x
  | .error e => throw (.system (errnoCode e))

/-- `TDNFUtilsMakeDir` -/
def makeDir (dir : Text) : Call Unit := do
  if dir = [] then throw .invalidParameter
  let s ← get
  match s.fs.mkdir dir with
  | .ok (loc, fs) => set { s with fs := fs, made := loc :: s.made }
  | .error .exist => pure ()
  | .error e => throw (.system (errnoCode e))

/-- The parts of a path that end before a slash other than the first character, and the path. -/
def dirPrefixes (before : Text) : Text → List Text
  | [] => [before]
  | c :: rest =>
    if c = '/' ∧ before ≠ [] then before :: dirPrefixes (before ++ [c]) rest
    else dirPrefixes (before ++ [c]) rest

/-- `TDNFUtilsMakeDirs` -/
def makeDirs (path : Text) : Call Unit := do
  if path = [] then throw .invalidParameter
  match (← get).fs.access path with
  | .ok _ => throw (.system (errnoCode .exist))
  | .error .noent => pure ()
  | .error e => throw (.system (errnoCode e))
  let path := if path.getLast? = some '/' then path.dropLast else path
  (dirPrefixes [] path).forM makeDir

/-- `TDNFCurlErrorIsFatal` -/
def curlErrorIsFatal (code : ℕ) : Bool :=
  code ∈ [1, 2, 3, 37, 41, 48, 53, 93, 42, 43, 76, 5, 63, 45, 4, 27, 77, 82, 23]

/-- Open a file for writing and receive the data of one attempt. -/
def receive (file : Text) (size : ℕ) : Call Unit := do
  let s ← get
  let (loc, fs) ← bailErrno (s.fs.write file size)
  set { s with fs := fs, wrote := loc :: s.wrote }

/-- The loop of attempts in `TDNFDownloadFile` -/
def attempts (perform : ℕ → Perform) (fileTmp : Text) : ℕ → ℕ → Call Unit
  | 0, i => do
    receive fileTmp (perform i).size
    if (perform i).code ≠ 0 then throw (.curl (perform i).code)
  | retries + 1, i => do
    receive fileTmp (perform i).size
    if (perform i).code ≠ 0 then
      if curlErrorIsFatal (perform i).code then throw (.curl (perform i).code)
      else attempts perform fileTmp retries (i + 1)

/-- `rename` of a file that is then in place -/
def renameFile (old new : Text) : Call Unit := do
  let s ← get
  let (loc, fs) ← bailErrno (s.fs.rename old new)
  set { s with fs := fs, wrote := loc :: s.wrote }

/-- `unlink`, whose result is not looked at -/
def Disk.unlink (p : Text) (s : Disk) : Disk :=
  match s.fs.unlink p with
  | .ok fs => { s with fs := fs }
  | .error _ => s

/-- The name of the file that a download goes to first. -/
def tmpOf (file : Text) : Text := file ++ ".tmp".toList

/-- `TDNFDownloadFile` -/
def downloadFile (pRepo : RepoData) (t : Transfer) (fileUrl file : Text) : Call Unit := do
  if fileUrl = [] ∨ file = [] then throw .invalidParameter
  match t.setup with
  | some e => throw e
  | none => pure ()
  finishing id (Disk.unlink (tmpOf file)) do
    attempts t.perform (tmpOf file) pRepo.nRetries 0
    match t.status with
    | .error code => throw (.curl code)
    | .ok status =>
      if 400 ≤ status then throw .invalidParameter
      renameFile (tmpOf file) file
      match t.chmod with
      | some errno => throw (.system errno)
      | none => pure ()

/-- Try one base URL after the other until one succeeds. -/
def tryBaseUrls (pRepo : RepoData) (net : ℕ → Transfer) (location file : Text) :
    ℕ → List Text → Call Unit
  | _, [] => pure ()
  | i, [url] => downloadFile pRepo (net i) (joinPath [url, location]) file
  | i, url :: urls =>
    orElse (downloadFile pRepo (net i) (joinPath [url, location]) file)
      (tryBaseUrls pRepo net location file (i + 1) urls)

/-- `TDNFDownloadFileFromRepo` -/
def downloadFileFromRepo (pRepo : RepoData) (net : ℕ → Transfer) (location file : Text) :
    Call Unit := do
  if location = [] ∨ file = [] then throw .invalidParameter
  if pRepo.ppszBaseUrls = [] then
    -- without a base url the location should contain the whole URL
    downloadFile pRepo (net 0) location file
  else tryBaseUrls pRepo net location file 0 pRepo.ppszBaseUrls

/-- `TDNFGetFileSize`: its return code and `*pnSize`, which keeps its value for a directory -/
def getFileSize (fs : Tree) (path : Text) (nSize : ℤ) : Option TdnfError × ℤ :=
  if path = [] then (some .invalidParameter, 0)
  else match fs.stat path with
    | .error e => (some (.system (errnoCode e)), 0)
    | .ok .dir => (none, nSize)
    | .ok (.file size) => (none, (BitVec.ofNat 32 size).toInt)

/-- `TDNFDownloadPackage`; `nSize` is the value of the variable before anything is stored in it. -/
def downloadPackage (pRepo : RepoData) (net : ℕ → Transfer) (nSize : ℤ)
    (location pkgName rpmCacheDir : Text) : Call Unit := do
  if location = [] ∨ pkgName = [] then throw .invalidParameter
  let packageFile := joinPath [rpmCacheDir, basename location]
  let (dwError, nSize) := getFileSize (← get).fs packageFile nSize
  -- don't download if file is already there, unless it is empty
  if dwError = some (.system (errnoCode .noent)) ∨ nSize = 0 then
    downloadFileFromRepo pRepo net location packageFile
  else match dwError with
    | some e => throw e
    | none => pure ()

/-- The path of a location, which is the location itself if it is no URL. -/
def remotePath (location : Text) : Except TdnfError Text :=
  match pathFromUri location with
  | .error .urlInvalid => .ok location
  | result => result

/-- `TDNFDownloadPackageToTree` -/
def downloadPackageToTree (pRepo : RepoData) (net : ℕ → Transfer) (nSize : ℤ)
    (location pkgName normalRpmCacheDir : Text) : Call Text := do
  if location = [] ∨ pkgName = [] ∨ normalRpmCacheDir = [] then throw .invalidParameter
  let path ← fromExcept (remotePath location)
  let normalPath ← fromExcept
    (normalizePath (← get).fs (joinPath [normalRpmCacheDir, path]))
  if ¬ normalRpmCacheDir <+: normalPath then throw .urlInvalid
  let downloadCacheDir := dirname normalPath
  ifMissing downloadCacheDir (makeDirs downloadCacheDir)
  ifMissing normalPath (downloadPackage pRepo net nSize location pkgName downloadCacheDir)
  return normalPath

/-- `TDNFGetCachePath` without a file name -/
def getCachePath (cacheDir : Text) (pRepo : RepoData) (subDir : Text) : Text :=
  joinPath [cacheDir, pRepo.pszCacheName.getD pRepo.pszId, subDir]

/-- The path of a key URL. -/
def keyPath (url : Text) : Except TdnfError Text :=
  match pathFromUri url with
  | .error .urlInvalid => .error .keyUrlInvalid
  | result => result

/-- `TDNFFetchRemoteGPGKey` -/
def fetchRemoteGPGKey (cacheDir : Text) (pRepo : RepoData) (t : Transfer) (urlGPGKey : Text) :
    Call Text := do
  if urlGPGKey = [] then throw .invalidParameter
  let keyLocation ← fromExcept (keyPath urlGPGKey)
  let realTopKeyCacheDir ← fromExcept
    (normalizePath (← get).fs (getCachePath cacheDir pRepo "keys".toList))
  let filePath := joinPath [realTopKeyCacheDir, keyLocation]
  let normalPath ← fromExcept (normalizePath (← get).fs filePath)
  if ¬ realTopKeyCacheDir <+: normalPath then throw .keyUrlInvalid
  let downloadCacheDir := dirname normalPath
  ifMissing downloadCacheDir (makeDirs downloadCacheDir)
  -- the base name, taken for the progress, cuts the slashes off the end of the path
  downloadFile pRepo t urlGPGKey (basenameRest filePath)
  return normalPath

end Tdnf.Client
