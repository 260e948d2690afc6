import Mathlib.Logic.Basic

/-!
# Error codes

The `ERROR_TDNF_*` codes that the modelled functions return.
-/

namespace Tdnf

/-- `ERROR_TDNF_*` -/
inductive TdnfError where
  | invalidParameter
  | outOfMemory
  | invalidRepoFile
  | solvFailed
  | protectedPkg
  | installOnlyLimitExceeded
  | historyError
  | rpmTransactionFailed
  | checksumValidationFailed
  | fipsModeForbidden
  | urlInvalid
  | keyUrlInvalid
  | confFileLoad
  | repoDirOpen
  | duplicateRepoId
  | metadataExpireParse
  | noRepos
  | repoNotFound
  | cacheDisabled
  | baseurlDoesNotExist
  | solvIo
  | addSolv
  | repoWrite
  | noGpgkeyConfEntry
  | invalidPubkeyFile
  | rpmGpgNoMatch
  | operationAborted
  | invalidInput
  | noMatch
  | noSearchResults
  | packageRequired
  | alreadyInstalled
  | eraseNeedsInstall
  | noUpgradePath
  | noDowngradePath
  | historyNodb
  | stringTooLong
  | setoptNoEquals
  | optNotFound
  | invalidAllocsize
  | cacheDirOutOfDiskSpace
  | rpmtsCreateFailed
  | rpmtsOpendbFailed
  | rpmtsBadRootDir
  /-- `ERROR_TDNF_RPM_BASE + rpmRC` -/
  | rpm (code : Nat)
  /-- `ERROR_TDNF_CURL_BASE + CURLcode` -/
  | curl (code : Nat)
  /-- `ERROR_TDNF_SYSTEM_BASE + errno` -/
  | system (errno : Nat)
  /-- an `errno` that is returned as it is -/
  | bare (errno : Nat)
deriving DecidableEq, Repr

namespace TdnfError

/-- `ERROR_TDNF_FILE_NOT_FOUND`, with ENOENT -/
abbrev fileNotFound : TdnfError := .system 2

/-- `ERROR_TDNF_ALREADY_EXISTS`, with EEXIST -/
abbrev alreadyExists : TdnfError := .system 17

/-- `ERROR_TDNF_NO_DATA`, with ENODATA -/
abbrev noData : TdnfError := .system 61

end TdnfError

/-- How a call ends that does not succeed. -/
inductive Fault where
  /-- A string or a structure is read through NULL. -/
  | nullRead
  | code (e : TdnfError)
deriving DecidableEq, Repr

/-- How a call ends that works on arrays and does not succeed. -/
inductive Stop where
  /-- A cell outside of an array is read or written. -/
  | outside
  | code (e : TdnfError)
deriving DecidableEq, Repr

end Tdnf
