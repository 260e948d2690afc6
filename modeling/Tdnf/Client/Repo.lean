import Tdnf.Common.Error
import Tdnf.Common.Strings

/-!
# Repositories and command line options

The record of a repository as the configuration leaves it, and the options that
`--setopt` style arguments are collected in.
-/

namespace Tdnf.Client

open PathText

/-- `TDNF_REPO_DATA`; a string that may be NULL is optional. -/
structure Repo where
  nEnabled : Bool
  nSkipIfUnavailable : Bool
  nGPGCheck : Bool
  nHasMetaData : Bool
  lMetadataExpire : ℤ
  pszId : Text
  pszName : Option Text
  ppszBaseUrls : Option (List Text)
  pszMetaLink : Option Text
  pszMirrorList : Option Text
  ppszUrlGPGKeys : Option (List Text)
  nSSLVerify : Bool
  pszSSLCaCert : Option Text
  pszSSLClientCert : Option Text
  pszSSLClientKey : Option Text
  pszUser : Option Text
  pszPass : Option Text
  nPriority : ℤ
  nTimeout : ℤ
  nMinrate : ℤ
  nThrottle : ℤ
  nRetries : ℤ
  nSkipMDFileLists : Bool
  nSkipMDUpdateInfo : Bool
  nSkipMDOther : Bool
  pszCacheName : Option Text
deriving DecidableEq, Repr

/-- `TDNFCreateRepo`, for the setting of `nSSLVerify` in the main configuration -/
def createRepo (nSSLVerify : Bool) (pszId : Text) : Repo where
  nEnabled := false
  nSkipIfUnavailable := false
  nGPGCheck := true
  nHasMetaData := true
  lMetadataExpire := 172800
  pszId := pszId
  pszName := none
  ppszBaseUrls := none
  pszMetaLink := none
  pszMirrorList := none
  ppszUrlGPGKeys := none
  nSSLVerify := nSSLVerify
  pszSSLCaCert := none
  pszSSLClientCert := none
  pszSSLClientKey := none
  pszUser := none
  pszPass := none
  nPriority := 50
  nTimeout := 0
  nMinrate := 0
  nThrottle := 0
  nRetries := 10
  nSkipMDFileLists := false
  nSkipMDUpdateInfo := false
  nSkipMDOther := false
  pszCacheName := none

/-- The repository enabled or disabled. -/
def Repo.setEnabled (repo : Repo) (nEnable : Bool) : Repo := { repo with nEnabled := nEnable }

@[simp] theorem Repo.setEnabled_pszId (repo : Repo) (nEnable : Bool) :
    (repo.setEnabled nEnable).pszId = repo.pszId := rfl

@[simp] theorem Repo.setEnabled_nEnabled (repo : Repo) (nEnable : Bool) :
    (repo.setEnabled nEnable).nEnabled = nEnable := rfl

@[simp] theorem Repo.setEnabled_self (repo : Repo) : repo.setEnabled repo.nEnabled = repo := rfl

@[simp] theorem Repo.setEnabled_setEnabled (repo : Repo) (first second : Bool) :
    (repo.setEnabled first).setEnabled second = repo.setEnabled second := rfl

/-- `CMDLINE_REPO_NAME` -/
def cmdlineRepoName : Text := "@cmdline".toList

/-- `SYSTEM_REPO_NAME` -/
def systemRepoName : Text := "@System".toList

/-- `TDNF_CMD_OPT` -/
structure CmdOpt where
  pszOptName : String
  pszOptValue : Text
deriving DecidableEq, Repr

end Tdnf.Client
