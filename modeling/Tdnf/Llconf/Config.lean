import Tdnf.Library.FileTable
import Tdnf.Library.Procedure
import Tdnf.Llconf.Ini

/-!
# The actions of tdnf-config

An action finds the file of its section, the main configuration or the first file
of the repository directory that has the section, and reads, changes or removes it.
A file is written under a temporary name and then renamed.
-/

namespace Tdnf.Llconf

open PathText Procedure FileTable

/-- How trees are kept in files. -/
structure Codec (α : Type) where
  parse : α → Option CnfNode
  unparse : CnfNode → α

/-- The files as they are, with `parse_ini` and `unparse_ini`. -/
def iniCodec : Codec Text := ⟨parseIni, unparseIni⟩

/-- The answers of the system to one run. `glob` sees the paths of all files; `none` is an
error. -/
structure Host where
  glob : Text → List Text → Option (List Text)
  readable : Text → Bool
  writable : Text → Bool
  renames : Text → Text → Bool
  unlinks : Text → Bool

/-- The options in front of the action. -/
structure ConfigOptions where
  mainConfig : Text
  repoConfig : Option Text

/-- Why a file cannot be opened. -/
inductive OpenError where
  | noEntry
  | other
deriving DecidableEq, Repr

/-- A run on the files, with what it prints. -/
abbrev ConfigProc (α β : Type) := Proc Halt (Table Text α) β

def mainSection : Text := "main".toList

/-- `TDNF_CONF_KEY_REPODIR` -/
def repodirKey : Text := "repodir".toList

/-- `TDNF_DEFAULT_REPO_LOCATION` -/
def defaultRepoLocation : Text := "/etc/yum.repos.d".toList

/-- The pattern of the files of a directory, in a buffer -/
def repoPattern (repodir : Text) : Text := snprintf 256 (repodir ++ "/*.repo".toList)

/-- The name of a file while it is written, in a buffer -/
def tmpName (filename : Text) : Text := snprintf 256 (filename ++ ".tmp".toList)

/-- The file of a section that is created, in a buffer -/
def repoFile (repodir repo : Text) : Text := snprintf 256 (repodir ++ '/' :: repo ++ ".repo".toList)

/-! ## Trees -/

/-- `find_child` -/
def findChild (cn : CnfNode) (name : Text) : Option CnfNode :=
  Keyed.lookup CnfNode.name name cn.children

/-- `create_cnfnode` -/
def createCnfnode (name : Text) : CnfNode := ⟨name, none, []⟩

/-- `append_node` -/
def appendNode (cnParent cn : CnfNode) : CnfNode :=
  { cnParent with children := cnParent.children ++ [cn] }

/-- `unlink_node` of the child that `find_child` finds -/
def unlinkChild (cnParent : CnfNode) (name : Text) : CnfNode :=
  { cnParent with children := cnParent.children.eraseP (·.name = name) }

/-- A step of `remove_keys` -/
def removeKey (cnRepo : CnfNode) (key : Text) : Except Halt CnfNode :=
  match findChild cnRepo key with
  | none => .error (.exit 4)
  | some _ => .ok (unlinkChild cnRepo key)

/-- `remove_keys` -/
def removeKeys (cnRoot : CnfNode) (repo : Text) (keys : List Text) : Except Halt CnfNode :=
  match findChild cnRoot repo with
  | none => .error (.exit 3)
  | some cnRepo => do
    let cnRepo ← keys.foldlM removeKey cnRepo
    .ok { cnRoot with children := Keyed.update CnfNode.name repo (fun _ => cnRepo) cnRoot.children }

/-- `remove_repo` -/
def removeRepo (cnRoot : CnfNode) (repo : Text) : Except Halt CnfNode :=
  match findChild cnRoot repo with
  | none => .error (.exit 3)
  | some _ => .ok (unlinkChild cnRoot repo)

/-- The directory that a main configuration names -/
def repodirOf (cnRoot : CnfNode) : Except Halt Text :=
  match findChild cnRoot mainSection with
  | none => .ok defaultRepoLocation
  | some cnMain =>
    match findChild cnMain repodirKey with
    | none => .ok defaultRepoLocation
    | some cnRepodir =>
      match cnRepodir.value with
      | none => .error .nullPointer
      | some repodir => .ok repodir

/-- What `get` prints. -/
def settingLineOf (cnRoot : CnfNode) (repo key : Text) : Except Halt Text :=
  match findChild cnRoot repo with
  | none => .error (.exit 3)
  | some cnRepo =>
    match findChild cnRepo key with
    | none => .error (.exit 4)
    | some cnKeyval =>
      match cnKeyval.value with
      | none => .error .nullPointer
      | some value => .ok (value ++ ['\n'])

/-! ## Files -/

section Files

variable {α : Type} (codec : Codec α) (host : Host)

/-- `cnfmodule_parse_file`, with `errno` where it returns NULL -/
def parseFile (fname : Text) : ConfigProc α (Except OpenError CnfNode) := do
  match (← get).read fname with
  | none => pure (.error .noEntry)
  | some x =>
    if host.readable fname then
      match codec.parse x with
      | none => throw .nullPointer
      | some cnRoot => pure (.ok cnRoot)
    else pure (.error .other)

/-- `get_repodir` -/
def getRepodir (mainConfig : Text) : ConfigProc α Text := do
  match ← parseFile codec host mainConfig with
  | .error _ => pure defaultRepoLocation
  | .ok cnRoot => fromExcept (repodirOf cnRoot)

/-- The loop of `find_repo` over the files; it ends at a file that cannot be opened -/
def findRepoIn (repo : Text) : List Text → ConfigProc α (Option (CnfNode × Text))
  | [] => pure none
  | path :: paths => do
    match ← parseFile codec host path with
    | .error _ => pure none
    | .ok cnRoot =>
      match findChild cnRoot repo with
      | some _ => pure (some (cnRoot, path))
      | none => findRepoIn repo paths

/-- `find_repo` -/
def findRepo (repodir repo : Text) : ConfigProc α (Option (CnfNode × Text)) := do
  match host.glob (repoPattern repodir) (← get).paths with
  | none => pure none
  | some paths => findRepoIn codec host repo paths

/-- `get_repo_root` -/
def getRepoRoot (mainConfig repo : Text) : ConfigProc α (CnfNode × Text) := do
  if repo = mainSection then
    match ← parseFile codec host mainConfig with
    | .error _ => throw (.exit 2)
    | .ok cnRoot => pure (cnRoot, mainConfig)
  else
    let repodir ← getRepodir codec host mainConfig
    match ← findRepo codec host repodir repo with
    | none => throw (.exit 3)
    | some found => pure found

/-- `write_file`, and the exit where it fails -/
def writeFile (cnRoot : CnfNode) (filename : Text) : ConfigProc α Unit := do
  let buf := tmpName filename
  if host.writable buf then
    modify fun files => files.write buf (codec.unparse cnRoot)
    if host.renames buf filename then modify fun files => files.rename buf filename
    else throw (.exit 2)
  else throw (.exit 2)

/-- What `removerepo` does with the file, which is removed when no line is left -/
def storeOrUnlink (cnRoot : CnfNode) (filename : Text) : ConfigProc α Unit :=
  if cnRoot.children ≠ [] then writeFile codec host cnRoot filename
  else if host.unlinks filename then modify fun files => files.remove filename
  else throw (.exit 2)

/-! ## Actions -/

variable (options : ConfigOptions)

/-- `edit` -/
def editAction (repo : Text) (kv : List Text) : ConfigProc α Text := do
  let found ← getRepoRoot codec host options.mainConfig repo
  let cnRoot ← fromExcept (setKeyValues found.1 repo kv)
  writeFile codec host cnRoot found.2
  pure []

/-- The tree and the file to which `create` adds a section -/
def createTarget (repodir repo : Text) : ConfigProc α (CnfNode × Text) := do
  match options.repoConfig with
  | none => pure (createCnfnode "(root)".toList, repoFile repodir repo)
  | some repoConfig =>
    match ← parseFile codec host repoConfig with
    | .ok cnRoot => pure (cnRoot, repoConfig)
    | .error .noEntry => pure (createCnfnode "(root)".toList, repoConfig)
    | .error .other => throw (.exit 2)

/-- `create` -/
def createAction (repo : Text) (kv : List Text) : ConfigProc α Text := do
  if repo = mainSection then throw (.exit 1)
  else
    let repodir ← getRepodir codec host options.mainConfig
    match ← findRepo codec host repodir repo with
    | some _ => throw (.exit 5)
    | none =>
      let target ← createTarget codec host options repodir repo
      let cnRoot ← fromExcept (setKeyValues (appendNode target.1 (createCnfnode repo)) repo kv)
      writeFile codec host cnRoot target.2
      pure []

/-- `get` -/
def getAction (repo key : Text) : ConfigProc α Text := do
  let found ← getRepoRoot codec host options.mainConfig repo
  fromExcept (settingLineOf found.1 repo key)

/-- `remove` -/
def removeAction (repo : Text) (keys : List Text) : ConfigProc α Text := do
  let found ← getRepoRoot codec host options.mainConfig repo
  let cnRoot ← fromExcept (removeKeys found.1 repo keys)
  writeFile codec host cnRoot found.2
  pure []

/-- `removerepo` -/
def removerepoAction (repo : Text) : ConfigProc α Text := do
  let found ← getRepoRoot codec host options.mainConfig repo
  let cnRoot ← fromExcept (removeRepo found.1 repo)
  storeOrUnlink codec host cnRoot found.2
  pure []

/-- `dump` without `--json` -/
def dumpAction (repo : Text) : ConfigProc α Text := do
  let found ← getRepoRoot codec host options.mainConfig repo
  pure (unparseIni found.1)

/-- `main` behind the options -/
def configMain : List Text → ConfigProc α Text
  | [] => pure []
  | [_] => throw (.exit 1)
  | action :: repo :: args =>
    if action = "removerepo".toList then removerepoAction codec host options repo
    else if action = "dump".toList then dumpAction codec host options repo
    else
      match args with
      | [] => throw (.exit 1)
      | arg :: _ =>
        if action = "edit".toList then editAction codec host options repo args
        else if action = "create".toList then createAction codec host options repo args
        else if action = "get".toList then getAction codec host options repo arg
        else if action = "remove".toList then removeAction codec host options repo args
        else throw (.exit 1)

end Files

end Tdnf.Llconf
