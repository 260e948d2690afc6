import Tdnf.Client.FlagAttribution

/-!
# The commands that open the history

A transaction is recorded and its packages are marked, a history command is
resolved and executed, packages are marked on request, and a package that was
asked for although it is there becomes user installed. Each of them opens the
history of its own, and nothing of a context outlives a command.
-/

namespace Tdnf.Client

open History Procedure

/-- The body of `TDNFRpmExecTransaction` behind `TDNFRpmCreateTS`, on a new context. -/
def rpmExecTransaction (exec : Exec) (rpmdb : RpmDb) (now : ℤ) : CmdProc Unit := do
  if !exec.nDownloadOnly then
    if !exec.nTestOnly then
      runTransactionWithHistory exec rpmdb now
      markAutoInstalled exec.solved false exec.solved.pkgsToInstall
    else
      let _ ← runTransaction exec rpmdb
      pure ()
  else pure ()

/-- `TDNFMark` behind its query, which found the packages with these names. -/
def mark (names : List String) (dwValue : ℤ) (cmdline : String) (now : ℤ) : CmdProc Unit := do
  if names = [] then throw .noMatch
  else
    -- the return code is not looked at
    let _ ← attempt (orHistoryError (historyAddTransaction now (some cmdline)))
    names.forM fun name => orHistoryError (historySetAutoFlag name dwValue)

/-- The calls of `TDNFMarkAutoInstalledSinglePkg` -/
def markAutoInstalledSinglePkg (pszPkgName : String) : CmdProc Unit :=
  orHistoryError (historySetAutoFlag pszPkgName 0)

/-- The commands, with what is given to them and what their queries found. -/
inductive Command where
  /-- `TDNFHistoryResolve`, which behind its sync only reads the history -/
  | historyResolve (args : HistoryArgs)
  | rpmExecTransaction (exec : Exec)
  | rpmExecHistoryTransaction (exec : Exec)
  | mark (names : List String) (dwValue : ℤ) (cmdline : String)
  | markAutoInstalledSinglePkg (pszPkgName : String)

namespace Command

/-- The calls of the history module and of rpm that a command makes. -/
def calls (rpmdb : RpmDb) (now : ℤ) : Command → CmdProc Unit
  | historyResolve _ => orHistoryError (historySync rpmdb now)
  | rpmExecTransaction exec => Client.rpmExecTransaction exec rpmdb now
  | rpmExecHistoryTransaction exec => Client.rpmExecHistoryTransaction exec rpmdb now
  | mark names dwValue cmdline => Client.mark names dwValue cmdline now
  | markAutoInstalledSinglePkg pszPkgName => Client.markAutoInstalledSinglePkg pszPkgName

/-- What a command checks of its arguments. -/
def checked : Command → Except TdnfError Unit
  | historyResolve args => if argsValid args then pure () else throw .invalidParameter
  | _ => pure ()

/-- Whether a command opens the history. -/
def opens : Command → Bool
  | rpmExecTransaction exec => !exec.nDownloadOnly && !exec.nTestOnly
  | rpmExecHistoryTransaction exec => !exec.nDownloadOnly && !exec.nTestOnly
  | mark names _ _ => names ≠ []
  | _ => true

/-- `nMustExist` of `TDNFGetHistoryCtx` -/
def mustExist : Command → Bool
  | historyResolve args => args.nCommand ≠ .init
  | rpmExecTransaction _ => false
  | rpmExecHistoryTransaction _ => false
  | mark _ _ _ => true
  | markAutoInstalledSinglePkg _ => true

end Command

/-- What a command does besides: all that comes before it opens the history, and
`TDNFUtilsMakeDirs` of the directory of the history file. -/
structure Surroundings where
  before : Except TdnfError Unit
  makeDirs : Except TdnfError Unit

/-- `TDNFGetHistoryCtx` up to the creation of the context -/
def Surroundings.prepareHistory (around : Surroundings) (nMustExist nExists : Bool) :
    Except TdnfError Unit := do
  if nMustExist && !nExists then throw .historyNodb
  match around.makeDirs with
  | .ok _ => pure ()
  | .error e => if e = .alreadyExists then pure () else throw e

/-- One command, with the rpm database that it finds. -/
structure Request where
  rpmdb : RpmDb
  now : ℤ
  around : Surroundings
  command : Command

/-- What a request makes of a file, given what its calls make of the content. The content of a
file that is created is `fresh`. -/
def Request.perform {σ : Type} (fresh : σ) (content : Request → σ → Except TdnfError Unit × σ)
    (req : Request) (file : Option σ) : Except TdnfError Unit × Option σ :=
  match req.command.checked, req.around.before with
  | .error e, _ => (.error e, file)
  | .ok _, .error e => (.error e, file)
  | .ok _, .ok _ =>
    if req.command.opens then
      match req.around.prepareHistory req.command.mustExist file.isSome with
      | .error e => (.error e, file)
      | .ok _ =>
        let done := content req (file.getD fresh)
        (done.1, some done.2)
    else ((content req (file.getD fresh)).1, file)

/-- Requests one after the other, with the result of each. -/
def performAll {σ : Type} (fresh : σ) (content : Request → σ → Except TdnfError Unit × σ) :
    List Request → Option σ → List (Except TdnfError Unit) × Option σ
  | [], file => ([], file)
  | req :: rest, file =>
    let done := req.perform fresh content file
    let more := performAll fresh content rest done.2
    (done.1 :: more.1, more.2)

/-- The result of a procedure and what it leaves in the state. -/
def ending {ε σ : Type} : EStateM.Result ε σ Unit → Except ε Unit × σ
  | .ok _ s => (.ok (), s)
  | .error e s => (.error e, s)

/-- The calls of a command on a new context, which is closed at its end. -/
def onNewContext (req : Request) (db : Db) : Except TdnfError Unit × Db :=
  let done := ending ((req.command.calls req.rpmdb req.now).run (createHistoryCtx db))
  (done.1, done.2.db.durable)

/-- The history file after requests that begin without one. -/
def historyRun (requests : List Request) : List (Except TdnfError Unit) × Option Db :=
  performAll Db.fresh onNewContext requests none

end Tdnf.Client
