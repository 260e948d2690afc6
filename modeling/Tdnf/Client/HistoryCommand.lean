import Tdnf.Common.Error
import Tdnf.History.FlagEffects

/-!
# The history commands

A rollback, undo or redo is first resolved, which decides whether there is
anything to do, and then executed. Both look at the auto flags: the first
through a preview, the second by writing them after the rpm transaction.
-/

namespace Tdnf.Client

open History Relational Procedure

/-- `HISTORY_CMD_*` -/
inductive HistoryCmd where
  | list
  | init
  | rollback
  | undo
  | redo
deriving DecidableEq, Repr

/-- `TDNF_HISTORY_ARGS` -/
structure HistoryArgs where
  nCommand : HistoryCmd
  nFrom : ℤ
  nTo : ℤ
deriving DecidableEq, Repr

/-- The sanity checks of `TDNFHistoryResolve`. -/
def argsValid (args : HistoryArgs) : Bool :=
  match args.nCommand with
  | .rollback => decide (0 < args.nTo)
  | .undo => decide (1 < args.nFrom ∧ args.nFrom ≤ args.nTo)
  | .redo => decide (1 < args.nFrom ∧ args.nFrom ≤ args.nTo)
  | .init => true
  | .list => false

/-- The package delta a command asks for. -/
def commandDelta (args : HistoryArgs) (ctx : HistoryCtx) : Option HistoryDelta :=
  match args.nCommand with
  | .rollback => historyGetDelta ctx args.nTo.toNat
  | .undo => historyGetDeltaRange ctx (args.nFrom - 1).toNat args.nTo.toNat
  | .redo => historyGetDeltaRange ctx args.nTo.toNat (args.nFrom - 1).toNat
  | _ => none

/-- The flags delta a command asks for, with the context at `current`. -/
def commandFlagsDelta (args : HistoryArgs) (db : Db) (current : ℕ) : Option HistoryFlagsDelta :=
  match args.nCommand with
  | .rollback => dbGetFlagsDelta db current current args.nTo
  | .undo => dbGetFlagsDelta db current args.nTo (args.nFrom - 1)
  | .redo => dbGetFlagsDelta db current (args.nFrom - 1) args.nTo
  | _ => none

/-- How `TDNFHistoryResolve` ends. -/
inductive Resolved where
  | error (e : TdnfError)
  /-- `hfd->count` is read although `hfd` is NULL. -/
  | nullPointer
  /-- The history was only initialised. -/
  | initialised
  | solved (nNeedAction : Bool)
deriving DecidableEq, Repr

/-- `TDNFHistoryResolve` behind `history_sync`. `goal` stands for the package resolution: it
fails or tells whether any package is to be changed. -/
def resolveSynced (args : HistoryArgs) (goal : HistoryDelta → Except TdnfError Bool)
    (ctx : HistoryCtx) : Resolved :=
  match args.nCommand with
  | .init => .initialised
  | .list => .error .invalidParameter
  | _ =>
    match commandDelta args ctx with
    | none => .error .historyError
    | some hd =>
      match goal hd with
      | .error e => .error e
      | .ok true => .solved true
      | .ok false =>
        -- if there is no action, maybe there is a flags change
        match commandFlagsDelta args ctx.db.view ctx.transId with
        | none => .nullPointer
        | some hfd => .solved (decide (0 < hfd.length))

/-- `TDNFHistoryResolve` on a new context. -/
def historyResolve (args : HistoryArgs) (goal : HistoryDelta → Except TdnfError Bool)
    (rpmdb : RpmDb) (now : ℤ) (db : Db) : Resolved :=
  if argsValid args then
    match (historySync rpmdb now).run (createHistoryCtx db) with
    | .error _ _ => .error .historyError
    | .ok _ ctx => resolveSynced args goal ctx
  else .error .invalidParameter

abbrev CmdProc (α : Type) := Proc TdnfError HistoryCtx α

/-- Any return code of the history module becomes ERROR_TDNF_HISTORY_ERROR. -/
def orHistoryError {α : Type} (x : CtxProc α) : CmdProc α := fun ctx =>
  match x.run ctx with
  | .ok a ctx' => .ok a ctx'
  | .error _ ctx' => .error .historyError ctx'

/-- The flag part of `TDNFRpmExecHistoryTransaction`. -/
def execFlags (args : HistoryArgs) : CtxProc Unit :=
  match args.nCommand with
  | .rollback => historyRestoreAutoFlags args.nTo
  | .undo => historyReplayAutoFlags args.nTo (args.nFrom - 1)
  | .redo => historyReplayAutoFlags (args.nFrom - 1) args.nTo
  | _ => pure ()

/-- The rows the flag part appends are those the preview lists. -/
theorem execFlags_rows (args : HistoryArgs) (ctx : HistoryCtx) :
    flagValues (dbAfter (execFlags args) ctx) = flagValues ctx.db.view ++
      flagRows ctx.transId ((commandFlagsDelta args ctx.db.view ctx.transId).getD []) := by
  obtain ⟨command, first, last⟩ := args
  cases command with
  | list => simp [execFlags, commandFlagsDelta, dbAfter, finalState]
  | init => simp [execFlags, commandFlagsDelta, dbAfter, finalState]
  | rollback => exact restore_rows ctx last
  | undo => exact replay_rows ctx last (first - 1)
  | redo => exact replay_rows ctx (first - 1) last

/-- The preview of a command is what the flag functions write, row by row; and when no
package is to be changed, resolving announces an action exactly if executing writes a flag. -/
theorem flags_preview (ctx : HistoryCtx) (first last t : ℤ) :
    flagValues (dbAfter (historyReplayAutoFlags first last) ctx) = flagValues ctx.db.view ++
        flagRows ctx.transId ((historyGetFlagsDelta ctx first last).getD []) ∧
      flagValues (dbAfter (historyRestoreAutoFlags t) ctx) = flagValues ctx.db.view ++
        flagRows ctx.transId ((historyGetFlagsDelta ctx ctx.transId t).getD []) ∧
      ∀ (args : HistoryArgs) (goal : HistoryDelta → Except TdnfError Bool) (hd : HistoryDelta),
        commandDelta args ctx = some hd → goal hd = .ok false →
        (resolveSynced args goal ctx = .solved true ↔
          flagValues (dbAfter (execFlags args) ctx) ≠ flagValues ctx.db.view) := by
  refine ⟨replay_rows ctx first last, restore_rows ctx t, fun args goal hd hdelta hgoal => ?_⟩
  have hrows := execFlags_rows args ctx
  have hwrites : flagValues (dbAfter (execFlags args) ctx) ≠ flagValues ctx.db.view ↔
      (commandFlagsDelta args ctx.db.view ctx.transId).getD [] ≠ [] := by
    rw [hrows]
    simp [flagRows]
  have hresolve : resolveSynced args goal ctx =
      match commandFlagsDelta args ctx.db.view ctx.transId with
      | none => .nullPointer
      | some hfd => .solved (decide (0 < hfd.length)) := by
    obtain ⟨command, first, last⟩ := args
    cases command with
    | list => cases hdelta
    | init => cases hdelta
    | _ => simp only [resolveSynced, hdelta, hgoal]
  rw [hwrites, hresolve]
  cases commandFlagsDelta args ctx.db.view ctx.transId with
  | none => simp
  | some hfd => simp [List.length_pos_iff]

theorem flags_preview_firstSync :
    ∀ s, (firstSync ⟨["a-1-1"], "c"⟩ 0).session = some s →
      (resolveSynced ⟨.rollback, 0, 1⟩ (fun _ => .ok false) s.ctx = .solved true ↔
        flagValues (dbAfter (execFlags ⟨.rollback, 0, 1⟩) s.ctx) ≠ flagValues s.ctx.db.view) := by
  rintro s ⟨rfl⟩
  exact (flags_preview _ 1 1 1).2.2 ⟨.rollback, 0, 1⟩ (fun _ => .ok false) ⟨[], []⟩ rfl rfl

/-- The parts of `TDNF_SOLVED_PKG_INFO` that marking looks at: the names in `pPkgsToInstall`
and, unless NULL, `ppszPkgsUserInstall`. -/
structure SolvedPkgInfo where
  pkgsToInstall : List String
  pkgsUserInstall : Option (List String)

/-- `nFlag` of a package: 0 where the user asked for it. -/
def SolvedPkgInfo.flag (info : SolvedPkgInfo) (name : String) : ℤ :=
  if name ∈ info.pkgsUserInstall.getD [] then 0 else 1

/-- The loop of `TDNFMarkAutoInstalled` over the remaining packages. -/
def markAutoInstalled (info : SolvedPkgInfo) (nAutoOnly : Bool) : List String → CmdProc Unit
  | [] => pure ()
  | name :: rest => do
    (if !nAutoOnly || info.flag name = 1 then
      orHistoryError (historySetAutoFlag name (info.flag name))
    else pure ())
    markAutoInstalled info nAutoOnly rest

/-- What the execution of a command depends on: the arguments, the solved packages and what
`TDNFRunTransaction` makes of the rpm database. -/
structure Exec where
  history : HistoryArgs
  nDownloadOnly : Bool
  nTestOnly : Bool
  cmdline : Option String
  solved : SolvedPkgInfo
  rpmRun : RpmDb → Except TdnfError RpmDb

/-- `TDNFRunTransaction` -/
def runTransaction (exec : Exec) (rpmdb : RpmDb) : CmdProc RpmDb :=
  match exec.rpmRun rpmdb with
  | .ok rpmdb' => pure rpmdb'
  | .error e => throw e

/-- `TDNFRunTransactionWithHistory` -/
def runTransactionWithHistory (exec : Exec) (rpmdb : RpmDb) (now : ℤ) : CmdProc Unit := do
  orHistoryError (historySync rpmdb now)
  let rpmdb' ← runTransaction exec rpmdb
  orHistoryError (historyUpdateState noFault rpmdb' now exec.cmdline)

/-- `TDNFRpmExecHistoryTransaction` on a new context. -/
def rpmExecHistoryTransaction (exec : Exec) (rpmdb : RpmDb) (now : ℤ) : CmdProc Unit := do
  if !exec.nDownloadOnly && !exec.nTestOnly then
    let transId := (← get).transId
    runTransactionWithHistory exec rpmdb now
    -- if no rpm was added or removed no transaction was added yet
    (if transId = (← get).transId then orHistoryError (historyAddTransaction now exec.cmdline)
    else markAutoInstalled exec.solved true exec.solved.pkgsToInstall)
    orHistoryError (execFlags exec.history)
  else if !exec.nDownloadOnly && exec.nTestOnly then do
    let _ ← runTransaction exec rpmdb
    pure ()
  else pure ()

end Tdnf.Client
