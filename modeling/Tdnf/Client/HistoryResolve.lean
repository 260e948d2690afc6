import Tdnf.Client.HistoryCommand
import Tdnf.Common.Strings
import Tdnf.Solv.Sack

/-!
# Resolving a history command

`TDNFHistoryResolve` turns the package delta of a rollback, undo or redo into
goals, and looks at the flags delta if there is nothing to do for packages. The
flags delta is NULL as long as no auto flag was ever written.
-/

namespace Tdnf.Client

open History Relational Procedure PathText Common Solv

/-- The lists of `TDNF_SOLVED_PKG_INFO`; an empty one is NULL. -/
structure SolvedLists where
  pPkgsToInstall : List ℕ
  pPkgsToUpgrade : List ℕ
  pPkgsToDowngrade : List ℕ
  pPkgsToRemove : List ℕ
  pPkgsUnNeeded : List ℕ
  pPkgsToReinstall : List ℕ
  pPkgsObsoleted : List ℕ
deriving DecidableEq, Repr

/-- `nNeedAction` -/
def SolvedLists.needAction (info : SolvedLists) : Bool :=
  info.pPkgsToInstall ≠ [] || info.pPkgsToUpgrade ≠ [] || info.pPkgsToDowngrade ≠ [] ||
    info.pPkgsToRemove ≠ [] || info.pPkgsUnNeeded ≠ [] || info.pPkgsToReinstall ≠ [] ||
    info.pPkgsObsoleted ≠ []

/-- What `TDNFHistoryResolve` calls besides the history module. -/
structure ResolveHost where
  /-- `TDNFRefresh` -/
  refresh : Except TdnfError Unit
  /-- `rpmtsCreate` returns a transaction set -/
  tsCreated : Bool
  /-- `rpmtsOpenDB` succeeds -/
  dbOpened : Bool
  /-- `rpmtsSetRootDir` succeeds -/
  rootDirSet : Bool
  /-- `TDNFIsFileOrSymlink` of the history database -/
  historyExists : Except TdnfError Bool
  /-- `TDNFUtilsMakeDirs` of the directory of the history database -/
  makeDirs : Except TdnfError Unit
  sack : Sack
  /-- `TDNFHistoryGoal` -/
  historyGoal : List ℕ → List ℕ → Except TdnfError SolvedLists

/-- `TDNFGetHistoryCtx` up to the creation of the context -/
def ResolveHost.prepareHistory (host : ResolveHost) (nMustExist : Bool) :
    Except TdnfError Unit := do
  if nMustExist then
    let nExists ← host.historyExists
    if nExists then pure () else throw .historyNodb
  match host.makeDirs with
  | .ok _ => pure ()
  | .error e => if e = .alreadyExists then pure () else throw e

/-- `TDNFHistoryResolve` before `history_sync` -/
def ResolveHost.prepare (host : ResolveHost) (args : HistoryArgs) : Except TdnfError Unit := do
  if argsValid args then pure () else throw .invalidParameter
  -- no need to refresh cache when initializing db
  if args.nCommand ≠ .init then host.refresh
  if host.tsCreated then pure () else throw .rpmtsCreateFailed
  if host.dbOpened then pure () else throw .rpmtsOpendbFailed
  if host.rootDirSet then pure () else throw .rpmtsBadRootDir
  host.prepareHistory (args.nCommand ≠ .init)

/-- `history_get_nevra`, in the map of `history_nevra_map` -/
def historyGetNevra (rpms : AutoTable String) (id : ℕ) : Option Text :=
  (rpms.rows.find? fun r => r.1 == id).map fun r => r.2.toList

/-- The queues and the names that were not found. -/
structure ResolveQueues where
  qInstall : List ℕ
  qErase : List ℕ
  ppszPkgsNotResolved : List Text

def isPubkey (nevra : Text) : Bool := "gpg-pubkey-".toList.isPrefixOf nevra

/-- One round of the loop over the added packages -/
def resolveAdded (sack : Sack) (rpms : AutoTable String) (q : ResolveQueues) (id : ℕ) :
    Except TdnfError ResolveQueues :=
  match historyGetNevra rpms id with
  | none => throw .historyError
  | some pszPkgName =>
    if isPubkey pszPkgName then return q
    else do
      let qResult ← findSolvablesByNevraStr sack pszPkgName false
      match qResult with
      | [] =>
        -- `TDNFAddNotResolved`
        let name ← allocateString pszPkgName
        return { q with ppszPkgsNotResolved := q.ppszPkgsNotResolved ++ [name] }
      | p :: _ => do
        -- find if pkg is already installed
        let qInstalled ← findSolvablesByNevraStr sack pszPkgName true
        if qInstalled = [] then return { q with qInstall := q.qInstall ++ [p] } else return q

/-- One round of the loop over the removed packages -/
def resolveRemoved (sack : Sack) (rpms : AutoTable String) (q : ResolveQueues) (id : ℕ) :
    Except TdnfError ResolveQueues :=
  match historyGetNevra rpms id with
  | none => throw .historyError
  | some pszPkgName =>
    if isPubkey pszPkgName then return q
    else do
      let found ← findSolvablesByNevraStr sack pszPkgName true
      return { q with qErase := q.qErase ++ found }

/-- The package part of `TDNFHistoryResolve`: whether any package is to be changed -/
def resolvePackages (host : ResolveHost) (db : Db) (hd : HistoryDelta) :
    Except TdnfError Bool :=
  match db.rpms with
  | none => throw .historyError
  | some rpms => do
    let q ← hd.addedIds.foldlM (resolveAdded host.sack rpms) ⟨[], [], []⟩
    let q ← hd.removedIds.foldlM (resolveRemoved host.sack rpms) q
    let info ← host.historyGoal q.qInstall q.qErase
    return info.needAction

/-- `TDNFHistoryResolve` -/
def tdnfHistoryResolve (host : ResolveHost) (args : HistoryArgs) (rpmdb : RpmDb) (now : ℤ)
    (db : Db) : Resolved :=
  match host.prepare args with
  | .error e => .error e
  | .ok _ =>
    match (historySync rpmdb now).run (createHistoryCtx db) with
    | .error _ _ => .error .historyError
    | .ok _ ctx => resolveSynced args (resolvePackages host ctx.db.view) ctx

/-- Nothing is to be done for packages, so that the flags delta is looked at. -/
def NothingToDo (host : ResolveHost) (args : HistoryArgs) (rpmdb : RpmDb) (now : ℤ) (db : Db) :
    Prop :=
  host.prepare args = .ok () ∧
    ∃ ctx hd, (historySync rpmdb now).run (createHistoryCtx db) = .ok () ctx ∧
      commandDelta args ctx = some hd ∧ resolvePackages host ctx.db.view hd = .ok false

section Safety

variable {host : ResolveHost} {args : HistoryArgs} {db : Db} {now : ℤ} {ctx : HistoryCtx}

/-- The flags delta exists where the name table does. -/
theorem dbGetFlagsDelta_isSome (hflags : FlagStore db) (current : ℕ) (first last : ℤ) :
    (dbGetFlagsDelta db current first last).isSome = db.names.isSome := by
  rw [dbGetFlagsDelta]
  cases hnames : db.names with
  | none => rfl
  | some names =>
      have htables := hflags.tables
      rw [hnames] at htables
      obtain ⟨flags, hset⟩ := Option.isSome_iff_exists.mp htables.symm
      simp only [flagsDelta_eq hset]
      rfl

theorem commandFlagsDelta_isSome (hflags : FlagStore db) (current : ℕ) {hd : HistoryDelta}
    (hdelta : commandDelta args ctx = some hd) :
    (commandFlagsDelta args db current).isSome = db.names.isSome := by
  obtain ⟨command, first, last⟩ := args
  cases command with
  | list => cases hdelta
  | init => cases hdelta
  | rollback => exact dbGetFlagsDelta_isSome hflags _ _ _
  | undo => exact dbGetFlagsDelta_isSome hflags _ _ _
  | redo => exact dbGetFlagsDelta_isSome hflags _ _ _

/-- Where a NULL flags delta is read on a synced context. -/
theorem resolveSynced_null_iff {goal : HistoryDelta → Except TdnfError Bool} :
    resolveSynced args goal ctx = .nullPointer ↔
      (∃ hd, commandDelta args ctx = some hd ∧ goal hd = .ok false) ∧
        commandFlagsDelta args ctx.db.view ctx.transId = none := by
  obtain ⟨command, first, last⟩ := args
  cases hdelta : commandDelta ⟨command, first, last⟩ ctx with
  | none => cases command <;> simp [resolveSynced, hdelta]
  | some hd =>
      cases command with
      | list => cases hdelta
      | init => cases hdelta
      | _ =>
          cases hgoal : goal hd with
          | error e => simp [resolveSynced, hdelta, hgoal]
          | ok nNeedAction =>
              cases nNeedAction with
              | true => simp [resolveSynced, hdelta, hgoal]
              | false =>
                  cases hflags : commandFlagsDelta _ ctx.db.view ctx.transId with
                  | none => simp [resolveSynced, hdelta, hgoal, hflags]
                  | some hfd => simp [resolveSynced, hdelta, hgoal, hflags]

/-- In a reachable world NULL is read exactly where nothing is to be done for packages and no
auto flag was ever written. -/
theorem historyResolve_null_iff {rpm : Set RpmDb} {w : World} (hrpm : RpmContract rpm)
    (h : Reachable rpm w) (host : ResolveHost) (args : HistoryArgs) (now : ℤ) :
    tdnfHistoryResolve host args w.rpmdb now w.db ≠ .nullPointer ↔
      w.db.names.isSome ∨ ¬ NothingToDo host args w.rpmdb now w.db := by
  have hinv := inv_of_reachable hrpm h
  obtain ⟨ctx, hsync, hdone⟩ := sync_done hinv now
  have hflags : FlagStore ctx.db.view := hinv.flags.congr ⟨hdone.names, hdone.flagSet⟩
  have hnull : tdnfHistoryResolve host args w.rpmdb now w.db = .nullPointer ↔
      w.db.names.isSome = false ∧ NothingToDo host args w.rpmdb now w.db := by
    rw [tdnfHistoryResolve, hsync, NothingToDo]
    cases hprepare : host.prepare args with
    | error e => simp
    | ok _ =>
        rw [resolveSynced_null_iff]
        constructor
        · rintro ⟨⟨hd, hdelta, hgoal⟩, hnone⟩
          refine ⟨?_, rfl, ctx, hd, hsync, hdelta, hgoal⟩
          rw [← hdone.names, ← commandFlagsDelta_isSome hflags ctx.transId hdelta, hnone]
          rfl
        · rintro ⟨hnames, -, ctx', hd, hsync', hdelta, hgoal⟩
          cases hsync.symm.trans hsync'
          refine ⟨⟨hd, hdelta, hgoal⟩, ?_⟩
          rw [← hdone.names, ← commandFlagsDelta_isSome hflags ctx.transId hdelta] at hnames
          simpa using hnames
  rw [Ne, hnull, not_and_or, Bool.not_eq_false]

/-- A pool with the two repositories that always exist, without packages. -/
def emptySack : Sack where
  repos := ownRepos
  installed := 0
  ids := []
  solvable := fun _ => ⟨[], [], [], 0⟩
  nodup := List.nodup_nil
  owned := by simp
  system := ownRepos_system
  cmdline := ownRepos_cmdline

/-- A system on which the history database exists and the solver finds nothing to do. -/
def nothingToDo : ResolveHost where
  refresh := .ok ()
  tsCreated := true
  dbOpened := true
  rootDirSet := true
  historyExists := .ok true
  makeDirs := .ok ()
  sack := emptySack
  historyGoal := fun _ _ => .ok ⟨[], [], [], [], [], [], []⟩

theorem historyResolve_null_iff_firstSync :
    tdnfHistoryResolve nothingToDo ⟨.rollback, 0, 1⟩ ⟨["a-1-1.x86_64"], "c"⟩ 0
        (firstSync ⟨["a-1-1.x86_64"], "c"⟩ 0).db ≠ .nullPointer ↔
      (firstSync ⟨["a-1-1.x86_64"], "c"⟩ 0).db.names.isSome ∨
        ¬ NothingToDo nothingToDo ⟨.rollback, 0, 1⟩ ⟨["a-1-1.x86_64"], "c"⟩ 0
          (firstSync ⟨["a-1-1.x86_64"], "c"⟩ 0).db :=
  historyResolve_null_iff (rpmContract_singleton (by decide))
    (reachable_firstSync (Set.mem_singleton _) 0) nothingToDo ⟨.rollback, 0, 1⟩ 0

/-- Rolling back to the only transaction of a history without auto flags. -/
theorem rollback_reads_null :
    Reachable {⟨["a-1-1.x86_64"], "c"⟩} (firstSync ⟨["a-1-1.x86_64"], "c"⟩ 0) ∧
      argsValid ⟨.rollback, 0, 1⟩ = true ∧
      tdnfHistoryResolve nothingToDo ⟨.rollback, 0, 1⟩ ⟨["a-1-1.x86_64"], "c"⟩ 0
        (firstSync ⟨["a-1-1.x86_64"], "c"⟩ 0).db = .nullPointer :=
  ⟨reachable_firstSync (Set.mem_singleton _) 0, rfl, rfl⟩

end Safety

end Tdnf.Client
