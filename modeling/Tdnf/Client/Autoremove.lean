import Tdnf.Client.Considered
import Tdnf.Client.FlagsOverTime
import Tdnf.Client.Goal
import Tdnf.Client.Resolve

/-!
# Removing what nobody needs

Packages that came as dependencies are removed again when no installed package
depends on them any more. Which packages came as dependencies is in the auto flags;
the others are protected by a job of their own whenever packages may be erased.
-/

namespace Tdnf.Client

open History Procedure Solv PathText Common Considered

/-- The kinds of dependencies in `allDepKeys` -/
inductive DepKey where
  | requires
  | recommends
  | suggests
  | supplements
  | enhances
deriving DecidableEq, Repr

def allDepKeys : List DepKey := [.requires, .recommends, .suggests, .supplements, .enhances]

/-- What libsolv tells about the packages. -/
structure DepHost where
  /-- `solvable_matchesdep` -/
  matchesDep : ℕ → DepKey → ℕ → Bool
  /-- the id of a name in the pool -/
  nameId : String → ℕ
  /-- `SolvGetFileQueueFromId` -/
  fileQueue : ℕ → Except TdnfError (List ℕ)
  /-- `solvable_lookup_deparray` of SOLVABLE_PROVIDES -/
  provides : ℕ → List ℕ

theorem selects_userinstalled : (solverSolvable ||| solverUserinstalled) &&& solverSelectMask ∈
    [solverSolvable, solverSolvableName, solverSolvableAll] := by decide

theorem selects_erase : (solverSolvable ||| solverErase) &&& solverSelectMask ∈
    [solverSolvable, solverSolvableName, solverSolvableAll] := by decide

theorem selects_install : (solverSolvable ||| solverInstall) &&& solverSelectMask ∈
    [solverSolvable, solverSolvableName, solverSolvableAll] := by decide

section Code

variable (host : DepHost) (pool : Pool)

/-- An installed package besides `p` depends on one of the ids. -/
def neededByOther (p : ℕ) (deps : List ℕ) : Bool :=
  pool.installedSolvables.any fun q => q != p && deps.any fun dep =>
    allDepKeys.any fun key => host.matchesDep q key dep

/-- `SolvIdIsOrphaned` -/
def solvIdIsOrphaned (p : ℕ) : Except TdnfError Bool :=
  -- deps are names, not solvables
  if neededByOther host pool p [host.nameId (pool.name p)] then .ok false
  else
    match host.fileQueue p with
    | .error e => .error e
    | .ok qFiles =>
      if neededByOther host pool p qFiles then .ok false
      else .ok (!neededByOther host pool p (host.provides p))

/-- `history_get_auto_flag`, any return code being ERROR_TDNF_HISTORY_ERROR -/
def autoFlag (ctx : HistoryCtx) (name : String) : Except TdnfError ℤ :=
  match (historyGetAutoFlag name).run ctx with
  | .ok value _ => .ok value
  | .error _ _ => .error .historyError

/-- The loop of `SolvGetAutoInstalledOrphans` over the remaining packages. -/
def orphansLoop (ctx : HistoryCtx) : List ℕ → Except TdnfError (List ℕ)
  | [] => .ok []
  | p :: rest => do
    let nIsAuto ← autoFlag ctx (pool.name p)
    if nIsAuto = 0 then orphansLoop ctx rest
    else do
      let nIsOrphan ← solvIdIsOrphaned host pool p
      let queue ← orphansLoop ctx rest
      return if nIsOrphan then p :: queue else queue

/-- `SolvGetAutoInstalledOrphans` -/
def solvGetAutoInstalledOrphans (ctx : HistoryCtx) : Except TdnfError (List ℕ) :=
  orphansLoop host pool ctx pool.installedSolvables

/-- The loop of `SolvAddUserInstalledToJobs` over the remaining packages; the jobs that were
pushed before an error stay. -/
def userInstalledLoop (ctx : HistoryCtx) : List Job → List ℕ → List Job
  | jobs, [] => jobs
  | jobs, p :: rest =>
    match autoFlag ctx (pool.name p) with
    | .error _ => jobs
    | .ok nFlag =>
      if nFlag = 0 then
        userInstalledLoop ctx
          (jobs ++ [⟨solverSolvable ||| solverUserinstalled, p, selects_userinstalled⟩]) rest
      else userInstalledLoop ctx jobs rest

/-- `TDNFAddUserInstalledToJobs`; `TDNFGoal` does not look at its result. -/
def addUserInstalledToJobs (around : Surroundings) (file : Option Db) (jobs : List Job) :
    List Job :=
  match around.prepareHistory true file.isSome with
  | .error _ => jobs
  | .ok _ =>
    userInstalledLoop pool (createHistoryCtx (file.getD Db.fresh)) jobs pool.installedSolvables

/-- `TDNFGetAutoInstalledOrphans` -/
def getAutoInstalledOrphans (around : Surroundings) (file : Option Db) :
    Except TdnfError (List ℕ) := do
  around.prepareHistory true file.isSome
  solvGetAutoInstalledOrphans host pool (createHistoryCtx (file.getD Db.fresh))

variable (fnmatch : Text → Text → Bool)

/-- A name matches one of the excludes. -/
def excluded (ppszExcludes : List Text) (name : String) : Bool :=
  ppszExcludes.any fun pszExclude =>
    if isGlob pszExclude then fnmatch pszExclude name.toList else name.toList == pszExclude

/-- `TDNFAddGoal`; `TDNFGoal` does not look at its result, and the queue is as it was if there
is an error. -/
def addGoal (nAlterType : AlterType) (ppszExcludes : List Text) (jobs : List Job) (dwId : ℕ) :
    List Job :=
  if dwId = 0 then jobs
  else if excluded fnmatch ppszExcludes (pool.name dwId) then jobs
  else
    match nAlterType with
    | .erase | .autoErase | .autoEraseAll => solvAddPkgEraseJob jobs dwId
    | .downgradeAll | .downgrade | .reinstall | .install | .upgrade =>
      solvAddPkgInstallJob jobs dwId
    | _ => jobs

/-- The jobs of `TDNFGoal` for the queue of packages. -/
def queueJobs (nAlterType : AlterType) (ppszExcludes : List Text) (pQueuePkgList : List ℕ) :
    Except TdnfError (List Job) :=
  match nAlterType with
  | .upgradeAll => .ok (solvAddUpgradeAllJob [])
  | .distroSync => .ok (solvAddDistUpgradeJob [])
  | _ =>
    if pQueuePkgList = [] then .error .alreadyInstalled
    else .ok (pQueuePkgList.foldl (addGoal pool fnmatch nAlterType ppszExcludes) [])

/-- `nAllowErasing` of `TDNFGoal` -/
def allowsErasing (nAllowErasing : Bool) (nAlterType : AlterType) : Bool :=
  nAllowErasing || nAlterType == .erase || nAlterType == .autoErase || nAlterType == .autoEraseAll

/-- The jobs that `TDNFGoal` hands to `TDNFSolv`. -/
def goalJobs (around : Surroundings) (file : Option Db) (nAllowErasing : Bool)
    (nAlterType : AlterType) (ppszExcludes : List Text) (pQueuePkgList : List ℕ) :
    Except TdnfError (List Job) := do
  let jobs ← queueJobs pool fnmatch nAlterType ppszExcludes pQueuePkgList
  return if allowsErasing nAllowErasing nAlterType then
    addUserInstalledToJobs pool around file jobs else jobs

end Code

/-! ## Which packages are needed -/

section Needs

variable (host : DepHost) (pool : Pool)

/-- What a package is depended on by: its name, its files and what it provides. -/
def depIds (p : ℕ) : List ℕ :=
  host.nameId (pool.name p) :: ((host.fileQueue p).toOption.getD [] ++ host.provides p)

/-- `q` depends on another package `p`. -/
def Needs (q p : ℕ) : Prop :=
  q ≠ p ∧ ∃ dep ∈ depIds host pool p, ∃ key, host.matchesDep q key dep = true

/-- No other installed package depends on `p`. -/
def Unneeded (p : ℕ) : Prop := ∀ q ∈ pool.installedSolvables, ¬ Needs host pool q p

variable {host pool} {p : ℕ}

theorem mem_allDepKeys (key : DepKey) : key ∈ allDepKeys := by
  cases key <;> decide

theorem neededByOther_iff (deps : List ℕ) : neededByOther host pool p deps = true ↔
    ∃ q ∈ pool.installedSolvables, q ≠ p ∧ ∃ dep ∈ deps, ∃ key,
      host.matchesDep q key dep = true := by
  simp [neededByOther, mem_allDepKeys]

/-- The three loops look for a package that needs `p`. -/
theorem solvIdIsOrphaned_spec {qFiles : List ℕ} (h : host.fileQueue p = .ok qFiles) :
    ∃ nIsOrphan, solvIdIsOrphaned host pool p = .ok nIsOrphan ∧
      (nIsOrphan = true ↔ Unneeded host pool p) := by
  have hneeded : ¬ Unneeded host pool p ↔
      neededByOther host pool p [host.nameId (pool.name p)] = true ∨
        neededByOther host pool p qFiles = true ∨
        neededByOther host pool p (host.provides p) = true := by
    simp only [Unneeded, not_forall, not_not, exists_prop, Needs, depIds, h, Except.toOption,
      Option.getD_some, neededByOther_iff, List.mem_cons, List.mem_append, List.not_mem_nil,
      or_false]
    constructor
    · rintro ⟨q, hq, hne, dep, hdep | hdep | hdep, hkey⟩
      · exact .inl ⟨q, hq, hne, dep, hdep, hkey⟩
      · exact .inr (.inl ⟨q, hq, hne, dep, hdep, hkey⟩)
      · exact .inr (.inr ⟨q, hq, hne, dep, hdep, hkey⟩)
    · rintro (⟨q, hq, hne, dep, hdep, hkey⟩ | ⟨q, hq, hne, dep, hdep, hkey⟩ |
        ⟨q, hq, hne, dep, hdep, hkey⟩)
      · exact ⟨q, hq, hne, dep, .inl hdep, hkey⟩
      · exact ⟨q, hq, hne, dep, .inr (.inl hdep), hkey⟩
      · exact ⟨q, hq, hne, dep, .inr (.inr hdep), hkey⟩
  rw [solvIdIsOrphaned, h]
  by_cases hname : neededByOther host pool p [host.nameId (pool.name p)] = true
  · exact ⟨false, if_pos hname, iff_of_false Bool.false_ne_true (hneeded.mpr (.inl hname))⟩
  · rw [if_neg hname]
    by_cases hfile : neededByOther host pool p qFiles = true
    · refine ⟨false, if_pos hfile, iff_of_false Bool.false_ne_true ?_⟩
      exact hneeded.mpr (.inr (.inl hfile))
    · refine ⟨_, if_neg hfile, ?_⟩
      have hrest := not_congr hneeded
      rw [not_not] at hrest
      simp [hrest, hname, hfile]

end Needs

/-! ## The queue of a run -/

section Queue

variable {host : DepHost} {pool : Pool} {ctx : HistoryCtx} {flags : String → ℤ}

/-- The lists of files of the installed packages can be read. -/
def FilesRead (host : DepHost) (pool : Pool) : Prop :=
  ∀ p ∈ pool.installedSolvables, ∃ qFiles, host.fileQueue p = .ok qFiles

theorem orphansLoop_spec (hflags : ∀ name, autoFlag ctx name = .ok (flags name))
    {ids : List ℕ} (hfiles : ∀ p ∈ ids, ∃ qFiles, host.fileQueue p = .ok qFiles) :
    ∃ queue, orphansLoop host pool ctx ids = .ok queue ∧
      ∀ p, p ∈ queue ↔ p ∈ ids ∧ flags (pool.name p) ≠ 0 ∧ Unneeded host pool p := by
  induction ids with
  | nil => exact ⟨[], rfl, by simp⟩
  | cons p rest ih =>
      rw [List.forall_mem_cons] at hfiles
      obtain ⟨⟨qFiles, hqueue⟩, hrest⟩ := hfiles
      obtain ⟨queue, hloop, hmem⟩ := ih hrest
      rw [orphansLoop, hflags]
      by_cases hzero : flags (pool.name p) = 0
      · refine ⟨queue, (if_pos hzero).trans hloop, fun q => ?_⟩
        rw [hmem, List.mem_cons]
        refine and_congr_left fun hcond => ⟨.inr, ?_⟩
        rintro (rfl | hq)
        · exact absurd hzero hcond.1
        · exact hq
      · obtain ⟨nIsOrphan, horphan, hiff⟩ : ∃ nIsOrphan, solvIdIsOrphaned host pool p =
            .ok nIsOrphan ∧ (nIsOrphan = true ↔ Unneeded host pool p) :=
          solvIdIsOrphaned_spec hqueue
        refine ⟨if nIsOrphan = true then p :: queue else queue, ?_, fun q => ?_⟩
        · have hne : (if flags (pool.name p) = 0 then orphansLoop host pool ctx rest else do
              let nIsOrphan ← solvIdIsOrphaned host pool p
              let queue ← orphansLoop host pool ctx rest
              return if nIsOrphan then p :: queue else queue) = _ := if_neg hzero
          refine hne.trans ?_
          rw [horphan, hloop]
          rfl
        · split_ifs with hcase
          · rw [List.mem_cons, hmem, List.mem_cons]
            constructor
            · rintro (rfl | ⟨hq, hcond⟩)
              · exact ⟨.inl rfl, hzero, hiff.mp hcase⟩
              · exact ⟨.inr hq, hcond⟩
            · rintro ⟨rfl | hq, hcond⟩
              · exact .inl rfl
              · exact .inr ⟨hq, hcond⟩
          · rw [hmem, List.mem_cons]
            refine and_congr_left fun hcond => ⟨.inr, ?_⟩
            rintro (rfl | hq)
            · exact absurd (hiff.mpr hcond.2) hcase
            · exact hq

/-- A new context reads the flags of the ledger. -/
theorem autoFlag_of_ledger {db : Db} {l : Ledger} (h : LedgerOf db l)
    (hnewest : l.flags.newest ≠ 0) (name : String) :
    autoFlag (createHistoryCtx db) name = .ok (l.flags.current name) := by
  have htrans : (createHistoryCtx db).transId = l.flags.newest :=
    (History.createHistoryCtx_transId db).trans h.newest
  have hread : dbGetAutoFlag (createHistoryCtx db).db.view l.flags.newest name =
      .ok (l.flags.current name) := h.flags _ name
  have hget : (historyGetAutoFlag name).run (createHistoryCtx db) =
      .ok (l.flags.current name) (createHistoryCtx db) := by
    rw [historyGetAutoFlag, run_get_bind, htrans, if_neg hnewest]
    exact readDb_run hread
  rw [autoFlag, hget]

/-- The directory of the history can be made. -/
def Surroundings.Ready (around : Surroundings) : Prop := around.prepareHistory true true = .ok ()

theorem getAutoInstalledOrphans_spec {around : Surroundings} (hready : around.Ready)
    (hfiles : FilesRead host pool) {db : Db} {l : Ledger} (h : LedgerOf db l)
    (hnewest : l.flags.newest ≠ 0) :
    ∃ queue, getAutoInstalledOrphans host pool around (some db) = .ok queue ∧
      ∀ p, p ∈ queue ↔ p ∈ pool.installedSolvables ∧ l.flags.current (pool.name p) ≠ 0 ∧
        Unneeded host pool p := by
  obtain ⟨queue, hloop, hmem⟩ := orphansLoop_spec (autoFlag_of_ledger h hnewest) hfiles
  refine ⟨queue, ?_, hmem⟩
  have hprepare : around.prepareHistory true (some db).isSome = .ok () := hready
  rw [getAutoInstalledOrphans, hprepare]
  exact hloop

/-- After any run of commands, the packages that an autoremove without names queues are the
installed ones that the ledger has as dependencies and that no other installed package
depends on. -/
theorem autoremove_queue {rpm : Set RpmDb} (hrpm : RpmContract rpm) (requests : List Request)
    (hadm : ∀ req ∈ requests, Admissible rpm req) {db : Db} {l : Ledger}
    (hdb : (historyRun requests).2 = some db) (hl : (ledgerRun requests).2 = some l)
    (hnewest : l.flags.newest ≠ 0) (host : DepHost) (pool : Pool) (hfiles : FilesRead host pool)
    (around : Surroundings) (hready : around.Ready) :
    ∃ queue, getAutoInstalledOrphans host pool around (historyRun requests).2 = .ok queue ∧
      ∀ p, p ∈ queue ↔ p ∈ pool.installedSolvables ∧ l.flags.current (pool.name p) ≠ 0 ∧
        Unneeded host pool p := by
  obtain ⟨l', hl', hof⟩ := ledger_of_run hrpm hadm hdb
  obtain rfl := Option.some.inj (hl.symm.trans hl')
  rw [hdb]
  exact getAutoInstalledOrphans_spec hready hfiles hof hnewest

/-- The packages `a` and `b` are installed. -/
def twoInstalled : Pool :=
  ⟨fun p => if p = 1 then "a" else "b", fun _ => some 0, some ⟨0, 1, 3⟩⟩

/-- No package depends on another one. -/
def independent : DepHost := ⟨fun _ _ _ => false, fun _ => 0, fun _ => .ok [], fun _ => []⟩

theorem filesRead_independent (pool : Pool) : FilesRead independent pool := fun _ _ => ⟨[], rfl⟩

theorem unneeded_independent (pool : Pool) (p : ℕ) : Unneeded independent pool p := by
  rintro q - ⟨-, dep, -, key, hkey⟩
  cases hkey

theorem autoremove_queue_pulledIn :
    ∃ queue, getAutoInstalledOrphans independent twoInstalled ⟨.ok (), .ok ()⟩
        (historyRun pulledIn).2 = .ok queue ∧ 2 ∈ queue := by
  obtain ⟨queue, hqueue, hmem⟩ := autoremove_queue rpmContract_pulledIn pulledIn
    admissible_pulledIn rfl rfl (by decide) independent twoInstalled (filesRead_independent _)
    ⟨.ok (), .ok ()⟩ rfl
  exact ⟨queue, hqueue, (hmem 2).mpr ⟨by decide, by decide, unneeded_independent _ 2⟩⟩

end Queue

/-! ## The jobs of a goal -/

section Jobs

variable {pool : Pool} {fnmatch : Text → Text → Bool} {ppszExcludes : List Text}

/-- The job that keeps an installed package. -/
def keepJob (p : ℕ) : Job := ⟨solverSolvable ||| solverUserinstalled, p, selects_userinstalled⟩

/-- The job of a package in the queue, by the command. -/
def alterJob (nAlterType : AlterType) (p : ℕ) : Option Job :=
  match nAlterType with
  | .erase | .autoErase | .autoEraseAll =>
    some ⟨solverSolvable ||| solverErase, p, selects_erase⟩
  | .downgradeAll | .downgrade | .reinstall | .install | .upgrade =>
    some ⟨solverSolvable ||| solverInstall, p, selects_install⟩
  | _ => none

/-- A package of the queue that gets a job. -/
def goalPackage (pool : Pool) (fnmatch : Text → Text → Bool) (ppszExcludes : List Text) (p : ℕ) :
    Bool := p != 0 && !excluded fnmatch ppszExcludes (pool.name p)

theorem addGoal_eq (nAlterType : AlterType) (jobs : List Job) (p : ℕ) :
    addGoal pool fnmatch nAlterType ppszExcludes jobs p = jobs ++
      if goalPackage pool fnmatch ppszExcludes p = true then (alterJob nAlterType p).toList
      else [] := by
  unfold addGoal goalPackage
  by_cases hzero : p = 0
  · simp [hzero]
  · by_cases hexcluded : excluded fnmatch ppszExcludes (pool.name p) = true
    · simp [hexcluded]
    · have hgoal : (p != 0 && !excluded fnmatch ppszExcludes (pool.name p)) = true := by
        simp [hzero, hexcluded]
      rw [if_neg hzero, if_neg hexcluded, if_pos hgoal]
      cases nAlterType with
      | upgradeAll => exact (List.append_nil jobs).symm
      | distroSync => exact (List.append_nil jobs).symm
      | obsoleted => exact (List.append_nil jobs).symm
      | _ => rfl

theorem foldl_addGoal (nAlterType : AlterType) (queue : List ℕ) (jobs : List Job) :
    queue.foldl (addGoal pool fnmatch nAlterType ppszExcludes) jobs = jobs ++
      (queue.filter (goalPackage pool fnmatch ppszExcludes)).filterMap (alterJob nAlterType) := by
  induction queue generalizing jobs with
  | nil => simp
  | cons p rest ih =>
      rw [List.foldl_cons, ih, addGoal_eq, List.filter_cons]
      split_ifs
      · rw [List.filterMap_cons]
        cases alterJob nAlterType p with
        | none => simp
        | some job => simp
      · simp

theorem userInstalledLoop_eq {ctx : HistoryCtx} {flags : String → ℤ}
    (hflags : ∀ name, autoFlag ctx name = .ok (flags name)) (ids : List ℕ) (jobs : List Job) :
    userInstalledLoop pool ctx jobs ids =
      jobs ++ (ids.filter fun p => flags (pool.name p) = 0).map keepJob := by
  induction ids generalizing jobs with
  | nil => simp [userInstalledLoop]
  | cons p rest ih =>
      rw [userInstalledLoop, hflags]
      dsimp only
      split_ifs with hzero
      · rw [ih, List.filter_cons_of_pos (by simpa using hzero), List.map_cons, List.append_assoc]
        rfl
      · rw [ih, List.filter_cons_of_neg (by simpa using hzero)]

/-- The jobs of a command that may erase packages. -/
theorem goalJobs_erasing {around : Surroundings} (hready : around.Ready) {db : Db} {l : Ledger}
    (h : LedgerOf db l) (hnewest : l.flags.newest ≠ 0) (nAllowErasing : Bool)
    {nAlterType : AlterType} (herasing : allowsErasing nAllowErasing nAlterType = true)
    {queue : List ℕ} {jobs : List Job}
    (hqueue : queueJobs pool fnmatch nAlterType ppszExcludes queue = .ok jobs) :
    goalJobs pool fnmatch around (some db) nAllowErasing nAlterType ppszExcludes queue =
      .ok (jobs ++ (pool.installedSolvables.filter fun p =>
        l.flags.current (pool.name p) = 0).map keepJob) := by
  have hprepare : around.prepareHistory true (some db).isSome = .ok () := hready
  rw [goalJobs, hqueue]
  change Except.ok _ = _
  rw [if_pos herasing, addUserInstalledToJobs, hprepare]
  exact congrArg Except.ok (userInstalledLoop_eq (autoFlag_of_ledger h hnewest) _ _)

/-- After any run of commands, an autoremove without names that finds something to remove asks the
solver to erase the packages found, unless they are excluded, and to keep every installed package
that the ledger does not have as a dependency; it asks for nothing else. -/
theorem autoremove_jobs {rpm : Set RpmDb} (hrpm : RpmContract rpm) (requests : List Request)
    (hadm : ∀ req ∈ requests, Admissible rpm req) {db : Db} {l : Ledger}
    (hdb : (historyRun requests).2 = some db) (hl : (ledgerRun requests).2 = some l)
    (hnewest : l.flags.newest ≠ 0) (host : DepHost) (pool : Pool) (hfiles : FilesRead host pool)
    (around : Surroundings) (hready : around.Ready) (fnmatch : Text → Text → Bool)
    (ppszExcludes : List Text) (nAllowErasing : Bool)
    (hsome : ∃ p ∈ pool.installedSolvables, l.flags.current (pool.name p) ≠ 0 ∧
      Unneeded host pool p) :
    ∃ queue jobs, getAutoInstalledOrphans host pool around (historyRun requests).2 = .ok queue ∧
      goalJobs pool fnmatch around (historyRun requests).2 nAllowErasing .autoEraseAll
        ppszExcludes queue = .ok jobs ∧
      ∀ job, job ∈ jobs ↔
        (∃ p ∈ pool.installedSolvables, (l.flags.current (pool.name p) ≠ 0 ∧
            Unneeded host pool p ∧ p ≠ 0 ∧ excluded fnmatch ppszExcludes (pool.name p) = false) ∧
          job = ⟨solverSolvable ||| solverErase, p, by decide⟩) ∨
        ∃ p ∈ pool.installedSolvables, l.flags.current (pool.name p) = 0 ∧ job = keepJob p := by
  obtain ⟨l', hl', hof⟩ := ledger_of_run hrpm hadm hdb
  obtain rfl := Option.some.inj (hl.symm.trans hl')
  obtain ⟨queue, hqueue, hmem⟩ : ∃ queue, getAutoInstalledOrphans host pool around (some db) =
      .ok queue ∧ ∀ p, p ∈ queue ↔ p ∈ pool.installedSolvables ∧
        l.flags.current (pool.name p) ≠ 0 ∧ Unneeded host pool p :=
    getAutoInstalledOrphans_spec hready hfiles hof hnewest
  obtain ⟨p, hp, hcandidate⟩ := hsome
  have hne : queue ≠ [] := List.ne_nil_of_mem ((hmem p).mpr ⟨hp, hcandidate⟩)
  have hjobs : queueJobs pool fnmatch .autoEraseAll ppszExcludes queue =
      .ok (queue.foldl (addGoal pool fnmatch .autoEraseAll ppszExcludes) []) := if_neg hne
  have hkept := goalJobs_erasing hready hof hnewest nAllowErasing (by simp [allowsErasing]) hjobs
  rw [hdb]
  refine ⟨queue, _, hqueue, hkept, fun job => ?_⟩
  rw [foldl_addGoal, List.nil_append, List.mem_append]
  refine or_congr ?_ ?_
  · simp only [List.mem_filterMap, List.mem_filter, hmem, goalPackage, alterJob, Bool.and_eq_true,
      bne_iff_ne, Bool.not_eq_true', Option.some.injEq]
    constructor
    · rintro ⟨p, ⟨⟨hp, hflag, hunneeded⟩, hzero, hkeep⟩, rfl⟩
      exact ⟨p, hp, ⟨hflag, hunneeded, hzero, hkeep⟩, rfl⟩
    · rintro ⟨p, hp, ⟨hflag, hunneeded, hzero, hkeep⟩, rfl⟩
      exact ⟨p, ⟨⟨hp, hflag, hunneeded⟩, hzero, hkeep⟩, rfl⟩
  · simp only [List.mem_map, List.mem_filter, decide_eq_true_eq]
    constructor
    · rintro ⟨p, ⟨hp, hflag⟩, rfl⟩
      exact ⟨p, hp, hflag, rfl⟩
    · rintro ⟨p, hp, hflag, rfl⟩
      exact ⟨p, ⟨hp, hflag⟩, rfl⟩

theorem autoremove_jobs_pulledIn :
    ∃ queue jobs, getAutoInstalledOrphans independent twoInstalled ⟨.ok (), .ok ()⟩
        (historyRun pulledIn).2 = .ok queue ∧
      goalJobs twoInstalled (fun _ _ => false) ⟨.ok (), .ok ()⟩ (historyRun pulledIn).2 false
        .autoEraseAll [] queue = .ok jobs ∧ keepJob 1 ∈ jobs := by
  obtain ⟨queue, jobs, hqueue, hjobs, hmem⟩ := autoremove_jobs rpmContract_pulledIn pulledIn
    admissible_pulledIn rfl rfl (by decide) independent twoInstalled (filesRead_independent _)
    ⟨.ok (), .ok ()⟩ rfl (fun _ _ => false) [] false
    ⟨2, by decide, by decide, unneeded_independent _ 2⟩
  exact ⟨queue, jobs, hqueue, hjobs, (hmem _).mpr (.inr ⟨1, by decide, by decide, rfl⟩)⟩

end Jobs

/-! ## Autoremove again and again -/

section Rounds

variable (host : DepHost)

/-- The pool after packages were erased. -/
def erased (pool : Pool) (removed : List ℕ) : Pool :=
  { pool with repo := fun p => if p ∈ removed then none else pool.repo p }

/-- What there is between two commands: the requests so far, and the pool. -/
structure Machine where
  requests : List Request
  pool : Pool

/-- An autoremove: it asks for the packages of its queue to be erased, the solver and rpm
erase some of them and install nothing, and the run is recorded. -/
inductive Autoremoves (rpm : Set RpmDb) : Machine → Machine → Prop where
  | mk (m : Machine) (around : Surroundings) (queue removed : List ℕ) (req : Request) (exec : Exec)
      (hqueue : getAutoInstalledOrphans host m.pool around (historyRun m.requests).2 = .ok queue)
      (hremoved : removed ⊆ queue) (hreq : Admissible rpm req)
      (hcommand : req.command = .rpmExecTransaction exec)
      (hinstalls : exec.solved.pkgsToInstall = []) :
      Autoremoves rpm m ⟨m.requests ++ [req], erased m.pool removed⟩

/-- The packages that were asked for, and what is needed for them. -/
inductive Wanted (pool : Pool) (flags : String → ℤ) : ℕ → Prop where
  | asked (p : ℕ) (hp : p ∈ pool.installedSolvables) (h : flags (pool.name p) = 0) :
      Wanted pool flags p
  | needed (q p : ℕ) (hq : Wanted pool flags q) (hp : p ∈ pool.installedSolvables)
      (h : Needs host pool q p) : Wanted pool flags p

variable {host} {pool : Pool} {removed : List ℕ}

theorem mem_erased {p : ℕ} : p ∈ (erased pool removed).installedSolvables ↔
    p ∈ pool.installedSolvables ∧ p ∉ removed := by
  rw [Pool.installedSolvables, Pool.installedSolvables, erased]
  cases pool.installed with
  | none => simp
  | some r =>
      by_cases hp : p ∈ removed
      · simp [hp]
      · simp [hp]

theorem needs_erased {q p : ℕ} : Needs host (erased pool removed) q p ↔ Needs host pool q p :=
  Iff.rfl

/-- Procedures that leave the newest flags as they are. -/
def SameFlags (l l' : Ledger) : Prop := l'.flags.current = l.flags.current

instance : Std.Refl SameFlags := ⟨fun _ => rfl⟩

instance : IsTrans Ledger SameFlags := ⟨fun _ _ _ h h' => Eq.trans h' h⟩

/-- A transaction that installs nothing changes no flag. -/
theorem sameFlags_transaction {exec : Exec} (hinstalls : exec.solved.pkgsToInstall = [])
    (rpmdb : RpmDb) :
    Evolution.Evolves SameFlags ((Command.rpmExecTransaction exec).spec rpmdb) := by
  have hrecorded : ∀ cookie, Evolution.Evolves SameFlags
      (modify (Ledger.recorded cookie) : LedgerProc) := fun cookie =>
    Evolution.evolves_modify fun l => recorded_current cookie l
  have hmarked : Evolution.Evolves SameFlags
      (modify (Ledger.marked exec.solved false) : LedgerProc) := by
    refine Evolution.evolves_modify fun l => ?_
    rw [Ledger.marked, hinstalls, Ledger.setAll_nil]
    exact refl_of SameFlags l
  refine Evolution.Evolves.ite _ (Evolution.Evolves.ite _ (Evolution.evolves_pure ()) ?_) ?_
  · cases exec.rpmRun rpmdb with
    | ok r => exact Evolution.evolves_pure ()
    | error e => exact Evolution.evolves_throw e
  · refine Evolution.Evolves.bind ((hrecorded _).bind fun _ => ?_) fun _ => hmarked
    cases exec.rpmRun rpmdb with
    | ok r => exact hrecorded _
    | error e => exact Evolution.evolves_throw e

/-- What stays as it was over autoremoves that start from a pool with these flags. -/
structure Tidied (host : DepHost) (rpm : Set RpmDb) (pool₀ : Pool) (flags : String → ℤ)
    (m : Machine) : Prop where
  admissible : ∀ req ∈ m.requests, Admissible rpm req
  ledger : ∃ l, (ledgerRun m.requests).2 = some l ∧ l.flags.newest ≠ 0 ∧ l.flags.current = flags
  name : m.pool.name = pool₀.name
  fewer : ∀ p ∈ m.pool.installedSolvables, p ∈ pool₀.installedSolvables
  wanted : ∀ p, Wanted host pool₀ flags p → p ∈ m.pool.installedSolvables
  closed : ∀ q ∈ m.pool.installedSolvables, ∀ p ∈ pool₀.installedSolvables,
    Needs host pool₀ q p → p ∈ m.pool.installedSolvables

theorem Needs.congr {pool pool' : Pool} (h : pool'.name = pool.name) {q p : ℕ} :
    Needs host pool' q p ↔ Needs host pool q p := by
  rw [Needs, Needs, depIds, depIds, h]

theorem filesRead_of_fewer {pool' : Pool} (h : FilesRead host pool)
    (hfewer : ∀ p ∈ pool'.installedSolvables, p ∈ pool.installedSolvables) :
    FilesRead host pool' := fun p hp => h p (hfewer p hp)

/-- A queue comes from a history directory that can be made. -/
theorem ready_of_queue {around : Surroundings} {db : Db} {queue : List ℕ}
    (h : getAutoInstalledOrphans host pool around (some db) = .ok queue) : around.Ready := by
  rw [getAutoInstalledOrphans] at h
  cases hprepare : around.prepareHistory true (some db).isSome with
  | ok _ => exact hprepare
  | error e =>
      rw [hprepare] at h
      cases h

/-- One autoremove. -/
theorem Tidied.step {rpm : Set RpmDb} (hrpm : RpmContract rpm) {pool₀ : Pool} {flags : String → ℤ}
    (hfiles : FilesRead host pool₀) {m m' : Machine} (h : Tidied host rpm pool₀ flags m)
    (hstep : Autoremoves host rpm m m') : Tidied host rpm pool₀ flags m' := by
  cases hstep with
  | mk around queue removed req exec hqueue hremoved hreq hcommand hinstalls =>
      obtain ⟨l, hl, hnewest, hflags⟩ := h.ledger
      obtain ⟨db, hdb, hof⟩ := file_of_run hrpm h.admissible hl
      rw [hdb] at hqueue
      -- what is removed was found to be needed by nobody
      have hfound : ∀ p ∈ removed, flags (m.pool.name p) ≠ 0 ∧ Unneeded host m.pool p := by
        obtain ⟨queue', hqueue', hmem⟩ := getAutoInstalledOrphans_spec (ready_of_queue hqueue)
          (filesRead_of_fewer hfiles h.fewer) hof hnewest
        obtain rfl := Except.ok.inj (hqueue.symm.trans hqueue')
        intro p hp
        rw [← hflags]
        exact ((hmem p).mp (hremoved hp)).2
      have hneeded : ∀ q ∈ m.pool.installedSolvables, ∀ p, Needs host pool₀ q p → p ∉ removed :=
        fun q hq p hneeds hp => (hfound p hp).2 q hq ((Needs.congr h.name).mpr hneeds)
      have hadm := admissible_concat h.admissible hreq
      refine ⟨hadm, ?_, h.name, fun p hp => h.fewer p (mem_erased.mp hp).1, ?_, ?_⟩
      · obtain ⟨l₁, hl₁, hsame⟩ :=
          perform_evolves (hcommand ▸ sameFlags_transaction hinstalls req.rpmdb) l
        obtain ⟨l₂, hl₂, hpast⟩ := perform_evolves (evolves_spec req.rpmdb req.command) l
        obtain rfl := Option.some.inj (hl₁.symm.trans hl₂)
        refine ⟨l₁, ?_, ?_, hsame.trans hflags⟩
        · rw [ledgerRun] at hl
          rw [ledgerRun, performAll_append, hl]
          exact hl₁
        · have hle := hpast.newest
          omega
      · intro p hp
        refine mem_erased.mpr ⟨h.wanted p hp, fun hmem => ?_⟩
        cases hp with
        | asked _ hp hzero =>
            refine (hfound p hmem).1 ?_
            rw [h.name]
            exact hzero
        | needed q _ hq hp hneeds => exact hneeded q (h.wanted q hq) p hneeds hmem
      · intro q hq p hp hneeds
        have hq' := (mem_erased.mp hq).1
        exact mem_erased.mpr ⟨h.closed q hq' p hp hneeds, hneeded q hq' p hneeds⟩

/-- However often packages are autoremoved: what was asked for and all that is needed for it
stays installed, and so does everything that a remaining package depends on. -/
theorem autoremoves_keep {rpm : Set RpmDb} (hrpm : RpmContract rpm) (m m' : Machine)
    (hadm : ∀ req ∈ m.requests, Admissible rpm req) {l : Ledger}
    (hl : (ledgerRun m.requests).2 = some l) (hnewest : l.flags.newest ≠ 0)
    (hfiles : FilesRead host m.pool)
    (hruns : Relation.ReflTransGen (Autoremoves host rpm) m m') :
    (∀ p, Wanted host m.pool l.flags.current p → p ∈ m'.pool.installedSolvables) ∧
      ∀ q ∈ m'.pool.installedSolvables, ∀ p ∈ m.pool.installedSolvables,
        Needs host m.pool q p → p ∈ m'.pool.installedSolvables := by
  have htidied : Tidied host rpm m.pool l.flags.current m' := by
    induction hruns with
    | refl =>
        refine ⟨hadm, ⟨l, hl, hnewest, rfl⟩, rfl, fun p hp => hp, fun p hp => ?_,
          fun q hq p hp _ => hp⟩
        cases hp with
        | asked _ hp => exact hp
        | needed _ _ _ hp => exact hp
    | tail _ hstep ih => exact ih.step hrpm hfiles hstep
  exact ⟨htidied.wanted, htidied.closed⟩

/-- The package `b` is autoremoved. -/
def bRemoved : Request :=
  ⟨⟨["a-1-1", "b-1-1"], "d"⟩, 2, ⟨.ok (), .ok ()⟩, .rpmExecTransaction
    ⟨⟨.init, 0, 0⟩, false, false, some "autoremove", ⟨[], none⟩, fun _ => .ok ⟨["a-1-1"], "c"⟩⟩⟩

theorem autoremoves_bRemoved :
    Autoremoves independent {⟨["a-1-1"], "c"⟩, ⟨["a-1-1", "b-1-1"], "d"⟩}
      ⟨pulledIn, twoInstalled⟩ ⟨pulledIn ++ [bRemoved], erased twoInstalled [2]⟩ := by
  refine .mk _ ⟨.ok (), .ok ()⟩ [2] [2] bRemoved _ rfl (List.Subset.refl _) ⟨?_, ?_⟩ rfl rfl
  · simp [bRemoved]
  · rintro exec (⟨⟨⟩⟩ | h) r hr
    · cases hr
      simp
    · cases h

theorem autoremoves_keep_pulledIn :
    ∃ m : Machine, (∃ p ∈ twoInstalled.installedSolvables, p ∉ m.pool.installedSolvables) ∧
      1 ∈ m.pool.installedSolvables := by
  obtain ⟨hwanted, -⟩ := autoremoves_keep rpmContract_pulledIn ⟨pulledIn, twoInstalled⟩
    ⟨pulledIn ++ [bRemoved], erased twoInstalled [2]⟩ admissible_pulledIn rfl (by decide)
    (filesRead_independent _) (.single autoremoves_bRemoved)
  exact ⟨_, ⟨2, by decide, by decide⟩, hwanted 1 (.asked 1 (by decide) (by decide))⟩

end Rounds

end Tdnf.Client
