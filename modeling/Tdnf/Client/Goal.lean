import Tdnf.Common.Error
import Tdnf.Library.Procedure
import Tdnf.Solv.Solver

/-!
# Solving without losing protected packages

Before solving, a job that erases a protected package is refused and the other
installed packages are marked as removable. After solving, every transaction is
checked again, since the solver may obsolete a protected package and since more
erase jobs are added when the limit of an install-only package is exceeded.
-/

namespace Tdnf.Client

open Solv Procedure

/-- The parts of `TDNF_CONF` that solving reads. -/
structure Conf where
  ppszProtectedPkgs : Option (List String)
  ppszInstallOnlyPkgs : Option (List String)
  nInstallOnlyLimit : ℤ
  ppszPkgLocks : Option (List String)

/-- One job for each of the names that is installed. -/
def addInstalledNameJobs (pool : Pool) (how : ℕ)
    (hhow : how &&& solverSelectMask ∈ [solverSolvable, solverSolvableName, solverSolvableAll])
    (nameId : String → ℕ) (names : Option (List String)) (jobs : List Job) : List Job :=
  jobs ++ ((names.getD []).filter fun name =>
    pool.installedSolvables.any fun p => pool.name p == name).map
      fun name => ⟨how, nameId name, hhow⟩

/-- `TDNFSolvAddInstallOnlyPkgs` -/
def solvAddInstallOnlyPkgs (conf : Conf) (pool : Pool) (nameId : String → ℕ) :
    List Job → List Job :=
  addInstalledNameJobs pool (solverSolvableName ||| solverMultiversion) (by decide) nameId
    conf.ppszInstallOnlyPkgs

/-- `TDNFSolvAddPkgLocks` -/
def solvAddPkgLocks (conf : Conf) (pool : Pool) (nameId : String → ℕ) : List Job → List Job :=
  addInstalledNameJobs pool (solverSolvableName ||| solverLock) (by decide) nameId
    conf.ppszPkgLocks

/-- The job erases a single solvable. -/
def erasesSolvable (job : Job) : Bool := job.action == solverErase && job.solvableBit

/-- The job installs a single solvable. -/
def installsSolvable (job : Job) : Bool := job.action == solverInstall && job.solvableBit

/-- Another job than the one at `j` installs the name again. -/
def reAdded (pool : Pool) (jobs : List Job) (j : ℕ) (name : String) : Bool :=
  jobs.zipIdx.any fun (job, i) => i != j && installsSolvable job && pool.name job.what == name

/-- The job for an installed solvable. -/
def protectJob (pool : Pool) (protectedPkgs : List String) (p : ℕ) : Job :=
  if pool.name p ∈ protectedPkgs then
    -- autoerase would remove this, even without ALLOWUNINSTALL
    ⟨solverSolvable ||| solverUserinstalled, p, by decide⟩
  else ⟨solverSolvable ||| solverAllowuninstall, p, by decide⟩

/-- `TDNFSolvAddProtectPkgs` -/
def solvAddProtectPkgs (pool : Pool) (protectedPkgs : List String) (jobs : List Job) :
    Except TdnfError (List Job) :=
  if jobs.zipIdx.any fun (job, j) =>
      erasesSolvable job && decide (pool.name job.what ∈ protectedPkgs) &&
        !reAdded pool jobs j (pool.name job.what) then
    .error .protectedPkg
  else .ok (jobs ++ pool.installedSolvables.map (protectJob pool protectedPkgs))

/-- The type by which a step counts as a removal. -/
def removalType (pTrans : Transaction) (p : ℕ) : TransactionType :=
  if pTrans.type p .showObsoletes ≠ .obsoleted then pTrans.type p .showActiveAll
  else pTrans.type p .showObsoletes

/-- `TDNFSolvCheckProtectPkgsInTrans` -/
def solvCheckProtectPkgsInTrans (pool : Pool) (protectedPkgs : List String)
    (pTrans : Transaction) : Except TdnfError Unit :=
  if pTrans.steps.any fun p => decide (removalType pTrans p = .obsoleted ∨
      removalType pTrans p = .erase) && decide (pool.name p ∈ protectedPkgs) then
    .error .protectedPkg
  else .ok ()

/-- The count of an install-only name over the steps, with the solvables to be removed. -/
def countSteps (pool : Pool) (pTrans : Transaction) (name : String) :
    ℤ → List ℕ → List ℕ → ℤ × List ℕ
  | n, removed, [] => (n, removed)
  | n, removed, p :: rest =>
    if pool.name p = name then
      match pTrans.type p .showMultiinstall with
      | .multiinstall => countSteps pool pTrans name (n + 1) removed rest
      | .erase => countSteps pool pTrans name (n - 1) (p :: removed) rest
      | _ => countSteps pool pTrans name n removed rest
    else countSteps pool pTrans name n removed rest

/-- Erase jobs for installed solvables of the name, until the limit is met. -/
def addLimitJobs (pool : Pool) (name : String) (nLimit : ℤ) :
    ℤ → List ℕ → List Job → List ℕ → List ℕ × List Job
  | _, removed, jobs, [] => (removed, jobs)
  | n, removed, jobs, p :: rest =>
    if pool.name p = name ∧ p ∉ removed then
      if n - 1 ≤ nLimit then (p :: removed, solvAddPkgEraseJob jobs p)
      else addLimitJobs pool name nLimit (n - 1) (p :: removed) (solvAddPkgEraseJob jobs p) rest
    else addLimitJobs pool name nLimit n removed jobs rest

/-- The loop of `TDNFSolvCheckInstallOnlyLimitInTrans` over the remaining names. -/
def checkLimits (pool : Pool) (nLimit : ℤ) (pTrans : Transaction) :
    Bool → List ℕ → List Job → List String → Bool × List Job
  | exceeded, _, jobs, [] => (exceeded, jobs)
  | exceeded, removed, jobs, name :: rest =>
    let installed := (pool.installedSolvables.countP fun p => pool.name p == name : ℕ)
    let (n, removed) := countSteps pool pTrans name installed removed pTrans.steps
    if nLimit < n then
      let (removed, jobs) := addLimitJobs pool name nLimit n removed jobs pool.installedSolvables
      checkLimits pool nLimit pTrans true removed jobs rest
    else checkLimits pool nLimit pTrans exceeded removed jobs rest

/-- `TDNFSolvCheckInstallOnlyLimitInTrans`: whether the limit is exceeded, and the jobs. -/
def solvCheckInstallOnlyLimitInTrans (conf : Conf) (pool : Pool) (pTrans : Transaction)
    (jobs : List Job) : Bool × List Job :=
  checkLimits pool conf.nInstallOnlyLimit pTrans false [] jobs (conf.ppszInstallOnlyPkgs.getD [])

/-- What the solver makes of a queue: its problems, and a transaction unless out of memory. -/
structure Solution where
  nProblems : ℤ
  reportProblems : Except TdnfError Unit
  transaction : Option Transaction

/-- What `TDNFSolv` depends on: the configuration, the pool, the solver at each attempt (with
and without SOLVER_FLAG_ALLOW_UNINSTALL), and the results of the calls around it. -/
structure SolvEnv where
  conf : Conf
  pool : Pool
  nameId : String → ℕ
  nBest : Bool
  excludes : Except TdnfError Unit
  minVersions : Except TdnfError Unit
  created : Bool
  solve : Bool → ℕ → List Job → Solution
  debugInfo : Except TdnfError Unit
  allResults : Transaction → Except TdnfError Unit

/-- The problems of a solution end the solving unless they may be skipped. -/
def checkProblems (solution : Solution) : Except TdnfError Unit :=
  if 0 < solution.nProblems then solution.reportProblems else .ok ()

/-- Catch protected obsoleted packages, and double check for removals. -/
def checkProtected (env : SolvEnv) (pTrans : Transaction) : Except TdnfError Unit :=
  match env.conf.ppszProtectedPkgs with
  | some protectedPkgs => solvCheckProtectPkgsInTrans env.pool protectedPkgs pTrans
  | none => .ok ()

/-- If an install-only limit is exceeded, removal jobs are added to solve again. -/
def limitJobs (env : SolvEnv) (pTrans : Transaction) (jobs : List Job) : Option (List Job) :=
  match env.conf.ppszInstallOnlyPkgs with
  | none => none
  | some _ =>
    match solvCheckInstallOnlyLimitInTrans env.conf env.pool pTrans jobs with
    | (false, _) => none
    | (true, jobs) => some jobs

/-- One round of the loop: the transaction, and the jobs of the next round if there is to be
one. -/
def solvAttempt (env : SolvEnv) (allowUninstall : Bool) (attempt : ℕ) (jobs : List Job) :
    Except TdnfError (Transaction × Option (List Job)) := do
  let solution := env.solve allowUninstall attempt jobs
  checkProblems solution
  match solution.transaction with
  | none => .error .invalidParameter
  | some pTrans => do
    checkProtected env pTrans
    pure (pTrans, limitJobs env pTrans jobs)

/-- The loop, with `retries` more rounds to come. -/
def solvAttempts (env : SolvEnv) (allowUninstall : Bool) :
    ℕ → ℕ → List Job → Except TdnfError Transaction
  | attempt, retries, jobs =>
    match solvAttempt env allowUninstall attempt jobs with
    | .error e => .error e
    | .ok (pTrans, none) => .ok pTrans
    | .ok (_, some jobs) =>
      match retries with
      | 0 => .error .installOnlyLimitExceeded
      | retries + 1 => solvAttempts env allowUninstall (attempt + 1) retries jobs

/-- `SOLVER_FORCEBEST` and `SOLVER_CLEANDEPS` as asked for. -/
def solvFlags (nBest nAutoErase : Bool) : ℕ :=
  (if nBest then solverForcebest else 0) ||| if nAutoErase then solverCleandeps else 0

theorem solvFlags_selects_nothing (nBest nAutoErase : Bool) :
    solvFlags nBest nAutoErase &&& solverSelectMask = 0 := by
  cases nBest <;> cases nAutoErase <;> decide

/-- `solver_create` -/
def solverCreate (created : Bool) : Except TdnfError Unit :=
  if created then .ok () else .error .outOfMemory

/-- The jobs that allow packages to be removed, or the flag that allows it for all. -/
def allowErasing (env : SolvEnv) (nAllowErasing : Bool) (jobs : List Job) :
    Except TdnfError (List Job × Bool) :=
  if nAllowErasing then
    match env.conf.ppszProtectedPkgs with
    | some protectedPkgs => (solvAddProtectPkgs env.pool protectedPkgs jobs).map (·, false)
    | none => .ok (jobs, true)
  else .ok (jobs, false)

/-- `TDNFSolv`, with the transaction its results are taken from. -/
def solv (env : SolvEnv) (jobs : List Job) (nAllowErasing nAutoErase : Bool) :
    Except TdnfError Transaction := do
  let jobs := solvAddFlagsToJobs (solvFlags env.nBest nAutoErase)
    (solvFlags_selects_nothing env.nBest nAutoErase) jobs
  env.excludes
  let jobs := solvAddInstallOnlyPkgs env.conf env.pool env.nameId jobs
  let jobs := solvAddPkgLocks env.conf env.pool env.nameId jobs
  env.minVersions
  solverCreate env.created
  let (jobs, allowUninstall) ← allowErasing env nAllowErasing jobs
  let pTrans ← solvAttempts env allowUninstall 0 1 jobs
  env.debugInfo
  env.allResults pTrans
  pure pTrans

section Jobs

theorem erasesSolvable_iff (job : Job) :
    erasesSolvable job = true ↔ job.action = solverErase ∧ job.OnSolvable := by
  rw [erasesSolvable, Bool.and_eq_true, beq_iff_eq, job.solvableBit_iff]

theorem installsSolvable_iff (job : Job) :
    installsSolvable job = true ↔ job.action = solverInstall ∧ job.OnSolvable := by
  rw [installsSolvable, Bool.and_eq_true, beq_iff_eq, job.solvableBit_iff]

/-- For an erase job it makes no difference that it is itself left out of the search. -/
theorem reAdded_iff {pool : Pool} {jobs : List Job} {job : Job} {j : ℕ} {name : String}
    (hjob : (job, j) ∈ jobs.zipIdx) (herase : erasesSolvable job = true) :
    reAdded pool jobs j name = true ↔ ∃ job' ∈ jobs, job'.action = solverInstall ∧
      job'.OnSolvable ∧ pool.name job'.what = name := by
  simp only [reAdded, List.any_eq_true, Bool.and_eq_true, bne_iff_ne, beq_iff_eq,
    installsSolvable_iff]
  constructor
  · rintro ⟨⟨job', i⟩, hmem, ⟨-, haction, hsolvable⟩, hname⟩
    exact ⟨job', List.fst_mem_of_mem_zipIdx hmem, haction, hsolvable, hname⟩
  · rintro ⟨job', hmem, haction, hsolvable, hname⟩
    obtain ⟨i, hi⟩ := List.mem_iff_getElem?.mp hmem
    refine ⟨(job', i), List.mk_mem_zipIdx_iff_getElem?.mpr hi, ⟨?_, haction, hsolvable⟩, hname⟩
    rintro rfl
    have hsame := (List.mk_mem_zipIdx_iff_getElem?.mp hjob).symm.trans hi
    obtain rfl : job = job' := Option.some.inj hsame
    exact absurd (((erasesSolvable_iff job).mp herase).1.symm.trans haction) (by decide)

variable {pool : Pool} {protectedPkgs : List String} {jobs : List Job}

/-- When the queue is refused. -/
theorem solvAddProtectPkgs_error_iff :
    solvAddProtectPkgs pool protectedPkgs jobs = .error .protectedPkg ↔
      ∃ job ∈ jobs, job.action = solverErase ∧ job.OnSolvable ∧
        pool.name job.what ∈ protectedPkgs ∧ ¬ ∃ job' ∈ jobs, job'.action = solverInstall ∧
          job'.OnSolvable ∧ pool.name job'.what = pool.name job.what := by
  have hrefused : solvAddProtectPkgs pool protectedPkgs jobs = .error .protectedPkg ↔
      ∃ entry ∈ jobs.zipIdx, erasesSolvable entry.1 = true ∧
        pool.name entry.1.what ∈ protectedPkgs ∧
        ¬ reAdded pool jobs entry.2 (pool.name entry.1.what) = true := by
    rw [solvAddProtectPkgs]
    split_ifs with hany
    · simpa [and_assoc] using hany
    · simpa [and_assoc] using hany
  rw [hrefused]
  constructor
  · rintro ⟨⟨job, j⟩, hmem, herase, hname, hno⟩
    rw [reAdded_iff hmem herase] at hno
    obtain ⟨haction, hsolvable⟩ := (erasesSolvable_iff job).mp herase
    exact ⟨job, List.fst_mem_of_mem_zipIdx hmem, haction, hsolvable, hname, hno⟩
  · rintro ⟨job, hmem, haction, hsolvable, hname, hno⟩
    obtain ⟨j, hj⟩ := List.mem_iff_getElem?.mp hmem
    have herase := (erasesSolvable_iff job).mpr ⟨haction, hsolvable⟩
    have hentry := List.mk_mem_zipIdx_iff_getElem?.mpr hj
    exact ⟨(job, j), hentry, herase, hname, by rwa [reAdded_iff hentry herase]⟩

/-- A queue that is not refused gets one job for every installed solvable. -/
theorem solvAddProtectPkgs_of_not_error
    (h : solvAddProtectPkgs pool protectedPkgs jobs ≠ .error .protectedPkg) :
    solvAddProtectPkgs pool protectedPkgs jobs =
      .ok (jobs ++ pool.installedSolvables.map (protectJob pool protectedPkgs)) := by
  rw [solvAddProtectPkgs] at h ⊢
  split_ifs at h ⊢ with hany
  · exact absurd rfl h
  · rfl

/-- The job of an installed solvable keeps a protected one and gives up the others. -/
theorem protectJob_spec (pool : Pool) (protectedPkgs : List String) (p : ℕ) :
    (protectJob pool protectedPkgs p).what = p ∧ (protectJob pool protectedPkgs p).OnSolvable ∧
      (protectJob pool protectedPkgs p).action =
        if pool.name p ∈ protectedPkgs then solverUserinstalled else solverAllowuninstall := by
  rw [protectJob]
  split_ifs
  · have hselect : (solverSolvable ||| solverUserinstalled) &&& solverSelectMask =
      solverSolvable := by decide
    have haction : (solverSolvable ||| solverUserinstalled) &&& solverJobMask =
      solverUserinstalled := by decide
    exact ⟨rfl, hselect, haction⟩
  · have hselect : (solverSolvable ||| solverAllowuninstall) &&& solverSelectMask =
      solverSolvable := by decide
    have haction : (solverSolvable ||| solverAllowuninstall) &&& solverJobMask =
      solverAllowuninstall := by decide
    exact ⟨rfl, hselect, haction⟩

end Jobs

section Solving

variable {env : SolvEnv} {protectedPkgs : List String} {pTrans : Transaction}

/-- A step removes a package with a protected name. -/
def RemovesProtected (pool : Pool) (protectedPkgs : List String) (pTrans : Transaction) : Prop :=
  ∃ p ∈ pTrans.steps, pool.name p ∈ protectedPkgs ∧
    (p ∈ solvGetTransResultsWithType pTrans .erase ∨
      p ∈ solvGetTransResultsWithType pTrans .obsoleted ∨
      pTrans.type p .showActiveAll = .obsoleted)

/-- A transaction that passes the check removes no protected package. -/
theorem not_removesProtected_of_check {pool : Pool}
    (h : solvCheckProtectPkgsInTrans pool protectedPkgs pTrans = .ok ()) :
    ¬ RemovesProtected pool protectedPkgs pTrans := by
  rintro ⟨p, hstep, hname, hremoved⟩
  rw [solvCheckProtectPkgsInTrans] at h
  split_ifs at h with hany
  refine hany (List.any_eq_true.mpr ⟨p, hstep, ?_⟩)
  have htype : removalType pTrans p = .obsoleted ∨ removalType pTrans p = .erase := by
    rw [removalType]
    split_ifs with hshown
    · rcases hremoved with herase | hobsoleted | hactive
      · exact .inr ((mem_solvGetTransResultsWithType (by decide)).mp herase).2
      · exact absurd ((mem_solvGetTransResultsWithType (by decide)).mp hobsoleted).2 hshown
      · exact .inl hactive
    · exact .inl (not_not.mp hshown)
  simp [htype, hname]

/-- The transaction of a round passed the check. -/
theorem solvAttempt_checked (hprotected : env.conf.ppszProtectedPkgs = some protectedPkgs)
    {allowUninstall : Bool} {attempt : ℕ} {jobs : List Job} {next : Option (List Job)}
    (h : solvAttempt env allowUninstall attempt jobs = .ok (pTrans, next)) :
    solvCheckProtectPkgsInTrans env.pool protectedPkgs pTrans = .ok () := by
  obtain ⟨_, -, h⟩ := exists_of_bind_ok h
  cases htrans : (env.solve allowUninstall attempt jobs).transaction with
  | none => simp [htrans] at h
  | some pTrans' =>
      rw [htrans] at h
      obtain ⟨_, hcheck, h⟩ := exists_of_bind_ok h
      cases h
      rwa [checkProtected, hprotected] at hcheck

/-- Whatever the solver does, the transaction of the last round passed the check. -/
theorem solvAttempts_checked (hprotected : env.conf.ppszProtectedPkgs = some protectedPkgs)
    {allowUninstall : Bool} {attempt retries : ℕ} {jobs : List Job}
    (h : solvAttempts env allowUninstall attempt retries jobs = .ok pTrans) :
    solvCheckProtectPkgsInTrans env.pool protectedPkgs pTrans = .ok () := by
  induction retries generalizing attempt jobs with
  | zero =>
      rw [solvAttempts] at h
      split at h
      · cases h
      · next heq =>
          cases h
          exact solvAttempt_checked hprotected heq
      · cases h
  | succ retries ih =>
      rw [solvAttempts] at h
      split at h
      · cases h
      · next heq =>
          cases h
          exact solvAttempt_checked hprotected heq
      · exact ih h

theorem solv_checked (hprotected : env.conf.ppszProtectedPkgs = some protectedPkgs)
    {jobs : List Job} {nAllowErasing nAutoErase : Bool}
    (h : solv env jobs nAllowErasing nAutoErase = .ok pTrans) :
    solvCheckProtectPkgsInTrans env.pool protectedPkgs pTrans = .ok () := by
  obtain ⟨_, -, h⟩ := exists_of_bind_ok h
  obtain ⟨_, -, h⟩ := exists_of_bind_ok h
  obtain ⟨_, -, h⟩ := exists_of_bind_ok h
  obtain ⟨_, -, h⟩ := exists_of_bind_ok h
  obtain ⟨pTrans', hsolved, h⟩ := exists_of_bind_ok h
  obtain ⟨_, -, h⟩ := exists_of_bind_ok h
  obtain ⟨_, -, h⟩ := exists_of_bind_ok h
  obtain rfl : pTrans' = pTrans := Except.ok.inj h
  exact solvAttempts_checked hprotected hsolved

/-- A successful solving removes no protected package; and jobs are added for the protection
unless one erases a protected package that no job installs again, one for each installed
package. -/
theorem protectedPkgs_kept (env : SolvEnv) (protectedPkgs : List String) (jobs : List Job)
    (nAllowErasing nAutoErase : Bool) :
    (env.conf.ppszProtectedPkgs = some protectedPkgs →
        ∀ pTrans, solv env jobs nAllowErasing nAutoErase = .ok pTrans →
          ¬ RemovesProtected env.pool protectedPkgs pTrans) ∧
      (solvAddProtectPkgs env.pool protectedPkgs jobs = .error .protectedPkg ↔
        ∃ job ∈ jobs, job.action = solverErase ∧ job.OnSolvable ∧
          env.pool.name job.what ∈ protectedPkgs ∧
          ¬ ∃ job' ∈ jobs, job'.action = solverInstall ∧ job'.OnSolvable ∧
            env.pool.name job'.what = env.pool.name job.what) ∧
      (solvAddProtectPkgs env.pool protectedPkgs jobs ≠ .error .protectedPkg →
        ∃ added, solvAddProtectPkgs env.pool protectedPkgs jobs = .ok (jobs ++ added) ∧
          added.map Job.what = env.pool.installedSolvables ∧ (added.map Job.what).Nodup ∧
          ∀ job ∈ added, job.OnSolvable ∧ job.action =
            if env.pool.name job.what ∈ protectedPkgs then solverUserinstalled
            else solverAllowuninstall) := by
  refine ⟨fun hprotected pTrans hok =>
    not_removesProtected_of_check (solv_checked hprotected hok),
    solvAddProtectPkgs_error_iff, fun hno => ?_⟩
  have hwhat : (env.pool.installedSolvables.map (protectJob env.pool protectedPkgs)).map
      Job.what = env.pool.installedSolvables := by
    rw [List.map_map]
    exact List.map_id'' (fun p => (protectJob_spec env.pool protectedPkgs p).1) _
  refine ⟨_, solvAddProtectPkgs_of_not_error hno, hwhat, ?_, fun job hjob => ?_⟩
  · rw [hwhat]
    exact installedSolvables_nodup env.pool
  · obtain ⟨p, -, rfl⟩ := List.mem_map.mp hjob
    obtain ⟨hsame, hsolvable, haction⟩ := protectJob_spec env.pool protectedPkgs p
    exact ⟨hsolvable, by rw [hsame, haction]⟩

end Solving

/-- With "bash" installed and protected, a solver that installs "vim". -/
def installVim : SolvEnv where
  conf := ⟨some ["bash"], none, 0, none⟩
  pool := ⟨fun p => if p = 1 then "bash" else "vim", fun p => if p = 1 then some 0 else none,
    some ⟨0, 1, 2⟩⟩
  nameId _ := 1
  nBest := false
  excludes := .ok ()
  minVersions := .ok ()
  created := true
  solve _ _ _ := ⟨0, .ok (), some ⟨[2], fun _ _ => .install⟩⟩
  debugInfo := .ok ()
  allResults _ := .ok ()

theorem protectedPkgs_kept_installVim :
    (∃ pTrans, solv installVim (solvAddPkgInstallJob [] 2) true false = .ok pTrans ∧
        ¬ RemovesProtected installVim.pool ["bash"] pTrans) ∧
      solvAddProtectPkgs installVim.pool ["bash"] (solvAddPkgEraseJob [] 1) =
        .error .protectedPkg := by
  obtain ⟨hkept, -, -⟩ := protectedPkgs_kept installVim ["bash"] (solvAddPkgInstallJob [] 2)
    true false
  exact ⟨⟨_, rfl, hkept rfl _ rfl⟩, rfl⟩

end Tdnf.Client
