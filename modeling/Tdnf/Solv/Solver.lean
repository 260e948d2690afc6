import Mathlib.Data.List.Nodup
import Mathlib.Data.List.Range
import Mathlib.Data.Nat.Notation

/-!
# The solver's jobs and transactions

A job asks the solver to do something with a package, with a name or with all
packages. The answer is a transaction, a list of packages each of which has a
type that depends on the way it is looked at.
-/

namespace Tdnf.Solv

def solverSelectMask : ℕ := 0xff

def solverJobMask : ℕ := 0xff00

def solverSolvable : ℕ := 0x01

def solverSolvableName : ℕ := 0x02

def solverSolvableAll : ℕ := 0x06

def solverInstall : ℕ := 0x100

def solverErase : ℕ := 0x200

def solverUpdate : ℕ := 0x300

def solverMultiversion : ℕ := 0x500

def solverLock : ℕ := 0x600

def solverDistupgrade : ℕ := 0x700

def solverUserinstalled : ℕ := 0xa00

def solverAllowuninstall : ℕ := 0xb00

def solverCleandeps : ℕ := 0x40000

def solverForcebest : ℕ := 0x100000

/-- Two entries of the job queue. The jobs of this program select a single solvable, a name
or everything. -/
structure Job where
  how : ℕ
  what : ℕ
  selects : how &&& solverSelectMask ∈ [solverSolvable, solverSolvableName, solverSolvableAll]
deriving DecidableEq, Repr

namespace Job

/-- The job is about a single solvable. -/
def OnSolvable (job : Job) : Prop := job.how &&& solverSelectMask = solverSolvable

/-- The kind of the job. -/
def action (job : Job) : ℕ := job.how &&& solverJobMask

/-- The test `how & SOLVER_SOLVABLE` of the program. -/
def solvableBit (job : Job) : Bool := job.how &&& solverSolvable != 0

/-- On the jobs of this program one bit tells whether a single solvable is selected. -/
theorem solvableBit_iff (job : Job) : job.solvableBit = true ↔ job.OnSolvable := by
  have hbit : job.how &&& solverSolvable = (job.how &&& solverSelectMask) &&& solverSolvable := by
    rw [Nat.and_assoc]
    rfl
  rw [solvableBit, OnSolvable, hbit]
  have hselects := job.selects
  simp only [List.mem_cons, List.not_mem_nil, or_false] at hselects
  rcases hselects with h | h | h <;> rw [h] <;> decide

end Job

/-- `SolvAddFlagsToJobs`, for flags above the selection. -/
def solvAddFlagsToJobs (flags : ℕ) (hflags : flags &&& solverSelectMask = 0)
    (jobs : List Job) : List Job :=
  jobs.map fun job => ⟨job.how ||| flags, job.what, by
    rw [Nat.and_or_distrib_right, hflags, Nat.or_zero]
    exact job.selects⟩

def solvAddUpgradeAllJob (jobs : List Job) : List Job :=
  jobs ++ [⟨solverUpdate ||| solverSolvableAll, 0, by decide⟩]

def solvAddDistUpgradeJob (jobs : List Job) : List Job :=
  jobs ++ [⟨solverDistupgrade ||| solverSolvableAll, 0, by decide⟩]

def solvAddPkgInstallJob (jobs : List Job) (id : ℕ) : List Job :=
  jobs ++ [⟨solverSolvable ||| solverInstall, id, by decide⟩]

def solvAddPkgEraseJob (jobs : List Job) (id : ℕ) : List Job :=
  jobs ++ [⟨solverSolvable ||| solverErase, id, by decide⟩]

/-- A repository is a range of solvables, which may contain some of other repositories. -/
structure Repo where
  id : ℕ
  first : ℕ
  last : ℕ
deriving DecidableEq, Repr

/-- The pool. Names stand for their ids, which are one-to-one. -/
structure Pool where
  name : ℕ → String
  repo : ℕ → Option ℕ
  installed : Option Repo

/-- `FOR_REPO_SOLVABLES(pool->installed, p, s)` -/
def Pool.installedSolvables (pool : Pool) : List ℕ :=
  match pool.installed with
  | none => []
  | some r => (List.range' r.first (r.last - r.first)).filter fun p => pool.repo p = some r.id

theorem installedSolvables_nodup (pool : Pool) : pool.installedSolvables.Nodup := by
  rw [Pool.installedSolvables]
  cases pool.installed with
  | none => exact List.nodup_nil
  | some r => exact List.Nodup.filter _ List.nodup_range'

/-- `SOLVER_TRANSACTION_*` types -/
inductive TransactionType where
  | ignore
  | erase
  | reinstalled
  | downgraded
  | changed
  | upgraded
  | obsoleted
  | install
  | reinstall
  | downgrade
  | change
  | upgrade
  | obsoletes
  | multiinstall
  | multireinstall
deriving DecidableEq, Repr

/-- The combinations of `SOLVER_TRANSACTION_SHOW_*` in use. -/
inductive TransactionMode where
  | showObsoletes
  | showActiveAll
  | showMultiinstall
deriving DecidableEq, Repr

/-- A transaction: its steps, and `transaction_type`. -/
structure Transaction where
  steps : List ℕ
  type : ℕ → TransactionMode → TransactionType

/-- `SolvGetTransResultsWithType` -/
def solvGetTransResultsWithType (pTrans : Transaction) (type : TransactionType) : List ℕ :=
  pTrans.steps.filter fun p =>
    let pkgType := pTrans.type p (if type = .obsoleted then .showObsoletes else .showActiveAll)
    type = pkgType || (type = .reinstall && pkgType = .change)

/-- Apart from reinstallations, the results are the steps of the type. -/
theorem mem_solvGetTransResultsWithType {pTrans : Transaction} {type : TransactionType} {p : ℕ}
    (h : type ≠ .reinstall) :
    p ∈ solvGetTransResultsWithType pTrans type ↔ p ∈ pTrans.steps ∧
      pTrans.type p (if type = .obsoleted then .showObsoletes else .showActiveAll) = type := by
  simp [solvGetTransResultsWithType, h, eq_comm]

end Tdnf.Solv
