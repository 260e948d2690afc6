import Tdnf.Client.Commands
import Tdnf.Library.Timeline

/-!
# The ledger of the auto flags

What the commands are for, as far as the flags are concerned: a timeline of the
flags of all names, with the cookie of the rpm database at its newest version.
A command adds versions and replaces the newest flags; there are no tables, ids,
contexts or sessions.
-/

namespace Tdnf.Client

open History Procedure

/-- The flags of all names at all transactions, and the newest known cookie of rpm. -/
structure Ledger where
  cookie : Option String
  flags : Timeline String ℤ

abbrev LedgerProc := Proc TdnfError Ledger Unit

namespace Ledger

/-- The ledger before the first command. -/
def fresh : Ledger := ⟨none, Timeline.constant 0⟩

/-- Other flags under the same cookie. -/
def update (f : Timeline String ℤ → Timeline String ℤ) (l : Ledger) : Ledger :=
  { l with flags := f l.flags }

/-- The packages of rpm are those of a version: the newest one unless the cookie differs. -/
def recorded (cookie : String) (l : Ledger) : Ledger :=
  if l.cookie = some cookie then l else ⟨some cookie, l.flags.extend⟩

/-- A package gets a flag, if there is any version that it can belong to. -/
def setFlag (name : String) (value : ℤ) : LedgerProc := do
  if (← get).flags.newest = 0 then throw .historyError
  else modify (update fun τ => τ.put name value)

/-- A version of its own for flags. -/
def append (cmdline : Option String) : LedgerProc := do
  if cmdline = none ∨ (← get).flags.newest = 0 then throw .historyError
  else modify (update Timeline.extend)

/-- Some of the listed packages get their flag. -/
def setAll (chosen : String → Bool) (value : String → ℤ) (names : List String) (l : Ledger) :
    Ledger :=
  l.update fun τ => τ.assign fun k =>
    if k ∈ names ∧ chosen k = true then value k else τ.current k

/-- The packages of a list one after the other. -/
theorem setAll_cons (chosen : String → Bool) (value : String → ℤ) (name : String)
    (rest : List String) (l : Ledger) :
    setAll chosen value (name :: rest) l = setAll chosen value rest
      (if chosen name = true then l.update fun τ => τ.put name (value name) else l) := by
  by_cases hchosen : chosen name = true
  · rw [if_pos hchosen]
    simp only [setAll, update, Timeline.put, Timeline.assign_assign, Timeline.assign_current]
    congr 2
    funext k
    by_cases hk : k = name
    · subst hk
      simp [hchosen]
    · simp [hk]
  · rw [if_neg hchosen]
    simp only [setAll, update]
    congr 2
    funext k
    by_cases hk : k = name
    · subst hk
      simp [hchosen]
    · simp [hk]

theorem setAll_nil (chosen : String → Bool) (value : String → ℤ) (l : Ledger) :
    setAll chosen value [] l = l := by
  simp [setAll, update]

/-- The packages that a transaction installs get theirs; with `nAutoOnly` only those that
nobody asked for. -/
def marked (info : SolvedPkgInfo) (nAutoOnly : Bool) : Ledger → Ledger :=
  setAll (fun k => !nAutoOnly || info.flag k = 1) info.flag info.pkgsToInstall

/-- A history command on the flags. -/
def applied (args : HistoryArgs) : Ledger → Ledger :=
  match args.nCommand with
  | .rollback => update fun τ => τ.restore args.nTo
  | .undo => update fun τ => τ.replay args.nTo (args.nFrom - 1)
  | .redo => update fun τ => τ.replay (args.nFrom - 1) args.nTo
  | _ => id

/-- The packages before and after a run of rpm. -/
def transact (exec : Exec) (rpmdb : RpmDb) : LedgerProc := do
  modify (recorded rpmdb.cookie)
  match exec.rpmRun rpmdb with
  | .ok rpmdb' => modify (recorded rpmdb'.cookie)
  | .error e => throw e

/-- A run of rpm that records nothing. -/
def untracked (exec : Exec) (rpmdb : RpmDb) : LedgerProc :=
  if exec.nDownloadOnly then pure () else
    match exec.rpmRun rpmdb with
    | .ok _ => pure ()
    | .error e => throw e

end Ledger

/-- A command on the ledger. -/
def Command.spec (rpmdb : RpmDb) : Command → LedgerProc
  | historyResolve _ => modify (Ledger.recorded rpmdb.cookie)
  | rpmExecTransaction exec =>
    if exec.nDownloadOnly || exec.nTestOnly then Ledger.untracked exec rpmdb
    else do
      Ledger.transact exec rpmdb
      modify (Ledger.marked exec.solved false)
  | rpmExecHistoryTransaction exec =>
    if exec.nDownloadOnly || exec.nTestOnly then Ledger.untracked exec rpmdb
    else do
      let newest := (← get).flags.newest
      Ledger.transact exec rpmdb
      (if newest = (← get).flags.newest then Ledger.append exec.cmdline
      else modify (Ledger.marked exec.solved true))
      modify (Ledger.applied exec.history)
  | mark names dwValue _ => do
    if names = [] then throw .noMatch
    else if (← get).flags.newest = 0 then throw .historyError
    else modify fun l =>
      Ledger.setAll (fun _ => true) (fun _ => dwValue) names (l.update Timeline.extend)
  | markAutoInstalledSinglePkg pszPkgName => Ledger.setFlag pszPkgName 0

/-- A request on the content of a ledger. -/
def onLedger (req : Request) (l : Ledger) : Except TdnfError Unit × Ledger :=
  ending ((req.command.spec req.rpmdb).run l)

/-- The ledger after requests that begin without one. -/
def ledgerRun (requests : List Request) : List (Except TdnfError Unit) × Option Ledger :=
  performAll Ledger.fresh onLedger requests none

end Tdnf.Client
