import Tdnf.Library.OrderedDiff
import Tdnf.History.Dictionary
import Tdnf.History.Play

/-!
# The history context

A session works on a context that remembers the installed ids, the rpmdb cookie
and the newest transaction. Recording compares what rpm lists now with the
context and writes the difference as one transaction; syncing brings a new
context up to date with the database and with rpm.
-/

namespace Tdnf.History

open Relational Procedure

/-- What rpm reports: the listed packages and the cookie of its database. -/
structure RpmDb where
  nevras : List String
  cookie : String
deriving DecidableEq, Repr

/-- `struct history_ctx`; the cookie is NULL until the first transaction is known. -/
structure HistoryCtx where
  db : Conn
  installedIds : List ℕ
  cookie : Option String
  transId : ℕ

/-- The context with another state of its handle. -/
def HistoryCtx.setDb (ctx : HistoryCtx) (c : Conn) : HistoryCtx := { ctx with db := c }

section SetDb

variable (ctx : HistoryCtx) (c d : Conn)

@[simp] theorem HistoryCtx.setDb_db : (ctx.setDb c).db = c := rfl

@[simp] theorem HistoryCtx.setDb_installedIds :
    (ctx.setDb c).installedIds = ctx.installedIds := rfl

@[simp] theorem HistoryCtx.setDb_cookie : (ctx.setDb c).cookie = ctx.cookie := rfl

@[simp] theorem HistoryCtx.setDb_transId : (ctx.setDb c).transId = ctx.transId := rfl

@[simp] theorem HistoryCtx.setDb_setDb : (ctx.setDb c).setDb d = ctx.setDb d := rfl

end SetDb

/-- `struct history_delta` -/
structure HistoryDelta where
  addedIds : List ℕ
  removedIds : List ℕ
deriving DecidableEq, Repr

abbrev CtxProc (α : Type) := Proc Rc HistoryCtx α

/-- Run a database function on the handle of the context. -/
def onDb {α : Type} (x : DbProc α) : CtxProc α :=
  within HistoryCtx.db (fun c ctx => ctx.setDb c) x

theorem onDb_run_ok {α : Type} {x : DbProc α} {ctx : HistoryCtx} {c : Conn} {a : α}
    (h : x.run ctx.db = .ok a c) : (onDb x).run ctx = .ok a (ctx.setDb c) :=
  run_within_ok h

theorem onDb_run_error {α : Type} {x : DbProc α} {ctx : HistoryCtx} {c : Conn} {rc : Rc}
    (h : x.run ctx.db = .error rc c) : (onDb x).run ctx = .error rc (ctx.setDb c) :=
  run_within_error h

/-- `diff_arrays` -/
def diffArrays (arr1 arr2 : List ℕ) : List ℕ × List ℕ := OrderedDiff.diff arr1 arr2

/-- `db_add_transaction` -/
def dbAddTransaction (fail : StmtSite → Bool) (row : TransRow) : DbProc ℕ := do
  let db := (← get).view
  prepareAndBind fail db.transactions.isSome 4
  stepDone fail
  modify (Conn.write fun db => { db with transactions := insertInto db.transactions row })
  pure (nextKey db.transactions)

/-- `db_add_trans_items` from row `i` on. -/
def dbAddTransItems (fail : ℕ → StmtSite → Bool) (transId : ℕ) (type : ItemType) :
    ℕ → List ℕ → DbProc Unit
  | _, [] => pure ()
  | i, rpmId :: rest => do
    prepareAndBind (fail i) (← get).view.transItems.isSome 3
    stepDone (fail i)
    modify (Conn.write fun db =>
      { db with transItems := insertInto db.transItems ⟨transId, type, rpmId⟩ })
    dbAddTransItems fail transId type (i + 1) rest

/-- The `error:` label of the recording functions: COMMIT after success, ROLLBACK after
a failure. -/
def endingTransaction (fail : Faults) (x : CtxProc Unit) : CtxProc Unit :=
  finishing (fun ctx => ctx.setDb (commit (fail .commit) ctx.db))
    (fun ctx => ctx.setDb (rollback (fail .rollback) ctx.db)) x

/-- `history_record_state` -/
def historyRecordState (fail : Faults) (now : ℤ) : CtxProc Unit :=
  endingTransaction fail do
    onDb (beginTransaction (fail .beginTransaction))
    onDb (execCreate (fail .createTransactions) createTransactions)
    let ctx ← get
    let transId ← onDb (dbAddTransaction (fun s => fail (.transInsert s))
      ⟨ctx.cookie, some "(set)", now, .base⟩)
    onDb (execCreate (fail .createTransItems) createTransItems)
    onDb (dbAddTransItems (fun i s => fail (.itemInsert .set i s)) transId .set 0
      ctx.installedIds)
    modify fun ctx => { ctx with transId := transId }

/-- The part of `history_update_state` behind the cookie comparison. -/
def recordUpdate (fail : Faults) (rpmdb : RpmDb) (now : ℤ) (cmdline : Option String) :
    CtxProc Unit := do
  let currentIds ← onDb (dbUpdateRpms fail rpmdb.nevras)
  let diff := diffArrays (← get).installedIds currentIds
  onDb (beginTransaction (fail .beginTransaction))
  let transId ← onDb (dbAddTransaction (fun s => fail (.transInsert s))
    ⟨some rpmdb.cookie, cmdline, now, .delta⟩)
  if 0 < diff.2.length then
    onDb (dbAddTransItems (fun i s => fail (.itemInsert .add i s)) transId .add 0 diff.2)
  if 0 < diff.1.length then
    onDb (dbAddTransItems (fun i s => fail (.itemInsert .remove i s)) transId .remove 0 diff.1)
  modify fun ctx =>
    { ctx with installedIds := currentIds, cookie := some rpmdb.cookie, transId := transId }

/-- `history_update_state`. A NULL context cookie, which only a context that was never
synced has, counts as different. -/
def historyUpdateState (fail : Faults) (rpmdb : RpmDb) (now : ℤ) (cmdline : Option String) :
    CtxProc Unit := do
  if (← get).cookie = some rpmdb.cookie then
    pure ()
  else
    endingTransaction fail (recordUpdate fail rpmdb now cmdline)

/-- `history_add_transaction`; a NULL command line is refused. -/
def historyAddTransaction (now : ℤ) (cmdline : Option String) : CtxProc Unit := do
  if cmdline.isNone then
    throw .checkFailed
  else do
    let cookie := (← get).cookie
    let transId ← onDb (dbAddTransaction noStmtFault ⟨cookie, cmdline, now, .delta⟩)
    modify fun ctx => { ctx with transId := transId }

/-- The installed ids after `transId` with a map as large as the dictionary. -/
def playedIds (db : Db) (transId : ℕ) : Except Rc (List ℕ) :=
  match db.rpms with
  | none => .error .sqliteError
  | some rpms => do
    let map ← dbPlayTransaction db transId (zeroMap rpms.lastKey) rpms.lastKey
    pure (getIdsFromMap map rpms.lastKey)

/-- `history_set_state` -/
def historySetState (transId : ℕ) : CtxProc Unit := do
  match playedIds (← get).db.view transId with
  | .error rc => throw rc
  | .ok ids => modify fun ctx => { ctx with installedIds := ids, transId := transId }

/-- The first row of SELECT * FROM transactions ORDER BY id DESC. -/
def newestTransaction (db : Db) : Option (ℕ × TransRow) :=
  db.transactions.bind fun t => t.rows.getLast?

/-- `history_sync` -/
def historySync (rpmdb : RpmDb) (now : ℤ) : CtxProc Unit := do
  match newestTransaction (← get).db.view with
  | some (id, row) =>
    if row.cookie = some rpmdb.cookie then do
      let ids ← onDb (dbUpdateRpms noFault rpmdb.nevras)
      modify fun ctx => { ctx with installedIds := ids, cookie := row.cookie, transId := id }
    else do
      -- changed, but not by us: record it as a pseudo transaction
      historySetState id
      modify fun ctx => { ctx with cookie := row.cookie }
      historyUpdateState noFault rpmdb now (some "(unknown)")
  | none => do
    modify fun ctx => { ctx with cookie := some rpmdb.cookie }
    let ids ← onDb (dbUpdateRpms noFault rpmdb.nevras)
    modify fun ctx => { ctx with installedIds := ids }
    historyRecordState noFault now

/-- `create_history_ctx` -/
def createHistoryCtx (db : Db) : HistoryCtx where
  db := ⟨db, none⟩
  installedIds := []
  cookie := (newestTransaction db).bind fun r => r.2.cookie
  transId := ((newestTransaction db).map Prod.fst).getD 0

/-- `history_get_delta`; `none` is the NULL of a failure. -/
def historyGetDelta (ctx : HistoryCtx) (transId : ℕ) : Option HistoryDelta :=
  match playedIds ctx.db.view transId with
  | .error _ => none
  | .ok ids =>
    let diff := diffArrays ctx.installedIds ids
    some { addedIds := diff.2, removedIds := diff.1 }

/-- `history_get_delta_range` -/
def historyGetDeltaRange (ctx : HistoryCtx) (transId0 transId1 : ℕ) : Option HistoryDelta :=
  match playedIds ctx.db.view transId0, playedIds ctx.db.view transId1 with
  | .ok ids0, .ok ids1 =>
    let diff := diffArrays ids1 ids0
    some { addedIds := diff.2, removedIds := diff.1 }
  | _, _ => none

end Tdnf.History
