import Tdnf.Library.Relational
import Tdnf.Library.Procedure

/-!
# The history database

The five tables of the history store, the connection of one process to it, and
the statements that may fail. A connection without an open transaction writes
through; between BEGIN and COMMIT its writes stay pending and only the
connection itself sees them.
-/

namespace Tdnf.History

open Relational Procedure

/-- `HISTORY_TRANS_TYPE_*` -/
inductive TransType where
  | base
  | delta
deriving DecidableEq, Repr

/-- `HISTORY_ITEM_TYPE_*` -/
inductive ItemType where
  | set
  | add
  | remove
deriving DecidableEq, Repr

/-- A row of `transactions`. Text columns may hold NULL. -/
structure TransRow where
  cookie : Option String
  cmdline : Option String
  timestamp : ℤ
  type : TransType
deriving DecidableEq, Repr

/-- A row of `trans_items`. -/
structure ItemRow where
  transId : ℕ
  type : ItemType
  rpmId : ℕ
deriving DecidableEq, Repr

/-- A row of `flag_set`. -/
structure FlagRow where
  transId : ℕ
  nameId : ℕ
  value : ℤ
deriving DecidableEq, Repr

/-- The tables; `none` is a table that was not created yet. -/
structure Db where
  rpms : Option (AutoTable String)
  names : Option (AutoTable String)
  flagSet : Option (AutoTable FlagRow)
  transactions : Option (AutoTable TransRow)
  transItems : Option (AutoTable ItemRow)

/-- The file right after `sqlite3_open` created it. -/
def Db.fresh : Db := ⟨none, none, none, none, none⟩

/-- CREATE TABLE IF NOT EXISTS -/
def createIfMissing {α : Type} (t : Option (AutoTable α)) : Option (AutoTable α) :=
  some (t.getD AutoTable.empty)

/-- Insert into a table that exists. -/
def insertInto {α : Type} (t : Option (AutoTable α)) (a : α) : Option (AutoTable α) :=
  t.map fun t => t.insert a

/-- The key an insert assigns, `sqlite3_last_insert_rowid`. -/
def nextKey {α : Type} (t : Option (AutoTable α)) : ℕ := (t.getD AutoTable.empty).seq + 1

/-- `db_maxid` on an existing table. -/
def maxKey {α : Type} (t : Option (AutoTable α)) : ℕ := (t.getD AutoTable.empty).lastKey

@[simp] theorem createIfMissing_some {α : Type} (t : AutoTable α) :
    createIfMissing (some t) = some t := rfl

@[simp] theorem insertInto_some {α : Type} (t : AutoTable α) (a : α) :
    insertInto (some t) a = some (t.insert a) := rfl

@[simp] theorem nextKey_some {α : Type} (t : AutoTable α) : nextKey (some t) = t.seq + 1 := rfl

@[simp] theorem maxKey_some {α : Type} (t : AutoTable α) : maxKey (some t) = t.lastKey := rfl

/-- The two dictionaries served by `db_get_dict_entry`. -/
inductive DictTable where
  | rpms
  | names
deriving DecidableEq, Repr

def Db.dict (db : Db) : DictTable → Option (AutoTable String)
  | .rpms => db.rpms
  | .names => db.names

def Db.setDict (db : Db) (t : Option (AutoTable String)) : DictTable → Db
  | .rpms => { db with rpms := t }
  | .names => { db with names := t }

/-- A connection: the committed file and the pending copy of an open transaction. -/
structure Conn where
  durable : Db
  pending : Option Db

/-- What the connection reads. -/
def Conn.view (c : Conn) : Db := c.pending.getD c.durable

/-- Apply a change, at once or within the open transaction. -/
def Conn.write (f : Db → Db) (c : Conn) : Conn :=
  match c.pending with
  | none => { c with durable := f c.durable }
  | some w => { c with pending := some (f w) }

@[simp] theorem Conn.view_closed (db : Db) : (Conn.mk db none).view = db := rfl

@[simp] theorem Conn.view_open (db w : Db) : (Conn.mk db (some w)).view = w := rfl

@[simp] theorem Conn.write_closed (f : Db → Db) (db : Db) :
    (Conn.mk db none).write f = ⟨f db, none⟩ := rfl

@[simp] theorem Conn.write_open (f : Db → Db) (db w : Db) :
    (Conn.mk db (some w)).write f = ⟨db, some (f w)⟩ := rfl

@[simp] theorem Conn.view_write (f : Db → Db) (c : Conn) : (c.write f).view = f c.view := by
  obtain ⟨db, w⟩ := c
  cases w with
  | none => rfl
  | some w => rfl

/-- Return codes of this module: an sqlite error, or `-1` from the `check_*` macros. -/
inductive Rc where
  | sqliteError
  | checkFailed
deriving DecidableEq, Repr

abbrev DbProc (α : Type) := Proc Rc Conn α

/-- The calls that make up one prepared statement. -/
inductive StmtSite where
  | prepare
  | bind (i : ℕ)
  | step
deriving DecidableEq, Repr

/-- Every statement of one `history_update_state` or `history_record_state` call. The
index counts the listed packages for the dictionary and the written rows for the items. -/
inductive Site where
  | createRpms
  | dictFind (i : ℕ) (s : StmtSite)
  | dictInsert (i : ℕ) (s : StmtSite)
  | beginTransaction
  | createTransactions
  | transInsert (s : StmtSite)
  | createTransItems
  | itemInsert (type : ItemType) (i : ℕ) (s : StmtSite)
  | commit
  | rollback
deriving DecidableEq, Repr

/-- Which statements fail. -/
abbrev Faults := Site → Bool

def noFault : Faults := fun _ => false

def noStmtFault : StmtSite → Bool := fun _ => false

/-- Some checked call of a statement with `binds` parameters fails. -/
def stmtStops (fail : StmtSite → Bool) (binds : ℕ) : Bool :=
  fail .prepare || (List.range binds).any fun i => fail (.bind i)

/-- A prepare followed by its binds, each checked by `check_db_rc`. Preparing also
fails when the table does not exist. -/
def prepareAndBind (fail : StmtSite → Bool) (tableExists : Bool) (binds : ℕ) : DbProc Unit :=
  if !tableExists || stmtStops fail binds then throw .sqliteError else pure ()

/-- `check_cond(step == SQLITE_DONE)` -/
def stepDone (fail : StmtSite → Bool) : DbProc Unit :=
  if fail .step then throw .checkFailed else pure ()

/-- `sqlite3_exec` of a CREATE statement. -/
def execCreate (fail : Bool) (f : Db → Db) : DbProc Unit :=
  if fail then throw .sqliteError else modify (Conn.write f)

def createRpms (db : Db) : Db := { db with rpms := createIfMissing db.rpms }

def createNames (db : Db) : Db := { db with names := createIfMissing db.names }

def createFlagSet (db : Db) : Db := { db with flagSet := createIfMissing db.flagSet }

def createTransactions (db : Db) : Db :=
  { db with transactions := createIfMissing db.transactions }

def createTransItems (db : Db) : Db := { db with transItems := createIfMissing db.transItems }

/-- BEGIN fails inside an open transaction. -/
def beginTransaction (fail : Bool) : DbProc Unit := do
  let c ← get
  if fail || c.pending.isSome then throw .sqliteError
  else set { c with pending := some c.durable }

/-- COMMIT; its result is not looked at. Where it fails the transaction stays open. -/
def commit (fail : Bool) (c : Conn) : Conn :=
  match c.pending with
  | none => c
  | some w => if fail then c else ⟨w, none⟩

/-- ROLLBACK; its result is not looked at either. -/
def rollback (fail : Bool) (c : Conn) : Conn :=
  if fail then c else { c with pending := none }

@[simp] theorem noFault_apply (s : Site) : noFault s = false := rfl

@[simp] theorem noStmtFault_apply (s : StmtSite) : noStmtFault s = false := rfl

@[simp] theorem stmtStops_noStmtFault (binds : ℕ) : stmtStops noStmtFault binds = false := by
  simp [stmtStops]

theorem prepareAndBind_run (fail : StmtSite → Bool) (binds : ℕ) (c : Conn) :
    (prepareAndBind fail true binds).run c =
      if stmtStops fail binds then .error .sqliteError c else .ok () c := by
  cases h : stmtStops fail binds <;> simp [prepareAndBind, h]

@[simp] theorem commit_durable_of_closed (fail : Bool) (db : Db) :
    commit fail ⟨db, none⟩ = ⟨db, none⟩ := rfl

@[simp] theorem commit_open (fail : Bool) (db w : Db) :
    commit fail ⟨db, some w⟩ = if fail then ⟨db, some w⟩ else ⟨w, none⟩ := rfl

/-- ROLLBACK never touches what is on disk. -/
@[simp] theorem rollback_durable (fail : Bool) (c : Conn) :
    (rollback fail c).durable = c.durable := by
  cases fail <;> rfl

end Tdnf.History
