import Tdnf.History.Context

/-!
# What recording a transaction writes

One lemma for each step of the recording functions, under any choice of failing
statements. The recorded rows are described as changes of the tables, so that a
commit makes exactly these changes durable and a rollback none of them.
-/

namespace Tdnf.History

open Relational Procedure

/-- One more row in `transactions`. -/
def addTransactionRow (row : TransRow) (db : Db) : Db :=
  { db with transactions := insertInto db.transactions row }

/-- The rows of `trans_items` for a list of packages. -/
def itemRows (transId : ℕ) (type : ItemType) (ids : List ℕ) : List ItemRow :=
  ids.map fun id => ⟨transId, type, id⟩

/-- More rows in `trans_items`. -/
def addItemRows (rows : List ItemRow) (db : Db) : Db :=
  { db with transItems := db.transItems.map fun t => t.insertAll rows }

/-- Some checked call for the item rows `i`, .., `i + n - 1` fails. -/
def itemsStop (fail : ℕ → StmtSite → Bool) : ℕ → ℕ → Bool
  | _, 0 => false
  | i, n + 1 => (stmtStops (fail i) 3 || fail i .step) || itemsStop fail (i + 1) n

theorem Conn.write_write (f g : Db → Db) (c : Conn) :
    (c.write f).write g = c.write fun db => g (f db) := by
  obtain ⟨db, w⟩ := c
  cases w with
  | none => rfl
  | some w => rfl

theorem Conn.write_id (c : Conn) : c.write (fun db => db) = c := by
  obtain ⟨db, w⟩ := c
  cases w with
  | none => rfl
  | some w => rfl

@[simp] theorem itemRows_nil (transId : ℕ) (type : ItemType) : itemRows transId type [] = [] := rfl

@[simp] theorem addItemRows_nil : addItemRows [] = fun db => db := by
  funext db
  obtain ⟨rpms, names, flagSet, transactions, transItems⟩ := db
  cases transItems <;> rfl

@[simp] theorem Conn.setRpms_pending_isSome (t : AutoTable String) (c : Conn) :
    (c.setRpms t).pending.isSome = c.pending.isSome := by
  obtain ⟨db, w⟩ := c
  cases w <;> rfl

theorem Conn.setRpms_durable {c : Conn} (h : c.pending = none) (t : AutoTable String) :
    (c.setRpms t).durable = { c.durable with rpms := some t } := by
  obtain ⟨db, w⟩ := c
  cases w with
  | none => rfl
  | some w => cases h

theorem wp_prepareAndBind (fail : StmtSite → Bool) (tableExists : Bool) (binds : ℕ) (c : Conn)
    {Q : Unit → Conn → Prop} {E : Rc → Conn → Prop} :
    wp (prepareAndBind fail tableExists binds) Q E c ↔
      if !tableExists || stmtStops fail binds then E .sqliteError c else Q () c := by
  rw [prepareAndBind, wp_ite]
  split <;> simp_all

theorem wp_stepDone (fail : StmtSite → Bool) (c : Conn)
    {Q : Unit → Conn → Prop} {E : Rc → Conn → Prop} :
    wp (stepDone fail) Q E c ↔ if fail .step then E .checkFailed c else Q () c := by
  rw [stepDone, wp_ite]
  split <;> simp_all

/-- Some checked call of `db_add_transaction` fails. -/
def transStops (fail : StmtSite → Bool) (tableExists : Bool) : Bool :=
  (!tableExists || stmtStops fail 4) || fail .step

theorem dbAddTransaction_wp (fail : StmtSite → Bool) (row : TransRow) (c : Conn) :
    wp (dbAddTransaction fail row)
      (fun id c' => transStops fail c.view.transactions.isSome = false ∧
        id = nextKey c.view.transactions ∧ c' = c.write (addTransactionRow row))
      (fun _ c' => transStops fail c.view.transactions.isSome = true ∧ c' = c) c := by
  rw [dbAddTransaction, transStops, wp_bind, wp_get]
  simp only [wp_bind, wp_prepareAndBind, wp_stepDone]
  cases hprep : !c.view.transactions.isSome || stmtStops fail 4 with
  | true => simp
  | false =>
      cases hstep : fail .step with
      | true => simp
      | false => exact ⟨rfl, rfl, rfl⟩

/-- Some checked call of `db_add_trans_items` for `count` rows fails. -/
def itemRowsStop (fail : ℕ → StmtSite → Bool) (tableExists : Bool) (count : ℕ) : Bool :=
  decide (0 < count) && (!tableExists || itemsStop fail 0 count)

theorem dbAddTransItems_existing_wp (fail : ℕ → StmtSite → Bool) (transId : ℕ)
    (type : ItemType) (ids : List ℕ) (i : ℕ) {c : Conn}
    (h : c.view.transItems.isSome = true) :
    wp (dbAddTransItems fail transId type i ids)
      (fun _ c' => itemsStop fail i ids.length = false ∧
        c' = c.write (addItemRows (itemRows transId type ids)))
      (fun _ c' => itemsStop fail i ids.length = true ∧ ∃ f, c' = c.write f) c := by
  induction ids generalizing i c with
  | nil => exact ⟨rfl, by rw [itemRows_nil, addItemRows_nil, Conn.write_id]⟩
  | cons id rest ih =>
      rw [dbAddTransItems, wp_bind, wp_get]
      simp only [wp_bind, wp_prepareAndBind, wp_stepDone, h, Bool.not_true, Bool.false_or,
        List.length_cons, itemsStop]
      cases hprep : stmtStops (fail i) 3 with
      | true => exact ⟨rfl, _, (Conn.write_id c).symm⟩
      | false =>
          cases hstep : fail i .step with
          | true => exact ⟨rfl, _, (Conn.write_id c).symm⟩
          | false =>
              simp only [Bool.false_eq_true, if_false, wp_modify, Bool.false_or]
              refine wp_mono (ih (i + 1) ?_) ?_ ?_
              · obtain ⟨items, hitems⟩ := Option.isSome_iff_exists.mp h
                simp [hitems]
              · rintro _ c' ⟨hstop, rfl⟩
                refine ⟨hstop, ?_⟩
                rw [Conn.write_write]
                congr 1
                funext db
                obtain ⟨rpms, names, flagSet, transactions, transItems⟩ := db
                cases transItems <;> rfl
              · rintro _ c' ⟨hstop, f, rfl⟩
                exact ⟨hstop, _, Conn.write_write _ _ _⟩

/-- A loop over no rows does nothing, also where the table is missing. -/
theorem dbAddTransItems_wp (fail : ℕ → StmtSite → Bool) (transId : ℕ) (type : ItemType)
    (ids : List ℕ) (c : Conn) :
    wp (dbAddTransItems fail transId type 0 ids)
      (fun _ c' => itemRowsStop fail c.view.transItems.isSome ids.length = false ∧
        c' = c.write (addItemRows (itemRows transId type ids)))
      (fun _ c' => itemRowsStop fail c.view.transItems.isSome ids.length = true ∧
        ∃ f, c' = c.write f) c := by
  cases ids with
  | nil =>
      exact ⟨by simp [itemRowsStop], by rw [itemRows_nil, addItemRows_nil, Conn.write_id]⟩
  | cons id rest =>
      cases h : c.view.transItems.isSome with
      | true =>
          simpa [itemRowsStop] using
            dbAddTransItems_existing_wp fail transId type (id :: rest) 0 h
      | false =>
          rw [dbAddTransItems, wp_bind, wp_get]
          simp only [wp_bind, wp_prepareAndBind, h]
          exact ⟨by simp [itemRowsStop], _, (Conn.write_id c).symm⟩

/-- The rows of two calls in a row. -/
theorem addItemRows_append (rows₁ rows₂ : List ItemRow) (db : Db) :
    addItemRows rows₂ (addItemRows rows₁ db) = addItemRows (rows₁ ++ rows₂) db := by
  obtain ⟨rpms, names, flagSet, transactions, transItems⟩ := db
  cases transItems with
  | none => rfl
  | some t => simp [addItemRows, AutoTable.insertAll_append]

theorem beginTransaction_wp (fail : Bool) (c : Conn) :
    wp (beginTransaction fail)
      (fun _ c' => (fail || c.pending.isSome) = false ∧ c' = ⟨c.durable, some c.durable⟩)
      (fun _ c' => (fail || c.pending.isSome) = true ∧ c' = c) c := by
  rw [beginTransaction, wp_bind, wp_get, wp_ite]
  constructor
  · exact fun h => ⟨h, rfl⟩
  · exact fun h => ⟨by simpa using h, rfl⟩

theorem execCreate_wp (fail : Bool) (f : Db → Db) (c : Conn) :
    wp (execCreate fail f) (fun _ c' => fail = false ∧ c' = c.write f)
      (fun _ c' => fail = true ∧ c' = c) c := by
  rw [execCreate, wp_ite]
  constructor
  · exact fun h => ⟨h, rfl⟩
  · exact fun h => ⟨by simpa using h, rfl⟩

section Session

variable {α : Type} {Q : α → HistoryCtx → Prop} {E : Rc → HistoryCtx → Prop}

@[simp] theorem wp_onDb (x : DbProc α) (ctx : HistoryCtx) :
    wp (onDb x) Q E ctx ↔
      wp x (fun a c => Q a (ctx.setDb c)) (fun e c => E e (ctx.setDb c)) ctx.db :=
  wp_within _ _ _

/-- Two states of the connection have the same recorded transactions on disk. -/
structure SameOnDisk (c c' : Conn) : Prop where
  transactions : c'.durable.transactions = c.durable.transactions
  transItems : c'.durable.transItems = c.durable.transItems

/-- Nothing but the dictionary changed. -/
structure Unrecorded (ctx ctx' : HistoryCtx) : Prop where
  onDisk : SameOnDisk ctx.db ctx'.db
  installedIds : ctx'.installedIds = ctx.installedIds
  cookie : ctx'.cookie = ctx.cookie
  transId : ctx'.transId = ctx.transId

theorem SameOnDisk.setRpms (t : AutoTable String) (c : Conn) : SameOnDisk c (c.setRpms t) := by
  obtain ⟨db, w⟩ := c
  cases w with
  | none => exact ⟨rfl, rfl⟩
  | some w => exact ⟨rfl, rfl⟩

/-- A rollback keeps what is on disk, also where it fails. -/
theorem Unrecorded.rolledBack {ctx ctx' : HistoryCtx} (h : Unrecorded ctx ctx') (fail : Bool) :
    Unrecorded ctx (ctx'.setDb (rollback fail ctx'.db)) :=
  ⟨⟨by simpa using h.onDisk.transactions, by simpa using h.onDisk.transItems⟩,
    h.installedIds, h.cookie, h.transId⟩

theorem Unrecorded.setDb_rollback {ctx : HistoryCtx} {c : Conn} (h : SameOnDisk ctx.db c)
    (fail : Bool) : Unrecorded ctx (ctx.setDb (rollback fail c)) :=
  ⟨⟨by simpa using h.transactions, by simpa using h.transItems⟩, rfl, rfl, rfl⟩

end Session

section Update

/-- The new installed ids and the difference that `history_update_state` records. -/
def updateDiff (fail : Faults) (rpmdb : RpmDb) (ctx : HistoryCtx) : List ℕ × List ℕ :=
  diffArrays ctx.installedIds (rpmsPass fail rpmdb.nevras ctx.db).1

/-- Some checked call behind the cookie comparison of `history_update_state` fails. -/
def updateStops (fail : Faults) (rpmdb : RpmDb) (ctx : HistoryCtx) : Bool :=
  rpmsStops fail rpmdb.nevras ctx.db ||
    (fail .beginTransaction || ctx.db.pending.isSome) ||
    transStops (fun s => fail (.transInsert s)) ctx.db.durable.transactions.isSome ||
    itemRowsStop (fun i s => fail (.itemInsert .add i s)) ctx.db.durable.transItems.isSome
      (updateDiff fail rpmdb ctx).2.length ||
    itemRowsStop (fun i s => fail (.itemInsert .remove i s)) ctx.db.durable.transItems.isSome
      (updateDiff fail rpmdb ctx).1.length

/-- The rows that record a difference. -/
def diffRows (transId : ℕ) (diff : List ℕ × List ℕ) : List ItemRow :=
  itemRows transId .add diff.2 ++ itemRows transId .remove diff.1

/-- The database with one more delta transaction. -/
def recordDelta (rpms : AutoTable String) (row : TransRow) (diff : List ℕ × List ℕ) (db : Db) :
    Db :=
  addItemRows (diffRows (nextKey db.transactions) diff)
    (addTransactionRow row { db with rpms := some rpms })

/-- The context after a successful `history_update_state`. -/
def updatedCtx (fail : Faults) (rpmdb : RpmDb) (now : ℤ) (cmdline : Option String)
    (ctx : HistoryCtx) : HistoryCtx where
  db := commit (fail .commit)
    ⟨{ ctx.db.durable with rpms := some (rpmsPass fail rpmdb.nevras ctx.db).2 },
      some (recordDelta (rpmsPass fail rpmdb.nevras ctx.db).2
        ⟨some rpmdb.cookie, cmdline, now, .delta⟩ (updateDiff fail rpmdb ctx) ctx.db.durable)⟩
  installedIds := (rpmsPass fail rpmdb.nevras ctx.db).1
  cookie := some rpmdb.cookie
  transId := nextKey ctx.db.durable.transactions

/-- One of the item loops of `history_update_state` inside an open transaction. -/
theorem itemLoop_wp {fail : ℕ → StmtSite → Bool} {transId : ℕ} {type : ItemType}
    {ids : List ℕ} {d w : Db} {ctx : HistoryCtx} (hdb : ctx.db = ⟨d, some w⟩)
    {next : Unit → CtxProc Unit} {Q : Unit → HistoryCtx → Prop} {E : Rc → HistoryCtx → Prop}
    (hok : itemRowsStop fail w.transItems.isSome ids.length = false →
      wp (next ()) Q E (ctx.setDb ⟨d, some (addItemRows (itemRows transId type ids) w)⟩))
    (herr : ∀ e w', itemRowsStop fail w.transItems.isSome ids.length = true →
      E e (ctx.setDb ⟨d, some w'⟩)) :
    wp (if 0 < ids.length then do
          let r ← onDb (dbAddTransItems fail transId type 0 ids)
          next r
        else next ()) Q E ctx := by
  rw [wp_ite]
  constructor
  · intro _
    rw [wp_bind, wp_onDb]
    refine wp_mono (dbAddTransItems_wp fail transId type ids ctx.db) ?_ ?_
    · rintro _ c' ⟨hstop, rfl⟩
      rw [hdb, Conn.view_open] at hstop
      rw [hdb, Conn.write_open]
      exact hok hstop
    · rintro e c' ⟨hstop, f, rfl⟩
      rw [hdb, Conn.view_open] at hstop
      rw [hdb, Conn.write_open]
      exact herr e (f w) hstop
  · intro hnone
    have hnil : ids = [] := List.length_eq_zero_iff.mp (by omega)
    subst hnil
    have h := hok (by simp [itemRowsStop])
    rw [itemRows_nil, addItemRows_nil, ← hdb] at h
    exact h

@[simp] theorem addTransactionRow_transItems (row : TransRow) (db : Db) :
    (addTransactionRow row db).transItems = db.transItems := rfl

@[simp] theorem addItemRows_transItems_isSome (rows : List ItemRow) (db : Db) :
    (addItemRows rows db).transItems.isSome = db.transItems.isSome := by
  simp [addItemRows]

/-- `history_update_state` under any choice of failing statements. -/
theorem historyUpdateState_wp (fail : Faults) (rpmdb : RpmDb) (now : ℤ)
    (cmdline : Option String) (ctx : HistoryCtx) :
    wp (historyUpdateState fail rpmdb now cmdline)
      (fun _ ctx' => (ctx.cookie = some rpmdb.cookie ∧ ctx' = ctx) ∨
        (ctx.cookie ≠ some rpmdb.cookie ∧ updateStops fail rpmdb ctx = false ∧
          ctx' = updatedCtx fail rpmdb now cmdline ctx))
      (fun _ ctx' => ctx.cookie ≠ some rpmdb.cookie ∧ updateStops fail rpmdb ctx = true ∧
        Unrecorded ctx ctx') ctx := by
  rw [historyUpdateState, wp_bind, wp_get, wp_ite]
  refine ⟨fun h => .inl ⟨h, rfl⟩, fun hcookie => ?_⟩
  rw [endingTransaction, wp_finishing, recordUpdate, wp_bind, wp_onDb]
  refine wp_mono (dbUpdateRpms_wp fail rpmdb.nevras ctx.db) ?_ ?_
  · rintro ids c ⟨hrpms, rfl, rfl⟩
    simp only [wp_bind, wp_get, wp_onDb, HistoryCtx.setDb_db, HistoryCtx.setDb_setDb,
      HistoryCtx.setDb_installedIds]
    refine wp_mono (beginTransaction_wp (fail .beginTransaction) _) ?_ ?_
    · rintro _ c ⟨hbegin, rfl⟩
      rw [Conn.setRpms_pending_isSome] at hbegin
      rw [Conn.setRpms_durable (by simpa using (Bool.or_eq_false_iff.mp hbegin).2)]
      refine wp_mono (dbAddTransaction_wp (fun s => fail (.transInsert s)) _ _) ?_ ?_
      · rintro transId c ⟨htrans, rfl, rfl⟩
        simp only [Conn.view_open, Conn.write_open] at htrans ⊢
        refine itemLoop_wp (HistoryCtx.setDb_db _ _)
          (fun hadd => itemLoop_wp (HistoryCtx.setDb_db _ _) (fun hremove => ?_) ?_) ?_
        · simp only [addItemRows_transItems_isSome, addTransactionRow_transItems] at hadd hremove
          refine .inr ⟨hcookie, ?_, ?_⟩
          · rw [updateStops, hrpms, hbegin, htrans, updateDiff]
            simp only [Bool.false_or, hadd, hremove]
          · simp only [addItemRows_append]
            rfl
        · intro e w hremove
          simp only [addItemRows_transItems_isSome, addTransactionRow_transItems] at hremove
          refine ⟨hcookie, ?_, Unrecorded.rolledBack ?_ _⟩
          · rw [updateStops, updateDiff, hremove, Bool.or_true]
          · exact ⟨⟨rfl, rfl⟩, rfl, rfl, rfl⟩
        · intro e w hadd
          simp only [addTransactionRow_transItems] at hadd
          refine ⟨hcookie, ?_, Unrecorded.rolledBack ?_ _⟩
          · rw [updateStops, updateDiff, hadd, Bool.or_true, Bool.true_or]
          · exact ⟨⟨rfl, rfl⟩, rfl, rfl, rfl⟩
      · rintro e c ⟨htrans, rfl⟩
        simp only [Conn.view_open] at htrans
        refine ⟨hcookie, ?_, Unrecorded.setDb_rollback ?_ _⟩
        · rw [updateStops, htrans, Bool.or_true, Bool.true_or, Bool.true_or]
        · exact ⟨rfl, rfl⟩
    · rintro e c ⟨hbegin, rfl⟩
      rw [Conn.setRpms_pending_isSome] at hbegin
      refine ⟨hcookie, ?_, Unrecorded.setDb_rollback (SameOnDisk.setRpms _ _) _⟩
      rw [updateStops, hbegin, Bool.or_true, Bool.true_or, Bool.true_or, Bool.true_or]
  · rintro e c ⟨hrpms, hc⟩
    refine ⟨hcookie, by simp [updateStops, hrpms], Unrecorded.setDb_rollback ?_ _⟩
    rcases hc with rfl | ⟨t', rfl⟩
    · exact ⟨rfl, rfl⟩
    · exact SameOnDisk.setRpms t' _

end Update

section Baseline

/-- Some checked call of `history_record_state` fails. -/
def recordStops (fail : Faults) (ctx : HistoryCtx) : Bool :=
  (fail .beginTransaction || ctx.db.pending.isSome) || fail .createTransactions ||
    transStops (fun s => fail (.transInsert s)) true || fail .createTransItems ||
    itemRowsStop (fun i s => fail (.itemInsert .set i s)) true ctx.installedIds.length

/-- The database with one more baseline. -/
def recordBase (row : TransRow) (ids : List ℕ) (db : Db) : Db :=
  addItemRows (itemRows (nextKey db.transactions) .set ids)
    (createTransItems (addTransactionRow row (createTransactions db)))

/-- The context after a successful `history_record_state`. -/
def recordedCtx (fail : Faults) (now : ℤ) (ctx : HistoryCtx) : HistoryCtx where
  db := commit (fail .commit) ⟨ctx.db.durable,
    some (recordBase ⟨ctx.cookie, some "(set)", now, .base⟩ ctx.installedIds ctx.db.durable)⟩
  installedIds := ctx.installedIds
  cookie := ctx.cookie
  transId := nextKey ctx.db.durable.transactions

@[simp] theorem nextKey_createIfMissing {α : Type} (t : Option (AutoTable α)) :
    nextKey (createIfMissing t) = nextKey t := rfl

/-- `history_record_state` under any choice of failing statements. -/
theorem historyRecordState_wp (fail : Faults) (now : ℤ) (ctx : HistoryCtx) :
    wp (historyRecordState fail now)
      (fun _ ctx' => recordStops fail ctx = false ∧ ctx' = recordedCtx fail now ctx)
      (fun _ ctx' => recordStops fail ctx = true ∧ Unrecorded ctx ctx') ctx := by
  rw [historyRecordState, endingTransaction, wp_finishing]
  simp only [wp_bind, wp_get, wp_onDb, wp_modify, HistoryCtx.setDb_db, HistoryCtx.setDb_setDb,
    HistoryCtx.setDb_installedIds, HistoryCtx.setDb_cookie]
  refine wp_mono (beginTransaction_wp (fail .beginTransaction) _) ?_ ?_
  · rintro _ c ⟨hbegin, rfl⟩
    refine wp_mono (execCreate_wp (fail .createTransactions) createTransactions _) ?_ ?_
    · rintro _ c ⟨hcreate, rfl⟩
      refine wp_mono (dbAddTransaction_wp (fun s => fail (.transInsert s)) _ _) ?_ ?_
      · rintro transId c ⟨htrans, rfl, rfl⟩
        refine wp_mono (execCreate_wp (fail .createTransItems) createTransItems _) ?_ ?_
        · rintro _ c ⟨hitems, rfl⟩
          refine wp_mono (dbAddTransItems_wp _ _ _ _ _) ?_ ?_
          · rintro _ c ⟨hrows, rfl⟩
            refine ⟨?_, rfl⟩
            rw [recordStops, hbegin, hcreate, hitems]
            simp only [Bool.false_or, Bool.or_false, Bool.or_eq_false_iff]
            exact ⟨htrans, hrows⟩
          · rintro e c ⟨hrows, f, rfl⟩
            refine ⟨?_, Unrecorded.setDb_rollback ?_ _⟩
            · have hstop : itemRowsStop (fun i s => fail (.itemInsert .set i s)) true
                  ctx.installedIds.length = true := hrows
              rw [recordStops, hstop, Bool.or_true]
            · exact ⟨rfl, rfl⟩
        · rintro e c ⟨hitems, rfl⟩
          refine ⟨?_, Unrecorded.setDb_rollback ?_ _⟩
          · rw [recordStops, hitems, Bool.or_true, Bool.true_or]
          · exact ⟨rfl, rfl⟩
      · rintro e c ⟨htrans, rfl⟩
        refine ⟨?_, Unrecorded.setDb_rollback ?_ _⟩
        · have hstop : transStops (fun s => fail (.transInsert s)) true = true := htrans
          rw [recordStops, hstop, Bool.or_true, Bool.true_or, Bool.true_or]
        · exact ⟨rfl, rfl⟩
    · rintro e c ⟨hcreate, rfl⟩
      refine ⟨?_, Unrecorded.setDb_rollback ?_ _⟩
      · rw [recordStops, hcreate, Bool.or_true, Bool.true_or, Bool.true_or, Bool.true_or]
      · exact ⟨rfl, rfl⟩
  · rintro e c ⟨hbegin, rfl⟩
    refine ⟨?_, Unrecorded.setDb_rollback ?_ _⟩
    · rw [recordStops, hbegin, Bool.true_or, Bool.true_or, Bool.true_or, Bool.true_or]
    · exact ⟨rfl, rfl⟩

end Baseline

section NoFault

variable {ctx : HistoryCtx}

theorem itemsStop_noFault (i n : ℕ) : itemsStop (fun _ _ => false) i n = false := by
  have hstops : stmtStops (fun _ => false) 3 = false := stmtStops_noStmtFault 3
  induction n generalizing i with
  | zero => rfl
  | succ n ih => simp [itemsStop, hstops, ih]

theorem transStops_noFault : transStops (fun _ => false) true = false := by
  have hstops : stmtStops (fun _ => false) 4 = false := stmtStops_noStmtFault 4
  simp [transStops, hstops]

theorem historyUpdateState_noFault (hpending : ctx.db.pending = none)
    (htrans : ctx.db.durable.transactions.isSome = true)
    (hitems : ctx.db.durable.transItems.isSome = true) (rpmdb : RpmDb) (now : ℤ)
    (cmdline : Option String) :
    (historyUpdateState noFault rpmdb now cmdline).run ctx =
      .ok () (if ctx.cookie = some rpmdb.cookie then ctx
        else updatedCtx noFault rpmdb now cmdline ctx) := by
  have hstops : updateStops noFault rpmdb ctx = false := by
    simp [updateStops, rpmsStops_noFault, hpending, htrans, hitems, transStops_noFault,
      itemRowsStop, itemsStop_noFault]
  have hwp := historyUpdateState_wp noFault rpmdb now cmdline ctx
  simp only [hstops, Bool.false_eq_true, false_and, and_false, true_and] at hwp
  obtain ⟨_, ctx', hrun, ⟨hcookie, rfl⟩ | ⟨hcookie, rfl⟩⟩ := exists_ok hwp
  · rw [hrun, if_pos hcookie]
  · rw [hrun, if_neg hcookie]

theorem historyRecordState_noFault (hpending : ctx.db.pending = none) (now : ℤ) :
    (historyRecordState noFault now).run ctx = .ok () (recordedCtx noFault now ctx) := by
  have hstops : recordStops noFault ctx = false := by
    simp [recordStops, hpending, transStops_noFault, itemRowsStop, itemsStop_noFault]
  have hwp := historyRecordState_wp noFault now ctx
  simp only [hstops, Bool.false_eq_true, false_and, true_and] at hwp
  obtain ⟨_, ctx', hrun, rfl⟩ := exists_ok hwp
  exact hrun

/-- The context after a successful `history_add_transaction`. -/
def addedCtx (now : ℤ) (cmdline : Option String) (ctx : HistoryCtx) : HistoryCtx :=
  { ctx.setDb (ctx.db.write (addTransactionRow ⟨ctx.cookie, cmdline, now, .delta⟩)) with
    transId := nextKey ctx.db.view.transactions }

theorem historyAddTransaction_run (now : ℤ) (cmdline : Option String) :
    (historyAddTransaction now cmdline).run ctx =
      if cmdline.isSome = true ∧ ctx.db.view.transactions.isSome = true then
        .ok () (addedCtx now cmdline ctx)
      else .error (if cmdline.isSome = true then .sqliteError else .checkFailed) ctx := by
  cases cmdline with
  | none => rfl
  | some cmdline =>
      have hwp := dbAddTransaction_wp noStmtFault ⟨ctx.cookie, some cmdline, now, .delta⟩ ctx.db
      have hadd : (historyAddTransaction now (some cmdline)).run ctx = EStateM.run (do
          let transId ← onDb (dbAddTransaction noStmtFault
            ⟨ctx.cookie, some cmdline, now, .delta⟩)
          modify fun ctx => { ctx with transId := transId }) ctx := rfl
      rw [hadd]
      cases htable : ctx.db.view.transactions with
      | none =>
          have hrun : (dbAddTransaction noStmtFault
              ⟨ctx.cookie, some cmdline, now, .delta⟩).run ctx.db =
              .error .sqliteError ctx.db := by
            rw [dbAddTransaction, run_get_bind]
            simp only [htable]
            rfl
          rw [run_bind_error (onDb_run_error hrun)]
          rfl
      | some t =>
          have hstops : transStops noStmtFault true = false := transStops_noFault
          simp only [htable, Option.isSome_some, hstops, Bool.false_eq_true, false_and,
            true_and] at hwp
          obtain ⟨id, c', hrun, rfl, rfl⟩ := exists_ok hwp
          rw [run_bind_ok (onDb_run_ok hrun), if_pos ⟨rfl, rfl⟩, addedCtx, htable]
          rfl

end NoFault

end Tdnf.History
