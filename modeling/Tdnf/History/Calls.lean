import Tdnf.History.Chronicle
import Tdnf.History.Flags

/-!
# Calls on a consistent history

What each function of a session does to a consistent history: it stays
consistent, with at most one more recorded set, and the context stands at its
newest transaction.
-/

namespace Tdnf.History

open Relational Procedure

/-- What is assumed of the states of the rpm database. -/
structure RpmContract (rpm : Set RpmDb) : Prop where
  listedOnce : ∀ r ∈ rpm, r.nevras.Nodup
  cookieFaithful : ∀ r ∈ rpm, ∀ r' ∈ rpm, r.cookie = r'.cookie →
    ∀ nevra, nevra ∈ r.nevras ↔ nevra ∈ r'.nevras

/-- A context that lists the newest recorded set. -/
structure AtNewest (recorded : ℕ → List String) (transactions : AutoTable TransRow)
    (rpms : AutoTable String) (ctx : HistoryCtx) : Prop where
  ascending : ctx.installedIds.Pairwise (· < ·)
  installed : ∀ id, id ∈ ctx.installedIds ↔ id ∈ idsOf rpms (recorded transactions.seq)

/-- The context of a session stands at the newest transaction. -/
structure SessionOk (recorded : ℕ → List String) (transactions : AutoTable TransRow)
    (rpms : AutoTable String) (ctx : HistoryCtx) (synced : Bool) : Prop where
  transId : ctx.transId = transactions.seq
  cookie : ∀ row, (transactions.seq, row) ∈ transactions.rows → ctx.cookie = row.cookie
  ascending : ctx.installedIds.Pairwise (· < ·)
  installed : synced = true →
    ∀ id, id ∈ ctx.installedIds ↔ id ∈ idsOf rpms (recorded transactions.seq)

/-- The same without a statement on how often a package is listed. -/
structure SessionListed (recorded : ℕ → List String) (transactions : AutoTable TransRow)
    (rpms : AutoTable String) (ctx : HistoryCtx) (synced : Bool) : Prop where
  transId : ctx.transId = transactions.seq
  cookie : ∀ row, (transactions.seq, row) ∈ transactions.rows → ctx.cookie = row.cookie
  ordered : ctx.installedIds.Pairwise (· ≤ ·)
  installed : synced = true →
    ∀ id, id ∈ ctx.installedIds ↔ id ∈ idsOf rpms (recorded transactions.seq)

section Calls

variable {rpm : Set RpmDb} {recorded : ℕ → List String} {db : Db}
  {transactions : AutoTable TransRow} {items : AutoTable ItemRow} {rpms : AutoTable String}
  {ctx : HistoryCtx} {rpmdb : RpmDb}

theorem mem_diffRows_add {transId id : ℕ} {diff : List ℕ × List ℕ} :
    ⟨transId, .add, id⟩ ∈ diffRows transId diff ↔ id ∈ diff.2 := by
  simp [diffRows, itemRows]

theorem mem_diffRows_remove {transId id : ℕ} {diff : List ℕ × List ℕ} :
    ⟨transId, .remove, id⟩ ∈ diffRows transId diff ↔ id ∈ diff.1 := by
  simp [diffRows, itemRows]

/-- The dictionary pass of a consistent history. -/
theorem Chronicle.interned (h : Chronicle rpm recorded db transactions items rpms)
    (hdb : ctx.db = ⟨db, none⟩) (nevras : List String) :
    Interned rpms nevras (rpmsPass noFault nevras ctx.db).1
      (rpmsPass noFault nevras ctx.db).2 := by
  have hdict : ctx.db.dictionary = rpms := by
    simp [Conn.dictionary, hdb, h.rpmsTable]
  have hinterned := interned_rpmsPass nevras ctx.db (hdict ▸ h.nodup)
  rwa [hdict] at hinterned

/-- A larger dictionary describes the same history. -/
theorem Chronicle.grow (h : Chronicle rpm recorded db transactions items rpms)
    {rpms' : AutoTable String} {more : List String} (hmore : rpms' = rpms.insertAll more)
    (hnodup : rpms'.values.Nodup) {db' : Db} (hdb' : db' = { db with rpms := some rpms' }) :
    Chronicle rpm recorded db' transactions items rpms' := by
  subst hdb'
  have hids : ∀ {t}, 0 < t → t ≤ transactions.seq →
      idsOf rpms' (recorded t) = idsOf rpms (recorded t) := fun hpos hle =>
    idsOf_grown hmore hnodup (h.known _ hpos hle)
  have hkeep : ∀ {r}, r ∈ rpms.rows → r ∈ rpms'.rows := fun hr =>
    hmore ▸ rpms.mem_insertAll_of_mem more hr
  refine { h with
    rpmsTable := rfl
    nodup := hnodup
    itemKnown := fun item hitem => ?_
    known := fun t hpos hle nevra hmem => ?_
    first := ?_
    added := fun t hpos hlt => ?_
    removed := fun t hpos hlt => ?_ }
  · obtain ⟨nevra, hrow⟩ := h.itemKnown item hitem
    exact ⟨nevra, hkeep hrow⟩
  · obtain ⟨id, hrow⟩ := h.known t hpos hle nevra hmem
    exact ⟨id, hkeep hrow⟩
  · rw [hids Nat.one_pos h.nonempty]
    exact h.first
  · rw [hids (by omega) hlt, hids hpos hlt.le]
    exact h.added t hpos hlt
  · rw [hids (by omega) hlt, hids hpos hlt.le]
    exact h.removed t hpos hlt

theorem SessionOk.listed {synced : Bool}
    (h : SessionOk recorded transactions rpms ctx synced) :
    SessionListed recorded transactions rpms ctx synced :=
  ⟨h.transId, h.cookie, h.ascending.imp le_of_lt, h.installed⟩

theorem SessionListed.ok {synced : Bool}
    (h : SessionListed recorded transactions rpms ctx synced)
    (hasc : ctx.installedIds.Pairwise (· < ·)) : SessionOk recorded transactions rpms ctx synced :=
  ⟨h.transId, h.cookie, hasc, h.installed⟩

/-- The row that `history_update_state` writes. -/
def updateRow (rpmdb : RpmDb) (now : ℤ) (cmdline : Option String) : TransRow :=
  ⟨some rpmdb.cookie, cmdline, now, .delta⟩

/-- The file after a successful `history_update_state`. -/
theorem updatedCtx_db (hdb : ctx.db = ⟨db, none⟩) (now : ℤ) (cmdline : Option String) :
    (updatedCtx noFault rpmdb now cmdline ctx).db =
      ⟨recordDelta (rpmsPass noFault rpmdb.nevras ctx.db).2 (updateRow rpmdb now cmdline)
        (updateDiff noFault rpmdb ctx) db, none⟩ := by
  simp [updatedCtx, updateRow, hdb]

/-- What the recorded difference has to be: that of the sets of ids. -/
def DiffOfSets (rpmdb : RpmDb) (ctx : HistoryCtx) : Prop :=
  ∀ id, (id ∈ (updateDiff noFault rpmdb ctx).1 ↔
      id ∈ ctx.installedIds ∧ id ∉ (rpmsPass noFault rpmdb.nevras ctx.db).1) ∧
    (id ∈ (updateDiff noFault rpmdb ctx).2 ↔
      id ∈ (rpmsPass noFault rpmdb.nevras ctx.db).1 ∧ id ∉ ctx.installedIds)

/-- Recording a difference of sets extends a consistent history by the set rpm lists. -/
theorem Chronicle.recordSets (hr : rpmdb ∈ rpm)
    (h : Chronicle rpm recorded db transactions items rpms) (hdb : ctx.db = ⟨db, none⟩)
    (hinstalled : ∀ id, id ∈ ctx.installedIds ↔ id ∈ idsOf rpms (recorded transactions.seq))
    (hdiff : DiffOfSets rpmdb ctx) (now : ℤ) (cmdline : Option String) :
    Chronicle rpm (Function.update recorded (transactions.seq + 1) rpmdb.nevras)
      (recordDelta (rpmsPass noFault rpmdb.nevras ctx.db).2 (updateRow rpmdb now cmdline)
        (updateDiff noFault rpmdb ctx) db)
      (transactions.insert (updateRow rpmdb now cmdline))
      (items.insertAll (diffRows (transactions.seq + 1) (updateDiff noFault rpmdb ctx)))
      (rpmsPass noFault rpmdb.nevras ctx.db).2 := by
  have hpass := h.interned hdb rpmdb.nevras
  obtain ⟨more, hmore⟩ := hpass.grown
  have hnewest := idsOf_grown hmore hpass.nodup (h.known _ h.nonempty le_rfl)
  refine h.extend rfl hpass.grown hpass.nodup hpass.known ?_ ?_ ?_ ?_ ?_ ?_ ?_
  · intro item hitem
    rcases List.mem_append.mp hitem with hitem | hitem
    · obtain ⟨id, -, rfl⟩ := List.mem_map.mp hitem
      simp
    · obtain ⟨id, -, rfl⟩ := List.mem_map.mp hitem
      simp
  · intro id
    rw [mem_diffRows_add, Set.mem_sdiff, hnewest, ← hinstalled id]
    exact (hdiff id).2.trans (and_congr_left' (hpass.mem_ids id))
  · intro id
    rw [mem_diffRows_remove, Set.mem_sdiff, hnewest, ← hinstalled id]
    exact (hdiff id).1.trans (and_congr_right' (not_congr (hpass.mem_ids id)))
  · exact ⟨rpmdb, hr, rfl, fun _ => Iff.rfl⟩
  · simp [recordDelta, addItemRows, addTransactionRow, h.transactionsTable]
  · simp [recordDelta, addItemRows, addTransactionRow, h.transactionsTable, h.itemsTable]
  · rfl

/-- The context after recording stands at the new transaction. -/
theorem Chronicle.updatedCtx_listed
    (h : Chronicle rpm recorded db transactions items rpms) (hdb : ctx.db = ⟨db, none⟩)
    (now : ℤ) (cmdline : Option String) :
    SessionListed (Function.update recorded (transactions.seq + 1) rpmdb.nevras)
      (transactions.insert (updateRow rpmdb now cmdline))
      (rpmsPass noFault rpmdb.nevras ctx.db).2 (updatedCtx noFault rpmdb now cmdline ctx) true := by
  have hpass := h.interned hdb rpmdb.nevras
  refine ⟨by simp [updatedCtx, hdb, h.transactionsTable], fun row hrow => ?_,
    sortArray_ordered _, fun _ id => ?_⟩
  · have hsame := AutoTable.row_unique _ hrow
      ((transactions.mem_insert _ _).mpr (.inr rfl))
    rw [hsame]
    rfl
  · rw [AutoTable.insert_seq, Function.update_self]
    exact hpass.mem_ids id

/-- Recording a difference extends a consistent history by the set rpm lists. -/
theorem Chronicle.update (hrpm : RpmContract rpm) (hr : rpmdb ∈ rpm)
    (h : Chronicle rpm recorded db transactions items rpms) (hdb : ctx.db = ⟨db, none⟩)
    (hctx : AtNewest recorded transactions rpms ctx) (now : ℤ) (cmdline : Option String) :
    ∃ db' row items' rpms', (updatedCtx noFault rpmdb now cmdline ctx).db = ⟨db', none⟩ ∧
      (db'.names = db.names ∧ db'.flagSet = db.flagSet) ∧
      Chronicle rpm (Function.update recorded (transactions.seq + 1) rpmdb.nevras) db'
        (transactions.insert row) items' rpms' ∧
      SessionOk (Function.update recorded (transactions.seq + 1) rpmdb.nevras)
        (transactions.insert row) rpms' (updatedCtx noFault rpmdb now cmdline ctx) true := by
  have hasc := (h.interned hdb rpmdb.nevras).ascending (hrpm.listedOnce rpmdb hr)
  have hdiff : DiffOfSets rpmdb ctx := OrderedDiff.mem_diff hctx.ascending hasc
  exact ⟨_, updateRow rpmdb now cmdline, _, _, updatedCtx_db hdb now cmdline, ⟨rfl, rfl⟩,
    h.recordSets hr hdb hctx.installed hdiff now cmdline,
    (h.updatedCtx_listed hdb now cmdline).ok hasc⟩

/-- An empty transaction extends a consistent history by the newest set once more. -/
theorem Chronicle.recordEmpty (h : Chronicle rpm recorded db transactions items rpms)
    {synced : Bool} (hctx : SessionListed recorded transactions rpms ctx synced)
    (hdb : ctx.db = ⟨db, none⟩) (now : ℤ) (cmdline : Option String) :
    ∃ db' row, (addedCtx now cmdline ctx).db = ⟨db', none⟩ ∧
      (db'.names = db.names ∧ db'.flagSet = db.flagSet) ∧
      Chronicle rpm (Function.update recorded (transactions.seq + 1) (recorded transactions.seq))
        db' (transactions.insert row) items rpms ∧
      SessionListed (Function.update recorded (transactions.seq + 1) (recorded transactions.seq))
        (transactions.insert row) rpms (addedCtx now cmdline ctx) synced := by
  obtain ⟨row, hrow, r, hr, hcookie, hset⟩ := h.newest
  refine ⟨addTransactionRow ⟨ctx.cookie, cmdline, now, .delta⟩ db,
    ⟨ctx.cookie, cmdline, now, .delta⟩, by simp [addedCtx, hdb], ⟨rfl, rfl⟩, ?_, ?_⟩
  · have hnone : ∀ item ∈ ([] : List ItemRow),
        item.transId = transactions.seq + 1 ∧ item.type ≠ .set := by simp
    refine h.extend rfl ⟨[], rfl⟩ h.nodup (h.known _ h.nonempty le_rfl) hnone
      (by simp) (by simp) ⟨r, hr, ?_, hset⟩ ?_ h.itemsTable h.rpmsTable
    · rw [hctx.cookie row hrow, hcookie]
    · simp [addTransactionRow, h.transactionsTable]
  · refine ⟨by simp [addedCtx, hdb, h.transactionsTable], fun row' hrow' => ?_, hctx.ordered,
      fun hsynced id => ?_⟩
    · have hsame := AutoTable.row_unique _ hrow'
        ((transactions.mem_insert _ _).mpr (.inr rfl))
      rw [hsame]
      rfl
    · rw [AutoTable.insert_seq, Function.update_self]
      exact hctx.installed hsynced id

theorem Chronicle.addTransaction (h : Chronicle rpm recorded db transactions items rpms)
    {synced : Bool} (hctx : SessionOk recorded transactions rpms ctx synced)
    (hdb : ctx.db = ⟨db, none⟩) (now : ℤ) (cmdline : Option String) :
    ∃ db' row, (addedCtx now cmdline ctx).db = ⟨db', none⟩ ∧
      (db'.names = db.names ∧ db'.flagSet = db.flagSet) ∧
      Chronicle rpm (Function.update recorded (transactions.seq + 1) (recorded transactions.seq))
        db' (transactions.insert row) items rpms ∧
      SessionOk (Function.update recorded (transactions.seq + 1) (recorded transactions.seq))
        (transactions.insert row) rpms (addedCtx now cmdline ctx) synced := by
  obtain ⟨db', row, hdb', hsame, h', hctx'⟩ := h.recordEmpty hctx.listed hdb now cmdline
  exact ⟨db', row, hdb', hsame, h', hctx'.ok hctx.ascending⟩

/-- The newest row of a consistent history. -/
theorem Chronicle.newestTransaction_eq
    (h : Chronicle rpm recorded db transactions items rpms) :
    ∃ row, newestTransaction db = some (transactions.seq, row) ∧
      (transactions.seq, row) ∈ transactions.rows := by
  obtain ⟨row, hrow⟩ := h.dense transactions.seq h.nonempty le_rfl
  have hkey := h.lastKey_eq
  cases hlast : transactions.rows.getLast? with
  | none =>
      rw [List.getLast?_eq_none_iff.mp hlast] at hrow
      cases hrow
  | some r =>
      obtain ⟨k, row'⟩ := r
      have hk : k = transactions.seq := by simpa [AutoTable.lastKey, hlast] using hkey
      subst hk
      exact ⟨row', by simp [newestTransaction, h.transactionsTable, hlast],
        List.mem_of_getLast? hlast⟩

theorem historySetState_run {t : ℕ} {ids : List ℕ} (h : playedIds ctx.db.view t = .ok ids) :
    (historySetState t).run ctx = .ok () { ctx with installedIds := ids, transId := t } := by
  rw [historySetState, run_get_bind, h]
  rfl

/-- The context after `history_sync` found its cookie unchanged. -/
def syncedCtx (rpmdb : RpmDb) (cookie : Option String) (transId : ℕ) (ctx : HistoryCtx) :
    HistoryCtx :=
  { ctx.setDb (ctx.db.setRpms (rpmsPass noFault rpmdb.nevras ctx.db).2) with
    installedIds := (rpmsPass noFault rpmdb.nevras ctx.db).1
    cookie := cookie
    transId := transId }

theorem historySync_unchanged_run {id : ℕ} {row : TransRow}
    (hnewest : newestTransaction ctx.db.view = some (id, row))
    (hcookie : row.cookie = some rpmdb.cookie) (now : ℤ) :
    (historySync rpmdb now).run ctx = .ok () (syncedCtx rpmdb row.cookie id ctx) := by
  rw [historySync, run_get_bind, hnewest]
  simp only [hcookie, if_true]
  rw [run_bind_ok (onDb_run_ok (dbUpdateRpms_noFault rpmdb.nevras ctx.db))]
  rfl

/-- The context that `history_sync` hands to `history_update_state` when the rpm database
was changed from outside. -/
def rewoundCtx (ids : List ℕ) (cookie : Option String) (transId : ℕ) (ctx : HistoryCtx) :
    HistoryCtx :=
  { ctx with installedIds := ids, cookie := cookie, transId := transId }

theorem historySync_changed_run {id : ℕ} {row : TransRow} {ids : List ℕ}
    (hnewest : newestTransaction ctx.db.view = some (id, row))
    (hcookie : row.cookie ≠ some rpmdb.cookie) (hplayed : playedIds ctx.db.view id = .ok ids)
    (now : ℤ) :
    (historySync rpmdb now).run ctx =
      (historyUpdateState noFault rpmdb now (some "(unknown)")).run
        (rewoundCtx ids row.cookie id ctx) := by
  rw [historySync, run_get_bind, hnewest]
  simp only [hcookie, if_false]
  rw [run_bind_ok (historySetState_run hplayed)]
  rfl

/-- The context that `history_sync` hands to `history_record_state` when there is no
transaction yet. -/
def baselineCtx (rpmdb : RpmDb) (ctx : HistoryCtx) : HistoryCtx :=
  { ctx.setDb (ctx.db.setRpms (rpmsPass noFault rpmdb.nevras ctx.db).2) with
    installedIds := (rpmsPass noFault rpmdb.nevras ctx.db).1
    cookie := some rpmdb.cookie }

theorem historySync_fresh_run (hnewest : newestTransaction ctx.db.view = none) (now : ℤ) :
    (historySync rpmdb now).run ctx =
      (historyRecordState noFault now).run (baselineCtx rpmdb ctx) := by
  rw [historySync, run_get_bind, hnewest]
  have hcookie : (modify fun ctx => { ctx with cookie := some rpmdb.cookie } :
      CtxProc PUnit).run ctx = .ok ⟨⟩ { ctx with cookie := some rpmdb.cookie } := rfl
  have hrpms : (onDb (dbUpdateRpms noFault rpmdb.nevras)).run
      { ctx with cookie := some rpmdb.cookie } = _ :=
    onDb_run_ok (dbUpdateRpms_noFault rpmdb.nevras ctx.db)
  simp only []
  rw [run_bind_ok hcookie, run_bind_ok hrpms]
  rfl

/-- After a call the history is consistent again, with the old records or with one more of
`installed`, and the context stands at its newest transaction. -/
def Continues (rpm : Set RpmDb) (recorded : ℕ → List String) (newest : ℕ)
    (installed : List String) (ctx : HistoryCtx) (synced : Bool) : Prop :=
  ∃ db transactions items rpms recorded', ctx.db = ⟨db, none⟩ ∧ FlagStore db ∧
    ((transactions.seq = newest ∧ recorded' = recorded) ∨
      (transactions.seq = newest + 1 ∧
        recorded' = Function.update recorded (newest + 1) installed)) ∧
    Chronicle rpm recorded' db transactions items rpms ∧
    SessionOk recorded' transactions rpms ctx synced

theorem FlagStore.congr {db db' : Db} (h : FlagStore db)
    (hsame : db'.names = db.names ∧ db'.flagSet = db.flagSet) : FlagStore db' := by
  refine ⟨by rw [hsame.1, hsame.2, h.tables], ?_⟩
  rw [hsame.1, hsame.2]
  exact h.named

/-- A call that leaves the history tables and the context alone. -/
theorem continues_of_same (h : Chronicle rpm recorded db transactions items rpms)
    {synced : Bool} (hctx : SessionOk recorded transactions rpms ctx synced)
    {ctx' : HistoryCtx} {db' : Db} (hdb' : ctx'.db = ⟨db', none⟩) (hflags : FlagStore db')
    (htrans : db'.transactions = db.transactions) (hitems : db'.transItems = db.transItems)
    (hrpms : db'.rpms = db.rpms) (hsame : ctx' = ctx.setDb ctx'.db) (installed : List String) :
    Continues rpm recorded transactions.seq installed ctx' synced := by
  refine ⟨db', transactions, items, rpms, recorded, hdb', hflags, .inl ⟨rfl, rfl⟩,
    h.congr htrans hitems hrpms, ?_⟩
  rw [hsame]
  exact ⟨hctx.transId, hctx.cookie, hctx.ascending, hctx.installed⟩

section Recording

variable (hrpm : RpmContract rpm) (hr : rpmdb ∈ rpm)
  (h : Chronicle rpm recorded db transactions items rpms) (hdb : ctx.db = ⟨db, none⟩)
  (hflags : FlagStore db)

include h hdb

theorem tables_exist : ctx.db.pending = none ∧ ctx.db.durable.transactions.isSome = true ∧
    ctx.db.durable.transItems.isSome = true := by
  simp [hdb, h.transactionsTable, h.itemsTable]

include hrpm hr hflags

/-- `history_update_state` on a consistent history. -/
theorem continues_update {synced : Bool} (hctx : SessionOk recorded transactions rpms ctx synced)
    (hnewest : AtNewest recorded transactions rpms ctx) (now : ℤ) (cmdline : Option String) :
    ∃ ctx', (historyUpdateState noFault rpmdb now cmdline).run ctx = .ok () ctx' ∧
      Continues rpm recorded transactions.seq rpmdb.nevras ctx' true := by
  obtain ⟨hpending, htrans, hitems⟩ := tables_exist h hdb
  refine ⟨_, historyUpdateState_noFault hpending htrans hitems rpmdb now cmdline, ?_⟩
  split_ifs with hcookie
  · exact ⟨db, transactions, items, rpms, recorded, hdb, hflags, .inl ⟨rfl, rfl⟩, h,
      hctx.transId, hctx.cookie, hctx.ascending, fun _ => hnewest.installed⟩
  · obtain ⟨db', row, items', rpms', hdb', hsame, h', hctx'⟩ :=
      h.update hrpm hr hdb hnewest now cmdline
    exact ⟨db', _, items', rpms', _, hdb', hflags.congr hsame, .inr ⟨rfl, rfl⟩, h', hctx'⟩

/-- `history_sync` on a consistent history. -/
theorem continues_sync (now : ℤ) :
    ∃ ctx', (historySync rpmdb now).run ctx = .ok () ctx' ∧
      Continues rpm recorded transactions.seq rpmdb.nevras ctx' true := by
  obtain ⟨row, hnewest, hrow⟩ := h.newestTransaction_eq
  have hview : newestTransaction ctx.db.view = some (transactions.seq, row) := by
    simpa [hdb] using hnewest
  obtain ⟨row', hrow', r, hrmem, hcookie, hset⟩ := h.newest
  have hrow_eq := AutoTable.row_unique _ hrow' hrow
  subst hrow_eq
  by_cases hsame : row'.cookie = some rpmdb.cookie
  · have hpass := h.interned hdb rpmdb.nevras
    obtain ⟨more, hmore⟩ := hpass.grown
    have hcontent := hrpm.cookieFaithful rpmdb hr r hrmem
      (Option.some.inj (hsame.symm.trans hcookie))
    refine ⟨_, historySync_unchanged_run hview hsame now,
      { db with rpms := some (rpmsPass noFault rpmdb.nevras ctx.db).2 }, transactions, items,
      (rpmsPass noFault rpmdb.nevras ctx.db).2, recorded, ?_, hflags.congr ⟨rfl, rfl⟩,
      .inl ⟨rfl, rfl⟩, h.grow hmore hpass.nodup rfl, rfl, fun row hrow => ?_, ?_, fun _ id => ?_⟩
    · simp [syncedCtx, hdb, Conn.setRpms]
    · rw [AutoTable.row_unique _ hrow hrow']
      rfl
    · exact hpass.ascending (hrpm.listedOnce rpmdb hr)
    · apply (hpass.mem_ids id).trans
      simp only [hcontent, hset]
      rfl
  · obtain ⟨ids, hplayed, hasc, hids⟩ := h.playedIds_spec h.nonempty le_rfl
    have hrewound : (rewoundCtx ids row'.cookie transactions.seq ctx).db = ⟨db, none⟩ := hdb
    have hnow : AtNewest recorded transactions rpms
        (rewoundCtx ids row'.cookie transactions.seq ctx) := ⟨hasc, hids⟩
    have hctx : SessionOk recorded transactions rpms
        (rewoundCtx ids row'.cookie transactions.seq ctx) true := by
      refine ⟨rfl, fun row hrow => ?_, hasc, fun _ => hids⟩
      rw [AutoTable.row_unique _ hrow hrow']
      rfl
    rw [historySync_changed_run hview hsame (by simpa [hdb] using hplayed)]
    exact continues_update hrpm hr h hrewound hflags hctx hnow now _

end Recording

/-- The context after the first `history_sync`. -/
def startedCtx (rpmdb : RpmDb) (now : ℤ) (ctx : HistoryCtx) : HistoryCtx :=
  recordedCtx noFault now (baselineCtx rpmdb ctx)

/-- The baseline that the first `history_sync` writes. -/
def startedDb (rpmdb : RpmDb) (now : ℤ) (c : Conn) : Db :=
  recordBase ⟨some rpmdb.cookie, some "(set)", now, .base⟩ (rpmsPass noFault rpmdb.nevras c).1
    { Db.fresh with rpms := some (rpmsPass noFault rpmdb.nevras c).2 }

section Start

variable (hr : rpmdb ∈ rpm) (hdb : ctx.db = ⟨Db.fresh, none⟩) (recorded : ℕ → List String) (now : ℤ)

include hdb

theorem interned_start :
    Interned AutoTable.empty rpmdb.nevras (rpmsPass noFault rpmdb.nevras ctx.db).1
      (rpmsPass noFault rpmdb.nevras ctx.db).2 := by
  have hdictionary : ctx.db.dictionary = AutoTable.empty := by
    simp [Conn.dictionary, hdb, Db.fresh]
  exact hdictionary ▸ interned_rpmsPass rpmdb.nevras ctx.db (by simp [hdictionary])

theorem startedCtx_db : (startedCtx rpmdb now ctx).db = ⟨startedDb rpmdb now ctx.db, none⟩ := by
  have hdurable : (baselineCtx rpmdb ctx).db =
      ⟨{ Db.fresh with rpms := some (rpmsPass noFault rpmdb.nevras ctx.db).2 }, none⟩ := by
    simp [baselineCtx, hdb, Conn.setRpms]
  rw [startedCtx, recordedCtx, hdurable]
  rfl

theorem historySync_start_run :
    (historySync rpmdb now).run ctx = .ok () (startedCtx rpmdb now ctx) := by
  rw [historySync_fresh_run (by simp [newestTransaction, hdb, Db.fresh]),
    historyRecordState_noFault (by simp [baselineCtx, hdb, Conn.setRpms])]
  rfl

omit hdb in
theorem flagStore_start : FlagStore (startedDb rpmdb now ctx.db) :=
  ⟨rfl, by simp [startedDb, recordBase, addItemRows, addTransactionRow, createTransactions,
    createTransItems, Db.fresh]⟩

include hr

theorem chronicle_start :
    Chronicle rpm (Function.update recorded 1 rpmdb.nevras) (startedDb rpmdb now ctx.db)
      (AutoTable.empty.insert ⟨some rpmdb.cookie, some "(set)", now, .base⟩)
      (AutoTable.empty.insertAll (itemRows 1 .set (rpmsPass noFault rpmdb.nevras ctx.db).1))
      (rpmsPass noFault rpmdb.nevras ctx.db).2 := by
  have hpass : Interned AutoTable.empty rpmdb.nevras (rpmsPass noFault rpmdb.nevras ctx.db).1
      (rpmsPass noFault rpmdb.nevras ctx.db).2 := interned_start hdb
  exact Chronicle.start recorded hr rfl rfl hpass.nodup hpass.mem_ids hpass.known rfl rfl rfl

omit hr

theorem startedCtx_listed :
    SessionListed (Function.update recorded 1 rpmdb.nevras)
      (AutoTable.empty.insert ⟨some rpmdb.cookie, some "(set)", now, .base⟩)
      (rpmsPass noFault rpmdb.nevras ctx.db).2 (startedCtx rpmdb now ctx) true := by
  refine ⟨?_, ?_, sortArray_ordered _, fun _ => ?_⟩
  · simp [startedCtx, recordedCtx, baselineCtx, hdb, Conn.setRpms, Db.fresh, nextKey]
  · intro row hrow
    rw [AutoTable.row_unique _ hrow ((AutoTable.mem_insert _ _ _).mpr (.inr rfl))]
    rfl
  · intro id
    exact (interned_start hdb).mem_ids id

end Start

/-- The first `history_sync` writes the baseline. -/
theorem continues_sync_fresh (hrpm : RpmContract rpm) (hr : rpmdb ∈ rpm)
    (hdb : ctx.db = ⟨Db.fresh, none⟩) (recorded : ℕ → List String) (now : ℤ) :
    ∃ ctx', (historySync rpmdb now).run ctx = .ok () ctx' ∧
      Continues rpm recorded 0 rpmdb.nevras ctx' true :=
  ⟨_, historySync_start_run hdb now, _, _, _, _, _, startedCtx_db hdb now, flagStore_start now,
    .inr ⟨rfl, rfl⟩, chronicle_start hr hdb recorded now,
    (startedCtx_listed hdb recorded now).ok
      ((interned_start hdb).ascending (hrpm.listedOnce rpmdb hr))⟩

end Calls

end Tdnf.History
