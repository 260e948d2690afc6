import Tdnf.History.Calls

/-!
# Runs of the history store

One history file is used by any number of sessions, one after the other, while
the rpm database changes at any time. A session opens a context and calls the
history functions in any order; only `history_update_state` needs a synced
context. The world remembers for every transaction the packages that were
installed when it was recorded.
-/

namespace Tdnf.History

open Relational Procedure

/-- The calls a session makes. -/
inductive Op where
  | sync (now : ℤ)
  | update (now : ℤ) (cmdline : Option String)
  | addTransaction (now : ℤ) (cmdline : Option String)
  | getAutoFlag (name : String)
  | setAutoFlag (name : String) (value : ℤ)
  | restoreAutoFlags (transId : ℤ)
  | replayAutoFlags (first last : ℤ)
deriving DecidableEq, Repr

/-- The function behind a call. -/
def Op.run (rpmdb : RpmDb) : Op → CtxProc Unit
  | .sync now => historySync rpmdb now
  | .update now cmdline => historyUpdateState noFault rpmdb now cmdline
  | .addTransaction now cmdline => historyAddTransaction now cmdline
  | .getAutoFlag name => do
    let _ ← historyGetAutoFlag name
    pure ()
  | .setAutoFlag name value => historySetAutoFlag name value
  | .restoreAutoFlags transId => historyRestoreAutoFlags transId
  | .replayAutoFlags first last => historyReplayAutoFlags first last

/-- An open context, and whether it was synced. -/
structure Session where
  ctx : HistoryCtx
  synced : Bool

/-- The file, the session that has it open, the rpm database, and the packages each
transaction was recorded with. -/
structure World where
  db : Db
  session : Option Session
  rpmdb : RpmDb
  recorded : ℕ → List String

/-- The id of the newest transaction, `0` before the first. -/
def Db.newest (db : Db) : ℕ := maxKey db.transactions

/-- The packages a new transaction stands for: those rpm lists, or for an empty transaction
those of its predecessor. -/
def Op.installed (w : World) : Op → List String
  | .addTransaction _ _ => w.recorded w.db.newest
  | _ => w.rpmdb.nevras

/-- Only a synced context may be updated. -/
def Op.allowed (synced : Bool) : Op → Prop
  | .update _ _ => synced = true
  | _ => True

def Op.syncs : Op → Bool
  | .sync _ => true
  | _ => false

/-- The records after a call that left the file as `db'`. -/
def World.recordedAfter (w : World) (o : Op) (db' : Db) : ℕ → List String :=
  if db'.newest = w.db.newest then w.recorded
  else Function.update w.recorded db'.newest (o.installed w)

/-- One call, whether it succeeds or fails. -/
def World.after (w : World) (s : Session) (o : Op) : World :=
  let ctx := finalState ((o.run w.rpmdb).run s.ctx)
  { db := ctx.db.durable
    session := some ⟨ctx, s.synced || o.syncs⟩
    rpmdb := w.rpmdb
    recorded := w.recordedAfter o ctx.db.durable }

/-- The steps of a run: rpm changes its database, or the session makes a call. -/
inductive Step (rpm : Set RpmDb) : World → World → Prop where
  | rpm (w : World) (r : RpmDb) (hr : r ∈ rpm) : Step rpm w { w with rpmdb := r }
  | opens (w : World) (h : w.session = none) :
      Step rpm w { w with session := some ⟨createHistoryCtx w.db, false⟩ }
  | closes (w : World) (s : Session) (h : w.session = some s) :
      Step rpm w { w with session := none }
  | call (w : World) (s : Session) (o : Op) (h : w.session = some s)
      (hallowed : o.allowed s.synced) : Step rpm w (w.after s o)

/-- The worlds that runs from an empty history file reach. -/
inductive Reachable (rpm : Set RpmDb) : World → Prop where
  | initial (r : RpmDb) (hr : r ∈ rpm) : Reachable rpm ⟨Db.fresh, none, r, fun _ => []⟩
  | step {w w' : World} (h : Reachable rpm w) (hstep : Step rpm w w') : Reachable rpm w'

/-- The file is still empty, and a session that has it open did not sync. -/
structure Fresh (w : World) : Prop where
  db : w.db = Db.fresh
  session : ∀ s, w.session = some s → s.synced = false ∧ s.ctx.transId = 0

/-- The file holds a consistent history, and a session stands at its newest transaction. -/
def Written (rpm : Set RpmDb) (w : World) : Prop :=
  ∃ transactions items rpms, Chronicle rpm w.recorded w.db transactions items rpms ∧
    ∀ s, w.session = some s → SessionOk w.recorded transactions rpms s.ctx s.synced

/-- What holds in every reachable world. -/
structure Inv (rpm : Set RpmDb) (w : World) : Prop where
  rpmdb : w.rpmdb ∈ rpm
  flags : FlagStore w.db
  session : ∀ s, w.session = some s → s.ctx.db = ⟨w.db, none⟩
  history : Fresh w ∨ Written rpm w

section Preservation

variable {rpm : Set RpmDb} {w : World} {s : Session} {o : Op}

/-- The context that a call leaves behind. -/
def World.ctxAfter (w : World) (s : Session) (o : Op) : HistoryCtx :=
  finalState ((o.run w.rpmdb).run s.ctx)

theorem Fresh.newest (h : Fresh w) : w.db.newest = 0 := by
  rw [h.db]
  rfl

theorem Chronicle.newest_eq {recorded : ℕ → List String} {db : Db}
    {transactions : AutoTable TransRow} {items : AutoTable ItemRow} {rpms : AutoTable String}
    (h : Chronicle rpm recorded db transactions items rpms) : db.newest = transactions.seq := by
  rw [Db.newest, h.transactionsTable, maxKey_some, h.lastKey_eq]

/-- The records after a call that wrote no transaction or one. -/
theorem recorded_after {recorded : ℕ → List String} {db : Db} {newest : ℕ}
    (hdb : (w.after s o).db = db) (hnewest : db.newest = newest)
    (h : (newest = w.db.newest ∧ recorded = w.recorded) ∨
      (newest = w.db.newest + 1 ∧
        recorded = Function.update w.recorded (w.db.newest + 1) (o.installed w))) :
    (w.after s o).recorded = recorded := by
  have hunfold : (w.after s o).recorded = w.recordedAfter o (w.after s o).db := rfl
  rw [hunfold, World.recordedAfter, hdb, hnewest]
  rcases h with ⟨hseq, rfl⟩ | ⟨hseq, rfl⟩
  · rw [if_pos hseq]
  · rw [if_neg (by omega), hseq]

/-- A call that continues the history keeps the invariant. -/
theorem Inv.of_continues (hinv : Inv rpm w)
    (h : Continues rpm w.recorded w.db.newest (o.installed w) (w.ctxAfter s o)
      (s.synced || o.syncs)) : Inv rpm (w.after s o) := by
  obtain ⟨db, transactions, items, rpms, recorded, hdb, hflags, hrecorded, hchron, hctx⟩ := h
  have hdb' : (w.after s o).db = db := congrArg Conn.durable hdb
  have hafter := recorded_after hdb' hchron.newest_eq hrecorded
  refine ⟨hinv.rpmdb, hdb' ▸ hflags, ?_, .inr ⟨transactions, items, rpms, ?_, ?_⟩⟩
  · rintro s' ⟨rfl⟩
    rw [hdb']
    exact hdb
  · rw [hafter, hdb']
    exact hchron
  · rintro s' ⟨rfl⟩
    rw [hafter]
    exact hctx

/-- A call that leaves the context of an empty file alone keeps the invariant. -/
theorem Inv.of_fresh (hinv : Inv rpm w) (hs : w.session = some s) (hfresh : Fresh w)
    (hsyncs : o.syncs = false) (hsame : w.ctxAfter s o = s.ctx) : Inv rpm (w.after s o) := by
  have hdb : (w.after s o).db = w.db := by
    have hctx := congrArg (fun ctx => ctx.db.durable) hsame
    rw [hinv.session s hs] at hctx
    exact hctx
  refine ⟨hinv.rpmdb, hdb ▸ hinv.flags, ?_, .inl ⟨hdb.trans hfresh.db, ?_⟩⟩
  · rintro s' ⟨rfl⟩
    rw [hdb]
    exact (congrArg HistoryCtx.db hsame).trans (hinv.session s hs)
  · rintro s' ⟨rfl⟩
    obtain ⟨hsynced, htrans⟩ := hfresh.session s hs
    exact ⟨by simp [hsynced, hsyncs], (congrArg HistoryCtx.transId hsame).trans htrans⟩

/-- Restoring or replaying without a name table does nothing. -/
theorem flagLoops_without_names {ctx : HistoryCtx} (h : ctx.db.view.names = none)
    (transId first last : ℤ) :
    (historyRestoreAutoFlags transId).run ctx = .ok () ctx ∧
      (historyReplayAutoFlags first last).run ctx = .ok () ctx := by
  rw [historyRestoreAutoFlags, historyReplayAutoFlags, run_get_bind, run_get_bind, h]
  exact ⟨rfl, rfl⟩

theorem autoFlags_unnumbered {ctx : HistoryCtx} (h : ctx.transId = 0) (name : String)
    (value : ℤ) :
    (historyGetAutoFlag name).run ctx = .error .checkFailed ctx ∧
      (historySetAutoFlag name value).run ctx = .error .checkFailed ctx := by
  rw [historyGetAutoFlag, historySetAutoFlag, run_get_bind, run_get_bind, if_pos h, if_pos h]
  exact ⟨rfl, rfl⟩

/-- On an empty file every call but `history_sync` fails or does nothing. -/
theorem ctxAfter_fresh (hinv : Inv rpm w) (hs : w.session = some s) (hfresh : Fresh w)
    (hsyncs : o.syncs = false) (hallowed : o.allowed s.synced) : w.ctxAfter s o = s.ctx := by
  have hdb : s.ctx.db = ⟨Db.fresh, none⟩ := by rw [hinv.session s hs, hfresh.db]
  obtain ⟨hsynced, htrans⟩ := hfresh.session s hs
  have hnames : s.ctx.db.view.names = none := by simp [hdb, Db.fresh]
  rw [World.ctxAfter]
  cases o with
  | sync now => cases hsyncs
  | update now cmdline =>
      rw [hsynced] at hallowed
      cases hallowed
  | addTransaction now cmdline =>
      rw [Op.run, historyAddTransaction_run, if_neg (by simp [hdb, Db.fresh])]
      rfl
  | getAutoFlag name =>
      rw [Op.run, run_bind_error (autoFlags_unnumbered htrans name 0).1]
      rfl
  | setAutoFlag name value =>
      rw [Op.run, (autoFlags_unnumbered htrans name value).2]
      rfl
  | restoreAutoFlags transId =>
      rw [Op.run, (flagLoops_without_names hnames transId 0 0).1]
      rfl
  | replayAutoFlags first last =>
      rw [Op.run, (flagLoops_without_names hnames 0 first last).2]
      rfl

section Written

variable {transactions : AutoTable TransRow} {items : AutoTable ItemRow} {rpms : AutoTable String}

/-- The calls that neither sync a context nor record a transaction. -/
def Op.quiet : Op → Bool
  | .sync _ => false
  | .update _ _ => false
  | .addTransaction _ _ => false
  | _ => true

/-- Both files hold the same history. -/
structure SameHistory (db db' : Db) : Prop where
  transactions : db'.transactions = db.transactions
  transItems : db'.transItems = db.transItems
  rpms : db'.rpms = db.rpms

/-- A call on the flags changes nothing but the file, and there nothing of the history. -/
theorem ctxAfter_quiet (hflags : FlagStore w.db) (hdb : s.ctx.db = ⟨w.db, none⟩)
    (hpos : 0 < s.ctx.transId) (hquiet : o.quiet = true) :
    ∃ db', w.ctxAfter s o = s.ctx.setDb ⟨db', none⟩ ∧ FlagStore db' ∧ SameHistory w.db db' := by
  have hview : FlagStore s.ctx.db.view := by simpa [hdb] using hflags
  have hself : s.ctx = s.ctx.setDb ⟨w.db, none⟩ := by rw [← hdb]; rfl
  have hsame : ∃ db', s.ctx = s.ctx.setDb ⟨db', none⟩ ∧ FlagStore db' ∧ SameHistory w.db db' :=
    ⟨w.db, hself, hflags, rfl, rfl, rfl⟩
  -- both loops over the names append rows of the flag table
  have happend : ∀ {names : AutoTable String} {change : ℕ → HistoryFlagsDelta},
      w.db.names = some names → (∀ i, ∀ p ∈ change i, p.1 = i) →
      ∃ db', s.ctx.appendFlags ((List.range' 1 names.lastKey).flatMap change) =
          s.ctx.setDb ⟨db', none⟩ ∧ FlagStore db' ∧ SameHistory w.db db' := by
    intro names change hnames hown
    refine ⟨addFlagRows (flagRows s.ctx.transId
      ((List.range' 1 names.lastKey).flatMap change)) w.db, ?_,
      hflags.appended hnames hown, rfl, rfl, rfl⟩
    rw [HistoryCtx.appendFlags, hdb, Conn.write_closed]
  rw [World.ctxAfter]
  cases o with
  | sync now => cases hquiet
  | update now cmdline => cases hquiet
  | addTransaction now cmdline => cases hquiet
  | getAutoFlag name =>
      rw [Op.run, run_bind_ok (historyGetAutoFlag_run hview hpos name)]
      exact hsame
  | setAutoFlag name value =>
      rw [Op.run, historySetAutoFlag_run hview hpos]
      split_ifs with hne
      · exact ⟨_, by rw [hdb, Conn.write_closed]; rfl, hflags.setFlag _ _ _, rfl, rfl, rfl⟩
      · exact hsame
  | restoreAutoFlags transId =>
      rw [Op.run]
      cases hnames : w.db.names with
      | none =>
          rw [(flagLoops_without_names (by simpa [hdb] using hnames) transId 0 0).1]
          exact hsame
      | some names =>
          obtain ⟨flags, hset⟩ := Option.isSome_iff_exists.mp
            (hflags.tables.symm.trans (by rw [hnames]; rfl))
          rw [historyRestoreAutoFlags_run (by simpa [hdb] using hnames)
            (by simpa [hdb] using hset)]
          exact happend hnames (restoreChange_own _ _ _)
  | replayAutoFlags first last =>
      rw [Op.run]
      cases hnames : w.db.names with
      | none =>
          rw [(flagLoops_without_names (by simpa [hdb] using hnames) 0 first last).2]
          exact hsame
      | some names =>
          obtain ⟨flags, hset⟩ := Option.isSome_iff_exists.mp
            (hflags.tables.symm.trans (by rw [hnames]; rfl))
          rw [historyReplayAutoFlags_run (by simpa [hdb] using hnames)
            (by simpa [hdb] using hset)]
          exact happend hnames (replayChange_own _ _ _ _)

/-- Every allowed call continues a written history. -/
theorem continues_call (hrpm : RpmContract rpm) (hinv : Inv rpm w) (hs : w.session = some s)
    (h : Chronicle rpm w.recorded w.db transactions items rpms)
    (hctx : SessionOk w.recorded transactions rpms s.ctx s.synced)
    (hallowed : o.allowed s.synced) :
    Continues rpm w.recorded transactions.seq (o.installed w) (w.ctxAfter s o)
      (s.synced || o.syncs) := by
  have hdb := hinv.session s hs
  -- all calls but `history_sync` leave `synced` as it is
  have hkept : ∀ {recorded newest installed ctx}, Continues rpm recorded newest installed ctx
      s.synced → Continues rpm recorded newest installed ctx (s.synced || false) :=
    fun hcontinues => by rwa [Bool.or_false]
  have hquiet : o.quiet = true → ∀ installed,
      Continues rpm w.recorded transactions.seq installed (w.ctxAfter s o)
        (s.synced || false) := by
    intro hquiet installed
    obtain ⟨db', hrun, hflags, hsame⟩ := ctxAfter_quiet hinv.flags hdb
      (hctx.transId ▸ h.nonempty) hquiet
    rw [hrun]
    exact hkept (continues_of_same h hctx rfl hflags hsame.transactions hsame.transItems
      hsame.rpms rfl installed)
  cases o with
  | sync now =>
      obtain ⟨ctx', hrun, hcontinues⟩ := continues_sync hrpm hinv.rpmdb h hdb hinv.flags now
      rw [World.ctxAfter, Op.run, hrun, Op.syncs, Bool.or_true]
      exact hcontinues
  | update now cmdline =>
      have hsynced : s.synced = true := hallowed
      obtain ⟨ctx', hrun, hcontinues⟩ := continues_update hrpm hinv.rpmdb h hdb hinv.flags hctx
        ⟨hctx.ascending, hctx.installed hsynced⟩ now cmdline
      rw [World.ctxAfter, Op.run, hrun, hsynced]
      exact hcontinues
  | addTransaction now cmdline =>
      have hsame : ∀ installed, Continues rpm w.recorded transactions.seq installed s.ctx
          (s.synced || false) := fun installed =>
        hkept (continues_of_same h hctx hdb hinv.flags rfl rfl rfl rfl installed)
      rw [World.ctxAfter, Op.run, historyAddTransaction_run]
      split_ifs with hcond
      · obtain ⟨db', row, hdb', hnames, h', hctx'⟩ := h.addTransaction hctx hdb now cmdline
        refine hkept
          ⟨db', _, items, rpms, _, hdb', hinv.flags.congr hnames, .inr ⟨rfl, ?_⟩, h', hctx'⟩
        rw [Op.installed, h.newest_eq]
      · exact hsame _
      · exact hsame _
  | getAutoFlag name => exact hquiet rfl _
  | setAutoFlag name value => exact hquiet rfl _
  | restoreAutoFlags transId => exact hquiet rfl _
  | replayAutoFlags first last => exact hquiet rfl _

end Written

/-- A call keeps the invariant. -/
theorem Inv.call (hrpm : RpmContract rpm) (hinv : Inv rpm w) (hs : w.session = some s)
    (hallowed : o.allowed s.synced) : Inv rpm (w.after s o) := by
  rcases hinv.history with hfresh | ⟨transactions, items, rpms, h, hsession⟩
  · cases hsyncs : o.syncs with
    | true =>
        obtain ⟨now, rfl⟩ : ∃ now, o = .sync now := by
          cases o with
          | sync now => exact ⟨now, rfl⟩
          | _ => cases hsyncs
        have hdb : s.ctx.db = ⟨Db.fresh, none⟩ := by rw [hinv.session s hs, hfresh.db]
        obtain ⟨ctx', hrun, hcontinues⟩ :=
          continues_sync_fresh hrpm hinv.rpmdb hdb w.recorded now
        apply hinv.of_continues
        rw [hfresh.newest, World.ctxAfter, Op.run, hrun, Op.syncs, Bool.or_true]
        exact hcontinues
    | false =>
        exact hinv.of_fresh hs hfresh hsyncs (ctxAfter_fresh hinv hs hfresh hsyncs hallowed)
  · apply hinv.of_continues
    rw [h.newest_eq]
    exact continues_call hrpm hinv hs h (hsession s hs) hallowed

/-- A new context stands at the newest transaction. -/
theorem sessionOk_create {recorded : ℕ → List String} {db : Db}
    {transactions : AutoTable TransRow} {items : AutoTable ItemRow} {rpms : AutoTable String}
    (h : Chronicle rpm recorded db transactions items rpms) :
    SessionOk recorded transactions rpms (createHistoryCtx db) false := by
  obtain ⟨row, hnewest, hrow⟩ := h.newestTransaction_eq
  refine ⟨by simp [createHistoryCtx, hnewest], fun row' hrow' => ?_, List.Pairwise.nil,
    fun hfalse => by cases hfalse⟩
  rw [AutoTable.row_unique _ hrow' hrow]
  simp [createHistoryCtx, hnewest]

/-- Every step keeps the invariant. -/
theorem Inv.step (hrpm : RpmContract rpm) (hinv : Inv rpm w) {w' : World}
    (hstep : Step rpm w w') : Inv rpm w' := by
  cases hstep with
  | rpm r hr =>
      refine ⟨hr, hinv.flags, hinv.session, hinv.history.imp ?_ fun h => h⟩
      exact fun hfresh => ⟨hfresh.db, hfresh.session⟩
  | opens hnone =>
      refine ⟨hinv.rpmdb, hinv.flags, ?_, hinv.history.imp ?_ ?_⟩
      · rintro s' ⟨rfl⟩
        rfl
      · refine fun hfresh => ⟨hfresh.db, ?_⟩
        rintro s' ⟨rfl⟩
        exact ⟨rfl, by rw [hfresh.db]; rfl⟩
      · rintro ⟨transactions, items, rpms, h, -⟩
        refine ⟨transactions, items, rpms, h, ?_⟩
        rintro s' ⟨rfl⟩
        exact sessionOk_create h
  | closes s hs =>
      refine ⟨hinv.rpmdb, hinv.flags, fun s' hs' => (nomatch hs'), hinv.history.imp ?_ ?_⟩
      · exact fun hfresh => ⟨hfresh.db, fun s' hs' => (nomatch hs')⟩
      · rintro ⟨transactions, items, rpms, h, -⟩
        exact ⟨transactions, items, rpms, h, fun s' hs' => (nomatch hs')⟩
  | call s o hs hallowed => exact hinv.call hrpm hs hallowed

/-- The invariant holds in every reachable world. -/
theorem inv_of_reachable (hrpm : RpmContract rpm) (h : Reachable rpm w) : Inv rpm w := by
  induction h with
  | initial r hr =>
      exact ⟨hr, ⟨rfl, by simp [Db.fresh]⟩, fun s hs => (nomatch hs),
        .inl ⟨rfl, fun s hs => (nomatch hs)⟩⟩
  | step h hstep ih => exact ih.step hrpm hstep

/-- What `history_sync` establishes: the context has the cookie of rpm and stands at the
newest transaction, which is new exactly if the newest known cookie was another one. -/
structure SyncDone (rpmdb : RpmDb) (db : Db) (ctx : HistoryCtx) : Prop where
  cookie : ctx.cookie = some rpmdb.cookie
  transId : ctx.transId =
    if (createHistoryCtx db).cookie = some rpmdb.cookie then db.newest else db.newest + 1
  names : ctx.db.view.names = db.names
  flagSet : ctx.db.view.flagSet = db.flagSet

theorem sync_done (hinv : Inv rpm w) (now : ℤ) :
    ∃ ctx, (historySync w.rpmdb now).run (createHistoryCtx w.db) = .ok () ctx ∧
      SyncDone w.rpmdb w.db ctx := by
  rcases hinv.history with hfresh | ⟨transactions, items, rpms, h, -⟩
  · have hnone : newestTransaction (createHistoryCtx w.db).db.view = none := by
      rw [hfresh.db]
      rfl
    rw [historySync_fresh_run hnone, historyRecordState_noFault rfl]
    refine ⟨_, rfl, rfl, ?_, ?_, ?_⟩
    · rw [hfresh.newest, hfresh.db, if_neg (fun hcookie => nomatch hcookie)]
      rfl
    · rw [hfresh.db]
      rfl
    · rw [hfresh.db]
      rfl
  · obtain ⟨row, hnewest, -⟩ := h.newestTransaction_eq
    have hcookie : (createHistoryCtx w.db).cookie = row.cookie := by
      simp [createHistoryCtx, hnewest]
    have hview : newestTransaction (createHistoryCtx w.db).db.view = some (_, row) := hnewest
    by_cases hsame : row.cookie = some w.rpmdb.cookie
    · rw [historySync_unchanged_run hview hsame]
      refine ⟨_, rfl, hsame, ?_, ?_, ?_⟩
      · rw [hcookie, if_pos hsame, h.newest_eq]
        rfl
      · simp [syncedCtx, createHistoryCtx]
      · simp [syncedCtx, createHistoryCtx]
    · obtain ⟨ids, hplayed, -, -⟩ := h.playedIds_spec h.nonempty le_rfl
      have hrewound : (rewoundCtx ids row.cookie transactions.seq
          (createHistoryCtx w.db)).db = ⟨w.db, none⟩ := rfl
      obtain ⟨hpending, htrans, hitems⟩ := tables_exist h hrewound
      have hchanged : (rewoundCtx ids row.cookie transactions.seq
          (createHistoryCtx w.db)).cookie ≠ some w.rpmdb.cookie := hsame
      rw [historySync_changed_run hview hsame hplayed,
        historyUpdateState_noFault hpending htrans hitems, if_neg hchanged]
      refine ⟨_, rfl, rfl, ?_, rfl, rfl⟩
      rw [hcookie, if_neg hsame, h.newest_eq]
      simp [updatedCtx, hrewound, h.transactionsTable]

end Preservation

end Tdnf.History
