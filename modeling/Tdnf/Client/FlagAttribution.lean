import Tdnf.Client.HistoryCommand

/-!
# Which transaction the flags of a command belong to

The executed command compares the transaction id before the sync with the one
after the update to decide whether the flags need a transaction of their own. A
sync that records an outside change moves the id too, so the flags may end up
under the transaction of that change.
-/

namespace Tdnf.Client

open History Relational Procedure

/-- The ids of the recorded transactions. -/
def recordedIds (db : Db) : Set ℕ :=
  {t | ∃ row, (t, row) ∈ (db.transactions.getD AutoTable.empty).rows}

/-- If the command succeeds, every flag row it writes belongs to a transaction that was added
after the sync: by the update or for the flags. -/
def FlagsAttributed (exec : Exec) (rpmdb : RpmDb) (now : ℤ) (db : Db) : Prop :=
  ∀ ctx, (rpmExecHistoryTransaction exec rpmdb now).run (createHistoryCtx db) = .ok () ctx →
    ∃ rows, flagValues ctx.db.view = flagValues db ++ rows ∧
      ∀ row ∈ rows, row.transId ∈ recordedIds ctx.db.view ∧
        row.transId ∉ recordedIds (dbAfter (historySync rpmdb now) (createHistoryCtx db))

/-- `history_sync` will record a transaction: the newest known cookie is not that of rpm. -/
def SyncRecords (rpmdb : RpmDb) (db : Db) : Prop :=
  (createHistoryCtx db).cookie ≠ some rpmdb.cookie

/-- At transaction `current` the command has a flag to write. -/
def FlagsChange (exec : Exec) (db : Db) (current : ℕ) : Prop :=
  (∃ name ∈ exec.solved.pkgsToInstall, exec.solved.flag name = 1 ∧
      dbGetAutoFlag db current name ≠ .ok 1) ∨
    (commandFlagsDelta exec.history db current).getD [] ≠ []

/-- The sync records a transaction, the rpm run does not change the cookie any more, and
there is a flag to write. -/
structure FlagsMisplaced (exec : Exec) (rpmdb : RpmDb) (db : Db) : Prop where
  executes : exec.nDownloadOnly = false ∧ exec.nTestOnly = false
  syncRecords : SyncRecords rpmdb db
  cookieKept : ∃ rpmdb', exec.rpmRun rpmdb = .ok rpmdb' ∧ rpmdb'.cookie = rpmdb.cookie
  flagsChange : FlagsChange exec db (db.newest + 1)

/-- From `ctx` to `ctx'` only `rows` were appended to the flags, all at the transaction of the
context. -/
structure FlagsAppended (ctx ctx' : HistoryCtx) (rows : List FlagRow) : Prop where
  values : flagValues ctx'.db.view = flagValues ctx.db.view ++ rows
  transId : ctx'.transId = ctx.transId
  rowsAt : ∀ row ∈ rows, row.transId = ctx.transId
  transactions : ctx'.db.view.transactions = ctx.db.view.transactions
  store : FlagStore ctx'.db.view

section Appending

variable {ctx : HistoryCtx}

theorem FlagsAppended.refl (h : FlagStore ctx.db.view) : FlagsAppended ctx ctx [] :=
  ⟨(List.append_nil _).symm, rfl, by simp, rfl, h⟩

theorem FlagsAppended.trans {ctx₁ ctx₂ : HistoryCtx} {rows₁ rows₂ : List FlagRow}
    (h₁ : FlagsAppended ctx ctx₁ rows₁) (h₂ : FlagsAppended ctx₁ ctx₂ rows₂) :
    FlagsAppended ctx ctx₂ (rows₁ ++ rows₂) where
  values := by rw [h₂.values, h₁.values, List.append_assoc]
  transId := h₂.transId.trans h₁.transId
  rowsAt row hrow := by
    rcases List.mem_append.mp hrow with hrow | hrow
    · exact h₁.rowsAt row hrow
    · exact (h₂.rowsAt row hrow).trans h₁.transId
  transactions := h₂.transactions.trans h₁.transactions
  store := h₂.store

/-- A change of the rows of the flag tables of `ctx`. -/
theorem flagsAppended_appendFlags (h : FlagStore ctx.db.view) {names : AutoTable String}
    {flags : AutoTable FlagRow} (hnames : ctx.db.view.names = some names)
    (hflags : ctx.db.view.flagSet = some flags) {change : ℕ → HistoryFlagsDelta}
    (hown : ∀ i, ∀ p ∈ change i, p.1 = i) :
    FlagsAppended ctx (ctx.appendFlags ((List.range' 1 names.lastKey).flatMap change))
      (flagRows ctx.transId ((List.range' 1 names.lastKey).flatMap change)) where
  values := flagValues_appendFlags ctx hflags _
  transId := rfl
  rowsAt row hrow := by
    obtain ⟨p, -, rfl⟩ := List.mem_map.mp hrow
    rfl
  transactions := by simp [HistoryCtx.appendFlags, addFlagRows]
  store := by
    have hview : (ctx.appendFlags ((List.range' 1 names.lastKey).flatMap change)).db.view = _ :=
      Conn.view_write _ _
    rw [hview]
    exact h.appended hnames hown

/-- The flag part of a command appends the rows of its preview. -/
theorem execFlags_appended (h : FlagStore ctx.db.view) (args : HistoryArgs) :
    ∃ ctx', (execFlags args).run ctx = .ok () ctx' ∧ FlagsAppended ctx ctx'
      (flagRows ctx.transId ((commandFlagsDelta args ctx.db.view ctx.transId).getD [])) := by
  have hrun : ∃ ctx' rows, (execFlags args).run ctx = .ok () ctx' ∧
      FlagsAppended ctx ctx' rows := by
    cases hnames : ctx.db.view.names with
    | none =>
        refine ⟨ctx, [], ?_, FlagsAppended.refl h⟩
        obtain ⟨command, first, last⟩ := args
        cases command with
        | rollback => exact (flagLoops_without_names hnames last 0 0).1
        | undo => exact (flagLoops_without_names hnames 0 last (first - 1)).2
        | redo => exact (flagLoops_without_names hnames 0 (first - 1) last).2
        | _ => rfl
    | some names =>
        obtain ⟨flags, hflags⟩ := Option.isSome_iff_exists.mp
          (h.tables.symm.trans (by rw [hnames]; rfl))
        obtain ⟨command, first, last⟩ := args
        cases command with
        | rollback =>
            exact ⟨_, _, historyRestoreAutoFlags_run hnames hflags last,
              flagsAppended_appendFlags h hnames hflags (restoreChange_own _ _ _)⟩
        | undo =>
            exact ⟨_, _, historyReplayAutoFlags_run hnames hflags last (first - 1),
              flagsAppended_appendFlags h hnames hflags (replayChange_own _ _ _ _)⟩
        | redo =>
            exact ⟨_, _, historyReplayAutoFlags_run hnames hflags (first - 1) last,
              flagsAppended_appendFlags h hnames hflags (replayChange_own _ _ _ _)⟩
        | _ => exact ⟨ctx, [], rfl, FlagsAppended.refl h⟩
  obtain ⟨ctx', rows, hrun, happended⟩ := hrun
  have hrows := execFlags_rows args ctx
  rw [dbAfter, hrun, finalState, happended.values] at hrows
  exact ⟨ctx', hrun, List.append_cancel_left hrows ▸ happended⟩

theorem orHistoryError_run {α : Type} {x : CtxProc α} {a : α} {ctx' : HistoryCtx}
    (h : x.run ctx = .ok a ctx') : (orHistoryError x).run ctx = .ok a ctx' := by
  simp only [orHistoryError, EStateM.run] at h ⊢
  rw [h]

/-- One call of `history_set_auto_flag`. -/
theorem setAutoFlag_appended (h : FlagStore ctx.db.view) (hpos : 0 < ctx.transId)
    (name : String) (value : ℤ) :
    ∃ ctx' rows, (historySetAutoFlag name value).run ctx = .ok () ctx' ∧
      FlagsAppended ctx ctx' rows ∧ (rows = [] → ctx' = ctx) ∧
      (rows = [] ↔ dbGetAutoFlag ctx.db.view ctx.transId name = .ok value) := by
  rw [historySetAutoFlag_run h hpos, dbGetAutoFlag_eq h]
  split_ifs with hne
  · refine ⟨_, [⟨ctx.transId, (internName (ctx.db.view.names.getD AutoTable.empty) name).1,
      value⟩], rfl, ⟨?_, rfl, by simp, ?_, ?_⟩, by simp, ?_⟩
    · simp [flagValues, setFlag]
    · simp [setFlag]
    · simpa using h.setFlag ctx.transId name value
    · simpa using hne
  · refine ⟨ctx, [], rfl, FlagsAppended.refl h, fun _ => rfl, ?_⟩
    simp [not_not.mp hne]

/-- Marking appends no row exactly if every package it looks at has its flag already. -/
theorem markAutoInstalled_appended (info : SolvedPkgInfo) (nAutoOnly : Bool)
    (names : List String) (h : FlagStore ctx.db.view) (hpos : 0 < ctx.transId) :
    ∃ ctx' rows, (markAutoInstalled info nAutoOnly names).run ctx = .ok () ctx' ∧
      FlagsAppended ctx ctx' rows ∧ (rows = [] → ctx' = ctx) ∧
      (rows = [] ↔ ∀ name ∈ names, (!nAutoOnly || info.flag name = 1) →
        dbGetAutoFlag ctx.db.view ctx.transId name = .ok (info.flag name)) := by
  induction names generalizing ctx with
  | nil => exact ⟨ctx, [], rfl, FlagsAppended.refl h, fun _ => rfl, by simp⟩
  | cons name rest ih =>
      by_cases hlook : (!nAutoOnly || info.flag name = 1) = true
      · obtain ⟨ctx₁, rows₁, hset, happ₁, hsame₁, hnone₁⟩ :=
          setAutoFlag_appended h hpos name (info.flag name)
        obtain ⟨ctx₂, rows₂, hrest, happ₂, hsame₂, hnone₂⟩ :=
          ih happ₁.store (happ₁.transId ▸ hpos)
        refine ⟨ctx₂, rows₁ ++ rows₂, ?_, happ₁.trans happ₂, ?_, ?_⟩
        · rw [markAutoInstalled, if_pos hlook, run_bind_ok (orHistoryError_run hset)]
          exact hrest
        · intro hnone
          obtain ⟨h₁, h₂⟩ := List.append_eq_nil_iff.mp hnone
          rw [hsame₂ h₂, hsame₁ h₁]
        · rw [List.append_eq_nil_iff, List.forall_mem_cons]
          constructor
          · rintro ⟨h₁, h₂⟩
            have hctx := hsame₁ h₁
            subst hctx
            exact ⟨fun _ => hnone₁.mp h₁, hnone₂.mp h₂⟩
          · rintro ⟨hhead, htail⟩
            have h₁ := hnone₁.mpr (hhead hlook)
            have hctx := hsame₁ h₁
            subst hctx
            exact ⟨h₁, hnone₂.mpr htail⟩
      · obtain ⟨ctx₂, rows₂, hrest, happ₂, hsame₂, hnone₂⟩ := ih h hpos
        refine ⟨ctx₂, rows₂, ?_, happ₂, hsame₂, ?_⟩
        · rw [markAutoInstalled, if_neg hlook]
          exact hrest
        · rw [hnone₂, List.forall_mem_cons]
          exact ⟨fun htail => ⟨fun hhead => absurd hhead hlook, htail⟩, fun hall => hall.2⟩

end Appending

section Stages

variable {rpm : Set RpmDb} {w : World} {ctx : HistoryCtx} {rpmdb' : RpmDb}

/-- A synced session stands at the newest of the recorded transactions `1`, .., `transId`. -/
theorem recordedIds_synced (hrpm : RpmContract rpm) (h : Reachable rpm w)
    (hs : w.session = some ⟨ctx, true⟩) :
    0 < ctx.transId ∧ FlagStore ctx.db.view ∧
      ∀ t, t ∈ recordedIds ctx.db.view ↔ 0 < t ∧ t ≤ ctx.transId := by
  have hinv := inv_of_reachable hrpm h
  have hview : ctx.db.view = w.db := congrArg Conn.view (hinv.session _ hs)
  obtain ⟨transactions, items, rpms, hchron, hsession⟩ := hinv.history.resolve_left fun hfresh =>
    absurd (hfresh.session _ hs).1 Bool.true_eq_false.mp
  have htrans : ctx.transId = transactions.seq := (hsession _ hs).transId
  refine ⟨htrans ▸ hchron.nonempty, hview ▸ hinv.flags, fun t => ?_⟩
  rw [hview, htrans, ← hchron.recorded_iff, recordedIds, hchron.transactionsTable]
  rfl

theorem createHistoryCtx_transId (hinv : Inv rpm w) :
    (createHistoryCtx w.db).transId = w.db.newest := by
  rcases hinv.history with hfresh | ⟨transactions, items, rpms, h, -⟩
  · rw [hfresh.newest, hfresh.db]
    rfl
  · obtain ⟨row, hnewest, -⟩ := h.newestTransaction_eq
    simp [createHistoryCtx, hnewest, h.newest_eq]

/-- The sync of the command. -/
theorem sync_stage (hrpm : RpmContract rpm) (h : Reachable rpm w) (hs : w.session = none)
    (now : ℤ) :
    ∃ ctx w', (historySync w.rpmdb now).run (createHistoryCtx w.db) = .ok () ctx ∧
      SyncDone w.rpmdb w.db ctx ∧ Reachable rpm w' ∧ w'.session = some ⟨ctx, true⟩ := by
  obtain ⟨ctx, hrun, hdone⟩ := sync_done (inv_of_reachable hrpm h) now
  refine ⟨ctx, _, hrun, hdone,
    (h.step (.opens w hs)).step (.call _ _ (.sync now) rfl trivial), ?_⟩
  simp only [World.after, Op.run, Op.syncs, hrun, finalState, Bool.or_true]

/-- The update after the rpm run. -/
theorem update_stage (hrpm : RpmContract rpm) (h : Reachable rpm w)
    (hs : w.session = some ⟨ctx, true⟩) (hr' : rpmdb' ∈ rpm) (now : ℤ)
    (cmdline : Option String) :
    ∃ ctx' w', (historyUpdateState noFault rpmdb' now cmdline).run ctx = .ok () ctx' ∧
      (ctx'.transId =
        if ctx.cookie = some rpmdb'.cookie then ctx.transId else ctx.transId + 1) ∧
      ctx'.db.view.names = ctx.db.view.names ∧ ctx'.db.view.flagSet = ctx.db.view.flagSet ∧
      Reachable rpm w' ∧ w'.session = some ⟨ctx', true⟩ := by
  have hinv := inv_of_reachable hrpm h
  have hdb : ctx.db = ⟨w.db, none⟩ := hinv.session _ hs
  obtain ⟨transactions, items, rpms, hchron, hsession⟩ := hinv.history.resolve_left fun hfresh =>
    absurd (hfresh.session _ hs).1 Bool.true_eq_false.mp
  have htransId : ctx.transId = transactions.seq := (hsession _ hs).transId
  obtain ⟨hpending, htrans, hitems⟩ := tables_exist hchron hdb
  have hrun := historyUpdateState_noFault hpending htrans hitems rpmdb' now cmdline
  have hreach := (h.step (.rpm w rpmdb' hr')).step (.call _ _ (.update now cmdline) hs rfl)
  refine ⟨_, _, hrun, ?_, ?_, ?_, hreach, ?_⟩
  · split_ifs with hcookie
    · rfl
    · simp [updatedCtx, hdb, hchron.transactionsTable, htransId]
  · split_ifs with hcookie
    · rfl
    · simp [updatedCtx, hdb, recordDelta, addItemRows, addTransactionRow]
  · split_ifs with hcookie
    · rfl
    · simp [updatedCtx, hdb, recordDelta, addItemRows, addTransactionRow]
  · simp only [World.after, Op.run, Op.syncs, hrun, finalState, Bool.or_false]

/-- The empty transaction for the flags. -/
theorem add_stage (hrpm : RpmContract rpm) (h : Reachable rpm w)
    (hs : w.session = some ⟨ctx, true⟩) (now : ℤ) (cmdline : Option String) :
    (∃ rc, (historyAddTransaction now cmdline).run ctx = .error rc ctx) ∨
      ∃ ctx' w', (historyAddTransaction now cmdline).run ctx = .ok () ctx' ∧
        ctx'.transId = ctx.transId + 1 ∧
        ctx'.db.view.names = ctx.db.view.names ∧ ctx'.db.view.flagSet = ctx.db.view.flagSet ∧
        Reachable rpm w' ∧ w'.session = some ⟨ctx', true⟩ := by
  have hinv := inv_of_reachable hrpm h
  have hdb : ctx.db = ⟨w.db, none⟩ := hinv.session _ hs
  obtain ⟨transactions, items, rpms, hchron, hsession⟩ := hinv.history.resolve_left fun hfresh =>
    absurd (hfresh.session _ hs).1 Bool.true_eq_false.mp
  have htransId : ctx.transId = transactions.seq := (hsession _ hs).transId
  have hadd : (historyAddTransaction now cmdline).run ctx = _ :=
    historyAddTransaction_run now cmdline
  have hreach := h.step (.call _ _ (.addTransaction now cmdline) hs trivial)
  split_ifs at hadd with hcond hcmdline
  · refine .inr ⟨_, _, hadd, ?_, ?_, ?_, hreach, ?_⟩
    · simp [addedCtx, hdb, hchron.transactionsTable, htransId]
    · simp [addedCtx, hdb, addTransactionRow]
    · simp [addedCtx, hdb, addTransactionRow]
    · simp only [World.after, Op.run, Op.syncs, hadd, finalState, Bool.or_false]
  · exact .inl ⟨_, hadd⟩
  · exact .inl ⟨_, hadd⟩

end Stages

section Attribution

variable {rpm : Set RpmDb} {w : World}

theorem orHistoryError_error {α : Type} {x : CtxProc α} {rc : Rc} {ctx ctx' : HistoryCtx}
    (h : x.run ctx = .error rc ctx') : (orHistoryError x).run ctx = .error .historyError ctx' := by
  simp only [orHistoryError, EStateM.run] at h ⊢
  rw [h]

/-- The flags only depend on the two flag tables. -/
theorem dbGetAutoFlag_congr {db db' : Db} (hnames : db'.names = db.names)
    (hflags : db'.flagSet = db.flagSet) (t : ℤ) (name : String) :
    dbGetAutoFlag db' t name = dbGetAutoFlag db t name := by
  simp only [dbGetAutoFlag, dbGetAutoFlagById, hnames, hflags]

theorem flagsDelta_congr {db db' : Db} (hflags : db'.flagSet = db.flagSet)
    (current first last : ℤ) (ids : List ℕ) :
    flagsDelta db' current first last ids = flagsDelta db current first last ids := by
  induction ids with
  | nil => rfl
  | cons i rest ih => simp only [flagsDelta, dbGetAutoFlagById, hflags, ih]

theorem commandFlagsDelta_congr {db db' : Db} (hnames : db'.names = db.names)
    (hflags : db'.flagSet = db.flagSet) (args : HistoryArgs) (current : ℕ) :
    commandFlagsDelta args db' current = commandFlagsDelta args db current := by
  simp only [commandFlagsDelta, dbGetFlagsDelta, hnames, flagsDelta_congr hflags]

/-- The flag part at the end of the command, on the context after the update. -/
def flagTail (exec : Exec) (now : ℤ) (transId : ℕ) : CmdProc Unit := do
  (if transId = (← get).transId then orHistoryError (historyAddTransaction now exec.cmdline)
  else markAutoInstalled exec.solved true exec.solved.pkgsToInstall)
  orHistoryError (execFlags exec.history)

/-- Marking and restoring append no row exactly if no flag has to change. -/
theorem flagTail_mark (exec : Exec) (now : ℤ) {transId : ℕ} {ctx : HistoryCtx}
    (h : FlagStore ctx.db.view) (hpos : 0 < ctx.transId) (hne : transId ≠ ctx.transId) :
    ∃ ctx' rows, (flagTail exec now transId).run ctx = .ok () ctx' ∧
      FlagsAppended ctx ctx' rows ∧ (rows ≠ [] ↔ FlagsChange exec ctx.db.view ctx.transId) := by
  obtain ⟨ctx₁, rows₁, hmark, happ₁, hsame, hnone⟩ :=
    markAutoInstalled_appended exec.solved true exec.solved.pkgsToInstall h hpos
  obtain ⟨ctx₂, hflags, happ₂⟩ := execFlags_appended happ₁.store exec.history
  refine ⟨ctx₂, _, ?_, happ₁.trans happ₂, ?_⟩
  · rw [flagTail, run_get_bind, if_neg hne, run_bind_ok hmark, orHistoryError_run hflags]
  · have hmarks : rows₁ ≠ [] ↔ ∃ name ∈ exec.solved.pkgsToInstall,
        exec.solved.flag name = 1 ∧ dbGetAutoFlag ctx.db.view ctx.transId name ≠ .ok 1 := by
      rw [Ne, hnone]
      simp only [Bool.not_true, Bool.false_or, not_forall, decide_eq_true_eq, exists_prop]
      exact ⟨fun ⟨name, hmem, hflag, hval⟩ => ⟨name, hmem, hflag, hflag ▸ hval⟩,
        fun ⟨name, hmem, hflag, hval⟩ => ⟨name, hmem, hflag, hflag ▸ hval⟩⟩
    rw [FlagsChange, ← hmarks]
    by_cases hrows : rows₁ = []
    · have hctx := hsame hrows
      subst hctx
      simp [hrows, flagRows]
    · simp [hrows]

/-- After an empty transaction for the flags all rows belong to it. -/
theorem flagTail_add (hrpm : RpmContract rpm) (h : Reachable rpm w) {ctx : HistoryCtx}
    (hs : w.session = some ⟨ctx, true⟩) (exec : Exec) (now : ℤ) :
    (∃ e ctx', (flagTail exec now ctx.transId).run ctx = .error e ctx') ∨
      ∃ ctx' rows, (flagTail exec now ctx.transId).run ctx = .ok () ctx' ∧
        flagValues ctx'.db.view = flagValues ctx.db.view ++ rows ∧
        ∀ row ∈ rows, row.transId = ctx.transId + 1 ∧ row.transId ∈ recordedIds ctx'.db.view := by
  rw [flagTail, run_get_bind, if_pos rfl]
  rcases add_stage hrpm h hs now exec.cmdline with ⟨rc, hadd⟩ | ⟨ctx₁, w₁, hadd, htrans, hnames,
    hset, hreach, hs₁⟩
  · exact .inl ⟨_, _, run_bind_error (orHistoryError_error hadd)⟩
  · obtain ⟨hpos, hstore, hids⟩ := recordedIds_synced hrpm hreach hs₁
    obtain ⟨ctx₂, hflags, happ⟩ := execFlags_appended hstore exec.history
    refine .inr ⟨ctx₂, flagRows ctx₁.transId
      ((commandFlagsDelta exec.history ctx₁.db.view ctx₁.transId).getD []), ?_, ?_,
      fun row hrow => ?_⟩
    · rw [run_bind_ok (orHistoryError_run hadd), orHistoryError_run hflags]
    · rw [happ.values, flagValues, flagValues, hset]
    · have hat := happ.rowsAt row hrow
      refine ⟨hat.trans htrans, ?_⟩
      rw [recordedIds, happ.transactions]
      exact (hids row.transId).mpr ⟨hat ▸ hpos, hat.le⟩

/-- The command up to its flag part. -/
theorem exec_run (exec : Exec) (now : ℤ) (hexec : exec.nDownloadOnly = false ∧
    exec.nTestOnly = false) {rpmdb rpmdb' : RpmDb} (hrun : exec.rpmRun rpmdb = .ok rpmdb')
    {ctx₀ ctx₁ ctx₂ : HistoryCtx} (hsync : (historySync rpmdb now).run ctx₀ = .ok () ctx₁)
    (hupdate : (historyUpdateState noFault rpmdb' now exec.cmdline).run ctx₁ = .ok () ctx₂) :
    (rpmExecHistoryTransaction exec rpmdb now).run ctx₀ =
      (flagTail exec now ctx₀.transId).run ctx₂ := by
  have hrpm : (runTransaction exec rpmdb).run ctx₁ = .ok rpmdb' ctx₁ := by
    rw [runTransaction, hrun]
    rfl
  have htransaction : (runTransactionWithHistory exec rpmdb now).run ctx₀ = .ok () ctx₂ := by
    rw [runTransactionWithHistory, run_bind_ok (orHistoryError_run hsync), run_bind_ok hrpm,
      orHistoryError_run hupdate]
  rw [rpmExecHistoryTransaction, if_pos (by simp [hexec]), run_get_bind,
    run_bind_ok htransaction]
  rfl

theorem runTransaction_run (exec : Exec) (rpmdb : RpmDb) (ctx : HistoryCtx) :
    (runTransaction exec rpmdb).run ctx =
      match exec.rpmRun rpmdb with
      | .ok rpmdb' => .ok rpmdb' ctx
      | .error e => .error e ctx := by
  rw [runTransaction]
  cases exec.rpmRun rpmdb with
  | ok rpmdb' => rfl
  | error e => rfl

/-- A download or a test writes no flag row. -/
theorem flagsAttributed_of_not_executes {exec : Exec} {rpmdb : RpmDb} {now : ℤ} {db : Db}
    (h : ¬ (exec.nDownloadOnly = false ∧ exec.nTestOnly = false)) :
    FlagsAttributed exec rpmdb now db := by
  intro ctx hok
  have hctx : ctx = createHistoryCtx db := by
    rw [rpmExecHistoryTransaction, if_neg (by simpa using h)] at hok
    split_ifs at hok
    · cases hrpm : exec.rpmRun rpmdb with
      | ok rpmdb' =>
          rw [run_bind_ok (by rw [runTransaction_run, hrpm])] at hok
          cases hok
          rfl
      | error e =>
          rw [run_bind_error (by rw [runTransaction_run, hrpm])] at hok
          cases hok
    · cases hok
      rfl
  subst hctx
  exact ⟨[], (List.append_nil _).symm, by simp⟩

/-- A command whose rpm run fails does not succeed. -/
theorem flagsAttributed_of_error {exec : Exec} {rpmdb : RpmDb} {now : ℤ} {db : Db}
    (hexec : exec.nDownloadOnly = false ∧ exec.nTestOnly = false) {e : TdnfError}
    (hrpm : exec.rpmRun rpmdb = .error e) : FlagsAttributed exec rpmdb now db := by
  intro ctx hok
  have hfails : ∃ e' ctx', (runTransactionWithHistory exec rpmdb now).run
      (createHistoryCtx db) = .error e' ctx' := by
    cases hsync : (historySync rpmdb now).run (createHistoryCtx db) with
    | ok _ ctx₁ =>
        refine ⟨e, ctx₁, ?_⟩
        rw [runTransactionWithHistory, run_bind_ok (orHistoryError_run hsync),
          run_bind_error (by rw [runTransaction_run, hrpm])]
    | error rc ctx₁ =>
        exact ⟨_, _, run_bind_error (orHistoryError_error hsync)⟩
  obtain ⟨e', ctx', hfails⟩ := hfails
  rw [rpmExecHistoryTransaction, if_pos (by simp [hexec]), run_get_bind,
    run_bind_error hfails] at hok
  cases hok

/-- When the flags of a successful command belong to the command. -/
theorem flagsAttributed_iff (hrpm : RpmContract rpm) (h : Reachable rpm w)
    (hs : w.session = none) (exec : Exec)
    (hrun : ∀ rpmdb', exec.rpmRun w.rpmdb = .ok rpmdb' → rpmdb' ∈ rpm) (now : ℤ) :
    FlagsAttributed exec w.rpmdb now w.db ↔ ¬ FlagsMisplaced exec w.rpmdb w.db := by
  by_cases hexec : exec.nDownloadOnly = false ∧ exec.nTestOnly = false
  swap
  · exact iff_of_true (flagsAttributed_of_not_executes hexec) fun hbad => hexec hbad.executes
  cases hrpmRun : exec.rpmRun w.rpmdb with
  | error e =>
      apply iff_of_true (flagsAttributed_of_error hexec hrpmRun)
      intro hbad
      obtain ⟨rpmdb', hok, -⟩ := hbad.cookieKept
      rw [hrpmRun] at hok
      cases hok
  | ok rpmdb' =>
      obtain ⟨ctx₁, w₁, hsync, hdone, hreach₁, hs₁⟩ := sync_stage hrpm h hs now
      obtain ⟨ctx₂, w₂, hupdate, htrans₂, hnames₂, hflags₂, hreach₂, hs₂⟩ :=
        update_stage hrpm hreach₁ hs₁ (hrun rpmdb' hrpmRun) now exec.cmdline
      obtain ⟨hpos₂, hstore₂, hids₂⟩ := recordedIds_synced hrpm hreach₂ hs₂
      obtain ⟨hpos₁, -, hids₁⟩ := recordedIds_synced hrpm hreach₁ hs₁
      have hexecRun := exec_run exec now hexec hrpmRun hsync hupdate
      have hcaptured := createHistoryCtx_transId (inv_of_reachable hrpm h)
      have hsynced : dbAfter (historySync w.rpmdb now) (createHistoryCtx w.db) =
          ctx₁.db.view := by rw [dbAfter, hsync, finalState]
      have hvalues : flagValues ctx₂.db.view = flagValues w.db := by
        rw [flagValues, flagValues, hflags₂, hdone.flagSet]
      rw [hdone.cookie] at htrans₂
      have htrans₁ := hdone.transId
      by_cases hown : (createHistoryCtx w.db).transId = ctx₂.transId
      · -- no transaction was added yet, so the flags get one of their own
        have hquiet : ¬ SyncRecords w.rpmdb w.db := fun hrecords => by
          rw [if_neg hrecords] at htrans₁
          split_ifs at htrans₂ <;> omega
        refine iff_of_true ?_ fun hbad => hquiet hbad.syncRecords
        intro ctx hok
        rw [hexecRun, hown] at hok
        rcases flagTail_add hrpm hreach₂ hs₂ exec now with ⟨e, ctx', hfails⟩ | ⟨ctx', rows,
          htail, hrows, hat⟩
        · rw [hfails] at hok
          cases hok
        · rw [htail] at hok
          cases hok
          refine ⟨rows, by rw [hrows, hvalues], fun row hrow => ⟨(hat row hrow).2, ?_⟩⟩
          rw [hsynced, hids₁, (hat row hrow).1]
          split_ifs at htrans₂ <;> omega
      · obtain ⟨ctx₃, rows, htail, happ, hchange⟩ :=
          flagTail_mark exec now hstore₂ hpos₂ hown
        have hrows : flagValues ctx₃.db.view = flagValues w.db ++ rows := by
          rw [happ.values, hvalues]
        have hfinal : ∀ row ∈ rows, row.transId ∈ recordedIds ctx₃.db.view := by
          intro row hrow
          rw [recordedIds, happ.transactions]
          exact (hids₂ row.transId).mpr ⟨happ.rowsAt row hrow ▸ hpos₂, (happ.rowsAt row hrow).le⟩
        have hattributed : FlagsAttributed exec w.rpmdb now w.db ↔
            (rows = [] ∨ ctx₁.transId < ctx₂.transId) := by
          constructor
          · intro hall
            obtain ⟨rows', hrows', hat⟩ := hall ctx₃ (hexecRun.trans htail)
            have hsame : rows' = rows := List.append_cancel_left (hrows'.symm.trans hrows)
            subst hsame
            rcases List.eq_nil_or_concat' rows' with hnil | ⟨init, row, hlast⟩
            · exact .inl hnil
            · have hrow : row ∈ rows' := by simp [hlast]
              have hnew := (hat row hrow).2
              rw [hsynced, hids₁, happ.rowsAt row hrow] at hnew
              exact .inr (by omega)
          · intro hcond ctx hok
            rw [hexecRun, htail] at hok
            cases hok
            refine ⟨rows, hrows, fun row hrow => ⟨hfinal row hrow, ?_⟩⟩
            rw [hsynced, hids₁, happ.rowsAt row hrow]
            rcases hcond with hnil | hlt
            · rw [hnil] at hrow
              cases hrow
            · omega
        rw [hattributed]
        by_cases hkept : w.rpmdb.cookie = rpmdb'.cookie
        · -- the update added nothing, so the sync did
          have hrecords : SyncRecords w.rpmdb w.db := fun hsame => by
            rw [if_pos hsame] at htrans₁
            rw [if_pos (congrArg some hkept)] at htrans₂
            exact hown (by omega)
          rw [if_pos (congrArg some hkept)] at htrans₂
          rw [if_neg hrecords] at htrans₁
          have hmoved : ctx₂.transId = w.db.newest + 1 := by omega
          have hstate : FlagsChange exec ctx₂.db.view ctx₂.transId ↔
              FlagsChange exec w.db (w.db.newest + 1) := by
            simp only [FlagsChange, hmoved, dbGetAutoFlag_congr (hnames₂.trans hdone.names)
              (hflags₂.trans hdone.flagSet), commandFlagsDelta_congr
              (hnames₂.trans hdone.names) (hflags₂.trans hdone.flagSet)]
          rw [← not_iff_not, not_not, not_or, and_iff_left (by omega)]
          exact (hchange.trans hstate).trans
            ⟨fun hflags => ⟨hexec, hrecords, ⟨rpmdb', hrpmRun, hkept.symm⟩, hflags⟩,
              fun hbad => hbad.flagsChange⟩
        · rw [if_neg fun hsame => hkept (Option.some.inj hsame)] at htrans₂
          apply iff_of_true (.inr (by omega))
          intro hbad
          obtain ⟨r, hr, hcookie⟩ := hbad.cookieKept
          rw [hrpmRun] at hr
          cases hr
          exact hkept hcookie.symm

end Attribution

section OutsideChange

/-- A rollback to `t` with no package to change. -/
def rollbackTo (t : ℤ) : Exec where
  history := ⟨.rollback, 0, t⟩
  nDownloadOnly := false
  nTestOnly := false
  cmdline := some "history rollback"
  solved := ⟨[], none⟩
  rpmRun := .ok

/-- A first session that added an empty transaction. -/
def markSession (r : RpmDb) : Session where
  ctx := (firstSync r 0).ctxAfter (firstSession r 0) (.addTransaction 0 (some "mark install a"))
  synced := true

/-- A first session that marked a package under a transaction of its own. -/
def markedWorld (r : RpmDb) : World :=
  ((firstSync r 0).after (firstSession r 0) (.addTransaction 0 (some "mark install a"))).after
    (markSession r) (.setAutoFlag "a" 1)

theorem reachable_markedWorld {rpm : Set RpmDb} {r : RpmDb} (hr : r ∈ rpm) :
    Reachable rpm (markedWorld r) :=
  ((reachable_firstSync hr 0).step (.call _ _ (.addTransaction 0 _) rfl trivial)).step
    (.call _ _ (.setAutoFlag "a" 1) rfl trivial)

/-- After the marking session, something other than tdnf wrote the rpm database. -/
def outsideChange (r r' : RpmDb) : World :=
  { markedWorld r with session := none, rpmdb := r' }

theorem reachable_outsideChange {rpm : Set RpmDb} {r r' : RpmDb} (hr : r ∈ rpm)
    (hr' : r' ∈ rpm) : Reachable rpm (outsideChange r r') :=
  ((reachable_markedWorld hr).step (.closes _ _ rfl)).step (.rpm _ r' hr')

end OutsideChange

theorem flagsAttributed_iff_marked :
    FlagsAttributed (rollbackTo 1) ⟨["a-1-1"], "c"⟩ 0
      { markedWorld ⟨["a-1-1"], "c"⟩ with session := none }.db ↔
      ¬ FlagsMisplaced (rollbackTo 1) ⟨["a-1-1"], "c"⟩
        { markedWorld ⟨["a-1-1"], "c"⟩ with session := none }.db :=
  flagsAttributed_iff (w := { markedWorld ⟨["a-1-1"], "c"⟩ with session := none })
    (rpmContract_singleton (by decide))
    ((reachable_markedWorld (Set.mem_singleton _)).step (.closes _ _ rfl)) rfl (rollbackTo 1)
    (fun _ hrun => by cases hrun; exact Set.mem_singleton _) 0

/-- The rollback writes its flag under the transaction that its sync recorded for the
outside change. -/
theorem flagsMisplaced_outsideChange :
    Reachable {⟨["a-1-1"], "c"⟩, ⟨["a-1-1"], "d"⟩}
        (outsideChange ⟨["a-1-1"], "c"⟩ ⟨["a-1-1"], "d"⟩) ∧
      ¬ FlagsAttributed (rollbackTo 1) ⟨["a-1-1"], "d"⟩ 0
        (outsideChange ⟨["a-1-1"], "c"⟩ ⟨["a-1-1"], "d"⟩).db := by
  refine ⟨reachable_outsideChange (by simp) (by simp), fun hall => ?_⟩
  obtain ⟨rows, hrows, hat⟩ := hall _ rfl
  have hvalues : [⟨2, 1, 1⟩, ⟨3, 1, 0⟩] = [⟨2, 1, 1⟩] ++ rows := hrows
  have hrow : rows = [⟨3, 1, 0⟩] := (List.cons.inj hvalues).2.symm
  refine (hat ⟨3, 1, 0⟩ (hrow ▸ List.mem_singleton_self _)).2
    ⟨⟨some "d", some "(unknown)", 0, .delta⟩, ?_⟩
  exact List.mem_of_getElem? (i := 2) rfl

end Tdnf.Client
