import Mathlib.Logic.Relation
import Tdnf.History.FlagEffects

/-!
# The order of the flag rows

Every row of the flag table is written at the transaction of the context, which
is always the newest one. So the transactions of the rows never go down in the
order of the rows, and the newest row for a name up to some transaction is also
one of the latest transaction.
-/

namespace Tdnf.History

open Relational Procedure

/-- Any call that writes to the history file: those of a session, and a new baseline. -/
inductive HistoryOp where
  | call (o : Op)
  | recordState (now : ℤ)
deriving DecidableEq, Repr

/-- The function behind a call. -/
def HistoryOp.run (rpmdb : RpmDb) : HistoryOp → CtxProc Unit
  | .call o => o.run rpmdb
  | .recordState now => historyRecordState noFault now

/-- The history file, the context that has it open, and the rpm database. -/
structure HistoryFile where
  db : Db
  ctx : Option HistoryCtx
  rpmdb : RpmDb

/-- One call, whether it succeeds or fails. -/
def HistoryFile.after (f : HistoryFile) (ctx : HistoryCtx) (o : HistoryOp) : HistoryFile :=
  let ctx' := finalState ((o.run f.rpmdb).run ctx)
  ⟨ctx'.db.durable, some ctx', f.rpmdb⟩

/-- The steps of a run: rpm changes its database, a context is opened where there is none or
closed, or it is called in any way. -/
inductive FileStep : HistoryFile → HistoryFile → Prop where
  | rpm (f : HistoryFile) (r : RpmDb) : FileStep f { f with rpmdb := r }
  | opens (f : HistoryFile) (h : f.ctx = none) :
      FileStep f { f with ctx := some (createHistoryCtx f.db) }
  | closes (f : HistoryFile) : FileStep f { f with ctx := none }
  | call (f : HistoryFile) (ctx : HistoryCtx) (o : HistoryOp) (h : f.ctx = some ctx) :
      FileStep f (f.after ctx o)

/-- The states that runs from an empty file reach. -/
def FileReachable (f : HistoryFile) : Prop :=
  ∃ r, Relation.ReflTransGen FileStep ⟨Db.fresh, none, r⟩ f

/-- A row that `db_get_auto_flag_byid` looks at. -/
def Candidate (transId : ℤ) (nameId : ℕ) (r : ℕ × FlagRow) : Prop :=
  r.2.nameId = nameId ∧ r.2.transId ≤ transId

/-- The transactions of the rows do not go down. -/
def RowsInOrder (flags : AutoTable FlagRow) : Prop :=
  flags.rows.Pairwise fun r r' => r.1 < r'.1 ∧ r.2.transId ≤ r'.2.transId

/-- The flag that is read is that of a row with the largest id and the largest transaction among
those that are looked at, or 0 if there is none. -/
def PicksNewest (db : Db) (flags : AutoTable FlagRow) : Prop :=
  ∀ transId nameId,
    (∃ r ∈ flags.rows, Candidate transId nameId r ∧
      dbGetAutoFlagById db transId nameId = .ok r.2.value ∧
      ∀ r' ∈ flags.rows, Candidate transId nameId r' → r'.1 ≤ r.1 ∧ r'.2.transId ≤ r.2.transId) ∨
    (∀ r ∈ flags.rows, ¬ Candidate transId nameId r) ∧
      dbGetAutoFlagById db transId nameId = .ok 0

/-- The rows are in order and belong to transactions up to the newest. -/
structure FlagsUpTo (db : Db) (newest : ℕ) : Prop where
  ordered : (flagValues db).Pairwise fun r r' => r.transId ≤ r'.transId
  upTo : ∀ r ∈ flagValues db, r.transId ≤ newest

/-- A context outside of a transaction, at the newest one of its file. -/
structure Stands (ctx : HistoryCtx) : Prop where
  pending : ctx.db.pending = none
  transId : ctx.transId = ctx.db.durable.newest
  store : FlagStore ctx.db.durable
  tables : ctx.db.durable.transactions.isSome = ctx.db.durable.transItems.isSome

/-- What a call does to a file and its context, as far as the flags are concerned. -/
structure Moves (ctx ctx' : HistoryCtx) : Prop where
  stands : Stands ctx'
  later : ctx.db.durable.newest ≤ ctx'.db.durable.newest
  flags : ∃ rows, (∀ r ∈ rows, r.transId = ctx.transId) ∧
    flagValues ctx'.db.durable = flagValues ctx.db.durable ++ rows

section Moves

variable {ctx ctx' : HistoryCtx} {rpmdb : RpmDb}

theorem Stands.conn (h : Stands ctx) : ctx.db = ⟨ctx.db.durable, none⟩ := by
  rw [← h.pending]

theorem Stands.view (h : Stands ctx) : ctx.db.view = ctx.db.durable := by
  rw [h.conn, Conn.view_closed]

theorem Moves.refl (h : Stands ctx) : Moves ctx ctx :=
  ⟨h, le_rfl, [], by simp, (List.append_nil _).symm⟩

/-- A call that leaves the flag tables as they are. -/
theorem Moves.of_same (h : Stands ctx) (hpending : ctx'.db.pending = none)
    (htrans : ctx'.transId = ctx'.db.durable.newest)
    (hsame : ctx'.db.durable.names = ctx.db.durable.names ∧
      ctx'.db.durable.flagSet = ctx.db.durable.flagSet)
    (htables : ctx'.db.durable.transactions.isSome = ctx'.db.durable.transItems.isSome)
    (hlater : ctx.db.durable.newest ≤ ctx'.db.durable.newest) : Moves ctx ctx' := by
  refine ⟨⟨hpending, htrans, h.store.congr hsame, htables⟩, hlater, [], by simp, ?_⟩
  rw [List.append_nil, flagValues, flagValues, hsame.2]

theorem maxKey_insertInto {α : Type} {t : Option (AutoTable α)} (h : t.isSome = true) (a : α) :
    maxKey (insertInto t a) = nextKey t := by
  obtain ⟨t, rfl⟩ := Option.isSome_iff_exists.mp h
  exact t.lastKey_insert a

theorem maxKey_le_nextKey {α : Type} (t : Option (AutoTable α)) : maxKey t ≤ nextKey t :=
  (AutoTable.lastKey_le_seq _).trans (Nat.le_succ _)

end Moves

section Calls

variable {ctx : HistoryCtx} (rpmdb : RpmDb)

/-- Without transactions `history_update_state` fails, and no more than the dictionary grows. -/
theorem historyUpdateState_unwritten (h : Stands ctx)
    (hnone : ctx.db.durable.transactions.isSome = false) (now : ℤ) (cmdline : Option String) :
    wp (historyUpdateState noFault rpmdb now cmdline) (fun _ ctx' => ctx' = ctx)
      (fun _ ctx' => ∃ rpms, ctx' = ctx.setDb ⟨{ ctx.db.durable with rpms := rpms }, none⟩) ctx := by
  rw [historyUpdateState, wp_bind, wp_get, wp_ite]
  refine ⟨fun _ => rfl, fun _ => ?_⟩
  rw [endingTransaction, wp_finishing, recordUpdate, wp_bind, wp_onDb]
  refine wp_mono (dbUpdateRpms_wp noFault rpmdb.nevras ctx.db) ?_ ?_
  · rintro ids c ⟨-, rfl, rfl⟩
    simp only [wp_bind, wp_get, wp_onDb, HistoryCtx.setDb_db, HistoryCtx.setDb_setDb,
      HistoryCtx.setDb_installedIds]
    refine wp_mono (beginTransaction_wp (noFault .beginTransaction) _) ?_ ?_
    · rintro _ c ⟨-, rfl⟩
      rw [Conn.setRpms_durable h.pending]
      refine wp_mono (dbAddTransaction_wp (fun s => noFault (.transInsert s)) _ _) ?_ ?_
      · rintro transId c ⟨htrans, -, -⟩
        simp only [Conn.view_open, hnone, transStops, Bool.not_false, Bool.true_or] at htrans
        cases htrans
      · rintro e c ⟨-, rfl⟩
        exact ⟨_, rfl⟩
    · rintro e c ⟨hbegin, -⟩
      rw [Conn.setRpms_pending_isSome, h.pending] at hbegin
      cases hbegin
  · rintro e c ⟨hstop, -⟩
    rw [rpmsStops_noFault] at hstop
    cases hstop

theorem Moves.of_rpms (h : Stands ctx) {ctx' : HistoryCtx} {rpms : Option (AutoTable String)}
    (hdb : ctx'.db = ⟨{ ctx.db.durable with rpms := rpms }, none⟩)
    (htrans : ctx'.transId = ctx.db.durable.newest) : Moves ctx ctx' := by
  refine Moves.of_same h ?_ ?_ ⟨?_, ?_⟩ ?_ ?_ <;> rw [hdb]
  · exact htrans
  · exact h.tables
  · exact le_rfl

theorem update_moves (h : Stands ctx) (now : ℤ) (cmdline : Option String) :
    Moves ctx (finalState ((historyUpdateState noFault rpmdb now cmdline).run ctx)) := by
  cases htrans : ctx.db.durable.transactions.isSome with
  | false =>
      refine finalState_of_wp (wp_mono (historyUpdateState_unwritten rpmdb h htrans now cmdline)
        ?_ ?_)
      · rintro _ _ rfl
        exact Moves.refl h
      · rintro _ _ ⟨rpms, rfl⟩
        exact Moves.of_rpms h rfl h.transId
  | true =>
      have hitems : ctx.db.durable.transItems.isSome = true := h.tables ▸ htrans
      rw [historyUpdateState_noFault h.pending htrans hitems, finalState]
      split_ifs with hcookie
      · exact Moves.refl h
      · have hdb : (updatedCtx noFault rpmdb now cmdline ctx).db =
            ⟨recordDelta (rpmsPass noFault rpmdb.nevras ctx.db).2
              ⟨some rpmdb.cookie, cmdline, now, .delta⟩ (updateDiff noFault rpmdb ctx)
              ctx.db.durable, none⟩ := rfl
        have hnewest : (updatedCtx noFault rpmdb now cmdline ctx).db.durable.newest =
            nextKey ctx.db.durable.transactions := by
          rw [hdb]
          exact maxKey_insertInto htrans _
        refine Moves.of_same h rfl hnewest.symm ⟨rfl, rfl⟩ ?_ ?_
        · simp [hdb, recordDelta, addItemRows, addTransactionRow, insertInto, htrans, hitems]
        · rw [hnewest]
          exact maxKey_le_nextKey _

theorem record_moves (h : Stands ctx) (now : ℤ) :
    Moves ctx (finalState ((historyRecordState noFault now).run ctx)) := by
  rw [historyRecordState_noFault h.pending, finalState]
  have hdb : (recordedCtx noFault now ctx).db =
      ⟨recordBase ⟨ctx.cookie, some "(set)", now, .base⟩ ctx.installedIds ctx.db.durable,
        none⟩ := rfl
  have hnewest : (recordedCtx noFault now ctx).db.durable.newest =
      nextKey ctx.db.durable.transactions := by
    rw [hdb]
    exact maxKey_insertInto (t := createIfMissing ctx.db.durable.transactions) rfl _
  refine Moves.of_same h rfl hnewest.symm ⟨rfl, rfl⟩ ?_ ?_
  · rw [hdb]
    rfl
  · rw [hnewest]
    exact maxKey_le_nextKey _

theorem add_moves (h : Stands ctx) (now : ℤ) (cmdline : Option String) :
    Moves ctx (finalState ((historyAddTransaction now cmdline).run ctx)) := by
  rw [historyAddTransaction_run, h.view]
  split_ifs with hadds
  · have hdb : (addedCtx now cmdline ctx).db =
        ⟨addTransactionRow ⟨ctx.cookie, cmdline, now, .delta⟩ ctx.db.durable, none⟩ := by
      rw [addedCtx, h.conn]
      rfl
    have hnewest : (addedCtx now cmdline ctx).db.durable.newest =
        nextKey ctx.db.durable.transactions := by
      rw [hdb]
      exact maxKey_insertInto hadds.2 _
    rw [finalState]
    refine Moves.of_same h ?_ ?_ ?_ ?_ ?_
    · rw [hdb]
    · rw [hnewest, addedCtx, h.view]
    · rw [hdb]
      exact ⟨rfl, rfl⟩
    · have htables := h.tables
      simpa [hdb, addTransactionRow, insertInto] using htables
    · rw [hnewest]
      exact maxKey_le_nextKey _
  · exact Moves.refl h
  · exact Moves.refl h

/-- A call behind a step that leaves the context at its transaction. -/
theorem Moves.after {ctx₁ ctx₂ : HistoryCtx} (h : Moves ctx ctx₁)
    (hsame : flagValues ctx₁.db.durable = flagValues ctx.db.durable)
    (htrans : ctx₁.transId = ctx.transId) (h₂ : Moves ctx₁ ctx₂) : Moves ctx ctx₂ := by
  obtain ⟨rows, hrows, hflags⟩ := h₂.flags
  exact ⟨h₂.stands, h.later.trans h₂.later, rows, fun r hr => (hrows r hr).trans htrans,
    hsame ▸ hflags⟩

theorem newestTransaction_newest {db : Db} {id : ℕ} {row : TransRow}
    (h : newestTransaction db = some (id, row)) : id = db.newest := by
  obtain ⟨t, ht, hlast⟩ := Option.bind_eq_some_iff.mp h
  rw [Db.newest, ht, maxKey_some, AutoTable.lastKey, hlast]
  rfl

theorem sync_moves (h : Stands ctx) (now : ℤ) :
    Moves ctx (finalState ((historySync rpmdb now).run ctx)) := by
  have hrpms := Conn.setRpms_durable h.pending (rpmsPass noFault rpmdb.nevras ctx.db).2
  have hgrown : ctx.db.setRpms (rpmsPass noFault rpmdb.nevras ctx.db).2 =
      ⟨{ ctx.db.durable with rpms := some (rpmsPass noFault rpmdb.nevras ctx.db).2 }, none⟩ := by
    rw [h.conn]
    rfl
  cases hnewest : newestTransaction ctx.db.view with
  | none =>
      have hbase : Moves ctx (baselineCtx rpmdb ctx) := Moves.of_rpms h hgrown h.transId
      rw [historySync_fresh_run hnewest]
      refine hbase.after ?_ rfl (record_moves hbase.stands now)
      rw [baselineCtx, HistoryCtx.setDb_db, hgrown]
      rfl
  | some newest =>
      obtain ⟨id, row⟩ := newest
      have hid : id = ctx.db.durable.newest := h.view ▸ newestTransaction_newest hnewest
      by_cases hcookie : row.cookie = some rpmdb.cookie
      · rw [historySync_unchanged_run hnewest hcookie, finalState]
        exact Moves.of_rpms h hgrown hid
      · cases hplayed : playedIds ctx.db.view id with
        | error rc =>
            have hrun : (historySync rpmdb now).run ctx = .error rc ctx := by
              rw [historySync, run_get_bind, hnewest]
              simp only [hcookie, if_false]
              have hset : (historySetState id).run ctx = .error rc ctx := by
                rw [historySetState, run_get_bind, hplayed]
                rfl
              rw [run_bind_error hset]
            rw [hrun]
            exact Moves.refl h
        | ok ids =>
            -- the context goes back to a transaction, which is the newest one
            have hback : Moves ctx (rewoundCtx ids row.cookie id ctx) :=
              Moves.of_rpms h h.conn hid
            rw [historySync_changed_run hnewest hcookie hplayed]
            exact hback.after rfl (hid.trans h.transId.symm) (update_moves rpmdb hback.stands now _)

/-- A context after rows were appended at its transaction. -/
theorem append_moves (h : Stands ctx) {names : AutoTable String}
    (hnames : ctx.db.durable.names = some names) {change : ℕ → HistoryFlagsDelta}
    (hown : ∀ i, ∀ p ∈ change i, p.1 = i) :
    Moves ctx (ctx.appendFlags ((List.range' 1 names.lastKey).flatMap change)) := by
  have hdb : (ctx.appendFlags ((List.range' 1 names.lastKey).flatMap change)).db =
      ⟨addFlagRows (flagRows ctx.transId ((List.range' 1 names.lastKey).flatMap change))
        ctx.db.durable, none⟩ := by
    rw [HistoryCtx.appendFlags, HistoryCtx.setDb_db]
    conv_lhs => rw [h.conn]
    rfl
  obtain ⟨flags, hflags⟩ := Option.isSome_iff_exists.mp
    (h.store.tables.symm.trans (by rw [hnames]; rfl))
  refine ⟨⟨?_, ?_, ?_, ?_⟩, ?_,
    flagRows ctx.transId ((List.range' 1 names.lastKey).flatMap change), fun r hr => ?_, ?_⟩
  · rw [hdb]
  · rw [hdb]
    exact h.transId
  · rw [hdb]
    exact h.store.appended hnames hown
  · rw [hdb]
    exact h.tables
  · rw [hdb]
    exact le_rfl
  · obtain ⟨p, -, rfl⟩ := List.mem_map.mp hr
    rfl
  · rw [hdb]
    simp [flagValues, addFlagRows, hflags]

theorem loops_move (h : Stands ctx) (transId first last : ℤ) :
    Moves ctx (finalState ((historyRestoreAutoFlags transId).run ctx)) ∧
      Moves ctx (finalState ((historyReplayAutoFlags first last).run ctx)) := by
  cases hnames : ctx.db.durable.names with
  | none =>
      obtain ⟨hrestore, hreplay⟩ := flagLoops_without_names (by rw [h.view, hnames]) transId first
        last
      rw [hrestore, hreplay]
      exact ⟨Moves.refl h, Moves.refl h⟩
  | some names =>
      obtain ⟨flags, hflags⟩ := Option.isSome_iff_exists.mp
        (h.store.tables.symm.trans (by rw [hnames]; rfl))
      rw [historyRestoreAutoFlags_run (by rw [h.view, hnames]) (by rw [h.view, hflags]),
        historyReplayAutoFlags_run (by rw [h.view, hnames]) (by rw [h.view, hflags])]
      exact ⟨append_moves h hnames (restoreChange_own _ _ _),
        append_moves h hnames (replayChange_own _ _ _ _)⟩

theorem set_moves (h : Stands ctx) (name : String) (value : ℤ) :
    Moves ctx (finalState ((historySetAutoFlag name value).run ctx)) := by
  by_cases hzero : ctx.transId = 0
  · rw [(autoFlags_unnumbered hzero name value).2]
    exact Moves.refl h
  · rw [historySetAutoFlag_run (h.view ▸ h.store) (Nat.pos_of_ne_zero hzero), finalState]
    split_ifs with hne
    · have hdb : (ctx.setDb (ctx.db.write (setFlag ctx.transId name value))).db =
          ⟨setFlag ctx.transId name value ctx.db.durable, none⟩ := by
        rw [HistoryCtx.setDb_db]
        conv_lhs => rw [h.conn]
        rfl
      refine ⟨⟨?_, ?_, ?_, ?_⟩, ?_,
        [⟨ctx.transId, (internName (ctx.db.durable.names.getD AutoTable.empty) name).1, value⟩],
        by simp, ?_⟩
      · rw [hdb]
      · rw [hdb]
        exact h.transId
      · rw [hdb]
        exact h.store.setFlag _ _ _
      · rw [hdb]
        exact h.tables
      · rw [hdb]
        exact le_rfl
      · rw [hdb]
        simp [flagValues, setFlag]
    · exact Moves.refl h

theorem get_moves (h : Stands ctx) (name : String) :
    Moves ctx (finalState ((Op.run rpmdb (.getAutoFlag name)).run ctx)) := by
  by_cases hzero : ctx.transId = 0
  · rw [Op.run, run_bind_error (autoFlags_unnumbered hzero name 0).1]
    exact Moves.refl h
  · rw [Op.run, run_bind_ok (historyGetAutoFlag_run (h.view ▸ h.store)
      (Nat.pos_of_ne_zero hzero) name)]
    exact Moves.refl h

/-- Every call appends rows at the transaction of its context, which stays at the newest one. -/
theorem moves_of_call (h : Stands ctx) (o : HistoryOp) :
    Moves ctx (finalState ((o.run rpmdb).run ctx)) := by
  cases o with
  | recordState now => exact record_moves h now
  | call o =>
      cases o with
      | sync now => exact sync_moves rpmdb h now
      | update now cmdline => exact update_moves rpmdb h now cmdline
      | addTransaction now cmdline => exact add_moves h now cmdline
      | getAutoFlag name => exact get_moves rpmdb h name
      | setAutoFlag name value => exact set_moves h name value
      | restoreAutoFlags transId => exact (loops_move h transId 0 0).1
      | replayAutoFlags first last => exact (loops_move h 0 first last).2

end Calls

section Runs

/-- What holds of the history file in every state of a run. -/
structure FileInv (f : HistoryFile) : Prop where
  store : FlagStore f.db
  tables : f.db.transactions.isSome = f.db.transItems.isSome
  flags : FlagsUpTo f.db f.db.newest
  ctx : ∀ ctx ∈ f.ctx, Stands ctx ∧ ctx.db.durable = f.db

theorem createHistoryCtx_transId (db : Db) : (createHistoryCtx db).transId = db.newest := by
  obtain ⟨rpms, names, flagSet, transactions, transItems⟩ := db
  cases transactions with
  | none => rfl
  | some t => rfl

theorem fileInv_fresh (rpmdb : RpmDb) : FileInv ⟨Db.fresh, none, rpmdb⟩ where
  store := ⟨rfl, fun row hrow => by simp [Db.fresh] at hrow⟩
  tables := rfl
  flags := ⟨List.Pairwise.nil, fun row hrow => by simp [flagValues, Db.fresh] at hrow⟩
  ctx := by simp

/-- The rows of a call come behind all others, at a transaction that is not earlier. -/
theorem FlagsUpTo.moved {ctx ctx' : HistoryCtx} (h : Stands ctx)
    (hflags : FlagsUpTo ctx.db.durable ctx.db.durable.newest) (hmoves : Moves ctx ctx') :
    FlagsUpTo ctx'.db.durable ctx'.db.durable.newest := by
  obtain ⟨rows, hrows, happend⟩ := hmoves.flags
  have hnewest : ∀ r ∈ rows, r.transId = ctx.db.durable.newest := fun r hr =>
    (hrows r hr).trans h.transId
  constructor
  · rw [happend]
    refine List.pairwise_append.mpr ⟨hflags.ordered, ?_, fun r hr r' hr' => ?_⟩
    · refine List.pairwise_of_forall_mem_list fun r hr r' hr' => ?_
      exact ((hnewest r hr).trans (hnewest r' hr').symm).le
    · exact (hflags.upTo r hr).trans (hnewest r' hr').ge
  · rw [happend]
    intro r hr
    rcases List.mem_append.mp hr with hr | hr
    · exact (hflags.upTo r hr).trans hmoves.later
    · exact (hnewest r hr).le.trans hmoves.later

theorem FileStep.inv {f f' : HistoryFile} (hstep : FileStep f f') (h : FileInv f) :
    FileInv f' := by
  cases hstep with
  | rpm r => exact ⟨h.store, h.tables, h.flags, h.ctx⟩
  | closes => exact ⟨h.store, h.tables, h.flags, by simp⟩
  | opens hnone =>
      refine ⟨h.store, h.tables, h.flags, fun ctx hctx => ?_⟩
      obtain rfl := Option.some_inj.mp hctx
      exact ⟨⟨rfl, createHistoryCtx_transId f.db, h.store, h.tables⟩, rfl⟩
  | call ctx o hctx =>
      obtain ⟨hstands, hdb⟩ := h.ctx ctx hctx
      have hmoves := moves_of_call f.rpmdb hstands o
      have hflags : FlagsUpTo ctx.db.durable ctx.db.durable.newest := hdb ▸ h.flags
      refine ⟨hmoves.stands.store, hmoves.stands.tables, hflags.moved hstands hmoves,
        fun ctx' hctx' => ?_⟩
      obtain rfl := Option.some_inj.mp hctx'
      exact ⟨hmoves.stands, rfl⟩

theorem FileReachable.inv {f : HistoryFile} (h : FileReachable f) : FileInv f := by
  obtain ⟨rpmdb, hsteps⟩ := h
  induction hsteps with
  | refl => exact fileInv_fresh rpmdb
  | tail _ hstep ih => exact hstep.inv ih

end Runs

section Picking

variable {db : Db} {flags : AutoTable FlagRow}

theorem rowsInOrder_of_flagsUpTo {newest : ℕ} (h : FlagsUpTo db newest)
    (hflags : db.flagSet = some flags) : RowsInOrder flags := by
  have hordered : flags.rows.Pairwise fun r r' => r.2.transId ≤ r'.2.transId := by
    have hvalues := h.ordered
    rw [flagValues, hflags, Option.getD_some, AutoTable.values, List.pairwise_map] at hvalues
    exact hvalues
  exact flags.ascending.and hordered

/-- What is found from the end of a list is behind everything else that could be found. -/
theorem related_of_find?_reverse {α : Type} {R : α → α → Prop} {l : List α} (h : l.Pairwise R)
    {p : α → Bool} {a : α} (hfind : l.reverse.find? p = some a) :
    ∀ b ∈ l, p b = true → b = a ∨ R b a := by
  obtain ⟨-, behind, front, hl, hbehind⟩ := List.find?_eq_some_iff_append.mp hfind
  have hsplit : l = front.reverse ++ a :: behind.reverse := by
    rw [← l.reverse_reverse, hl]
    simp
  rw [hsplit] at h ⊢
  intro b hb hp
  rcases List.mem_append.mp hb with hb | hb
  · exact .inr ((List.pairwise_append.mp h).2.2 b hb a List.mem_cons_self)
  · rcases List.mem_cons.mp hb with rfl | hb
    · exact .inl rfl
    · have hnot := hbehind b (List.mem_reverse.mp hb)
      rw [hp] at hnot
      cases hnot

/-- With rows in order the largest id is at the largest transaction. -/
theorem picksNewest_of_inOrder (hflags : db.flagSet = some flags) (h : RowsInOrder flags) :
    PicksNewest db flags := by
  intro transId nameId
  rw [dbGetAutoFlagById, hflags]
  cases hfind : flags.rows.reverse.find? fun r =>
      decide (r.2.nameId = nameId) && decide ((r.2.transId : ℤ) ≤ transId) with
  | none =>
      refine .inr ⟨fun r hr hcand => ?_, by simp only [hfind]⟩
      have hnot := List.find?_eq_none.mp hfind r (List.mem_reverse.mpr hr)
      simp [hcand.1, hcand.2] at hnot
  | some r =>
      have hmem := List.mem_reverse.mp (List.mem_of_find?_eq_some hfind)
      have hcand : Candidate transId nameId r := by simpa [Candidate] using List.find?_some hfind
      refine .inl ⟨r, hmem, hcand, by simp only [hfind], fun r' hr' hcand' => ?_⟩
      rcases related_of_find?_reverse h hfind r' hr' (by simp [hcand'.1, hcand'.2]) with rfl | hlt
      · exact ⟨le_rfl, le_rfl⟩
      · exact ⟨hlt.1.le, hlt.2⟩

end Picking

/-- In every run the transactions of the flag rows do not go down, so it does not matter whether
the newest row is picked by its id or by its transaction. -/
theorem flags_inOrder {f : HistoryFile} (h : FileReachable f) {flags : AutoTable FlagRow}
    (hflags : f.db.flagSet = some flags) : RowsInOrder flags ∧ PicksNewest f.db flags := by
  have horder := rowsInOrder_of_flagsUpTo h.inv.flags hflags
  exact ⟨horder, picksNewest_of_inOrder hflags horder⟩

/-- A file whose context made the calls `os`. -/
def HistoryFile.afterAll (f : HistoryFile) : List HistoryOp → HistoryFile
  | [] => f
  | o :: os =>
    match f.ctx with
    | none => f
    | some ctx => (f.after ctx o).afterAll os

theorem afterAll_reachable {f : HistoryFile} (h : FileReachable f) (os : List HistoryOp) :
    FileReachable (f.afterAll os) := by
  induction os generalizing f with
  | nil => exact h
  | cons o os ih =>
      cases hctx : f.ctx with
      | none => simpa only [HistoryFile.afterAll, hctx] using h
      | some ctx =>
          simp only [HistoryFile.afterAll, hctx]
          obtain ⟨rpmdb, hsteps⟩ := h
          exact ih ⟨rpmdb, hsteps.tail (.call f ctx o hctx)⟩

/-- A package is marked as installed automatically, and in a later transaction by the user. -/
def remarked : HistoryFile :=
  HistoryFile.afterAll ⟨Db.fresh, some (createHistoryCtx Db.fresh), ⟨["a-1-1"], "c"⟩⟩
    [.call (.sync 10), .call (.setAutoFlag "a" 1), .call (.addTransaction 20 (some "mark")),
      .call (.setAutoFlag "a" 0)]

theorem remarked_reachable : FileReachable remarked :=
  afterAll_reachable ⟨_, .single (.opens _ rfl)⟩ _

theorem flags_inOrder_remarked :
    RowsInOrder (remarked.db.flagSet.getD AutoTable.empty) ∧
      PicksNewest remarked.db (remarked.db.flagSet.getD AutoTable.empty) := by
  have hsome : remarked.db.flagSet.isSome = true := by decide +kernel
  obtain ⟨flags, hflags⟩ := Option.isSome_iff_exists.mp hsome
  exact flags_inOrder remarked_reachable (by rw [hflags, Option.getD_some])

end Tdnf.History
