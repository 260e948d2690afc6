import Tdnf.Client.FlagLedger
import Tdnf.History.FlagOrder
import Tdnf.Library.Coupling

/-!
# The history file follows the ledger

Every command does to the flags in the history file what its specification does to
the ledger, and ends with the same result. The calls of a command are coupled with
the steps of the specification one by one.
-/

namespace Tdnf.Client

open History Relational Procedure Coupling VersionLog

/-! ## Flags beyond the newest transaction -/

section Beyond

variable {rpm : Set RpmDb} {w : World} {db : Db}

/-- A run of sessions is a run of the history file. -/
theorem fileReachable_of_reachable (h : Reachable rpm w) :
    FileReachable ⟨w.db, w.session.map (·.ctx), w.rpmdb⟩ := by
  induction h with
  | initial r hr => exact ⟨r, .refl⟩
  | @step w₁ w₂ h hstep ih =>
      obtain ⟨r, hsteps⟩ := ih
      refine ⟨r, hsteps.tail ?_⟩
      cases hstep with
      | rpm r hr => exact .rpm _ r
      | opens hnone => exact .opens ⟨w₁.db, w₁.session.map (·.ctx), w₁.rpmdb⟩ (by simp [hnone])
      | closes s hs => exact .closes _
      | call s o hs hallowed =>
          exact .call ⟨w₁.db, w₁.session.map (·.ctx), w₁.rpmdb⟩ s.ctx (.call o) (by simp [hs])

theorem flagsUpTo_of_reachable (h : Reachable rpm w) : FlagsUpTo w.db w.db.newest :=
  (fileReachable_of_reachable h).inv.flags

/-- No flag changes behind the newest transaction. -/
theorem dbGetAutoFlag_beyond (hstore : FlagStore db) (hrows : FlagsUpTo db db.newest) {t : ℤ}
    (ht : db.newest ≤ t) (name : String) :
    dbGetAutoFlag db t name = dbGetAutoFlag db db.newest name := by
  rw [dbGetAutoFlag_eq hstore, dbGetAutoFlag_eq hstore, flagOf, flagOf]
  cases (db.names.getD AutoTable.empty).keyOf name with
  | none => rfl
  | some i =>
      refine congrArg Except.ok (lookup_eq_of_sees 0 (fun r hr => ?_) i)
      obtain ⟨row, hrow, rfl⟩ := List.mem_map.mp hr
      have hle : row.transId ≤ db.newest := hrows.upTo row hrow
      have hle' : (row.transId : ℤ) ≤ db.newest := by exact_mod_cast hle
      exact iff_of_true (hle'.trans ht) hle'

end Beyond

/-! ## One flag at the newest transaction -/

section Setting

variable {db : Db} {transId : ℕ} {t : ℤ}

theorem flagAt_insert (flags : AutoTable FlagRow) (ht : transId ≤ t) (i j : ℕ) (value : ℤ) :
    flagAt (flags.insert ⟨transId, i, value⟩) t j =
      if i = j then value else flagAt flags t j := by
  have hlog : flagLog (flags.insert ⟨transId, i, value⟩) =
      flagLog flags ++ [⟨transId, i, value⟩] := by simp [flagLog]
  rw [flagAt, hlog, lookup_concat]
  simp only [ht, and_true]
  rfl

theorem keyOf_inj {names : AutoTable String} {name other : String} {i : ℕ}
    (h : names.keyOf name = some i) (h' : names.keyOf other = some i) : name = other :=
  names.row_unique (AutoTable.mem_of_keyOf h) (AutoTable.mem_of_keyOf h')

section Names

variable {names : AutoTable String} {flags : AutoTable FlagRow} {name : String}

theorem flagOf_of_keyOf {i : ℕ} (h : names.keyOf name = some i) :
    flagOf names flags t name = flagAt flags t i := by rw [flagOf, h]

theorem flagOf_of_unknown (h : names.keyOf name = none) : flagOf names flags t name = 0 := by
  rw [flagOf, h]

end Names

/-- Setting a flag changes it from its transaction on, and no flag of another name. -/
theorem flagOf_setFlag (ht : transId ≤ t) (name other : String) (value : ℤ) :
    flagOf ((setFlag transId name value db).names.getD AutoTable.empty)
        ((setFlag transId name value db).flagSet.getD AutoTable.empty) t other =
      if other = name then value
      else flagOf (db.names.getD AutoTable.empty) (db.flagSet.getD AutoTable.empty) t other := by
  simp only [setFlag, Option.getD_some]
  generalize db.names.getD AutoTable.empty = names
  generalize db.flagSet.getD AutoTable.empty = flags
  rw [internName]
  cases hkey : names.keyOf name with
  | some i =>
      by_cases hsame : other = name
      · subst hsame
        rw [flagOf_of_keyOf hkey, flagAt_insert flags ht, if_pos rfl, if_pos rfl]
      · rw [if_neg hsame]
        cases hother : names.keyOf other with
        | none => rw [flagOf_of_unknown hother, flagOf_of_unknown hother]
        | some j =>
            have hne : i ≠ j := by
              rintro rfl
              exact hsame (keyOf_inj hother hkey)
            rw [flagOf_of_keyOf hother, flagOf_of_keyOf hother, flagAt_insert flags ht, if_neg hne]
  | none =>
      dsimp only
      have hinsert := names.keyOf_insert name other
      by_cases hsame : other = name
      · subst hsame
        rw [hkey, if_pos rfl, Option.none_or] at hinsert
        rw [if_pos rfl, flagOf_of_keyOf hinsert, flagAt_insert flags ht, if_pos rfl]
      · rw [if_neg (Ne.symm hsame), Option.or_none] at hinsert
        rw [if_neg hsame]
        cases hother : names.keyOf other with
        | none => rw [flagOf_of_unknown hother, flagOf_of_unknown (hinsert.trans hother)]
        | some j =>
            have hle := (AutoTable.keyOf_le_lastKey hother).2.trans names.lastKey_le_seq
            rw [flagOf_of_keyOf hother, flagOf_of_keyOf (hinsert.trans hother),
              flagAt_insert flags ht, if_neg (by omega)]

end Setting

/-! ## What a ledger tells -/

/-- The ledger of a history database. -/
structure LedgerOf (db : Db) (l : Ledger) : Prop where
  newest : db.newest = l.flags.newest
  cookie : (createHistoryCtx db).cookie = l.cookie
  flags : ∀ t name, dbGetAutoFlag db t name = .ok (l.flags.value t name)

/-- A context that was just opened on a file with this ledger. -/
def Opened (rpm : Set RpmDb) (rpmdb : RpmDb) (ctx : HistoryCtx) (l : Ledger) : Prop :=
  ∃ w, Reachable rpm w ∧ w.session = none ∧ w.rpmdb = rpmdb ∧ ctx = createHistoryCtx w.db ∧
    LedgerOf w.db l

/-- A context in use, on a file with this ledger. -/
def Shows (rpm : Set RpmDb) (synced : Bool) (ctx : HistoryCtx) (l : Ledger) : Prop :=
  ∃ w, Reachable rpm w ∧ w.session = some ⟨ctx, synced⟩ ∧ ctx.cookie = l.cookie ∧ LedgerOf w.db l

/-- A context in use or just opened. -/
def InUse (rpm : Set RpmDb) (ctx : HistoryCtx) (l : Ledger) : Prop :=
  ∃ synced, Shows rpm synced ctx l

section Ledgers

variable {rpm : Set RpmDb} {w : World} {ctx : HistoryCtx} {l : Ledger} {synced : Bool}

/-- A context at a transaction has the cookie that a new one would have. -/
theorem cookie_of_session (hrpm : RpmContract rpm) (h : Reachable rpm w)
    (hs : w.session = some ⟨ctx, synced⟩) (hpos : 0 < ctx.transId) :
    (createHistoryCtx w.db).cookie = ctx.cookie := by
  rcases (inv_of_reachable hrpm h).history with hfresh | ⟨transactions, items, rpms, hchron, hctx⟩
  · have hzero : ctx.transId = 0 := (hfresh.session _ hs).2
    omega
  · obtain ⟨row, hnewest, hrow⟩ := hchron.newestTransaction_eq
    rw [(hctx _ hs).cookie row hrow, createHistoryCtx, hnewest]
    rfl

/-- A context with its ledger, by the flags up to its transaction. -/
theorem shows_of_session (hrpm : RpmContract rpm) (h : Reachable rpm w)
    (hs : w.session = some ⟨ctx, synced⟩) (hpos : 0 < ctx.transId) (hcookie : ctx.cookie = l.cookie)
    (hnewest : ctx.transId = l.flags.newest)
    (hpast : ∀ t : ℤ, t < ctx.transId → ∀ name,
      dbGetAutoFlag ctx.db.view t name = .ok (l.flags.value t name))
    (hcurrent : ∀ name,
      dbGetAutoFlag ctx.db.view ctx.transId name = .ok (l.flags.current name)) :
    Shows rpm synced ctx l := by
  have hinv := inv_of_reachable hrpm h
  have hview : ctx.db.view = w.db := congrArg Conn.view (hinv.session _ hs)
  have htrans : ctx.transId = w.db.newest := session_transId hinv hs
  refine ⟨w, h, hs, hcookie, htrans.symm.trans hnewest,
    (cookie_of_session hrpm h hs hpos).trans hcookie, fun t name => ?_⟩
  rw [hview, htrans] at hpast
  rw [hview, htrans] at hcurrent
  rcases lt_or_ge t (w.db.newest : ℤ) with ht | ht
  · exact hpast t ht name
  · have hle : (l.flags.newest : ℤ) ≤ t := by rwa [← hnewest, htrans]
    rw [dbGetAutoFlag_beyond hinv.flags (flagsUpTo_of_reachable h) ht, hcurrent name,
      l.flags.value_of_newest_le hle]

end Ledgers

/-! ## The calls, one by one -/

section Calls

variable {rpm : Set RpmDb} {rpmdb : RpmDb} {synced : Bool}

theorem shows_opened {ctx : HistoryCtx} {l : Ledger} (h : Opened rpm rpmdb ctx l) :
    Shows rpm false ctx l := by
  obtain ⟨w, hreach, hnone, -, rfl, hledger⟩ := h
  exact ⟨_, hreach.step (.opens w hnone), rfl, hledger.cookie, hledger⟩

/-- A context that recorded the packages of rpm, if they were not known. -/
theorem shows_recorded (hrpm : RpmContract rpm) {w : World} {ctx : HistoryCtx} {l : Ledger}
    (h : Reachable rpm w) (hs : w.session = some ⟨ctx, true⟩) {cookie : String}
    (hcookie : ctx.cookie = some cookie)
    (htrans : ctx.transId =
      if l.cookie = some cookie then l.flags.newest else l.flags.newest + 1)
    (hflags : ∀ t name, dbGetAutoFlag ctx.db.view t name = .ok (l.flags.value t name)) :
    Shows rpm true ctx (l.recorded cookie) := by
  obtain ⟨hpos, -, -⟩ := recordedIds_synced hrpm h hs
  rw [Ledger.recorded]
  split_ifs at htrans ⊢ with hsame
  · refine shows_of_session hrpm h hs hpos (hcookie.trans hsame.symm) htrans
      (fun t _ => hflags t) fun name => ?_
    rw [htrans]
    exact hflags _ name
  · refine shows_of_session hrpm h hs hpos hcookie htrans (fun t _ => hflags t) fun name => ?_
    rw [htrans]
    exact hflags _ name

/-- The sync of a command. -/
theorem coupled_sync (hrpm : RpmContract rpm) (now : ℤ) :
    Coupled (Opened rpm rpmdb) (orHistoryError (historySync rpmdb now))
      (modify (Ledger.recorded rpmdb.cookie) : LedgerProc) (fun _ _ => Shows rpm true)
      (InUse rpm) := by
  apply coupled_of_ok
  rintro _ l ⟨w, hreach, hnone, rfl, rfl, hledger⟩
  obtain ⟨ctx, w', hrun, hdone, hreach', hs'⟩ := sync_stage hrpm hreach hnone now
  have htrans := hdone.transId
  rw [hledger.cookie, hledger.newest] at htrans
  refine ⟨(), (), ctx, _, orHistoryError_run hrun, rfl,
    shows_recorded hrpm hreach' hs' hdone.cookie htrans fun t name => ?_⟩
  rw [dbGetAutoFlag_congr hdone.names hdone.flagSet]
  exact hledger.flags t name

theorem historyUpdateState_cookie {ctx ctx' : HistoryCtx} {w : World} (hrpm : RpmContract rpm)
    (h : Reachable rpm w) (hs : w.session = some ⟨ctx, true⟩) {now : ℤ} {cmdline : Option String}
    (hrun : (historyUpdateState noFault rpmdb now cmdline).run ctx = .ok () ctx') :
    ctx'.cookie = some rpmdb.cookie := by
  have hinv := inv_of_reachable hrpm h
  obtain ⟨transactions, items, rpms, hchron, -⟩ := hinv.history.resolve_left fun hfresh =>
    absurd (hfresh.session _ hs).1 Bool.true_eq_false.mp
  obtain ⟨hpending, htrans, hitems⟩ := tables_exist hchron (hinv.session _ hs)
  rw [historyUpdateState_noFault hpending htrans hitems] at hrun
  cases hrun
  split_ifs with hsame
  · exact hsame
  · rfl

/-- The update behind a run of rpm. -/
theorem coupled_update (hrpm : RpmContract rpm) (hr : rpmdb ∈ rpm) (now : ℤ)
    (cmdline : Option String) :
    Coupled (Shows rpm true) (orHistoryError (historyUpdateState noFault rpmdb now cmdline))
      (modify (Ledger.recorded rpmdb.cookie) : LedgerProc) (fun _ _ => Shows rpm true)
      (InUse rpm) := by
  apply coupled_of_ok
  rintro ctx l ⟨w, hreach, hs, hcookie, hledger⟩
  have hinv := inv_of_reachable hrpm hreach
  have hview : ctx.db.view = w.db := congrArg Conn.view (hinv.session _ hs)
  obtain ⟨ctx', w', hrun, htrans, hnames, hset, hreach', hs'⟩ :=
    update_stage hrpm hreach hs hr now cmdline
  rw [hcookie, session_transId hinv hs, hledger.newest] at htrans
  refine ⟨(), (), ctx', _, orHistoryError_run hrun, rfl, shows_recorded hrpm hreach' hs'
    (historyUpdateState_cookie hrpm hreach hs hrun) htrans fun t name => ?_⟩
  rw [dbGetAutoFlag_congr hnames hset, hview]
  exact hledger.flags t name

/-- There is a table of transactions once there is a transaction. -/
theorem transactions_isSome (hrpm : RpmContract rpm) {w : World} (h : Reachable rpm w) :
    w.db.transactions.isSome = true ↔ w.db.newest ≠ 0 := by
  rcases (inv_of_reachable hrpm h).history with hfresh | ⟨transactions, items, rpms, hchron, -⟩
  · rw [hfresh.newest, hfresh.db]
    simp [Db.fresh]
  · have hpos := hchron.nonempty
    rw [hchron.newest_eq, hchron.transactionsTable]
    simp only [Option.isSome_some, true_iff]
    omega

/-- The context behind an empty transaction. -/
theorem shows_added (hrpm : RpmContract rpm) {w : World} {ctx : HistoryCtx} {l : Ledger}
    (h : Reachable rpm w) (hs : w.session = some ⟨ctx, synced⟩) (hcookie : ctx.cookie = l.cookie)
    (hledger : LedgerOf w.db l) (hpos : w.db.newest ≠ 0) {now : ℤ} {cmdline : Option String}
    (hrun : (historyAddTransaction now cmdline).run ctx = .ok () (addedCtx now cmdline ctx)) :
    Shows rpm synced (addedCtx now cmdline ctx) (l.update Timeline.extend) := by
  have hinv := inv_of_reachable hrpm h
  have hdb : ctx.db = ⟨w.db, none⟩ := hinv.session _ hs
  obtain ⟨transactions, items, rpms, hchron, -⟩ := hinv.history.resolve_left fun hfresh =>
    hpos hfresh.newest
  have hreach' := h.step (.call _ _ (.addTransaction now cmdline) hs trivial)
  have hs' : (w.after ⟨ctx, synced⟩ (.addTransaction now cmdline)).session =
      some ⟨addedCtx now cmdline ctx, synced⟩ := by
    simp only [World.after, Op.run, Op.syncs, hrun, finalState, Bool.or_false]
  have htrans : (addedCtx now cmdline ctx).transId = l.flags.newest + 1 := by
    rw [← hledger.newest, hchron.newest_eq]
    simp [addedCtx, hdb, hchron.transactionsTable]
  have hflags : ∀ t name, dbGetAutoFlag (addedCtx now cmdline ctx).db.view t name =
      .ok (l.flags.value t name) := by
    intro t name
    rw [← hledger.flags t name]
    exact dbGetAutoFlag_congr (by simp [addedCtx, hdb, addTransactionRow])
      (by simp [addedCtx, hdb, addTransactionRow]) t name
  refine shows_of_session hrpm hreach' hs' (by omega) hcookie htrans (fun t _ => hflags t)
    fun name => ?_
  rw [htrans]
  exact hflags _ name

/-- An empty transaction. -/
theorem coupled_append (hrpm : RpmContract rpm) (now : ℤ) (cmdline : Option String) :
    Coupled (Shows rpm synced) (orHistoryError (historyAddTransaction now cmdline))
      (Ledger.append cmdline) (fun _ _ => Shows rpm synced) (Shows rpm synced) := by
  rintro ctx l ⟨w, hreach, hs, hcookie, hledger⟩
  have hview : ctx.db.view = w.db :=
    congrArg Conn.view ((inv_of_reachable hrpm hreach).session _ hs)
  have haccepted : (cmdline.isSome = true ∧ w.db.transactions.isSome = true) ↔
      ¬ (cmdline = none ∨ l.flags.newest = 0) := by
    rw [transactions_isSome hrpm hreach, hledger.newest, Option.isSome_iff_ne_none, not_or]
  have hadd : (historyAddTransaction now cmdline).run ctx = _ :=
    historyAddTransaction_run now cmdline
  rw [hview] at hadd
  rw [Ledger.append, run_get_bind]
  by_cases hrefused : cmdline = none ∨ l.flags.newest = 0
  · rw [if_neg fun h => haccepted.mp h hrefused] at hadd
    rw [if_pos hrefused, orHistoryError_error hadd]
    exact ⟨rfl, w, hreach, hs, hcookie, hledger⟩
  · have haccept := haccepted.mpr hrefused
    rw [if_pos haccept] at hadd
    rw [if_neg hrefused, orHistoryError_run hadd]
    exact shows_added hrpm hreach hs hcookie hledger
      ((transactions_isSome hrpm hreach).mp haccept.2) hadd

/-- What `history_set_auto_flag` leaves at the newest transaction. -/
theorem set_current {w : World} {ctx : HistoryCtx} (hinv : Inv rpm w)
    (hs : w.session = some ⟨ctx, synced⟩) (hpos : 0 < ctx.transId) (name other : String)
    (value : ℤ) :
    dbGetAutoFlag (dbAfter (historySetAutoFlag name value) ctx) w.db.newest other =
      if other = name then .ok value else dbGetAutoFlag w.db w.db.newest other := by
  have hview : ctx.db.view = w.db := congrArg Conn.view (hinv.session _ hs)
  have htrans : ctx.transId = w.db.newest := session_transId hinv hs
  rw [dbAfter, historySetAutoFlag_run (hview ▸ hinv.flags) hpos, finalState, hview, htrans,
    dbGetAutoFlag_eq hinv.flags]
  split_ifs with hne hsame hsame
  · rw [HistoryCtx.setDb_db, Conn.view_write, hview, dbGetAutoFlag_eq (hinv.flags.setFlag _ _ _),
      flagOf_setFlag le_rfl, if_pos hsame]
  · rw [HistoryCtx.setDb_db, Conn.view_write, hview, dbGetAutoFlag_eq (hinv.flags.setFlag _ _ _),
      flagOf_setFlag le_rfl, if_neg hsame]
  · rw [hview, dbGetAutoFlag_eq hinv.flags, hsame, not_not.mp hne]
  · rw [hview, dbGetAutoFlag_eq hinv.flags]

/-- The context behind a call that replaced the flags at its transaction. -/
theorem shows_assigned (hrpm : RpmContract rpm) {w : World} {ctx ctx' : HistoryCtx} {l : Ledger}
    (h : Reachable rpm w) (hs : w.session = some ⟨ctx, synced⟩) (hcookie : ctx.cookie = l.cookie)
    (hledger : LedgerOf w.db l) (hpos : 0 < ctx.transId) {o : Op} (hquiet : o.quiet = true)
    (hallowed : o.allowed synced) (hsyncs : o.syncs = false)
    (hrun : (o.run w.rpmdb).run ctx = .ok () ctx') (f : String → ℤ)
    (hpast : ∀ t : ℤ, t < w.db.newest → ∀ name,
      dbGetAutoFlag ctx'.db.view t name = dbGetAutoFlag w.db t name)
    (hcurrent : ∀ name, dbGetAutoFlag ctx'.db.view w.db.newest name = .ok (f name)) :
    Shows rpm synced ctx' (l.update fun τ => τ.assign f) := by
  have hinv := inv_of_reachable hrpm h
  have htrans : ctx.transId = w.db.newest := session_transId hinv hs
  have hnewest : ctx.transId = l.flags.newest := htrans.trans hledger.newest
  obtain ⟨db', hafter, -, -⟩ :=
    ctxAfter_quiet (s := ⟨ctx, synced⟩) hinv.flags (hinv.session _ hs) hpos hquiet
  rw [World.ctxAfter, hrun, finalState] at hafter
  subst hafter
  have hs' : (w.after ⟨ctx, synced⟩ o).session = some ⟨ctx.setDb ⟨db', none⟩, synced⟩ := by
    simp only [World.after, hrun, finalState, hsyncs, Bool.or_false]
  refine shows_of_session hrpm (h.step (.call _ _ o hs hallowed)) hs' hpos hcookie hnewest
    (fun t ht name => ?_) fun name => ?_
  · rw [HistoryCtx.setDb_transId] at ht
    rw [hpast t (htrans ▸ ht), hledger.flags, Ledger.update,
      Timeline.assign_value_of_lt _ _ (hnewest ▸ ht)]
  · rw [HistoryCtx.setDb_transId, htrans, hcurrent, Ledger.update, Timeline.assign_current]

/-- One flag. -/
theorem coupled_setFlag (hrpm : RpmContract rpm) (name : String) (value : ℤ) :
    Coupled (Shows rpm synced) (orHistoryError (historySetAutoFlag name value))
      (Ledger.setFlag name value) (fun _ _ => Shows rpm synced) (Shows rpm synced) := by
  rintro ctx l ⟨w, hreach, hs, hcookie, hledger⟩
  have hinv := inv_of_reachable hrpm hreach
  have hview : ctx.db.view = w.db := congrArg Conn.view (hinv.session _ hs)
  have htrans : ctx.transId = w.db.newest := session_transId hinv hs
  rw [Ledger.setFlag, run_get_bind, ← hledger.newest, ← htrans]
  by_cases hzero : ctx.transId = 0
  · rw [if_pos hzero, orHistoryError_error (autoFlags_unnumbered hzero name value).2]
    exact ⟨rfl, w, hreach, hs, hcookie, hledger⟩
  · have hpos := Nat.pos_of_ne_zero hzero
    obtain ⟨ctx', hrun⟩ : ∃ ctx', (historySetAutoFlag name value).run ctx = .ok () ctx' :=
      ⟨_, historySetAutoFlag_run (hview ▸ hinv.flags) hpos name value⟩
    have hafter : dbAfter (historySetAutoFlag name value) ctx = ctx'.db.view := by
      rw [dbAfter, hrun, finalState]
    rw [if_neg hzero, orHistoryError_run hrun]
    refine shows_assigned hrpm hreach hs hcookie hledger hpos (o := .setAutoFlag name value) rfl
      trivial rfl hrun _ (fun t ht other => ?_) fun other => ?_
    · rw [← hafter]
      exact set_effect hinv hs name value ht other
    · rw [← hafter, set_current hinv hs hpos, hledger.flags, hledger.newest, Function.update_apply]
      split_ifs <;> rfl

/-- A context in use at a transaction. -/
def Numbered (rpm : Set RpmDb) (synced : Bool) (ctx : HistoryCtx) (l : Ledger) : Prop :=
  Shows rpm synced ctx l ∧ l.flags.newest ≠ 0

theorem numbered_of_synced (hrpm : RpmContract rpm) {ctx : HistoryCtx} {l : Ledger}
    (h : Shows rpm true ctx l) : Numbered rpm true ctx l := by
  refine ⟨h, ?_⟩
  obtain ⟨w, hreach, hs, -, hledger⟩ := h
  obtain ⟨hpos, -, -⟩ := recordedIds_synced hrpm hreach hs
  rw [← hledger.newest, ← session_transId (inv_of_reachable hrpm hreach) hs]
  exact Nat.pos_iff_ne_zero.mp hpos

/-- At a transaction a flag is always set. -/
theorem setFlag_numbered (hrpm : RpmContract rpm) {ctx : HistoryCtx} {l : Ledger}
    (h : Numbered rpm synced ctx l) (name : String) (value : ℤ) :
    ∃ ctx', (orHistoryError (historySetAutoFlag name value)).run ctx = .ok () ctx' ∧
      Numbered rpm synced ctx' (l.update fun τ => τ.put name value) := by
  have hboth := coupled_setFlag hrpm name value ctx l h.1
  have hspec : (Ledger.setFlag name value).run l =
      .ok () (l.update fun τ => τ.put name value) := by
    rw [Ledger.setFlag, run_get_bind, if_neg h.2]
    rfl
  rw [hspec] at hboth
  cases hrun : (orHistoryError (historySetAutoFlag name value)).run ctx with
  | ok _ ctx' =>
      rw [hrun] at hboth
      exact ⟨ctx', rfl, hboth, h.2⟩
  | error e ctx' =>
      rw [hrun] at hboth
      exact hboth.elim

/-- A loop that sets the flags of some of the packages. -/
theorem setLoop_numbered (hrpm : RpmContract rpm) (chosen : String → Bool)
    (value : String → ℤ) (names : List String) {ctx : HistoryCtx} {l : Ledger}
    (h : Numbered rpm synced ctx l) :
    ∃ ctx', (names.forM fun name => if chosen name = true then
        orHistoryError (historySetAutoFlag name (value name)) else pure ()).run ctx = .ok () ctx' ∧
      Numbered rpm synced ctx' (l.setAll chosen value names) := by
  induction names generalizing ctx l with
  | nil => exact ⟨ctx, rfl, by rwa [Ledger.setAll_nil]⟩
  | cons name rest ih =>
      rw [Ledger.setAll_cons]
      by_cases hchosen : chosen name = true
      · obtain ⟨ctx₁, hset, hnext⟩ := setFlag_numbered hrpm h name (value name)
        obtain ⟨ctx₂, hrest, hlast⟩ := ih hnext
        rw [if_pos hchosen]
        refine ⟨ctx₂, ?_, hlast⟩
        have hhead : (if chosen name = true then
            orHistoryError (historySetAutoFlag name (value name)) else pure ()).run ctx =
            .ok () ctx₁ := by rw [if_pos hchosen, hset]
        exact (run_bind_ok hhead).trans hrest
      · obtain ⟨ctx₂, hrest, hlast⟩ := ih h
        rw [if_neg hchosen]
        refine ⟨ctx₂, ?_, hlast⟩
        have hhead : (if chosen name = true then
            orHistoryError (historySetAutoFlag name (value name)) else pure ()).run ctx =
            .ok () ctx := by
          rw [if_neg hchosen]
          rfl
        exact (run_bind_ok hhead).trans hrest

theorem markAutoInstalled_eq_forM (info : SolvedPkgInfo) (nAutoOnly : Bool) (names : List String) :
    markAutoInstalled info nAutoOnly names = names.forM fun name =>
      if (!nAutoOnly || info.flag name = 1) = true then
        orHistoryError (historySetAutoFlag name (info.flag name)) else pure () := by
  induction names with
  | nil => rfl
  | cons name rest ih =>
      rw [markAutoInstalled, ih]
      rfl

/-- The packages that a transaction installed. -/
theorem coupled_marked (hrpm : RpmContract rpm) (info : SolvedPkgInfo) (nAutoOnly : Bool) :
    Coupled (Shows rpm true) (markAutoInstalled info nAutoOnly info.pkgsToInstall)
      (modify (Ledger.marked info nAutoOnly) : LedgerProc) (fun _ _ => Shows rpm true)
      (InUse rpm) := by
  apply coupled_of_ok
  intro ctx l hshows
  obtain ⟨ctx', hrun, hnext⟩ := setLoop_numbered hrpm
    (fun name => !nAutoOnly || info.flag name = 1) info.flag info.pkgsToInstall
    (numbered_of_synced hrpm hshows)
  rw [← markAutoInstalled_eq_forM] at hrun
  exact ⟨(), (), ctx', _, hrun, rfl, hnext.1⟩

/-- The flag part of a history command. -/
theorem coupled_execFlags (hrpm : RpmContract rpm) (args : HistoryArgs) :
    Coupled (Shows rpm true) (orHistoryError (execFlags args))
      (modify (Ledger.applied args) : LedgerProc) (fun _ _ => Shows rpm true) (InUse rpm) := by
  apply coupled_of_ok
  rintro ctx l ⟨w, hreach, hs, hcookie, hledger⟩
  have hinv := inv_of_reachable hrpm hreach
  obtain ⟨hpos, -, -⟩ := recordedIds_synced hrpm hreach hs
  have hrestore (t : ℤ) : ∃ ctx', (historyRestoreAutoFlags t).run ctx = .ok () ctx' ∧
      Shows rpm true ctx' (l.update fun τ => τ.restore t) := by
    obtain ⟨ctx', hrun, hcurrent, hpast⟩ := restore_effect hinv hs t
    refine ⟨ctx', hrun, shows_assigned hrpm hreach hs hcookie hledger hpos
      (o := .restoreAutoFlags t) rfl trivial rfl hrun _ hpast fun name => ?_⟩
    rw [hcurrent, hledger.flags]
  have hreplay (first last : ℤ) : ∃ ctx', (historyReplayAutoFlags first last).run ctx =
      .ok () ctx' ∧ Shows rpm true ctx' (l.update fun τ => τ.replay first last) := by
    obtain ⟨ctx', hrun, hcurrent, hpast⟩ := replay_effect hinv hs first last
    refine ⟨ctx', hrun, shows_assigned hrpm hreach hs hcookie hledger hpos
      (o := .replayAutoFlags first last) rfl trivial rfl hrun _ hpast fun name => ?_⟩
    have hname := hcurrent name
    simp only [hledger.flags, ne_eq, Except.ok.injEq] at hname
    split_ifs with hne
    · exact hname.1 hne
    · rw [hname.2 (not_not.mp hne), hledger.newest]
      rfl
  obtain ⟨command, first, last⟩ := args
  cases command with
  | rollback =>
      obtain ⟨ctx', hrun, hshows⟩ := hrestore last
      exact ⟨(), (), ctx', _, orHistoryError_run hrun, rfl, hshows⟩
  | undo =>
      obtain ⟨ctx', hrun, hshows⟩ := hreplay last (first - 1)
      exact ⟨(), (), ctx', _, orHistoryError_run hrun, rfl, hshows⟩
  | redo =>
      obtain ⟨ctx', hrun, hshows⟩ := hreplay (first - 1) last
      exact ⟨(), (), ctx', _, orHistoryError_run hrun, rfl, hshows⟩
  | list => exact ⟨(), (), ctx, l, rfl, rfl, w, hreach, hs, hcookie, hledger⟩
  | init => exact ⟨(), (), ctx, l, rfl, rfl, w, hreach, hs, hcookie, hledger⟩

end Calls

/-! ## The commands -/

section Commands

variable {rpm : Set RpmDb} {rpmdb : RpmDb} {synced : Bool} (hrpm : RpmContract rpm)

theorem inUse_opened {ctx : HistoryCtx} {l : Ledger} (h : Opened rpm rpmdb ctx l) :
    InUse rpm ctx l := ⟨false, shows_opened h⟩

theorem inUse_shows {ctx : HistoryCtx} {l : Ledger} (h : Shows rpm synced ctx l) :
    InUse rpm ctx l := ⟨synced, h⟩

include hrpm

theorem shows_transId {ctx : HistoryCtx} {l : Ledger} (h : Shows rpm synced ctx l) :
    ctx.transId = l.flags.newest := by
  obtain ⟨w, hreach, hs, -, hledger⟩ := h
  exact (session_transId (inv_of_reachable hrpm hreach) hs).trans hledger.newest

/-- The packages before and after a run of rpm are recorded. -/
theorem coupled_transact (exec : Exec) (hrun : ∀ r, exec.rpmRun rpmdb = .ok r → r ∈ rpm)
    (now : ℤ) :
    Coupled (Opened rpm rpmdb) (runTransactionWithHistory exec rpmdb now)
      (Ledger.transact exec rpmdb) (fun _ _ => Shows rpm true) (InUse rpm) := by
  refine (coupled_sync hrpm now).bind fun _ _ => ?_
  rw [runTransaction]
  cases hrpmRun : exec.rpmRun rpmdb with
  | ok r => exact coupled_update hrpm (hrun r hrpmRun) now exec.cmdline
  | error e => exact coupled_throw e fun _ _ => inUse_shows

/-- A run of rpm that records nothing. -/
theorem coupled_untracked (exec : Exec) :
    Coupled (Opened rpm rpmdb) (do let _ ← runTransaction exec rpmdb; pure () : CmdProc Unit)
      (match exec.rpmRun rpmdb with
        | .ok _ => pure ()
        | .error e => throw e : LedgerProc) (fun _ _ => InUse rpm) (InUse rpm) := by
  rw [runTransaction]
  cases exec.rpmRun rpmdb with
  | ok r => exact coupled_pure fun _ _ => inUse_opened
  | error e => exact coupled_throw e fun _ _ => inUse_opened

theorem coupled_rpmExecTransaction (exec : Exec)
    (hrun : ∀ r, exec.rpmRun rpmdb = .ok r → r ∈ rpm) (now : ℤ) :
    Coupled (Opened rpm rpmdb) (rpmExecTransaction exec rpmdb now)
      ((Command.rpmExecTransaction exec).spec rpmdb) (fun _ _ => InUse rpm) (InUse rpm) := by
  rw [rpmExecTransaction, Command.spec, Ledger.untracked]
  cases exec.nDownloadOnly with
  | true => exact coupled_pure fun _ _ => inUse_opened
  | false =>
      cases exec.nTestOnly with
      | true => exact coupled_untracked hrpm exec
      | false =>
          refine (coupled_transact hrpm exec hrun now).bind fun _ _ => ?_
          exact (coupled_marked hrpm exec.solved false).strengthen
            (fun _ _ _ _ => inUse_shows) fun _ _ h => h

theorem coupled_rpmExecHistoryTransaction (exec : Exec)
    (hrun : ∀ r, exec.rpmRun rpmdb = .ok r → r ∈ rpm) (now : ℤ) :
    Coupled (Opened rpm rpmdb) (rpmExecHistoryTransaction exec rpmdb now)
      ((Command.rpmExecHistoryTransaction exec).spec rpmdb) (fun _ _ => InUse rpm)
      (InUse rpm) := by
  rw [rpmExecHistoryTransaction, Command.spec, Ledger.untracked]
  cases exec.nDownloadOnly with
  | true => exact coupled_pure fun _ _ => inUse_opened
  | false =>
      cases exec.nTestOnly with
      | true => exact coupled_untracked hrpm exec
      | false =>
          refine coupled_get fun ctx l hopened => ?_
          have hcaptured := shows_transId hrpm (shows_opened hopened)
          refine Coupled.bind (Coupled.weaken (coupled_transact hrpm exec hrun now) ?_) ?_
          · rintro _ _ ⟨rfl, rfl⟩
            exact hopened
          · intro _ _
            refine coupled_get fun ctx' l' hshows => Coupled.weaken (R := Shows rpm true) ?_ ?_
            · have hflags : Coupled (Shows rpm true)
                  (if ctx.transId = ctx'.transId then
                    orHistoryError (historyAddTransaction now exec.cmdline)
                  else markAutoInstalled exec.solved true exec.solved.pkgsToInstall)
                  (if l.flags.newest = l'.flags.newest then Ledger.append exec.cmdline
                  else modify (Ledger.marked exec.solved true) : LedgerProc)
                  (fun _ _ => Shows rpm true) (InUse rpm) := by
                refine Coupled.ite (by rw [hcaptured, shows_transId hrpm hshows])
                  (fun _ => ?_) fun _ => coupled_marked hrpm exec.solved true
                exact (coupled_append hrpm now exec.cmdline).strengthen (fun _ _ _ _ h => h)
                  fun _ _ => inUse_shows
              exact hflags.bind fun _ _ => (coupled_execFlags hrpm exec.history).strengthen
                (fun _ _ _ _ => inUse_shows) fun _ _ h => h
            · rintro _ _ ⟨rfl, rfl⟩
              exact hshows

theorem coupled_mark (names : List String) (dwValue : ℤ) (cmdline : String) (now : ℤ) :
    Coupled (Opened rpm rpmdb) (mark names dwValue cmdline now)
      ((Command.mark names dwValue cmdline).spec rpmdb) (fun _ _ => InUse rpm) (InUse rpm) := by
  rw [mark, Command.spec]
  refine Coupled.ite Iff.rfl (fun _ => coupled_throw _ fun _ _ => inUse_opened) fun hnames => ?_
  intro ctx l hopened
  have hadd := coupled_append hrpm now (some cmdline) ctx l (shows_opened hopened)
  rw [Ledger.append, run_get_bind] at hadd
  rw [run_get_bind]
  by_cases hzero : l.flags.newest = 0
  · -- there is no transaction to mark anything at
    rw [if_pos (.inr hzero)] at hadd
    rw [if_pos hzero]
    cases hrun : (orHistoryError (historyAddTransaction now (some cmdline))).run ctx with
    | ok _ ctx₁ =>
        rw [hrun] at hadd
        exact hadd.elim
    | error e ctx₁ =>
        rw [hrun] at hadd
        obtain ⟨name, rest, rfl⟩ := List.exists_cons_of_ne_nil hnames
        have hset := coupled_setFlag hrpm name dwValue ctx₁ l hadd.2
        rw [Ledger.setFlag, run_get_bind, if_pos hzero] at hset
        rw [run_bind_ok (run_attempt_error hrun)]
        cases hfirst : (orHistoryError (historySetAutoFlag name dwValue)).run ctx₁ with
        | ok _ ctx₂ =>
            rw [hfirst] at hset
            exact hset.elim
        | error e' ctx₂ =>
            rw [hfirst] at hset
            have hloop : ((name :: rest).forM fun name =>
                orHistoryError (historySetAutoFlag name dwValue)).run ctx₁ = .error e' ctx₂ :=
              run_bind_error hfirst
            rw [hloop]
            exact ⟨hset.1, inUse_shows hset.2⟩
  · rw [if_neg (by simp [hzero])] at hadd
    rw [if_neg hzero]
    cases hrun : (orHistoryError (historyAddTransaction now (some cmdline))).run ctx with
    | error e ctx₁ =>
        rw [hrun] at hadd
        exact hadd.elim
    | ok _ ctx₁ =>
        rw [hrun] at hadd
        have hnumbered : Numbered rpm false ctx₁ (l.update Timeline.extend) :=
          ⟨hadd, Nat.succ_ne_zero _⟩
        obtain ⟨ctx₂, hloop, hnext⟩ :=
          setLoop_numbered hrpm (fun _ => true) (fun _ => dwValue) names hnumbered
        simp only [if_true] at hloop
        rw [run_bind_ok (run_attempt_ok hrun), hloop]
        exact inUse_shows hnext.1

/-- Every command is coupled with its specification. -/
theorem coupled_calls (command : Command)
    (hrun : ∀ exec, command = .rpmExecTransaction exec ∨ command = .rpmExecHistoryTransaction exec →
      ∀ r, exec.rpmRun rpmdb = .ok r → r ∈ rpm) (now : ℤ) :
    Coupled (Opened rpm rpmdb) (command.calls rpmdb now) (command.spec rpmdb)
      (fun _ _ => InUse rpm) (InUse rpm) := by
  cases command with
  | historyResolve args =>
      exact (coupled_sync hrpm now).strengthen (fun _ _ _ _ => inUse_shows) fun _ _ h => h
  | rpmExecTransaction exec =>
      exact coupled_rpmExecTransaction hrpm exec (hrun exec (.inl rfl)) now
  | rpmExecHistoryTransaction exec =>
      exact coupled_rpmExecHistoryTransaction hrpm exec (hrun exec (.inr rfl)) now
  | mark names dwValue cmdline => exact coupled_mark hrpm names dwValue cmdline now
  | markAutoInstalledSinglePkg pszPkgName =>
      refine Coupled.weaken ?_ fun _ _ => shows_opened
      exact (coupled_setFlag hrpm pszPkgName 0).strengthen (fun _ _ _ _ => inUse_shows)
        fun _ _ => inUse_shows

end Commands

/-! ## Runs -/

section Runs

variable {rpm : Set RpmDb}

/-- What is assumed of a request: rpm is in one of its states before it and behind its run. -/
structure Admissible (rpm : Set RpmDb) (req : Request) : Prop where
  found : req.rpmdb ∈ rpm
  left : ∀ exec,
    req.command = .rpmExecTransaction exec ∨ req.command = .rpmExecHistoryTransaction exec →
    ∀ r, exec.rpmRun req.rpmdb = .ok r → r ∈ rpm

/-- A file between two commands, and its ledger. -/
def Stored (rpm : Set RpmDb) : Option Db → Option Ledger → Prop
  | none, none => True
  | some db, some l => ∃ w, Reachable rpm w ∧ w.session = none ∧ w.db = db ∧ LedgerOf db l
  | _, _ => False

theorem stored_none : Stored rpm none none := trivial

theorem ledgerOf_fresh : LedgerOf Db.fresh Ledger.fresh where
  newest := rfl
  cookie := rfl
  flags t name := rfl

theorem Stored.isSome {file : Option Db} {ledger : Option Ledger} (h : Stored rpm file ledger) :
    file.isSome = ledger.isSome := by
  cases file with
  | none =>
      cases ledger with
      | none => rfl
      | some l => exact h.elim
  | some db =>
      cases ledger with
      | none => exact h.elim
      | some l => rfl

/-- A command finds a context on the file, which is created where it is missing. -/
theorem Stored.opened {file : Option Db} {ledger : Option Ledger} (h : Stored rpm file ledger)
    {rpmdb : RpmDb} (hr : rpmdb ∈ rpm) :
    Opened rpm rpmdb (createHistoryCtx (file.getD Db.fresh)) (ledger.getD Ledger.fresh) := by
  cases file with
  | none =>
      cases ledger with
      | none => exact ⟨_, .initial rpmdb hr, rfl, rfl, rfl, ledgerOf_fresh⟩
      | some l => exact h.elim
  | some db =>
      cases ledger with
      | none => exact h.elim
      | some l =>
          obtain ⟨w, hreach, hnone, rfl, hledger⟩ := h
          exact ⟨_, hreach.step (.rpm w rpmdb hr), hnone, rfl, rfl, hledger⟩

variable (hrpm : RpmContract rpm)

include hrpm

/-- The context of a command is closed. -/
theorem stored_of_inUse {ctx : HistoryCtx} {l : Ledger} (h : InUse rpm ctx l) :
    Stored rpm (some ctx.db.durable) (some l) := by
  obtain ⟨synced, w, hreach, hs, -, hledger⟩ := h
  have hdb : ctx.db.durable = w.db :=
    congrArg Conn.durable ((inv_of_reachable hrpm hreach).session _ hs)
  rw [hdb]
  exact ⟨_, hreach.step (.closes w _ hs), rfl, rfl, hledger⟩

/-- The calls of a request end like its specification, and leave a file with its ledger. -/
theorem content_follows {req : Request} (hadm : Admissible rpm req) {file : Option Db}
    {ledger : Option Ledger} (h : Stored rpm file ledger) :
    (onNewContext req (file.getD Db.fresh)).1 = (onLedger req (ledger.getD Ledger.fresh)).1 ∧
      Stored rpm (some (onNewContext req (file.getD Db.fresh)).2)
        (some (onLedger req (ledger.getD Ledger.fresh)).2) := by
  have hends := coupled_calls hrpm req.command hadm.left req.now _ _ (h.opened hadm.found)
  rw [onNewContext, onLedger]
  cases hrun : (req.command.calls req.rpmdb req.now).run
      (createHistoryCtx (file.getD Db.fresh)) with
  | ok _ ctx =>
      cases hspec : (req.command.spec req.rpmdb).run (ledger.getD Ledger.fresh) with
      | ok _ l =>
          rw [hrun, hspec] at hends
          exact ⟨rfl, stored_of_inUse hrpm hends⟩
      | error e l =>
          rw [hrun, hspec] at hends
          exact hends.elim
  | error e ctx =>
      cases hspec : (req.command.spec req.rpmdb).run (ledger.getD Ledger.fresh) with
      | ok _ l =>
          rw [hrun, hspec] at hends
          exact hends.elim
      | error e' l =>
          rw [hrun, hspec] at hends
          exact ⟨congrArg Except.error hends.1, stored_of_inUse hrpm hends.2⟩

/-- One request. -/
theorem perform_follows {req : Request} (hadm : Admissible rpm req) {file : Option Db}
    {ledger : Option Ledger} (h : Stored rpm file ledger) :
    (req.perform Db.fresh onNewContext file).1 = (req.perform Ledger.fresh onLedger ledger).1 ∧
      Stored rpm (req.perform Db.fresh onNewContext file).2
        (req.perform Ledger.fresh onLedger ledger).2 := by
  obtain ⟨hresult, hstored⟩ := content_follows hrpm hadm h
  simp only [Request.perform, h.isSome]
  cases req.command.checked with
  | error e => exact ⟨rfl, h⟩
  | ok _ =>
      cases req.around.before with
      | error e => exact ⟨rfl, h⟩
      | ok _ =>
          cases req.command.opens with
          | false => exact ⟨hresult, h⟩
          | true =>
              simp only [if_true]
              cases req.around.prepareHistory req.command.mustExist ledger.isSome with
              | error e => exact ⟨rfl, h⟩
              | ok _ => exact ⟨hresult, hstored⟩

/-- Any number of requests. -/
theorem performAll_follows {requests : List Request} (hadm : ∀ req ∈ requests, Admissible rpm req)
    {file : Option Db} {ledger : Option Ledger} (h : Stored rpm file ledger) :
    (performAll Db.fresh onNewContext requests file).1 =
        (performAll Ledger.fresh onLedger requests ledger).1 ∧
      Stored rpm (performAll Db.fresh onNewContext requests file).2
        (performAll Ledger.fresh onLedger requests ledger).2 := by
  induction requests generalizing file ledger with
  | nil => exact ⟨rfl, h⟩
  | cons req rest ih =>
      rw [List.forall_mem_cons] at hadm
      obtain ⟨hresult, hnext⟩ := perform_follows hrpm hadm.1 h
      obtain ⟨hresults, hlast⟩ := ih hadm.2 hnext
      simp only [performAll]
      exact ⟨by rw [hresult, hresults], hlast⟩

end Runs

end Tdnf.Client
