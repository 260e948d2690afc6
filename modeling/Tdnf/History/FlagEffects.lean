import Tdnf.History.Deltas

/-!
# What the flag functions change

Restoring and replaying make the flags at the newest transaction agree with
earlier ones, and nothing that happens at the newest transaction is visible at
an earlier one. The preview of a replay lists the rows that the replay appends.
-/

namespace Tdnf.History

open Relational Procedure

section Appended

variable {names : AutoTable String} {flags : AutoTable FlagRow} {transId : ℕ}
  {change : ℕ → HistoryFlagsDelta}

/-- The flags of all names after a loop over the name ids. -/
theorem flagOf_changed {value : ℕ → ℤ} (hown : ∀ i, ∀ p ∈ change i, p.1 = i)
    (hvalue : ∀ i, change i = [(i, value i)] ∨ change i = [] ∧ flagAt flags transId i = value i)
    (name : String) :
    flagOf names (flags.insertAll
        (flagRows transId ((List.range' 1 names.lastKey).flatMap change))) transId name =
      match names.keyOf name with
      | none => 0
      | some i => value i := by
  rw [flagOf]
  cases hkey : names.keyOf name with
  | none => rfl
  | some i =>
      have hrange := AutoTable.keyOf_le_lastKey hkey
      exact flagAt_changed hown List.nodup_range' (List.mem_range'_1.mpr (by omega)) (hvalue i)

theorem flagOf_earlier {s : ℤ} (hs : s < transId) (changes : HistoryFlagsDelta) (name : String) :
    flagOf names (flags.insertAll (flagRows transId changes)) s name =
      flagOf names flags s name := by
  rw [flagOf, flagOf]
  cases names.keyOf name with
  | none => rfl
  | some i => exact flagAt_earlier hs changes i

theorem restoreChange_value (t : ℤ) (i : ℕ) :
    restoreChange transId t flags i = [(i, flagAt flags t i)] ∨
      restoreChange transId t flags i = [] ∧ flagAt flags transId i = flagAt flags t i := by
  rw [restoreChange]
  split_ifs with hne
  · exact .inl rfl
  · exact .inr ⟨rfl, (not_not.mp hne).symm⟩

/-- The value a replay aims at: that at `last` where the range changes the flag. -/
def replayTarget (current : ℕ) (first last : ℤ) (flags : AutoTable FlagRow) (i : ℕ) : ℤ :=
  if flagAt flags first i ≠ flagAt flags last i then flagAt flags last i
  else flagAt flags current i

theorem replayChange_value (first last : ℤ) (i : ℕ) :
    replayChange transId first last flags i = [(i, replayTarget transId first last flags i)] ∨
      replayChange transId first last flags i = [] ∧
        flagAt flags transId i = replayTarget transId first last flags i := by
  rw [replayChange, replayTarget]
  split_ifs with hne hold
  · exact .inl rfl
  · exact .inr ⟨rfl, (not_not.mp hold).symm⟩
  · exact .inr ⟨rfl, rfl⟩

end Appended

section Session

variable {rpm : Set RpmDb} {w : World} {s : Session}

/-- A session stands at the newest transaction. -/
theorem session_transId (hinv : Inv rpm w) (hs : w.session = some s) :
    s.ctx.transId = w.db.newest := by
  rcases hinv.history with hfresh | ⟨transactions, items, rpms, h, hctx⟩
  · rw [hfresh.newest, (hfresh.session s hs).2]
  · rw [h.newest_eq, (hctx s hs).transId]

/-- The database a call leaves behind. -/
def dbAfter (x : CtxProc Unit) (ctx : HistoryCtx) : Db := (finalState (x.run ctx)).db.view

variable (hinv : Inv rpm w) (hs : w.session = some s)

include hinv hs

theorem appendFlags_view (changes : HistoryFlagsDelta) :
    (s.ctx.appendFlags changes).db.view =
      addFlagRows (flagRows w.db.newest changes) w.db := by
  rw [← session_transId hinv hs]
  simp [HistoryCtx.appendFlags, hinv.session s hs]

/-- The flags after appended changes. -/
theorem dbGetAutoFlag_appended {names : AutoTable String} {flags : AutoTable FlagRow}
    (hnames : w.db.names = some names) (hflags : w.db.flagSet = some flags)
    {change : ℕ → HistoryFlagsDelta} (hown : ∀ i, ∀ p ∈ change i, p.1 = i) (t : ℤ)
    (name : String) :
    dbGetAutoFlag (s.ctx.appendFlags
        ((List.range' 1 names.lastKey).flatMap change)).db.view t name =
      .ok (flagOf names (flags.insertAll (flagRows w.db.newest
        ((List.range' 1 names.lastKey).flatMap change))) t name) := by
  rw [appendFlags_view hinv hs, dbGetAutoFlag_eq (hinv.flags.appended hnames hown)]
  simp [addFlagRows, hnames, hflags]

/-- `history_restore_auto_flags` makes every flag at the newest transaction what it was at
`t`, and changes no flag at an earlier transaction. -/
theorem restore_effect (t : ℤ) :
    ∃ ctx, (historyRestoreAutoFlags t).run s.ctx = .ok () ctx ∧
      (∀ name, dbGetAutoFlag ctx.db.view w.db.newest name = dbGetAutoFlag w.db t name) ∧
      ∀ x : ℤ, x < w.db.newest → ∀ name,
        dbGetAutoFlag ctx.db.view x name = dbGetAutoFlag w.db x name := by
  have hdb := hinv.session s hs
  cases hnames : w.db.names with
  | none =>
      refine ⟨s.ctx, (flagLoops_without_names (by simpa [hdb] using hnames) t 0 0).1, ?_, ?_⟩
      · intro name
        simp [hdb, dbGetAutoFlag_eq hinv.flags, hnames]
      · intro x _ name
        simp [hdb]
  | some names =>
      obtain ⟨flags, hflags⟩ := Option.isSome_iff_exists.mp
        (hinv.flags.tables.symm.trans (by rw [hnames]; rfl))
      refine ⟨_, historyRestoreAutoFlags_run (by simpa [hdb] using hnames)
        (by simpa [hdb] using hflags) t, ?_, ?_⟩
      · intro name
        rw [dbGetAutoFlag_appended hinv hs hnames hflags (restoreChange_own _ _ _),
          session_transId hinv hs,
          flagOf_changed (restoreChange_own _ _ _) (restoreChange_value t),
          dbGetAutoFlag_eq hinv.flags, hnames, hflags]
        rfl
      · intro x hx name
        rw [dbGetAutoFlag_appended hinv hs hnames hflags (restoreChange_own _ _ _),
          flagOf_earlier hx, dbGetAutoFlag_eq hinv.flags, hnames, hflags]
        rfl

/-- `history_replay_auto_flags` gives the flags that differ between `first` and `last` their
value at `last`, leaves the others, and changes no flag at an earlier transaction. -/
theorem replay_effect (first last : ℤ) :
    ∃ ctx, (historyReplayAutoFlags first last).run s.ctx = .ok () ctx ∧
      (∀ name, (dbGetAutoFlag w.db first name ≠ dbGetAutoFlag w.db last name →
          dbGetAutoFlag ctx.db.view w.db.newest name = dbGetAutoFlag w.db last name) ∧
        (dbGetAutoFlag w.db first name = dbGetAutoFlag w.db last name →
          dbGetAutoFlag ctx.db.view w.db.newest name = dbGetAutoFlag w.db w.db.newest name)) ∧
      ∀ x : ℤ, x < w.db.newest → ∀ name,
        dbGetAutoFlag ctx.db.view x name = dbGetAutoFlag w.db x name := by
  have hdb := hinv.session s hs
  cases hnames : w.db.names with
  | none =>
      refine ⟨s.ctx, (flagLoops_without_names (by simpa [hdb] using hnames) 0 first last).2,
        ?_, ?_⟩
      · intro name
        simp [hdb, dbGetAutoFlag_eq hinv.flags, hnames]
      · intro x _ name
        simp [hdb]
  | some names =>
      obtain ⟨flags, hflags⟩ := Option.isSome_iff_exists.mp
        (hinv.flags.tables.symm.trans (by rw [hnames]; rfl))
      refine ⟨_, historyReplayAutoFlags_run (by simpa [hdb] using hnames)
        (by simpa [hdb] using hflags) first last, ?_, ?_⟩
      · intro name
        rw [dbGetAutoFlag_appended hinv hs hnames hflags (replayChange_own _ _ _ _),
          session_transId hinv hs,
          flagOf_changed (replayChange_own _ _ _ _) (replayChange_value first last)]
        simp only [dbGetAutoFlag_eq hinv.flags, hnames, hflags, Option.getD_some, flagOf,
          replayTarget]
        cases names.keyOf name with
        | none => exact ⟨fun _ => rfl, fun _ => rfl⟩
        | some i =>
            refine ⟨fun hne => ?_, fun heq => ?_⟩
            · have hne' : flagAt flags first i ≠ flagAt flags last i := fun heq =>
                hne (congrArg Except.ok heq)
              simp only [if_pos hne']
            · have heq' : flagAt flags first i = flagAt flags last i := Except.ok.inj heq
              simp only [if_neg (not_not.mpr heq')]
      · intro x hx name
        rw [dbGetAutoFlag_appended hinv hs hnames hflags (replayChange_own _ _ _ _),
          flagOf_earlier hx, dbGetAutoFlag_eq hinv.flags, hnames, hflags]
        rfl

/-- `history_set_auto_flag` changes no flag at an earlier transaction, also where it stores
a new name. -/
theorem set_effect (name : String) (value : ℤ) {x : ℤ} (hx : x < w.db.newest) (other : String) :
    dbGetAutoFlag (dbAfter (historySetAutoFlag name value) s.ctx) x other =
      dbGetAutoFlag w.db x other := by
  have hdb := hinv.session s hs
  have hview : s.ctx.db.view = w.db := by rw [hdb, Conn.view_closed]
  have htrans := session_transId hinv hs
  rcases Nat.eq_zero_or_pos s.ctx.transId with hzero | hpos
  · rw [dbAfter, (autoFlags_unnumbered hzero name value).2, finalState, hview]
  · have hflags : FlagStore s.ctx.db.view := by rw [hview]; exact hinv.flags
    rw [dbAfter, historySetAutoFlag_run hflags hpos, finalState]
    split_ifs with hne
    · rw [HistoryCtx.setDb_db, Conn.view_write, hview,
        dbGetAutoFlag_eq (hinv.flags.setFlag _ _ _), dbGetAutoFlag_eq hinv.flags,
        flagOf_setFlag_earlier hinv.flags (by omega)]
    · rw [hview]

end Session

/-- For every context at the newest transaction: restoring makes every flag what it was at
`t`; replaying gives the flags that the range changes their last value and leaves the others;
and neither of them, nor setting a flag, is visible at an earlier transaction. -/
theorem auto_flags_effect {rpm : Set RpmDb} {w : World} {s : Session} (hrpm : RpmContract rpm)
    (h : Reachable rpm w) (hs : w.session = some s) (t first last : ℤ) :
    s.ctx.transId = w.db.newest ∧
    (∃ ctx, (historyRestoreAutoFlags t).run s.ctx = .ok () ctx ∧
      (∀ name, dbGetAutoFlag ctx.db.view w.db.newest name = dbGetAutoFlag w.db t name) ∧
      ∀ x : ℤ, x < w.db.newest → ∀ name,
        dbGetAutoFlag ctx.db.view x name = dbGetAutoFlag w.db x name) ∧
    (∃ ctx, (historyReplayAutoFlags first last).run s.ctx = .ok () ctx ∧
      (∀ name, (dbGetAutoFlag w.db first name ≠ dbGetAutoFlag w.db last name →
          dbGetAutoFlag ctx.db.view w.db.newest name = dbGetAutoFlag w.db last name) ∧
        (dbGetAutoFlag w.db first name = dbGetAutoFlag w.db last name →
          dbGetAutoFlag ctx.db.view w.db.newest name = dbGetAutoFlag w.db w.db.newest name)) ∧
      ∀ x : ℤ, x < w.db.newest → ∀ name,
        dbGetAutoFlag ctx.db.view x name = dbGetAutoFlag w.db x name) ∧
    ∀ name value, ∀ x : ℤ, x < w.db.newest → ∀ other,
      dbGetAutoFlag (dbAfter (historySetAutoFlag name value) s.ctx) x other =
        dbGetAutoFlag w.db x other := by
  have hinv := inv_of_reachable hrpm h
  exact ⟨session_transId hinv hs, restore_effect hinv hs t, replay_effect hinv hs first last,
    fun name value x hx other => set_effect hinv hs name value hx other⟩

theorem auto_flags_effect_firstSync :
    ∃ s ctx, (firstSync ⟨["a-1-1"], "c"⟩ 0).session = some s ∧
      (historyRestoreAutoFlags 1).run s.ctx = .ok () ctx ∧
      ∀ name, dbGetAutoFlag ctx.db.view (firstSync ⟨["a-1-1"], "c"⟩ 0).db.newest name =
        dbGetAutoFlag (firstSync ⟨["a-1-1"], "c"⟩ 0).db 1 name := by
  have h := auto_flags_effect (rpmContract_singleton (by decide))
    (reachable_firstSync (Set.mem_singleton (⟨["a-1-1"], "c"⟩ : RpmDb)) 0) rfl 1 1 1
  obtain ⟨-, ⟨ctx, hrun, hflags, -⟩, -⟩ := h
  exact ⟨_, ctx, rfl, hrun, hflags⟩

section Preview

variable (ctx : HistoryCtx)

/-- The rows of `flag_set`, oldest first. -/
def flagValues (db : Db) : List FlagRow := (db.flagSet.getD AutoTable.empty).values

theorem flagValues_appendFlags {flags : AutoTable FlagRow}
    (hflags : ctx.db.view.flagSet = some flags) (changes : HistoryFlagsDelta) :
    flagValues (ctx.appendFlags changes).db.view =
      flagValues ctx.db.view ++ flagRows ctx.transId changes := by
  rw [flagValues, ctx.appendFlags_flagSet changes hflags, flagValues, hflags]
  simp

/-- A loop whose body fails on its first read leaves the context alone. -/
theorem forM_failing {body : ℕ → CtxProc Unit} {ctx : HistoryCtx}
    (hbody : ∀ i, (body i).run ctx = .error .sqliteError ctx) (ids : List ℕ) :
    finalState ((ids.forM body).run ctx) = ctx := by
  cases ids with
  | nil => rfl
  | cons i rest =>
      have hcons : (i :: rest).forM body = body i >>= fun _ => rest.forM body := rfl
      rw [hcons, run_bind_error (hbody i), finalState]

theorem readFlag_missing_run {ctx : HistoryCtx} (hflags : ctx.db.view.flagSet = none)
    (transId : ℤ) (i : ℕ) :
    (readDb fun db => dbGetAutoFlagById db transId i).run ctx = .error .sqliteError ctx := by
  rw [readDb, run_get_bind, readFlag_missing hflags]
  rfl

/-- Without a flag table the preview of any name fails. -/
theorem flagsDelta_missing {db : Db} (hflags : db.flagSet = none) (current : ℕ)
    (first last : ℤ) (ids : List ℕ) :
    ((flagsDelta db current first last ids).toOption).getD [] = [] := by
  cases ids with
  | nil => rfl
  | cons i rest =>
      simp only [flagsDelta, readFlag_missing hflags]
      rfl

/-- The rows a replay appends are those its preview lists. -/
theorem replay_rows (first last : ℤ) :
    flagValues (dbAfter (historyReplayAutoFlags first last) ctx) = flagValues ctx.db.view ++
      flagRows ctx.transId ((historyGetFlagsDelta ctx first last).getD []) := by
  rw [historyGetFlagsDelta, dbGetFlagsDelta, dbAfter]
  cases hnames : ctx.db.view.names with
  | none =>
      rw [(flagLoops_without_names hnames 0 first last).2]
      simp [finalState]
  | some names =>
      cases hflags : ctx.db.view.flagSet with
      | some flags =>
          rw [historyReplayAutoFlags_run hnames hflags, finalState,
            flagValues_appendFlags ctx hflags]
          simp only [flagsDelta_eq hflags, Except.toOption, Option.getD_some]
      | none =>
          rw [historyReplayAutoFlags, run_get_bind, hnames]
          simp only [flagsDelta_missing hflags, flagRows_nil, List.append_nil]
          have hbody : ∀ i, (replayFlag first last i).run ctx = .error .sqliteError ctx :=
            fun i => run_bind_error (readFlag_missing_run hflags first i)
          rw [forM_failing hbody]

/-- Going back to `t` from the transaction of the context changes the flags that differ. -/
theorem replayChange_current (current : ℕ) (t : ℤ) (flags : AutoTable FlagRow) (i : ℕ) :
    replayChange current current t flags i = restoreChange current t flags i := by
  rw [replayChange, restoreChange]
  by_cases heq : flagAt flags t i = flagAt flags current i
  · simp [heq]
  · simp [heq, Ne.symm heq]

/-- The rows a restore appends are those the preview from the current transaction lists. -/
theorem restore_rows (t : ℤ) :
    flagValues (dbAfter (historyRestoreAutoFlags t) ctx) = flagValues ctx.db.view ++
      flagRows ctx.transId ((historyGetFlagsDelta ctx ctx.transId t).getD []) := by
  rw [historyGetFlagsDelta, dbGetFlagsDelta, dbAfter]
  cases hnames : ctx.db.view.names with
  | none =>
      rw [(flagLoops_without_names hnames t 0 0).1]
      simp [finalState]
  | some names =>
      cases hflags : ctx.db.view.flagSet with
      | some flags =>
          rw [historyRestoreAutoFlags_run hnames hflags, finalState,
            flagValues_appendFlags ctx hflags]
          simp only [flagsDelta_eq hflags, Except.toOption, Option.getD_some,
            funext (replayChange_current ctx.transId t flags)]
      | none =>
          rw [historyRestoreAutoFlags, run_get_bind, hnames]
          simp only [flagsDelta_missing hflags, flagRows_nil, List.append_nil]
          have hbody : ∀ i, (restoreFlag t i).run ctx = .error .sqliteError ctx :=
            fun i => run_bind_error (readFlag_missing_run hflags t i)
          rw [forM_failing hbody]

end Preview

end Tdnf.History
