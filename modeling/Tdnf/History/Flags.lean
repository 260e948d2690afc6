import Tdnf.History.Recording
import Tdnf.Library.VersionLog

/-!
# Auto flags

Whether a package was installed automatically is kept per name in an append-only
log of rows. The value at a transaction is that of the newest row whose own
transaction is not later. Restoring and replaying append rows at the transaction
of the context while they read the same log.
-/

namespace Tdnf.History

open Relational Procedure VersionLog

/-- `db_get_auto_flag_byid` -/
def dbGetAutoFlagById (db : Db) (transId : ℤ) (nameId : ℕ) : Except Rc ℤ :=
  match db.flagSet with
  | none => .error .sqliteError
  | some flags =>
    match flags.rows.reverse.find? fun r => r.2.nameId = nameId && decide (r.2.transId ≤ transId)
    with
    | some r => .ok r.2.value
    | none => .ok 0

/-- `db_get_auto_flag` -/
def dbGetAutoFlag (db : Db) (transId : ℤ) (name : String) : Except Rc ℤ :=
  if db.flagSet.isNone then .ok 0
  else
    match db.names with
    | none => .ok 0
    | some names =>
      match names.keyOf name with
      | none => .ok 0
      | some nameId => dbGetAutoFlagById db transId nameId

/-- `db_set_auto_flag_byid` -/
def dbSetAutoFlagById (transId nameId : ℕ) (value : ℤ) : DbProc Unit := do
  prepareAndBind noStmtFault (← get).view.flagSet.isSome 3
  stepDone noStmtFault
  modify (Conn.write fun db =>
    { db with flagSet := insertInto db.flagSet ⟨transId, nameId, value⟩ })

/-- `db_set_auto_flag` -/
def dbSetAutoFlag (transId : ℕ) (name : String) (value : ℤ) : DbProc Unit := do
  execCreate false createNames
  let nameId ← dbGetDictEntry noStmtFault noStmtFault .names name true
  execCreate false createFlagSet
  dbSetAutoFlagById transId (nameId.getD 0) value

/-- A read in the middle of a procedure on the context. -/
def readDb {α : Type} (f : Db → Except Rc α) : CtxProc α := do
  match f (← get).db.view with
  | .ok a => pure a
  | .error rc => throw rc

/-- `history_get_auto_flag` -/
def historyGetAutoFlag (name : String) : CtxProc ℤ := do
  let transId := (← get).transId
  if transId = 0 then
    throw .checkFailed
  else
    readDb fun db => dbGetAutoFlag db transId name

/-- `history_set_auto_flag` -/
def historySetAutoFlag (name : String) (value : ℤ) : CtxProc Unit := do
  let transId := (← get).transId
  if transId = 0 then
    throw .checkFailed
  else do
    let oldval ← readDb fun db => dbGetAutoFlag db transId name
    -- setting only when needed avoids cluttering the db
    if oldval ≠ value then
      onDb (dbSetAutoFlag transId name value)
    else
      pure ()

/-- The body of the loop in `history_restore_auto_flags`. -/
def restoreFlag (transId : ℤ) (i : ℕ) : CtxProc Unit := do
  let value ← readDb fun db => dbGetAutoFlagById db transId i
  let current := (← get).transId
  let oldval ← readDb fun db => dbGetAutoFlagById db current i
  if value ≠ oldval then onDb (dbSetAutoFlagById current i value) else pure ()

/-- `history_restore_auto_flags` -/
def historyRestoreAutoFlags (transId : ℤ) : CtxProc Unit := do
  match (← get).db.view.names with
  | none => pure ()
  | some names => (List.range' 1 names.lastKey).forM (restoreFlag transId)

/-- The body of the loop in `history_replay_auto_flags`. -/
def replayFlag (first last : ℤ) (i : ℕ) : CtxProc Unit := do
  let valFrom ← readDb fun db => dbGetAutoFlagById db first i
  let valTo ← readDb fun db => dbGetAutoFlagById db last i
  if valFrom ≠ valTo then do
    let current := (← get).transId
    let oldval ← readDb fun db => dbGetAutoFlagById db current i
    if valTo ≠ oldval then onDb (dbSetAutoFlagById current i valTo) else pure ()
  else pure ()

/-- `history_replay_auto_flags`; the range is exclusive for `first`. -/
def historyReplayAutoFlags (first last : ℤ) : CtxProc Unit := do
  match (← get).db.view.names with
  | none => pure ()
  | some names => (List.range' 1 names.lastKey).forM (replayFlag first last)

/-- `struct history_flags_delta`: the ids in `changed_ids`, each with its entry of `values`. -/
abbrev HistoryFlagsDelta := List (ℕ × ℤ)

/-- The loop of `history_get_flags_delta` over the remaining name ids. -/
def flagsDelta (db : Db) (current first last : ℤ) : List ℕ → Except Rc HistoryFlagsDelta
  | [] => .ok []
  | i :: rest => do
    let valFrom ← dbGetAutoFlagById db first i
    let valTo ← dbGetAutoFlagById db last i
    if valFrom ≠ valTo then do
      let oldval ← dbGetAutoFlagById db current i
      if valTo ≠ oldval then do
        let changed ← flagsDelta db current first last rest
        .ok ((i, valTo) :: changed)
      else flagsDelta db current first last rest
    else flagsDelta db current first last rest

/-- `history_get_flags_delta` on a database for a context at `current`; `none` is NULL, which
also stands for a missing name table. -/
def dbGetFlagsDelta (db : Db) (current : ℕ) (first last : ℤ) : Option HistoryFlagsDelta :=
  match db.names with
  | none => none
  | some names => (flagsDelta db current first last (List.range' 1 names.lastKey)).toOption

/-- `history_get_flags_delta` -/
def historyGetFlagsDelta (ctx : HistoryCtx) (first last : ℤ) : Option HistoryFlagsDelta :=
  dbGetFlagsDelta ctx.db.view ctx.transId first last

section Log

/-- The flag rows as a versioned log. -/
def flagLog (flags : AutoTable FlagRow) : List (Record ℕ ℤ ℤ) :=
  flags.values.map fun row => ⟨row.transId, row.nameId, row.value⟩

/-- The value of the flag of a name at a transaction. -/
def flagAt (flags : AutoTable FlagRow) (transId : ℤ) (nameId : ℕ) : ℤ :=
  lookup 0 (flagLog flags) transId nameId

/-- The SELECT of `db_get_auto_flag_byid` is a lookup in the log. -/
theorem dbGetAutoFlagById_eq {db : Db} {flags : AutoTable FlagRow} (h : db.flagSet = some flags)
    (transId : ℤ) (nameId : ℕ) :
    dbGetAutoFlagById db transId nameId = .ok (flagAt flags transId nameId) := by
  have hlog : (flagLog flags).reverse =
      flags.rows.reverse.map fun r => ⟨r.2.transId, r.2.nameId, r.2.value⟩ := by
    simp [flagLog, AutoTable.values, Function.comp_def]
  rw [dbGetAutoFlagById, h, flagAt, lookup, hlog, List.find?_map]
  simp only [Function.comp_def, applies]
  cases flags.rows.reverse.find? fun r =>
      decide (r.2.nameId = nameId) && decide ((r.2.transId : ℤ) ≤ transId) with
  | none => rfl
  | some r => rfl

/-- The log after more rows at one transaction. -/
theorem flagLog_insertAll (flags : AutoTable FlagRow) (rows : List FlagRow) :
    flagLog (flags.insertAll rows) =
      flagLog flags ++ rows.map fun row => ⟨row.transId, row.nameId, row.value⟩ := by
  simp [flagLog]

/-- Rows of other names do not change a flag. -/
theorem flagAt_insertAll_of_nameId_ne {flags : AutoTable FlagRow} {rows : List FlagRow}
    {nameId : ℕ} (h : ∀ row ∈ rows, row.nameId ≠ nameId) (transId : ℤ) :
    flagAt (flags.insertAll rows) transId nameId = flagAt flags transId nameId := by
  rw [flagAt, flagLog_insertAll]
  exact lookup_append_of_key_ne 0 (by simpa using h)

/-- Rows of later transactions do not change a flag. -/
theorem flagAt_insertAll_of_transId_lt {flags : AutoTable FlagRow} {rows : List FlagRow}
    {transId : ℤ} (h : ∀ row ∈ rows, transId < row.transId) (nameId : ℕ) :
    flagAt (flags.insertAll rows) transId nameId = flagAt flags transId nameId := by
  rw [flagAt, flagLog_insertAll]
  exact lookup_append_of_version_lt 0 (by simpa using h)

end Log

/-- More rows in `flag_set`. -/
def addFlagRows (rows : List FlagRow) (db : Db) : Db :=
  { db with flagSet := db.flagSet.map fun t => t.insertAll rows }

@[simp] theorem addFlagRows_nil : addFlagRows [] = fun db => db := by
  funext db
  obtain ⟨rpms, names, flagSet, transactions, transItems⟩ := db
  cases flagSet <;> rfl

theorem addFlagRows_append (rows₁ rows₂ : List FlagRow) (db : Db) :
    addFlagRows rows₂ (addFlagRows rows₁ db) = addFlagRows (rows₁ ++ rows₂) db := by
  obtain ⟨rpms, names, flagSet, transactions, transItems⟩ := db
  cases flagSet with
  | none => rfl
  | some t => simp [addFlagRows, AutoTable.insertAll_append]

/-- The rows that give each listed name its value at `transId`. -/
def flagRows (transId : ℕ) (changes : HistoryFlagsDelta) : List FlagRow :=
  changes.map fun change => ⟨transId, change.1, change.2⟩

@[simp] theorem flagRows_nil (transId : ℕ) : flagRows transId [] = [] := rfl

theorem flagRows_append (transId : ℕ) (changes more : HistoryFlagsDelta) :
    flagRows transId (changes ++ more) = flagRows transId changes ++ flagRows transId more :=
  List.map_append

/-- The context after appending changes at its own transaction. -/
def HistoryCtx.appendFlags (ctx : HistoryCtx) (changes : HistoryFlagsDelta) : HistoryCtx :=
  ctx.setDb (ctx.db.write (addFlagRows (flagRows ctx.transId changes)))

section AppendFlags

variable (ctx : HistoryCtx) (changes more : HistoryFlagsDelta)

@[simp] theorem HistoryCtx.appendFlags_nil : ctx.appendFlags [] = ctx := by
  rw [appendFlags, flagRows_nil, addFlagRows_nil, Conn.write_id]
  rfl

@[simp] theorem HistoryCtx.appendFlags_transId :
    (ctx.appendFlags changes).transId = ctx.transId := rfl

theorem HistoryCtx.appendFlags_append :
    (ctx.appendFlags changes).appendFlags more = ctx.appendFlags (changes ++ more) := by
  simp only [appendFlags, setDb_db, setDb_transId, setDb_setDb, Conn.write_write,
    flagRows_append, addFlagRows_append]

theorem HistoryCtx.appendFlags_flagSet {flags : AutoTable FlagRow}
    (h : ctx.db.view.flagSet = some flags) :
    (ctx.appendFlags changes).db.view.flagSet =
      some (flags.insertAll (flagRows ctx.transId changes)) := by
  simp [appendFlags, addFlagRows, h]

end AppendFlags

section Loops

variable {ctx : HistoryCtx} {flags : AutoTable FlagRow}

theorem readDb_run {α : Type} {f : Db → Except Rc α} {a : α} (h : f ctx.db.view = .ok a) :
    (readDb f).run ctx = .ok a ctx := by
  rw [readDb, run_get_bind, h]
  rfl

theorem readFlag_run (h : ctx.db.view.flagSet = some flags) (transId : ℤ) (i : ℕ) :
    (readDb fun db => dbGetAutoFlagById db transId i).run ctx =
      .ok (flagAt flags transId i) ctx :=
  readDb_run (dbGetAutoFlagById_eq h transId i)

theorem setFlag_run (h : ctx.db.view.flagSet = some flags) (i : ℕ) (value : ℤ) :
    (onDb (dbSetAutoFlagById ctx.transId i value)).run ctx =
      .ok () (ctx.appendFlags [(i, value)]) := by
  have hset : (dbSetAutoFlagById ctx.transId i value).run ctx.db =
      .ok () (ctx.db.write (addFlagRows [⟨ctx.transId, i, value⟩])) := by
    rw [dbSetAutoFlagById, run_get_bind, h,
      Option.isSome_some]
    rfl
  exact onDb_run_ok hset

/-- What restoring does to one name. -/
def restoreChange (current : ℕ) (transId : ℤ) (flags : AutoTable FlagRow) (i : ℕ) :
    HistoryFlagsDelta :=
  if flagAt flags transId i ≠ flagAt flags current i then [(i, flagAt flags transId i)] else []

/-- What replaying does to one name. -/
def replayChange (current : ℕ) (first last : ℤ) (flags : AutoTable FlagRow) (i : ℕ) :
    HistoryFlagsDelta :=
  if flagAt flags first i ≠ flagAt flags last i then
    if flagAt flags last i ≠ flagAt flags current i then [(i, flagAt flags last i)] else []
  else []

theorem restoreFlag_run (h : ctx.db.view.flagSet = some flags) (transId : ℤ) (i : ℕ) :
    (restoreFlag transId i).run ctx =
      .ok () (ctx.appendFlags (restoreChange ctx.transId transId flags i)) := by
  rw [restoreFlag, run_bind_ok (readFlag_run h transId i),
    run_get_bind,
    run_bind_ok (readFlag_run h ctx.transId i), restoreChange]
  split_ifs with hne
  · exact setFlag_run h i _
  · rw [HistoryCtx.appendFlags_nil]
    rfl

theorem replayFlag_run (h : ctx.db.view.flagSet = some flags) (first last : ℤ) (i : ℕ) :
    (replayFlag first last i).run ctx =
      .ok () (ctx.appendFlags (replayChange ctx.transId first last flags i)) := by
  rw [replayFlag, run_bind_ok (readFlag_run h first i), run_bind_ok (readFlag_run h last i),
    replayChange]
  split_ifs with hne hold
  · rw [run_get_bind,
      run_bind_ok (readFlag_run h ctx.transId i), if_pos hold]
    exact setFlag_run h i _
  · rw [run_get_bind,
      run_bind_ok (readFlag_run h ctx.transId i), if_neg hold, HistoryCtx.appendFlags_nil]
    rfl
  · rw [HistoryCtx.appendFlags_nil]
    rfl

/-- A loop over distinct names whose body appends changes of its own name only and looks at
no other name appends the changes computed before the loop. -/
theorem forM_appendFlags {body : ℕ → CtxProc Unit} {transId : ℕ}
    (change : AutoTable FlagRow → ℕ → HistoryFlagsDelta)
    (hbody : ∀ ctx flags i, ctx.transId = transId → ctx.db.view.flagSet = some flags →
      (body i).run ctx = .ok () (ctx.appendFlags (change flags i)))
    (hown : ∀ flags i, ∀ p ∈ change flags i, p.1 = i)
    (hframe : ∀ flags rows i, (∀ row ∈ rows, row.nameId ≠ i) →
      change (AutoTable.insertAll flags rows) i = change flags i)
    {ids : List ℕ} (hids : ids.Nodup) {ctx : HistoryCtx} {flags : AutoTable FlagRow}
    (htrans : ctx.transId = transId) (hflags : ctx.db.view.flagSet = some flags) :
    (ids.forM body).run ctx = .ok () (ctx.appendFlags (ids.flatMap (change flags))) := by
  induction ids generalizing ctx flags with
  | nil =>
      rw [List.flatMap_nil, HistoryCtx.appendFlags_nil]
      rfl
  | cons i rest ih =>
      obtain ⟨hnew, hrest⟩ := List.nodup_cons.mp hids
      have hflags' := ctx.appendFlags_flagSet (change flags i) hflags
      have hcons : (i :: rest).forM body = body i >>= fun _ => rest.forM body := rfl
      rw [hcons, run_bind_ok (hbody ctx flags i htrans hflags),
        ih hrest (by simpa using htrans) hflags', HistoryCtx.appendFlags_append,
        List.flatMap_cons]
      congr 3
      refine List.flatMap_congr fun j hj => hframe _ _ _ fun row hrow => ?_
      obtain ⟨p, hp, rfl⟩ := List.mem_map.mp hrow
      have hi : p.1 = i := hown flags i p hp
      exact fun hij => hnew ((hi.symm.trans hij) ▸ hj)

theorem restoreChange_own (current : ℕ) (transId : ℤ) (flags : AutoTable FlagRow) (i : ℕ) :
    ∀ p ∈ restoreChange current transId flags i, p.1 = i := by
  rw [restoreChange]
  split_ifs <;> simp

theorem replayChange_own (current : ℕ) (first last : ℤ) (flags : AutoTable FlagRow) (i : ℕ) :
    ∀ p ∈ replayChange current first last flags i, p.1 = i := by
  rw [replayChange]
  split_ifs <;> simp

/-- `history_restore_auto_flags` appends the changes computed before its loop. -/
theorem historyRestoreAutoFlags_run {names : AutoTable String}
    (hnames : ctx.db.view.names = some names) (hflags : ctx.db.view.flagSet = some flags)
    (transId : ℤ) :
    (historyRestoreAutoFlags transId).run ctx = .ok () (ctx.appendFlags
      ((List.range' 1 names.lastKey).flatMap (restoreChange ctx.transId transId flags))) := by
  rw [historyRestoreAutoFlags, run_get_bind, hnames]
  refine forM_appendFlags (restoreChange ctx.transId transId) ?_
    (restoreChange_own _ _) ?_ List.nodup_range' rfl hflags
  · intro ctx' flags' i htrans hflags'
    rw [← htrans]
    exact restoreFlag_run hflags' transId i
  · intro flags' rows i hrows
    simp only [restoreChange, flagAt_insertAll_of_nameId_ne hrows]

/-- `history_replay_auto_flags` appends the changes computed before its loop. -/
theorem historyReplayAutoFlags_run {names : AutoTable String}
    (hnames : ctx.db.view.names = some names) (hflags : ctx.db.view.flagSet = some flags)
    (first last : ℤ) :
    (historyReplayAutoFlags first last).run ctx = .ok () (ctx.appendFlags
      ((List.range' 1 names.lastKey).flatMap (replayChange ctx.transId first last flags))) := by
  rw [historyReplayAutoFlags, run_get_bind, hnames]
  refine forM_appendFlags (replayChange ctx.transId first last) ?_
    (replayChange_own _ _ _) ?_ List.nodup_range' rfl hflags
  · intro ctx' flags' i htrans hflags'
    rw [← htrans]
    exact replayFlag_run hflags' first last i
  · intro flags' rows i hrows
    simp only [replayChange, flagAt_insertAll_of_nameId_ne hrows]

/-- The preview loop lists the changes of a replay. -/
theorem flagsDelta_eq {db : Db} (hflags : db.flagSet = some flags) (current : ℕ)
    (first last : ℤ) (ids : List ℕ) :
    flagsDelta db current first last ids =
      .ok (ids.flatMap (replayChange current first last flags)) := by
  induction ids with
  | nil => rfl
  | cons i rest ih =>
      simp only [flagsDelta, dbGetAutoFlagById_eq hflags, ih, List.flatMap_cons, replayChange,
        bind, Except.bind]
      split_ifs <;> rfl

/-- A missing flag table stops a loop at its first name. -/
theorem readFlag_missing {db : Db} (hflags : db.flagSet = none) (transId : ℤ) (i : ℕ) :
    dbGetAutoFlagById db transId i = .error .sqliteError := by
  rw [dbGetAutoFlagById, hflags]

end Loops

section Effect

variable {flags : AutoTable FlagRow} {transId : ℕ} {change : ℕ → HistoryFlagsDelta}

/-- What the appended changes make of the flag of one name at their transaction. -/
theorem flagAt_changed (hown : ∀ i, ∀ p ∈ change i, p.1 = i) {ids : List ℕ} (hids : ids.Nodup)
    {nameId : ℕ} (hmem : nameId ∈ ids) {value : ℤ}
    (hvalue : change nameId = [(nameId, value)] ∨
      change nameId = [] ∧ flagAt flags transId nameId = value) :
    flagAt (flags.insertAll (flagRows transId (ids.flatMap change))) transId nameId = value := by
  obtain ⟨before, after, rfl⟩ := List.append_of_mem hmem
  have hsplit := List.nodup_middle.mp hids
  obtain ⟨hnew, -⟩ := List.nodup_cons.mp hsplit
  -- the changes of all other names are written under other ids
  have hother : ∀ js : List ℕ, (∀ j ∈ js, j ≠ nameId) →
      ∀ row ∈ flagRows transId (js.flatMap change), row.nameId ≠ nameId := by
    intro js hjs row hrow
    obtain ⟨p, hp, rfl⟩ := List.mem_map.mp hrow
    obtain ⟨j, hj, hpj⟩ := List.mem_flatMap.mp hp
    have hj' : p.1 = j := hown j p hpj
    exact hj' ▸ hjs j hj
  have hbefore : ∀ j ∈ before, j ≠ nameId := fun j hj h =>
    hnew (List.mem_append_left _ (h ▸ hj))
  have hafter : ∀ j ∈ after, j ≠ nameId := fun j hj h =>
    hnew (List.mem_append_right _ (h ▸ hj))
  rw [List.flatMap_append, List.flatMap_cons, flagRows_append, flagRows_append,
    AutoTable.insertAll_append, AutoTable.insertAll_append,
    flagAt_insertAll_of_nameId_ne (hother after hafter)]
  rcases hvalue with hchange | ⟨hchange, hsame⟩
  · rw [hchange, flagAt, flagLog_insertAll]
    exact (lookup_concat 0 _ _ _ _).trans (if_pos ⟨rfl, le_rfl⟩)
  · rw [hchange, flagRows_nil, AutoTable.insertAll_nil,
      flagAt_insertAll_of_nameId_ne (hother before hbefore)]
    exact hsame

/-- The appended rows refer to names of the loop. -/
theorem nameId_mem_of_changed (hown : ∀ i, ∀ p ∈ change i, p.1 = i) {ids : List ℕ}
    {row : FlagRow} (hrow : row ∈ flagRows transId (ids.flatMap change)) : row.nameId ∈ ids := by
  obtain ⟨p, hp, rfl⟩ := List.mem_map.mp hrow
  obtain ⟨i, hi, hpi⟩ := List.mem_flatMap.mp hp
  have hname : p.1 = i := hown i p hpi
  exact hname ▸ hi

/-- No earlier transaction sees the appended changes. -/
theorem flagAt_earlier {s : ℤ} (hs : s < transId) (changes : HistoryFlagsDelta) (nameId : ℕ) :
    flagAt (flags.insertAll (flagRows transId changes)) s nameId = flagAt flags s nameId := by
  refine flagAt_insertAll_of_transId_lt (fun row hrow => ?_) nameId
  obtain ⟨p, -, rfl⟩ := List.mem_map.mp hrow
  exact hs

end Effect

/-- The two flag tables belong together: both exist or none, and every row refers to a
name that was stored before it. -/
structure FlagStore (db : Db) : Prop where
  tables : db.names.isSome = db.flagSet.isSome
  named : ∀ row ∈ (db.flagSet.getD AutoTable.empty).values,
    row.nameId ≤ (db.names.getD AutoTable.empty).seq

/-- The flag of a name by its dictionary entry. -/
def flagOf (names : AutoTable String) (flags : AutoTable FlagRow) (transId : ℤ)
    (name : String) : ℤ :=
  match names.keyOf name with
  | none => 0
  | some nameId => flagAt flags transId nameId

section Store

variable {db : Db} {transId : ℤ}

@[simp] theorem flagOf_empty (flags : AutoTable FlagRow) (transId : ℤ) (name : String) :
    flagOf AutoTable.empty flags transId name = 0 := rfl

theorem dbGetAutoFlag_eq (h : FlagStore db) (transId : ℤ) (name : String) :
    dbGetAutoFlag db transId name =
      .ok (flagOf (db.names.getD AutoTable.empty) (db.flagSet.getD AutoTable.empty) transId
        name) := by
  rw [dbGetAutoFlag]
  cases hflags : db.flagSet with
  | none =>
      have hnames : db.names = none := by simpa [hflags] using h.tables
      simp [hnames]
  | some flags =>
      obtain ⟨names, hnames⟩ := Option.isSome_iff_exists.mp (h.tables.trans (by simp [hflags]))
      simp only [hnames, Option.isNone_some, Bool.false_eq_true, if_false, Option.getD_some,
        flagOf]
      cases names.keyOf name with
      | none => rfl
      | some nameId => exact dbGetAutoFlagById_eq hflags transId nameId

/-- The id of a name and the dictionary after `db_get_dict_entry` with `create`. -/
def internName (names : AutoTable String) (name : String) : ℕ × AutoTable String :=
  match names.keyOf name with
  | some nameId => (nameId, names)
  | none => (names.seq + 1, names.insert name)

theorem prepareAndBind_noFault {tableExists : Bool} (h : tableExists = true) (binds : ℕ)
    (c : Conn) : (prepareAndBind noStmtFault tableExists binds).run c = .ok () c := by
  rw [h, prepareAndBind_run, stmtStops_noStmtFault, if_neg Bool.false_ne_true]

/-- The name dictionary without failing statements. -/
theorem dbGetDictEntry_names_run (name : String) {c : Conn} {names : AutoTable String}
    (h : c.view.names = some names) :
    (dbGetDictEntry noStmtFault noStmtFault .names name true).run c =
      .ok (some (internName names name).1)
        (c.write fun db => { db with names := some (internName names name).2 }) := by
  have hdict : c.view.dict .names = some names := h
  have hsame : c.write (fun db => { db with names := some names }) = c := by
    obtain ⟨durable, pending⟩ := c
    cases pending with
    | none => simp only [Conn.view_closed] at h; simp [← h]
    | some w => simp only [Conn.view_open] at h; simp [← h]
  rw [dbGetDictEntry, run_get_bind, run_bind_ok (prepareAndBind_noFault (by simp [hdict]) 1 c),
    hdict, internName]
  simp only [noStmtFault_apply, Bool.false_eq_true, if_false, Option.bind_some, if_true]
  cases names.keyOf name with
  | some nameId =>
      rw [hsame]
      rfl
  | none =>
      have hwrite : (c.write fun db => db.setDict (insertInto (db.dict .names) name) .names) =
          c.write fun db => { db with names := some (names.insert name) } := by
        obtain ⟨durable, pending⟩ := c
        cases pending with
        | none => simp only [Conn.view_closed] at h; simp [Db.setDict, Db.dict, h]
        | some w => simp only [Conn.view_open] at h; simp [Db.setDict, Db.dict, h]
      simp only [Option.isSome_some]
      rw [run_bind_ok (prepareAndBind_noFault rfl 1 c), ← hwrite]
      rfl

/-- The flag tables after `db_set_auto_flag`. -/
def setFlag (transId : ℕ) (name : String) (value : ℤ) (db : Db) : Db :=
  let interned := internName (db.names.getD AutoTable.empty) name
  { db with
    names := some interned.2
    flagSet := some ((db.flagSet.getD AutoTable.empty).insert ⟨transId, interned.1, value⟩) }

theorem dbSetAutoFlag_run (transId : ℕ) (name : String) (value : ℤ) (c : Conn) :
    (dbSetAutoFlag transId name value).run c = .ok () (c.write (setFlag transId name value)) := by
  have hcreate : (execCreate false createNames).run c = .ok () (c.write createNames) := rfl
  have hnames : (c.write createNames).view.names = some (c.view.names.getD AutoTable.empty) := by
    simp [createNames, createIfMissing]
  rw [dbSetAutoFlag, run_bind_ok hcreate, run_bind_ok (dbGetDictEntry_names_run name hnames)]
  simp only [Conn.write_write, Option.getD_some]
  obtain ⟨durable, pending⟩ := c
  cases pending with
  | none => rfl
  | some w => rfl

theorem internName_le (names : AutoTable String) (name : String) :
    (internName names name).1 ≤ (internName names name).2.seq := by
  rw [internName]
  cases h : names.keyOf name with
  | some nameId => exact (AutoTable.keyOf_le_lastKey h).2.trans names.lastKey_le_seq
  | none => simp

theorem le_internName_seq (names : AutoTable String) (name : String) :
    names.seq ≤ (internName names name).2.seq := by
  rw [internName]
  cases names.keyOf name with
  | some nameId => exact le_rfl
  | none => simp

/-- Setting a flag keeps the tables together. -/
theorem FlagStore.setFlag (h : FlagStore db) (transId : ℕ) (name : String) (value : ℤ) :
    FlagStore (setFlag transId name value db) := by
  refine ⟨rfl, fun row hrow => ?_⟩
  simp only [History.setFlag, Option.getD_some, AutoTable.values_insert, List.mem_append,
    List.mem_singleton] at hrow ⊢
  rcases hrow with hrow | rfl
  · exact (h.named row hrow).trans (le_internName_seq _ _)
  · exact internName_le _ _

/-- Without rows for an id its flag is unset. -/
theorem flagAt_of_unnamed {flags : AutoTable FlagRow} {nameId : ℕ}
    (h : ∀ row ∈ flags.values, row.nameId ≠ nameId) (transId : ℤ) :
    flagAt flags transId nameId = 0 := by
  have hnil : lookup 0 ([] ++ flagLog flags) transId nameId = lookup 0 [] transId nameId :=
    lookup_append_of_key_ne 0 (by simpa [flagLog] using h)
  simpa [flagAt] using hnil

/-- Setting a flag at `transId` is invisible at earlier transactions, also for a name that
was not stored before. -/
theorem flagOf_setFlag_earlier (h : FlagStore db) {transId : ℕ} {s : ℤ} (hs : s < transId)
    (name other : String) (value : ℤ) :
    flagOf ((setFlag transId name value db).names.getD AutoTable.empty)
        ((setFlag transId name value db).flagSet.getD AutoTable.empty) s other =
      flagOf (db.names.getD AutoTable.empty) (db.flagSet.getD AutoTable.empty) s other := by
  simp only [setFlag, Option.getD_some]
  generalize hnames : db.names.getD AutoTable.empty = names
  generalize hflags : db.flagSet.getD AutoTable.empty = flags
  have hframe : ∀ row nameId, row.transId = transId →
      flagAt (flags.insert row) s nameId = flagAt flags s nameId := by
    intro row nameId hrow
    have hlater : ∀ r ∈ [row], s < r.transId := by simpa [hrow] using hs
    exact flagAt_insertAll_of_transId_lt hlater nameId
  rw [internName]
  cases hkey : names.keyOf name with
  | some nameId =>
      simp only [flagOf]
      cases names.keyOf other with
      | none => rfl
      | some i => exact hframe _ i rfl
  | none =>
      simp only [flagOf, AutoTable.keyOf_insert]
      cases names.keyOf other with
      | some i => exact hframe _ i rfl
      | none =>
          by_cases hsame : name = other
          · simp only [hsame, if_true, Option.none_or]
            rw [hframe _ _ rfl]
            refine flagAt_of_unnamed (fun row hrow => ?_) s
            have hle := h.named row (hflags ▸ hrow)
            rw [hnames] at hle
            omega
          · simp [hsame]

/-- Rows for stored names keep the tables together. -/
theorem FlagStore.addFlagRows (h : FlagStore db) {rows : List FlagRow}
    (hrows : ∀ row ∈ rows, row.nameId ≤ (db.names.getD AutoTable.empty).seq) :
    FlagStore (addFlagRows rows db) := by
  refine ⟨by simpa [History.addFlagRows] using h.tables, fun row hrow => ?_⟩
  obtain ⟨rpms, names, flagSet, transactions, transItems⟩ := db
  cases flagSet with
  | none => cases hrow
  | some flags =>
      simp only [History.addFlagRows, Option.map_some, Option.getD_some,
        AutoTable.values_insertAll, List.mem_append] at hrow
      exact hrow.elim (fun hrow => h.named row hrow) (hrows row)

/-- A loop over all name ids keeps the tables together. -/
theorem FlagStore.appended (h : FlagStore db) {names : AutoTable String}
    (hnames : db.names = some names) {transId : ℕ} {change : ℕ → HistoryFlagsDelta}
    (hown : ∀ i, ∀ p ∈ change i, p.1 = i) :
    FlagStore (History.addFlagRows
      (flagRows transId ((List.range' 1 names.lastKey).flatMap change)) db) := by
  apply h.addFlagRows
  intro row hrow
  have hid := List.mem_range'_1.mp (nameId_mem_of_changed hown hrow)
  have hle := names.lastKey_le_seq
  rw [hnames, Option.getD_some]
  omega

end Store

theorem historyGetAutoFlag_run {ctx : HistoryCtx} (h : FlagStore ctx.db.view)
    (htrans : 0 < ctx.transId) (name : String) :
    (historyGetAutoFlag name).run ctx =
      .ok (flagOf (ctx.db.view.names.getD AutoTable.empty)
        (ctx.db.view.flagSet.getD AutoTable.empty) ctx.transId name) ctx := by
  rw [historyGetAutoFlag, run_get_bind, if_neg (Nat.pos_iff_ne_zero.mp htrans)]
  exact readDb_run (dbGetAutoFlag_eq h ctx.transId name)

/-- `history_set_auto_flag` on tables that belong together. -/
theorem historySetAutoFlag_run {ctx : HistoryCtx} (h : FlagStore ctx.db.view)
    (htrans : 0 < ctx.transId) (name : String) (value : ℤ) :
    (historySetAutoFlag name value).run ctx =
      .ok () (if flagOf (ctx.db.view.names.getD AutoTable.empty)
          (ctx.db.view.flagSet.getD AutoTable.empty) ctx.transId name ≠ value
        then ctx.setDb (ctx.db.write (setFlag ctx.transId name value)) else ctx) := by
  rw [historySetAutoFlag, run_get_bind, if_neg (Nat.pos_iff_ne_zero.mp htrans),
    run_bind_ok (readDb_run (dbGetAutoFlag_eq h ctx.transId name))]
  split_ifs with hne
  · exact onDb_run_ok (dbSetAutoFlag_run ctx.transId name value ctx.db)
  · rfl

end Tdnf.History
