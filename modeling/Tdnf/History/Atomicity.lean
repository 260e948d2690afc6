import Tdnf.History.Recording

/-!
# Atomic recording

A recording function is atomic for a choice of failing statements when it either
succeeds and everything it promises is on disk, or fails and the recorded
transactions and the context are what they were. Both functions look at almost
every return code. The two they do not look at, the INSERT step of the NEVRA
dictionary and the final COMMIT, are exactly where atomicity is lost.
-/

namespace Tdnf.History

open Relational Procedure

/-- The known packages on disk. -/
def HistoryCtx.rpmsOnDisk (ctx : HistoryCtx) : AutoTable String :=
  ctx.db.durable.rpms.getD AutoTable.empty

/-- `id` names a row of the dictionary. -/
def Known (t : AutoTable String) (id : ℕ) : Prop := ∃ nevra, (id, nevra) ∈ t.rows

/-- One more transaction with exactly these items is on disk, every item names a known
package and the context stands at the transaction. -/
structure Recorded (row : TransRow) (items : ℕ → List ItemRow) (ctx ctx' : HistoryCtx) :
    Prop where
  transaction : ctx'.db.durable.transactions =
    some ((ctx.db.durable.transactions.getD AutoTable.empty).insert row)
  transItems : ctx'.db.durable.transItems.getD AutoTable.empty =
    (ctx.db.durable.transItems.getD AutoTable.empty).insertAll (items ctx'.transId)
  known : ∀ item ∈ items ctx'.transId, Known ctx'.rpmsOnDisk item.rpmId
  transId : ctx'.transId = nextKey ctx.db.durable.transactions
  cookie : ctx'.cookie = row.cookie

/-- `history_update_state` recorded what changed, and the context lists the ids of the
packages rpm lists. -/
structure UpdateRecorded (rpmdb : RpmDb) (now : ℤ) (cmdline : Option String)
    (ctx ctx' : HistoryCtx) : Prop where
  recorded : Recorded ⟨some rpmdb.cookie, cmdline, now, .delta⟩
    (fun transId => diffRows transId (diffArrays ctx.installedIds ctx'.installedIds)) ctx ctx'
  installed : ∃ ids, ctx'.installedIds = sortArray ids ∧
    List.Forall₂ (fun id nevra => (id, nevra) ∈ ctx'.rpmsOnDisk.rows) ids rpmdb.nevras

/-- `history_record_state` recorded the ids of the context as a baseline. -/
structure BaseRecorded (now : ℤ) (ctx ctx' : HistoryCtx) : Prop where
  recorded : Recorded ⟨ctx.cookie, some "(set)", now, .base⟩
    (fun transId => itemRows transId .set ctx.installedIds) ctx ctx'
  installed : ctx'.installedIds = ctx.installedIds

/-- All or nothing for `history_update_state`. With an unchanged cookie there is nothing
to record and nothing may change. -/
def UpdateAtomic (fail : Faults) (rpmdb : RpmDb) (now : ℤ) (cmdline : Option String)
    (ctx : HistoryCtx) : Prop :=
  wp (historyUpdateState fail rpmdb now cmdline)
    (fun _ ctx' => (ctx.cookie = some rpmdb.cookie ∧ ctx' = ctx) ∨
      UpdateRecorded rpmdb now cmdline ctx ctx')
    (fun _ ctx' => Unrecorded ctx ctx') ctx

/-- All or nothing for `history_record_state`. -/
def RecordAtomic (fail : Faults) (now : ℤ) (ctx : HistoryCtx) : Prop :=
  wp (historyRecordState fail now) (fun _ ctx' => BaseRecorded now ctx ctx')
    (fun _ ctx' => Unrecorded ctx ctx') ctx

section Insertion

variable {α : Type}

theorem insert_ne_self (t : AutoTable α) (a : α) : t ≠ t.insert a := by
  intro h
  have hrows : t.rows.length = t.rows.length + 1 := by
    simpa using congrArg (fun t => t.rows.length) h
  omega

/-- A table does not already hold the row that is about to be appended. -/
theorem ne_some_insert (t : Option (AutoTable α)) (a : α) :
    t ≠ some ((t.getD AutoTable.empty).insert a) := by
  cases t with
  | none => simp
  | some t => exact fun h => insert_ne_self t a (Option.some.inj h)

end Insertion

theorem addItemRows_items (rows : List ItemRow) (db : Db)
    (h : db.transItems.isSome = true ∨ rows = []) :
    (addItemRows rows db).transItems.getD AutoTable.empty =
      (db.transItems.getD AutoTable.empty).insertAll rows := by
  obtain ⟨rpms, names, flagSet, transactions, transItems⟩ := db
  cases transItems with
  | some t => rfl
  | none =>
      rcases h with h | rfl
      · cases h
      · rfl

section Update

variable (fail : Faults) (rpmdb : RpmDb) (now : ℤ) (cmdline : Option String) (ctx : HistoryCtx)

/-- The update meets its promise: nothing changed, or a checked call fails, or every
unchecked one succeeds and the ids of the context name known packages. -/
def UpdateSafe : Prop :=
  ctx.cookie = some rpmdb.cookie ∨ updateStops fail rpmdb ctx = true ∨
    (fail .commit = false ∧ lostInsert fail 0 ctx.db.dictionary rpmdb.nevras = false ∧
      ∀ id ∈ ctx.installedIds, Known (rpmsPass fail rpmdb.nevras ctx.db).2 id)

variable {fail rpmdb now cmdline ctx}

theorem updatedCtx_durable (hcommit : fail .commit = false) :
    (updatedCtx fail rpmdb now cmdline ctx).db.durable =
      recordDelta (rpmsPass fail rpmdb.nevras ctx.db).2
        ⟨some rpmdb.cookie, cmdline, now, .delta⟩ (updateDiff fail rpmdb ctx)
        ctx.db.durable := by
  simp [updatedCtx, hcommit]

/-- The difference is recorded whole, also where the item table is missing and there is
nothing to record. -/
theorem items_recorded (hstops : updateStops fail rpmdb ctx = false) (transId : ℕ) :
    ctx.db.durable.transItems.isSome = true ∨
      diffRows transId (updateDiff fail rpmdb ctx) = [] := by
  simp only [updateStops, Bool.or_eq_false_iff] at hstops
  obtain ⟨⟨-, hadd⟩, hremove⟩ := hstops
  by_cases htable : ctx.db.durable.transItems.isSome = true
  · exact .inl htable
  · right
    simp only [itemRowsStop, Bool.not_eq_true _ ▸ htable, Bool.not_false, Bool.true_or,
      Bool.and_true, decide_eq_false_iff_not, not_lt, Nat.le_zero_eq,
      List.length_eq_zero_iff] at hadd hremove
    simp [diffRows, itemRows, hadd, hremove]

/-- Every id of a complete dictionary pass names a known package. -/
theorem pass_entries (hlost : lostInsert fail 0 ctx.db.dictionary rpmdb.nevras = false) :
    List.Forall₂ (fun id nevra => (id, nevra) ∈ (rpmsPass fail rpmdb.nevras ctx.db).2.rows)
      (dictPass fail 0 ctx.db.dictionary rpmdb.nevras).1 rpmdb.nevras := by
  have hpass := dictPass_spec fail rpmdb.nevras 0 ctx.db.dictionary
  exact entries_of_pos hpass.entries (by simp [hpass.lost, hlost])

theorem pass_known (hlost : lostInsert fail 0 ctx.db.dictionary rpmdb.nevras = false) {id : ℕ}
    (hid : id ∈ (rpmsPass fail rpmdb.nevras ctx.db).1) :
    Known (rpmsPass fail rpmdb.nevras ctx.db).2 id := by
  rw [rpmsPass, mem_sortArray] at hid
  obtain ⟨nevra, -, hrow⟩ := exists_entry (pass_entries hlost) hid
  exact ⟨nevra, hrow⟩

theorem mem_diffRows {transId : ℕ} {diff : List ℕ × List ℕ} {item : ItemRow}
    (h : item ∈ diffRows transId diff) : item.rpmId ∈ diff.2 ∨ item.rpmId ∈ diff.1 := by
  rcases List.mem_append.mp h with h | h
  · obtain ⟨id, hid, rfl⟩ := List.mem_map.mp h
    exact .inl hid
  · obtain ⟨id, hid, rfl⟩ := List.mem_map.mp h
    exact .inr hid

theorem updateRecorded_of_safe (hstops : updateStops fail rpmdb ctx = false)
    (hcommit : fail .commit = false)
    (hlost : lostInsert fail 0 ctx.db.dictionary rpmdb.nevras = false)
    (hknown : ∀ id ∈ ctx.installedIds, Known (rpmsPass fail rpmdb.nevras ctx.db).2 id) :
    UpdateRecorded rpmdb now cmdline ctx (updatedCtx fail rpmdb now cmdline ctx) := by
  have hdurable : (updatedCtx fail rpmdb now cmdline ctx).db.durable = _ :=
    updatedCtx_durable hcommit
  have hrpms : (updatedCtx fail rpmdb now cmdline ctx).rpmsOnDisk =
      (rpmsPass fail rpmdb.nevras ctx.db).2 := by
    rw [HistoryCtx.rpmsOnDisk, hdurable]
    rfl
  refine ⟨⟨?_, ?_, ?_, rfl, rfl⟩, ⟨_, rfl, ?_⟩⟩
  · have htable : ctx.db.durable.transactions.isSome = true := by
      simp only [updateStops, transStops, Bool.or_eq_false_iff, Bool.not_eq_false'] at hstops
      exact hstops.1.1.2.1.1
    obtain ⟨t, ht⟩ := Option.isSome_iff_exists.mp htable
    rw [hdurable, ht, Option.getD_some]
    simp [recordDelta, addItemRows, addTransactionRow, ht]
  · rw [hdurable]
    exact addItemRows_items _ _ (items_recorded hstops _)
  · intro item hitem
    rw [hrpms]
    rcases mem_diffRows hitem with hid | hid
    · exact pass_known hlost ((OrderedDiff.diff_sublist _ _).2.subset hid)
    · exact hknown _ ((OrderedDiff.diff_sublist _ _).1.subset hid)
  · rw [hrpms]
    exact pass_entries hlost

theorem safe_of_updateRecorded
    (h : UpdateRecorded rpmdb now cmdline ctx (updatedCtx fail rpmdb now cmdline ctx)) :
    fail .commit = false ∧ lostInsert fail 0 ctx.db.dictionary rpmdb.nevras = false ∧
      ∀ id ∈ ctx.installedIds, Known (rpmsPass fail rpmdb.nevras ctx.db).2 id := by
  have hcommit : fail .commit = false := by
    by_contra hfails
    have hsame : (updatedCtx fail rpmdb now cmdline ctx).db.durable.transactions =
        ctx.db.durable.transactions := by
      simp [updatedCtx, Bool.not_eq_false _ ▸ hfails]
    exact ne_some_insert _ _ (hsame.symm.trans h.recorded.transaction)
  have hrpms : (updatedCtx fail rpmdb now cmdline ctx).rpmsOnDisk =
      (rpmsPass fail rpmdb.nevras ctx.db).2 := by
    rw [HistoryCtx.rpmsOnDisk, updatedCtx_durable hcommit]
    rfl
  have hlost : lostInsert fail 0 ctx.db.dictionary rpmdb.nevras = false := by
    by_contra hlost
    -- the id that was not stored reads 0, which is no key
    have hzero := (dictPass_spec fail rpmdb.nevras 0 ctx.db.dictionary).lost.mpr
      (Bool.not_eq_false _ ▸ hlost)
    obtain ⟨ids, hids, hentries⟩ := h.installed
    have hmem : 0 ∈ ids := by
      rw [← mem_sortArray, ← hids]
      exact (mem_sortArray _ _).mpr hzero
    obtain ⟨nevra, -, hrow⟩ := exists_entry hentries hmem
    exact absurd (AutoTable.keys _ _ hrow).1 (lt_irrefl 0)
  refine ⟨hcommit, hlost, fun id hid => ?_⟩
  by_cases hlisted : id ∈ (rpmsPass fail rpmdb.nevras ctx.db).1
  · exact pass_known hlost hlisted
  · have hremoved := OrderedDiff.mem_diff_fst_of_notMem hid hlisted
    rw [← hrpms]
    exact h.recorded.known ⟨_, .remove, id⟩
      (List.mem_append_right _ (List.mem_map.mpr ⟨id, hremoved, rfl⟩))

/-- `history_update_state` is atomic exactly where its unchecked calls succeed. -/
theorem historyUpdateState_atomic_iff :
    UpdateAtomic fail rpmdb now cmdline ctx ↔ UpdateSafe fail rpmdb ctx := by
  have hwp := historyUpdateState_wp fail rpmdb now cmdline ctx
  constructor
  · intro hatomic
    by_cases hcookie : ctx.cookie = some rpmdb.cookie
    · exact .inl hcookie
    cases hstops : updateStops fail rpmdb ctx with
    | true => exact .inr (.inl hstops)
    | false =>
        simp only [hcookie, hstops, false_and, false_or, Bool.false_eq_true, and_false] at hwp
        obtain ⟨_, ctx', hrun, -, -, rfl⟩ := exists_ok hwp
        rcases wp_ok hatomic hrun with ⟨hsame, -⟩ | hrecorded
        · exact absurd hsame hcookie
        · exact .inr (.inr (safe_of_updateRecorded hrecorded))
  · intro hsafe
    refine wp_mono hwp ?_ fun _ _ h => h.2.2
    rintro _ ctx' (⟨hcookie, hsame⟩ | ⟨hcookie, hstops, rfl⟩)
    · exact .inl ⟨hcookie, hsame⟩
    · rcases hsafe with hsame | hfails | ⟨hcommit, hlost, hknown⟩
      · exact absurd hsame hcookie
      · rw [hstops] at hfails
        cases hfails
      · exact .inr (updateRecorded_of_safe hstops hcommit hlost hknown)

end Update

section Baseline

variable (fail : Faults) (ctx : HistoryCtx)

/-- The baseline meets its promise: a checked call fails, or COMMIT succeeds and the ids of
the context name known packages. -/
def RecordSafe : Prop :=
  recordStops fail ctx = true ∨
    (fail .commit = false ∧ ∀ id ∈ ctx.installedIds, Known ctx.rpmsOnDisk id)

variable {fail ctx} {now : ℤ}

theorem recordedCtx_durable (hcommit : fail .commit = false) :
    (recordedCtx fail now ctx).db.durable =
      recordBase ⟨ctx.cookie, some "(set)", now, .base⟩ ctx.installedIds ctx.db.durable := by
  simp [recordedCtx, hcommit]

theorem recordedCtx_rpmsOnDisk (hcommit : fail .commit = false) :
    (recordedCtx fail now ctx).rpmsOnDisk = ctx.rpmsOnDisk := by
  rw [HistoryCtx.rpmsOnDisk, recordedCtx_durable hcommit]
  rfl

theorem baseRecorded_of_safe (hcommit : fail .commit = false)
    (hknown : ∀ id ∈ ctx.installedIds, Known ctx.rpmsOnDisk id) :
    BaseRecorded now ctx (recordedCtx fail now ctx) := by
  have hdurable : (recordedCtx fail now ctx).db.durable = _ := recordedCtx_durable hcommit
  refine ⟨⟨?_, ?_, ?_, rfl, rfl⟩, rfl⟩
  · rw [hdurable]
    rfl
  · rw [hdurable]
    exact addItemRows_items _ _ (.inl rfl)
  · intro item hitem
    obtain ⟨id, hid, rfl⟩ := List.mem_map.mp hitem
    rw [recordedCtx_rpmsOnDisk hcommit]
    exact hknown id hid

theorem safe_of_baseRecorded (h : BaseRecorded now ctx (recordedCtx fail now ctx)) :
    fail .commit = false ∧ ∀ id ∈ ctx.installedIds, Known ctx.rpmsOnDisk id := by
  have hcommit : fail .commit = false := by
    by_contra hfails
    have hsame : (recordedCtx fail now ctx).db.durable.transactions =
        ctx.db.durable.transactions := by
      simp [recordedCtx, Bool.not_eq_false _ ▸ hfails]
    exact ne_some_insert _ _ (hsame.symm.trans h.recorded.transaction)
  refine ⟨hcommit, fun id hid => ?_⟩
  have hrpms : (recordedCtx fail now ctx).rpmsOnDisk = _ := recordedCtx_rpmsOnDisk hcommit
  rw [← hrpms]
  exact h.recorded.known ⟨_, .set, id⟩ (List.mem_map.mpr ⟨id, hid, rfl⟩)

/-- `history_record_state` is atomic exactly where its COMMIT succeeds on known packages. -/
theorem historyRecordState_atomic_iff : RecordAtomic fail now ctx ↔ RecordSafe fail ctx := by
  have hwp := historyRecordState_wp fail now ctx
  constructor
  · intro hatomic
    cases hstops : recordStops fail ctx with
    | true => exact .inl hstops
    | false =>
        simp only [hstops, Bool.false_eq_true, false_and] at hwp
        obtain ⟨_, ctx', hrun, -, rfl⟩ := exists_ok hwp
        exact .inr (safe_of_baseRecorded (wp_ok hatomic hrun))
  · intro hsafe
    refine wp_mono hwp ?_ fun _ _ h => h.2
    rintro _ ctx' ⟨hstops, rfl⟩
    rcases hsafe with hfails | ⟨hcommit, hknown⟩
    · rw [hstops] at hfails
      cases hfails
    · exact baseRecorded_of_safe hcommit hknown

end Baseline

/-- Exactly when the two recording functions are atomic. -/
theorem recording_atomic_iff (fail : Faults) (rpmdb : RpmDb) (now : ℤ)
    (cmdline : Option String) (ctx : HistoryCtx) :
    (UpdateAtomic fail rpmdb now cmdline ctx ↔ UpdateSafe fail rpmdb ctx) ∧
      (RecordAtomic fail now ctx ↔ RecordSafe fail ctx) :=
  ⟨historyUpdateState_atomic_iff, historyRecordState_atomic_iff⟩

/-- A new package whose INSERT step fails is recorded under the id 0, which names no row,
and the update reports success. -/
theorem update_not_atomic_lostInsert :
    ¬ UpdateAtomic (fun s => decide (s = .dictInsert 0 .step)) ⟨["a-1-1.x86_64"], "new"⟩ 0
      (some "install a")
      { db := ⟨⟨some .empty, none, none,
          some (AutoTable.empty.insert ⟨some "old", some "(set)", 0, .base⟩), some .empty⟩, none⟩
        installedIds := []
        cookie := some "old"
        transId := 1 } := by
  rw [historyUpdateState_atomic_iff]
  rintro (hcookie | hstops | ⟨-, hlost, -⟩)
  · revert hcookie
    decide
  · revert hstops
    decide
  · revert hlost
    decide

end Tdnf.History
