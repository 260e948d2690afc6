import Tdnf.History.Deltas
import Mathlib.Data.Finset.Card

/-!
# Packages that are listed more than once

rpm may list a package several times. The difference that a transaction records
counts the listings, while the package sets it stands for do not, and reading a
transaction makes room for each known package once. Both agree as long as a
package that stays installed is listed as often as before, and no more new or
gone listings are recorded than packages are known.
-/

namespace Tdnf.History

open Relational Procedure

/-- `struct history_transaction` -/
structure HistoryTransaction where
  id : ℕ
  cookie : Option String
  cmdline : Option String
  timestamp : ℤ
  type : TransType
  delta : HistoryDelta
deriving DecidableEq, Repr

/-- `db_rpms_count` -/
def dbRpmsCount (db : Db) : Except Rc ℕ :=
  match db.rpms with
  | none => .error .sqliteError
  | some rpms => .ok rpms.rows.length

/-- The body of the loop in `history_delta_read`. -/
def readItem (maxCount : ℕ) (hd : HistoryDelta) (item : ItemRow) : Except Rc HistoryDelta :=
  if item.type = .remove then
    if hd.removedIds.length < maxCount then
      .ok { hd with removedIds := hd.removedIds ++ [item.rpmId] }
    else .error .checkFailed
  else
    if hd.addedIds.length < maxCount then
      .ok { hd with addedIds := hd.addedIds ++ [item.rpmId] }
    else .error .checkFailed

/-- `history_delta_read` -/
def historyDeltaRead (db : Db) (transId : ℕ) : Except Rc HistoryDelta := do
  let maxCount ← dbRpmsCount db
  let items ← selectItems db transId
  items.foldlM (readItem maxCount) ⟨[], []⟩

/-- The rows `history_get_transactions` walks through and the size of its array. -/
def selectTransactions (transactions : AutoTable TransRow) (first last : ℤ) :
    Except Rc (List (ℕ × TransRow) × ℤ) :=
  if first = 0 ∨ last = 0 then
    match transactions.rows.getLast? with
    | none => .error .checkFailed
    | some newest => .ok (transactions.rows, newest.1)
  else
    .ok (transactions.rows.filter fun r => first ≤ r.1 ∧ r.1 ≤ last, last - first + 1)

/-- One entry of the array with its items. -/
def readTransaction (db : Db) (r : ℕ × TransRow) : Except Rc HistoryTransaction := do
  let delta ← historyDeltaRead db r.1
  pure ⟨r.1, r.2.cookie, r.2.cmdline, r.2.timestamp, r.2.type, delta⟩

/-- `history_get_transactions`; `first` and `last` are the source's `from` and `to`. -/
def historyGetTransactions (ctx : HistoryCtx) (reverse : Bool) (first last : ℤ) :
    Except Rc (List HistoryTransaction) :=
  if ¬ first ≤ last then .error .checkFailed
  else
    match ctx.db.view.transactions with
    | none => .error .sqliteError
    | some transactions => do
      let selected ← selectTransactions transactions first last
      -- each row is checked against the size of the array
      if selected.2 < selected.1.length then .error .checkFailed
      else
        (if reverse then selected.1.reverse else selected.1).mapM (readTransaction ctx.db.view)

/-- The ranges the header names: either both ends are given or both are 0. -/
def ValidRange (first last : ℤ) : Prop :=
  (first = 0 ∧ last = 0) ∨ (0 < first ∧ first ≤ last)

/-- How many items a transaction adds or sets, and how many it removes. -/
def addedCount (db : Db) (transId : ℕ) : ℕ :=
  (itemsOf db transId).countP fun item => item.type ≠ .remove

def removedCount (db : Db) (transId : ℕ) : ℕ :=
  (itemsOf db transId).countP fun item => item.type = .remove

/-- The NEVRA dictionary of a file. -/
def Db.dictionary (db : Db) : AutoTable String := db.rpms.getD AutoTable.empty

/-- The transactions of a world are those of its package sets, and all of them can be read. -/
structure RecordsSets (w : World) : Prop where
  interned : w.db.dictionary.values.Nodup
  known : ∀ t, 0 < t → t ≤ w.db.newest → ∀ nevra ∈ w.recorded t,
    ∃ id, (id, nevra) ∈ w.db.dictionary.rows
  first : 0 < w.db.newest → ∀ id, id ∈ itemIds w.db 1 .set ↔
    ∃ nevra, (id, nevra) ∈ w.db.dictionary.rows ∧ nevra ∈ w.recorded 1
  added : ∀ t, 0 < t → t < w.db.newest → ∀ id, id ∈ itemIds w.db (t + 1) .add ↔
    ∃ nevra, (id, nevra) ∈ w.db.dictionary.rows ∧ nevra ∈ w.recorded (t + 1) ∧
      nevra ∉ w.recorded t
  removed : ∀ t, 0 < t → t < w.db.newest → ∀ id, id ∈ itemIds w.db (t + 1) .remove ↔
    ∃ nevra, (id, nevra) ∈ w.db.dictionary.rows ∧ nevra ∈ w.recorded t ∧
      nevra ∉ w.recorded (t + 1)
  addedFit : ∀ t, addedCount w.db t ≤ w.db.dictionary.rows.length
  removedFit : ∀ t, removedCount w.db t ≤ w.db.dictionary.rows.length
  readable : 0 < w.db.newest → ∀ ctx : HistoryCtx, ctx.db = ⟨w.db, none⟩ →
    ∀ reverse first last, ValidRange first last →
      ∃ tas, historyGetTransactions ctx reverse first last = .ok tas

/-- The ids of the listed packages, each once. -/
def rowIds (rpms : AutoTable String) (nevras : List String) : List ℕ :=
  (rpms.rows.filter fun r => r.2 ∈ nevras).map Prod.fst

/-- The packages behind a list of ids, each once. -/
def rowNevras (rpms : AutoTable String) (ids : List ℕ) : List String :=
  (rpms.rows.filter fun r => r.1 ∈ ids).map Prod.snd

/-- The packages known before and those listed now. -/
def knownCount (rpms : AutoTable String) (nevras : List String) : ℕ :=
  (rpms.values ++ nevras).toFinset.card

/-- A package that stays is listed as often as before, and neither the new listings nor the
gone ones are more than the known packages. -/
structure ListedAlike (rpms : AutoTable String) (before : List ℕ) (nevras : List String) :
    Prop where
  alike : ∀ r ∈ rpms.rows, r.1 ∈ before → r.2 ∈ nevras → before.count r.1 = nevras.count r.2
  added : nevras.countP (· ∉ rowNevras rpms before) ≤ knownCount rpms nevras
  removed : before.countP (· ∉ rowIds rpms nevras) ≤ knownCount rpms nevras

/-- The cookie of rpm differs from the one that is known already. -/
def Op.records (w : World) (s : Session) : Op → Prop
  | .sync _ => (newestTransaction w.db).bind (fun r => r.2.cookie) ≠ some w.rpmdb.cookie
  | .update _ _ => s.ctx.cookie ≠ some w.rpmdb.cookie
  | _ => False

/-- The ids that a recording call compares with: a sync takes them from the file. -/
def Op.before (w : World) (s : Session) : Op → List ℕ
  | .sync _ => if w.db.newest = 0 then [] else rowIds w.db.dictionary (w.recorded w.db.newest)
  | _ => s.ctx.installedIds

/-- The condition on a call. -/
def Op.Alike (w : World) (s : Session) (o : Op) : Prop :=
  o.records w s → ListedAlike w.db.dictionary (o.before w s) w.rpmdb.nevras

/-- The steps of a run in which every recording call meets the condition. -/
inductive StepAlike (rpm : Set RpmDb) : World → World → Prop where
  | rpm (w : World) (r : RpmDb) (hr : r ∈ rpm) : StepAlike rpm w { w with rpmdb := r }
  | opens (w : World) (h : w.session = none) :
      StepAlike rpm w { w with session := some ⟨createHistoryCtx w.db, false⟩ }
  | closes (w : World) (s : Session) (h : w.session = some s) :
      StepAlike rpm w { w with session := none }
  | call (w : World) (s : Session) (o : Op) (h : w.session = some s)
      (hallowed : o.allowed s.synced) (halike : o.Alike w s) : StepAlike rpm w (w.after s o)

/-- The worlds that such runs from an empty history file reach. -/
inductive ReachableAlike (rpm : Set RpmDb) : World → Prop where
  | initial (r : RpmDb) (hr : r ∈ rpm) : ReachableAlike rpm ⟨Db.fresh, none, r, fun _ => []⟩
  | step {w w' : World} (h : ReachableAlike rpm w) (hstep : StepAlike rpm w w') :
      ReachableAlike rpm w'

/-- The cookie of rpm changes with the set of its packages. -/
def CookieFaithful (rpm : Set RpmDb) : Prop :=
  ∀ r ∈ rpm, ∀ r' ∈ rpm, r.cookie = r'.cookie → ∀ nevra, nevra ∈ r.nevras ↔ nevra ∈ r'.nevras

section Reading

variable {db : Db} {rpms : AutoTable String} {items : List ItemRow}

/-- The loop of `history_delta_read` succeeds while the arrays have room. -/
theorem foldlM_readItem {maxCount : ℕ} {hd : HistoryDelta}
    (hadded : hd.addedIds.length + items.countP (fun item => item.type ≠ .remove) ≤ maxCount)
    (hremoved : hd.removedIds.length + items.countP (fun item => item.type = .remove) ≤
      maxCount) : ∃ hd', items.foldlM (readItem maxCount) hd = .ok hd' := by
  induction items generalizing hd with
  | nil => exact ⟨hd, rfl⟩
  | cons item rest ih =>
      rw [List.foldlM_cons]
      by_cases htype : item.type = .remove
      · have hread : readItem maxCount hd item =
            .ok { hd with removedIds := hd.removedIds ++ [item.rpmId] } := by
          rw [readItem, if_pos htype, if_pos]
          simp [htype] at hremoved
          omega
        rw [hread]
        apply ih
        · simpa [htype] using hadded
        · simp [htype] at hremoved ⊢
          omega
      · have hread : readItem maxCount hd item =
            .ok { hd with addedIds := hd.addedIds ++ [item.rpmId] } := by
          rw [readItem, if_neg htype, if_pos]
          simp [htype] at hadded
          omega
        rw [hread]
        apply ih
        · simp [htype] at hadded ⊢
          omega
        · simpa [htype] using hremoved

/-- A transaction with no more items than known packages can be read. -/
theorem historyDeltaRead_ok (hrpms : db.rpms = some rpms) (hitems : db.transItems.isSome)
    {t : ℕ} (hadded : addedCount db t ≤ rpms.rows.length)
    (hremoved : removedCount db t ≤ rpms.rows.length) :
    ∃ hd, historyDeltaRead db t = .ok hd := by
  obtain ⟨table, htable⟩ := Option.isSome_iff_exists.mp hitems
  have hitemsOf : itemsOf db t = table.values.filter fun item => item.transId = t := by
    rw [itemsOf, htable, Option.getD_some]
  have hperm := List.perm_insertionSort (fun a b : ItemRow => a.rpmId ≤ b.rpmId)
    (table.values.filter fun item => item.transId = t)
  rw [addedCount, hitemsOf, ← hperm.countP_eq] at hadded
  rw [removedCount, hitemsOf, ← hperm.countP_eq] at hremoved
  have hread : ∃ hd, (List.insertionSort (fun a b : ItemRow => a.rpmId ≤ b.rpmId)
      (table.values.filter fun item => item.transId = t)).foldlM
        (readItem rpms.rows.length) ⟨[], []⟩ = .ok hd :=
    foldlM_readItem (by simpa using hadded) (by simpa using hremoved)
  obtain ⟨hd, hfold⟩ := hread
  refine ⟨hd, ?_⟩
  rw [historyDeltaRead, dbRpmsCount, hrpms, selectItems, htable]
  exact hfold

/-- The selected rows fit into the array that is made for them. -/
theorem selectTransactions_ok {transactions : AutoTable TransRow} (hne : transactions.rows ≠ [])
    {first last : ℤ} (hrange : ValidRange first last) :
    ∃ rows count, selectTransactions transactions first last = .ok (rows, count) ∧
      rows.length ≤ count := by
  rw [selectTransactions]
  rcases hrange with ⟨rfl, rfl⟩ | ⟨hpos, hle⟩
  · obtain ⟨newest, hnewest⟩ := Option.ne_none_iff_exists'.mp
      (List.getLast?_eq_none_iff.not.mpr hne)
    refine ⟨transactions.rows, newest.1, by simp [hnewest], ?_⟩
    have hlast : transactions.lastKey = newest.1 := by simp [AutoTable.lastKey, hnewest]
    have hlength := transactions.length_le_of_keys (List.Sublist.refl _)
      (fun r hr => ⟨(transactions.keys r hr).1, Nat.lt_one_add_iff.mpr
        (transactions.key_le_lastKey hr)⟩)
    rw [hlast] at hlength
    exact_mod_cast hlength
  · refine ⟨_, _, by rw [if_neg (by omega)], ?_⟩
    have hkeys : ∀ r ∈ transactions.rows.filter (fun r => first ≤ r.1 ∧ r.1 ≤ last),
        first.toNat ≤ r.1 ∧ r.1 < first.toNat + (last - first + 1).toNat := by
      intro r hr
      have hin := (List.mem_filter.mp hr).2
      simp only [decide_eq_true_eq] at hin
      omega
    have hlength := transactions.length_le_of_keys List.filter_sublist hkeys
    omega

/-- With items that fit, every valid range of a history with a transaction can be read. -/
theorem historyGetTransactions_ok {ctx : HistoryCtx} {transactions : AutoTable TransRow}
    (htrans : ctx.db.view.transactions = some transactions) (hne : transactions.rows ≠ [])
    (hrpms : ctx.db.view.rpms = some rpms) (hitems : ctx.db.view.transItems.isSome)
    (hfit : ∀ t, addedCount ctx.db.view t ≤ rpms.rows.length ∧
      removedCount ctx.db.view t ≤ rpms.rows.length) (reverse : Bool) {first last : ℤ}
    (hrange : ValidRange first last) :
    ∃ tas, historyGetTransactions ctx reverse first last = .ok tas := by
  obtain ⟨rows, count, hselect, hlength⟩ := selectTransactions_ok hne hrange
  have hread : ∀ t, ∃ hd, historyDeltaRead ctx.db.view t = .ok hd := fun t =>
    historyDeltaRead_ok hrpms hitems (hfit t).1 (hfit t).2
  choose delta hdelta using hread
  have hordered : first ≤ last := by
    rcases hrange with ⟨rfl, rfl⟩ | ⟨-, hle⟩
    · exact le_rfl
    · exact hle
  have hentries : ∀ l : List (ℕ × TransRow), l.mapM (readTransaction ctx.db.view) = .ok
      (l.map fun r => ⟨r.1, r.2.cookie, r.2.cmdline, r.2.timestamp, r.2.type, delta r.1⟩) :=
    fun l => mapM_eq_ok fun r _ => by
      rw [readTransaction, hdelta]
      rfl
  have hall : historyGetTransactions ctx reverse first last =
      (if reverse then rows.reverse else rows).mapM (readTransaction ctx.db.view) := by
    rw [historyGetTransactions, if_neg (not_not.mpr hordered), htrans]
    simp only [hselect, bind, Except.bind]
    rw [if_neg (not_lt.mpr hlength)]
  exact ⟨_, hall.trans (hentries _)⟩

end Reading

section Counting

variable {rpm : Set RpmDb} {recorded : ℕ → List String} {db : Db}
  {transactions : AutoTable TransRow} {items : AutoTable ItemRow} {rpms : AutoTable String}
  {ctx : HistoryCtx} {rpmdb : RpmDb} {ids : List ℕ} {nevras : List String}

theorem mem_rowIds {id : ℕ} :
    id ∈ rowIds rpms nevras ↔ ∃ nevra ∈ nevras, (id, nevra) ∈ rpms.rows := by
  constructor
  · intro h
    obtain ⟨⟨k, nevra⟩, hr, rfl⟩ := List.mem_map.mp h
    obtain ⟨hrow, hmem⟩ := List.mem_filter.mp hr
    exact ⟨nevra, of_decide_eq_true hmem, hrow⟩
  · rintro ⟨nevra, hmem, hrow⟩
    exact List.mem_map.mpr ⟨_, List.mem_filter.mpr ⟨hrow, decide_eq_true hmem⟩, rfl⟩

theorem mem_rowNevras {nevra : String} :
    nevra ∈ rowNevras rpms ids ↔ ∃ id ∈ ids, (id, nevra) ∈ rpms.rows := by
  constructor
  · intro h
    obtain ⟨⟨id, n⟩, hr, rfl⟩ := List.mem_map.mp h
    obtain ⟨hrow, hmem⟩ := List.mem_filter.mp hr
    exact ⟨id, of_decide_eq_true hmem, hrow⟩
  · rintro ⟨id, hmem, hrow⟩
    exact List.mem_map.mpr ⟨_, List.mem_filter.mpr ⟨hrow, decide_eq_true hmem⟩, rfl⟩

theorem rowIds_ascending : (rowIds rpms nevras).Pairwise (· < ·) :=
  List.pairwise_map.mpr (rpms.ascending.filter _)

/-- A dictionary that holds the old one and the listed packages has as many rows as packages
are known. -/
theorem knownCount_le {rpms' : AutoTable String} {more : List String}
    (hmore : rpms' = rpms.insertAll more)
    (hknown : ∀ nevra ∈ nevras, ∃ id, (id, nevra) ∈ rpms'.rows) :
    knownCount rpms nevras ≤ rpms'.rows.length := by
  have hsub : (rpms.values ++ nevras).toFinset ⊆ rpms'.values.toFinset := by
    intro nevra hmem
    rw [List.mem_toFinset] at hmem ⊢
    rcases List.mem_append.mp hmem with hmem | hmem
    · rw [hmore, AutoTable.values_insertAll]
      exact List.mem_append_left _ hmem
    · obtain ⟨id, hrow⟩ := hknown nevra hmem
      exact List.mem_map.mpr ⟨_, hrow, rfl⟩
  calc knownCount rpms nevras ≤ rpms'.values.toFinset.card := Finset.card_le_card hsub
    _ ≤ rpms'.values.length := List.toFinset_card_le _
    _ = rpms'.rows.length := List.length_map _

/-- What the condition says of the difference that is recorded. -/
structure DiffFits (rpms : AutoTable String) (diff : List ℕ × List ℕ) : Prop where
  added : diff.2.length ≤ rpms.rows.length
  removed : diff.1.length ≤ rpms.rows.length

/-- Under the condition the recorded difference is that of the sets, and it fits. -/
theorem diff_of_listedAlike (h : Chronicle rpm recorded db transactions items rpms)
    (hdb : ctx.db = ⟨db, none⟩) (hordered : ctx.installedIds.Pairwise (· ≤ ·))
    (hinstalled : ∀ id, id ∈ ctx.installedIds ↔ id ∈ idsOf rpms (recorded transactions.seq))
    (halike : ListedAlike rpms ctx.installedIds rpmdb.nevras) :
    DiffOfSets rpmdb ctx ∧ DiffFits (rpmsPass noFault rpmdb.nevras ctx.db).2
      (updateDiff noFault rpmdb ctx) := by
  have hpass := h.interned hdb rpmdb.nevras
  obtain ⟨more, hmore⟩ := hpass.grown
  obtain ⟨ids, hperm, hentries⟩ := rpmsPass_entries rpmdb.nevras ctx.db
  -- an id that the context lists stands for the same package in both dictionaries
  have hold : ∀ {r : ℕ × String}, r.1 ∈ ctx.installedIds →
      (r ∈ (rpmsPass noFault rpmdb.nevras ctx.db).2.rows ↔ r ∈ rpms.rows) := by
    intro r hr
    obtain ⟨nevra, -, hrow⟩ := (hinstalled r.1).mp hr
    have hle : r.1 ≤ rpms.seq := (rpms.keys _ hrow).2
    exact ⟨fun hnew => rpms.mem_of_mem_insertAll more (hmore ▸ hnew) hle,
      fun hknown => hmore ▸ rpms.mem_insertAll_of_mem more hknown⟩
  have hcount : ∀ id ∈ ctx.installedIds, id ∈ (rpmsPass noFault rpmdb.nevras ctx.db).1 →
      ctx.installedIds.count id = (rpmsPass noFault rpmdb.nevras ctx.db).1.count id := by
    intro id hid hmem
    obtain ⟨nevra, hlisted, hnew⟩ := (hpass.mem_ids id).mp hmem
    have hsame : ids.count id = rpmdb.nevras.count nevra := by
      refine countP_entries hentries fun r hr => ?_
      rw [Bool.eq_iff_iff, beq_iff_eq, beq_iff_eq]
      constructor
      · rintro rfl
        exact AutoTable.row_unique _ hr hnew
      · rintro rfl
        exact AutoTable.key_unique _ hpass.nodup hr hnew
    rw [hperm.count_eq, hsame]
    exact halike.alike (id, nevra) ((hold hid).mp hnew) hid hlisted
  obtain ⟨hremoved, hadded⟩ :=
    OrderedDiff.diff_perm_filter hordered (sortArray_ordered _) hcount
  have hknown := knownCount_le hmore hpass.known
  refine ⟨fun id => ⟨?_, ?_⟩, ?_, ?_⟩
  · exact hremoved.mem_iff.trans (List.mem_filter.trans (and_congr_right' decide_eq_true_iff))
  · exact hadded.mem_iff.trans (List.mem_filter.trans (and_congr_right' decide_eq_true_iff))
  · calc (updateDiff noFault rpmdb ctx).2.length
        = (rpmsPass noFault rpmdb.nevras ctx.db).1.countP (· ∉ ctx.installedIds) := by
          rw [List.countP_eq_length_filter]
          exact hadded.length_eq
      _ = ids.countP (· ∉ ctx.installedIds) := hperm.countP_eq _
      _ = rpmdb.nevras.countP (· ∉ rowNevras rpms ctx.installedIds) := by
          refine countP_entries hentries fun r hr => ?_
          rw [decide_eq_decide, not_iff_not, mem_rowNevras]
          constructor
          · exact fun hmem => ⟨r.1, hmem, (hold hmem).mp hr⟩
          · rintro ⟨id, hmem, hrow⟩
            have hkey : id = r.1 := AutoTable.key_unique _ hpass.nodup
              ((hold hmem).mpr hrow) hr
            exact hkey ▸ hmem
      _ ≤ knownCount rpms rpmdb.nevras := halike.added
      _ ≤ _ := hknown
  · calc (updateDiff noFault rpmdb ctx).1.length
        = ctx.installedIds.countP (· ∉ (rpmsPass noFault rpmdb.nevras ctx.db).1) := by
          rw [List.countP_eq_length_filter]
          exact hremoved.length_eq
      _ = ctx.installedIds.countP (· ∉ rowIds rpms rpmdb.nevras) := by
          refine List.countP_congr fun id hid => ?_
          rw [decide_eq_true_eq, decide_eq_true_eq, not_iff_not, mem_rowIds, hpass.mem_ids]
          simp only [hold (r := (id, _)) hid]
      _ ≤ knownCount rpms rpmdb.nevras := halike.removed
      _ ≤ _ := hknown

end Counting

/-- No transaction has more items of either kind than packages are known. -/
def ItemsFit (db : Db) (rpms : AutoTable String) : Prop :=
  ∀ t, addedCount db t ≤ rpms.rows.length ∧ removedCount db t ≤ rpms.rows.length

section Fitting

variable {rpm : Set RpmDb} {recorded : ℕ → List String} {db db' : Db}
  {transactions : AutoTable TransRow} {items : AutoTable ItemRow} {rpms rpms' : AutoTable String}

theorem ItemsFit.congr (h : ItemsFit db rpms) (hitems : db'.transItems = db.transItems)
    (hgrown : ∃ more, rpms' = rpms.insertAll more) : ItemsFit db' rpms' := by
  obtain ⟨more, rfl⟩ := hgrown
  have hlength : rpms.rows.length ≤ (rpms.insertAll more).rows.length := by
    have hvalues := congrArg List.length (rpms.values_insertAll more)
    rw [List.length_append, AutoTable.values, AutoTable.values, List.length_map,
      List.length_map] at hvalues
    exact (Nat.le_add_right _ _).trans hvalues.ge
  have hsame : ∀ t, itemsOf db' t = itemsOf db t := fun t => by rw [itemsOf, itemsOf, hitems]
  intro t
  rw [addedCount, removedCount, hsame]
  exact ⟨(h t).1.trans hlength, (h t).2.trans hlength⟩

/-- The items of a recorded difference are counted by its two lists. -/
theorem ItemsFit.record (h : Chronicle rpm recorded db transactions items rpms)
    (hfit : ItemsFit db rpms) (hgrown : ∃ more, rpms' = rpms.insertAll more)
    {diff : List ℕ × List ℕ} (hdiff : DiffFits rpms' diff)
    (hitems : db'.transItems = some (items.insertAll (diffRows (transactions.seq + 1) diff))) :
    ItemsFit db' rpms' := by
  have hrows : ∀ item ∈ diffRows (transactions.seq + 1) diff,
      item.transId = transactions.seq + 1 := by
    intro item hitem
    rcases List.mem_append.mp hitem with hitem | hitem
    · obtain ⟨id, -, rfl⟩ := List.mem_map.mp hitem
      rfl
    · obtain ⟨id, -, rfl⟩ := List.mem_map.mp hitem
      rfl
  intro t
  by_cases ht : t = transactions.seq + 1
  · subst ht
    have hnew := itemsOf_insertAll_self hitems (fun item hitem => by
      have := h.itemTransId item hitem
      omega) hrows
    rw [addedCount, removedCount, hnew]
    refine ⟨le_trans (le_of_eq ?_) hdiff.added, le_trans (le_of_eq ?_) hdiff.removed⟩
    · simp [diffRows, itemRows, List.countP_append, List.countP_map, Function.comp_def]
    · simp [diffRows, itemRows, List.countP_append, List.countP_map, Function.comp_def]
  · have hsame := itemsOf_insertAll_of_ne h.itemsTable hitems (t := t)
      fun item hitem htrans => ht (htrans.symm.trans (hrows item hitem))
    have hold : ItemsFit db rpms' := hfit.congr rfl hgrown
    rw [addedCount, removedCount, hsame]
    exact hold t

/-- The items of the first baseline are the listed packages. -/
theorem itemsFit_start {ids : List ℕ} (hids : ids.length ≤ rpms.rows.length)
    (hitems : db.transItems = some (AutoTable.empty.insertAll (itemRows 1 .set ids))) :
    ItemsFit db rpms := by
  have hrows : ∀ item ∈ itemRows 1 .set ids, item.transId = 1 := by
    intro item hitem
    obtain ⟨id, -, rfl⟩ := List.mem_map.mp hitem
    rfl
  intro t
  by_cases ht : t = 1
  · subst ht
    have hnew := itemsOf_insertAll_self hitems (by simp) hrows
    rw [addedCount, removedCount, hnew]
    refine ⟨le_trans (le_of_eq ?_) hids, le_trans (le_of_eq ?_) (Nat.zero_le _)⟩
    · simp [itemRows, List.countP_map, Function.comp_def]
    · simp [itemRows, List.countP_map, Function.comp_def]
  · have hnone : itemsOf db t = [] := by
      rw [itemsOf, hitems, Option.getD_some, AutoTable.values_insertAll, AutoTable.values_empty,
        List.nil_append]
      exact List.filter_eq_nil_iff.mpr fun item hitem => by
        simpa [hrows item hitem] using Ne.symm ht
    rw [addedCount, removedCount, hnone]
    exact ⟨Nat.zero_le _, Nat.zero_le _⟩

end Fitting

/-- After a call the history is consistent and fits again. -/
def Proceeds (rpm : Set RpmDb) (recorded : ℕ → List String) (newest : ℕ)
    (installed : List String) (ctx : HistoryCtx) (synced : Bool) : Prop :=
  ∃ db transactions items rpms recorded', ctx.db = ⟨db, none⟩ ∧ FlagStore db ∧
    ((transactions.seq = newest ∧ recorded' = recorded) ∨
      (transactions.seq = newest + 1 ∧
        recorded' = Function.update recorded (newest + 1) installed)) ∧
    Chronicle rpm recorded' db transactions items rpms ∧ ItemsFit db rpms ∧
    SessionListed recorded' transactions rpms ctx synced

section Calls

variable {rpm : Set RpmDb} {recorded : ℕ → List String} {db : Db}
  {transactions : AutoTable TransRow} {items : AutoTable ItemRow} {rpms : AutoTable String}
  {ctx : HistoryCtx} {rpmdb : RpmDb}

section Written

variable (hr : rpmdb ∈ rpm) (h : Chronicle rpm recorded db transactions items rpms)
  (hfit : ItemsFit db rpms) (hdb : ctx.db = ⟨db, none⟩) (hflags : FlagStore db)

include hr h hfit hdb hflags

/-- `history_update_state` under the condition. -/
theorem proceeds_update (hctx : SessionListed recorded transactions rpms ctx true)
    (halike : ctx.cookie ≠ some rpmdb.cookie →
      ListedAlike rpms ctx.installedIds rpmdb.nevras) (now : ℤ) (cmdline : Option String) :
    ∃ ctx', (historyUpdateState noFault rpmdb now cmdline).run ctx = .ok () ctx' ∧
      Proceeds rpm recorded transactions.seq rpmdb.nevras ctx' true := by
  obtain ⟨hpending, htrans, hitems⟩ := tables_exist h hdb
  refine ⟨_, historyUpdateState_noFault hpending htrans hitems rpmdb now cmdline, ?_⟩
  split_ifs with hcookie
  · exact ⟨db, transactions, items, rpms, recorded, hdb, hflags, .inl ⟨rfl, rfl⟩, h, hfit, hctx⟩
  · obtain ⟨hdiff, hfits⟩ := diff_of_listedAlike h hdb hctx.ordered (hctx.installed rfl)
      (halike hcookie)
    have hnext := h.recordSets hr hdb (hctx.installed rfl) hdiff now cmdline
    exact ⟨_, _, _, _, _, updatedCtx_db hdb now cmdline, hflags.congr ⟨rfl, rfl⟩,
      .inr ⟨rfl, rfl⟩, hnext,
      hfit.record h (h.interned hdb rpmdb.nevras).grown hfits hnext.itemsTable,
      h.updatedCtx_listed hdb now cmdline⟩

/-- `history_sync` under the condition. -/
theorem proceeds_sync (hfaithful : CookieFaithful rpm)
    (halike : (newestTransaction db).bind (fun r => r.2.cookie) ≠ some rpmdb.cookie →
      ListedAlike rpms (rowIds rpms (recorded transactions.seq)) rpmdb.nevras) (now : ℤ) :
    ∃ ctx', (historySync rpmdb now).run ctx = .ok () ctx' ∧
      Proceeds rpm recorded transactions.seq rpmdb.nevras ctx' true := by
  obtain ⟨row, hnewest, hrow⟩ := h.newestTransaction_eq
  have hview : newestTransaction ctx.db.view = some (transactions.seq, row) := by
    simpa [hdb] using hnewest
  obtain ⟨row', hrow', r, hrmem, hcookie, hset⟩ := h.newest
  obtain rfl := AutoTable.row_unique _ hrow' hrow
  by_cases hsame : row'.cookie = some rpmdb.cookie
  · have hpass := h.interned hdb rpmdb.nevras
    obtain ⟨more, hmore⟩ := hpass.grown
    have hcontent := hfaithful rpmdb hr r hrmem (Option.some.inj (hsame.symm.trans hcookie))
    refine ⟨_, historySync_unchanged_run hview hsame now,
      { db with rpms := some (rpmsPass noFault rpmdb.nevras ctx.db).2 }, transactions, items,
      (rpmsPass noFault rpmdb.nevras ctx.db).2, recorded, ?_, hflags.congr ⟨rfl, rfl⟩,
      .inl ⟨rfl, rfl⟩, h.grow hmore hpass.nodup rfl, hfit.congr rfl hpass.grown, rfl,
      fun row hrow => ?_, sortArray_ordered _, fun _ id => ?_⟩
    · simp [syncedCtx, hdb, Conn.setRpms]
    · rw [AutoTable.row_unique _ hrow hrow']
      rfl
    · apply (hpass.mem_ids id).trans
      simp only [hcontent, hset]
      rfl
  · obtain ⟨ids, hplayed, hasc, hids⟩ := h.playedIds_spec h.nonempty le_rfl
    have hbefore : ids = rowIds rpms (recorded transactions.seq) :=
      OrderedDiff.eq_of_mem_iff hasc rowIds_ascending fun id => (hids id).trans mem_rowIds.symm
    have hctx : SessionListed recorded transactions rpms
        (rewoundCtx ids row'.cookie transactions.seq ctx) true := by
      refine ⟨rfl, fun row hrow => ?_, hasc.imp le_of_lt, fun _ => hids⟩
      rw [AutoTable.row_unique _ hrow hrow']
      rfl
    have hnew : (newestTransaction db).bind (fun r => r.2.cookie) ≠ some rpmdb.cookie := by
      rw [hnewest]
      exact hsame
    have hrewound : (rewoundCtx ids row'.cookie transactions.seq ctx).db = ⟨db, none⟩ := hdb
    rw [historySync_changed_run hview hsame (by simpa [hdb] using hplayed)]
    refine proceeds_update hr h hfit hrewound hflags hctx (fun _ => ?_) now _
    have hlisted := halike hnew
    rwa [← hbefore] at hlisted

end Written

/-- The first `history_sync` under the condition. -/
theorem proceeds_sync_fresh (hr : rpmdb ∈ rpm) (hdb : ctx.db = ⟨Db.fresh, none⟩)
    (halike : ListedAlike AutoTable.empty [] rpmdb.nevras) (recorded : ℕ → List String)
    (now : ℤ) :
    ∃ ctx', (historySync rpmdb now).run ctx = .ok () ctx' ∧
      Proceeds rpm recorded 0 rpmdb.nevras ctx' true := by
  have hpass : Interned AutoTable.empty rpmdb.nevras (rpmsPass noFault rpmdb.nevras ctx.db).1
      (rpmsPass noFault rpmdb.nevras ctx.db).2 := interned_start hdb
  obtain ⟨ids, hperm, hentries⟩ := rpmsPass_entries rpmdb.nevras ctx.db
  obtain ⟨more, hmore⟩ := hpass.grown
  have hfits : (rpmsPass noFault rpmdb.nevras ctx.db).1.length ≤
      (rpmsPass noFault rpmdb.nevras ctx.db).2.rows.length := by
    calc (rpmsPass noFault rpmdb.nevras ctx.db).1.length = rpmdb.nevras.length :=
          hperm.length_eq.trans hentries.length_eq
      _ = rpmdb.nevras.countP (· ∉ rowNevras AutoTable.empty []) :=
          (List.countP_eq_length.mpr fun nevra _ => decide_eq_true (by simp [mem_rowNevras])).symm
      _ ≤ knownCount AutoTable.empty rpmdb.nevras := halike.added
      _ ≤ _ := knownCount_le hmore hpass.known
  have hstart := chronicle_start hr hdb recorded now
  exact ⟨_, historySync_start_run hdb now, _, _, _, _, _, startedCtx_db hdb now,
    flagStore_start now, .inr ⟨rfl, rfl⟩, hstart, itemsFit_start hfits hstart.itemsTable,
    startedCtx_listed hdb recorded now⟩

end Calls

/-- The file holds a consistent history that fits. -/
def WrittenListed (rpm : Set RpmDb) (w : World) : Prop :=
  ∃ transactions items rpms, Chronicle rpm w.recorded w.db transactions items rpms ∧
    ItemsFit w.db rpms ∧
    ∀ s, w.session = some s → SessionListed w.recorded transactions rpms s.ctx s.synced

/-- What holds in every world that a run under the condition reaches. -/
structure ListedInv (rpm : Set RpmDb) (w : World) : Prop where
  rpmdb : w.rpmdb ∈ rpm
  flags : FlagStore w.db
  session : ∀ s, w.session = some s → s.ctx.db = ⟨w.db, none⟩
  history : Fresh w ∨ WrittenListed rpm w

section Preservation

variable {rpm : Set RpmDb} {w w' : World} {s : Session} {o : Op}

theorem ListedInv.of_proceeds (hinv : ListedInv rpm w)
    (h : Proceeds rpm w.recorded w.db.newest (o.installed w) (w.ctxAfter s o)
      (s.synced || o.syncs)) : ListedInv rpm (w.after s o) := by
  obtain ⟨db, transactions, items, rpms, recorded, hdb, hflags, hrecorded, hchron, hfit, hctx⟩ := h
  have hdb' : (w.after s o).db = db := congrArg Conn.durable hdb
  have hafter := recorded_after hdb' hchron.newest_eq hrecorded
  refine ⟨hinv.rpmdb, hdb' ▸ hflags, ?_, .inr ⟨transactions, items, rpms, ?_, ?_, ?_⟩⟩
  · rintro s' ⟨rfl⟩
    rw [hdb']
    exact hdb
  · rw [hafter, hdb']
    exact hchron
  · rw [hdb']
    exact hfit
  · rintro s' ⟨rfl⟩
    rw [hafter]
    exact hctx

/-- Every allowed call under the condition continues a written history. -/
theorem proceeds_call (hfaithful : CookieFaithful rpm) (hinv : ListedInv rpm w)
    (hs : w.session = some s) {transactions : AutoTable TransRow} {items : AutoTable ItemRow}
    {rpms : AutoTable String} (h : Chronicle rpm w.recorded w.db transactions items rpms)
    (hfit : ItemsFit w.db rpms)
    (hctx : SessionListed w.recorded transactions rpms s.ctx s.synced)
    (hallowed : o.allowed s.synced) (halike : o.Alike w s) :
    Proceeds rpm w.recorded transactions.seq (o.installed w) (w.ctxAfter s o)
      (s.synced || o.syncs) := by
  have hdb := hinv.session s hs
  have hdictionary : w.db.dictionary = rpms := by simp [Db.dictionary, h.rpmsTable]
  have hkept : ∀ {recorded newest installed ctx}, Proceeds rpm recorded newest installed ctx
      s.synced → Proceeds rpm recorded newest installed ctx (s.synced || false) :=
    fun hproceeds => by rwa [Bool.or_false]
  -- a call that leaves the history and the context alone
  have hsame : ∀ {db' ctx' installed}, ctx' = s.ctx.setDb ⟨db', none⟩ → FlagStore db' →
      SameHistory w.db db' →
      Proceeds rpm w.recorded transactions.seq installed ctx' (s.synced || false) := by
    rintro db' ctx' installed rfl hflags hhistory
    exact hkept ⟨db', transactions, items, rpms, w.recorded, rfl, hflags, .inl ⟨rfl, rfl⟩,
      h.congr hhistory.transactions hhistory.transItems hhistory.rpms,
      hfit.congr hhistory.transItems ⟨[], rfl⟩,
      hctx.transId, hctx.cookie, hctx.ordered, hctx.installed⟩
  have hquiet : o.quiet = true → ∀ installed,
      Proceeds rpm w.recorded transactions.seq installed (w.ctxAfter s o)
        (s.synced || false) := by
    intro hquiet installed
    obtain ⟨db', hrun, hflags, hhistory⟩ := ctxAfter_quiet hinv.flags hdb
      (hctx.transId ▸ h.nonempty) hquiet
    exact hsame hrun hflags hhistory
  cases o with
  | sync now =>
      obtain ⟨ctx', hrun, hproceeds⟩ := proceeds_sync hinv.rpmdb h hfit hdb hinv.flags hfaithful
        (fun hnew => by
          have hlisted := halike hnew
          rwa [Op.before, h.newest_eq, if_neg h.nonempty.ne', hdictionary] at hlisted) now
      rw [World.ctxAfter, Op.run, hrun, Op.syncs, Bool.or_true]
      exact hproceeds
  | update now cmdline =>
      have hsynced : s.synced = true := hallowed
      obtain ⟨ctx', hrun, hproceeds⟩ := proceeds_update hinv.rpmdb h hfit hdb hinv.flags
        (hsynced ▸ hctx) (fun hnew => by
          have hlisted := halike hnew
          rwa [hdictionary] at hlisted) now cmdline
      rw [World.ctxAfter, Op.run, hrun, hsynced]
      exact hproceeds
  | addTransaction now cmdline =>
      have hself : s.ctx = s.ctx.setDb ⟨w.db, none⟩ := by rw [← hdb]; rfl
      rw [World.ctxAfter, Op.run, historyAddTransaction_run]
      split_ifs with hcond
      · obtain ⟨db', row, hdb', hnames, h', hctx'⟩ := h.recordEmpty hctx hdb now cmdline
        refine hkept ⟨db', _, items, rpms, _, hdb', hinv.flags.congr hnames, .inr ⟨rfl, ?_⟩, h',
          hfit.congr (h'.itemsTable.trans h.itemsTable.symm) ⟨[], rfl⟩, hctx'⟩
        rw [Op.installed, h.newest_eq]
      · exact hsame hself hinv.flags ⟨rfl, rfl, rfl⟩
      · exact hsame hself hinv.flags ⟨rfl, rfl, rfl⟩
  | getAutoFlag name => exact hquiet rfl _
  | setAutoFlag name value => exact hquiet rfl _
  | restoreAutoFlags transId => exact hquiet rfl _
  | replayAutoFlags first last => exact hquiet rfl _

/-- A call under the condition keeps the invariant. -/
theorem ListedInv.call (hfaithful : CookieFaithful rpm) (hinv : ListedInv rpm w)
    (hs : w.session = some s) (hallowed : o.allowed s.synced) (halike : o.Alike w s) :
    ListedInv rpm (w.after s o) := by
  rcases hinv.history with hfresh | ⟨transactions, items, rpms, h, hfit, hsession⟩
  · have hdb : s.ctx.db = ⟨Db.fresh, none⟩ := by rw [hinv.session s hs, hfresh.db]
    cases hsyncs : o.syncs with
    | true =>
        obtain ⟨now, rfl⟩ : ∃ now, o = .sync now := by
          cases o with
          | sync now => exact ⟨now, rfl⟩
          | _ => cases hsyncs
        have hlisted := halike (by
          rw [Op.records, hfresh.db]
          simp [newestTransaction, Db.fresh])
        have hstart : ListedAlike AutoTable.empty [] w.rpmdb.nevras := by
          rwa [Op.before, if_pos hfresh.newest, hfresh.db] at hlisted
        obtain ⟨ctx', hrun, hproceeds⟩ :=
          proceeds_sync_fresh hinv.rpmdb hdb hstart w.recorded now
        apply hinv.of_proceeds
        rw [hfresh.newest, World.ctxAfter, Op.run, hrun, Op.syncs, Bool.or_true]
        exact hproceeds
    | false =>
        have hstrict : Inv rpm w := ⟨hinv.rpmdb, hinv.flags, hinv.session, .inl hfresh⟩
        have hsame := ctxAfter_fresh hstrict hs hfresh hsyncs hallowed
        have hfile : (w.after s o).db = w.db := by
          have hctx := congrArg (fun ctx => ctx.db.durable) hsame
          rw [hinv.session s hs] at hctx
          exact hctx
        refine ⟨hinv.rpmdb, hfile ▸ hinv.flags, ?_, .inl ⟨hfile.trans hfresh.db, ?_⟩⟩
        · rintro s' ⟨rfl⟩
          rw [hfile]
          exact (congrArg HistoryCtx.db hsame).trans (hinv.session s hs)
        · rintro s' ⟨rfl⟩
          obtain ⟨hsynced, htrans⟩ := hfresh.session s hs
          exact ⟨by simp [hsynced, hsyncs], (congrArg HistoryCtx.transId hsame).trans htrans⟩
  · apply hinv.of_proceeds
    rw [h.newest_eq]
    exact proceeds_call hfaithful hinv hs h hfit (hsession s hs) hallowed halike

/-- Every step under the condition keeps the invariant. -/
theorem ListedInv.step (hfaithful : CookieFaithful rpm) (hinv : ListedInv rpm w)
    (hstep : StepAlike rpm w w') : ListedInv rpm w' := by
  cases hstep with
  | rpm r hr =>
      refine ⟨hr, hinv.flags, hinv.session, hinv.history.imp ?_ fun h => h⟩
      exact fun hfresh => ⟨hfresh.db, hfresh.session⟩
  | opens hnone =>
      refine ⟨hinv.rpmdb, hinv.flags, ?_, hinv.history.imp ?_ ?_⟩
      · rintro s' ⟨rfl⟩
        rfl
      · refine fun hfresh => ⟨hfresh.db, ?_⟩
        rintro s' ⟨rfl⟩
        exact ⟨rfl, by rw [hfresh.db]; rfl⟩
      · rintro ⟨transactions, items, rpms, h, hfit, -⟩
        refine ⟨transactions, items, rpms, h, hfit, ?_⟩
        rintro s' ⟨rfl⟩
        exact (sessionOk_create h).listed
  | closes s hs =>
      refine ⟨hinv.rpmdb, hinv.flags, fun s' hs' => (by cases hs'), hinv.history.imp ?_ ?_⟩
      · exact fun hfresh => ⟨hfresh.db, fun s' hs' => (by cases hs')⟩
      · rintro ⟨transactions, items, rpms, h, hfit, -⟩
        exact ⟨transactions, items, rpms, h, hfit, fun s' hs' => (by cases hs')⟩
  | call s o hs hallowed halike => exact hinv.call hfaithful hs hallowed halike

theorem listedInv_of_reachableAlike (hfaithful : CookieFaithful rpm)
    (h : ReachableAlike rpm w) : ListedInv rpm w := by
  induction h with
  | initial r hr =>
      exact ⟨hr, ⟨rfl, by simp [Db.fresh]⟩, fun s hs => (by cases hs),
        .inl ⟨rfl, fun s hs => (by cases hs)⟩⟩
  | step h hstep ih => exact ih.step hfaithful hstep

/-- An empty file records nothing. -/
theorem Fresh.recordsSets (h : Fresh w) : RecordsSets w := by
  have hzero : w.db.newest = 0 := h.newest
  have hitems : ∀ t, itemsOf w.db t = [] := by
    intro t
    rw [h.db]
    rfl
  refine ⟨?_, ?_, ?_, ?_, ?_, ?_, ?_, ?_⟩
  · rw [h.db]
    exact List.nodup_nil
  · omega
  · omega
  · omega
  · omega
  · intro t
    rw [addedCount, hitems]
    exact Nat.zero_le _
  · intro t
    rw [removedCount, hitems]
    exact Nat.zero_le _
  · omega

/-- A consistent history that fits records sets. -/
theorem WrittenListed.recordsSets (h : WrittenListed rpm w) : RecordsSets w := by
  obtain ⟨transactions, items, rpms, h, hfit, -⟩ := h
  have hdictionary : w.db.dictionary = rpms := by simp [Db.dictionary, h.rpmsTable]
  -- an id stands for one package
  have honly : ∀ {id nevras nevra}, (id, nevra) ∈ rpms.rows →
      (id ∈ idsOf rpms nevras ↔ nevra ∈ nevras) := by
    intro id nevras nevra hrow
    constructor
    · rintro ⟨n, hmem, hrow'⟩
      exact rpms.row_unique hrow hrow' ▸ hmem
    · exact fun hmem => ⟨nevra, hmem, hrow⟩
  have hdiff : ∀ {id now before}, id ∈ idsOf rpms now \ idsOf rpms before ↔
      ∃ nevra, (id, nevra) ∈ rpms.rows ∧ nevra ∈ now ∧ nevra ∉ before := by
    intro id now before
    constructor
    · rintro ⟨⟨nevra, hmem, hrow⟩, hnot⟩
      exact ⟨nevra, hrow, hmem, fun hbefore => hnot ((honly hrow).mpr hbefore)⟩
    · rintro ⟨nevra, hrow, hmem, hnot⟩
      exact ⟨(honly hrow).mpr hmem, fun hid => hnot ((honly hrow).mp hid)⟩
  refine ⟨hdictionary ▸ h.nodup, ?_, ?_, ?_, ?_, ?_, ?_, ?_⟩
  · rw [hdictionary, h.newest_eq]
    exact h.known
  · intro _ id
    rw [hdictionary, h.first]
    exact ⟨fun ⟨nevra, hmem, hrow⟩ => ⟨nevra, hrow, hmem⟩,
      fun ⟨nevra, hrow, hmem⟩ => ⟨nevra, hmem, hrow⟩⟩
  · intro t hpos hlt id
    rw [h.newest_eq] at hlt
    rw [hdictionary, h.added t hpos hlt, hdiff]
  · intro t hpos hlt id
    rw [h.newest_eq] at hlt
    rw [hdictionary, h.removed t hpos hlt, hdiff]
  · exact fun t => hdictionary ▸ (hfit t).1
  · exact fun t => hdictionary ▸ (hfit t).2
  · intro _ ctx hctx reverse first last hrange
    obtain ⟨row, hrow⟩ := h.dense transactions.seq h.nonempty le_rfl
    have hview : ctx.db.view = w.db := by rw [hctx, Conn.view_closed]
    exact historyGetTransactions_ok (hview ▸ h.transactionsTable) (List.ne_nil_of_mem hrow)
      (hview ▸ h.rpmsTable) (by rw [hview, h.itemsTable]; rfl) (hview ▸ hfit) reverse hrange

end Preservation

/-- In every world that a run under the condition reaches, each transaction records the
difference of package sets and can be read. -/
theorem recordsSets_of_listedAlike {rpm : Set RpmDb} {w : World} (hfaithful : CookieFaithful rpm)
    (h : ReachableAlike rpm w) : RecordsSets w := by
  rcases (listedInv_of_reachableAlike hfaithful h).history with hfresh | hwritten
  · exact hfresh.recordsSets
  · exact hwritten.recordsSets

section Examples

/-- Two packages, and then the same ones with a signing key that rpm lists twice. -/
def withoutKeys : RpmDb := ⟨["a-1-1.x86_64", "b-1-1.x86_64"], "c0"⟩

def withKeys : RpmDb :=
  ⟨["a-1-1.x86_64", "b-1-1.x86_64", "gpg-pubkey-1-1.(none)", "gpg-pubkey-1-1.(none)"], "c1"⟩

/-- Nothing but a signing key that rpm lists twice. -/
def onlyKeys : RpmDb := ⟨["gpg-pubkey-1-1.(none)", "gpg-pubkey-1-1.(none)"], "c"⟩

theorem reachableAlike_withKeys :
    ReachableAlike {withoutKeys, withKeys} (firstUpdate withoutKeys withKeys 0 none) := by
  have hopen := ReachableAlike.step (.initial withoutKeys (Set.mem_insert _ {withKeys}))
    (.opens _ rfl)
  have hsync := hopen.step (.call _ _ (.sync 0) rfl trivial fun _ =>
    ⟨by decide +kernel, by decide +kernel, by decide +kernel⟩)
  have hrpm := hsync.step (.rpm _ withKeys (Set.mem_insert_of_mem _ rfl))
  exact hrpm.step (.call _ (firstSession withoutKeys 0) (.update 0 none) rfl rfl fun _ =>
    ⟨by decide +kernel, by decide +kernel, by decide +kernel⟩)

theorem cookieFaithful_of_ne {r r' : RpmDb} (hne : r.cookie ≠ r'.cookie) :
    CookieFaithful {r, r'} := by
  rintro r₁ (rfl | rfl) r₂ (rfl | rfl) hcookie
  · exact fun _ => Iff.rfl
  · exact absurd hcookie hne
  · exact absurd hcookie.symm hne
  · exact fun _ => Iff.rfl

theorem recordsSets_withKeys : RecordsSets (firstUpdate withoutKeys withKeys 0 none) :=
  recordsSets_of_listedAlike (cookieFaithful_of_ne (by decide)) reachableAlike_withKeys

/-- When the first sync finds nothing but a key that is listed twice, the baseline has two items
for one known package, and no transaction can be read any more. -/
theorem onlyKeys_unreadable :
    CookieFaithful {onlyKeys} ∧ Reachable {onlyKeys} (firstSync onlyKeys 0) ∧
      ¬ RecordsSets (firstSync onlyKeys 0) ∧
      historyGetTransactions (createHistoryCtx (firstSync onlyKeys 0).db) false 0 0 =
        .error .checkFailed := by
  have hread : historyGetTransactions (createHistoryCtx (firstSync onlyKeys 0).db) false 0 0 =
      .error .checkFailed := by decide +kernel
  refine ⟨?_, reachable_firstSync (Set.mem_singleton _) 0, fun h => ?_, hread⟩
  · rintro r rfl r' rfl -
    exact fun _ => Iff.rfl
  · obtain ⟨tas, htas⟩ := h.readable (by decide +kernel)
      (createHistoryCtx (firstSync onlyKeys 0).db) rfl false 0 0 (.inl ⟨rfl, rfl⟩)
    rw [hread] at htas
    cases htas

/-- A key that is listed once less is recorded as removed, although it stays installed. -/
example : ⟨2, .remove, 3⟩ ∈ itemsOf (firstUpdate withKeys
      ⟨["a-1-1.x86_64", "b-1-1.x86_64", "gpg-pubkey-1-1.(none)"], "c2"⟩ 0 none).db 2 := by
  decide +kernel

end Examples

end Tdnf.History
