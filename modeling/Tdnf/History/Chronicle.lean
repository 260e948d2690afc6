import Tdnf.History.Recording
import Mathlib.Logic.Function.Basic

/-!
# Consistent histories

A history is consistent with the package sets it was recorded from when the
baseline lists the first set, every later transaction the difference to the set
before it, and the dictionary names each package once. Replaying such a history
gives back every recorded set.
-/

namespace Tdnf.History

open Relational Journal

/-- The ids of the listed packages. -/
def idsOf (rpms : AutoTable String) (nevras : List String) : Set ℕ :=
  {id | ∃ nevra ∈ nevras, (id, nevra) ∈ rpms.rows}

/-- The tables record the package sets `recorded 1`, .., `recorded transactions.seq`; the
cookie of the newest transaction belongs to an rpm database with the newest set. -/
structure Chronicle (rpm : Set RpmDb) (recorded : ℕ → List String) (db : Db)
    (transactions : AutoTable TransRow) (items : AutoTable ItemRow) (rpms : AutoTable String) :
    Prop where
  transactionsTable : db.transactions = some transactions
  itemsTable : db.transItems = some items
  rpmsTable : db.rpms = some rpms
  nodup : rpms.values.Nodup
  nonempty : 0 < transactions.seq
  dense : ∀ t, 0 < t → t ≤ transactions.seq → ∃ row, (t, row) ∈ transactions.rows
  types : ∀ r ∈ transactions.rows, r.2.type = .base ↔ r.1 = 1
  itemTransId : ∀ item ∈ items.values, item.transId ≤ transactions.seq
  itemKnown : ∀ item ∈ items.values, ∃ nevra, (item.rpmId, nevra) ∈ rpms.rows
  itemType : ∀ item ∈ items.values, item.type = .set ↔ item.transId = 1
  known : ∀ t, 0 < t → t ≤ transactions.seq → ∀ nevra ∈ recorded t, ∃ id, (id, nevra) ∈ rpms.rows
  first : itemIds db 1 .set = idsOf rpms (recorded 1)
  added : ∀ t, 0 < t → t < transactions.seq →
    itemIds db (t + 1) .add = idsOf rpms (recorded (t + 1)) \ idsOf rpms (recorded t)
  removed : ∀ t, 0 < t → t < transactions.seq →
    itemIds db (t + 1) .remove = idsOf rpms (recorded t) \ idsOf rpms (recorded (t + 1))
  newest : ∃ row, (transactions.seq, row) ∈ transactions.rows ∧ ∃ r ∈ rpm,
    row.cookie = some r.cookie ∧ ∀ nevra, nevra ∈ r.nevras ↔ nevra ∈ recorded transactions.seq

/-- New dictionary entries do not change the ids of known packages. -/
theorem idsOf_grown {rpms rpms' : AutoTable String} {more nevras : List String}
    (hmore : rpms' = rpms.insertAll more) (hnodup : rpms'.values.Nodup)
    (hknown : ∀ nevra ∈ nevras, ∃ id, (id, nevra) ∈ rpms.rows) :
    idsOf rpms' nevras = idsOf rpms nevras := by
  have hkeep : ∀ {r}, r ∈ rpms.rows → r ∈ rpms'.rows := fun hr =>
    hmore ▸ rpms.mem_insertAll_of_mem more hr
  ext id
  constructor
  · rintro ⟨nevra, hmem, hrow⟩
    obtain ⟨id', hrow'⟩ := hknown nevra hmem
    have hid : id = id' := AutoTable.key_unique _ hnodup hrow (hkeep hrow')
    exact ⟨nevra, hmem, hid ▸ hrow'⟩
  · rintro ⟨nevra, hmem, hrow⟩
    exact ⟨nevra, hmem, hkeep hrow⟩

section ItemIds

variable {db db' : Db} {items : AutoTable ItemRow} {rows : List ItemRow} {t : ℕ} {type : ItemType}

/-- Items of other transactions do not count. -/
theorem itemsOf_insertAll_of_ne (hdb : db.transItems = some items)
    (hdb' : db'.transItems = some (items.insertAll rows))
    (hne : ∀ item ∈ rows, item.transId ≠ t) : itemsOf db' t = itemsOf db t := by
  have hnone : rows.filter (fun item => item.transId = t) = [] :=
    List.filter_eq_nil_iff.mpr fun item hitem => by simpa using hne item hitem
  rw [itemsOf, itemsOf, hdb, hdb', Option.getD_some, Option.getD_some,
    AutoTable.values_insertAll, List.filter_append, hnone, List.append_nil]

theorem itemsOf_insertAll_self (hdb' : db'.transItems = some (items.insertAll rows))
    (hold : ∀ item ∈ items.values, item.transId ≠ t)
    (hrows : ∀ item ∈ rows, item.transId = t) : itemsOf db' t = rows := by
  rw [itemsOf, hdb', Option.getD_some, AutoTable.values_insertAll, List.filter_append,
    List.filter_eq_nil_iff.mpr, List.nil_append, List.filter_eq_self.mpr]
  · exact fun item hitem => by simpa using hrows item hitem
  · exact fun item hitem => by simpa using hold item hitem

theorem itemIds_insertAll_of_ne (hdb : db.transItems = some items)
    (hdb' : db'.transItems = some (items.insertAll rows))
    (hne : ∀ item ∈ rows, item.transId ≠ t) : itemIds db' t type = itemIds db t type := by
  rw [itemIds, itemIds, itemsOf_insertAll_of_ne hdb hdb' hne]

/-- The items of a new transaction. -/
theorem itemIds_insertAll_self (hdb' : db'.transItems = some (items.insertAll rows))
    (hold : ∀ item ∈ items.values, item.transId ≠ t)
    (hrows : ∀ item ∈ rows, item.transId = t) :
    itemIds db' t type = {id | ⟨t, type, id⟩ ∈ rows} := by
  ext id
  rw [itemIds, itemsOf_insertAll_self hdb' hold hrows]
  constructor
  · rintro ⟨item, hitem, rfl, rfl⟩
    have htrans := hrows item hitem
    exact htrans ▸ hitem
  · exact fun hmem => ⟨_, hmem, rfl, rfl⟩

end ItemIds

namespace Chronicle

variable {rpm : Set RpmDb} {recorded : ℕ → List String} {db : Db}
  {transactions : AutoTable TransRow} {items : AutoTable ItemRow} {rpms : AutoTable String}

/-- Only the three tables of the history matter. -/
theorem congr {db' : Db} (h : Chronicle rpm recorded db transactions items rpms)
    (htrans : db'.transactions = db.transactions) (hitems : db'.transItems = db.transItems)
    (hrpms : db'.rpms = db.rpms) : Chronicle rpm recorded db' transactions items rpms := by
  have hids : ∀ t type, itemIds db' t type = itemIds db t type := by
    intro t type
    simp only [itemIds, itemsOf, hitems]
  refine { h with
    transactionsTable := htrans.trans h.transactionsTable
    itemsTable := hitems.trans h.itemsTable
    rpmsTable := hrpms.trans h.rpmsTable
    first := by rw [hids, h.first]
    added := fun t hpos hlt => by rw [hids, h.added t hpos hlt]
    removed := fun t hpos hlt => by rw [hids, h.removed t hpos hlt] }

theorem mem_itemsOf (h : Chronicle rpm recorded db transactions items rpms) {t : ℕ}
    {item : ItemRow} : item ∈ itemsOf db t ↔ item ∈ items.values ∧ item.transId = t := by
  simp [itemsOf, h.itemsTable]

/-- A transaction id is recorded when it lies in the used range. -/
theorem recorded_iff (h : Chronicle rpm recorded db transactions items rpms) {t : ℕ} :
    (∃ row, (t, row) ∈ transactions.rows) ↔ 0 < t ∧ t ≤ transactions.seq :=
  ⟨fun ⟨_, hrow⟩ => transactions.keys _ hrow, fun ⟨hpos, hle⟩ => h.dense t hpos hle⟩

theorem lastKey_eq (h : Chronicle rpm recorded db transactions items rpms) :
    transactions.lastKey = transactions.seq := by
  obtain ⟨row, hrow⟩ := h.dense transactions.seq h.nonempty le_rfl
  exact le_antisymm transactions.lastKey_le_seq (transactions.key_le_lastKey hrow)

/-- The first baseline of a new history. -/
theorem start {db' : Db} {ids : List ℕ} {row : TransRow} {r : RpmDb}
    (recorded : ℕ → List String) (hr : r ∈ rpm) (htype : row.type = .base)
    (hcookie : row.cookie = some r.cookie) (hnodup : rpms.values.Nodup)
    (hids : ∀ id, id ∈ ids ↔ id ∈ idsOf rpms r.nevras)
    (hknown : ∀ nevra ∈ r.nevras, ∃ id, (id, nevra) ∈ rpms.rows)
    (htrans : db'.transactions = some (AutoTable.empty.insert row))
    (hitems : db'.transItems = some (AutoTable.empty.insertAll (itemRows 1 .set ids)))
    (hrpms : db'.rpms = some rpms) :
    Chronicle rpm (Function.update recorded 1 r.nevras) db' (AutoTable.empty.insert row)
      (AutoTable.empty.insertAll (itemRows 1 .set ids)) rpms := by
  have hone : ∀ {t}, 0 < t → t ≤ (AutoTable.empty.insert row).seq → t = 1 := by
    intro t hpos hle
    simp only [AutoTable.insert_seq, AutoTable.empty_seq] at hle
    omega
  have hitem : ∀ {item}, item ∈ (AutoTable.empty.insertAll (itemRows 1 .set ids)).values →
      ∃ id ∈ ids, item = ⟨1, .set, id⟩ := by
    intro item hitem
    rw [AutoTable.values_insertAll, AutoTable.values_empty, List.nil_append] at hitem
    obtain ⟨id, hid, rfl⟩ := List.mem_map.mp hitem
    exact ⟨id, hid, rfl⟩
  refine ⟨htrans, hitems, hrpms, hnodup, by simp, ?_, ?_, ?_, ?_, ?_, ?_, ?_, ?_, ?_, ?_⟩
  · intro t hpos hle
    exact ⟨row, by simp [hone hpos hle]⟩
  · intro r' hr'
    simp only [AutoTable.insert_rows, AutoTable.empty_rows, AutoTable.empty_seq,
      List.nil_append, List.mem_singleton] at hr'
    simp [hr', htype]
  · intro item hmem
    obtain ⟨id, -, rfl⟩ := hitem hmem
    simp
  · intro item hmem
    obtain ⟨id, hid, rfl⟩ := hitem hmem
    obtain ⟨nevra, -, hrow⟩ := (hids id).mp hid
    exact ⟨nevra, hrow⟩
  · intro item hmem
    obtain ⟨id, -, rfl⟩ := hitem hmem
    simp
  · intro t hpos hle nevra hmem
    rw [hone hpos hle, Function.update_self] at hmem
    exact hknown nevra hmem
  · rw [Function.update_self, itemIds_insertAll_self hitems (by simp)
      (fun item hmem => by obtain ⟨id, -, rfl⟩ := List.mem_map.mp hmem; rfl)]
    ext id
    rw [← hids id]
    simp [itemRows]
  · intro t hpos hlt
    have := hone hpos hlt.le
    simp only [AutoTable.insert_seq, AutoTable.empty_seq] at hlt
    omega
  · intro t hpos hlt
    have := hone hpos hlt.le
    simp only [AutoTable.insert_seq, AutoTable.empty_seq] at hlt
    omega
  · refine ⟨row, by simp, r, hr, hcookie, fun nevra => ?_⟩
    simp

section Replay

variable (h : Chronicle rpm recorded db transactions items rpms)

include h

/-- The only baseline is the first transaction. -/
theorem latestBase_eq {t : ℕ} (hpos : 0 < t) : latestBase transactions t = some 1 := by
  obtain ⟨row, hrow⟩ := h.dense 1 Nat.one_pos h.nonempty
  have hbase : row.type = .base := (h.types _ hrow).mpr rfl
  cases hlatest : latestBase transactions t with
  | none =>
      simp only [latestBase, Option.map_eq_none_iff, List.find?_eq_none, List.mem_reverse,
        List.mem_filter, decide_eq_true_eq, and_imp] at hlatest
      exact absurd hpos (hlatest (1, row) hrow hbase)
  | some baseId =>
      obtain ⟨⟨row', hrow', htype⟩, -, -⟩ := latestBase_spec hlatest
      exact congrArg some ((h.types _ hrow').mp htype)

/-- The journal entry of the baseline. -/
theorem entryAt_first : entryAt db 1 = .base (idsOf rpms (recorded 1)) := by
  obtain ⟨row, hrow⟩ := h.dense 1 Nat.one_pos h.nonempty
  have hbase : row.type = .base := (h.types _ hrow).mpr rfl
  rw [entryAt, h.transactionsTable, Option.getD_some, if_pos ⟨_, hrow, rfl, hbase⟩, h.first]

/-- The journal entry of a later transaction is the change between two recorded sets. -/
theorem entryAt_next {t : ℕ} (hpos : 0 < t) (hlt : t < transactions.seq) :
    entryAt db (t + 1) = between (idsOf rpms (recorded t)) (idsOf rpms (recorded (t + 1))) := by
  rw [entryAt, h.transactionsTable, Option.getD_some, if_neg, h.added t hpos hlt,
    h.removed t hpos hlt, between]
  rintro ⟨r, hr, hkey, hbase⟩
  have hone := (h.types r hr).mp hbase
  omega

theorem itemsOk {t : ℕ} {types : List ItemType}
    (htypes : ∀ type : ItemType, (type = .set ↔ t = 1) → type ∈ types) :
    ItemsOk db rpms.lastKey t types := by
  intro item hitem
  obtain ⟨hmem, htrans⟩ := h.mem_itemsOf.mp hitem
  obtain ⟨nevra, hrow⟩ := h.itemKnown item hmem
  exact ⟨⟨(rpms.keys _ hrow).1, rpms.key_le_lastKey hrow⟩,
    htypes item.type (htrans ▸ h.itemType item hmem)⟩

/-- Every recorded delta can be played. -/
theorem deltaOk {t : ℕ} (hpos : 1 < t) (hle : t ≤ transactions.seq) :
    DeltaOk db rpms.lastKey t := by
  obtain ⟨s, rfl⟩ : ∃ s, t = s + 1 := ⟨t - 1, by omega⟩
  constructor
  · apply h.itemsOk
    intro type htype
    cases type with
    | set => exact absurd (htype.mp rfl) (by omega)
    | add => simp
    | remove => simp
  · rw [h.added s (by omega) (by omega), h.removed s (by omega) (by omega)]
    exact Set.disjoint_left.mpr fun id hadd hremove => hadd.2 hremove.1

/-- Replaying a recorded transaction marks exactly the packages of its set. -/
theorem dbPlayTransaction_marks {t : ℕ} (hpos : 0 < t) (hle : t ≤ transactions.seq) :
    ∃ map, dbPlayTransaction db t (zeroMap rpms.lastKey) rpms.lastKey = .ok map ∧
      map.length = rpms.lastKey ∧ marked map = idsOf rpms (recorded t) := by
  obtain ⟨map, hplay, hlen, hmarks⟩ := dbPlayTransaction_content h.transactionsTable
    (by simp [h.itemsTable]) (h.latestBase_eq hpos)
    (h.itemsOk fun type htype => by simp [htype.mpr rfl])
    fun id hlt hid => h.deltaOk hlt (hid.trans hle)
  refine ⟨map, hplay, hlen, ?_⟩
  have hstate : content ((List.range' 1 (t - 1 + 1)).map (entryAt db)) =
      (fun t => idsOf rpms (recorded t)) (1 + (t - 1)) :=
    content_of_betweens h.entryAt_first fun s hs hlt => h.entryAt_next (by omega) (by omega)
  rw [hmarks, hstate]
  simp only [show 1 + (t - 1) = t by omega]

/-- The replayed ids in order. -/
theorem playedIds_spec {t : ℕ} (hpos : 0 < t) (hle : t ≤ transactions.seq) :
    ∃ ids, playedIds db t = .ok ids ∧ ids.Pairwise (· < ·) ∧
      ∀ id, id ∈ ids ↔ id ∈ idsOf rpms (recorded t) := by
  obtain ⟨map, hplay, hlen, hmarks⟩ := h.dbPlayTransaction_marks hpos hle
  refine ⟨_, by rw [playedIds, h.rpmsTable]; simp only [hplay]; rfl,
    getIdsFromMap_ascending _ _, fun id => ?_⟩
  rw [mem_getIdsFromMap hlen, hmarks]

end Replay

/-- One more transaction: the dictionary may grow, and the new items are the difference to
the newest set. -/
theorem extend (h : Chronicle rpm recorded db transactions items rpms) {db' : Db}
    {rpms' : AutoTable String} {row : TransRow} {rows : List ItemRow} {nevras : List String}
    (htype : row.type = .delta) (hgrown : ∃ added, rpms' = rpms.insertAll added)
    (hnodup : rpms'.values.Nodup) (hknown : ∀ nevra ∈ nevras, ∃ id, (id, nevra) ∈ rpms'.rows)
    (hrows : ∀ item ∈ rows, item.transId = transactions.seq + 1 ∧ item.type ≠ .set)
    (hadd : ∀ id, ⟨transactions.seq + 1, .add, id⟩ ∈ rows ↔
      id ∈ idsOf rpms' nevras \ idsOf rpms' (recorded transactions.seq))
    (hremove : ∀ id, ⟨transactions.seq + 1, .remove, id⟩ ∈ rows ↔
      id ∈ idsOf rpms' (recorded transactions.seq) \ idsOf rpms' nevras)
    (hcookie : ∃ r ∈ rpm, row.cookie = some r.cookie ∧ ∀ nevra, nevra ∈ r.nevras ↔ nevra ∈ nevras)
    (htrans : db'.transactions = some (transactions.insert row))
    (hitems : db'.transItems = some (items.insertAll rows)) (hrpms : db'.rpms = some rpms') :
    Chronicle rpm (Function.update recorded (transactions.seq + 1) nevras) db'
      (transactions.insert row) (items.insertAll rows) rpms' := by
  have hold : ∀ {t}, t ≤ transactions.seq →
      Function.update recorded (transactions.seq + 1) nevras t = recorded t := fun hle =>
    Function.update_of_ne (by omega) _ _
  have hnew : Function.update recorded (transactions.seq + 1) nevras (transactions.seq + 1) =
      nevras := Function.update_self _ _ _
  obtain ⟨more, hmore⟩ := hgrown
  have hids : ∀ {t}, 0 < t → t ≤ transactions.seq →
      idsOf rpms' (recorded t) = idsOf rpms (recorded t) := fun hpos hle =>
    idsOf_grown hmore hnodup (h.known _ hpos hle)
  have hitem : ∀ {t} {type}, t ≤ transactions.seq → itemIds db' t type = itemIds db t type :=
    fun hle => itemIds_insertAll_of_ne h.itemsTable hitems fun item hitem => by
      have := (hrows item hitem).1
      omega
  have hitem' : ∀ type, itemIds db' (transactions.seq + 1) type =
      {id | ⟨transactions.seq + 1, type, id⟩ ∈ rows} := fun type =>
    itemIds_insertAll_self hitems (fun item hitem => by
      have := h.itemTransId item hitem
      omega) fun item hitem => (hrows item hitem).1
  refine ⟨htrans, hitems, hrpms, hnodup, by simp, ?_, ?_, ?_, ?_, ?_, ?_, ?_, ?_, ?_, ?_⟩
  · intro t hpos hle
    rcases Nat.lt_or_ge transactions.seq t with hlt | hle
    · have ht : t = transactions.seq + 1 := by
        rw [AutoTable.insert_seq] at hle
        omega
      exact ⟨row, by simp [ht]⟩
    · obtain ⟨row', hrow'⟩ := h.dense t hpos hle
      exact ⟨row', (transactions.mem_insert _ _).mpr (.inl hrow')⟩
  · intro r hr
    rcases (transactions.mem_insert _ _).mp hr with hr | rfl
    · exact h.types r hr
    · have := h.nonempty
      simp only [htype, reduceCtorEq, false_iff]
      omega
  · intro item hitem
    rw [AutoTable.values_insertAll] at hitem
    rcases List.mem_append.mp hitem with hitem | hitem
    · exact Nat.le_succ_of_le (h.itemTransId item hitem)
    · exact (hrows item hitem).1.le
  · intro item hitem
    rw [AutoTable.values_insertAll] at hitem
    rcases List.mem_append.mp hitem with hitem | hitem
    · obtain ⟨nevra, hrow⟩ := h.itemKnown item hitem
      exact ⟨nevra, hmore ▸ rpms.mem_insertAll_of_mem more hrow⟩
    · obtain ⟨transId, type, id⟩ := item
      obtain ⟨rfl, hset⟩ := hrows _ hitem
      cases type with
      | set => exact absurd rfl hset
      | add =>
          obtain ⟨⟨nevra, -, hrow⟩, -⟩ := (hadd id).mp hitem
          exact ⟨nevra, hrow⟩
      | remove =>
          obtain ⟨⟨nevra, -, hrow⟩, -⟩ := (hremove id).mp hitem
          exact ⟨nevra, hrow⟩
  · intro item hitem
    rw [AutoTable.values_insertAll] at hitem
    rcases List.mem_append.mp hitem with hitem | hitem
    · exact h.itemType item hitem
    · obtain ⟨htrans, hset⟩ := hrows item hitem
      have := h.nonempty
      exact iff_of_false hset (by omega)
  · intro t hpos hle nevra hmem
    rcases Nat.lt_or_ge transactions.seq t with hlt | hle
    · have ht : t = transactions.seq + 1 := by
        rw [AutoTable.insert_seq] at hle
        omega
      rw [ht, hnew] at hmem
      exact hknown nevra hmem
    · rw [hold hle] at hmem
      obtain ⟨id, hrow⟩ := h.known t hpos hle nevra hmem
      exact ⟨id, hmore ▸ rpms.mem_insertAll_of_mem more hrow⟩
  · rw [hitem h.nonempty, hold h.nonempty, hids Nat.one_pos h.nonempty, h.first]
  · intro t hpos hlt
    rcases Nat.lt_or_ge t transactions.seq with hlt' | hge
    · rw [hitem hlt', hold hlt', hold hlt'.le, hids hpos hlt'.le, hids (by omega) hlt',
        h.added t hpos hlt']
    · have ht : t = transactions.seq := by
        rw [AutoTable.insert_seq] at hlt
        omega
      rw [ht, hitem', hnew, hold le_rfl]
      exact Set.ext hadd
  · intro t hpos hlt
    rcases Nat.lt_or_ge t transactions.seq with hlt' | hge
    · rw [hitem hlt', hold hlt', hold hlt'.le, hids hpos hlt'.le, hids (by omega) hlt',
        h.removed t hpos hlt']
    · have ht : t = transactions.seq := by
        rw [AutoTable.insert_seq] at hlt
        omega
      rw [ht, hitem', hnew, hold le_rfl]
      exact Set.ext hremove
  · refine ⟨row, by simp, ?_⟩
    rw [AutoTable.insert_seq, hnew]
    exact hcookie

end Chronicle

end Tdnf.History
