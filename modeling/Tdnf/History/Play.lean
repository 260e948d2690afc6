import Tdnf.History.Store
import Tdnf.Library.Journal
import Mathlib.Data.List.Sort
import Mathlib.Data.Set.Lattice
import Mathlib.Order.CompletePartialOrder

/-!
# Replaying recorded transactions

The installed packages after a transaction are found by rewinding to the last
baseline and playing every delta since on a map with one byte per known package.
The abstract side is the journal of the recorded items: replaying the map marks
exactly the content of that journal.
-/

namespace Tdnf.History

open Relational Journal

/-- `installed_map`; package ids start with 1. -/
abbrev InstalledMap := List Bool

def mapIsset (map : InstalledMap) (id : ℕ) : Bool := map.getD (id - 1) false

def mapSet (map : InstalledMap) (id : ℕ) : InstalledMap := map.set (id - 1) true

def mapUnset (map : InstalledMap) (id : ℕ) : InstalledMap := map.set (id - 1) false

/-- A map from `calloc`. -/
def zeroMap (mapSize : ℕ) : InstalledMap := List.replicate mapSize false

/-- SELECT * FROM trans_items WHERE trans_id = ? ORDER BY rpm_id -/
def selectItems (db : Db) (transId : ℕ) : Except Rc (List ItemRow) :=
  match db.transItems with
  | none => .error .sqliteError
  | some items =>
    .ok ((items.values.filter fun item => item.transId = transId).insertionSort
      fun a b => a.rpmId ≤ b.rpmId)

/-- The body of the loop in `db_play_delta`. -/
def playDeltaItem (mapSize : ℕ) (map : InstalledMap) (item : ItemRow) :
    Except Rc InstalledMap :=
  if ¬ (0 < item.rpmId ∧ item.rpmId ≤ mapSize) then .error .checkFailed
  else
    match item.type with
    | .add => .ok (mapSet map item.rpmId)
    | .remove => .ok (mapUnset map item.rpmId)
    | .set => .error .checkFailed

/-- `db_play_delta` -/
def dbPlayDelta (db : Db) (mapSize : ℕ) (map : InstalledMap) (transId : ℕ) :
    Except Rc InstalledMap := do
  let items ← selectItems db transId
  items.foldlM (playDeltaItem mapSize) map

/-- The body of the loop in `db_play_set`. -/
def playSetItem (mapSize : ℕ) (map : InstalledMap) (item : ItemRow) :
    Except Rc InstalledMap :=
  if ¬ (0 < item.rpmId ∧ item.rpmId ≤ mapSize) then .error .checkFailed
  else
    match item.type with
    | .set => .ok (mapSet map item.rpmId)
    | _ => .error .checkFailed

/-- `db_play_set` -/
def dbPlaySet (db : Db) (mapSize : ℕ) (map : InstalledMap) (transId : ℕ) :
    Except Rc InstalledMap := do
  let items ← selectItems db transId
  items.foldlM (playSetItem mapSize) map

/-- The most recent baseline up to `transId`: the loop over the baselines in
descending order. -/
def latestBase (transactions : AutoTable TransRow) (transId : ℕ) : Option ℕ :=
  ((transactions.rows.filter fun r => r.2.type = .base).reverse.find?
    fun r => r.1 ≤ transId).map Prod.fst

/-- `db_play_transaction` -/
def dbPlayTransaction (db : Db) (transId : ℕ) (map : InstalledMap) (mapSize : ℕ) :
    Except Rc InstalledMap :=
  match db.transactions with
  | none => .error .sqliteError
  | some transactions =>
    match latestBase transactions transId with
    | none => .error .checkFailed
    | some baseId => do
      let map ← dbPlaySet db mapSize map baseId
      (List.range' (baseId + 1) (transId - baseId)).foldlM (dbPlayDelta db mapSize) map

/-- `get_ids_from_map` -/
def getIdsFromMap (map : InstalledMap) (mapSize : ℕ) : List ℕ :=
  (List.range' 1 mapSize).filter fun id => mapIsset map id

section Marks

/-- The packages a map marks. -/
def marked (map : InstalledMap) : Set ℕ := {id | 0 < id ∧ mapIsset map id = true}

@[simp] theorem length_mapSet (map : InstalledMap) (id : ℕ) :
    (mapSet map id).length = map.length := by
  simp [mapSet]

@[simp] theorem length_mapUnset (map : InstalledMap) (id : ℕ) :
    (mapUnset map id).length = map.length := by
  simp [mapUnset]

@[simp] theorem length_zeroMap (mapSize : ℕ) : (zeroMap mapSize).length = mapSize := by
  simp [zeroMap]

@[simp] theorem marked_zeroMap (mapSize : ℕ) : marked (zeroMap mapSize) = ∅ := by
  ext id
  simp only [marked, mapIsset, zeroMap, Set.mem_ofPred_eq, Set.mem_empty_iff_false,
    List.getD_eq_getElem?_getD, List.getElem?_replicate, iff_false, not_and]
  intro _
  split <;> simp

theorem marked_mapSet {map : InstalledMap} {id : ℕ} (hpos : 0 < id) (hle : id ≤ map.length) :
    marked (mapSet map id) = insert id (marked map) := by
  ext j
  by_cases hj : j = id
  · subst hj
    have hlt : j - 1 < map.length := by omega
    simp [marked, mapIsset, mapSet, hpos, hlt]
  · by_cases hj0 : 0 < j
    · have hne : id - 1 ≠ j - 1 := by omega
      simp [marked, mapIsset, mapSet, hj, List.getElem?_set_ne hne]
    · simp [marked, hj0, hj]

theorem marked_mapUnset {map : InstalledMap} {id : ℕ} (hpos : 0 < id) :
    marked (mapUnset map id) = marked map \ {id} := by
  ext j
  by_cases hj : j = id
  · subst hj
    simp only [marked, mapIsset, mapUnset, Set.mem_ofPred_eq, Set.mem_sdiff,
      Set.mem_singleton_iff, not_true_eq_false, and_false, iff_false, not_and]
    intro _
    rw [List.getD_eq_getElem?_getD, List.getElem?_set_self']
    cases map[j - 1]? <;> simp
  · by_cases hj0 : 0 < j
    · have hne : id - 1 ≠ j - 1 := by omega
      simp [marked, mapIsset, mapUnset, hj, List.getElem?_set_ne hne]
    · simp [marked, hj0]

theorem mem_getIdsFromMap {map : InstalledMap} {mapSize : ℕ} (hlen : map.length = mapSize)
    (id : ℕ) : id ∈ getIdsFromMap map mapSize ↔ id ∈ marked map := by
  simp only [getIdsFromMap, List.mem_filter, List.mem_range'_1, marked, Set.mem_ofPred_eq]
  constructor
  · rintro ⟨⟨hpos, -⟩, hset⟩
    exact ⟨hpos, hset⟩
  · rintro ⟨hpos, hset⟩
    refine ⟨⟨hpos, ?_⟩, hset⟩
    by_contra hge
    have hout : map.length ≤ id - 1 := by omega
    simp [mapIsset, List.getElem?_eq_none hout] at hset

theorem getIdsFromMap_ascending (map : InstalledMap) (mapSize : ℕ) :
    (getIdsFromMap map mapSize).Pairwise (· < ·) :=
  List.Pairwise.filter _ List.pairwise_lt_range'

end Marks

/-- The items of a transaction. -/
def itemsOf (db : Db) (transId : ℕ) : List ItemRow :=
  ((db.transItems.getD AutoTable.empty).values).filter fun item => item.transId = transId

/-- The packages of one item type in a transaction. -/
def itemIds (db : Db) (transId : ℕ) (type : ItemType) : Set ℕ :=
  {id | ∃ item ∈ itemsOf db transId, item.type = type ∧ item.rpmId = id}

/-- The journal entry a transaction stands for. -/
def entryAt (db : Db) (transId : ℕ) : Entry ℕ :=
  if ∃ r ∈ (db.transactions.getD AutoTable.empty).rows, r.1 = transId ∧ r.2.type = .base then
    .base (itemIds db transId .set)
  else
    .change (itemIds db transId .add) (itemIds db transId .remove)

/-- Every item of the transaction lies inside the map and has one of the given types. -/
def ItemsOk (db : Db) (mapSize transId : ℕ) (types : List ItemType) : Prop :=
  ∀ item ∈ itemsOf db transId, (0 < item.rpmId ∧ item.rpmId ≤ mapSize) ∧ item.type ∈ types

section Fold

variable {mapSize : ℕ} {items : List ItemRow}

/-- Playing a list of changes in any order, when none is both added and removed. -/
theorem foldlM_playDeltaItem {map : InstalledMap} (hlen : map.length = mapSize)
    (hok : ∀ item ∈ items, (0 < item.rpmId ∧ item.rpmId ≤ mapSize) ∧
      item.type ∈ [ItemType.add, ItemType.remove])
    (hdisj : ∀ a ∈ items, ∀ r ∈ items, a.type = .add → r.type = .remove → a.rpmId ≠ r.rpmId) :
    ∃ map', items.foldlM (playDeltaItem mapSize) map = .ok map' ∧ map'.length = mapSize ∧
      marked map' = (Entry.change {id | ∃ item ∈ items, item.type = .add ∧ item.rpmId = id}
        {id | ∃ item ∈ items, item.type = .remove ∧ item.rpmId = id}).apply (marked map) := by
  induction items generalizing map with
  | nil => exact ⟨map, rfl, hlen, by simp [Entry.apply]⟩
  | cons item rest ih =>
      obtain ⟨hrange, htype⟩ := hok item List.mem_cons_self
      have hok' := fun i hi => hok i (List.mem_cons_of_mem item hi)
      have hdisj' := fun a ha r hr =>
        hdisj a (List.mem_cons_of_mem item ha) r (List.mem_cons_of_mem item hr)
      cases hitem : item.type with
      | set => simp [hitem] at htype
      | add =>
          have hset : (mapSet map item.rpmId).length = mapSize := by simpa using hlen
          obtain ⟨map', hfold, hlen', hmarks⟩ := ih hset hok' hdisj'
          have hstep : playDeltaItem mapSize map item = .ok (mapSet map item.rpmId) := by
            simp [playDeltaItem, hrange, hitem]
          refine ⟨map', ?_, hlen', ?_⟩
          · rw [List.foldlM_cons, hstep]
            exact hfold
          · rw [hmarks, marked_mapSet hrange.1 (hlen ▸ hrange.2)]
            ext id
            simp only [Entry.apply, Set.mem_sdiff, Set.mem_union, Set.mem_insert_iff,
              Set.mem_ofPred_eq, List.mem_cons, exists_eq_or_imp, hitem, true_and,
              reduceCtorEq, false_and, false_or, @eq_comm ℕ id]
            rw [← or_assoc, or_comm (a := item.rpmId = id)]
      | remove =>
          have hunset : (mapUnset map item.rpmId).length = mapSize := by simpa using hlen
          obtain ⟨map', hfold, hlen', hmarks⟩ := ih hunset hok' hdisj'
          have hstep : playDeltaItem mapSize map item = .ok (mapUnset map item.rpmId) := by
            simp [playDeltaItem, hrange, hitem]
          refine ⟨map', ?_, hlen', ?_⟩
          · rw [List.foldlM_cons, hstep]
            exact hfold
          · rw [hmarks, marked_mapUnset hrange.1]
            have hnew : ∀ a ∈ rest, a.type = .add → a.rpmId ≠ item.rpmId := fun a ha hadd =>
              hdisj a (List.mem_cons_of_mem item ha) item List.mem_cons_self hadd hitem
            ext id
            simp only [Entry.apply, Set.mem_sdiff, Set.mem_union, Set.mem_singleton_iff,
              Set.mem_ofPred_eq, List.mem_cons, exists_eq_or_imp, hitem, true_and,
              reduceCtorEq, false_and, false_or, @eq_comm ℕ id]
            constructor
            · rintro ⟨⟨hid, hne⟩ | ⟨a, ha, hadd, rfl⟩, hrem⟩
              · exact ⟨.inl hid, not_or.mpr ⟨hne, hrem⟩⟩
              · exact ⟨.inr ⟨a, ha, hadd, rfl⟩,
                  not_or.mpr ⟨fun h => hnew a ha hadd h.symm, hrem⟩⟩
            · rintro ⟨hid, hrem⟩
              obtain ⟨hne, hrem⟩ := not_or.mp hrem
              exact ⟨hid.imp (fun hid => ⟨hid, hne⟩) fun ha => ha, hrem⟩

/-- Playing a baseline on any map adds its packages. -/
theorem foldlM_playSetItem {map : InstalledMap} (hlen : map.length = mapSize)
    (hok : ∀ item ∈ items, (0 < item.rpmId ∧ item.rpmId ≤ mapSize) ∧
      item.type ∈ [ItemType.set]) :
    ∃ map', items.foldlM (playSetItem mapSize) map = .ok map' ∧ map'.length = mapSize ∧
      marked map' = marked map ∪ {id | ∃ item ∈ items, item.type = .set ∧ item.rpmId = id} := by
  induction items generalizing map with
  | nil => exact ⟨map, rfl, hlen, by simp⟩
  | cons item rest ih =>
      obtain ⟨hrange, htype⟩ := hok item List.mem_cons_self
      have hitem : item.type = .set := List.mem_singleton.mp htype
      have hset : (mapSet map item.rpmId).length = mapSize := by simpa using hlen
      obtain ⟨map', hfold, hlen', hmarks⟩ :=
        ih hset fun i hi => hok i (List.mem_cons_of_mem item hi)
      have hstep : playSetItem mapSize map item = .ok (mapSet map item.rpmId) := by
        simp [playSetItem, hrange, hitem]
      refine ⟨map', ?_, hlen', ?_⟩
      · rw [List.foldlM_cons, hstep]
        exact hfold
      · rw [hmarks, marked_mapSet hrange.1 (hlen ▸ hrange.2)]
        ext id
        simp only [Set.mem_union, Set.mem_insert_iff, Set.mem_ofPred_eq, List.mem_cons,
          exists_eq_or_imp, hitem, true_and, @eq_comm ℕ id]
        rw [← or_assoc, or_comm (a := item.rpmId = id)]

end Fold

/-- The delta `transId` can be played: it has no baseline items, stays inside the map
and does not both add and remove a package. -/
structure DeltaOk (db : Db) (mapSize transId : ℕ) : Prop where
  items : ItemsOk db mapSize transId [.add, .remove]
  disjoint : Disjoint (itemIds db transId .add) (itemIds db transId .remove)

section Playing

variable {db : Db} {mapSize : ℕ} {map : InstalledMap}

/-- The selected rows are the items of the transaction in another order. -/
theorem selectItems_eq (hitems : db.transItems.isSome) (transId : ℕ) :
    ∃ items, selectItems db transId = .ok items ∧
      ∀ item, item ∈ items ↔ item ∈ itemsOf db transId := by
  obtain ⟨t, ht⟩ := Option.isSome_iff_exists.mp hitems
  refine ⟨_, by rw [selectItems, ht], fun item => ?_⟩
  rw [List.mem_insertionSort, itemsOf, ht, Option.getD_some]

/-- `db_play_delta` applies the journal entry of its transaction. -/
theorem dbPlayDelta_marks (hitems : db.transItems.isSome) (hlen : map.length = mapSize)
    {transId : ℕ} (hok : DeltaOk db mapSize transId) :
    ∃ map', dbPlayDelta db mapSize map transId = .ok map' ∧ map'.length = mapSize ∧
      marked map' =
        (Entry.change (itemIds db transId .add) (itemIds db transId .remove)).apply
          (marked map) := by
  obtain ⟨items, hselect, hmem⟩ := selectItems_eq hitems transId
  have hdisj : ∀ a ∈ items, ∀ r ∈ items, a.type = .add → r.type = .remove →
      a.rpmId ≠ r.rpmId := by
    intro a ha r hr hadd hrem heq
    exact Set.disjoint_left.mp hok.disjoint ⟨a, (hmem a).mp ha, hadd, rfl⟩
      ⟨r, (hmem r).mp hr, hrem, heq.symm⟩
  obtain ⟨map', hfold, hlen', hmarks⟩ := foldlM_playDeltaItem hlen
    (fun item hi => hok.items item ((hmem item).mp hi)) hdisj
  refine ⟨map', by rw [dbPlayDelta, hselect]; exact hfold, hlen', ?_⟩
  simpa only [hmem, itemIds] using hmarks

/-- `db_play_set` on a fresh map marks the packages of the baseline. -/
theorem dbPlaySet_marks (hitems : db.transItems.isSome) {transId : ℕ}
    (hok : ItemsOk db mapSize transId [.set]) :
    ∃ map', dbPlaySet db mapSize (zeroMap mapSize) transId = .ok map' ∧
      map'.length = mapSize ∧ marked map' = itemIds db transId .set := by
  obtain ⟨items, hselect, hmem⟩ := selectItems_eq hitems transId
  obtain ⟨map', hfold, hlen', hmarks⟩ := foldlM_playSetItem (length_zeroMap mapSize)
    fun item hi => hok item ((hmem item).mp hi)
  refine ⟨map', by rw [dbPlaySet, hselect]; exact hfold, hlen', ?_⟩
  simpa only [hmem, itemIds, marked_zeroMap, Set.empty_union] using hmarks

/-- Playing a range of deltas replays their journal entries. -/
theorem foldlM_dbPlayDelta (hitems : db.transItems.isSome) (hlen : map.length = mapSize)
    {ids : List ℕ} (hok : ∀ id ∈ ids, DeltaOk db mapSize id)
    (hchange : ∀ id ∈ ids, entryAt db id =
      .change (itemIds db id .add) (itemIds db id .remove)) :
    ∃ map', ids.foldlM (dbPlayDelta db mapSize) map = .ok map' ∧ map'.length = mapSize ∧
      marked map' = replay (marked map) (ids.map (entryAt db)) := by
  induction ids generalizing map with
  | nil => exact ⟨map, rfl, hlen, rfl⟩
  | cons id rest ih =>
      obtain ⟨map₁, hplay, hlen₁, hmarks₁⟩ :=
        dbPlayDelta_marks hitems hlen (hok id List.mem_cons_self)
      obtain ⟨map', hfold, hlen', hmarks⟩ := ih hlen₁
        (fun i hi => hok i (List.mem_cons_of_mem id hi))
        fun i hi => hchange i (List.mem_cons_of_mem id hi)
      refine ⟨map', by rw [List.foldlM_cons, hplay]; exact hfold, hlen', ?_⟩
      rw [hmarks, hmarks₁, ← hchange id List.mem_cons_self]
      rfl

end Playing

/-- What the search for a baseline returns. -/
theorem latestBase_spec {transactions : AutoTable TransRow} {transId baseId : ℕ}
    (h : latestBase transactions transId = some baseId) :
    (∃ row, (baseId, row) ∈ transactions.rows ∧ row.type = .base) ∧ baseId ≤ transId ∧
      ∀ r ∈ transactions.rows, r.2.type = .base → r.1 ≤ transId → r.1 ≤ baseId := by
  obtain ⟨r, hfind, rfl⟩ := Option.map_eq_some_iff.mp h
  have hmem : r ∈ transactions.rows ∧ r.2.type = .base := by
    simpa using List.mem_of_find?_eq_some hfind
  have hle : r.1 ≤ transId := by simpa using List.find?_some hfind
  refine ⟨⟨r.2, hmem.1, hmem.2⟩, hle, ?_⟩
  intro s hs hbase hsle
  obtain ⟨newer, older, hsplit, hnewer⟩ := (List.find?_eq_some_iff_append.mp hfind).2
  have hs' : s ∈ (transactions.rows.filter fun r => r.2.type = .base).reverse := by
    simp [hs, hbase]
  have hdesc : (transactions.rows.filter fun r => r.2.type = .base).reverse.Pairwise
      fun a b => b.1 < a.1 := List.pairwise_reverse.mpr (transactions.ascending.filter _)
  rw [hsplit] at hs' hdesc
  rcases List.mem_append.mp hs' with hnew | hold
  · have hgt := hnewer s hnew
    simp only [Bool.not_eq_true', decide_eq_false_iff_not] at hgt
    exact absurd hsle hgt
  · rcases List.mem_cons.mp hold with rfl | hold
    · exact le_rfl
    · have htail := (List.pairwise_append.mp hdesc).2.1
      exact le_of_lt ((List.pairwise_cons.mp htail).1 s hold)

/-- `db_play_transaction` on an all-zero map marks the content of the journal from the
last baseline up to the transaction. -/
theorem dbPlayTransaction_content {db : Db} {transactions : AutoTable TransRow}
    {mapSize transId baseId : ℕ} (htrans : db.transactions = some transactions)
    (hitems : db.transItems.isSome) (hbase : latestBase transactions transId = some baseId)
    (hset : ItemsOk db mapSize baseId [.set])
    (hdelta : ∀ id, baseId < id → id ≤ transId → DeltaOk db mapSize id) :
    ∃ map, dbPlayTransaction db transId (zeroMap mapSize) mapSize = .ok map ∧
      map.length = mapSize ∧
      marked map = content ((List.range' baseId (transId - baseId + 1)).map (entryAt db)) := by
  obtain ⟨⟨row, hrow, htype⟩, hle, hlatest⟩ := latestBase_spec hbase
  have hentry : entryAt db baseId = .base (itemIds db baseId .set) := by
    rw [entryAt, htrans, Option.getD_some, if_pos ⟨(baseId, row), hrow, rfl, htype⟩]
  have hchange : ∀ id ∈ List.range' (baseId + 1) (transId - baseId), entryAt db id =
      .change (itemIds db id .add) (itemIds db id .remove) := by
    intro id hid
    have hrange := List.mem_range'_1.mp hid
    rw [entryAt, htrans, Option.getD_some, if_neg]
    rintro ⟨r, hr, rfl, hb⟩
    have := hlatest r hr hb (by omega)
    omega
  obtain ⟨map₀, hplay₀, hlen₀, hmarks₀⟩ := dbPlaySet_marks hitems hset
  obtain ⟨map, hplay, hlen, hmarks⟩ := foldlM_dbPlayDelta hitems hlen₀
    (fun id hid => by
      have hrange := List.mem_range'_1.mp hid
      exact hdelta id (by omega) (by omega)) hchange
  refine ⟨map, ?_, hlen, ?_⟩
  · rw [dbPlayTransaction, htrans]
    simp only [hbase, hplay₀]
    exact hplay
  · rw [hmarks, hmarks₀, List.range'_succ, List.map_cons, hentry]
    exact (content_of_base [] _ _).symm

end Tdnf.History
