import Tdnf.History.World

/-!
# Recorded sets and the deltas between them

In every reachable world a recorded transaction replays to the packages it was
recorded with. The deltas offered for undo, redo and rollback therefore lead
from one recorded set to another, and redo is the exact inverse of undo.
-/

namespace Tdnf.History

open Relational Procedure

/-- The installed ids at a transaction. -/
def World.installedAt (w : World) (t : ℕ) : Set ℕ :=
  idsOf (w.db.rpms.getD AutoTable.empty) (w.recorded t)

section Reachable

variable {rpm : Set RpmDb} {w : World}

/-- A file with a transaction holds a consistent history. -/
theorem Inv.written (hinv : Inv rpm w) (hpos : 0 < w.db.newest) : Written rpm w :=
  hinv.history.resolve_left fun hfresh => by
    rw [hfresh.newest] at hpos
    exact lt_irrefl 0 hpos

theorem Chronicle.installedAt_eq {transactions : AutoTable TransRow}
    {items : AutoTable ItemRow} {rpms : AutoTable String}
    (h : Chronicle rpm w.recorded w.db transactions items rpms) (t : ℕ) :
    w.installedAt t = idsOf rpms (w.recorded t) := by
  rw [World.installedAt, h.rpmsTable, Option.getD_some]

/-- Replaying a recorded transaction on an empty map succeeds and marks exactly the ids of
the packages it was recorded with. -/
theorem dbPlayTransaction_recorded (hrpm : RpmContract rpm) (h : Reachable rpm w)
    {transactions : AutoTable TransRow} (htrans : w.db.transactions = some transactions)
    {t : ℕ} {row : TransRow} (hrow : (t, row) ∈ transactions.rows) :
    ∃ rpms map, w.db.rpms = some rpms ∧
      dbPlayTransaction w.db t (zeroMap rpms.lastKey) rpms.lastKey = .ok map ∧
      marked map = idsOf rpms (w.recorded t) := by
  have hkeys := transactions.keys _ hrow
  have hle := transactions.key_le_lastKey hrow
  have hpos : 0 < w.db.newest := by
    rw [Db.newest, htrans, maxKey_some]
    exact lt_of_lt_of_le hkeys.1 hle
  obtain ⟨transactions', items, rpms, hchron, -⟩ := (inv_of_reachable hrpm h).written hpos
  have hsame : transactions' = transactions :=
    Option.some.inj (hchron.transactionsTable.symm.trans htrans)
  subst hsame
  obtain ⟨map, hplay, -, hmarks⟩ := hchron.dbPlayTransaction_marks hkeys.1 hkeys.2
  exact ⟨rpms, map, hchron.rpmsTable, hplay, hmarks⟩

end Reachable

section FirstSession

/-- A first session that only synced. -/
def firstSync (r : RpmDb) (now : ℤ) : World :=
  World.after ⟨Db.fresh, some ⟨createHistoryCtx Db.fresh, false⟩, r, fun _ => []⟩
    ⟨createHistoryCtx Db.fresh, false⟩ (.sync now)

theorem reachable_firstSync {rpm : Set RpmDb} {r : RpmDb} (hr : r ∈ rpm) (now : ℤ) :
    Reachable rpm (firstSync r now) := by
  have hopen := Reachable.step (.initial r hr) (.opens _ rfl)
  exact hopen.step (.call _ _ (.sync now) rfl trivial)

/-- The session of `firstSync`. -/
def firstSession (r : RpmDb) (now : ℤ) : Session where
  ctx := World.ctxAfter ⟨Db.fresh, some ⟨createHistoryCtx Db.fresh, false⟩, r, fun _ => []⟩
    ⟨createHistoryCtx Db.fresh, false⟩ (.sync now)
  synced := true

/-- A first session that synced, saw the rpm database change to `r'` and recorded it. -/
def firstUpdate (r r' : RpmDb) (now : ℤ) (cmdline : Option String) : World :=
  World.after { firstSync r now with rpmdb := r' } (firstSession r now) (.update now cmdline)

theorem reachable_firstUpdate {rpm : Set RpmDb} {r r' : RpmDb} (hr : r ∈ rpm) (hr' : r' ∈ rpm)
    (now : ℤ) (cmdline : Option String) : Reachable rpm (firstUpdate r r' now cmdline) :=
  ((reachable_firstSync hr now).step (.rpm _ r' hr')).step
    (.call _ _ (.update now cmdline) rfl rfl)

theorem rpmContract_pair {r r' : RpmDb} (h : r.nevras.Nodup) (h' : r'.nevras.Nodup)
    (hne : r.cookie ≠ r'.cookie) : RpmContract {r, r'} := by
  constructor
  · rintro r₁ (rfl | rfl)
    · exact h
    · exact h'
  · rintro r₁ (rfl | rfl) r₂ (rfl | rfl) hcookie
    · exact fun _ => Iff.rfl
    · exact absurd hcookie hne
    · exact absurd hcookie.symm hne
    · exact fun _ => Iff.rfl

theorem rpmContract_singleton {r : RpmDb} (h : r.nevras.Nodup) : RpmContract {r} := by
  constructor
  · rintro r' rfl
    exact h
  · rintro r₁ rfl r₂ rfl -
    exact fun _ => Iff.rfl

end FirstSession

theorem dbPlayTransaction_recorded_firstSync :
    ∃ rpms map, (firstSync ⟨["a-1-1.x86_64"], "c"⟩ 0).db.rpms = some rpms ∧
      dbPlayTransaction (firstSync ⟨["a-1-1.x86_64"], "c"⟩ 0).db 1 (zeroMap rpms.lastKey)
        rpms.lastKey = .ok map ∧
      marked map = idsOf rpms ((firstSync ⟨["a-1-1.x86_64"], "c"⟩ 0).recorded 1) :=
  dbPlayTransaction_recorded (rpmContract_singleton (by decide))
    (reachable_firstSync (Set.mem_singleton _) 0) rfl List.mem_cons_self

section Delta

/-- Remove the removed ids and add the added ones. -/
def HistoryDelta.apply (d : HistoryDelta) (s : Set ℕ) : Set ℕ :=
  (s \ {id | id ∈ d.removedIds}) ∪ {id | id ∈ d.addedIds}

/-- Both id lists are strictly ascending and they have no id in common. -/
structure HistoryDelta.Ordered (d : HistoryDelta) : Prop where
  added : d.addedIds.Pairwise (· < ·)
  removed : d.removedIds.Pairwise (· < ·)
  disjoint : d.addedIds.Disjoint d.removedIds

/-- The delta in the other direction. -/
def HistoryDelta.swap (d : HistoryDelta) : HistoryDelta :=
  { addedIds := d.removedIds, removedIds := d.addedIds }

/-- The delta that leads from the ids `xs` to the ids `ys`. -/
def deltaBetween (xs ys : List ℕ) : HistoryDelta :=
  { addedIds := (diffArrays xs ys).2, removedIds := (diffArrays xs ys).1 }

variable {xs ys : List ℕ}

theorem deltaBetween_ordered (hx : xs.Pairwise (· < ·)) (hy : ys.Pairwise (· < ·)) :
    (deltaBetween xs ys).Ordered := by
  obtain ⟨hremoved, hadded⟩ := OrderedDiff.diff_ascending hx hy
  refine ⟨hadded, hremoved, fun id hadd hrem => ?_⟩
  have hmem := OrderedDiff.mem_diff hx hy id
  exact (hmem.2.mp hadd).2 (hmem.1.mp hrem).1

theorem deltaBetween_apply (hx : xs.Pairwise (· < ·)) (hy : ys.Pairwise (· < ·)) :
    (deltaBetween xs ys).apply {id | id ∈ xs} = {id | id ∈ ys} := by
  ext id
  have hmem := OrderedDiff.mem_diff hx hy id
  simp only [HistoryDelta.apply, deltaBetween, diffArrays, Set.mem_union, Set.mem_sdiff,
    Set.mem_ofPred_eq, hmem.1, hmem.2]
  tauto

theorem deltaBetween_swap (xs ys : List ℕ) :
    deltaBetween ys xs = (deltaBetween xs ys).swap := by
  rw [deltaBetween, diffArrays, OrderedDiff.diff_swap]
  rfl

end Delta

section Commands

variable {rpm : Set RpmDb} {w : World} {s : Session}

/-- What a session replays: every recorded set, in order. -/
theorem playedIds_recorded (hinv : Inv rpm w) (hs : w.session = some s) {t : ℕ} (hpos : 0 < t)
    (hle : t ≤ w.db.newest) :
    ∃ ids, playedIds s.ctx.db.view t = .ok ids ∧ ids.Pairwise (· < ·) ∧
      {id | id ∈ ids} = w.installedAt t := by
  obtain ⟨transactions, items, rpms, h, -⟩ := hinv.written (lt_of_lt_of_le hpos hle)
  rw [h.newest_eq] at hle
  obtain ⟨ids, hplayed, hasc, hids⟩ := h.playedIds_spec hpos hle
  refine ⟨ids, by simpa [hinv.session s hs] using hplayed, hasc, ?_⟩
  rw [h.installedAt_eq]
  exact Set.ext hids

/-- The id list of a session's context is strictly ascending. -/
theorem installedIds_ascending (hinv : Inv rpm w) (hs : w.session = some s)
    (hpos : 0 < w.db.newest) : s.ctx.installedIds.Pairwise (· < ·) := by
  obtain ⟨transactions, items, rpms, h, hctx⟩ := hinv.written hpos
  exact (hctx s hs).ascending

/-- UNDO leads from the set at `last` to the one before `first`, REDO is its exact inverse,
and ROLLBACK leads from the current set of the context to the one at `t`; from the newest
set it is the UNDO of everything after `t`. -/
theorem history_deltas (hrpm : RpmContract rpm) (h : Reachable rpm w) (hs : w.session = some s)
    {first last t : ℕ} (hfirst : 1 < first) (hrange : first ≤ last) (hlast : last ≤ w.db.newest)
    (ht : 0 < t) (htle : t ≤ w.db.newest) :
    ∃ undo redo rollback, historyGetDeltaRange s.ctx (first - 1) last = some undo ∧
      historyGetDeltaRange s.ctx last (first - 1) = some redo ∧
      historyGetDelta s.ctx t = some rollback ∧
      (undo.Ordered ∧ redo.Ordered ∧ rollback.Ordered) ∧
      undo.apply (w.installedAt last) = w.installedAt (first - 1) ∧
      redo = undo.swap ∧ redo.apply (undo.apply (w.installedAt last)) = w.installedAt last ∧
      rollback.apply {id | id ∈ s.ctx.installedIds} = w.installedAt t ∧
      ({id | id ∈ s.ctx.installedIds} = w.installedAt w.db.newest →
        historyGetDeltaRange s.ctx (t + 1 - 1) w.db.newest = some rollback) := by
  have hinv := inv_of_reachable hrpm h
  have hcur := installedIds_ascending hinv hs (lt_of_lt_of_le ht htle)
  obtain ⟨idsTo, hto, htoAsc, htoSet⟩ := playedIds_recorded hinv hs (by omega) hlast
  obtain ⟨idsFrom, hfrom, hfromAsc, hfromSet⟩ :=
    playedIds_recorded hinv hs (show 0 < first - 1 by omega) (by omega)
  obtain ⟨ids, hplayed, hasc, hset⟩ := playedIds_recorded hinv hs ht htle
  have hundo := deltaBetween_apply htoAsc hfromAsc
  have hredo := deltaBetween_apply hfromAsc htoAsc
  refine ⟨deltaBetween idsTo idsFrom, deltaBetween idsFrom idsTo,
    deltaBetween s.ctx.installedIds ids, ?_, ?_, ?_, ⟨deltaBetween_ordered htoAsc hfromAsc,
    deltaBetween_ordered hfromAsc htoAsc, deltaBetween_ordered hcur hasc⟩, ?_,
    deltaBetween_swap _ _, ?_, ?_, ?_⟩
  · simp only [historyGetDeltaRange, hfrom, hto]
    rfl
  · simp only [historyGetDeltaRange, hfrom, hto]
    rfl
  · simp only [historyGetDelta, hplayed]
    rfl
  · rw [← htoSet, hundo, hfromSet]
  · rw [← htoSet, hundo, hredo]
  · rw [deltaBetween_apply hcur hasc, hset]
  · intro hnewest
    obtain ⟨idsNew, hnew, hnewAsc, hnewSet⟩ := playedIds_recorded hinv hs (by omega) le_rfl
    have hsame : s.ctx.installedIds = idsNew :=
      OrderedDiff.eq_of_mem_iff hcur hnewAsc fun id =>
        Set.ext_iff.mp (hnewest.trans hnewSet.symm) id
    simp only [historyGetDeltaRange, Nat.add_sub_cancel, hplayed, hnew, hsame]
    rfl

theorem history_deltas_firstUpdate :
    ∃ undo s, (firstUpdate ⟨["a-1-1"], "c"⟩ ⟨["b-1-1"], "d"⟩ 0 (some "install b")).session = some s ∧
      historyGetDeltaRange s.ctx 1 2 = some undo ∧
      undo.apply ((firstUpdate ⟨["a-1-1"], "c"⟩ ⟨["b-1-1"], "d"⟩ 0
        (some "install b")).installedAt 2) =
      (firstUpdate ⟨["a-1-1"], "c"⟩ ⟨["b-1-1"], "d"⟩ 0 (some "install b")).installedAt 1 := by
  have hcontract : RpmContract {⟨["a-1-1"], "c"⟩, ⟨["b-1-1"], "d"⟩} :=
    rpmContract_pair (by decide) (by decide) (by decide)
  have hreach : Reachable {⟨["a-1-1"], "c"⟩, ⟨["b-1-1"], "d"⟩}
      (firstUpdate ⟨["a-1-1"], "c"⟩ ⟨["b-1-1"], "d"⟩ 0 (some "install b")) :=
    reachable_firstUpdate (by simp) (by simp) 0 (some "install b")
  obtain ⟨undo, -, -, hundo, -, -, -, happly, -⟩ := history_deltas hcontract hreach rfl
    (show 1 < 2 by decide) (le_refl 2) (show 2 ≤ _ from le_of_eq rfl) Nat.one_pos
    (show 1 ≤ _ from Nat.le_of_ble_eq_true rfl)
  exact ⟨undo, _, rfl, hundo, happly⟩

end Commands

end Tdnf.History
