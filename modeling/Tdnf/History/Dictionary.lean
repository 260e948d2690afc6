import Tdnf.History.Store
import Mathlib.Data.List.Forall2
import Mathlib.Data.List.Sort

/-!
# The NEVRA and name dictionaries

Every package string is stored once and referred to by its row id. The lookup
adds a missing entry, and `db_update_rpms` turns the packages rpm lists into a
sorted array of ids.
-/

namespace Tdnf.History

open Relational Procedure

/-- `db_get_dict_entry`: the id stored in `*pid`, `none` where the pointer is left
alone. The steps of both statements are not checked: a failing SELECT counts as
"not found", and after a failing INSERT the function still returns 0. -/
def dbGetDictEntry (failFind failInsert : StmtSite → Bool) (table : DictTable)
    (entry : String) (create : Bool) : DbProc (Option ℕ) := do
  let db := (← get).view
  prepareAndBind failFind (db.dict table).isSome 1
  match if failFind .step then none else (db.dict table).bind fun t => t.keyOf entry with
  | some id => pure (some id)
  | none =>
    if create then do
      prepareAndBind failInsert (db.dict table).isSome 1
      if failInsert .step then
        pure none
      else do
        modify (Conn.write fun db => db.setDict (insertInto (db.dict table) entry) table)
        pure (some (nextKey (db.dict table)))
    else
      pure (some 0)

/-- `db_add_nevra` -/
def dbAddNevra (failFind failInsert : StmtSite → Bool) (nevra : String) : DbProc (Option ℕ) :=
  dbGetDictEntry failFind failInsert .rpms nevra true

/-- The loop of `db_update_rpms` from package `i` on. The array comes from `calloc`,
so an id that was not stored reads 0. -/
def dbAddNevras (fail : Faults) : ℕ → List String → DbProc (List ℕ)
  | _, [] => pure []
  | i, nevra :: rest => do
    let id ← dbAddNevra (fun s => fail (.dictFind i s)) (fun s => fail (.dictInsert i s)) nevra
    let ids ← dbAddNevras fail (i + 1) rest
    pure (id.getD 0 :: ids)

/-- `sort_array` -/
def sortArray (ids : List ℕ) : List ℕ := ids.insertionSort (· ≤ ·)

/-- `db_update_rpms` for a caller that wants the ids. -/
def dbUpdateRpms (fail : Faults) (nevras : List String) : DbProc (List ℕ) := do
  execCreate (fail .createRpms) createRpms
  let ids ← dbAddNevras fail 0 nevras
  pure (sortArray ids)

/-- What the SELECT of package `i` returns. -/
def found (fail : Faults) (i : ℕ) (t : AutoTable String) (nevra : String) : Option ℕ :=
  if fail (.dictFind i .step) then none else t.keyOf nevra

/-- Some package that its SELECT does not return has a failing INSERT step. -/
def lostInsert (fail : Faults) : ℕ → AutoTable String → List String → Bool
  | _, _, [] => false
  | i, t, nevra :: rest =>
    match found fail i t nevra with
    | some _ => lostInsert fail (i + 1) t rest
    | none =>
      fail (.dictInsert i .step) || lostInsert fail (i + 1) (t.insert nevra) rest

/-- Some checked call of the dictionary pass fails. -/
def dictStops (fail : Faults) : ℕ → AutoTable String → List String → Bool
  | _, _, [] => false
  | i, t, nevra :: rest =>
    stmtStops (fun s => fail (.dictFind i s)) 1 ||
      match found fail i t nevra with
      | some _ => dictStops fail (i + 1) t rest
      | none =>
        stmtStops (fun s => fail (.dictInsert i s)) 1 ||
          if fail (.dictInsert i .step) then dictStops fail (i + 1) t rest
          else dictStops fail (i + 1) (t.insert nevra) rest

/-- The ids a dictionary pass assigns and the dictionary it leaves behind. -/
def dictPass (fail : Faults) : ℕ → AutoTable String → List String → List ℕ × AutoTable String
  | _, t, [] => ([], t)
  | i, t, nevra :: rest =>
    match found fail i t nevra with
    | some id =>
      let pass := dictPass fail (i + 1) t rest
      (id :: pass.1, pass.2)
    | none =>
      if fail (.dictInsert i .step) then
        let pass := dictPass fail (i + 1) t rest
        (0 :: pass.1, pass.2)
      else
        let pass := dictPass fail (i + 1) (t.insert nevra) rest
        ((t.seq + 1) :: pass.1, pass.2)

theorem mem_sortArray (ids : List ℕ) (id : ℕ) : id ∈ sortArray ids ↔ id ∈ ids :=
  List.mem_insertionSort (r := (· ≤ ·))

theorem sortArray_ordered (ids : List ℕ) : (sortArray ids).Pairwise (· ≤ ·) :=
  List.pairwise_insertionSort (r := (· ≤ ·)) ids

/-- Distinct ids are sorted strictly. -/
theorem sortArray_ascending {ids : List ℕ} (h : ids.Nodup) :
    (sortArray ids).Pairwise (· < ·) := by
  have hnodup : (sortArray ids).Nodup := (List.perm_insertionSort (· ≤ ·) ids).nodup_iff.mpr h
  exact (sortArray_ordered ids).imp₂ (fun a b hle hne => lt_of_le_of_ne hle hne) hnodup

section Connection

/-- The connection after the NEVRA dictionary became `t`. -/
def Conn.setRpms (t : AutoTable String) (c : Conn) : Conn :=
  c.write fun db => { db with rpms := some t }

@[simp] theorem Conn.view_setRpms (t : AutoTable String) (c : Conn) :
    (c.setRpms t).view = { c.view with rpms := some t } := by
  simp [Conn.setRpms]

@[simp] theorem Conn.setRpms_setRpms (t u : AutoTable String) (c : Conn) :
    (c.setRpms t).setRpms u = c.setRpms u := by
  obtain ⟨db, w⟩ := c
  cases w with
  | none => rfl
  | some w => rfl

theorem Conn.setRpms_self {t : AutoTable String} {c : Conn} (h : c.view.rpms = some t) :
    c.setRpms t = c := by
  obtain ⟨db, w⟩ := c
  cases w with
  | none => simp only [Conn.view_closed] at h; simp [Conn.setRpms, ← h]
  | some w => simp only [Conn.view_open] at h; simp [Conn.setRpms, ← h]

end Connection

/-- The complete behaviour of one dictionary access on an existing table. -/
theorem dbAddNevra_run (fail : Faults) (i : ℕ) (nevra : String) {c : Conn}
    {t : AutoTable String} (h : c.view.rpms = some t) :
    (dbAddNevra (fun s => fail (.dictFind i s)) (fun s => fail (.dictInsert i s)) nevra).run c =
      if stmtStops (fun s => fail (.dictFind i s)) 1 then .error .sqliteError c
      else match found fail i t nevra with
        | some id => .ok (some id) c
        | none =>
          if stmtStops (fun s => fail (.dictInsert i s)) 1 then .error .sqliteError c
          else if fail (.dictInsert i .step) then .ok none c
          else .ok (some (t.seq + 1)) (c.setRpms (t.insert nevra)) := by
  have hdict : c.view.dict .rpms = some t := h
  have hget : (get : DbProc Conn).run c = .ok c c := rfl
  rw [dbAddNevra, dbGetDictEntry, run_bind_ok hget]
  by_cases hfind : stmtStops (fun s => fail (.dictFind i s)) 1 = true
  · rw [if_pos hfind]
    exact run_bind_error (by rw [hdict, Option.isSome_some, prepareAndBind_run, if_pos hfind])
  rw [if_neg hfind,
    run_bind_ok (by rw [hdict, Option.isSome_some, prepareAndBind_run, if_neg hfind])]
  have hfound : (if fail (.dictFind i .step) then none
      else (c.view.dict .rpms).bind fun t => t.keyOf nevra) = found fail i t nevra := by
    simp [found, hdict]
  rw [hfound]
  cases found fail i t nevra with
  | some id => rfl
  | none =>
      by_cases hins : stmtStops (fun s => fail (.dictInsert i s)) 1 = true
      · simp only [hins, if_true]
        exact run_bind_error (by rw [hdict, Option.isSome_some, prepareAndBind_run, if_pos hins])
      simp only [if_true]
      rw [if_neg hins,
        run_bind_ok (by rw [hdict, Option.isSome_some, prepareAndBind_run, if_neg hins])]
      cases fail (.dictInsert i .step) with
      | true => rfl
      | false =>
          have hwrite : c.write (fun db =>
              db.setDict (insertInto (db.dict .rpms) nevra) .rpms) =
              c.setRpms (t.insert nevra) := by
            obtain ⟨db, w⟩ := c
            cases w with
            | none =>
                simp only [Conn.view_closed] at h
                simp [Conn.setRpms, Db.setDict, Db.dict, h]
            | some w =>
                simp only [Conn.view_open] at h
                simp [Conn.setRpms, Db.setDict, Db.dict, h]
          rw [← hwrite, hdict]
          rfl

/-- What a dictionary pass over `nevras` from package `i` on leaves behind. -/
structure DictPass (fail : Faults) (i : ℕ) (t : AutoTable String) (nevras : List String)
    (ids : List ℕ) (t' : AutoTable String) : Prop where
  grown : ∃ added, t' = t.insertAll added
  entries : List.Forall₂ (fun id nevra => id = 0 ∨ (id, nevra) ∈ t'.rows) ids nevras
  lost : 0 ∈ ids ↔ lostInsert fail i t nevras = true
  nodup : (∀ j, fail (.dictFind j .step) = false) → t.values.Nodup → t'.values.Nodup

theorem found_mem {fail : Faults} {i : ℕ} {t : AutoTable String} {nevra : String} {id : ℕ}
    (h : found fail i t nevra = some id) : (id, nevra) ∈ t.rows := by
  unfold found at h
  split at h
  · cases h
  · exact AutoTable.mem_of_keyOf h

theorem dictPass_spec (fail : Faults) (nevras : List String) (i : ℕ) (t : AutoTable String) :
    DictPass fail i t nevras (dictPass fail i t nevras).1 (dictPass fail i t nevras).2 := by
  induction nevras generalizing i t with
  | nil => exact ⟨⟨[], rfl⟩, .nil, by simp [dictPass, lostInsert], fun _ hn => hn⟩
  | cons nevra rest ih =>
      simp only [dictPass]
      cases hfound : found fail i t nevra with
      | some id =>
          have h := ih (i + 1) t
          obtain ⟨added, hgrown⟩ := h.grown
          have hmem := found_mem hfound
          have hpos : 0 < id := (t.keys _ hmem).1
          refine ⟨h.grown, .cons (.inr ?_) h.entries, ?_, h.nodup⟩
          · exact hgrown ▸ t.mem_insertAll_of_mem added hmem
          · simp only [lostInsert, hfound, ← h.lost, List.mem_cons]
            exact or_iff_right (by omega)
      | none =>
          cases hstep : fail (.dictInsert i .step) with
          | true =>
              have h := ih (i + 1) t
              exact ⟨h.grown, .cons (.inl rfl) h.entries,
                by simp [lostInsert, hfound, hstep], h.nodup⟩
          | false =>
              have h := ih (i + 1) (t.insert nevra)
              obtain ⟨added, hgrown⟩ := h.grown
              refine ⟨⟨nevra :: added, hgrown⟩, .cons (.inr ?_) h.entries, ?_, ?_⟩
              · simp only [Bool.false_eq_true, if_false, hgrown]
                exact AutoTable.mem_insertAll_of_mem _ added
                  ((AutoTable.mem_insert _ _ _).mpr (.inr rfl))
              · simp only [Bool.false_eq_true, if_false, lostInsert, hfound, hstep,
                  Bool.false_or, ← h.lost, List.mem_cons]
                exact or_iff_right (by omega)
              · intro hfind hnodup
                have hnew : nevra ∉ t.values := by
                  rw [← AutoTable.keyOf_eq_none_iff]
                  simpa [found, hfind i] using hfound
                apply h.nodup hfind
                rw [AutoTable.values_insert, List.nodup_append]
                refine ⟨hnodup, List.nodup_singleton _, fun a ha b hb hab => hnew ?_⟩
                rwa [← List.mem_singleton.mp hb, ← hab]

/-- The dictionary pass fails exactly where a checked call does, and writes nothing
but the NEVRA dictionary. -/
theorem dbAddNevras_wp (fail : Faults) (nevras : List String) (i : ℕ) {c : Conn}
    {t : AutoTable String} (h : c.view.rpms = some t) :
    wp (dbAddNevras fail i nevras)
      (fun ids c' => dictStops fail i t nevras = false ∧
        ids = (dictPass fail i t nevras).1 ∧ c' = c.setRpms (dictPass fail i t nevras).2)
      (fun _ c' => dictStops fail i t nevras = true ∧ ∃ t', c' = c.setRpms t') c := by
  induction nevras generalizing i c t with
  | nil => exact ⟨rfl, rfl, (Conn.setRpms_self h).symm⟩
  | cons nevra rest ih =>
      rw [dbAddNevras, wp_bind, wp, dbAddNevra_run fail i nevra h]
      simp only [dictStops, dictPass]
      cases hfind : stmtStops (fun s => fail (.dictFind i s)) 1 with
      | true => exact ⟨rfl, t, (Conn.setRpms_self h).symm⟩
      | false =>
          simp only [Bool.false_or, Bool.false_eq_true, if_false]
          cases found fail i t nevra with
          | some id =>
              simp only [wp_bind]
              refine wp_mono (ih (i + 1) h) ?_ fun _ _ he => he
              rintro ids c' ⟨hstops, rfl, hc'⟩
              exact ⟨hstops, rfl, hc'⟩
          | none =>
              cases hins : stmtStops (fun s => fail (.dictInsert i s)) 1 with
              | true => exact ⟨rfl, t, (Conn.setRpms_self h).symm⟩
              | false =>
                  cases hstep : fail (.dictInsert i .step) with
                  | true =>
                      simp only [Bool.false_or, Bool.false_eq_true, if_false, if_true, wp_bind]
                      refine wp_mono (ih (i + 1) h) ?_ fun _ _ he => he
                      rintro ids c' ⟨hstops, rfl, hc'⟩
                      exact ⟨hstops, rfl, hc'⟩
                  | false =>
                      simp only [Bool.false_or, Bool.false_eq_true, if_false, wp_bind]
                      have hview : (c.setRpms (t.insert nevra)).view.rpms =
                          some (t.insert nevra) := by simp
                      refine wp_mono (ih (i + 1) hview) ?_ ?_
                      · rintro ids c' ⟨hstops, rfl, hc'⟩
                        exact ⟨hstops, rfl, by simpa using hc'⟩
                      · rintro e c' ⟨hstops, t', hc'⟩
                        exact ⟨hstops, t', by simpa using hc'⟩

/-- The dictionary before the pass; `db_update_rpms` creates it if necessary. -/
def Conn.dictionary (c : Conn) : AutoTable String := c.view.rpms.getD AutoTable.empty

theorem createRpms_write (c : Conn) : c.write createRpms = c.setRpms c.dictionary := by
  obtain ⟨db, w⟩ := c
  cases w with
  | none => rfl
  | some w => rfl

/-- The ids `db_update_rpms` returns and the dictionary it leaves behind. -/
def rpmsPass (fail : Faults) (nevras : List String) (c : Conn) : List ℕ × AutoTable String :=
  ((sortArray (dictPass fail 0 c.dictionary nevras).1), (dictPass fail 0 c.dictionary nevras).2)

/-- Some checked call of `db_update_rpms` fails. -/
def rpmsStops (fail : Faults) (nevras : List String) (c : Conn) : Bool :=
  fail .createRpms || dictStops fail 0 c.dictionary nevras

/-- `db_update_rpms` under any choice of failing statements. -/
theorem dbUpdateRpms_wp (fail : Faults) (nevras : List String) (c : Conn) :
    wp (dbUpdateRpms fail nevras)
      (fun ids c' => rpmsStops fail nevras c = false ∧
        ids = (rpmsPass fail nevras c).1 ∧ c' = c.setRpms (rpmsPass fail nevras c).2)
      (fun _ c' => rpmsStops fail nevras c = true ∧ (c' = c ∨ ∃ t', c' = c.setRpms t')) c := by
  rw [dbUpdateRpms, wp_bind, execCreate, rpmsStops]
  cases hcreate : fail .createRpms with
  | true => exact ⟨rfl, .inl rfl⟩
  | false =>
      simp only [Bool.false_eq_true, if_false, wp_modify, Bool.false_or, wp_bind,
        createRpms_write]
      have hview : (c.setRpms c.dictionary).view.rpms = some c.dictionary := by simp
      refine wp_mono (dbAddNevras_wp fail nevras 0 hview) ?_ ?_
      · rintro raw c' ⟨hstops, rfl, hc'⟩
        exact ⟨hstops, rfl, by simpa [rpmsPass] using hc'⟩
      · rintro e c' ⟨hstops, t', hc'⟩
        exact ⟨hstops, .inr ⟨t', by simpa using hc'⟩⟩

theorem lostInsert_noFault (i : ℕ) (t : AutoTable String) (nevras : List String) :
    lostInsert noFault i t nevras = false := by
  induction nevras generalizing i t with
  | nil => rfl
  | cons nevra rest ih =>
      simp only [lostInsert]
      split <;> simp [ih]

theorem dictStops_noFault (i : ℕ) (t : AutoTable String) (nevras : List String) :
    dictStops noFault i t nevras = false := by
  induction nevras generalizing i t with
  | nil => rfl
  | cons nevra rest ih =>
      have hstops : stmtStops (fun _ => false) 1 = false := stmtStops_noStmtFault 1
      simp only [dictStops, noFault_apply, hstops, Bool.false_or]
      split <;> simp [ih]

/-- The NEVRA dictionary knows each package once. -/
structure Interned (t : AutoTable String) (nevras : List String) (ids : List ℕ)
    (t' : AutoTable String) : Prop where
  grown : ∃ added, t' = t.insertAll added
  ascending : nevras.Nodup → ids.Pairwise (· < ·)
  mem_ids : ∀ id, id ∈ ids ↔ ∃ nevra ∈ nevras, (id, nevra) ∈ t'.rows
  known : ∀ nevra ∈ nevras, ∃ id, (id, nevra) ∈ t'.rows
  nodup : t'.values.Nodup

section Entries

variable {t : AutoTable String} {ids : List ℕ} {nevras : List String}

theorem entries_of_pos
    (h : List.Forall₂ (fun id nevra => id = 0 ∨ (id, nevra) ∈ t.rows) ids nevras)
    (hzero : 0 ∉ ids) : List.Forall₂ (fun id nevra => (id, nevra) ∈ t.rows) ids nevras := by
  induction h with
  | nil => exact .nil
  | @cons id nevra ids nevras hhead htail ih =>
      obtain ⟨hid, hids⟩ := not_or.mp (List.mem_cons.not.mp hzero)
      exact .cons (hhead.resolve_left (Ne.symm hid)) (ih hids)

variable (h : List.Forall₂ (fun id nevra => (id, nevra) ∈ t.rows) ids nevras)

include h

theorem exists_entry {id : ℕ} (hid : id ∈ ids) : ∃ nevra ∈ nevras, (id, nevra) ∈ t.rows := by
  induction h with
  | nil => cases hid
  | @cons head nevra ids nevras hhead htail ih =>
      rcases List.mem_cons.mp hid with rfl | hid
      · exact ⟨nevra, List.mem_cons_self, hhead⟩
      · obtain ⟨n, hn, hrow⟩ := ih hid
        exact ⟨n, List.mem_cons_of_mem _ hn, hrow⟩

theorem exists_id {nevra : String} (hmem : nevra ∈ nevras) :
    ∃ id ∈ ids, (id, nevra) ∈ t.rows := by
  induction h with
  | nil => cases hmem
  | @cons id head ids nevras hhead htail ih =>
      rcases List.mem_cons.mp hmem with rfl | hmem
      · exact ⟨id, List.mem_cons_self, hhead⟩
      · obtain ⟨k, hk, hrow⟩ := ih hmem
        exact ⟨k, List.mem_cons_of_mem _ hk, hrow⟩

/-- Counting ids is counting packages. -/
theorem countP_entries {p : ℕ → Bool} {q : String → Bool}
    (hpq : ∀ r ∈ t.rows, p r.1 = q r.2) : ids.countP p = nevras.countP q := by
  induction h with
  | nil => rfl
  | @cons id nevra ids nevras hhead htail ih =>
      have hsame : p id = q nevra := hpq _ hhead
      rw [List.countP_cons, List.countP_cons, ih, hsame]

/-- Distinct packages have distinct ids, because a key determines its row. -/
theorem ids_nodup (hlisted : nevras.Nodup) : ids.Nodup := by
  induction h with
  | nil => exact List.nodup_nil
  | @cons id nevra ids nevras hhead htail ih =>
      obtain ⟨hnew, hrest⟩ := List.nodup_cons.mp hlisted
      refine List.nodup_cons.mpr ⟨fun hid => hnew ?_, ih hrest⟩
      obtain ⟨nevra', hmem, hrow⟩ := exists_entry htail hid
      exact t.row_unique hhead hrow ▸ hmem

end Entries

theorem rpmsStops_noFault (nevras : List String) (c : Conn) :
    rpmsStops noFault nevras c = false := by
  simp [rpmsStops, dictStops_noFault]

/-- The pass of `db_update_rpms` when no statement fails and the dictionary has no
duplicates. -/
theorem interned_rpmsPass (nevras : List String) (c : Conn)
    (hnodup : c.dictionary.values.Nodup) :
    Interned c.dictionary nevras (rpmsPass noFault nevras c).1 (rpmsPass noFault nevras c).2 := by
  have hpass := dictPass_spec noFault nevras 0 c.dictionary
  have hzero : 0 ∉ (dictPass noFault 0 c.dictionary nevras).1 := by
    simp [hpass.lost, lostInsert_noFault]
  have hnodup' := hpass.nodup (fun _ => rfl) hnodup
  have hentries := entries_of_pos hpass.entries hzero
  refine ⟨hpass.grown, ?_, ?_, ?_, hnodup'⟩
  · exact fun hlisted => sortArray_ascending (ids_nodup hentries hlisted)
  · intro id
    rw [rpmsPass, mem_sortArray]
    constructor
    · exact exists_entry hentries
    · rintro ⟨nevra, hmem, hrow⟩
      obtain ⟨id', hid', hrow'⟩ := exists_id hentries hmem
      exact AutoTable.key_unique _ hnodup' hrow hrow' ▸ hid'
  · intro nevra hmem
    obtain ⟨id, -, hrow⟩ := exists_id hentries hmem
    exact ⟨id, hrow⟩

/-- The ids of a pass belong to the listed packages one by one. -/
theorem rpmsPass_entries (nevras : List String) (c : Conn) :
    ∃ ids, (rpmsPass noFault nevras c).1.Perm ids ∧
      List.Forall₂ (fun id nevra => (id, nevra) ∈ (rpmsPass noFault nevras c).2.rows) ids
        nevras := by
  have hpass := dictPass_spec noFault nevras 0 c.dictionary
  have hzero : 0 ∉ (dictPass noFault 0 c.dictionary nevras).1 := by
    simp [hpass.lost, lostInsert_noFault]
  exact ⟨_, List.perm_insertionSort _ _, entries_of_pos hpass.entries hzero⟩

theorem dbUpdateRpms_noFault (nevras : List String) (c : Conn) :
    (dbUpdateRpms noFault nevras).run c =
      .ok (rpmsPass noFault nevras c).1 (c.setRpms (rpmsPass noFault nevras c).2) := by
  have hwp := dbUpdateRpms_wp noFault nevras c
  simp only [rpmsStops_noFault, Bool.false_eq_true, false_and, true_and] at hwp
  obtain ⟨ids, c', hrun, rfl, rfl⟩ := exists_ok hwp
  exact hrun

end Tdnf.History
